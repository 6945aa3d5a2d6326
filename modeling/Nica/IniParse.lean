import Nica.IniBuilt

/-! # What an INI file parses to

On a file without NULs and with fewer than `2 ^ 29` lines the parser ends with the first error of the
grammar, or with the map of maps that merges the sections of the file (`Merged`), unless it is stopped
before by a line with a text that it cannot count (`ParseEnds`).  That happens to a value behind
`2 ^ 31` blanks (`parse_overlong_value`). -/

namespace Nica

open CString NcHashmap Fueled

/-- `getline` returns all characters of the file. -/
theorem flatten_rawLines (content : Bytes) : (rawLines content).flatten = content := by
  induction content with
  | nil => rfl
  | cons c content ih =>
      rw [rawLines]
      split_ifs
      · rw [List.flatten_cons, ih]
        rfl
      · cases h : rawLines content with
        | nil => rw [h] at ih; rw [← ih]; rfl
        | cons raw raws => rw [h] at ih; rw [← ih]; rfl

theorem chomp_subset (raw : Bytes) : chomp raw ⊆ raw := by
  unfold chomp
  split_ifs
  · exact List.dropLast_subset raw
  · exact List.Subset.refl raw

theorem lines_subset {content l : Bytes} (hl : l ∈ lines content) : l ⊆ content := by
  rw [← map_chomp_rawLines, List.mem_map] at hl
  obtain ⟨raw, hraw, rfl⟩ := hl
  intro c hc
  rw [← flatten_rawLines content]
  exact List.mem_flatten.mpr ⟨raw, hraw, chomp_subset raw hc⟩

variable {content : Bytes} {read : Bool → Bytes → Line}

/-- How the parser ends on a file: it accepts it, it fails at the first line with an error, or a line
stops it. -/
inductive ParseEnds (read : Bool → Bytes → Line) (content : Bytes) (errorLineNumber : Bool)
    (run : ℕ → Except Stop Outcome) : Prop
  | accepted {p : Parser} {names : List Bytes} :
      Returns run ⟨0, some ⟨p.root, p.sections⟩, none⟩ → Built read (lines content) names p →
      (∀ i, Passed read (lines content) i) → ParseEnds read content errorLineNumber run
  | failed {i : ℕ} {err : NcIniError} :
      Returns run ⟨-err.code, none, if errorLineNumber then some (i + 1) else none⟩ →
      errorAt read (lines content) i = some err → stopAt read (lines content) i = none →
      (∀ j < i, Passed read (lines content) j) → ParseEnds read content errorLineNumber run
  | stopped {i : ℕ} {s : Stop} : Fails run s → stopAt read (lines content) i = some s →
      (∀ j < i, Passed read (lines content) j) → ParseEnds read content errorLineNumber run

theorem parse_ends (slack : ℕ → Bytes) (errorLineNumber : Bool)
    (hread : ∀ l ∈ lines content, ∀ b, interpret b l = read b l)
    (hn : (lines content).length < 2 ^ 29) :
    ParseEnds read content errorLineNumber
      fun f => ncIniFileParseFull f slack (some content) true errorLineNumber := by
  simp only [parse_eq_runLines]
  cases Built.run_ends hread hn with
  | passed hr hB hall =>
      obtain ⟨names, B⟩ := hB
      exact .accepted (hr.bind (Returns.pure _)) B fun i => hall i (Nat.zero_le i)
  | failed hr hB herr hstop hall =>
      obtain ⟨names, B⟩ := hB
      exact .failed (hr.bind (B.freeRoot.bind (Returns.pure _))) herr hstop
        fun j => hall j (Nat.zero_le j)
  | stopped hf hstop hall => exact .stopped (hf.bind _) hstop fun j => hall j (Nat.zero_le j)

/-- Files without NULs. -/
theorem parse_ends_plain (slack : ℕ → Bytes) (errorLineNumber : Bool) (h0 : 0 ∉ content)
    (hn : (lines content).length < 2 ^ 29) :
    ParseEnds classify content errorLineNumber
      fun f => ncIniFileParseFull f slack (some content) true errorLineNumber :=
  parse_ends slack errorLineNumber
    (fun _ hl => interpret_eq_classify fun h => h0 (lines_subset hl h)) hn

namespace ParseEnds

variable {errorLineNumber : Bool} {run : ℕ → Except Stop Outcome} {out : Outcome}

/-- A parser that returns was not stopped. -/
theorem guarded (E : ParseEnds read content errorLineNumber run) (hout : Returns run out) :
    Guarded read (lines content) := by
  intro k hk
  cases E with
  | accepted hr B hall => exact absurd (hall k).2 hk
  | @failed i err hr herr hstop hall =>
      refine ⟨i, ?_, by rw [herr]; exact Option.some_ne_none err⟩
      rcases Nat.lt_trichotomy k i with hlt | rfl | hgt
      · exact absurd (hall k hlt).2 hk
      · exact absurd hstop hk
      · exact hgt
  | stopped hf hstop hall => exact absurd hout hf.not_returns

/-- On guarded lines the parser is not stopped. -/
theorem not_stopped (hg : Guarded read (lines content)) {i : ℕ} {s : Stop}
    (hstop : stopAt read (lines content) i = some s)
    (hall : ∀ j < i, Passed read (lines content) j) : False := by
  obtain ⟨j, hj, herr⟩ := hg i (by rw [hstop]; exact Option.some_ne_none s)
  exact herr (hall j hj).1

end ParseEnds

theorem errorAt_eq_none {ls : List Bytes} (h : ∀ i < ls.length, errorAt read ls i = none) (i : ℕ) :
    errorAt read ls i = none := by
  rcases Nat.lt_or_ge i ls.length with hi | hi
  · exact h i hi
  · exact errorAt_none_of_length_le hi

theorem passed_of_lt {ls : List Bytes} (h : ∀ i < ls.length, Passed read ls i) (i : ℕ) :
    Passed read ls i := by
  rcases Nat.lt_or_ge i ls.length with hi | hi
  · exact h i hi
  · exact ⟨errorAt_none_of_length_le hi, stopAt_none_of_length_le hi⟩

theorem guarded_of_lt {ls : List Bytes} (h : ∀ i < ls.length, stopAt read ls i = none) :
    Guarded read ls := by
  intro i hi
  rcases Nat.lt_or_ge i ls.length with hlt | hge
  · exact absurd (h i hlt) hi
  · exact absurd (stopAt_none_of_length_le hge) hi

/-- The grammar has no internal error. -/
theorem errorAt_ne_internal {ls : List Bytes} {i : ℕ} :
    errorAt classify ls i ≠ some .internal := by
  unfold errorAt
  cases ls[i]? with
  | none => exact nofun
  | some l =>
      simp only
      generalize (sectionBefore classify (ls.take i)).isSome = b
      unfold classify
      simp only
      split_ifs <;> simp

theorem NcIniError.code_pos (err : NcIniError) : 0 < err.code := by cases err <;> decide

theorem NcIniError.code_injective : Function.Injective NcIniError.code := by
  intro err err' h
  cases err <;> cases err' <;> first | rfl | exact absurd h (by decide)

/-- There is only one first error. -/
theorem first_error_unique {ls : List Bytes} {i j : ℕ} {err err' : NcIniError}
    (hi : errorAt read ls i = some err) (hfirst : ∀ k < i, errorAt read ls k = none)
    (hj : errorAt read ls j = some err') (hjfirst : ∀ k < j, errorAt read ls k = none) :
    i = j ∧ err = err' := by
  obtain rfl : i = j := by
    rcases Nat.lt_trichotomy i j with hlt | heq | hgt
    · rw [hjfirst i hlt] at hi
      cases hi
    · exact heq
    · rw [hfirst j hgt] at hj
      cases hj
  exact ⟨rfl, Option.some.inj (hi.symm.trans hj)⟩

/-- What the grammar says of the outcome: a file is accepted if no line has an error, and otherwise
the first error is reported. -/
structure GrammarOutcome (content : Bytes) (errorLineNumber : Bool) (out : Outcome) : Prop where
  accepts : out.ret = 0 ↔ ∀ i, errorAt classify (lines content) i = none
  reports : ∀ i err, errorAt classify (lines content) i = some err →
    (∀ j < i, errorAt classify (lines content) j = none) →
    out.ret = -err.code ∧ out.outMap = none ∧
      out.errorLine = if errorLineNumber then some (i + 1) else none
  stored : out.ret = 0 → out.outMap.isSome = true ∧ out.errorLine = none
  not_internal : out.ret ≠ -NcIniError.internal.code

/-- The parser accepts exactly the grammar and reports the first error, if no line that it reaches
stops it. -/
theorem parse_accepts_grammar (slack : ℕ → Bytes) (errorLineNumber : Bool) (h0 : 0 ∉ content)
    (hn : (lines content).length < 2 ^ 29) :
    (∃ out, Returns (fun f => ncIniFileParseFull f slack (some content) true errorLineNumber) out ∧
      GrammarOutcome content errorLineNumber out) ↔ Guarded classify (lines content) := by
  have E := parse_ends_plain slack errorLineNumber h0 hn
  constructor
  · rintro ⟨out, hr, -⟩
    exact E.guarded hr
  intro hg
  cases E with
  | accepted hr B hall =>
      refine ⟨_, hr, iff_of_true rfl fun i => (hall i).1, fun i err h => ?_, fun _ => ⟨rfl, rfl⟩,
        (by decide : (0 : ℤ) ≠ -NcIniError.internal.code)⟩
      rw [(hall i).1] at h
      cases h
  | @failed i err hr he hstop hall =>
      have hret : -err.code ≠ 0 := by
        have hpos := err.code_pos
        omega
      refine ⟨_, hr, iff_of_false hret fun h => ?_, fun j err' hj hjfirst => ?_,
        fun h => absurd h hret, fun h => ?_⟩
      · rw [h i] at he
        cases he
      · obtain ⟨rfl, rfl⟩ := first_error_unique he (fun k hk => (hall k hk).1) hj hjfirst
        exact ⟨rfl, rfl, rfl⟩
      · rw [NcIniError.code_injective (Int.neg_inj.mp h)] at he
        exact errorAt_ne_internal he
  | stopped hf hstop hall => exact (ParseEnds.not_stopped hg hstop hall).elim

/-- `[s]`, `k`: the second line is no assignment. -/
theorem parse_accepts_grammar_invalid : ∃ out,
    Returns (fun f => ncIniFileParseFull f (fun _ => []) (some [91, 115, 93, 10, 107, 10]) true true)
      out ∧ out.ret = -5 ∧ out.outMap = none ∧ out.errorLine = some 2 := by
  obtain ⟨out, hr, G⟩ := (parse_accepts_grammar (fun _ => []) true
    (show 0 ∉ ([91, 115, 93, 10, 107, 10] : Bytes) by decide) (by decide)).mpr
    (guarded_of_lt (by decide))
  exact ⟨out, hr, G.reports 1 .invalidLine (by decide) (by decide)⟩

/-! ### A value that cannot be counted -/

theorem lines_unbroken {l : Bytes} (h : 10 ∉ l) (hne : l ≠ []) : lines l = [l] := by
  unfold lines
  rw [List.splitOn_eq_singleton h]
  exact if_neg fun he => hne (Option.some.inj he)

/-- `k=` with `n` blanks and an `x`. -/
def paddedLine (n : ℕ) : Bytes := [107] ++ 61 :: (List.replicate n 32 ++ [120])

/-- The section `s` and in it the padded line. -/
def paddedFile (n : ℕ) : Bytes := [91, 115, 93, 10] ++ paddedLine n

theorem lines_paddedFile (n : ℕ) : lines (paddedFile n) = [[91, 115, 93], paddedLine n] := by
  have hlast : lines (paddedLine n) = [paddedLine n] := by
    apply lines_unbroken
    · simp [paddedLine]
    · exact List.cons_ne_nil _ _
  have hfile : paddedFile n = 91 :: 115 :: 93 :: 10 :: paddedLine n := rfl
  rw [hfile, lines_cons (by decide), lines_cons (by decide), lines_cons (by decide), lines_newline,
    hlast]

theorem strip_paddedLine (n : ℕ) :
    strip (paddedLine n) = 107 :: [] ++ 61 :: (List.replicate n 32 ++ [120]) := by
  rw [paddedLine, strip_equals, List.rdropWhile_concat_neg _ _ _ (by decide),
    List.dropWhile_cons_of_neg (by decide)]

theorem fitsInt_padded (n : ℕ) : FitsInt (List.replicate n 32 ++ [120]) ↔ n ≤ intMax := by
  have hblank : ∀ c ∈ List.replicate n (32 : UInt8), isBlank c = true := by
    intro c hc
    rw [List.eq_of_mem_replicate hc]
    decide
  rw [FitsInt, List.takeWhile_append_of_pos hblank, List.dropWhile_append_of_pos hblank,
    List.takeWhile_cons_of_neg (by decide), List.dropWhile_cons_of_neg (by decide), List.append_nil,
    List.length_replicate]
  exact and_iff_left (by decide)

/-- The file has no error, and the parser is stopped when it cannot count the blanks. -/
theorem paddedFile_stops {n : ℕ} (hn : intMax < n) :
    0 ∉ paddedFile n ∧ (lines (paddedFile n)).length = 2 ∧
      (∀ i, errorAt classify (lines (paddedFile n)) i = none) ∧
      ¬ Guarded classify (lines (paddedFile n)) := by
  have h0 : 0 ∉ paddedLine n := by simp [paddedLine]
  have hclass := classify_of_key (strip_paddedLine n) (by decide) (by decide) (by decide) (by decide)
  have hstop := stopOf_of_key h0 (strip_paddedLine n) (by decide) (by decide) (by decide)
  rw [if_neg fun h => Nat.not_le.mpr hn ((fitsInt_padded n).mp h.2)] at hstop
  have hsection : sectionBefore classify [[91, 115, 93]] = some [115] := by decide
  rw [lines_paddedFile]
  have herrors : ∀ i, errorAt classify [[91, 115, 93], paddedLine n] i = none := by
    refine errorAt_eq_none fun i hi => ?_
    match i, hi with
    | 0, _ => rfl
    | 1, _ =>
        simp only [errorAt, List.getElem?_cons_succ, List.getElem?_cons_zero, List.take_succ_cons,
          List.take_zero, hsection, hclass]
        rfl
  refine ⟨?_, rfl, herrors, fun hg => ?_⟩
  · simp [paddedFile, h0]
  · obtain ⟨j, -, hne⟩ := hg 1 (by
      simp only [stopAt, List.getElem?_cons_succ, List.getElem?_cons_zero, List.take_succ_cons,
        List.take_zero, hsection, Option.isSome_some, hstop]
      exact Option.some_ne_none _)
    exact hne (herrors j)

/-- A file of two lines without an error, with a value behind `2 ^ 31` blanks. -/
theorem parse_overlong_value :
    0 ∉ paddedFile (2 ^ 31) ∧ (lines (paddedFile (2 ^ 31))).length < 2 ^ 29 ∧
      (∀ i, errorAt classify (lines (paddedFile (2 ^ 31))) i = none) ∧
      ¬ ∃ out, Returns (fun f => ncIniFileParseFull f (fun _ => []) (some (paddedFile (2 ^ 31))) true
        true) out := by
  obtain ⟨h0, hlen, herrors, hg⟩ := paddedFile_stops (n := 2 ^ 31) (by decide)
  have hn : (lines (paddedFile (2 ^ 31))).length < 2 ^ 29 := by
    rw [hlen]
    decide
  refine ⟨h0, hn, herrors, ?_⟩
  rintro ⟨out, hr⟩
  exact hg ((parse_ends_plain (fun _ => []) true h0 hn).guarded hr)

/-! ### The map of maps -/

/-- `m` is the map of maps of the lines `ls`. -/
structure Merged (ls : List Bytes) (m : IniMap) : Prop where
  names : ∀ k, (∃ v, Holds m.root k v) ↔ ∃ name ∈ ls.filterMap (headerOf classify), k = some name
  once : NoTwins m.root
  sections : ∀ k v, Holds m.root k v → ∃ h sectionMap, v = some h ∧ m.sections[h]? = some sectionMap
  apart : ∀ k k' v, Holds m.root k v → Holds m.root k' v → k = k'
  pairs : ∀ name (h : ℕ) sectionMap, Holds m.root (some name) (some h) →
    m.sections[h]? = some sectionMap → NoTwins sectionMap ∧ ∀ k v, Holds sectionMap k v ↔
      ∃ key value, k = some key ∧ v = some value ∧ LastValue classify ls name key value

theorem Stringly.noTwins {V : Type} [Null V] {s : State Text V} {n : ℕ} (S : Stringly s n) :
    NoTwins s := by
  obtain ⟨tails, T, -⟩ := S.wellFormed.table
  exact T.noTwins S.lawful.toLawful

/-- The invariant at the end of the file. -/
theorem Built.merged {ls names : List Bytes} {p : Parser} (B : Built classify ls names p) :
    Merged ls ⟨p.root, p.sections⟩ where
  names k := by
    constructor
    · rintro ⟨v, hv⟩
      obtain ⟨h, name, hn, rfl, rfl⟩ := (B.held k v).mp hv
      exact ⟨name, (B.mem name).mp (List.mem_of_getElem? hn), rfl⟩
    · rintro ⟨name, hname, rfl⟩
      obtain ⟨h, hh, hn⟩ := List.getElem_of_mem ((B.mem name).mpr hname)
      exact ⟨some h, (B.held _ _).mpr ⟨h, name, by rw [List.getElem?_eq_getElem hh, hn], rfl, rfl⟩⟩
  once := B.root.noTwins
  sections k v hv := by
    obtain ⟨h, name, hn, rfl, rfl⟩ := (B.held k v).mp hv
    obtain ⟨m, hm⟩ := B.exists_map hn
    exact ⟨h, m, rfl, hm⟩
  apart k k' v hv hv' := by
    obtain ⟨h, name, hn, rfl, rfl⟩ := (B.held k v).mp hv
    obtain ⟨h', name', hn', rfl, heq⟩ := (B.held k' _).mp hv'
    obtain rfl := Option.some.inj heq
    exact hn.symm.trans hn'
  pairs name h m hv hm := by
    obtain ⟨h', name', hn, heq, heq'⟩ := (B.held _ _).mp hv
    obtain rfl := Option.some.inj heq
    obtain rfl := Option.some.inj heq'
    obtain ⟨S, hS⟩ := B.maps h name m hn hm
    exact ⟨S.noTwins, hS⟩

/-- A file whose lines are passed. -/
theorem parse_accepted (slack : ℕ → Bytes) (errorLineNumber : Bool) (h0 : 0 ∉ content)
    (hn : (lines content).length < 2 ^ 29) (hall : ∀ i, Passed classify (lines content) i) :
    ∃ p names, Returns (fun f => ncIniFileParseFull f slack (some content) true errorLineNumber)
        ⟨0, some ⟨p.root, p.sections⟩, none⟩ ∧ Built classify (lines content) names p := by
  cases parse_ends_plain slack errorLineNumber h0 hn with
  | accepted hr B _ => exact ⟨_, _, hr, B⟩
  | @failed i err _ herr _ _ =>
      rw [(hall i).1] at herr
      cases herr
  | @stopped i s _ hstop _ =>
      rw [(hall i).2] at hstop
      cases hstop

/-- A file that is accepted. -/
theorem built_of_accepted {slack : ℕ → Bytes} {errorLineNumber : Bool} (h0 : 0 ∉ content)
    (hn : (lines content).length < 2 ^ 29) {out : Outcome}
    (hout : Returns (fun f => ncIniFileParseFull f slack (some content) true errorLineNumber) out)
    (hret : out.ret = 0) : ∃ p names, out = ⟨0, some ⟨p.root, p.sections⟩, none⟩ ∧
      Built classify (lines content) names p ∧ ∀ i, Passed classify (lines content) i := by
  cases parse_ends_plain slack errorLineNumber h0 hn with
  | accepted hr B hall => exact ⟨_, _, hout.unique hr, B, hall⟩
  | @failed i err hr _ _ _ =>
      have hpos := err.code_pos
      obtain rfl := hout.unique hr
      exact absurd hret (by simp only; omega)
  | stopped hf _ _ => exact absurd hout hf.not_returns

/-- The section `name` maps `key` to `value`. -/
def IniMap.Value (m : IniMap) (name key value : Text) : Prop :=
  ∃ h sectionMap, Holds m.root name (some h) ∧ m.sections[h]? = some sectionMap ∧
    Holds sectionMap key value

theorem Merged.value_iff {ls : List Bytes} {m : IniMap} (M : Merged ls m) {name key value : Bytes} :
    m.Value (some name) (some key) (some value) ↔ LastValue classify ls name key value := by
  constructor
  · rintro ⟨h, sectionMap, hroot, hsec, hv⟩
    obtain ⟨key', value', hk, hv, hlast⟩ := ((M.pairs name h sectionMap hroot hsec).2 _ _).mp hv
    obtain rfl := Option.some.inj hk
    obtain rfl := Option.some.inj hv
    exact hlast
  · intro hlast
    obtain ⟨v, hroot⟩ := (M.names (some name)).mpr ⟨name, hlast.mem, rfl⟩
    obtain ⟨h, sectionMap, rfl, hsec⟩ := M.sections _ v hroot
    exact ⟨h, sectionMap, hroot, hsec,
      ((M.pairs name h sectionMap hroot hsec).2 _ _).mpr ⟨key, value, rfl, rfl, hlast⟩⟩

/-- The map of an accepted file merges its sections; the last assignment to a key wins. -/
theorem parse_merges_sections (slack : ℕ → Bytes) {errorLineNumber : Bool} (h0 : 0 ∉ content)
    (hn : (lines content).length < 2 ^ 29) {out : Outcome}
    (hout : Returns (fun f => ncIniFileParseFull f slack (some content) true errorLineNumber) out)
    (hret : out.ret = 0) : ∃ m, out.outMap = some m ∧ Merged (lines content) m := by
  obtain ⟨p, names, rfl, B, -⟩ := built_of_accepted h0 hn hout hret
  exact ⟨_, rfl, B.merged⟩

/-- `[s]`, `k=1`, `[t]`, `[s]`, `k=2`. -/
theorem parse_merges_sections_repeated : ∃ m, Returns (fun f => ncIniFileParseFull f (fun _ => [])
      (some [91, 115, 93, 10, 107, 61, 49, 10, 91, 116, 93, 10, 91, 115, 93, 10, 107, 61, 50, 10])
      true false) ⟨0, some m, none⟩ ∧ m.Value (some [115]) (some [107]) (some [50]) := by
  generalize hc : ([91, 115, 93, 10, 107, 61, 49, 10, 91, 116, 93, 10, 91, 115, 93, 10, 107, 61, 50,
    10] : Bytes) = content
  have hlines : lines content = [[91, 115, 93], [107, 61, 49], [91, 116, 93], [91, 115, 93],
      [107, 61, 50]] := by
    rw [← hc]
    decide
  have h0 : 0 ∉ content := by rw [← hc]; decide
  have hn : (lines content).length < 2 ^ 29 := by rw [hlines]; decide
  obtain ⟨p, names, hr, -⟩ := parse_accepted (fun _ => []) false h0 hn
    (passed_of_lt (by rw [hlines]; decide))
  obtain ⟨m, hm, M⟩ := parse_merges_sections (fun _ => []) h0 hn hr rfl
  obtain rfl := Option.some.inj hm
  refine ⟨_, hr, M.value_iff.mpr ?_⟩
  rw [hlines]
  refine ⟨4, [50], ⟨_, rfl, by decide, by decide⟩, by decide, fun j hj text ha => ?_⟩
  have hlt := ha.lt
  simp only [List.length_cons, List.length_nil] at hlt
  omega

end Nica
