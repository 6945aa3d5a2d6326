import Nica.IniPadding

/-! # Files one behind the other

The value that a program looks up with `nc_hashmap_get(nc_hashmap_get(ini, name), key)` is that of
the last assignment (`Built.lookup`).  When a file that ends its last line is followed by another
one, and the parser accepts both, it accepts them together: the sections are those of both, and a
value of the second file hides the one of the first (`parse_concatenated`). -/

namespace Nica

open CString NcHashmap Fueled

/-! ### Lines of two files -/

theorem lines_append {a : Bytes} (ha : a = [] ∨ a.getLast? = some 10) (b : Bytes) :
    lines (a ++ b) = lines a ++ lines b := by
  cases ha with
  | inl hnil =>
      subst hnil
      rfl
  | inr hlast =>
      obtain ⟨l, rfl⟩ := List.getLast?_eq_some_iff.mp hlast
      obtain ⟨ls, hls⟩ := lines_append_newline l
      have hempty := hls []
      rw [show lines [] = [] from rfl, List.append_nil] at hempty
      rw [List.append_assoc, List.singleton_append, hls, hempty]

section append
variable {read : Bool → Bytes → Line} {ls ls' : List Bytes} {name key value : Bytes}

theorem sectionBefore_append : sectionBefore read (ls ++ ls') =
    (sectionBefore read ls').or (sectionBefore read ls) := by
  rw [sectionBefore, sectionBefore, sectionBefore, List.filterMap_append, List.getLast?_append]

theorem errorAt_append_left {i : ℕ} (hi : i < ls.length) :
    errorAt read (ls ++ ls') i = errorAt read ls i := by
  rw [errorAt, errorAt, List.getElem?_append_left hi, List.take_append_of_le_length hi.le]

theorem stopAt_append_left {i : ℕ} (hi : i < ls.length) :
    stopAt read (ls ++ ls') i = stopAt read ls i := by
  rw [stopAt, stopAt, List.getElem?_append_left hi, List.take_append_of_le_length hi.le]

theorem passed_append_left {i : ℕ} (hi : i < ls.length) :
    Passed read (ls ++ ls') i ↔ Passed read ls i := by
  rw [Passed, Passed, errorAt_append_left hi, stopAt_append_left hi]

theorem errorAt_eq_none_iff {i : ℕ} {l : Bytes} (hl : ls[i]? = some l) :
    errorAt read ls i = none ↔
      ∀ err, read (sectionBefore read (ls.take i)).isSome l ≠ .error err := by
  rw [errorAt, hl]
  simp only
  cases read (sectionBefore read (ls.take i)).isSome l <;> simp

/-- A line with texts that cannot be counted is an assignment, or wrong for another reason. -/
theorem classify_overlong {l : Bytes} (h : Overlong (strip l)) (b : Bool) :
    classify b l =
      if b = false then .error .noSection
      else if strip (beforeEquals (strip l)) = [] then .error .emptyKey
      else .assignment (strip (beforeEquals (strip l))) (afterEquals (strip l)) := by
  obtain ⟨h61, hfirst, -⟩ := h
  simp only [List.mem_cons, List.not_mem_nil, or_false, not_or] at hfirst
  unfold classify
  simp only
  rw [if_neg (List.ne_nil_of_mem h61), if_neg hfirst.1, if_neg (not_or.mpr hfirst.2),
    if_neg (not_not.mpr h61)]

/-- A line that is passed before any header is passed behind one. -/
theorem stopOf_true {b : Bool} {l : Bytes} (h0 : 0 ∉ l) (hok : ∀ err, classify b l ≠ .error err)
    (hs : stopOf b l = none) : stopOf true l = none := by
  cases b with
  | true => exact hs
  | false =>
      rw [stopOf_plain h0]
      exact if_neg fun h => hok .noSection (classify_overlong h.2 false)

/-- A line that is neither an assignment nor an error does not stop the parser. -/
theorem stopOf_other {l : Bytes} (h0 : 0 ∉ l) (hok : ∀ err, classify true l ≠ .error err)
    (hno : ∀ key text, classify true l ≠ .assignment key text) (b : Bool) : stopOf b l = none := by
  rw [stopOf_plain h0]
  refine if_neg fun h => ?_
  have hl := classify_overlong h.2 true
  rw [if_neg Bool.true_eq_false.mp] at hl
  split_ifs at hl
  · exact hok _ hl
  · exact hno _ _ hl

/-- Lines that are passed behind lines that are passed. -/
theorem passed_append (h0 : ∀ l ∈ ls', 0 ∉ l) (h : ∀ i, Passed classify ls i)
    (h' : ∀ i, Passed classify ls' i) (i : ℕ) : Passed classify (ls ++ ls') i := by
  by_cases hi : i < ls.length
  · exact (passed_append_left hi).mpr (h i)
  · obtain ⟨j, rfl⟩ : ∃ j, i = ls.length + j := ⟨i - ls.length, by omega⟩
    cases hl : ls'[j]? with
    | none =>
        have hlen : (ls ++ ls').length ≤ ls.length + j := by
          rw [List.length_append]
          have := List.getElem?_eq_none_iff.mp hl
          omega
        exact ⟨errorAt_none_of_length_le hlen, stopAt_none_of_length_le hlen⟩
    | some l =>
        have hl' : (ls ++ ls')[ls.length + j]? = some l := by
          rw [List.getElem?_append_right (by omega), Nat.add_sub_cancel_left, hl]
        have hnot := (errorAt_eq_none_iff hl).mp (h' j).1
        have hstop := (h' j).2
        rw [stopAt, hl] at hstop
        rw [Passed, errorAt_eq_none_iff hl', stopAt, hl', List.take_length_add_append,
          sectionBefore_append]
        cases hsection : sectionBefore classify (ls'.take j) with
        | some name =>
            rw [hsection] at hnot hstop
            exact ⟨hnot, hstop⟩
        | none =>
            rw [hsection] at hnot hstop
            rw [Option.none_or]
            cases (sectionBefore classify ls).isSome with
            | false => exact ⟨hnot, hstop⟩
            | true =>
                refine ⟨fun err herr => ?_, stopOf_true (h0 l (List.mem_of_getElem? hl)) hnot hstop⟩
                rw [classify_reading.read_true hnot] at herr
                exact hnot err herr

/-- An assignment without an error has its section in the same lines. -/
theorem assigns_append {l text : Bytes} (hok : ∀ i, errorAt classify (ls' ++ [l]) i = none) :
    (classify true l = .assignment key text ∧ sectionBefore classify (ls ++ ls') = some name) ↔
      classify true l = .assignment key text ∧ sectionBefore classify ls' = some name := by
  apply and_congr_right
  intro hl
  have hat : (ls' ++ [l])[ls'.length]? = some l := List.getElem?_concat_length
  have hnot := (errorAt_eq_none_iff hat).mp (hok ls'.length)
  rw [List.take_left] at hnot
  rw [classify_reading.read_true hnot] at hl
  obtain ⟨name', hname⟩ := Option.isSome_iff_exists.mp (classify_reading.sectioned hl)
  rw [sectionBefore_append, hname, Option.some_or]

theorem not_lastValue_nil : ¬ LastValue read [] name key value := by
  rintro ⟨i, text, hi, -⟩
  exact absurd hi.lt (Nat.not_lt_zero i)

/-- The last assignment in two files is that of the second one, if it has any. -/
theorem lastValue_append (hok : ∀ i, errorAt classify ls' i = none) :
    LastValue classify (ls ++ ls') name key value ↔ LastValue classify ls' name key value ∨
      (LastValue classify ls name key value ∧ ∀ v, ¬ LastValue classify ls' name key v) := by
  induction ls' using List.reverseRecOn generalizing value with
  | nil =>
      rw [List.append_nil]
      constructor
      · exact fun h => .inr ⟨h, fun v => not_lastValue_nil⟩
      · exact fun h => h.elim (fun hv => absurd hv not_lastValue_nil) And.left
  | append_singleton ls' l ih =>
      have hok' : ∀ i, errorAt classify ls' i = none := by
        intro i
        by_cases hi : i < ls'.length
        · rw [← errorAt_append_left hi]
          exact hok i
        · exact errorAt_none_of_length_le (Nat.le_of_not_lt hi)
      rw [← List.append_assoc, lastValue_snoc]
      simp only [lastValue_snoc, assigns_append hok]
      by_cases hassigns : ∃ text, classify true l = .assignment key text ∧
          sectionBefore classify ls' = some name
      · -- the last line assigns the key
        obtain ⟨text, hl, hs⟩ := hassigns
        constructor
        · rintro (hv | ⟨-, hno⟩)
          · exact .inl (.inl hv)
          · exact absurd ⟨hl, hs⟩ (hno text)
        · rintro ((hv | ⟨-, hno⟩) | ⟨-, hno⟩)
          · exact .inl hv
          · exact absurd ⟨hl, hs⟩ (hno text)
          · exact absurd (.inl ⟨text, ⟨hl, hs⟩, rfl⟩) (hno (chewText text))
      · have hno : ∀ text, ¬ (classify true l = .assignment key text ∧
            sectionBefore classify ls' = some name) := fun text h => hassigns ⟨text, h⟩
        constructor
        · rintro (⟨text, h, -⟩ | ⟨hlast, -⟩)
          · exact absurd h (hno text)
          · cases (ih hok').mp hlast with
            | inl hv => exact .inl (.inr ⟨hv, hno⟩)
            | inr hv =>
                refine .inr ⟨hv.1, fun v => ?_⟩
                rintro (⟨text, h, -⟩ | ⟨hv', -⟩)
                · exact hno text h
                · exact hv.2 v hv'
        · rintro ((⟨text, h, -⟩ | ⟨hv, -⟩) | ⟨hv, hnone⟩)
          · exact absurd h (hno text)
          · exact .inr ⟨(ih hok').mpr (.inl hv), hno⟩
          · exact .inr ⟨(ih hok').mpr (.inr ⟨hv, fun v hv' => hnone v (.inr ⟨hv', hno⟩)⟩), hno⟩

end append

/-! ### Looking values up -/

/-- `nc_hashmap_get(nc_hashmap_get(ini, name), key)`; a section that is NULL has no values. -/
def iniGet (fuel : ℕ) (m : IniMap) (name key : Text) : Except Stop Text := do
  match ← mapCall (get fuel m.root name) with
  | none => .ok none
  | some h =>
      match m.sections[h]? with
      | none => .error (.map .dangling)
      | some sectionMap => mapCall (get fuel sectionMap key)

/-- The two calls return the value of the last assignment, or NULL if there is none. -/
theorem Built.lookup {read : Bool → Bytes → Line} {ls names : List Bytes} {p : Parser}
    (B : Built read ls names p) (name key : Bytes) :
    ∃ v, Returns (fun f => iniGet f ⟨p.root, p.sections⟩ (some name) (some key)) v ∧
      ∀ value, v = some value ↔ LastValue read ls name key value := by
  by_cases hname : name ∈ names
  · obtain ⟨h, hh, hat⟩ := List.getElem_of_mem hname
    have hsome : names[h]? = some name := by rw [List.getElem?_eq_getElem hh, hat]
    obtain ⟨m, hm⟩ := B.exists_map hsome
    obtain ⟨S, hholds⟩ := B.maps h name m hsome hm
    have hget : ∀ v, Returns (fun f => get f m (some key)) v →
        Returns (fun f => iniGet f ⟨p.root, p.sections⟩ (some name) (some key)) v := by
      intro v hv
      have hlast : Returns (fun f =>
          match p.sections[h]? with
          | none => (.error (.map .dangling) : Except Stop Text)
          | some sectionMap => mapCall (get f sectionMap (some key))) v := by
        rw [hm]
        exact returns_mapCall hv
      exact (B.get_root hsome).bind (g := fun x f =>
        match x with
        | none => .ok none
        | some h =>
            match p.sections[h]? with
            | none => .error (.map .dangling)
            | some sectionMap => mapCall (get f sectionMap (some key))) hlast
    by_cases hvalue : ∃ value, LastValue read ls name key value
    · obtain ⟨value, hlast⟩ := hvalue
      refine ⟨some value, hget _ (S.get_held ((hholds _ _).mpr ⟨key, value, rfl, rfl, hlast⟩)), ?_⟩
      intro value'
      constructor
      · intro heq
        rw [← Option.some.inj heq]
        exact hlast
      · intro hlast'
        rw [hlast.unique hlast']
    · refine ⟨none, hget _ (S.get_absent fun v hv => ?_), fun value => ?_⟩
      · obtain ⟨key', value, hk, -, hlast⟩ := (hholds _ _).mp hv
        obtain rfl := Option.some.inj hk
        exact hvalue ⟨value, hlast⟩
      · constructor
        · intro heq
          cases heq
        · exact fun hlast => absurd ⟨value, hlast⟩ hvalue
  · refine ⟨none, ?_, fun value => ?_⟩
    · exact (B.get_root_absent hname).bind (Returns.pure none)
    · constructor
      · intro heq
        cases heq
      · exact fun hlast => absurd ((B.mem name).mpr hlast.mem) hname

/-! ### Two files in one -/

theorem Built.holds_name {read : Bool → Bytes → Line} {ls names : List Bytes} {p : Parser}
    (B : Built read ls names p) (name : Text) :
    (∃ v, Holds p.root name v) ↔ ∃ n ∈ ls.filterMap (headerOf read), name = some n := by
  constructor
  · rintro ⟨v, hv⟩
    obtain ⟨h, n, hn, rfl, -⟩ := (B.held _ _).mp hv
    exact ⟨n, (B.mem n).mp (List.mem_of_getElem? hn), rfl⟩
  · rintro ⟨n, hn, rfl⟩
    obtain ⟨h, hh, hat⟩ := List.getElem_of_mem ((B.mem n).mpr hn)
    exact ⟨some h, (B.held _ _).mpr ⟨h, n, by rw [List.getElem?_eq_getElem hh, hat], rfl, rfl⟩⟩

/-- The parser on a file, by its first error. -/
theorem parse_first_error (slack : ℕ → Bytes) (errorLineNumber : Bool) {content : Bytes}
    (h0 : 0 ∉ content) (hn : (lines content).length < 2 ^ 29) {i : ℕ} {err : NcIniError}
    (herr : errorAt classify (lines content) i = some err)
    (hstop : stopAt classify (lines content) i = none)
    (hfirst : ∀ j < i, Passed classify (lines content) j) :
    Returns (fun f => ncIniFileParseFull f slack (some content) true errorLineNumber)
      ⟨-err.code, none, if errorLineNumber then some (i + 1) else none⟩ := by
  cases parse_ends_plain slack errorLineNumber h0 hn with
  | accepted _ _ hall =>
      rw [(hall i).1] at herr
      cases herr
  | failed hr herr' _ hall =>
      obtain ⟨rfl, rfl⟩ := first_error_unique herr (fun k hk => (hfirst k hk).1) herr'
        fun k hk => (hall k hk).1
      exact hr
  | @stopped k s _ hstop' hall =>
      exfalso
      rcases Nat.lt_trichotomy i k with hlt | rfl | hlt
      · rw [(hall i hlt).1] at herr
        cases herr
      · rw [hstop] at hstop'
        cases hstop'
      · rw [(hfirst k hlt).2] at hstop'
        cases hstop'

/-- A file that is accepted has no errors, and the map is that of its lines. -/
theorem merged_of_accepted {slack : ℕ → Bytes} {errorLineNumber : Bool} {content : Bytes}
    (h0 : 0 ∉ content) (hn : (lines content).length < 2 ^ 29) {m : IniMap}
    (hacc : Returns (fun f => ncIniFileParseFull f slack (some content) true errorLineNumber)
      ⟨0, some m, none⟩) :
    Merged (lines content) m ∧ ∀ i, Passed classify (lines content) i := by
  obtain ⟨p, names, heq, B, hall⟩ := built_of_accepted h0 hn hacc rfl
  obtain rfl := Option.some.inj (congrArg Outcome.outMap heq)
  exact ⟨B.merged, hall⟩

/-- The parser on two files in one: an error of the first file is its result, and when both files
are accepted it returns the sections of both, with the values of the second file before those of the
first. -/
theorem parse_concatenated (slack slack' slack'' : ℕ → Bytes) (errorLineNumber : Bool)
    {a b : Bytes} (ha : a = [] ∨ a.getLast? = some 10) (h0 : 0 ∉ a ++ b)
    (hn : (lines (a ++ b)).length < 2 ^ 29) {out out' : Outcome}
    (hout : Returns (fun f => ncIniFileParseFull f slack (some a) true errorLineNumber) out)
    (hout' : Returns (fun f => ncIniFileParseFull f slack' (some b) true errorLineNumber) out') :
    (out.ret ≠ 0 →
      Returns (fun f => ncIniFileParseFull f slack'' (some (a ++ b)) true errorLineNumber) out) ∧
    (out.ret = 0 → out'.ret = 0 → ∃ m m' both, out.outMap = some m ∧ out'.outMap = some m' ∧
      Returns (fun f => ncIniFileParseFull f slack'' (some (a ++ b)) true errorLineNumber)
        ⟨0, some both, none⟩ ∧
      (∀ name, (∃ v, Holds both.root name v) ↔
        (∃ v, Holds m.root name v) ∨ ∃ v, Holds m'.root name v) ∧
      ∀ name key : Bytes, ∃ v v', Returns (fun f => iniGet f m (some name) (some key)) v ∧
        Returns (fun f => iniGet f m' (some name) (some key)) v' ∧
        Returns (fun f => iniGet f both (some name) (some key)) (v'.or v)) := by
  have hlines := lines_append ha b
  have hlen : (lines (a ++ b)).length = (lines a).length + (lines b).length := by
    rw [hlines, List.length_append]
  have h0a : 0 ∉ a := fun h => h0 (List.mem_append_left b h)
  have h0b : 0 ∉ b := fun h => h0 (List.mem_append_right a h)
  cases parse_ends_plain slack errorLineNumber h0a (by omega) with
  | stopped hf _ _ => exact absurd hout hf.not_returns
  | @failed i err hr herr hstop hall =>
      obtain rfl := hout.unique hr
      have hi : i < (lines a).length := by
        by_contra hle
        rw [errorAt_none_of_length_le (Nat.le_of_not_lt hle)] at herr
        cases herr
      have hcode := err.code_pos
      refine ⟨fun _ => ?_, fun hret => absurd hret (by simp only; omega)⟩
      apply parse_first_error slack'' errorLineNumber h0 hn
      · rw [hlines, errorAt_append_left hi, herr]
      · rw [hlines, stopAt_append_left hi, hstop]
      · intro j hj
        rw [hlines, passed_append_left (by omega)]
        exact hall j hj
  | @accepted p names hr B hall =>
      obtain rfl := hout.unique hr
      refine ⟨fun hret => absurd rfl hret, fun _ hret' => ?_⟩
      obtain ⟨p', names', rfl, B', hall'⟩ := built_of_accepted h0b (by omega) hout' hret'
      have hplain : ∀ l ∈ lines b, 0 ∉ l := fun l hl h => h0b (lines_subset hl h)
      obtain ⟨q, qnames, hq, Q⟩ := parse_accepted slack'' errorLineNumber h0 hn
        (hlines ▸ passed_append hplain hall hall')
      rw [hlines] at Q
      refine ⟨_, _, _, rfl, rfl, hq, fun name => ?_, fun name key => ?_⟩
      · -- the headers of both files
        simp only [Q.holds_name, B.holds_name, B'.holds_name, List.filterMap_append,
          List.mem_append, or_and_right, exists_or]
      · -- the last assignment is in the second file if there is one
        obtain ⟨v, hv, hlast⟩ := B.lookup name key
        obtain ⟨v', hv', hlast'⟩ := B'.lookup name key
        obtain ⟨w, hw, hlastw⟩ := Q.lookup name key
        refine ⟨v, v', hv, hv', ?_⟩
        have heq : w = v'.or v := by
          apply Option.ext
          intro value
          rw [hlastw, lastValue_append fun i => (hall' i).1, ← hlast', ← hlast]
          simp only [← hlast']
          cases v' with
          | none => simp
          | some x => simp
        rw [← heq]
        exact hw

/-- `[s]`, `k=1` and behind it `[s]`, `k=2`. -/
theorem parse_concatenated_hiding : ∃ both,
    Returns (fun f => ncIniFileParseFull f (fun _ => [])
      (some ([91, 115, 93, 10, 107, 61, 49, 10] ++ [91, 115, 93, 10, 107, 61, 50, 10])) true true)
      ⟨0, some both, none⟩ ∧
    Returns (fun f => iniGet f both (some [115]) (some [107])) (some [50]) := by
  have hlines : lines [91, 115, 93, 10, 107, 61, 49, 10] = [[91, 115, 93], [107, 61, 49]] := by
    decide
  have hlines' : lines [91, 115, 93, 10, 107, 61, 50, 10] = [[91, 115, 93], [107, 61, 50]] := by
    decide
  have h0 : (0 : UInt8) ∉ [91, 115, 93, 10, 107, 61, 49, 10] := by decide
  have h0' : (0 : UInt8) ∉ [91, 115, 93, 10, 107, 61, 50, 10] := by decide
  obtain ⟨p, _, hp, -⟩ := parse_accepted (fun _ => []) true h0
    (by rw [hlines]; decide) (by rw [hlines]; exact passed_of_lt (by decide))
  obtain ⟨q, _, hq, Q⟩ := parse_accepted (fun _ => []) true h0'
    (by rw [hlines']; decide) (by rw [hlines']; exact passed_of_lt (by decide))
  obtain ⟨m, m', both, -, hm', hboth, -, hget⟩ := (parse_concatenated (fun _ => []) (fun _ => [])
    (fun _ => []) true (.inr rfl) (by decide) (by decide) hp hq).2 rfl rfl
  obtain rfl := Option.some.inj hm'
  obtain ⟨v, v', -, hv', hw⟩ := hget [115] [107]
  obtain ⟨w, hlookup, hlast⟩ := Q.lookup [115] [107]
  obtain rfl := hv'.unique hlookup
  have hvalue : v' = some [50] := by
    refine (hlast [50]).mpr ?_
    rw [hlines']
    refine ⟨1, [50], ⟨_, rfl, by decide, by decide⟩, by decide, fun j hj text hassigns => ?_⟩
    have hlt := hassigns.lt
    simp only [List.length_cons, List.length_nil] at hlt
    omega
  rw [hvalue, Option.some_or] at hw
  exact ⟨both, hboth, hw⟩

end Nica
