import Nica.IniParse

/-! # Accesses of the parser

The parser stays inside of its blocks as long as it reaches no line that `string_strip` misreads, an
indented line with a NUL in it, and no assignment with a text that `string_chew_terminated` cannot
count: its `int` counters, with which it goes through the text, overflow there.  A line is reached
unless an earlier one has an error, so `Guarded` is the condition on the lines of a file.  It is enough
for every file, and below `2 ^ 29` lines the parser leaves a block, or a counter its range, in every
file that violates it. -/

namespace Nica

open CString NcHashmap Fueled

/-- No access was outside of its block, and no counter of the accesses out of its range. -/
def Inside {α : Type} (x : Except Stop α) : Prop := x ≠ .error .outside ∧ x ≠ .error .counter

theorem inside_ok {α : Type} (a : α) : Inside (.ok a : Except Stop α) := ⟨nofun, nofun⟩

theorem inside_map {α : Type} (f : Fault) : Inside (.error (.map f) : Except Stop α) :=
  ⟨nofun, nofun⟩

theorem Inside.bind {α β : Type} {x : Except Stop α} {f : α → Except Stop β} (hx : Inside x)
    (hf : ∀ a, Inside (f a)) : Inside (x >>= f) := by
  cases x with
  | error s =>
      exact ⟨fun h => hx.1 (congrArg Except.error (Except.error.inj h)),
        fun h => hx.2 (congrArg Except.error (Except.error.inj h))⟩
  | ok a => exact hf a

theorem inside_mapCall {α : Type} (x : Except Fault α) : Inside (mapCall x) := by
  cases x with
  | error f => exact inside_map f
  | ok a => exact inside_ok a

/-- The line number is no index. -/
theorem inside_lineCount (n : ℕ) : Inside (incr .lineCount n) := by
  unfold incr
  split_ifs
  · exact inside_ok _
  · exact ⟨nofun, nofun⟩

/-! ### Lines -/

theorem openSection_inside (fuel : ℕ) (p : Parser) (name : Bytes) :
    Inside (openSection fuel p name) := by
  refine (inside_mapCall _).bind fun v => ?_
  cases v with
  | none => exact (inside_mapCall _).bind fun _ => inside_ok _
  | some h => exact inside_ok _

theorem store_inside (fuel : ℕ) (p : Parser) (key value : Bytes) :
    Inside (store fuel p key value) := by
  refine (inside_mapCall _).bind fun v => ?_
  cases v with
  | none => exact inside_ok _
  | some h =>
      simp only
      cases p.sections[h]? with
      | none => exact inside_map _
      | some m =>
          refine (inside_mapCall _).bind fun x => ?_
          split_ifs <;> exact inside_ok _

/-- What the parser does with a line once it is read. -/
theorem act_inside (fuel : ℕ) (p : Parser) (line : Line) : Inside (act fuel p line) := by
  cases line with
  | blank => exact inside_ok _
  | comment => exact inside_ok _
  | header name => exact (openSection_inside fuel p name).bind fun _ => inside_ok _
  | assignment key text => exact store_inside fuel p key (chewText text)
  | error err => exact inside_ok _

theorem openSection_current {fuel : ℕ} {p p' : Parser} {name : Bytes}
    (h : openSection fuel p name = .ok p') : p'.currentSection = some name := by
  obtain ⟨v, -, h⟩ := ok_of_bind h
  cases v with
  | some _ => cases h; rfl
  | none =>
      obtain ⟨x, -, h⟩ := ok_of_bind h
      cases h
      rfl

theorem store_current {fuel : ℕ} {p p' : Parser} {key value : Bytes}
    (h : store fuel p key value = .ok (.next p')) : p'.currentSection = p.currentSection := by
  obtain ⟨v, -, h⟩ := ok_of_bind h
  cases v with
  | none => cases h
  | some v =>
      simp only at h
      cases hm : p.sections[v]? with
      | none => rw [hm] at h; cases h
      | some m =>
          rw [hm] at h
          obtain ⟨x, -, h⟩ := ok_of_bind h
          split_ifs at h
          · cases h
            rfl
          · cases h

/-- A line that is passed has no error, and sets the section as it says. -/
theorem act_next {fuel : ℕ} {p p' : Parser} {l : Bytes}
    (h : act fuel p (interpret p.currentSection.isSome l) = .ok (.next p')) :
    p'.currentSection = (headerOf interpret l).or p.currentSection ∧
      ∀ err, interpret p.currentSection.isSome l ≠ .error err := by
  have hok : ∀ err, interpret p.currentSection.isSome l ≠ .error err := by
    intro err he
    rw [he] at h
    cases h
  have htrue := interpret_reading.read_true hok
  refine ⟨?_, hok⟩
  cases hline : interpret p.currentSection.isSome l with
  | blank =>
      rw [hline] at h htrue
      cases h
      simp [headerOf, htrue]
  | comment =>
      rw [hline] at h htrue
      cases h
      simp [headerOf, htrue]
  | header name =>
      rw [hline] at h htrue
      obtain ⟨p₁, ho, h⟩ := ok_of_bind h
      cases h
      simp [headerOf, htrue, openSection_current ho]
  | assignment key text =>
      rw [hline] at h htrue
      simp [headerOf, htrue, store_current h]
  | error err => exact absurd hline (hok err)

/-! ### Files -/

/-- The line loop on the rest `todo` of guarded lines, of which the first ones had no error. -/
theorem runLines_inside {done todo : List Bytes} {p : Parser}
    (hg : Guarded interpret (done ++ todo)) (hp : p.currentSection = sectionBefore interpret done)
    (he : ∀ j < done.length, errorAt interpret (done ++ todo) j = none) (fuel n : ℕ) :
    Inside (runLines fuel todo n p) := by
  induction todo generalizing done p n with
  | nil => exact inside_ok _
  | cons l todo ih =>
      have hs : stopOf p.currentSection.isSome l = none := by
        by_contra hs
        obtain ⟨j, hj, hne⟩ := hg done.length (by rw [stopAt_append_length, ← hp]; exact hs)
        exact hne (he j hj)
      simp only [runLines, hs]
      have ha := act_inside fuel p (interpret p.currentSection.isSome l)
      cases hact : act fuel p (interpret p.currentSection.isSome l) with
      | error s =>
          rw [hact] at ha
          exact ⟨fun h => ha.1 (congrArg Except.error (Except.error.inj h)),
            fun h => ha.2 (congrArg Except.error (Except.error.inj h))⟩
      | ok x =>
          cases x with
          | fail p err => exact inside_ok _
          | next p' =>
              obtain ⟨hcur, hok⟩ := act_next hact
              have hassoc : done ++ [l] ++ todo = done ++ l :: todo := by simp
              have hg' : Guarded interpret (done ++ [l] ++ todo) := by rw [hassoc]; exact hg
              refine (inside_lineCount n).bind fun n => ih hg' ?_ ?_ n
              · rw [hcur, hp, sectionBefore_snoc]
              · intro j hj
                rw [hassoc]
                rw [List.length_append, List.length_singleton] at hj
                rcases Nat.lt_or_eq_of_le (Nat.le_of_lt_succ hj) with hlt | rfl
                · exact he j hlt
                · rw [errorAt_append_length, ← hp]
                  cases hline : interpret p.currentSection.isSome l with
                  | error err => exact absurd hline (hok err)
                  | _ => rfl

theorem freeRoot_inside (fuel : ℕ) (p : Parser) : Inside (freeRoot fuel p) := by
  refine (inside_mapCall _).bind fun m => ?_
  induction m.log.drop p.root.mem.log.length with
  | nil => exact inside_ok _
  | cons c calls ih =>
      cases c with
      | key k => exact ih
      | value v =>
          cases v with
          | none => exact ih
          | some h =>
              simp only [freeSections]
              cases p.sections[h]? with
              | none => exact inside_map _
              | some s => exact (inside_mapCall _).bind fun _ => ih

theorem finish_inside (fuel : ℕ) (errorLineNumber : Bool) (p : Parser)
    (failed : Option (NcIniError × ℕ)) : Inside (finish fuel errorLineNumber p failed) := by
  cases failed with
  | none => exact inside_ok _
  | some x => exact (freeRoot_inside fuel p).bind fun _ => inside_ok _

/-- What stops the parser at a line. -/
theorem stopOf_cases {sectioned : Bool} {l : Bytes} {s : Stop} (h : stopOf sectioned l = some s) :
    s = .outside ∨ s = .counter := by
  unfold stopOf at h
  split_ifs at h
  · exact .inl (Option.some.inj h).symm
  · exact .inr (Option.some.inj h).symm

theorem stopAt_cases {read : Bool → Bytes → Line} {ls : List Bytes} {i : ℕ} {s : Stop}
    (h : stopAt read ls i = some s) : s = .outside ∨ s = .counter := by
  unfold stopAt at h
  cases hl : ls[i]? with
  | none =>
      rw [hl] at h
      cases h
  | some l =>
      rw [hl] at h
      exact stopOf_cases h

/-- The parser stays inside of its blocks when the lines are guarded, and below `2 ^ 29` lines only
then. -/
theorem accesses_inside (slack : ℕ → Bytes) (content : Bytes) (errorLineNumber : Bool) :
    (Guarded interpret (lines content) → ∀ fuel,
      Inside (ncIniFileParseFull fuel slack (some content) true errorLineNumber)) ∧
    ((lines content).length < 2 ^ 29 → ¬ Guarded interpret (lines content) → ∃ N, ∀ fuel, N ≤ fuel →
      ¬ Inside (ncIniFileParseFull fuel slack (some content) true errorLineNumber)) := by
  refine ⟨fun hg fuel => ?_, fun hn hg => ?_⟩
  · have hrun := runLines_inside (show Guarded interpret ([] ++ lines content) from hg)
      (show (⟨none, newRoot, []⟩ : Parser).currentSection = _ from rfl)
      (fun j hj => absurd hj (Nat.not_lt_zero j)) fuel 1
    rw [parse_eq_runLines]
    exact hrun.bind fun x => finish_inside fuel errorLineNumber x.1 x.2
  · have E : ParseEnds interpret content errorLineNumber _ :=
      parse_ends slack errorLineNumber (fun _ _ _ => rfl) hn
    have noreturn : ∀ out, ¬ Returns _ out := fun out hr => hg (E.guarded hr)
    cases E with
    | accepted hr _ _ => exact absurd hr (noreturn _)
    | failed hr _ _ _ => exact absurd hr (noreturn _)
    | stopped hf hstop _ =>
        obtain ⟨N, hN⟩ := Filter.eventually_atTop.mp hf
        refine ⟨N, fun fuel hfuel hin => ?_⟩
        rcases stopAt_cases hstop with rfl | rfl
        · exact hin.1 (hN fuel hfuel)
        · exact hin.2 (hN fuel hfuel)

/-- A NUL is harmless behind a comment sign, and is not behind a blank. -/
theorem accesses_inside_nul :
    (∀ fuel, Inside (ncIniFileParseFull fuel (fun _ => []) (some [35, 0, 97, 10]) true true)) ∧
    ∃ N, ∀ fuel, N ≤ fuel →
      ¬ Inside (ncIniFileParseFull fuel (fun _ => []) (some [35, 10, 32, 0, 10]) true true) := by
  have hfirst : lines [35, 0, 97, 10] = [[35, 0, 97]] := by decide
  have hsecond : lines [35, 10, 32, 0, 10] = [[35], [32, 0]] := by decide
  refine ⟨(accesses_inside _ _ true).1 ?_, (accesses_inside _ _ true).2 ?_ ?_⟩
  · rw [hfirst]
    exact guarded_of_lt (by decide)
  · rw [hsecond]
    decide
  · rw [hsecond]
    intro hg
    obtain ⟨j, hj, hne⟩ := hg 1 (by decide)
    obtain rfl : j = 0 := by omega
    exact hne (by decide)

/-- A line of a blank, an `a`, a NUL and three more characters. -/
theorem accesses_outside : ∃ N, ∀ fuel, N ≤ fuel →
    ncIniFileParseFull fuel (fun _ => []) (some [32, 97, 0, 98, 99, 100, 10]) true true =
      .error .outside := by
  have hlines : lines [32, 97, 0, 98, 99, 100, 10] = [[32, 97, 0, 98, 99, 100]] := by decide
  have hstop : stopOf false [32, 97, 0, 98, 99, 100] = some .outside := by decide
  refine ⟨0, fun fuel _ => ?_⟩
  rw [parse_eq_runLines, hlines]
  simp only [runLines, Option.isSome_none, hstop]
  rfl

end Nica
