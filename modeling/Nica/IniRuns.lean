import Nica.IniGrammar

/-! # Runs of the line loop

`sectionBefore`, `errorAt`, `stopAt` and `LastValue` say of a list of lines what the parser has to
make of it: the section that is open behind it, the error of a line or what stops the parser there,
the value of a key in a section.  They depend on how a line is read, which is a parameter.
`lastValue_snoc` says what one more line does to them.  A run of the line loop ends in one of three
ways (`RunEnds`), if one line keeps the invariant (`runLines_ends`). -/

namespace Nica

open CString NcHashmap Fueled

/-- The line loop on lines without their newlines. -/
def runLines (fuel : ℕ) : List Bytes → ℕ → Parser → Except Stop (Parser × Option (NcIniError × ℕ))
  | [], _, p => .ok (p, none)
  | l :: ls, n, p =>
      match stopOf p.currentSection.isSome l with
      | some s => .error s
      | none => do
          match ← act fuel p (interpret p.currentSection.isSome l) with
          | .next p => do
              let n ← incr .lineCount n
              runLines fuel ls n p
          | .fail p err => .ok (p, some (err, n))

theorem parseLines_eq (fuel : ℕ) (slack : ℕ → Bytes) {raws : List Bytes} (h : [] ∉ raws) (n : ℕ)
    (p : Parser) : parseLines fuel slack raws n p = runLines fuel (raws.map chomp) n p := by
  induction raws generalizing n p with
  | nil => rfl
  | cons raw raws ih =>
      rw [List.mem_cons, not_or] at h
      rw [parseLines, List.map_cons, runLines, parseLine_eq (Ne.symm h.1)]
      cases stopOf p.currentSection.isSome (chomp raw) with
      | some s => rfl
      | none =>
          simp only
          congr 1
          funext x
          cases x with
          | next p =>
              simp only
              congr 1
              funext n
              exact ih h.2 n p
          | fail p err => rfl

/-- The parser on the lines of a file. -/
theorem parse_eq_runLines (fuel : ℕ) (slack : ℕ → Bytes) (content : Bytes) (errorLineNumber : Bool) :
    ncIniFileParseFull fuel slack (some content) true errorLineNumber =
      runLines fuel (lines content) 1 ⟨none, newRoot, []⟩ >>=
        fun x => finish fuel errorLineNumber x.1 x.2 := by
  rw [← map_chomp_rawLines, ← parseLines_eq fuel slack (nil_notMem_rawLines content)]
  rfl

/-! ### What the lines say -/

section reading

variable (read : Bool → Bytes → Line)

/-- The name in a section header. -/
def headerOf (l : Bytes) : Option Bytes :=
  match read true l with
  | .header name => some name
  | _ => none

/-- The section of a line behind the lines `ls`: the name in the nearest header before it. -/
def sectionBefore (ls : List Bytes) : Option Bytes := (ls.filterMap (headerOf read)).getLast?

/-- The error of line `i`, counted from 0. -/
def errorAt (ls : List Bytes) (i : ℕ) : Option NcIniError :=
  match ls[i]? with
  | none => none
  | some l =>
      match read (sectionBefore read (ls.take i)).isSome l with
      | .error err => some err
      | _ => none

/-- What stops the parser at line `i`. -/
def stopAt (ls : List Bytes) (i : ℕ) : Option Stop :=
  match ls[i]? with
  | none => none
  | some l => stopOf (sectionBefore read (ls.take i)).isSome l

/-- Every line that stops the parser comes behind a line with an error. -/
def Guarded (ls : List Bytes) : Prop :=
  ∀ i, stopAt read ls i ≠ none → ∃ j < i, errorAt read ls j ≠ none

/-- Line `i` assigns `text` to `key` in the section `name`. -/
def AssignsAt (ls : List Bytes) (i : ℕ) (name key text : Bytes) : Prop :=
  ∃ l, ls[i]? = some l ∧ read true l = .assignment key text ∧
    sectionBefore read (ls.take i) = some name

/-- The last assignment to `key` in the section `name` leaves `value`. -/
def LastValue (ls : List Bytes) (name key value : Bytes) : Prop :=
  ∃ i text, AssignsAt read ls i name key text ∧ value = chewText text ∧
    ∀ j, i < j → ∀ text', ¬ AssignsAt read ls j name key text'

variable {read} {ls : List Bytes} {l name key value : Bytes}

/-- A header assigns nothing. -/
theorem not_assignment_of_headerOf (h : headerOf read l = some name) (text : Bytes) :
    read true l ≠ .assignment key text := by
  intro ha
  unfold headerOf at h
  rw [ha] at h
  cases h

theorem headerOf_of_assignment {text : Bytes} (h : read true l = .assignment key text) :
    headerOf read l = none := by
  unfold headerOf
  rw [h]

theorem sectionBefore_snoc :
    sectionBefore read (ls ++ [l]) = (headerOf read l).or (sectionBefore read ls) := by
  unfold sectionBefore
  rw [List.filterMap_append, List.getLast?_append]
  cases h : headerOf read l <;> simp [h]

theorem sectionBefore_mem (h : sectionBefore read ls = some name) :
    name ∈ ls.filterMap (headerOf read) := List.mem_of_getLast? h

theorem errorAt_append_length (ls' : List Bytes) :
    errorAt read (ls ++ l :: ls') ls.length =
      match read (sectionBefore read ls).isSome l with
      | .error err => some err
      | _ => none := by
  unfold errorAt
  rw [List.getElem?_append_right (Nat.le_refl _), Nat.sub_self, List.take_left]
  rfl

theorem stopAt_append_length (ls' : List Bytes) :
    stopAt read (ls ++ l :: ls') ls.length = stopOf (sectionBefore read ls).isSome l := by
  unfold stopAt
  rw [List.getElem?_append_right (Nat.le_refl _), Nat.sub_self, List.take_left]
  rfl

theorem stopAt_none_of_length_le {i : ℕ} (h : ls.length ≤ i) : stopAt read ls i = none := by
  unfold stopAt
  rw [List.getElem?_eq_none h]

theorem errorAt_none_of_length_le {i : ℕ} (h : ls.length ≤ i) : errorAt read ls i = none := by
  unfold errorAt
  rw [List.getElem?_eq_none h]

theorem AssignsAt.lt {i : ℕ} {text : Bytes} (h : AssignsAt read ls i name key text) :
    i < ls.length := by
  obtain ⟨l, hl, -⟩ := h
  exact (List.getElem?_eq_some_iff.mp hl).1

theorem assignsAt_snoc_lt {i : ℕ} {text : Bytes} (hi : i < ls.length) :
    AssignsAt read (ls ++ [l]) i name key text ↔ AssignsAt read ls i name key text := by
  unfold AssignsAt
  rw [List.getElem?_append_left hi, List.take_append_of_le_length hi.le]

theorem assignsAt_snoc_length {text : Bytes} :
    AssignsAt read (ls ++ [l]) ls.length name key text ↔
      read true l = .assignment key text ∧ sectionBefore read ls = some name := by
  unfold AssignsAt
  rw [List.getElem?_append_right (Nat.le_refl _), Nat.sub_self, List.take_left]
  simp

/-- One more line: its own assignment, or the last one before it. -/
theorem lastValue_snoc :
    LastValue read (ls ++ [l]) name key value ↔
      (∃ text, (read true l = .assignment key text ∧ sectionBefore read ls = some name) ∧
        value = chewText text) ∨
      LastValue read ls name key value ∧
        ∀ text, ¬ (read true l = .assignment key text ∧ sectionBefore read ls = some name) := by
  have hlen : (ls ++ [l]).length = ls.length + 1 := by simp
  constructor
  · rintro ⟨i, text, ha, hv, hlast⟩
    have hi := ha.lt
    rcases Nat.lt_or_eq_of_le (Nat.le_of_lt_succ (hlen ▸ hi)) with hlt | rfl
    · refine .inr ⟨⟨i, text, (assignsAt_snoc_lt hlt).mp ha, hv, fun j hij text' hj => ?_⟩,
        fun text' h => hlast _ hlt text' (assignsAt_snoc_length.mpr h)⟩
      exact hlast j hij text' ((assignsAt_snoc_lt hj.lt).mpr hj)
    · exact .inl ⟨text, assignsAt_snoc_length.mp ha, hv⟩
  · rintro (⟨text, h, hv⟩ | ⟨⟨i, text, ha, hv, hlast⟩, hno⟩)
    · refine ⟨ls.length, text, assignsAt_snoc_length.mpr h, hv, fun j hj text' ha => ?_⟩
      have := ha.lt
      omega
    · refine ⟨i, text, (assignsAt_snoc_lt ha.lt).mpr ha, hv, fun j hij text' hj => ?_⟩
      rcases Nat.lt_or_eq_of_le (Nat.le_of_lt_succ (hlen ▸ hj.lt)) with hlt | rfl
      · exact hlast j hij text' ((assignsAt_snoc_lt hlt).mp hj)
      · exact hno text' (assignsAt_snoc_length.mp hj)

/-- A line that assigns nothing leaves the values. -/
theorem lastValue_snoc_of_not (h : ∀ text, ¬ (read true l = .assignment key text ∧
    sectionBefore read ls = some name)) :
    LastValue read (ls ++ [l]) name key value ↔ LastValue read ls name key value := by
  rw [lastValue_snoc]
  constructor
  · rintro (⟨text, ht, -⟩ | ⟨hv, -⟩)
    · exact absurd ht (h text)
    · exact hv
  · exact fun hv => .inr ⟨hv, h⟩

/-- An assignment sets the value of its key. -/
theorem lastValue_snoc_assignment {text key' : Bytes} (h : read true l = .assignment key text)
    (hs : sectionBefore read ls = some name) :
    LastValue read (ls ++ [l]) name key' value ↔
      (key' = key ∧ value = chewText text) ∨ (LastValue read ls name key' value ∧ key' ≠ key) := by
  simp only [lastValue_snoc, h, hs, Line.assignment.injEq, and_true]
  constructor
  · rintro (⟨text', ⟨rfl, rfl⟩, hv⟩ | ⟨hv, hno⟩)
    · exact .inl ⟨rfl, hv⟩
    · exact .inr ⟨hv, fun he => hno text ⟨he.symm, rfl⟩⟩
  · rintro (⟨rfl, hv⟩ | ⟨hv, hne⟩)
    · exact .inl ⟨text, ⟨rfl, rfl⟩, hv⟩
    · exact .inr ⟨hv, fun text' ht => hne ht.1.symm⟩

/-- The last assignment is unique. -/
theorem LastValue.unique {value' : Bytes} (h : LastValue read ls name key value)
    (h' : LastValue read ls name key value') : value = value' := by
  obtain ⟨i, text, ⟨l, hl, hr, hs⟩, rfl, hlast⟩ := h
  obtain ⟨i', text', ⟨l', hl', hr', hs'⟩, rfl, hlast'⟩ := h'
  rcases Nat.lt_trichotomy i i' with hlt | rfl | hgt
  · exact absurd ⟨l', hl', hr', hs'⟩ (hlast i' hlt text')
  · obtain rfl := Option.some.inj (hl.symm.trans hl')
    rw [(Line.assignment.inj (hr.symm.trans hr')).2]
  · exact absurd ⟨l, hl, hr, hs⟩ (hlast' i hgt text)

/-- Only a section that was opened has values. -/
theorem LastValue.mem (h : LastValue read ls name key value) :
    name ∈ ls.filterMap (headerOf read) := by
  obtain ⟨i, text, ⟨l, hl, hr, hs⟩, -⟩ := h
  exact ((List.take_sublist i ls).filterMap _).subset (sectionBefore_mem hs)

end reading

/-! ### How a run ends -/

/-- Line `i` is no error and does not stop the parser. -/
def Passed (read : Bool → Bytes → Line) (ls : List Bytes) (i : ℕ) : Prop :=
  errorAt read ls i = none ∧ stopAt read ls i = none

instance (read : Bool → Bytes → Line) (ls : List Bytes) (i : ℕ) : Decidable (Passed read ls i) :=
  inferInstanceAs (Decidable (_ ∧ _))

/-- How the line loop `run` ends that starts at line `start` of `ls`: it passes all lines, it fails at
the first line with an error, or a line stops it.  `I` holds of the lines passed and the parser behind
them. -/
inductive RunEnds (read : Bool → Bytes → Line) (I : List Bytes → Parser → Prop) (ls : List Bytes)
    (start : ℕ) (run : ℕ → Except Stop (Parser × Option (NcIniError × ℕ))) : Prop
  | passed {p : Parser} : Returns run (p, none) → I ls p → (∀ i, start ≤ i → Passed read ls i) →
      RunEnds read I ls start run
  | failed {i : ℕ} {err : NcIniError} {p : Parser} : Returns run (p, some (err, i + 1)) →
      I (ls.take i) p → errorAt read ls i = some err → stopAt read ls i = none →
      (∀ j, start ≤ j → j < i → Passed read ls j) → RunEnds read I ls start run
  | stopped {i : ℕ} {s : Stop} : Fails run s → stopAt read ls i = some s →
      (∀ j, start ≤ j → j < i → Passed read ls j) → RunEnds read I ls start run

section runs
variable {read : Bool → Bytes → Line} {I : List Bytes → Parser → Prop}

/-- The run from the next line on, when the line before it was passed. -/
theorem RunEnds.after {ls : List Bytes} {start : ℕ}
    {run run' : ℕ → Except Stop (Parser × Option (NcIniError × ℕ))}
    (h : RunEnds read I ls (start + 1) run') (hpassed : Passed read ls start)
    (hreturns : ∀ {x}, Returns run' x → Returns run x) (hfails : ∀ {s}, Fails run' s → Fails run s) :
    RunEnds read I ls start run := by
  have before : ∀ {i}, (∀ j, start + 1 ≤ j → j < i → Passed read ls j) →
      ∀ j, start ≤ j → j < i → Passed read ls j := by
    intro i hall j hj hji
    rcases Nat.eq_or_lt_of_le hj with rfl | hj
    · exact hpassed
    · exact hall j hj hji
  cases h with
  | passed hr hI hall =>
      refine .passed (hreturns hr) hI fun i hi => ?_
      rcases Nat.eq_or_lt_of_le hi with rfl | hi
      · exact hpassed
      · exact hall i hi
  | failed hr hI he hs hall => exact .failed (hreturns hr) hI he hs (before hall)
  | stopped hf hs hall => exact .stopped (hfails hf) hs (before hall)

/-- A run on fewer than `2 ^ 29` lines, when every line without an error keeps `I`. -/
theorem runLines_ends (ls : List Bytes) {todo : List Bytes} {p : Parser}
    (hcurrent : ∀ ls p, I ls p → p.currentSection = sectionBefore read ls)
    (hact : ∀ ls l p, I ls p → ls.length < 2 ^ 29 → (∀ b, interpret b l = read b l) →
      (∀ err, interpret p.currentSection.isSome l ≠ .error err) →
      ∃ p', Returns (fun f => act f p (interpret p.currentSection.isSome l)) (.next p') ∧
        I (ls ++ [l]) p') (hI : I ls p)
    (hread : ∀ l ∈ todo, ∀ b, interpret b l = read b l) (hn : (ls ++ todo).length < 2 ^ 29) :
    RunEnds read I (ls ++ todo) ls.length fun f => runLines f todo (ls.length + 1) p := by
  induction todo generalizing ls p with
  | nil =>
      rw [List.append_nil]
      exact .passed (Returns.pure _) hI fun i hi =>
        ⟨errorAt_none_of_length_le hi, stopAt_none_of_length_le hi⟩
  | cons l todo ih =>
      have hl := hread l List.mem_cons_self
      have hlen : ls.length < 2 ^ 29 := by
        rw [List.length_append] at hn
        omega
      have hcur := hcurrent ls p hI
      have hstop : stopAt read (ls ++ l :: todo) ls.length = stopOf p.currentSection.isSome l := by
        rw [stopAt_append_length, hcur]
      have herror : errorAt read (ls ++ l :: todo) ls.length =
          match interpret p.currentSection.isSome l with
          | .error err => some err
          | _ => none := by
        rw [errorAt_append_length, hl, hcur]
      have hfirst : ∀ j, ls.length ≤ j → j < ls.length → Passed read (ls ++ l :: todo) j :=
        fun j hj hlt => absurd hlt (Nat.not_lt.mpr hj)
      cases hs : stopOf p.currentSection.isSome l with
      | some s =>
          refine .stopped (Filter.Eventually.of_forall fun f => ?_) (hstop.trans hs) hfirst
          simp only [runLines, hs]
      | none =>
          by_cases hok : ∀ err, interpret p.currentSection.isSome l ≠ .error err
          · obtain ⟨p₁, hr, hI₁⟩ := hact ls l p hI hlen hl hok
            have hassoc : ls ++ [l] ++ todo = ls ++ l :: todo := by simp
            have hnone : errorAt read (ls ++ l :: todo) ls.length = none := by
              rw [herror]
              cases hline : interpret p.currentSection.isSome l with
              | error err => exact absurd hline (hok err)
              | _ => rfl
            have hcount : incr .lineCount (ls.length + 1) = .ok (ls.length + 1 + 1) := by
              unfold incr intMax
              rw [if_pos (by omega)]
            have hrest := ih _ hI₁ (fun l hl => hread l (List.mem_cons_of_mem _ hl))
              (by rw [hassoc]; exact hn)
            rw [hassoc, List.length_append, List.length_singleton] at hrest
            refine hrest.after ⟨hnone, hstop.trans hs⟩ (fun {x} hx => ?_) fun {s} hx => ?_
            · simp only [runLines, hs]
              refine hr.bind ?_
              simp only [hcount, ok_bind]
              exact hx
            · simp only [runLines, hs]
              refine hr.bind_fails ?_
              simp only [hcount, ok_bind]
              exact hx
          · simp only [not_forall, not_not] at hok
            obtain ⟨err, he⟩ := hok
            refine .failed (i := ls.length) (p := p) ?_ (by rw [List.take_left]; exact hI)
              (herror.trans (by rw [he])) (hstop.trans hs) hfirst
            simp only [runLines, hs, he]
            exact Returns.pure _

end runs

end Nica
