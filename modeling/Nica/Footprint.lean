import Nica.Blocks
import Mathlib.Data.Set.Lattice
import Mathlib.Logic.Function.Basic
import Mathlib.Order.BourbakiWitt
import Mathlib.Order.CompletePartialOrder

/-! # Owners of cells

A component of a program owns some of the cells of the heap.  `Acts h h' own own'` says that between
`h` and `h'` a component that owned `own` came to own `own'`: the cells of others are as before, a
cell that it acquired was allocated meanwhile, and a cell that it gave up is no longer allocated.
So no cell gets lost.  Actions compose (`Acts.trans`), go along with further cells of the same owner
(`Acts.frame_rule`), and leave what others own alone (`Acts.elsewhere`).

Owners that share a heap own all of it, each cell once (`Shared`); an action of one of them keeps
that (`Shared.acts`). -/

namespace Blocks

variable {β : Type}

structure Acts (h h' : Heap β) (own own' : Set Loc) : Prop where
  tick : h.tick ≤ h'.tick
  grants : h'.grants = h.grants
  frame : ∀ a, a ∉ own → a ∉ own' → h'.cells a = h.cells a
  acquired : ∀ a ∈ own', a ∈ own ∨ h.tick ≤ a.block
  given_up : ∀ a ∈ own, a ∉ own' → h'.cells a = none

namespace Acts

variable {h h' h'' : Heap β} {own own' own'' other : Set Loc}

theorem refl (h : Heap β) (own : Set Loc) : Acts h h own own :=
  ⟨le_rfl, rfl, fun _ _ _ => rfl, fun _ ha => .inl ha, fun _ ha hn => absurd ha hn⟩

/-- A failed allocation. -/
theorem pass (h : Heap β) (own : Set Loc) : Acts h h.pass own own :=
  ⟨Nat.le_succ _, rfl, fun _ _ _ => rfl, fun _ ha => .inl ha, fun _ ha hn => absurd ha hn⟩

theorem trans (h₁ : Acts h h' own own') (h₂ : Acts h' h'' own' own'') :
    Acts h h'' own own'' where
  tick := h₁.tick.trans h₂.tick
  grants := h₂.grants.trans h₁.grants
  frame a ha ha'' := by
    by_cases ha' : a ∈ own'
    · -- it was allocated and given up again
      have hnew := (h₁.acquired a ha').resolve_left ha
      rw [h₂.given_up a ha' ha'', h.fresh a hnew]
    · rw [h₂.frame a ha' ha'', h₁.frame a ha ha']
  acquired a ha'' := by
    cases h₂.acquired a ha'' with
    | inl ha' => exact h₁.acquired a ha'
    | inr hnew =>
        right
        exact h₁.tick.trans hnew
  given_up a ha ha'' := by
    by_cases ha' : a ∈ own'
    · exact h₂.given_up a ha' ha''
    · rw [h₂.frame a ha' ha'', h₁.given_up a ha ha']

/-- What else the component owns stays out of it. -/
theorem frame_rule (hact : Acts h h' own own') (other : Set Loc) :
    Acts h h' (own ∪ other) (own' ∪ other) where
  tick := hact.tick
  grants := hact.grants
  frame a ha ha' := by
    apply hact.frame a
    · intro hin
      exact ha (.inl hin)
    · intro hin
      exact ha' (.inl hin)
  acquired a ha := by
    cases ha with
    | inl ha =>
        cases hact.acquired a ha with
        | inl hin => exact .inl (.inl hin)
        | inr hnew => exact .inr hnew
    | inr ha => exact .inl (.inr ha)
  given_up a ha ha' := by
    cases ha with
    | inl ha =>
        apply hact.given_up a ha
        intro hin
        exact ha' (.inl hin)
    | inr ha => exact absurd (.inr ha) ha'

/-- Cells of another owner, all allocated before. -/
theorem elsewhere (hact : Acts h h' own own') (hap : Disjoint own other)
    (hold : ∀ a ∈ other, (h.cells a).isSome) :
    Disjoint own' other ∧ ∀ a ∈ other, h'.cells a = h.cells a := by
  have hout : ∀ a ∈ other, a ∉ own' := by
    intro a ha ha'
    cases hact.acquired a ha' with
    | inl hin => exact Set.disjoint_left.mp hap hin ha
    | inr hnew =>
        have hsome := hold a ha
        rw [h.fresh a hnew] at hsome
        cases hsome
  constructor
  · rw [Set.disjoint_left]
    intro a ha' ha
    exact hout a ha ha'
  · intro a ha
    exact hact.frame a (fun hin => Set.disjoint_left.mp hap hin ha) (hout a ha)

end Acts

/-- An allocation between `h` and `h'` was refused. -/
def Refused (h h' : Heap β) : Prop := ∃ i, h.tick ≤ i ∧ i < h'.tick ∧ h.grants i = false

theorem Refused.pass {h : Heap β} (hg : h.grants h.tick = false) : Refused h h.pass :=
  ⟨h.tick, le_rfl, Nat.lt_succ_self _, hg⟩

theorem Refused.after {h h' h'' : Heap β} {own own' : Set Loc} (hact : Acts h h' own own')
    (hr : Refused h' h'') : Refused h h'' := by
  obtain ⟨i, hi, hlt, hg⟩ := hr
  exact ⟨i, hact.tick.trans hi, hlt, by rw [← hact.grants]; exact hg⟩

/-! ### Owners that share a heap -/

section shared
variable {ι : Type} {h h' : Heap β} {own : ι → Set Loc} {own' : Set Loc}

/-- Every allocated cell has one owner. -/
structure Shared (h : Heap β) (own : ι → Set Loc) : Prop where
  apart : Pairwise fun i j => Disjoint (own i) (own j)
  all : ∀ a, (h.cells a).isSome = true ↔ ∃ i, a ∈ own i

theorem Shared.cell (S : Shared h own) {i : ι} {a : Loc} (ha : a ∈ own i) :
    (h.cells a).isSome = true := (S.all a).mpr ⟨i, ha⟩

/-- The others find their cells as they were. -/
theorem Shared.elsewhere (S : Shared h own) {i j : ι} (hact : Acts h h' (own i) own')
    (hij : i ≠ j) : Disjoint own' (own j) ∧ ∀ a ∈ own j, h'.cells a = h.cells a :=
  hact.elsewhere (S.apart hij) fun _ ha => S.cell ha

/-- An action allocates nothing in the blocks that are there. -/
theorem Shared.unused (S : Shared h own) {i : ι} (hact : Acts h h' (own i) own') {a : Loc}
    (hnone : h.cells a = none) (hblock : a.block < h.tick) : h'.cells a = none := by
  have hout : a ∉ own i := by
    intro hin
    have hsome := S.cell hin
    rw [hnone] at hsome
    cases hsome
  rw [hact.frame a hout, hnone]
  intro hin
  cases hact.acquired a hin with
  | inl hold => exact hout hold
  | inr hnew => exact absurd hnew (Nat.not_le.mpr hblock)

/-- An action of one owner, which may only claim allocated cells. -/
theorem Shared.acts [DecidableEq ι] (S : Shared h own) {i : ι} (hact : Acts h h' (own i) own')
    (hcells : ∀ a ∈ own', (h'.cells a).isSome = true) :
    Shared h' (Function.update own i own') where
  apart := by
    intro j k hjk
    by_cases hj : j = i
    · subst hj
      rw [Function.update_self, Function.update_of_ne (Ne.symm hjk)]
      exact (S.elsewhere hact hjk).1
    · rw [Function.update_of_ne hj]
      by_cases hk : k = i
      · subst hk
        rw [Function.update_self]
        exact (S.elsewhere hact (Ne.symm hj)).1.symm
      · rw [Function.update_of_ne hk]
        exact S.apart hjk
  all := by
    intro a
    constructor
    · intro hsome
      by_cases ha' : a ∈ own'
      · refine ⟨i, ?_⟩
        rwa [Function.update_self]
      · have ha : a ∉ own i := by
          intro ha
          rw [hact.given_up a ha ha'] at hsome
          cases hsome
        rw [hact.frame a ha ha'] at hsome
        obtain ⟨j, hj⟩ := (S.all a).mp hsome
        have hji : j ≠ i := by
          rintro rfl
          exact ha hj
        refine ⟨j, ?_⟩
        rwa [Function.update_of_ne hji]
    · rintro ⟨j, hj⟩
      by_cases hji : j = i
      · subst hji
        rw [Function.update_self] at hj
        exact hcells a hj
      · rw [Function.update_of_ne hji] at hj
        rw [(S.elsewhere hact (Ne.symm hji)).2 a hj]
        exact S.cell hj

end shared
end Blocks
