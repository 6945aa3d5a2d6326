import Nica.LinkedCells
import Mathlib.Logic.Function.Basic

/-! # Parts of a heap

A heap is a partial function from addresses to cells.  `glue h k` is the heap of two parts, which
are `Separate` when no address is in both.  `part h as` is the part of `h` at the addresses `as` and
`rest h as` the other one.

A computation that works on a part of a heap does the same on the whole: `Lifts R x y` says that a
result of `x` is matched by one of `y` that is related to it, and follows the monadic bind.  A path
over the cells of a part is a path of the whole (`Path.glue`). -/

namespace HeapParts

variable {A β : Type}

/-- The two parts together. -/
def glue (h k : A → Option β) : A → Option β := fun a => (h a).or (k a)

/-- No address is in both parts. -/
def Separate (h k : A → Option β) : Prop := ∀ a, (h a).isSome = true → k a = none

section glue
variable {h k : A → Option β} {a : A}

theorem glue_some {c : β} (ha : h a = some c) : glue h k a = some c := by
  rw [glue, ha]
  rfl

theorem glue_isSome (ha : (h a).isSome = true) : glue h k a = h a := by
  obtain ⟨c, hc⟩ := Option.isSome_iff_exists.mp ha
  rw [glue_some hc, hc]

theorem glue_none (ha : h a = none) : glue h k a = k a := by
  rw [glue, ha]
  rfl

theorem isSome_glue : (glue h k a).isSome = true ↔ (h a).isSome = true ∨ (k a).isSome = true := by
  rw [glue, Option.isSome_or, Bool.or_eq_true]

/-- A write to the first part. -/
theorem update_glue [DecidableEq A] (h k : A → Option β) (a : A) (c : β) :
    Function.update (glue h k) a (some c) = glue (Function.update h a (some c)) k := by
  funext b
  by_cases hb : b = a
  · subst hb
    rw [Function.update_self, glue, Function.update_self]
    rfl
  · rw [Function.update_of_ne hb, glue, glue, Function.update_of_ne hb]

/-- A cell of the first part is dropped. -/
theorem update_none_glue [DecidableEq A] (hk : k a = none) :
    Function.update (glue h k) a none = glue (Function.update h a none) k := by
  funext b
  by_cases hb : b = a
  · subst hb
    rw [Function.update_self, glue, Function.update_self, hk]
    rfl
  · rw [Function.update_of_ne hb, glue, glue, Function.update_of_ne hb]

theorem Separate.update [DecidableEq A] (hs : Separate h k) (hk : k a = none) (c : Option β) :
    Separate (Function.update h a c) k := by
  intro b hb
  by_cases heq : b = a
  · rw [heq, hk]
  · rw [Function.update_of_ne heq] at hb
    exact hs b hb

end glue

/-! ### The part at some addresses -/

section part
variable [DecidableEq A] {h : A → Option β} {as : List A} {a : A}

def part (h : A → Option β) (as : List A) : A → Option β := fun a => if a ∈ as then h a else none

def rest (h : A → Option β) (as : List A) : A → Option β := fun a => if a ∈ as then none else h a

theorem part_mem (ha : a ∈ as) : part h as a = h a := if_pos ha

theorem part_notMem (ha : a ∉ as) : part h as a = none := if_neg ha

theorem rest_mem (ha : a ∈ as) : rest h as a = none := if_pos ha

theorem rest_notMem (ha : a ∉ as) : rest h as a = h a := if_neg ha

theorem separate_part (h : A → Option β) (as : List A) : Separate (part h as) (rest h as) := by
  intro a ha
  by_cases hmem : a ∈ as
  · exact rest_mem hmem
  · rw [part_notMem hmem] at ha
    cases ha

theorem glue_part (h : A → Option β) (as : List A) : glue (part h as) (rest h as) = h := by
  funext a
  by_cases hmem : a ∈ as
  · rw [glue, part_mem hmem, rest_mem hmem, Option.or_none]
  · rw [glue_none (part_notMem hmem), rest_notMem hmem]

/-- The part at the addresses of the first of two parts. -/
theorem part_glue {h k : A → Option β}
    (hall : ∀ a, (h a).isSome = true ↔ a ∈ as) : part (glue h k) as = h := by
  funext a
  by_cases hmem : a ∈ as
  · rw [part_mem hmem, glue_isSome ((hall a).mpr hmem)]
  · rw [part_notMem hmem]
    exact (Option.not_isSome_iff_eq_none.mp fun hsome => hmem ((hall a).mp hsome)).symm

/-- And at addresses of the second. -/
theorem part_glue_right {h k : A → Option β} (hnone : ∀ a ∈ as, h a = none) :
    part (glue h k) as = part k as := by
  funext a
  by_cases hmem : a ∈ as
  · rw [part_mem hmem, part_mem hmem, glue_none (hnone a hmem)]
  · rw [part_notMem hmem, part_notMem hmem]

end part

/-! ### Computations -/

section lifts
variable {ε α α' γ γ' : Type} {R : α → α' → Prop} {Q : γ → γ' → Prop}

/-- A result of `x` is matched by one of `y`. -/
def Lifts (R : α → α' → Prop) (x : Except ε α) (y : Except ε α') : Prop :=
  ∀ a, x = .ok a → ∃ b, y = .ok b ∧ R a b

theorem Lifts.ok {a : α} {b : α'} (h : R a b) : Lifts R (.ok a : Except ε α) (.ok b) := by
  intro a' ha'
  cases ha'
  exact ⟨b, rfl, h⟩

theorem Lifts.error (e : ε) (y : Except ε α') : Lifts R (.error e) y := fun a h => by cases h

theorem Lifts.bind {x : Except ε α} {y : Except ε α'} {f : α → Except ε γ} {g : α' → Except ε γ'}
    (hx : Lifts R x y) (hf : ∀ a b, R a b → Lifts Q (f a) (g b)) :
    Lifts Q (x >>= f) (y >>= g) := by
  intro c hc
  cases x with
  | error e => cases hc
  | ok a =>
      obtain ⟨b, rfl, hab⟩ := hx a rfl
      exact hf a b hab c hc

end lifts

end HeapParts

namespace Linked

open HeapParts

variable {A β : Type} {nx : β → Option A} {h k : A → Option β}

theorem Path.glue {p q : Option A} {xs : List A} (hp : Path nx h p xs q) :
    Path nx (glue h k) p xs q := by
  apply hp.congr
  intro a ha
  obtain ⟨c, hc⟩ := hp.cell ha
  rw [glue_some hc, hc]

end Linked
