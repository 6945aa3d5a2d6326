import Mathlib.Tactic.Common
import Mathlib.Data.Nat.Notation

/-! # A heap of tables and single cells

Memory handed out by a zeroing allocator: a block is a table of cells or a single cell, and a
`Loc` is the address of a cell.  The block made by the `n`-th allocation is named `n`, so a new
block is never one that is in use (`Heap.fresh`, a field of the heap); which allocations succeed
is fixed beforehand by `grants`.  Freed cells are unallocated again. -/

namespace Blocks

/-- The address of a cell: a place of a table, or a cell of its own. -/
inductive Loc where
  | slot (table i : ℕ)
  | node (block : ℕ)
deriving DecidableEq, Repr

/-- The block that a cell belongs to. -/
def Loc.block : Loc → ℕ
  | slot t _ => t
  | node b => b

/-- Allocated cells, the number of allocations tried so far, and which of them succeed. -/
structure Heap (β : Type) where
  cells : Loc → Option β
  tick : ℕ
  grants : ℕ → Bool
  fresh : ∀ a, tick ≤ a.block → cells a = none

namespace Heap

variable {β : Type}

/-- The heap in which nothing is allocated. -/
def empty (β : Type) (grants : ℕ → Bool) : Heap β := ⟨fun _ => none, 0, grants, fun _ _ => rfl⟩

/-- Change the contents of an allocated cell. -/
def update (h : Heap β) (a : Loc) (f : β → β) : Heap β where
  cells x := if x = a then (h.cells x).map f else h.cells x
  tick := h.tick
  grants := h.grants
  fresh x hx := by simp [h.fresh x hx]

/-- An allocation that adds no cell: it fails, or it is for memory of another kind. -/
def pass (h : Heap β) : Heap β where
  cells := h.cells
  tick := h.tick + 1
  grants := h.grants
  fresh x hx := h.fresh x (by omega)

/-- `calloc` of a table of `n` cells, each with the contents `zero`. -/
def grantTable (h : Heap β) (n : ℕ) (zero : β) : Heap β where
  cells
    | .slot t i => if t = h.tick then (if i < n then some zero else none) else h.cells (.slot t i)
    | .node b => h.cells (.node b)
  tick := h.tick + 1
  grants := h.grants
  fresh x hx := by
    cases x with
    | slot t i =>
        have ht : t ≠ h.tick := by simp only [Loc.block] at hx; omega
        simp only [ht, if_false]
        exact h.fresh _ (by simp only [Loc.block] at hx ⊢; omega)
    | node b => exact h.fresh _ (by simp only [Loc.block] at hx ⊢; omega)

/-- `calloc` of a single cell. -/
def grantNode (h : Heap β) (zero : β) : Heap β where
  cells x := if x = .node h.tick then some zero else h.cells x
  tick := h.tick + 1
  grants := h.grants
  fresh x hx := by
    have ht : x ≠ .node h.tick := by rintro rfl; simp only [Loc.block] at hx; omega
    simp only [ht, if_false]
    exact h.fresh _ (by omega)

/-- `calloc` of a table: the block, or `none` when the allocation fails. -/
def callocTable (h : Heap β) (n : ℕ) (zero : β) : Option ℕ × Heap β :=
  if h.grants h.tick then (some h.tick, h.grantTable n zero) else (none, h.pass)

/-- `calloc` of a single cell. -/
def callocNode (h : Heap β) (zero : β) : Option Loc × Heap β :=
  if h.grants h.tick then (some (.node h.tick), h.grantNode zero) else (none, h.pass)

/-- `free` of a single cell. -/
def freeNode (h : Heap β) (b : ℕ) : Heap β where
  cells x := if x = .node b then none else h.cells x
  tick := h.tick
  grants := h.grants
  fresh x hx := by simp [h.fresh x hx]

/-- `free` of a table. -/
def freeTable (h : Heap β) (t : ℕ) : Heap β where
  cells
    | .slot u i => if u = t then none else h.cells (.slot u i)
    | .node b => h.cells (.node b)
  tick := h.tick
  grants := h.grants
  fresh x hx := by cases x <;> simp [h.fresh _ hx]

section lemmas
variable (h : Heap β) (a x : Loc) (f : β → β) (z : β) (n b t : ℕ)

@[simp] theorem update_tick : (h.update a f).tick = h.tick := rfl
@[simp] theorem update_grants : (h.update a f).grants = h.grants := rfl
@[simp] theorem pass_cells : h.pass.cells = h.cells := rfl
@[simp] theorem pass_tick : h.pass.tick = h.tick + 1 := rfl
@[simp] theorem pass_grants : h.pass.grants = h.grants := rfl
@[simp] theorem grantTable_tick : (h.grantTable n z).tick = h.tick + 1 := rfl
@[simp] theorem grantTable_grants : (h.grantTable n z).grants = h.grants := rfl
@[simp] theorem grantNode_tick : (h.grantNode z).tick = h.tick + 1 := rfl
@[simp] theorem grantNode_grants : (h.grantNode z).grants = h.grants := rfl
@[simp] theorem freeNode_tick : (h.freeNode b).tick = h.tick := rfl
@[simp] theorem freeNode_grants : (h.freeNode b).grants = h.grants := rfl
@[simp] theorem freeTable_tick : (h.freeTable t).tick = h.tick := rfl
@[simp] theorem freeTable_grants : (h.freeTable t).grants = h.grants := rfl

@[simp] theorem update_self : (h.update a f).cells a = (h.cells a).map f := if_pos rfl

theorem update_ne {a x : Loc} (hx : x ≠ a) : (h.update a f).cells x = h.cells x := if_neg hx

@[simp] theorem grantNode_self : (h.grantNode z).cells (.node h.tick) = some z := if_pos rfl

theorem grantNode_ne {x : Loc} (hx : x ≠ .node h.tick) : (h.grantNode z).cells x = h.cells x :=
  if_neg hx

@[simp] theorem freeNode_self : (h.freeNode b).cells (.node b) = none := if_pos rfl

theorem freeNode_ne {b : ℕ} {x : Loc} (hx : x ≠ .node b) :
    (h.freeNode b).cells x = h.cells x := if_neg hx

theorem grantTable_slot (i : ℕ) :
    (h.grantTable n z).cells (.slot h.tick i) = if i < n then some z else none := if_pos rfl

theorem grantTable_ne {x : Loc} (hx : x.block ≠ h.tick) :
    (h.grantTable n z).cells x = h.cells x := by
  cases x with
  | slot t i => exact if_neg hx
  | node b => rfl

theorem freeTable_ne {t : ℕ} {x : Loc} (hx : x.block ≠ t) :
    (h.freeTable t).cells x = h.cells x := by
  cases x with
  | slot u i => exact if_neg hx
  | node b => rfl

@[simp] theorem freeTable_node (b : ℕ) : (h.freeTable t).cells (.node b) = h.cells (.node b) := rfl

end lemmas

/-- The cells of an allocated block were allocated before the next allocation. -/
theorem block_lt {h : Heap β} {a : Loc} {c : β} (ha : h.cells a = some c) : a.block < h.tick := by
  by_contra hlt
  rw [h.fresh a (by omega)] at ha
  cases ha

end Heap
end Blocks
