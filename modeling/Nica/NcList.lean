import Nica.Pointers
import Nica.LinkedCells
import Nica.Fuel
import Mathlib.Logic.Function.Basic
import Mathlib.Data.Fintype.Card
import Mathlib.Data.Fin.Basic

/-! # The linked list

The functions of `list.c` over a heap of nodes.

* **Addresses.**  A pointer has 64 bits; `Addr` are the pointers other than NULL.
* **Allocation.**  Each function that calls `calloc` is given what the call returns: NULL or an
  address, which may be any that is not in use.
* **Data.**  The data pointers are compared and stored, never followed; those that are handed to
  `free` are recorded in `freed`.  They are no list nodes.
* **Control.**  Reading or writing through NULL or through the address of no node is
  `Fault.dangling`; the search loop of `nc_list_remove` spends fuel. -/

namespace Nica

open Linked Fueled

/-- The pointers other than NULL. -/
abbrev Addr := Fin (2 ^ 64 - 1)

/-- A list node. -/
structure NcList (D : Type) where
  data : D
  next : Option Addr
  tail : Option Addr
  size : UInt64

/-- What `calloc` leaves in a node. -/
def NcList.zero {D : Type} [Null D] : NcList D := ⟨null, none, none, 0⟩

/-- The nodes in memory. -/
abbrev Nodes (D : Type) := Addr → Option (NcList D)

/-- The nodes, the list pointer of the caller, and the data handed to `free`. -/
structure ListState (D : Type) where
  nodes : Nodes D
  list : Option Addr
  freed : List D

/-- No nodes and a NULL list pointer. -/
def ListState.start (D : Type) : ListState D := ⟨fun _ => none, none, []⟩

namespace Nodes

variable {D : Type}

/-- The nodes after `f` has changed the one at `a`. -/
def modify (h : Nodes D) (a : Addr) (f : NcList D → NcList D) : Nodes D :=
  Function.update h a ((h a).map f)

/-- The nodes after `calloc` has returned the address `a`. -/
def calloc [Null D] (h : Nodes D) (a : Addr) : Nodes D := Function.update h a (some .zero)

/-- The nodes without the one at `a`. -/
def drop (h : Nodes D) (a : Addr) : Nodes D := Function.update h a none

/-- The node that `p` points to. -/
def load (h : Nodes D) (p : Option Addr) : Except Fault (NcList D) :=
  match p.bind h with
  | none => .error .dangling
  | some n => .ok n

/-- Assignments to fields of the node that `p` points to. -/
def store (h : Nodes D) (p : Option Addr) (f : NcList D → NcList D) : Except Fault (Nodes D) :=
  match p with
  | none => .error .dangling
  | some a => if (h a).isSome then .ok (h.modify a f) else .error .dangling

/-- `free` of the node at `a`. -/
def free (h : Nodes D) (a : Addr) : Except Fault (Nodes D) :=
  if (h a).isSome then .ok (h.drop a) else .error .dangling

variable {h : Nodes D} {a b : Addr} {f : NcList D → NcList D}

theorem load_some {n : NcList D} (ha : h a = some n) : h.load (some a) = .ok n := by
  simp [load, ha]

/-- Reading a field. -/
theorem load_field {α : Type} {g : NcList D → α} {v : α} (ha : (h a).map g = some v) :
    ∃ n, h.load (some a) = .ok n ∧ g n = v := by
  obtain ⟨n, hn, hv⟩ := Option.map_eq_some_iff.mp ha
  exact ⟨n, load_some hn, hv⟩

theorem store_some (ha : (h a).isSome = true) (f : NcList D → NcList D) :
    h.store (some a) f = .ok (h.modify a f) := if_pos ha

theorem free_some (ha : (h a).isSome = true) : h.free a = .ok (h.drop a) := if_pos ha

@[simp] theorem drop_self : h.drop a a = none := Function.update_self ..

theorem drop_ne (hb : b ≠ a) : h.drop a b = h b := Function.update_of_ne hb ..

theorem drop_isSome : (h.drop a b).isSome = true ↔ b ≠ a ∧ (h b).isSome = true := by
  by_cases hb : b = a
  · subst hb; simp
  · simp [drop_ne hb, hb]

@[simp] theorem modify_self : h.modify a f a = (h a).map f := Function.update_self ..

theorem modify_ne (hb : b ≠ a) : h.modify a f b = h b := Function.update_of_ne hb ..

@[simp] theorem modify_isSome : (h.modify a f b).isSome = (h b).isSome := by
  by_cases hb : b = a
  · subst hb; simp
  · rw [modify_ne hb]

/-- A field that `f` does not assign. -/
theorem modify_map {α : Type} {g : NcList D → α} (hg : ∀ n, g (f n) = g n) :
    (h.modify a f b).map g = (h b).map g := by
  by_cases hb : b = a
  · subst hb
    rw [modify_self, Option.map_map]
    exact congrArg (fun g => (h b).map g) (funext hg)
  · rw [modify_ne hb]

/-- A field to which `f` assigns `v`. -/
theorem modify_assign {α : Type} {g : NcList D → α} {v : α} (hg : ∀ n, g (f n) = v)
    (ha : (h a).isSome = true) : (h.modify a f a).map g = some v := by
  obtain ⟨n, hn⟩ := Option.isSome_iff_exists.mp ha
  rw [modify_self, hn, Option.map_some, Option.map_some, hg]

@[simp] theorem calloc_self [Null D] : h.calloc a a = some .zero := Function.update_self ..

theorem calloc_ne [Null D] (hb : b ≠ a) : h.calloc a b = h b := Function.update_of_ne hb ..

theorem calloc_isSome [Null D] : (h.calloc a b).isSome = true ↔ b = a ∨ (h b).isSome = true := by
  by_cases hb : b = a
  · subst hb; simp
  · simp [calloc_ne hb, hb]

end Nodes

section functions
variable {D : Type} [Null D]

/-- `nc_list_append`. -/
def ncListAppend (s : ListState D) (calloc : Option Addr) (data : D) :
    Except Fault (Bool × ListState D) :=
  match s.list with
  | none =>
      match calloc with
      | none => .ok (false, s)
      | some head => do
          let h ← (s.nodes.calloc head).store (some head) fun n =>
            { n with size := 1, tail := some head, next := none, data := data }
          .ok (true, { s with nodes := h, list := some head })
  | some head =>
      match calloc with
      | none => .ok (false, s)
      | some next => do
          let h ← (s.nodes.calloc next).store (some head) fun n => { n with size := n.size + 1 }
          let n ← h.load (some head)
          let parent := n.tail
          let h ← h.store parent fun n => { n with next := some next }
          let h ← h.store (some head) fun n => { n with tail := some next }
          let h ← h.store (some next) fun n => { n with next := none, data := data }
          .ok (true, { s with nodes := h })

/-- `nc_list_prepend`. -/
def ncListPrepend (s : ListState D) (calloc : Option Addr) (data : D) :
    Except Fault (Bool × ListState D) :=
  match s.list with
  | none =>
      match calloc with
      | none => .ok (false, s)
      | some head => do
          let h ← (s.nodes.calloc head).store (some head) fun n =>
            { n with size := 1, tail := some head, next := none, data := data }
          .ok (true, { s with nodes := h, list := some head })
  | some head =>
      match calloc with
      | none => .ok (false, s)
      | some prev => do
          let h := s.nodes.calloc prev
          let n ← h.load (some head)
          let h ← h.store (some prev) fun p => { p with size := n.size + 1 }
          let h ← h.store (some head) fun n => { n with size := 0 }
          let n ← h.load (some head)
          let h ← h.store (some prev) fun p => { p with next := some head, tail := n.tail }
          let h ← h.store (some head) fun n => { n with tail := none }
          let h ← h.store (some prev) fun p => { p with data := data }
          .ok (true, { s with nodes := h, list := some prev })

variable [DecidableEq D]

/-- The search loop of `nc_list_remove`: `current` and `prev` when it stops at a node. -/
def removeScan (h : Nodes D) (data : D) :
    ℕ → Option Addr → Option Addr → Except Fault (Option (Addr × Option Addr))
  | _, none, _ => .ok none
  | 0, some _, _ => .error .timeout
  | fuel + 1, some current, prev => do
      let n ← h.load (some current)
      if n.data ≠ data then removeScan h data fuel n.next (some current)
      else .ok (some (current, prev))

/-- `nc_list_remove`. -/
def ncListRemove (fuel : ℕ) (s : ListState D) (data : D) (doFree : Bool) :
    Except Fault (Bool × ListState D) := do
  match ← removeScan s.nodes data fuel s.list s.list with
  | none => .ok (false, s)
  | some (current, prev) =>
      let n ← s.nodes.load (some current)
      let (head, h) ←
        if some current = s.list then
          match n.next with
          | none => .ok (n.next, s.nodes)
          | some next => do
              let h ← s.nodes.store (some next) fun m => { m with size := n.size - 1, tail := n.tail }
              .ok (n.next, h)
        else do
          let h ← s.nodes.store prev fun m => { m with next := n.next }
          let h ← h.store s.list fun m => { m with size := m.size - 1 }
          .ok (s.list, h)
      let h ←
        match head with
        | none => .ok h
        | some head => do
            let m ← h.load (some head)
            if m.tail = some current then h.store (some head) fun m => { m with tail := prev }
            else .ok h
      let freed := if doFree then s.freed ++ [n.data] else s.freed
      let h ← h.free current
      .ok (true, ⟨h, head, freed⟩)

end functions

end Nica
