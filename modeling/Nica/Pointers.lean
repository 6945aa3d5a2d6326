import Mathlib.Data.UInt

/-! # Pointers, bytes and faults

What the models of the source files share: pointers that a component stores and never follows, the
characters of a string, the range of `int`, and the ways in which a call can fail to have a
result. -/

namespace Nica

/-- A pointer type with its NULL. -/
class Null (α : Type) where
  null : α

export Null (null)

instance {α : Type} : Null (Option α) := ⟨none⟩

/-- A pointer as a machine word, as `NC_HASH_KEY` makes it of an integer. -/
instance : Null UInt64 := ⟨0⟩

abbrev Bytes := List UInt8

/-- The largest `int`. -/
def intMax : ℕ := 2147483647

/-- Why a call has no result. -/
inductive Fault where
  | timeout
  | dangling
  | overflow
deriving DecidableEq, Repr

end Nica
