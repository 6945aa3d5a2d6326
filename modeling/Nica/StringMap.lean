import Nica.HashmapFill
import Nica.HashmapFree
import Mathlib.Data.List.Basic

/-! # Maps with string keys

The maps of `nc_string_hash` and `nc_string_compare`, which are only added to.  A `char *` is the
string that it points to, `none` for NULL; two pointers to equal strings are not told apart. -/

namespace Nica

open Blocks Rows Fueled NcHashmap

/-- A `char *` by its string. -/
abbrev Text := Option (List UInt8)

/-- `nc_string_hash`; the characters are signed.  It is never called on NULL. -/
def ncStringHash : Text → UInt32
  | none => 5381
  | some key =>
      key.foldl (fun hash c => (hash <<< 5) + hash + c.toInt8.toInt32.toUInt32) 5381

/-- `nc_string_compare`. -/
def ncStringCompare : Text → Text → Bool
  | some l, some r => l == r
  | _, _ => false

theorem ncStringCompare_iff {k : Text} {key : List UInt8} :
    ncStringCompare k (some key) = true ↔ k = some key := by
  cases k with
  | none => exact ⟨nofun, nofun⟩
  | some l => rw [Option.some.injEq]; exact beq_iff_eq

theorem nonNull_iff {k : Text} : NonNull k ↔ ∃ key, k = some key := Option.ne_none_iff_exists'

/-- Strings are equal as keys when they are equal. -/
theorem string_lawful : LawfulBesideNull ncStringHash ncStringCompare where
  per :=
    { symm := fun a b _ hb h => by
        obtain ⟨r, rfl⟩ := nonNull_iff.mp hb
        rw [ncStringCompare_iff.mp h]
        exact ncStringCompare_iff.mpr rfl
      trans := fun a b c _ hb _ h₁ h₂ => by
        obtain ⟨m, rfl⟩ := nonNull_iff.mp hb
        rw [ncStringCompare_iff.mp h₁]
        exact h₂ }
  hash a b _ hb h := by
    obtain ⟨r, rfl⟩ := nonNull_iff.mp hb
    rw [ncStringCompare_iff.mp h]
  refl a ha := by
    obtain ⟨l, rfl⟩ := nonNull_iff.mp ha
    exact ncStringCompare_iff.mpr rfl
  null_ne _ _ := rfl
  ne_null a ha := by
    obtain ⟨l, rfl⟩ := nonNull_iff.mp ha
    rfl

variable {V : Type} [Null V]

/-- A map of strings that was only added to, with at most `n` pairs. -/
structure Stringly (s : State Text V) (n : ℕ) : Prop where
  filled : Filled NonNull s
  hash : s.self.hash = ncStringHash
  compare : s.self.compare = ncStringCompare
  grants : ∀ i, s.mem.grants i = true
  size : s.self.size ≤ n

namespace Stringly

variable {s : State Text V} {n : ℕ} {key : List UInt8}

theorem lawful (S : Stringly s n) : LawfulBesideNull s.self.hash s.self.compare := by
  rw [S.hash, S.compare]
  exact string_lawful

theorem wellFormed (S : Stringly s n) : WellFormedOn NonNull s :=
  S.filled.wellFormed S.lawful.toLawful

theorem mono {m : ℕ} (S : Stringly s n) (h : n ≤ m) : Stringly s m :=
  { S with size := S.size.trans (by exact_mod_cast h) }

theorem new (h : newFull (Mem.granting Text V) ncStringHash ncStringCompare true true = some s) :
    Stringly s 0 ∧ ∀ k v, ¬ Holds s k v := by
  obtain ⟨-, -, hself, hgrants⟩ := newInternal_table h NonNull
  refine ⟨⟨newInternal_filled h, by rw [hself], by rw [hself], fun i => by rw [hgrants]; rfl, ?_⟩,
    (newInternal_wellFormed h string_lawful.toLawful).2⟩
  rw [hself]
  exact Int.le_refl 0

theorem get_held (S : Stringly s n) {v : V} (h : Holds s (some key) v) :
    Returns (fun f => NcHashmap.get f s (some key)) v :=
  (get_spec S.lawful.toLawful S.wellFormed (nonNull_iff.mpr ⟨key, rfl⟩) (by rw [S.compare]; rfl)).1
    _ v h (by rw [S.compare]; exact ncStringCompare_iff.mpr rfl)

theorem get_absent (S : Stringly s n) (h : ∀ v, ¬ Holds s (some key) v) :
    Returns (fun f => NcHashmap.get f s (some key)) null := by
  refine (get_spec S.lawful.toLawful S.wellFormed (nonNull_iff.mpr ⟨key, rfl⟩)
    (by rw [S.compare]; rfl)).2 fun k v hkv => ?_
  rw [S.compare, ← Bool.not_eq_true, ncStringCompare_iff]
  rintro rfl
  exact h v hkv

/-- Storing a pair. -/
theorem put (S : Stringly s n) (hn : n < 2 ^ 29) (key : List UInt8) (value : V) :
    ∃ s', Returns (fun f => NcHashmap.put f s (some key) value) (true, s') ∧ Stringly s' (n + 1) ∧
      ∀ k v, Holds s' k v ↔ (k = some key ∧ v = value) ∨ (Holds s k v ∧ k ≠ some key) := by
  have hsize := S.size
  obtain ⟨s', hr, A, F, hs⟩ := S.filled.put S.lawful.toLawful (nonNull_iff.mpr ⟨key, rfl⟩) value
    S.grants (by omega)
  refine ⟨s', hr, ⟨F, A.hash.trans S.hash, A.compare.trans S.compare,
    fun i => by rw [A.grants]; exact S.grants i, ?_⟩, fun k v => ?_⟩
  · push_cast
    omega
  · rw [A.holds, S.compare, ← Bool.not_eq_true, ncStringCompare_iff]

/-- Freeing the map passes to the cleanup functions only what it holds. -/
theorem free (S : Stringly s n) : ∃ m, Returns (fun f => NcHashmap.free f s) m ∧
    ∀ v, FreeCall.value v ∈ m.log.drop s.mem.log.length → ∃ k, Holds s k v := by
  obtain ⟨tails, T, -⟩ := S.wellFormed.table
  obtain ⟨m, hm, F⟩ := free_returns T.toShape
  refine ⟨m, hm, fun v hv => ?_⟩
  rw [F.log, List.drop_left, if_pos rfl, freeCalls, List.mem_flatMap] at hv
  obtain ⟨⟨k, v'⟩, hp, hv⟩ := hv
  refine ⟨k, T.holds_iff.mpr ?_⟩
  have hvv : v = v' := by
    rcases List.mem_append.mp hv with hv | hv <;> split_ifs at hv
    · cases List.mem_singleton.mp hv
    · cases hv
    · exact FreeCall.value.inj (List.mem_singleton.mp hv)
    · cases hv
  rw [hvv]
  exact hp

end Stringly
end Nica
