import Nica.HashmapFill
import Mathlib.Data.List.Basic

/-! # The operations of the finite map

Lookup, storing and removal on a well-formed map are those of the finite map of its entries
(`map_operations`), whatever holes its chains have and whether or not it holds the key NULL.  The map
`worn` stands for the maps of a program that has been running for a while: it holds the key `k₀`, its
keys 1 and 62 met in one bucket before 1 was removed, and it is due for a resize. -/

namespace Nica

open Blocks Linked Rows Fueled NcHashmap

/-! ### Looking at a chain -/

section row
variable {K V : Type} {s : State K V}

/-- What the chain from `p` shows, if it reaches NULL within `n` entries. -/
def rowFrom (s : State K V) : ℕ → Option Loc → Option (Row K V)
  | _, none => some []
  | 0, some _ => none
  | n + 1, some a =>
      match s.mem.cells a with
      | none => none
      | some e => (rowFrom s n e.next).map (e.view :: ·)

theorem rowFrom_path {n : ℕ} {p : Option Loc} {r : Row K V} (h : rowFrom s n p = some r) :
    ∃ xs, Path NcHashmapEntry.next s.mem.cells p xs none ∧ rowOf s.mem.toHeap xs = r := by
  induction n generalizing p r with
  | zero =>
      cases p with
      | none => exact ⟨[], rfl, Option.some.inj h⟩
      | some a => cases h
  | succ n ih =>
      cases p with
      | none => exact ⟨[], rfl, Option.some.inj h⟩
      | some a =>
          cases ha : s.mem.cells a with
          | none => simp [rowFrom, ha] at h
          | some e =>
              simp only [rowFrom, ha, Option.map_eq_some_iff] at h
              obtain ⟨r', h', rfl⟩ := h
              obtain ⟨xs, hp, hr⟩ := ih h'
              exact ⟨a :: xs, ⟨rfl, e, ha, hp⟩, by rw [rowOf_cons, viewAt_eq ha, hr]⟩

/-- Whether a put relinks a hole can be told from the row of its bucket. -/
theorem not_relinksAt_of_rowFrom {key : K} {n : ℕ} {r : Row K V}
    (h : rowFrom s n (some (.slot s.self.buckets (slotOf s.self s.self.nBuckets key))) = some r)
    (hr : ¬ Relinks s.self.compare r key) : ¬ RelinksAt s key := by
  obtain ⟨ys, hq, rfl⟩ := rowFrom_path h
  rintro ⟨xs, hp, hrel⟩
  rw [hp.unique hq] at hrel
  exact hr hrel

end row

/-! ### A map that has been used -/

/-- The hash of keys that are pointers to a number, the last three digits of the address. -/
def digitsHash (key : UInt64) : UInt32 := (key % 1000).toUInt32

/-- Pointers to the same number are equal, and NULL is equal to itself only. -/
def digitsCompare (l r : UInt64) : Bool := (l == 0) == (r == 0) && l % 1000 == r % 1000

theorem digits_lawful : LawfulBesideNull digitsHash digitsCompare where
  per :=
    { symm := fun a b _ _ h => by
        simp only [digitsCompare, Bool.and_eq_true, beq_iff_eq] at h ⊢
        exact ⟨h.1.symm, h.2.symm⟩
      trans := fun a b c _ _ _ h₁ h₂ => by
        simp only [digitsCompare, Bool.and_eq_true, beq_iff_eq] at h₁ h₂ ⊢
        exact ⟨h₁.1.trans h₂.1, h₁.2.trans h₂.2⟩ }
  hash a b _ _ h := by
    simp only [digitsCompare, Bool.and_eq_true, beq_iff_eq] at h
    rw [digitsHash, digitsHash, h.2]
  refl k _ := by simp [digitsCompare]
  null_ne k hk := by
    have hk : (k == 0) = false := beq_eq_false_iff_ne.mpr hk
    rw [digitsCompare, hk]
    rfl
  ne_null k hk := by
    have hk : (k == 0) = false := beq_eq_false_iff_ne.mpr hk
    rw [digitsCompare, hk]
    rfl

/-- The pairs of `worn` before the key 1 is removed: 42 of them, each value 100 above its key. -/
def wornPuts (k₀ : UInt64) : List (UInt64 × UInt64) :=
  ([k₀, 1, 62] ++ (List.range 39).map fun i => UInt64.ofNat (i + 2)).map fun k => (k, k + 100)

/-- The pairs of `worn`. -/
def wornPairs (k₀ : UInt64) : List (UInt64 × UInt64) :=
  (41, 141) :: (wornPuts k₀).filter fun p => p.1 ≠ 1

/-- A new map with cleanup functions after puts and the removal of 1. -/
def wearing (k₀ : UInt64) : Except Fault (State UInt64 UInt64) :=
  match newFull (Mem.granting UInt64 UInt64) digitsHash digitsCompare true true with
  | none => .error .dangling
  | some s => do
      let s ← puts 5 s (wornPuts k₀)
      let (_, s) ← remove 5 s 1
      .ok s

/-- One more put, of a key with a bucket of its own. -/
def worn (k₀ : UInt64) : Except Fault (State UInt64 UInt64) := do
  let s ← wearing k₀
  let (_, s) ← put 5 s 41 141
  .ok s

/-- The row of bucket `i`. -/
def bucketRow (s : State UInt64 UInt64) (i : ℕ) : Option (Row UInt64 UInt64) :=
  rowFrom s 5 (some (.slot s.self.buckets i))

/-- What an observer sees of `worn`: the size of its table, whether the next put resizes it, whether it
has the two cleanup functions, and the row of bucket 1. -/
structure WornSeen where
  nBuckets : ℕ
  full : Bool
  keyFree : Bool
  valueFree : Bool
  row : Option (Row UInt64 UInt64)
deriving DecidableEq

def wornSeen (k₀ : UInt64) : Option WornSeen :=
  (worn k₀).toOption.map fun s =>
    ⟨s.self.nBuckets, s.self.maybeResize, s.self.keyFree, s.self.valueFree, bucketRow s 1⟩

structure Worn (k₀ : UInt64) (s : State UInt64 UInt64) : Prop where
  wellFormed : WellFormed s
  hash : s.self.hash = digitsHash
  compare : s.self.compare = digitsCompare
  grants : ∀ i, s.mem.grants i = true
  holds : ∀ k v, Holds s k v ↔ (k, v) ∈ wornPairs k₀

theorem Worn.lawful {k₀ : UInt64} {s : State UInt64 UInt64} (W : Worn k₀ s) :
    LawfulBesideNull s.self.hash s.self.compare := by
  rw [W.hash, W.compare]
  exact digits_lawful

/-- The keys put are pairwise unequal, and unequal to 41; only the key 1 equals 1. -/
theorem wornPuts_distinct {k₀ : UInt64} (hk₀ : k₀ ∈ [(0 : UInt64), 42]) :
    ((wornPuts k₀).Pairwise fun p q => digitsCompare p.1 q.1 = false) ∧
      (∀ p ∈ wornPuts k₀, digitsCompare p.1 41 = false ∧
        (digitsCompare p.1 1 = false ↔ p.1 ≠ 1)) ∧ (wornPuts k₀).length = 42 := by
  rw [← List.forall_iff_forall_mem]
  rcases List.mem_pair.mp hk₀ with rfl | rfl <;> decide +kernel

/-- The map after the puts and the removal. -/
theorem wearing_spec {k₀ : UInt64} {t : State UInt64 UInt64} (ht : wearing k₀ = .ok t)
    (hk₀ : k₀ ∈ [(0 : UInt64), 42]) :
    WellFormed t ∧ t.self.hash = digitsHash ∧ t.self.compare = digitsCompare ∧
      (∀ i, t.mem.grants i = true) ∧ ∀ k v, Holds t k v ↔ (k, v) ∈ wornPuts k₀ ∧ k ≠ 1 := by
  obtain ⟨hpairwise, hfresh, hlength⟩ := wornPuts_distinct hk₀
  obtain ⟨s₀, h₀⟩ := newInternal_granted (m := Mem.granting UInt64 UInt64)
    (fun _ => rfl) digitsHash digitsCompare true true
  obtain ⟨-, -, hself, hgrants⟩ := newInternal_table h₀ fun _ => True
  have hempty := (newInternal_wellFormed h₀ (digits_lawful.everywhere)).2
  unfold wearing newFull at ht
  rw [h₀] at ht
  obtain ⟨s₁, hputs, ht⟩ := ok_of_bind ht
  obtain ⟨⟨ok, t'⟩, hrem, heq⟩ := ok_of_bind ht
  obtain rfl := Except.ok.inj heq
  -- the puts
  have L₀ : Lawful (fun _ => True) s₀.self.hash s₀.self.compare := by
    rw [hself]
    exact digits_lawful.everywhere
  have P := puts_filled L₀ (newInternal_filled h₀) (fun _ _ => trivial)
    (by rw [hgrants]; intro; rfl)
    (by rw [hself, hlength]; exact (by decide : (0 : ℤ) + (42 : ℕ) ≤ 2 ^ 29)) hputs
  have hcompare : s₁.self.compare = digitsCompare := by rw [P.compare, hself]
  have hhash : s₁.self.hash = digitsHash := by rw [P.hash, hself]
  have L₁ : Lawful (fun _ => True) s₁.self.hash s₁.self.compare := by
    rw [hhash, hcompare]
    exact digits_lawful.everywhere
  have hholds : ∀ k v, Holds s₁ k v ↔ (k, v) ∈ wornPuts k₀ := fun k v => by
    rw [P.holds (by rw [hself]; exact hpairwise), or_iff_left fun h => hempty k v h.1]
  -- the removal
  have hnull : s₁.self.compare null 1 = false := by
    rw [hcompare]
    rfl
  obtain ⟨ok₁, t₁, hrem₁, wf₁, -, hholds₁, hhash₁, hcompare₁, hgrants₁⟩ :=
    remove_spec L₁ (P.filled.wellFormed L₁) trivial hnull true
  obtain ⟨-, rfl⟩ := Prod.mk.inj (((removeInternal_steady s₁ 1 true).returns hrem).unique hrem₁)
  refine ⟨wf₁.wellFormed, hhash₁.trans hhash, hcompare₁.trans hcompare, fun i => ?_, fun k v => ?_⟩
  · rw [hgrants₁, P.grants, hgrants]
    rfl
  · rw [hholds₁, hcompare, hholds]
    exact and_congr_right fun hk => (hfresh _ hk).2

theorem worn_spec {k₀ : UInt64} {s : State UInt64 UInt64} (hs : worn k₀ = .ok s)
    (hk₀ : k₀ ∈ [(0 : UInt64), 42]) : Worn k₀ s := by
  have hseen : (wearing k₀).toOption.map
      (fun s => (s.self.maybeResize, bucketRow s (slotOf s.self s.self.nBuckets 41))) =
        some (false, some [none]) := by
    rcases List.mem_pair.mp hk₀ with rfl | rfl <;> decide +kernel
  obtain ⟨t, ht, hrest⟩ := ok_of_bind hs
  obtain ⟨⟨ok, s'⟩, hput, heq⟩ := ok_of_bind hrest
  obtain rfl := Except.ok.inj heq
  rw [ht] at hseen
  obtain ⟨hroom, hrow⟩ := Prod.mk.inj (Option.some.inj hseen)
  obtain ⟨wf, hhash, hcompare, hg, hholds⟩ := wearing_spec ht hk₀
  have L : Lawful (fun _ => True) t.self.hash t.self.compare := by
    rw [hhash, hcompare]
    exact digits_lawful.everywhere
  obtain ⟨s₁, hput₁, A, -, hwf, -⟩ := put_spec L wf.everywhere
    (show (fun _ => True) (41 : UInt64) from trivial) 141 hg (by rw [hroom]; simp)
  obtain ⟨-, rfl⟩ := Prod.mk.inj (((put_steady t 41 141).returns hput).unique hput₁)
  have hkeep : ¬ RelinksAt t 41 := not_relinksAt_of_rowFrom hrow fun h => h.2.2 rfl
  refine ⟨(hwf (.inr hkeep)).wellFormed, A.hash.trans hhash, A.compare.trans hcompare, fun i => ?_,
    fun k v => ?_⟩
  · rw [A.grants]
    exact hg i
  · have hfresh := (wornPuts_distinct hk₀).2.1
    rw [A.holds, hcompare, hholds, wornPairs, List.mem_cons, Prod.mk.injEq, List.mem_filter,
      decide_eq_true_eq]
    exact or_congr_right (and_iff_left_of_imp fun h => (hfresh _ h.1).1)

/-- The map `worn` exists, and this is what is seen of it. -/
theorem exists_worn {k₀ : UInt64} (hk₀ : k₀ ∈ [(0 : UInt64), 42]) :
    ∃ s, worn k₀ = .ok s ∧ Worn k₀ s ∧ s.self.nBuckets = 61 ∧ s.self.maybeResize = true ∧
      bucketRow s 1 = some [none, some (62, 162)] ∧ s.self.keyFree = true ∧
      s.self.valueFree = true := by
  have hseen : wornSeen k₀ = some ⟨61, true, true, true, some [none, some (62, 162)]⟩ := by
    rcases List.mem_pair.mp hk₀ with rfl | rfl <;> decide +kernel
  obtain ⟨s, hs, h⟩ := Option.map_eq_some_iff.mp hseen
  obtain ⟨hn, hfull, hk, hv, hrow⟩ := WornSeen.mk.inj h
  exact ⟨s, ok_of_toOption hs, worn_spec (ok_of_toOption hs) hk₀, hn, hfull, hrow, hk, hv⟩

/-! ### The operations -/

/-- Lookup, storing and removal of a key in a well-formed map. -/
theorem map_operations {K V : Type} [Null K] [Null V] {s : State K V} {key : K} (value : V)
    (L : LawfulBesideNull s.self.hash s.self.compare) (wf : WellFormed s) (hk : NonNull key)
    (hg : ∀ i, s.mem.grants i = true) (hint : s.self.nBuckets * increaseFactor ≤ intMax) :
    ((∀ k v, Holds s k v → s.self.compare k key = true → Returns (fun f => get f s key) v) ∧
      ((∀ k v, Holds s k v → s.self.compare k key = false) →
        Returns (fun f => get f s key) null)) ∧
    (∃ s', Returns (fun f => put f s key value) (true, s') ∧ NoTwins s' ∧
      ∀ k v, Holds s' k v ↔
        (k = key ∧ v = value) ∨ (Holds s k v ∧ s.self.compare k key = false)) ∧
    ∀ remove, ∃ ok s', Returns (fun f => removeInternal f s key remove) (ok, s') ∧
      WellFormed s' ∧ (ok = true ↔ ∃ k v, Holds s k v ∧ s.self.compare k key = true) ∧
      ∀ k v, Holds s' k v ↔ Holds s k v ∧ s.self.compare k key = false := by
  have hnull := L.null_ne key hk
  refine ⟨get_spec L.everywhere wf.everywhere trivial hnull, ?_, fun remove => ?_⟩
  · obtain ⟨s', hr, A, htw, -⟩ := put_spec L.everywhere wf.everywhere trivial value hg fun _ => hint
    exact ⟨s', hr, htw, A.holds⟩
  · obtain ⟨ok, s', hr, hwf, hok, hholds, -⟩ :=
      remove_spec L.everywhere wf.everywhere trivial hnull remove
    exact ⟨ok, s', hr, hwf.wellFormed, hok, hholds⟩

/-- On a map with the key NULL and a hole before the key 62: looking 62 up, and putting a new value for
it under another pointer, which resizes the table first. -/
theorem map_operations_worn : ∃ s s' : State UInt64 UInt64, worn 0 = .ok s ∧ Holds s 0 100 ∧
    bucketRow s 1 = some [none, some (62, 162)] ∧ s.self.maybeResize = true ∧
    Returns (fun f => get f s 1062) 162 ∧ Returns (fun f => put f s 1062 9) (true, s') ∧
    ∀ k v, Holds s' k v ↔ (k = 1062 ∧ v = 9) ∨ ((k, v) ∈ wornPairs 0 ∧ k ≠ 62) := by
  obtain ⟨s, hs, W, hn, hfull, hrow, -⟩ := exists_worn (show (0 : UInt64) ∈ [0, 42] by decide)
  obtain ⟨⟨hget, -⟩, ⟨s', hput, -, hholds⟩, -⟩ := map_operations 9 W.lawful W.wellFormed
    (show NonNull (1062 : UInt64) by decide) W.grants (by rw [hn]; decide)
  have hequal : (wornPairs 0).Forall fun p => digitsCompare p.1 1062 = false ↔ p.1 ≠ 62 := by
    decide +kernel
  refine ⟨s, s', hs, (W.holds 0 100).mpr (by decide +kernel), hrow, hfull,
    hget 62 162 ((W.holds 62 162).mpr (by decide +kernel)) (by rw [W.compare]; decide), hput,
    fun k v => ?_⟩
  rw [hholds, W.holds, W.compare]
  exact or_congr_right (and_congr_right fun h => List.forall_iff_forall_mem.mp hequal _ h)

end Nica
