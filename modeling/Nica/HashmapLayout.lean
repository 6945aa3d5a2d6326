import Nica.Hashmap
import Nica.LinkedCells
import Nica.Buckets
import Mathlib.Logic.Function.Basic

/-! # The shape of a bucket table

`Shape h t n tails back` says how the table `t` of `n` slots lies in memory: the chain of slot `i`
is the slot followed by the overflow nodes `tails i`, its last entry points to `back i` (NULL, or an
entry of the same chain), chains share no node, and unoccupied entries are blank.  `Table` adds that
the rows these chains show (`rowsOf`) form a table of rows (`Rows.Bucketed`).  A `WellFormed` map is
a table whose chains all end in NULL and whose `size` counts its pairs.

`Holds s k v` is stated on the pointer structure alone (an occupied entry reached from a bucket
slot); over a shape it is membership in `Rows.contents` (`Shape.holds_iff`). -/

namespace Nica

open Blocks Linked Rows

variable {K V : Type}

/-- The pair that an entry shows: an unoccupied entry is a hole. -/
def NcHashmapEntry.view (e : NcHashmapEntry K V) : Option (K × V) :=
  if e.occ then some (e.hash, e.value) else none

@[simp] theorem NcHashmapEntry.view_occ {e : NcHashmapEntry K V} (h : e.occ = true) :
    e.view = some (e.hash, e.value) := if_pos h

@[simp] theorem NcHashmapEntry.view_blank {e : NcHashmapEntry K V} (h : e.occ = false) :
    e.view = none := by simp [NcHashmapEntry.view, h]

/-- The entries of the chain of slot `i`. -/
def chainOf (t : ℕ) (tails : ℕ → List ℕ) (i : ℕ) : List Loc := .slot t i :: (tails i).map .node

/-- What a cell shows. -/
def viewAt (h : Heap (NcHashmapEntry K V)) (a : Loc) : Option (K × V) :=
  (h.cells a).bind NcHashmapEntry.view

/-- The row shown by a list of cells. -/
def rowOf (h : Heap (NcHashmapEntry K V)) (xs : List Loc) : Row K V := xs.map (viewAt h)

/-- The rows shown by the chains of a table. -/
def rowsOf (h : Heap (NcHashmapEntry K V)) (t : ℕ) (tails : ℕ → List ℕ) (i : ℕ) : Row K V :=
  rowOf h (chainOf t tails i)

theorem viewAt_eq {h : Heap (NcHashmapEntry K V)} {a : Loc} {e : NcHashmapEntry K V}
    (ha : h.cells a = some e) : viewAt h a = e.view := by
  simp [viewAt, ha]

/-- An entry that shows a hole is not occupied. -/
theorem viewAt_eq_none {h : Heap (NcHashmapEntry K V)} {a : Loc} {e : NcHashmapEntry K V}
    (ha : h.cells a = some e) (hv : viewAt h a = none) : e.occ = false := by
  rw [viewAt_eq ha] at hv
  by_contra ho
  rw [NcHashmapEntry.view_occ (by simpa using ho)] at hv
  cases hv

@[simp] theorem rowOf_nil (h : Heap (NcHashmapEntry K V)) : rowOf h [] = [] := rfl

@[simp] theorem rowOf_cons (h : Heap (NcHashmapEntry K V)) (a : Loc) (xs : List Loc) :
    rowOf h (a :: xs) = viewAt h a :: rowOf h xs := rfl

@[simp] theorem rowOf_append (h : Heap (NcHashmapEntry K V)) (xs ys : List Loc) :
    rowOf h (xs ++ ys) = rowOf h xs ++ rowOf h ys := List.map_append

theorem rowOf_congr {h h' : Heap (NcHashmapEntry K V)} {xs : List Loc}
    (he : ∀ a ∈ xs, h'.cells a = h.cells a) : rowOf h' xs = rowOf h xs :=
  List.map_congr_left fun a ha => by rw [viewAt, viewAt, he a ha]

theorem rowsOf_of_cells {h h' : Heap (NcHashmapEntry K V)} (he : h'.cells = h.cells) (t : ℕ)
    (tails : ℕ → List ℕ) : rowsOf h' t tails = rowsOf h t tails :=
  funext fun _ => rowOf_congr fun a _ => by rw [he]

theorem chainOf_congr {t : ℕ} {tails tails' : ℕ → List ℕ} {i : ℕ} (h : tails' i = tails i) :
    chainOf t tails' i = chainOf t tails i := by rw [chainOf, chainOf, h]

theorem chainOf_nodup {t : ℕ} {tails : ℕ → List ℕ} {i : ℕ} :
    (chainOf t tails i).Nodup ↔ (tails i).Nodup := by
  have hinj : Function.Injective Loc.node := fun _ _ h => Loc.node.inj h
  simp [chainOf, List.nodup_map_iff hinj]

theorem chainOf_ne_nil (t : ℕ) (tails : ℕ → List ℕ) (i : ℕ) : chainOf t tails i ≠ [] := by
  simp [chainOf]

theorem mem_chainOf {t : ℕ} {tails : ℕ → List ℕ} {i : ℕ} {a : Loc} :
    a ∈ chainOf t tails i ↔ a = .slot t i ∨ ∃ b ∈ tails i, a = .node b := by
  simp [chainOf, eq_comm]

section shape
variable [Null K] [Null V]

/-- How a table of `n` chains lies in memory. -/
structure Shape (h : Heap (NcHashmapEntry K V)) (t n : ℕ) (tails : ℕ → List ℕ)
    (back : ℕ → Option Loc) : Prop where
  pos : 0 < n
  table : ∀ i, (h.cells (.slot t i)).isSome = true ↔ i < n
  path : ∀ i < n, Path NcHashmapEntry.next h.cells (some (.slot t i)) (chainOf t tails i) (back i)
  backIn : ∀ i < n, ∀ a, back i = some a → a ∈ chainOf t tails i
  nodup : ∀ i < n, (tails i).Nodup
  apart : ∀ i < n, ∀ j < n, i ≠ j → ∀ b ∈ tails i, b ∉ tails j
  blank : ∀ i < n, ∀ a ∈ chainOf t tails i, ∀ e, h.cells a = some e → e.occ = false →
    e.hash = null ∧ e.value = null

/-- The bucket of a key in a table of `n` slots. -/
def slotOf (self : NcHashmap K V) (n : ℕ) (k : K) : ℕ := (self.hash k).toNat % n

/-- A table whose chains show a table of rows, placed by the hash of the keys. -/
structure Table (map : NcHashmap K V) (D : K → Prop) (h : Heap (NcHashmapEntry K V)) (t n : ℕ)
    (tails : ℕ → List ℕ) (back : ℕ → Option Loc) : Prop extends Shape h t n tails back where
  rows : Bucketed (slotOf map n) D map.compare n (rowsOf h t tails)

/-- On the keys in `D` comparison is a partial equivalence, and equal keys hash equal. -/
structure Lawful (D : K → Prop) (hash : K → UInt32) (compare : K → K → Bool) : Prop where
  per : PerOn D compare
  hash : ∀ a b, D a → D b → compare a b = true → hash a = hash b

/-- The key is not NULL. -/
def NonNull (k : K) : Prop := k ≠ null

instance [DecidableEq K] (k : K) : Decidable (NonNull k) := inferInstanceAs (Decidable (k ≠ null))

/-- On the keys that are not NULL comparison is an equivalence, equal ones hash equal, and NULL
equals none of them. -/
structure LawfulKeys (hash : K → UInt32) (compare : K → K → Bool) : Prop
    extends Lawful NonNull hash compare where
  refl : ∀ k, NonNull k → compare k k = true
  null_ne : ∀ k, NonNull k → compare null k = false

/-- Lawful keys for maps that may hold NULL as a key: none of them equals NULL, on whichever side NULL
is. -/
structure LawfulBesideNull (hash : K → UInt32) (compare : K → K → Bool) : Prop
    extends LawfulKeys hash compare where
  ne_null : ∀ k, NonNull k → compare k null = false

/-- The table of a map: every chain reaches NULL, every pair stands in the chain of its hash, no two
keys are equal, and `size` is the number of pairs. -/
def WellFormed (s : State K V) : Prop :=
  ∃ tails : ℕ → List ℕ,
    Shape s.mem.toHeap s.self.buckets s.self.nBuckets tails (fun _ => none) ∧
    (∀ i < s.self.nBuckets, ∀ p ∈ pairs (rowsOf s.mem.toHeap s.self.buckets tails i),
      slotOf s.self s.self.nBuckets p.1 = i) ∧
    Uniq s.self.compare (contents (rowsOf s.mem.toHeap s.self.buckets tails) s.self.nBuckets) ∧
    s.self.size = (contents (rowsOf s.mem.toHeap s.self.buckets tails) s.self.nBuckets).length

/-- The entry at `a` is occupied by the pair `k`, `v`, and a bucket slot leads to it. -/
def OccupiedAt (s : State K V) (a : Loc) (k : K) (v : V) : Prop :=
  (∃ i < s.self.nBuckets,
    Reaches NcHashmapEntry.next s.mem.cells (some (.slot s.self.buckets i)) a) ∧
  ∃ e, s.mem.cells a = some e ∧ e.occ = true ∧ e.hash = k ∧ e.value = v

/-- The map holds the pair `k`, `v`. -/
def Holds (s : State K V) (k : K) (v : V) : Prop := ∃ a, OccupiedAt s a k v

/-- A well-formed map whose keys are in `D`. -/
structure WellFormedOn (D : K → Prop) (s : State K V) : Prop where
  wellFormed : WellFormed s
  keys : ∀ k v, Holds s k v → D k

theorem WellFormed.everywhere {s : State K V} (wf : WellFormed s) :
    WellFormedOn (fun _ => True) s := ⟨wf, fun _ _ _ => trivial⟩

/-- What is lawful beside NULL is lawful on all keys: NULL is comparable with NULL only. -/
theorem LawfulBesideNull.everywhere {hash : K → UInt32} {compare : K → K → Bool}
    (L : LawfulBesideNull hash compare) : Lawful (fun _ => True) hash compare := by
  -- equal keys are both NULL, or neither is
  have kinds : ∀ a b, compare a b = true → (a = null ∧ b = null) ∨ (NonNull a ∧ NonNull b) := by
    intro a b h
    by_cases ha : a = null
    · by_cases hb : b = null
      · exact .inl ⟨ha, hb⟩
      · rw [ha, L.null_ne b hb] at h
        cases h
    · by_cases hb : b = null
      · rw [hb, L.ne_null a ha] at h
        cases h
      · exact .inr ⟨ha, hb⟩
  refine ⟨⟨fun a b _ _ h => ?_, fun a b c _ _ _ hab hbc => ?_⟩, fun a b _ _ h => ?_⟩
  · rcases kinds a b h with ⟨rfl, rfl⟩ | ⟨ha, hb⟩
    · exact h
    · exact L.per.symm a b ha hb h
  · rcases kinds a b hab with ⟨rfl, rfl⟩ | ⟨ha, hb⟩
    · exact hbc
    · rcases kinds b c hbc with ⟨rfl, rfl⟩ | ⟨-, hc⟩
      · exact hab
      · exact L.per.trans a b c ha hb hc hab hbc
  · rcases kinds a b h with ⟨rfl, rfl⟩ | ⟨ha, hb⟩
    · rfl
    · exact L.hash a b ha hb h

namespace Shape

variable {h h' : Heap (NcHashmapEntry K V)} {t n : ℕ} {tails : ℕ → List ℕ} {back : ℕ → Option Loc}

theorem chain_nodup (hS : Shape h t n tails back) {i : ℕ} (hi : i < n) :
    (chainOf t tails i).Nodup := chainOf_nodup.mpr (hS.nodup i hi)

theorem cell (hS : Shape h t n tails back) {i : ℕ} (hi : i < n) {a : Loc}
    (ha : a ∈ chainOf t tails i) : ∃ e, h.cells a = some e := (hS.path i hi).cell ha

theorem chain_apart (hS : Shape h t n tails back) {i j : ℕ} (hi : i < n) (hj : j < n)
    (hij : i ≠ j) {a : Loc} (ha : a ∈ chainOf t tails i) : a ∉ chainOf t tails j := by
  intro haj
  rcases mem_chainOf.mp ha with rfl | ⟨b, hb, rfl⟩
  · rcases mem_chainOf.mp haj with e | ⟨b, -, e⟩
    · exact hij (Loc.slot.inj e).2
    · cases e
  · rcases mem_chainOf.mp haj with e | ⟨c, hc, e⟩
    · cases e
    · rw [← Loc.node.inj e] at hc
      exact hS.apart i hi j hj hij b hb hc

theorem reaches_iff (hS : Shape h t n tails back) {i : ℕ} (hi : i < n) {a : Loc} :
    Reaches NcHashmapEntry.next h.cells (some (.slot t i)) a ↔ a ∈ chainOf t tails i :=
  (hS.path i hi).reaches_iff (hS.backIn i hi)

omit [Null K] [Null V] in
/-- The pairs of a table are those of its occupied entries. -/
theorem mem_rows {i : ℕ} {k : K} {v : V} :
    (k, v) ∈ pairs (rowsOf h t tails i) ↔
      ∃ a ∈ chainOf t tails i, ∃ e, h.cells a = some e ∧ e.occ = true ∧ e.hash = k ∧ e.value = v := by
  simp only [mem_pairs, rowsOf, rowOf, List.mem_map, viewAt, Option.bind_eq_some_iff,
    NcHashmapEntry.view]
  constructor
  · rintro ⟨a, ha, e, he, hv⟩
    split at hv
    · simp only [Option.some.injEq, Prod.mk.injEq] at hv
      exact ⟨a, ha, e, he, ‹_›, hv.1, hv.2⟩
    · cases hv
  · rintro ⟨a, ha, e, he, ho, rfl, rfl⟩
    exact ⟨a, ha, e, he, by rw [if_pos ho]⟩

theorem occupiedAt_iff {s : State K V}
    (hS : Shape s.mem.toHeap s.self.buckets s.self.nBuckets tails back) {a : Loc} {k : K} {v : V} :
    OccupiedAt s a k v ↔ (∃ i < s.self.nBuckets, a ∈ chainOf s.self.buckets tails i) ∧
      ∃ e, s.mem.cells a = some e ∧ e.occ = true ∧ e.hash = k ∧ e.value = v := by
  refine and_congr (exists_congr fun i => and_congr_right fun hi => ?_) Iff.rfl
  exact hS.reaches_iff hi

/-- An occupied entry on a chain. -/
theorem occupiedAt_split {s : State K V}
    (hS : Shape s.mem.toHeap s.self.buckets s.self.nBuckets tails back) {i : ℕ}
    (hi : i < s.self.nBuckets) {xs ys : List Loc} {a : Loc}
    (hx : chainOf s.self.buckets tails i = xs ++ a :: ys) {e : NcHashmapEntry K V}
    (he : s.mem.cells a = some e) (ho : e.occ = true) : OccupiedAt s a e.hash e.value := by
  have ha : a ∈ chainOf s.self.buckets tails i := by
    rw [hx]
    exact List.mem_append_right xs List.mem_cons_self
  exact hS.occupiedAt_iff.mpr ⟨⟨i, hi, ha⟩, e, he, ho, rfl, rfl⟩

theorem holds_iff {s : State K V}
    (hS : Shape s.mem.toHeap s.self.buckets s.self.nBuckets tails back) {k : K} {v : V} :
    Holds s k v ↔
      (k, v) ∈ contents (rowsOf s.mem.toHeap s.self.buckets tails) s.self.nBuckets := by
  simp only [Holds, hS.occupiedAt_iff, mem_contents, mem_rows]
  constructor
  · rintro ⟨a, ⟨i, hi, ha⟩, e, he⟩
    exact ⟨i, hi, a, ha, e, he⟩
  · rintro ⟨i, hi, a, ha, e, he⟩
    exact ⟨a, ⟨i, hi, ha⟩, e, he⟩

/-- The table in another heap that shows the same cells. -/
theorem congr (hS : Shape h t n tails back) (htab : ∀ i, n ≤ i → h'.cells (.slot t i) = none)
    (he : ∀ i < n, ∀ a ∈ chainOf t tails i, h'.cells a = h.cells a) :
    Shape h' t n tails back where
  pos := hS.pos
  table i := by
    by_cases hi : i < n
    · rw [he i hi _ (mem_chainOf.mpr (.inl rfl))]; exact hS.table i
    · simp [htab i (by omega), hi]
  path i hi := (hS.path i hi).congr fun a ha => by rw [he i hi a ha]
  backIn := hS.backIn
  nodup := hS.nodup
  apart := hS.apart
  blank i hi a ha e hc := hS.blank i hi a ha e (by rw [← he i hi a ha]; exact hc)

theorem table_none (hS : Shape h t n tails back) {i : ℕ} (hi : n ≤ i) :
    h.cells (.slot t i) = none := by
  have := (hS.table i).not.mpr (by omega)
  simpa using this

/-- Only the cells matter. -/
theorem of_cells (hS : Shape h t n tails back) (he : h'.cells = h.cells) :
    Shape h' t n tails back :=
  hS.congr (fun i hi => by rw [he]; exact hS.table_none hi) fun _ _ _ _ => by rw [he]

theorem back_congr {back' : ℕ → Option Loc} (hS : Shape h t n tails back)
    (he : ∀ i < n, back' i = back i) : Shape h t n tails back' :=
  { hS with
    path := fun i hi => by rw [he i hi]; exact hS.path i hi
    backIn := fun i hi => by rw [he i hi]; exact hS.backIn i hi }

/-- A change of one chain: only its cells and its new nodes are touched. -/
theorem change (hS : Shape h t n tails back) {i : ℕ} (hi : i < n) {os : List ℕ} {q : Option Loc}
    (htab : ∀ j, (h'.cells (.slot t j)).isSome = (h.cells (.slot t j)).isSome)
    (hoff : ∀ j < n, j ≠ i → ∀ a ∈ chainOf t tails j, h'.cells a = h.cells a)
    (hpath : Path NcHashmapEntry.next h'.cells (some (.slot t i)) (.slot t i :: os.map .node) q)
    (hback : ∀ a, q = some a → a ∈ Loc.slot t i :: os.map .node) (hnd : os.Nodup)
    (hap : ∀ j < n, j ≠ i → ∀ b ∈ os, b ∉ tails j)
    (hblank : ∀ a ∈ Loc.slot t i :: os.map .node, ∀ e, h'.cells a = some e → e.occ = false →
      e.hash = null ∧ e.value = null) :
    Shape h' t n (Function.update tails i os) (Function.update back i q) := by
  have self : chainOf t (Function.update tails i os) i = .slot t i :: os.map .node := by
    simp [chainOf]
  have other : ∀ j, j ≠ i → chainOf t (Function.update tails i os) j = chainOf t tails j :=
    fun j hj => chainOf_congr (Function.update_of_ne hj _ _)
  exact
    { pos := hS.pos
      table := fun j => by rw [htab]; exact hS.table j
      path := fun j hj => by
        by_cases hji : j = i
        · subst hji; rw [self, Function.update_self]; exact hpath
        · rw [other j hji, Function.update_of_ne hji]
          exact (hS.path j hj).congr fun a ha => by rw [hoff j hj hji a ha]
      backIn := fun j hj a ha => by
        by_cases hji : j = i
        · subst hji; rw [self]; rw [Function.update_self] at ha; exact hback a ha
        · rw [other j hji]; rw [Function.update_of_ne hji] at ha; exact hS.backIn j hj a ha
      nodup := fun j hj => by
        by_cases hji : j = i
        · subst hji; rw [Function.update_self]; exact hnd
        · rw [Function.update_of_ne hji]; exact hS.nodup j hj
      apart := fun j hj l hl hjl b hb => by
        by_cases hji : j = i
        · subst hji
          rw [Function.update_of_ne (Ne.symm hjl)]
          rw [Function.update_self] at hb
          exact hap l hl (Ne.symm hjl) b hb
        · rw [Function.update_of_ne hji] at hb
          by_cases hli : l = i
          · subst hli; rw [Function.update_self]; exact fun hbo => hap j hj hji b hbo hb
          · rw [Function.update_of_ne hli]; exact hS.apart j hj l hl hjl b hb
      blank := fun j hj a ha e hc ho => by
        by_cases hji : j = i
        · subst hji; rw [self] at ha; exact hblank a ha e hc ho
        · rw [other j hji] at ha
          exact hS.blank j hj a ha e (by rw [← hoff j hj hji a ha]; exact hc) ho }

/-- A write that keeps the `next` fields of the table keeps its shape. -/
theorem rewrite (hS : Shape h t n tails back) {i : ℕ} (hi : i < n) {a : Loc}
    (ha : a ∈ chainOf t tails i) {f : NcHashmapEntry K V → NcHashmapEntry K V}
    (hnext : ∀ e, (f e).next = e.next)
    (hblank : ∀ e, h.cells a = some e → (f e).occ = false →
      (f e).hash = null ∧ (f e).value = null) : Shape (h.update a f) t n tails back := by
  have off : ∀ j < n, j ≠ i → ∀ b ∈ chainOf t tails j, (h.update a f).cells b = h.cells b := by
    intro j hj hji b hb
    exact h.update_ne f fun e => hS.chain_apart hj hi hji hb (e ▸ ha)
  have : Shape (h.update a f) t n (Function.update tails i (tails i))
      (Function.update back i (back i)) := hS.change hi
    (fun j => by
      by_cases hj : Loc.slot t j = a
      · rw [← hj, Heap.update_self, Option.isSome_map]
      · rw [h.update_ne f hj]) off
    ((hS.path i hi).congr fun b _ => by
      by_cases hb : b = a
      · subst hb
        rw [Heap.update_self, Option.map_map]
        exact congrArg (fun g => (h.cells b).map g) (funext hnext)
      · rw [h.update_ne f hb])
    (hS.backIn i hi) (hS.nodup i hi) (fun j hj hji b hb => hS.apart i hi j hj (Ne.symm hji) b hb)
    (fun b hb e he ho => by
      by_cases hba : b = a
      · subst hba
        rw [Heap.update_self, Option.map_eq_some_iff] at he
        obtain ⟨d, hd, rfl⟩ := he
        exact hblank d hd ho
      · rw [h.update_ne f hba] at he
        exact hS.blank i hi b hb e he ho)
  rwa [Function.update_eq_self, Function.update_eq_self] at this

end Shape

omit [Null K] [Null V] in
/-- What a row shows after a write to one of its cells. -/
theorem rowOf_update {h : Heap (NcHashmapEntry K V)} {xs ys : List Loc} {a : Loc}
    (hnd : (xs ++ a :: ys).Nodup) {f : NcHashmapEntry K V → NcHashmapEntry K V}
    {e : NcHashmapEntry K V} (he : h.cells a = some e) :
    rowOf (h.update a f) (xs ++ a :: ys) = rowOf h xs ++ (f e).view :: rowOf h ys := by
  have hx : ∀ b ∈ xs, (h.update a f).cells b = h.cells b := by
    intro b hb
    apply h.update_ne f
    rintro rfl
    exact (List.nodup_append.mp hnd).2.2 b hb b List.mem_cons_self rfl
  have hy : ∀ b ∈ ys, (h.update a f).cells b = h.cells b := by
    intro b hb
    apply h.update_ne f
    rintro rfl
    exact (List.nodup_cons.mp (List.nodup_append.mp hnd).2.1).1 hb
  rw [rowOf_append, rowOf_cons, rowOf_congr hx, rowOf_congr hy]
  simp [viewAt, he]

/-- The rows of the other chains do not see a write to a cell of chain `i`. -/
theorem Shape.rowsOf_update {h : Heap (NcHashmapEntry K V)} {t n : ℕ} {tails : ℕ → List ℕ}
    {back : ℕ → Option Loc} (hS : Shape h t n tails back) {i j : ℕ} (hi : i < n) (hj : j < n)
    (hji : j ≠ i) {a : Loc} (ha : a ∈ chainOf t tails i)
    (f : NcHashmapEntry K V → NcHashmapEntry K V) :
    rowsOf (h.update a f) t tails j = rowsOf h t tails j :=
  rowOf_congr fun _ hb => h.update_ne f fun e => hS.chain_apart hj hi hji hb (e ▸ ha)

end shape

end Nica
