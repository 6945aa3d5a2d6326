import Nica.HashmapLoops
import Nica.HashmapRuns

/-! # Integer keys and the key 0

With the default hash and comparison the key 0 is the NULL that unoccupied entries hold, and the
lookup does not ask whether an entry is occupied.  It finds a stored 0 only if no unoccupied entry
stands before it (`Rows.Unhidden`), and when 0 is not stored it takes an unoccupied entry of the
bucket for it.  `zero_key` is about the runs whose calls avoid this (`KeepsZero`); chains may run into
themselves in them. -/

namespace Nica

open Blocks Linked Rows Fueled NcHashmap

variable {K V : Type}

/-- The entry `a` comes before `b` on a chain of the table. -/
def Before (s : State K V) (a b : Loc) : Prop :=
  ∃ i < s.self.nBuckets, ∃ xs q, (xs ++ [b]).Nodup ∧ a ∈ xs ∧
    Path NcHashmapEntry.next s.mem.cells (some (.slot s.self.buckets i)) (xs ++ [b]) q

variable [Null V]

/-- `a` is an unoccupied entry of the bucket of 0. -/
def VacantAt (s : State UInt64 V) (a : Loc) : Prop :=
  Reaches NcHashmapEntry.next s.mem.cells
      (some (.slot s.self.buckets (slotOf s.self s.self.nBuckets 0))) a ∧
    ∃ e, s.mem.cells a = some e ∧ e.occ = false

/-- When the key is 0, it is stored, or its bucket has no unoccupied entry. -/
def Findable (s : State UInt64 V) (key : UInt64) : Prop :=
  key = 0 → (∃ v, Holds s 0 v) ∨ ∀ a, ¬ VacantAt s a

/-- A removal of the key finds no unoccupied entry, and leaves none before a stored 0. -/
def Removable (s : State UInt64 V) (key : UInt64) : Prop :=
  Findable s key ∧
    ∀ a b v w, key ≠ 0 → OccupiedAt s a key v → OccupiedAt s b 0 w → ¬ Before s a b

/-- The call keeps a stored 0 in sight. -/
def KeepsZero (s : State UInt64 V) : Op UInt64 V → Prop
  | .put key _ => key = 0 → s.self.maybeResize = true ∨ (∃ v, Holds s 0 v) ∨
      ∀ a b, VacantAt s a → VacantAt s b → a = b
  | .remove key => Removable s key
  | .steal key => Removable s key
  | .get _ => True

/-- A map with integer keys: its size counts the pairs, and no hole stands before a stored 0. -/
structure Counted (s : State UInt64 V) (tails : ℕ → List ℕ) (back : ℕ → Option Loc) : Prop where
  table : Table s.self (fun _ => True) s.mem.toHeap s.self.buckets s.self.nBuckets tails back
  size : s.self.size = (contents (rowsOf s.mem.toHeap s.self.buckets tails) s.self.nBuckets).length
  front : Unhidden s.self.compare
    (rowsOf s.mem.toHeap s.self.buckets tails (slotOf s.self s.self.nBuckets 0)) 0
  hash : s.self.hash = ncSimpleHash
  compare : s.self.compare = ncSimpleCompare
  grants : ∀ i, s.mem.grants i = true

namespace Counted

variable {s s' : State UInt64 V} {tails : ℕ → List ℕ} {back : ℕ → Option Loc} {key : UInt64}

theorem lawful (C : Counted s tails back) : Lawful (fun _ => True) s.self.hash s.self.compare := by
  rw [C.hash, C.compare]
  exact simple_lawful_on _

theorem compare_iff (C : Counted s tails back) {k l : UInt64} :
    s.self.compare k l = true ↔ k = l := by
  rw [C.compare]
  exact beq_iff_eq

theorem has_iff (C : Counted s tails back) :
    has s.self.compare (rowsOf s.mem.toHeap s.self.buckets tails
      (slotOf s.self s.self.nBuckets key)) key = true ↔ ∃ v, Holds s key v := by
  rw [C.table.has_iff_holds C.lawful trivial]
  constructor
  · rintro ⟨k, v, h, hc⟩
    exact ⟨v, C.compare_iff.mp hc ▸ h⟩
  · rintro ⟨v, h⟩
    exact ⟨key, v, h, C.compare_iff.mpr rfl⟩

/-- The holes of the row of 0 are the unoccupied entries of its bucket. -/
theorem vacantAt_of_mem (C : Counted s tails back) {a : Loc}
    (ha : a ∈ chainOf s.self.buckets tails (slotOf s.self s.self.nBuckets 0))
    (hv : viewAt s.mem.toHeap a = none) : VacantAt s a := by
  have hi := C.table.slotOf_lt 0
  obtain ⟨e, he⟩ := C.table.cell hi ha
  exact ⟨(C.table.reaches_iff hi).mpr ha, e, he, viewAt_eq_none he hv⟩

/-! ### Lookup -/

theorem found (C : Counted s tails back) (h : ∃ v, Holds s key v) :
    ∃ xs a ys e,
      chainOf s.self.buckets tails (slotOf s.self s.self.nBuckets key) = xs ++ a :: ys ∧
      has s.self.compare (rowOf s.mem.toHeap xs) key = false ∧
      s.mem.cells a = some e ∧ e.occ = true ∧ e.hash = key ∧
      Returns (fun n => getEntry n s key) (some a) := by
  have hn : s.self.compare null key = false ∨ Unhidden s.self.compare (rowsOf s.mem.toHeap
      s.self.buckets tails (slotOf s.self s.self.nBuckets key)) key := by
    by_cases hk : key = 0
    · subst hk
      exact .inr C.front
    · exact .inl (Bool.eq_false_iff.mpr fun hc => hk (C.compare_iff.mp hc).symm)
  obtain ⟨xs, a, ys, e, hx, hxs, he, ho, hc, hr⟩ := C.table.getEntry_found hn (C.has_iff.mpr h)
  exact ⟨xs, a, ys, e, hx, hxs, he, ho, C.compare_iff.mp hc, hr⟩

theorem absent (C : Counted s tails back) (h : ¬ ∃ v, Holds s key v) (hf : Findable s key) :
    Returns (fun n => getEntry n s key) none ∨ ∀ n, getEntry n s key = .error .timeout := by
  have hn : s.self.compare null key = false ∨ none ∉ rowsOf s.mem.toHeap s.self.buckets tails
      (slotOf s.self s.self.nBuckets key) := by
    by_cases hk : key = 0
    · subst hk
      refine .inr fun hmem => ?_
      obtain ⟨a, ha, hv⟩ := List.mem_map.mp hmem
      exact (hf rfl).resolve_left h a (C.vacantAt_of_mem ha hv)
    · exact .inl (Bool.eq_false_iff.mpr fun hc => hk (C.compare_iff.mp hc).symm)
  have hh := Bool.eq_false_iff.mpr (C.has_iff.not.mpr h)
  by_cases hb : back (slotOf s.self s.self.nBuckets key) = none
  · exact .inl (C.table.getEntry_none hn hh hb)
  · exact .inr (C.table.getEntry_closed hn hh hb)

/-- An entry that a lookup finds is occupied by the key. -/
theorem getEntry_occupied (C : Counted s tails back) (hf : Findable s key) {a : Loc}
    (hr : Returns (fun n => getEntry n s key) (some a)) : ∃ v, OccupiedAt s a key v := by
  by_cases h : ∃ v, Holds s key v
  · obtain ⟨xs, b, ys, e, hx, -, he, ho, rfl, hr'⟩ := C.found h
    obtain rfl := Option.some.inj (hr.unique hr')
    exact ⟨e.value, C.table.occupiedAt_split (C.table.slotOf_lt e.hash) hx he ho⟩
  · rcases C.absent h hf with hno | hto
    · cases hr.unique hno
    · obtain ⟨n, hn⟩ := hr.exists
      rw [hto n] at hn
      cases hn

/-- A stored pair is found by its key. -/
theorem get_stored (C : Counted s tails back) {v : V} (h : Holds s key v) :
    Returns (fun f => get f s key) v := by
  obtain ⟨xs, a, ys, e, hx, -, he, ho, rfl, hr⟩ := C.found ⟨v, h⟩
  obtain ⟨b, hb⟩ := h
  have ha := C.table.occupiedAt_split (C.table.slotOf_lt e.hash) hx he ho
  obtain rfl := C.table.noTwins C.lawful b a _ _ _ _ hb ha (C.compare_iff.mpr rfl)
  obtain ⟨-, d, hd, -, -, rfl⟩ := hb
  exact get_of_getEntry hr hd

/-! ### Calls -/

/-- Emptying the entry found removes that entry and no other. -/
theorem occupiedAt_vacate (C : Counted s tails back) {xs ys : List Loc} {a b : Loc}
    {p : UInt64 × V} {k : UInt64} {v : V} {i : ℕ} (hi : i < s.self.nBuckets)
    (hx : chainOf s.self.buckets tails i = xs ++ a :: ys) (remove : Bool) :
    OccupiedAt (vacate s a p remove) b k v ↔ b ≠ a ∧ OccupiedAt s b k v := by
  have hS := (vacate_shape (p := p) remove C.table.toShape hi hx).1
  have h₁ := (Shape.occupiedAt_cells (s := vacate s a p remove) (a := b) (p := (k, v)) hS)
  have h₂ := (C.table.occupiedAt_cells (a := b) (p := (k, v)))
  rw [h₁, h₂]
  by_cases hb : b = a
  · subst hb
    rw [viewAt_vacate_self]
    simp
  · rw [viewAt_vacate_ne hb]
    exact ⟨fun h => ⟨hb, h⟩, fun h => h.2⟩

/-- What stands behind a pair of a row comes after it on the chain. -/
theorem before_of_split (C : Counted s tails back) {i : ℕ} (hi : i < s.self.nBuckets)
    {r₁ r₂ : Row UInt64 V} {p : UInt64 × V}
    (hr : rowsOf s.mem.toHeap s.self.buckets tails i = r₁ ++ some p :: r₂)
    {q : UInt64 × V} (hq : q ∈ pairs r₂) :
    ∃ a b, OccupiedAt s a p.1 p.2 ∧ OccupiedAt s b q.1 q.2 ∧ Before s a b := by
  obtain ⟨xs, a, ys, hx, -, ha, rfl⟩ := rowOf_split hr
  obtain ⟨b, hb, hqb⟩ := List.mem_map.mp (mem_pairs.mp hq)
  obtain ⟨zs, ws, rfl⟩ := List.append_of_mem hb
  have hmem : ∀ c, c ∈ chainOf s.self.buckets tails i →
      ∃ j < s.self.nBuckets, c ∈ chainOf s.self.buckets tails j := fun c hc => ⟨i, hi, hc⟩
  have hnd := C.table.chain_nodup hi
  have hpath := C.table.path i hi
  rw [hx, show xs ++ a :: (zs ++ b :: ws) = (xs ++ a :: zs ++ [b]) ++ ws by simp] at hnd hpath
  obtain ⟨q', hpath, -⟩ := path_append.mp hpath
  refine ⟨a, b, C.table.occupiedAt_iff.mpr ⟨hmem a (by rw [hx]; simp), viewAt_eq_some.mp ha⟩,
    C.table.occupiedAt_iff.mpr ⟨hmem b (by rw [hx]; simp), viewAt_eq_some.mp hqb⟩,
    i, hi, xs ++ a :: zs, q', hnd.of_append_left, by simp, hpath⟩

/-- A removal that returns `true` empties the entry of the key, and one that returns `false` does
nothing. -/
theorem removal (C : Counted s tails back) (hk : Removable s key) {remove ok : Bool}
    (hr : Returns (fun f => removeInternal f s key remove) (ok, s')) :
    Counted s' tails back ∧ ((ok = false ∧ s' = s ∧ ¬ ∃ v, Holds s key v) ∨
      (ok = true ∧ ∃ a v, OccupiedAt s a key v ∧
        ∀ b k w, OccupiedAt s' b k w ↔ b ≠ a ∧ OccupiedAt s b k w)) := by
  by_cases h : ∃ v, Holds s key v
  · obtain ⟨xs, a, ys, e, hx, hxs, he, ho, rfl, hget⟩ := C.found h
    have hi := C.table.slotOf_lt e.hash
    obtain ⟨rfl, rfl⟩ := Prod.mk.inj (hr.unique (removeInternal_of_getEntry remove hget he))
    obtain ⟨T', hrow, hrest⟩ := C.table.vacate hx hxs he ho (C.compare_iff.mpr rfl) remove
    refine ⟨⟨⟨T'.toShape, T'.rows⟩, C.table.size_vacate (C.has_iff.mpr h) hrow hrest C.size, ?_,
      C.hash, C.compare, ?_⟩, .inr ⟨rfl, a, e.value, C.table.occupiedAt_split hi hx he ho,
      fun b k w => C.occupiedAt_vacate hi hx remove⟩⟩
    · change Unhidden s.self.compare (rowsOf (vacate s a (e.hash, e.value) remove).mem.toHeap
        s.self.buckets tails (slotOf s.self s.self.nBuckets 0)) 0
      by_cases hz : slotOf s.self s.self.nBuckets 0 = slotOf s.self s.self.nBuckets e.hash
      · have hfront := C.front
        rw [hz] at hfront ⊢
        rw [hrow]
        refine hfront.erase fun r₁ p r₂ hsplit hp => ?_
        rw [has_eq_false]
        intro q hq
        rw [← Bool.not_eq_true, C.compare_iff]
        intro hq0
        have hpk := C.compare_iff.mp hp
        by_cases hk0 : e.hash = 0
        · -- two pairs with the key 0 in one row
          have hu := C.table.rows.uniq _ hi
          rw [hsplit, pairs_append, pairs_pair] at hu
          have := (List.pairwise_cons.mp (List.pairwise_append.mp hu).2.1).1 q hq
          rw [← Bool.not_eq_true, C.compare_iff] at this
          exact this (by rw [hpk, hq0, hk0])
        · obtain ⟨c, d, hc, hd, hbefore⟩ := C.before_of_split hi hsplit hq
          rw [hpk] at hc
          rw [hq0] at hd
          exact hk.2 c d _ _ hk0 hc hd hbefore
      · rw [hrest _ (C.table.slotOf_lt 0) hz]
        exact C.front
    · intro i
      rw [vacate_heap]
      exact C.grants i
  · rcases C.absent h hk.1 with hno | hto
    · obtain ⟨rfl, rfl⟩ := Prod.mk.inj (hr.unique (removeInternal_of_none remove hno))
      exact ⟨C, .inl ⟨rfl, rfl, h⟩⟩
    · obtain ⟨n, hn⟩ := hr.exists
      rw [removeInternal, hto n] at hn
      cases hn

/-- The unoccupied entries of the bucket of 0 are the holes of its row. -/
theorem one_hole (C : Counted s tails back) (h : ∀ a b, VacantAt s a → VacantAt s b → a = b)
    {r₁ r₂ : Row UInt64 V} (hr : rowsOf s.mem.toHeap s.self.buckets tails
      (slotOf s.self s.self.nBuckets 0) = r₁ ++ none :: r₂) : none ∉ r₂ := by
  intro hn
  obtain ⟨xs, a, ys, hx, -, ha, rfl⟩ := rowOf_split hr
  obtain ⟨b, hb, hbv⟩ := List.mem_map.mp hn
  have hnd := C.table.chain_nodup (C.table.slotOf_lt 0)
  rw [hx] at hnd
  obtain rfl := h a b (C.vacantAt_of_mem (by rw [hx]; simp) ha)
    (C.vacantAt_of_mem (by rw [hx]; simp [hb]) hbv)
  exact (List.nodup_cons.mp (List.nodup_append.mp hnd).2.1).1 hb

theorem put_keep (C : Counted s tails back) {value : V} {ok : Bool}
    (hk : KeepsZero s (.put key value)) (hno : s.self.maybeResize = false)
    (hr : Returns (fun f => NcHashmap.put f s key value) (ok, s')) :
    ∃ tails' back', Counted s' tails' back' := by
  by_cases hb : back (slotOf s.self s.self.nBuckets key) = none ∨
      has s.self.compare (rowsOf s.mem.toHeap s.self.buckets tails
        (slotOf s.self s.self.nBuckets key)) key = true
  · obtain ⟨t, tails', back', hret, S, I⟩ :=
      put_keeps C.lawful C.table trivial value hno hb (C.grants _)
    obtain ⟨rfl, rfl⟩ := Prod.mk.inj (hr.unique hret)
    have hslot : slotOf s'.self s'.self.nBuckets 0 = slotOf s.self s.self.nBuckets 0 := by
      rw [slotOf, slotOf, S.hash, S.nBuckets, hno]
      rfl
    refine ⟨tails', back', S.table, (S.size C.size).1, ?_, S.hash.trans C.hash,
      S.compare.trans C.compare, fun i => by rw [S.grants]; exact C.grants i⟩
    rw [hslot, S.compare, S.buckets hno]
    by_cases hz : slotOf s.self s.self.nBuckets 0 = slotOf s.self s.self.nBuckets key
    · have hfront := C.front
      rw [hz] at hfront ⊢
      rw [I.row]
      refine hfront.put C.lawful.per (fun _ _ => trivial) trivial trivial value fun hc => ?_
      obtain rfl := C.compare_iff.mp hc
      rcases hk rfl with h | h | h
      · rw [hno] at h
        cases h
      · exact .inl (C.has_iff.mpr h)
      · exact .inr fun r₁ r₂ hsplit => C.one_hole h hsplit
    · rw [I.rest _ (C.table.slotOf_lt 0) hz]
      exact C.front
  · obtain ⟨hback, hh⟩ := not_or.mp hb
    obtain ⟨f, hf⟩ := hr.exists
    rw [NcHashmap.put_keep hno, storeIn, insertBucket_closed C.table.toShape hback
      (Bool.eq_false_iff.mpr hh)] at hf
    cases hf

theorem put_resize (C : Counted s tails back) {value : V} {ok : Bool}
    (hyes : s.self.maybeResize = true)
    (hr : Returns (fun f => NcHashmap.put f s key value) (ok, s')) :
    ∃ tails' back', Counted s' tails' back' := by
  by_cases hall : ∀ i < s.self.nBuckets, back i = none
  · have T : Table s.self (fun _ => True) s.mem.toHeap s.self.buckets s.self.nBuckets tails
        fun _ => none :=
      ⟨C.table.toShape.back_congr fun i hi => (hall i hi).symm, C.table.rows⟩
    by_cases hint : s.self.nBuckets * increaseFactor ≤ intMax
    · obtain ⟨t, tails', hret, S, hdense⟩ :=
        put_rebuilds C.lawful T trivial value hyes hint C.grants
      obtain ⟨rfl, rfl⟩ := Prod.mk.inj (hr.unique hret)
      refine ⟨tails', _, S.table, (S.size C.size).1, ?_, S.hash.trans C.hash,
        S.compare.trans C.compare, fun i => by rw [S.grants]; exact C.grants i⟩
      exact (hdense _ (S.table.slotOf_lt 0)).unhidden 0
    · obtain ⟨f, hf⟩ := hr.exists
      rw [put_overflow hyes (Nat.lt_of_not_le hint)] at hf
      cases hf
  · -- the resize fails and leaves the table alone
    simp only [not_forall] at hall
    obtain ⟨i, hi, hb⟩ := hall
    obtain ⟨f, hf⟩ := hr.exists
    obtain ⟨-, hkept⟩ := put_looped C.table.toShape hi hb hyes hf
    obtain ⟨T', hrow⟩ := C.table.kept hkept
    have hself := hkept.self
    refine ⟨tails, back, T', ?_, ?_, by rw [hself]; exact C.hash, by rw [hself]; exact C.compare,
      fun i => by rw [hkept.grants]; exact C.grants i⟩
    · rw [hself] at hrow ⊢
      rw [contents_congr hrow]
      exact C.size
    · rw [hself] at hrow ⊢
      rw [hrow _ (C.table.slotOf_lt 0)]
      exact C.front

theorem call (C : Counted s tails back) {op : Op UInt64 V} (hk : KeepsZero s op)
    (hr : Returns (fun f => Nica.call f s op) s') : ∃ tails' back', Counted s' tails' back' := by
  cases op with
  | put key value =>
      obtain ⟨ok, hret⟩ := returns_of_call (put_steady s key value) hr
      cases h : s.self.maybeResize with
      | false => exact C.put_keep hk h hret
      | true => exact C.put_resize h hret
  | remove key =>
      obtain ⟨ok, hret⟩ := returns_of_call (removeInternal_steady s key true) hr
      exact ⟨tails, back, (C.removal hk hret).1⟩
  | steal key =>
      obtain ⟨ok, hret⟩ := returns_of_call (removeInternal_steady s key false) hr
      exact ⟨tails, back, (C.removal hk hret).1⟩
  | get key =>
      obtain rfl := eq_of_call_get hr
      exact ⟨tails, back, C⟩

end Counted

/-- A new map with the default functions. -/
theorem newFull_counted {m : Mem UInt64 V} (hg : ∀ i, m.grants i = true) {keyFree valueFree : Bool}
    {s : State UInt64 V} (h : newFull m ncSimpleHash ncSimpleCompare keyFree valueFree = some s) :
    Counted s (fun _ => []) fun _ => none := by
  obtain ⟨T, hrow, hself, hgrants⟩ := newInternal_table h fun _ => True
  refine ⟨T, ?_, ?_, by rw [hself], by rw [hself], fun i => by rw [hgrants]; exact hg i⟩
  · rw [contents_holes hrow, hself]
    rfl
  · exact Dense.unhidden (.inl (hrow _ (T.slotOf_lt 0))) 0

/-- In every run whose calls keep 0 in sight, `nc_hashmap_size` counts the occupied entries, a
removal that returns `true` empties an entry of its key and no other, a lookup never takes an
unoccupied entry for its key, and every stored pair is found by its key. -/
theorem zero_key {m : Mem UInt64 V} (hg : ∀ i, m.grants i = true) {keyFree valueFree : Bool}
    {s₀ : State UInt64 V}
    (hnew : newFull m ncSimpleHash ncSimpleCompare keyFree valueFree = some s₀)
    {ops : List (Op UInt64 V)} {s : State UInt64 V} (hrun : Run KeepsZero s₀ ops s) :
    (∃ nodes : List Loc, nodes.Nodup ∧ (∀ a, a ∈ nodes ↔ ∃ k v, OccupiedAt s a k v) ∧
      ncHashmapSize s = nodes.length) ∧
    (∀ key remove s', Removable s key →
      Returns (fun f => removeInternal f s key remove) (true, s') →
      ∃ a v, OccupiedAt s a key v ∧
        ∀ b k w, OccupiedAt s' b k w ↔ b ≠ a ∧ OccupiedAt s b k w) ∧
    (∀ key a, Findable s key → Returns (fun f => getEntry f s key) (some a) →
      ∃ v, OccupiedAt s a key v) ∧
    ∀ key v, Holds s key v → Returns (fun f => get f s key) v := by
  obtain ⟨tails, back, C⟩ : ∃ tails back, Counted s tails back :=
    hrun.invariant (I := fun s => ∃ tails back, Counted s tails back)
      ⟨_, _, newFull_counted hg hnew⟩ fun s op s' ⟨tails, back, C⟩ hk hr => C.call hk hr
  refine ⟨?_, fun key remove s' hk hr => ?_, fun key a hf hr => C.getEntry_occupied hf hr,
    fun key v h => C.get_stored h⟩
  · obtain ⟨nodes, hnd, hmem, hlen⟩ := C.table.toShape.occupied_entries
    exact ⟨nodes, hnd, hmem, by rw [hlen]; exact C.size⟩
  · rcases (C.removal hk hr).2 with ⟨hok, -⟩ | ⟨-, h⟩
    · cases hok
    · exact h

/-- Removing the key 0 from a new map returns `true` and leaves the size −1. -/
theorem zero_key_removed : ∃ s₀ s : State UInt64 UInt64,
    newFull (Mem.granting UInt64 UInt64) ncSimpleHash ncSimpleCompare false false = some s₀ ∧
    Returns (fun f => remove f s₀ 0) (true, s) ∧ (∀ k v, ¬ Holds s₀ k v) ∧
    Run (fun _ _ => True) s₀ [.remove 0] s ∧ ncHashmapSize s = -1 := by
  obtain ⟨s₀, h₀⟩ := newInternal_granted (m := Mem.granting UInt64 UInt64)
    (fun _ => rfl) ncSimpleHash ncSimpleCompare false false
  obtain ⟨T, hrow, hself, -⟩ := newInternal_table h₀ fun _ => True
  have hempty : ∀ k v, ¬ Holds s₀ k v := fun k v => by
    rw [T.holds_iff, contents_holes hrow]
    exact List.not_mem_nil
  obtain ⟨e, he⟩ := T.cell (T.slotOf_lt 0) (mem_chainOf.mpr (.inl rfl))
  have hv : viewAt s₀.mem.toHeap (.slot s₀.self.buckets (slotOf s₀.self s₀.self.nBuckets 0)) =
      none := List.head_eq_of_cons_eq (hrow _ (T.slotOf_lt 0))
  have hnull := (T.blank _ (T.slotOf_lt 0) _ (mem_chainOf.mpr (.inl rfl)) e he
    (viewAt_eq_none he hv)).1
  -- the slot of bucket 0 is not occupied, but its key field is 0
  have hget : Returns (fun f => getEntry f s₀ 0)
      (some (.slot s₀.self.buckets (slotOf s₀.self s₀.self.nBuckets 0))) :=
    entryScan_found (show Path _ _ _ ([] ++ _ :: []) _ from T.path _ (T.slotOf_lt 0)) (by simp) he
      (by rw [hself, hnull]; rfl)
  have hremove := removeInternal_of_getEntry true hget he
  refine ⟨s₀, _, h₀, hremove, hempty, Run.init.call trivial (hremove.bind (Returns.pure _)), ?_⟩
  change s₀.self.size - 1 = -1
  rw [hself]
  rfl

/-! ### A run with the key 0 -/

section test
variable {s : State UInt64 V} {tails : ℕ → List ℕ} {back : ℕ → Option Loc} {key : UInt64}

/-- The row of bucket 0, if its chain ends within five entries. -/
def zeroRow (s : State UInt64 V) : Option (Row UInt64 V) :=
  rowFrom s 5 (some (.slot s.self.buckets (slotOf s.self s.self.nBuckets 0)))

/-- The places before the one with the key 0. -/
def beforeZero (r : Row UInt64 V) : Row UInt64 V := r.takeWhile fun x => x.all fun p => p.1 != 0

/-- A 0 is stored, and the key does not stand before it. -/
def seesZero (s : State UInt64 V) (key : UInt64) : Bool :=
  (zeroRow s).any fun r => has s.self.compare r 0 && !has s.self.compare (beforeZero r) key

/-- A condition that is enough for `KeepsZero`, as a test. -/
def keepsZero (s : State UInt64 V) : Op UInt64 V → Bool
  | .put key _ => key != 0 || (zeroRow s).any fun r => has s.self.compare r 0 || r.length == 1
  | .remove key => seesZero s key
  | .steal key => seesZero s key
  | .get _ => true

omit [Null V] in
theorem occupiedAt_of_path {i : ℕ} (hi : i < s.self.nBuckets) {xs : List Loc} {q : Option Loc}
    (hp : Path NcHashmapEntry.next s.mem.cells (some (.slot s.self.buckets i)) xs q) {a : Loc}
    (ha : a ∈ xs) {p : UInt64 × V} (hv : viewAt s.mem.toHeap a = some p) :
    OccupiedAt s a p.1 p.2 :=
  ⟨⟨i, hi, hp.reaches ha⟩, viewAt_eq_some.mp hv⟩

theorem holds_zero_of_row (C : Counted s tails back) {xs : List Loc} {q : Option Loc}
    (hp : Path NcHashmapEntry.next s.mem.cells
      (some (.slot s.self.buckets (slotOf s.self s.self.nBuckets 0))) xs q)
    (h : has s.self.compare (rowOf s.mem.toHeap xs) 0 = true) : ∃ v, Holds s 0 v := by
  obtain ⟨p, hmem, hc⟩ := Rows.has_iff.mp h
  obtain ⟨a, ha, hv⟩ := List.mem_map.mp (mem_pairs.mp hmem)
  have hocc := occupiedAt_of_path (C.table.slotOf_lt 0) hp ha hv
  rw [C.compare_iff.mp hc] at hocc
  exact ⟨p.2, a, hocc⟩

theorem removable_of_test (C : Counted s tails back) (h : seesZero s key = true) :
    Removable s key := by
  obtain ⟨r, hr, h⟩ := (Option.any_eq_true _ _).mp h
  obtain ⟨hzero, hkey⟩ := (Bool.and_eq_true _ _).mp h
  obtain ⟨xs, hp, rfl⟩ := rowFrom_path hr
  refine ⟨fun _ => .inl (holds_zero_of_row C hp hzero), fun a b v w hne ha hb hbefore => ?_⟩
  obtain ⟨i, hi, ys, q, hnd, hay, hq⟩ := hbefore
  have view : ∀ {c k u}, OccupiedAt s c k u → viewAt s.mem.toHeap c = some (k, u) :=
    fun h => viewAt_eq_some.mpr h.2
  -- the chain that `b` is on is that of bucket 0
  obtain rfl : slotOf s.self s.self.nBuckets 0 = i := by
    have hmem : b ∈ chainOf s.self.buckets tails i :=
      (C.table.reaches_iff hi).mp (hq.reaches (by simp))
    exact C.table.rows.placed i hi (0, w) (Shape.mem_rows.mpr ⟨b, hmem, hb.2⟩)
  obtain ⟨zs, hz⟩ := hq.isPrefix hp
  have hys : ∀ x ∈ rowOf s.mem.toHeap ys, (x.all fun p => p.1 != 0) = true := by
    intro x hx
    obtain ⟨c, hc, rfl⟩ := List.mem_map.mp hx
    cases hv : viewAt s.mem.toHeap c with
    | none => rfl
    | some p =>
        refine bne_iff_ne.mpr fun hp0 => ?_
        -- only `b` holds 0, and it does not come twice
        have hocc := occupiedAt_of_path hi hq (List.mem_append_left _ hc) hv
        obtain rfl := C.table.noTwins C.lawful c b p.1 0 p.2 w hocc hb (C.compare_iff.mpr hp0)
        exact (List.nodup_append.mp hnd).2.2 c hc c (by simp) rfl
  have hmem : some (key, v) ∈ beforeZero (rowOf s.mem.toHeap xs) := by
    rw [← hz, List.append_assoc, rowOf_append, beforeZero, List.takeWhile_append_of_pos hys]
    exact List.mem_append_left _ (List.mem_map.mpr ⟨a, hay, view ha⟩)
  have hhas := Rows.has_iff.mpr ⟨(key, v), mem_pairs.mpr hmem, C.compare_iff.mpr rfl⟩
  rw [hhas] at hkey
  cases hkey

theorem keepsZero_of_test (C : Counted s tails back) {op : Op UInt64 V}
    (h : keepsZero s op = true) : KeepsZero s op := by
  cases op with
  | put key value =>
      intro hk
      have h := ((Bool.or_eq_true _ _).mp h).resolve_left (by simp [hk])
      obtain ⟨r, hr, h⟩ := (Option.any_eq_true _ _).mp h
      obtain ⟨xs, hp, rfl⟩ := rowFrom_path hr
      rcases (Bool.or_eq_true _ _).mp h with h | h
      · exact .inr (.inl (holds_zero_of_row C hp h))
      · -- the chain is a single entry
        rw [beq_iff_eq, rowOf, List.length_map, List.length_eq_one_iff] at h
        obtain ⟨c, rfl⟩ := h
        have hone : ∀ a, VacantAt s a → a = c := fun a ha =>
          List.mem_singleton.mp ((hp.reaches_iff (by simp)).mp ha.1)
        exact .inr (.inr fun a b ha hb => (hone a ha).trans (hone b hb).symm)
  | remove key => exact removable_of_test C h
  | steal key => exact removable_of_test C h
  | get key => trivial

end test

/-- The key 0 is put in a bucket that has the key 61; 122 joins them, is removed and comes again; 0
is replaced, also after the table was resized, and removed in the end. -/
def withZero : List (Op UInt64 UInt64) :=
  [.put 0 7, .put 61 8, .put 122 9, .remove 122, .put 122 10, .put 0 11] ++
    ((List.range 40).map fun i => .put (UInt64.ofNat (i + 1)) 7) ++ [.steal 40, .put 0 12]

def zeroed : Except Fault (State UInt64 UInt64) :=
  match newFull (Mem.granting UInt64 UInt64) ncSimpleHash ncSimpleCompare false false with
  | none => .error .dangling
  | some s => performIf keepsZero 6 s withZero

theorem zero_key_found : ∃ s₀ s : State UInt64 UInt64, Run KeepsZero s₀ withZero s ∧
    s.self.nBuckets = 244 ∧ Holds s 0 12 ∧ Returns (fun f => get f s 0) 12 := by
  have hseen : zeroed.toOption.map (fun s => (s.self.nBuckets, bucketRow s 0)) =
      some (244, some [some (0, 12)]) := by
    decide +kernel
  obtain ⟨s, hs, hsee⟩ := Option.map_eq_some_iff.mp hseen
  obtain ⟨hn, hrow⟩ := Prod.mk.inj hsee
  obtain ⟨s₀, h₀⟩ := newInternal_granted (m := Mem.granting UInt64 UInt64)
    (fun _ => rfl) ncSimpleHash ncSimpleCompare false false
  have hperform : performIf keepsZero 6 s₀ withZero = .ok s := by
    have hzeroed := ok_of_toOption hs
    unfold zeroed newFull at hzeroed
    rwa [h₀] at hzeroed
  have hrun := Run.init.performIf (I := fun s => ∃ tails back, Counted s tails back)
    (fun s op ⟨tails, back, C⟩ => keepsZero_of_test C)
    (fun s op s' ⟨tails, back, C⟩ hk hr => C.call hk hr)
    ⟨_, _, newFull_counted (fun _ => rfl) h₀⟩ hperform
  obtain ⟨-, -, -, hget⟩ := zero_key (fun _ => rfl) h₀ hrun
  obtain ⟨xs, hp, hxs⟩ := rowFrom_path hrow
  obtain ⟨a, rfl, hv⟩ := List.map_eq_singleton_iff.mp hxs
  have hzero : Holds s 0 12 :=
    ⟨a, occupiedAt_of_path (by rw [hn]; decide) hp (by simp) hv⟩
  exact ⟨s₀, s, hrun, hn, hzero, hget 0 12 hzero⟩

end Nica
