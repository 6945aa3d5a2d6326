import Nica.HashmapResize
import Nica.HashmapLookup

/-! # The map operations on well-formed maps

A put on a table of NULL-terminated chains resizes it first if `size` has reached `next_size`, and
then stores the pair in its bucket (`put_keeps`, `put_rebuilds`).  What it leaves is again a table of
the pairs with the new one stored (`Stored`); its chains are NULL-terminated again unless the insertion
relinked a hole (`put_spec`).  Removal and lookup follow the finite map `Holds` (`remove_spec`,
`get_spec`). -/

namespace Nica

open Blocks Linked Rows Fueled

variable {K V : Type}

theorem Lawful.slot {D : K → Prop} {map : NcHashmap K V} (L : Lawful D map.hash map.compare)
    (n : ℕ) : ∀ a b, D a → D b → map.compare a b = true → slotOf map n a = slotOf map n b := by
  intro a b ha hb h
  rw [slotOf, slotOf, L.hash a b ha hb h]

/-- In a row without equal keys a pair stands at one place only. -/
theorem eq_of_viewAt {D : K → Prop} {compare : K → K → Bool} (he : PerOn D compare)
    {h : Heap (NcHashmapEntry K V)} {xs : List Loc} (hu : Uniq compare (pairs (rowOf h xs)))
    (hD : ∀ p ∈ pairs (rowOf h xs), D p.1) {a b : Loc} {p q : K × V} (ha : a ∈ xs) (hb : b ∈ xs)
    (hp : viewAt h a = some p) (hq : viewAt h b = some q) (hpq : compare p.1 q.1 = true) :
    a = b := by
  induction xs with
  | nil => cases ha
  | cons c xs ih =>
      have hmem : ∀ {d : Loc} {r : K × V}, d ∈ xs → viewAt h d = some r →
          r ∈ pairs (rowOf h xs) := fun hd hr =>
        mem_pairs.mpr (List.mem_map.mpr ⟨_, hd, hr⟩)
      have hsub : ∀ r ∈ pairs (rowOf h xs), r ∈ pairs (rowOf h (c :: xs)) := fun r hr =>
        mem_pairs.mpr (List.mem_cons_of_mem _ (mem_pairs.mp hr))
      have hfirst : ∀ r, viewAt h c = some r → r ∈ pairs (rowOf h (c :: xs)) ∧
          ∀ t ∈ pairs (rowOf h xs), compare r.1 t.1 = false := by
        intro r hr
        rw [rowOf_cons, hr, pairs_pair] at hu ⊢
        exact ⟨List.mem_cons_self, (List.pairwise_cons.mp hu).1⟩
      have hrest : Uniq compare (pairs (rowOf h xs)) := by
        rw [rowOf_cons] at hu
        cases hc : viewAt h c with
        | none => rwa [hc, pairs_hole] at hu
        | some r => rw [hc, pairs_pair] at hu; exact (List.pairwise_cons.mp hu).2
      rcases List.mem_cons.mp ha with rfl | hax <;> rcases List.mem_cons.mp hb with rfl | hbx
      · rfl
      · rw [(hfirst p hp).2 q (hmem hbx hq)] at hpq
        cases hpq
      · have hqp := he.symm _ _ (hD p (hsub p (hmem hax hp))) (hD q (hfirst q hq).1) hpq
        rw [(hfirst q hq).2 p (hmem hax hp)] at hqp
        cases hqp
      · exact ih hrest (fun r hr => hD r (hsub r hr)) hax hbx

variable [Null K] [Null V]

/-- No two reachable entries of the map hold equal keys. -/
def NoTwins (s : State K V) : Prop :=
  ∀ a b k k' v v', OccupiedAt s a k v → OccupiedAt s b k' v' → s.self.compare k k' = true → a = b

theorem WellFormedOn.table {D : K → Prop} {s : State K V} (wf : WellFormedOn D s) :
    ∃ tails, Table s.self D s.mem.toHeap s.self.buckets s.self.nBuckets tails (fun _ => none) ∧
      Uniq s.self.compare (contents (rowsOf s.mem.toHeap s.self.buckets tails) s.self.nBuckets) ∧
      s.self.size =
        (contents (rowsOf s.mem.toHeap s.self.buckets tails) s.self.nBuckets).length := by
  obtain ⟨⟨tails, hS, hplaced, hu, hn⟩, hkeys⟩ := wf
  refine ⟨tails, ⟨hS, fun i hi p hp => ?_, hplaced, fun i hi => ?_⟩, hu, hn⟩
  · exact hkeys p.1 p.2 (hS.holds_iff.mpr (mem_contents.mpr ⟨i, hi, hp⟩))
  · obtain ⟨l₁, l₂, h⟩ := contents_split hi (rowsOf s.mem.toHeap s.self.buckets tails)
    rw [h _ fun _ _ _ => rfl] at hu
    exact (List.pairwise_append.mp (List.pairwise_append.mp hu).2.1).1

namespace Table

variable {D : K → Prop} {s : State K V} {tails : ℕ → List ℕ} {back : ℕ → Option Loc}

theorem wellFormed (L : Lawful D s.self.hash s.self.compare)
    (T : Table s.self D s.mem.toHeap s.self.buckets s.self.nBuckets tails fun _ => none)
    (hn : s.self.size =
      (contents (rowsOf s.mem.toHeap s.self.buckets tails) s.self.nBuckets).length) :
    WellFormedOn D s :=
  ⟨⟨tails, T.toShape, T.rows.placed, T.rows.uniq_contents (L.slot _), hn⟩,
    fun k v h => T.rows.keys_contents (k, v) (T.holds_iff.mp h)⟩

theorem noTwins (L : Lawful D s.self.hash s.self.compare)
    (T : Table s.self D s.mem.toHeap s.self.buckets s.self.nBuckets tails back) : NoTwins s := by
  intro a b k k' v v' ha hb hkk
  obtain ⟨⟨i, hi, hai⟩, hea⟩ := T.occupiedAt_iff.mp ha
  obtain ⟨⟨j, hj, hbj⟩, heb⟩ := T.occupiedAt_iff.mp hb
  have hka : (k, v) ∈ pairs (rowsOf s.mem.toHeap s.self.buckets tails i) :=
    Shape.mem_rows.mpr ⟨a, hai, hea⟩
  have hkb : (k', v') ∈ pairs (rowsOf s.mem.toHeap s.self.buckets tails j) :=
    Shape.mem_rows.mpr ⟨b, hbj, heb⟩
  -- equal keys stand in the same chain
  obtain rfl : i = j := by
    rw [← T.rows.placed i hi _ hka, ← T.rows.placed j hj _ hkb]
    exact L.slot _ _ _ (T.rows.keys i hi _ hka) (T.rows.keys j hj _ hkb) hkk
  exact eq_of_viewAt (p := (k, v)) (q := (k', v')) L.per (T.rows.uniq i hi) (T.rows.keys i hi) hai
    hbj (viewAt_eq_some.mpr hea) (viewAt_eq_some.mpr heb) hkk

/-- The presence of a key in its row is its presence in the map. -/
theorem has_iff_holds (L : Lawful D s.self.hash s.self.compare)
    (T : Table s.self D s.mem.toHeap s.self.buckets s.self.nBuckets tails back) {key : K}
    (hk : D key) :
    has s.self.compare (rowsOf s.mem.toHeap s.self.buckets tails
      (slotOf s.self s.self.nBuckets key)) key = true ↔
      ∃ k v, Holds s k v ∧ s.self.compare k key = true := by
  rw [T.rows.has_iff (L.slot _) hk (Nat.mod_lt _ T.pos)]
  simp only [Prod.exists, T.holds_iff]

/-- An insertion into a bucket whose chain reaches NULL, or which has the key.  An allocation is made
only when the bucket has no hole and not the key. -/
theorem insert (L : Lawful D s.self.hash s.self.compare)
    (T : Table s.self D s.mem.toHeap s.self.buckets s.self.nBuckets tails back) {key : K}
    (hk : D key) (value : V)
    (hb : back (slotOf s.self s.self.nBuckets key) = none ∨
      has s.self.compare (rowsOf s.mem.toHeap s.self.buckets tails
        (slotOf s.self s.self.nBuckets key)) key = true)
    (hg : none ∈ rowsOf s.mem.toHeap s.self.buckets tails (slotOf s.self s.self.nBuckets key) ∨
      has s.self.compare (rowsOf s.mem.toHeap s.self.buckets tails
        (slotOf s.self s.self.nBuckets key)) key = true ∨ s.mem.grants s.mem.tick = true) :
    ∃ m' tails' back',
      Returns (fun f => NcHashmap.insertBucket s.self f s.mem s.self.buckets s.self.nBuckets
        (s.self.hash key) key value)
        (if has s.self.compare (rowsOf s.mem.toHeap s.self.buckets tails
          (slotOf s.self s.self.nBuckets key)) key then 0 else 1, m') ∧
      NcHashmap.Inserted s.self s.mem m' s.self.buckets s.self.nBuckets tails back
        (slotOf s.self s.self.nBuckets key) key value tails' back' ∧
      Table s.self D m'.toHeap s.self.buckets s.self.nBuckets tails' back' := by
  have hi : slotOf s.self s.self.nBuckets key < s.self.nBuckets := Nat.mod_lt _ T.pos
  suffices ∃ m' tails' back',
      Returns (fun f => NcHashmap.insertBucket s.self f s.mem s.self.buckets s.self.nBuckets
        (s.self.hash key) key value)
        (if has s.self.compare (rowsOf s.mem.toHeap s.self.buckets tails
          (slotOf s.self s.self.nBuckets key)) key then 0 else 1, m') ∧
      NcHashmap.Inserted s.self s.mem m' s.self.buckets s.self.nBuckets tails back
        (slotOf s.self s.self.nBuckets key) key value tails' back' by
    obtain ⟨m', tails', back', hr, I⟩ := this
    exact ⟨m', tails', back', hr, I, I.shape, T.rows.put L.per hk hi I.rest I.row⟩
  cases hh : has s.self.compare (rowsOf s.mem.toHeap s.self.buckets tails
      (slotOf s.self s.self.nBuckets key)) key with
  | true =>
      obtain ⟨m', hr, I, -⟩ := NcHashmap.insertBucket_replace value T.toShape hh
      exact ⟨m', tails, back, hr, I⟩
  | false =>
      have hnone := hb.resolve_right (by simp [hh])
      by_cases hn : none ∈ rowsOf s.mem.toHeap s.self.buckets tails
          (slotOf s.self s.self.nBuckets key)
      · obtain ⟨m', back', hr, I, -⟩ := NcHashmap.insertBucket_fill value T.toShape hnone hh hn
        exact ⟨m', tails, back', hr, I⟩
      · obtain ⟨m', tails', back', hr, I, -⟩ :=
          NcHashmap.insertBucket_append value T.toShape hnone hh hn
            ((hg.resolve_left hn).resolve_left (by simp [hh]))
        exact ⟨m', tails', back', hr, I⟩

end Table

/-- `s'` is `s` after a put of `key`, `value` that returned `true`. -/
structure Stored (D : K → Prop) (s s' : State K V) (key : K) (value : V)
    (tails tails' : ℕ → List ℕ) (back' : ℕ → Option Loc) : Prop where
  table : Table s'.self D s'.mem.toHeap s'.self.buckets s'.self.nBuckets tails' back'
  mem : ∀ q, q ∈ contents (rowsOf s'.mem.toHeap s'.self.buckets tails') s'.self.nBuckets ↔
    q = (key, value) ∨
      (q ∈ contents (rowsOf s.mem.toHeap s.self.buckets tails) s.self.nBuckets ∧
        s.self.compare q.1 key = false)
  size : s.self.size =
      (contents (rowsOf s.mem.toHeap s.self.buckets tails) s.self.nBuckets).length →
    s'.self.size =
      (contents (rowsOf s'.mem.toHeap s'.self.buckets tails') s'.self.nBuckets).length ∧
    s'.self.size ≤ s.self.size + 1
  hash : s'.self.hash = s.self.hash
  compare : s'.self.compare = s.self.compare
  nBuckets : s'.self.nBuckets =
    if s.self.maybeResize then s.self.nBuckets * increaseFactor else s.self.nBuckets
  buckets : s.self.maybeResize = false → s'.self.buckets = s.self.buckets
  nextSize : s'.self.nextSize =
    if s.self.maybeResize then (fullSize (s.self.nBuckets * increaseFactor) : ℤ)
    else s.self.nextSize
  grants : s'.mem.grants = s.mem.grants

/-- `s'` holds the pair `key`, `value` and the pairs of `s` with other keys. -/
structure Added (s s' : State K V) (key : K) (value : V) : Prop where
  holds : ∀ k v, Holds s' k v ↔
    (k = key ∧ v = value) ∨ (Holds s k v ∧ s.self.compare k key = false)
  hash : s'.self.hash = s.self.hash
  compare : s'.self.compare = s.self.compare
  grants : s'.mem.grants = s.mem.grants

namespace Stored

variable {D : K → Prop} {s s' : State K V} {key : K} {value : V} {tails tails' : ℕ → List ℕ}
  {back' : ℕ → Option Loc}

theorem added {back : ℕ → Option Loc} (S : Stored D s s' key value tails tails' back')
    (T : Table s.self D s.mem.toHeap s.self.buckets s.self.nBuckets tails back) :
    Added s s' key value where
  holds k v := by rw [S.table.holds_iff, T.holds_iff, S.mem, Prod.mk.injEq]
  hash := S.hash
  compare := S.compare
  grants := S.grants

theorem lawful (S : Stored D s s' key value tails tails' back')
    (L : Lawful D s.self.hash s.self.compare) : Lawful D s'.self.hash s'.self.compare := by
  rw [S.hash, S.compare]
  exact L

/-- The table when no chain runs into itself. -/
theorem table_closed (S : Stored D s s' key value tails tails' back')
    (hback : ∀ j < s'.self.nBuckets, back' j = none) :
    Table s'.self D s'.mem.toHeap s'.self.buckets s'.self.nBuckets tails' fun _ => none :=
  ⟨S.table.toShape.back_congr fun j hj => (hback j hj).symm, S.table.rows⟩

end Stored

namespace NcHashmap

/-- `nc_hashmap_put` after the resize. -/
def storeIn (fuel : ℕ) (s : State K V) (key : K) (value : V) :
    Except Fault (Bool × State K V) := do
  let (inc, m) ← insertBucket s.self fuel s.mem s.self.buckets s.self.nBuckets
    (s.self.hash key) key value
  if inc ≥ 0 then .ok (true, ⟨{ s.self with size := s.self.size + inc }, m⟩)
  else .ok (false, { s with mem := m })

theorem put_keep {s : State K V} (hr : s.self.maybeResize = false) (f : ℕ) (key : K) (value : V) :
    put f s key value = storeIn f s key value := by
  simp only [put, hr, Bool.false_eq_true, if_false]
  rfl

theorem put_resize {s s₁ : State K V} (hr : s.self.maybeResize = true) {ok : Bool}
    (h : Returns (fun f => resize f s) (ok, s₁)) {key : K} {value : V} {r : Bool × State K V}
    (hs : Returns (fun f => if ok then storeIn f s₁ key value else .ok (false, s₁)) r) :
    Returns (fun f => put f s key value) r := by
  filter_upwards [h, hs] with f h₁ h₂
  simp only [put, hr, if_true, h₁]
  exact h₂

theorem put_overflow {s : State K V} (hr : s.self.maybeResize = true)
    (hint : intMax < s.self.nBuckets * increaseFactor) (key : K) (value : V) (f : ℕ) :
    put f s key value = .error .overflow := by
  simp only [put, hr, if_true, resize_overflow hint]
  rfl

/-- What `storeIn` makes of a table. -/
structure StoredIn (D : K → Prop) (s s' : State K V) (key : K) (value : V)
    (tails : ℕ → List ℕ) (back : ℕ → Option Loc) (tails' : ℕ → List ℕ) (back' : ℕ → Option Loc) :
    Prop where
  self : s'.self = { s.self with size := s'.self.size }
  table : Table s'.self D s'.mem.toHeap s'.self.buckets s'.self.nBuckets tails' back'
  mem : ∀ q, q ∈ contents (rowsOf s'.mem.toHeap s'.self.buckets tails') s'.self.nBuckets ↔
    q = (key, value) ∨
      (q ∈ contents (rowsOf s.mem.toHeap s.self.buckets tails) s.self.nBuckets ∧
        s.self.compare q.1 key = false)
  size : s.self.size =
      (contents (rowsOf s.mem.toHeap s.self.buckets tails) s.self.nBuckets).length →
    s'.self.size =
      (contents (rowsOf s'.mem.toHeap s'.self.buckets tails') s'.self.nBuckets).length
  grows : s'.self.size ≤ s.self.size + 1
  inserted : Inserted s.self s.mem s'.mem s.self.buckets s.self.nBuckets tails back
    (slotOf s.self s.self.nBuckets key) key value tails' back'

theorem storeIn_stores {D : K → Prop} {s : State K V} {tails : ℕ → List ℕ} {back : ℕ → Option Loc}
    (L : Lawful D s.self.hash s.self.compare)
    (T : Table s.self D s.mem.toHeap s.self.buckets s.self.nBuckets tails back) {key : K}
    (hk : D key) (value : V)
    (hb : back (slotOf s.self s.self.nBuckets key) = none ∨
      has s.self.compare (rowsOf s.mem.toHeap s.self.buckets tails
        (slotOf s.self s.self.nBuckets key)) key = true)
    (hg : none ∈ rowsOf s.mem.toHeap s.self.buckets tails (slotOf s.self s.self.nBuckets key) ∨
      has s.self.compare (rowsOf s.mem.toHeap s.self.buckets tails
        (slotOf s.self s.self.nBuckets key)) key = true ∨ s.mem.grants s.mem.tick = true) :
    ∃ s' tails' back', Returns (fun f => storeIn f s key value) (true, s') ∧
      StoredIn D s s' key value tails back tails' back' := by
  obtain ⟨m', tails', back', hr, I, T'⟩ := T.insert L hk value hb hg
  have hi : slotOf s.self s.self.nBuckets key < s.self.nBuckets := Nat.mod_lt _ T.pos
  let inc : ℤ := if has s.self.compare (rowsOf s.mem.toHeap s.self.buckets tails
    (slotOf s.self s.self.nBuckets key)) key then 0 else 1
  have hinc : inc ≥ 0 := by unfold inc; split_ifs <;> decide
  have hinc₁ : inc ≤ 1 := by unfold inc; split_ifs <;> decide
  refine ⟨⟨{ s.self with size := s.self.size + inc }, m'⟩, tails', back', hr.bind ?_,
    rfl, ⟨T'.toShape, T'.rows⟩, T.rows.mem_put L.per (L.slot _) hk hi I.rest I.row, fun hn => ?_,
    Int.add_le_add_left hinc₁ _, I⟩
  · exact (Returns.pure _).congr fun f => if_pos hinc
  · have := length_contents_put s.self.compare hi I.rest I.row
    unfold inc
    rw [this, hn]
    split_ifs <;> rfl

variable {D : K → Prop} {s : State K V} {tails : ℕ → List ℕ} {key : K}

/-- A put that does not resize. -/
theorem put_keeps {back : ℕ → Option Loc} (L : Lawful D s.self.hash s.self.compare)
    (T : Table s.self D s.mem.toHeap s.self.buckets s.self.nBuckets tails back) (hk : D key)
    (value : V) (hr : s.self.maybeResize = false)
    (hb : back (slotOf s.self s.self.nBuckets key) = none ∨
      has s.self.compare (rowsOf s.mem.toHeap s.self.buckets tails
        (slotOf s.self s.self.nBuckets key)) key = true)
    (hg : s.mem.grants s.mem.tick = true) :
    ∃ s' tails' back', Returns (fun f => put f s key value) (true, s') ∧
      Stored D s s' key value tails tails' back' ∧
      Inserted s.self s.mem s'.mem s.self.buckets s.self.nBuckets tails back
        (slotOf s.self s.self.nBuckets key) key value tails' back' := by
  obtain ⟨s', tails', back', hret, S⟩ := storeIn_stores L T hk value hb (.inr (.inr hg))
  refine ⟨s', tails', back', hret.congr fun f => put_keep hr f key value, ?_, S.inserted⟩
  have hs := S.self
  exact
    { table := S.table
      mem := S.mem
      size := fun h => ⟨S.size h, S.grows⟩
      hash := by rw [hs]
      compare := by rw [hs]
      nBuckets := by rw [hs, hr]; rfl
      buckets := fun _ => by rw [hs]
      nextSize := by rw [hs, hr]; rfl
      grants := S.inserted.grants }

/-- A put that resizes: the new table is dense, so no hole is relinked. -/
theorem put_rebuilds (L : Lawful D s.self.hash s.self.compare)
    (T : Table s.self D s.mem.toHeap s.self.buckets s.self.nBuckets tails fun _ => none) (hk : D key)
    (value : V) (hr : s.self.maybeResize = true)
    (hint : s.self.nBuckets * increaseFactor ≤ intMax) (hg : ∀ i, s.mem.grants i = true) :
    ∃ s' tails', Returns (fun f => put f s key value) (true, s') ∧
      Stored D s s' key value tails tails' (fun _ => none) ∧
      ∀ i < s'.self.nBuckets, Dense (rowsOf s'.mem.toHeap s'.self.buckets tails' i) := by
  obtain ⟨s₁, tails₁, hres, R⟩ := resize_succeeds T.toShape T.rows.keys_contents
    (T.rows.uniq_contents (L.slot _)) hint hg
  have hself := R.self
  have L₁ : Lawful D s₁.self.hash s₁.self.compare := by rw [hself]; exact L
  obtain ⟨s', tails', back', hret, S⟩ := storeIn_stores L₁ R.table hk value (.inl rfl)
    (.inr (.inr (by rw [R.grants]; exact hg _)))
  have hs := S.self
  have hback : ∀ j < s₁.self.nBuckets, back' j = none :=
    S.inserted.acyclic (not_relinks (R.dense _ (Nat.mod_lt _ R.table.pos)) key)
  have hn : s'.self.nBuckets = s₁.self.nBuckets := by rw [hs]
  have hb : s'.self.buckets = s₁.self.buckets := by rw [hs]
  refine ⟨s', tails', put_resize hr hres hret, ?_, fun j hj => ?_⟩
  · exact
      { table := ⟨S.table.toShape.back_congr fun j hj => (hback j (hn ▸ hj)).symm, S.table.rows⟩
        mem := fun q => by rw [S.mem, R.pairs.mem_iff, hself]
        size := fun h => by
          refine ⟨S.size (by rw [R.pairs.length_eq, hself]), ?_⟩
          have := S.grows
          rwa [hself, ← h] at this
        hash := by rw [hs, hself]
        compare := by rw [hs, hself]
        nBuckets := by rw [hs, hself, hr]; rfl
        buckets := fun h => by rw [hr] at h; cases h
        nextSize := by rw [hs, hself, hr]; rfl
        grants := S.inserted.grants.trans R.grants }
  · rw [hb]
    rw [hn] at hj
    by_cases hji : j = slotOf s₁.self s₁.self.nBuckets key
    · rw [hji, S.inserted.row]
      exact .inr ((R.dense _ (Nat.mod_lt _ R.table.pos)).put _ _ _)
    · rw [S.inserted.rest j hj hji]
      exact R.dense j hj

/-! ### Lookup and removal -/

section lookup
variable (L : Lawful D s.self.hash s.self.compare)
  (T : Table s.self D s.mem.toHeap s.self.buckets s.self.nBuckets tails fun _ => none)
  (hk : D key) (hnull : s.self.compare null key = false)
include L T hk hnull

theorem getEntry_present (h : ∃ k v, Holds s k v ∧ s.self.compare k key = true) :
    ∃ a k v, OccupiedAt s a k v ∧ s.self.compare k key = true ∧
      Returns (fun f => getEntry f s key) (some a) := by
  obtain ⟨xs, a, ys, e, hx, -, he, ho, hc, hr⟩ :=
    T.getEntry_found (.inl hnull) ((T.has_iff_holds L hk).mpr h)
  exact ⟨a, e.hash, e.value, T.occupiedAt_split (T.slotOf_lt key) hx he ho, hc, hr⟩

theorem getEntry_absent (h : ∀ k v, Holds s k v → s.self.compare k key = false) :
    Returns (fun f => getEntry f s key) none := by
  refine T.getEntry_none (.inl hnull) ?_ rfl
  rw [← Bool.not_eq_true, T.has_iff_holds L hk]
  rintro ⟨k, v, hkv, hc⟩
  rw [h k v hkv] at hc
  cases hc

/-- A lookup gives the value that the map holds for the key. -/
theorem get_value {k : K} {v : V} (h : Holds s k v)
    (hc : s.self.compare k key = true) : Returns (fun f => get f s key) v := by
  obtain ⟨a, k', v', ha, hc', hr⟩ := getEntry_present L T hk hnull ⟨k, v, h, hc⟩
  obtain ⟨b, hb⟩ := h
  -- the entry found and the one that holds the pair have equal keys
  have hkk : s.self.compare k k' = true := by
    obtain ⟨i, hi, hi'⟩ := mem_contents.mp (T.holds_iff.mp ⟨a, ha⟩)
    obtain ⟨j, hj, hj'⟩ := mem_contents.mp (T.holds_iff.mp ⟨b, hb⟩)
    have hk₁ := T.rows.keys i hi _ hi'
    have hk₂ := T.rows.keys j hj _ hj'
    exact L.per.trans _ _ _ hk₂ hk hk₁ hc (L.per.symm _ _ hk₁ hk hc')
  obtain rfl := T.noTwins L b a k k' v v' hb ha hkk
  obtain ⟨-, e, he, -, -, rfl⟩ := hb
  exact get_of_getEntry hr he

/-- Removing a key that the map holds: the entry with the equal key becomes a hole. -/
theorem removeInternal_present (remove : Bool)
    (h : ∃ k v, Holds s k v ∧ s.self.compare k key = true) :
    ∃ a k v, OccupiedAt s a k v ∧ s.self.compare k key = true ∧
      Returns (fun f => removeInternal f s key remove) (true, vacate s a (k, v) remove) ∧
      Table s.self D (vacate s a (k, v) remove).mem.toHeap s.self.buckets s.self.nBuckets tails
        (fun _ => none) ∧
      rowsOf (vacate s a (k, v) remove).mem.toHeap s.self.buckets tails
          (slotOf s.self s.self.nBuckets key) =
        Rows.erase s.self.compare key (rowsOf s.mem.toHeap s.self.buckets tails
          (slotOf s.self s.self.nBuckets key)) ∧
      ∀ j < s.self.nBuckets, j ≠ slotOf s.self s.self.nBuckets key →
        rowsOf (vacate s a (k, v) remove).mem.toHeap s.self.buckets tails j =
          rowsOf s.mem.toHeap s.self.buckets tails j := by
  obtain ⟨xs, a, ys, e, hx, hxs, he, ho, hc, hr⟩ :=
    T.getEntry_found (.inl hnull) ((T.has_iff_holds L hk).mpr h)
  exact ⟨a, e.hash, e.value, T.occupiedAt_split (T.slotOf_lt key) hx he ho, hc,
    removeInternal_of_getEntry remove hr he, T.vacate hx hxs he ho hc remove⟩

/-- A removal deletes the key from the map. -/
theorem removeInternal_spec (remove : Bool) :
    ∃ ok s', Returns (fun f => removeInternal f s key remove) (ok, s') ∧
      Table s'.self D s'.mem.toHeap s'.self.buckets s'.self.nBuckets tails (fun _ => none) ∧
      (ok = true ↔ ∃ k v, Holds s k v ∧ s.self.compare k key = true) ∧
      (∀ k v, Holds s' k v ↔ Holds s k v ∧ s.self.compare k key = false) ∧
      (s.self.size =
          (contents (rowsOf s.mem.toHeap s.self.buckets tails) s.self.nBuckets).length →
        s'.self.size =
          (contents (rowsOf s'.mem.toHeap s'.self.buckets tails) s'.self.nBuckets).length) ∧
      ((ok = false ∧ s' = s) ∨ (ok = true ∧ ∃ a k v, OccupiedAt s a k v ∧
        s.self.compare k key = true ∧ s' = vacate s a (k, v) remove)) := by
  by_cases h : ∃ k v, Holds s k v ∧ s.self.compare k key = true
  · obtain ⟨a, k, v, ha, hc, hr, T', hrow, hrest⟩ := removeInternal_present L T hk hnull remove h
    have hi := T.slotOf_lt key
    refine ⟨true, _, hr, ⟨T'.toShape, T'.rows⟩, iff_of_true rfl h, fun k' v' => ?_,
      T.size_vacate ((T.has_iff_holds L hk).mpr h) hrow hrest,
      .inr ⟨rfl, a, k, v, ha, hc, rfl⟩⟩
    rw [Shape.holds_iff (s := vacate s a (k, v) remove) T'.toShape, T.holds_iff]
    exact T.rows.mem_erase L.per (L.slot _) hk hi hrest hrow (k', v')
  · have habs : ∀ k v, Holds s k v → s.self.compare k key = false := fun k v hkv => by
      rw [← Bool.not_eq_true]
      exact fun hc => h ⟨k, v, hkv, hc⟩
    refine ⟨false, s, removeInternal_of_none remove (getEntry_absent L T hk hnull habs), T,
      iff_of_false Bool.false_ne_true h, fun k v => ?_, id, .inl ⟨rfl, rfl⟩⟩
    exact ⟨fun hkv => ⟨hkv, habs k v hkv⟩, fun hkv => hkv.1⟩

end lookup

/-! ### Well-formed maps -/

/-- Storing `key` in its bucket, without a resize, relinks a hole. -/
def RelinksAt (s : State K V) (key : K) : Prop :=
  ∃ xs, Path NcHashmapEntry.next s.mem.cells
      (some (.slot s.self.buckets (slotOf s.self s.self.nBuckets key))) xs none ∧
    Relinks s.self.compare (rowOf s.mem.toHeap xs) key

/-- A put on a well-formed map stores the pair; the map stays well-formed unless the put relinks a
hole. -/
theorem put_spec (L : Lawful D s.self.hash s.self.compare) (wf : WellFormedOn D s)
    (hk : D key) (value : V) (hg : ∀ i, s.mem.grants i = true)
    (hint : s.self.maybeResize = true → s.self.nBuckets * increaseFactor ≤ intMax) :
    ∃ s', Returns (fun f => put f s key value) (true, s') ∧ Added s s' key value ∧ NoTwins s' ∧
      (s.self.maybeResize = true ∨ ¬ RelinksAt s key → WellFormedOn D s') ∧
      s'.self.nBuckets =
        if s.self.maybeResize then s.self.nBuckets * increaseFactor else s.self.nBuckets := by
  obtain ⟨tails, T, -, hn⟩ := wf.table
  cases hr : s.self.maybeResize with
  | true =>
      obtain ⟨s', tails', hret, S, -⟩ := put_rebuilds L T hk value hr (hint hr) hg
      refine ⟨s', hret, S.added T, S.table.noTwins (S.lawful L), fun _ => ?_, ?_⟩
      · exact S.table.wellFormed (S.lawful L) (S.size hn).1
      · rw [S.nBuckets, hr]
  | false =>
      obtain ⟨s', tails', back', hret, S, I⟩ :=
        put_keeps L T hk value hr (.inl rfl) (hg _)
      have hnb : s'.self.nBuckets = s.self.nBuckets := by rw [S.nBuckets, hr]; rfl
      refine ⟨s', hret, S.added T, S.table.noTwins (S.lawful L), fun h => ?_, hnb⟩
      have hrel : ¬ RelinksAt s key := h.resolve_left (by decide)
      refine (S.table_closed fun j hj => I.acyclic (fun hp => ?_) j (hnb ▸ hj)).wellFormed
        (S.lawful L) (S.size hn).1
      exact hrel ⟨_, T.path _ (T.slotOf_lt key), hp⟩

/-- A removal from a well-formed map deletes the key. -/
theorem remove_spec (L : Lawful D s.self.hash s.self.compare) (wf : WellFormedOn D s)
    (hk : D key) (hnull : s.self.compare null key = false) (remove : Bool) :
    ∃ ok s', Returns (fun f => removeInternal f s key remove) (ok, s') ∧ WellFormedOn D s' ∧
      (ok = true ↔ ∃ k v, Holds s k v ∧ s.self.compare k key = true) ∧
      (∀ k v, Holds s' k v ↔ Holds s k v ∧ s.self.compare k key = false) ∧
      s'.self.hash = s.self.hash ∧ s'.self.compare = s.self.compare ∧
      s'.mem.grants = s.mem.grants := by
  obtain ⟨tails, T, -, hn⟩ := wf.table
  obtain ⟨ok, s', hr, T', hok, hholds, hsize, hcase⟩ := removeInternal_spec L T hk hnull remove
  have hself : s'.self.hash = s.self.hash ∧ s'.self.compare = s.self.compare ∧
      s'.mem.grants = s.mem.grants := by
    rcases hcase with ⟨-, rfl⟩ | ⟨-, a, k, v, -, -, rfl⟩
    · exact ⟨rfl, rfl, rfl⟩
    · refine ⟨rfl, rfl, ?_⟩
      rw [vacate_heap]
      rfl
  refine ⟨ok, s', hr, T'.wellFormed ?_ (hsize hn), hok, hholds, hself⟩
  rw [hself.1, hself.2.1]
  exact L

/-- A lookup in a well-formed map. -/
theorem get_spec (L : Lawful D s.self.hash s.self.compare) (wf : WellFormedOn D s)
    (hk : D key) (hnull : s.self.compare null key = false) :
    (∀ k v, Holds s k v → s.self.compare k key = true → Returns (fun f => get f s key) v) ∧
    ((∀ k v, Holds s k v → s.self.compare k key = false) →
      Returns (fun f => get f s key) null) := by
  obtain ⟨tails, T, -⟩ := wf.table
  exact ⟨fun k v h hc => get_value L T hk hnull h hc,
    fun h => get_of_none (getEntry_absent L T hk hnull h)⟩

/-! ### New maps -/

theorem newInternal_table {m : Mem K V} {create : K → UInt32} {compare : K → K → Bool}
    {keyFree valueFree : Bool} (h : newInternal m create compare keyFree valueFree = some s)
    (D : K → Prop) :
    Table s.self D s.mem.toHeap s.self.buckets s.self.nBuckets (fun _ => []) (fun _ => none) ∧
    (∀ i < s.self.nBuckets, rowsOf s.mem.toHeap s.self.buckets (fun _ => []) i = [none]) ∧
    s.self = ⟨0, 42, initialSize, s.self.buckets, create, compare, keyFree, valueFree⟩ ∧
    s.mem.grants = m.grants := by
  unfold newInternal at h
  split_ifs at h
  unfold Heap.callocTable at h
  split_ifs at h
  obtain rfl := Option.some.inj h
  obtain ⟨hS, hrow⟩ := Shape.calloc m.toHeap.pass (by decide : 0 < initialSize)
  have hnext : (fullSize initialSize : ℤ) = 42 := by decide
  refine ⟨⟨hS, .of_empty fun i hi => congrArg pairs (hrow i hi)⟩, hrow, ?_, rfl⟩
  simp only [updateNextSize, hnext]

theorem newInternal_granted {m : Mem K V} (hg : ∀ i, m.grants i = true) (create : K → UInt32)
    (compare : K → K → Bool) (keyFree valueFree : Bool) :
    ∃ s, newInternal m create compare keyFree valueFree = some s := by
  unfold newInternal
  rw [if_pos (hg _)]
  simp only [Heap.callocTable, Heap.pass_grants, hg, if_true]
  exact ⟨_, rfl⟩

/-- A new map is empty and well-formed. -/
theorem newInternal_wellFormed {m : Mem K V} {create : K → UInt32} {compare : K → K → Bool}
    {keyFree valueFree : Bool} (h : newInternal m create compare keyFree valueFree = some s)
    (L : Lawful D create compare) : WellFormedOn D s ∧ ∀ k v, ¬ Holds s k v := by
  obtain ⟨T, hrow, hself, -⟩ := newInternal_table h D
  have hempty := contents_holes hrow
  refine ⟨T.wellFormed (by rw [hself]; exact L) ?_, fun k v => ?_⟩
  · rw [hempty, hself]; rfl
  · rw [T.holds_iff, hempty]; exact List.not_mem_nil

end NcHashmap

/-- The default comparison is equality, on the key 0 too. -/
theorem simple_lawful_on (D : UInt64 → Prop) : Lawful D ncSimpleHash ncSimpleCompare where
  per :=
    { symm := fun a b _ _ h => by rw [eq_of_beq h]; exact beq_self_eq_true b
      trans := fun a b c _ _ _ h₁ h₂ => by rw [eq_of_beq h₁]; exact h₂ }
  hash a b _ _ h := by rw [eq_of_beq h]

/-- The default hash and comparison are lawful, with key 0 as NULL. -/
theorem simple_lawful : LawfulBesideNull ncSimpleHash ncSimpleCompare where
  toLawful := simple_lawful_on NonNull
  refl k _ := beq_self_eq_true k
  null_ne k hk := by
    rw [← Bool.not_eq_true]
    exact fun h => hk (eq_of_beq h).symm
  ne_null k hk := by
    rw [← Bool.not_eq_true]
    exact fun h => hk (eq_of_beq h)

/-- The memory in which nothing is allocated and no allocation fails. -/
def Mem.granting (K V : Type) : Mem K V := { Heap.empty _ fun _ => true with log := [] }

end Nica
