import Nica.HashmapInsert
import Nica.HashmapFree

/-! # Resizing

`resize` copies the pairs of the old chains, in order, into a new table.  While it does, memory is
the old memory with a table of dense chains under construction (`Building`), which holds the pairs
copied so far (`Copied`).  The copy fails at the first refused allocation of an overflow node
(`Stuck`); how many nodes are needed depends only on the pairs (`Rows.spill`).

A resize that gets all its memory leaves a dense table of the same pairs (`Resized`,
`resize_succeeds`).  One that is stuck leaves the old table in place, but its cleanup of the half-built
table calls the cleanup functions on pairs that the old table still holds (`Spoilt`). -/

namespace Nica

open Blocks Linked Rows Fueled

variable {K V : Type} [Null K] [Null V]

theorem Shape.calloc (h : Heap (NcHashmapEntry K V)) {n : ℕ} (hn : 0 < n) :
    Shape (h.grantTable n NcHashmapEntry.zero) h.tick n (fun _ => []) (fun _ => none) ∧
    ∀ i < n, rowsOf (h.grantTable n NcHashmapEntry.zero) h.tick (fun _ => []) i = [none] := by
  have cell : ∀ i < n, (h.grantTable n NcHashmapEntry.zero).cells (.slot h.tick i) =
      some NcHashmapEntry.zero := fun i hi => by rw [Heap.grantTable_slot, if_pos hi]
  refine ⟨⟨hn, fun i => ?_, fun i hi => ⟨rfl, _, cell i hi, rfl⟩, by simp, by simp, by simp, ?_⟩,
    fun i hi => ?_⟩
  · rw [Heap.grantTable_slot]; split_ifs with hi <;> simp [hi]
  · intro i hi a ha e he _
    obtain rfl : a = .slot h.tick i := by simpa [chainOf] using ha
    rw [cell i hi] at he
    rw [← Option.some.inj he]
    exact ⟨rfl, rfl⟩
  · rw [rowsOf, chainOf, List.map_nil, rowOf_cons, viewAt_eq (cell i hi)]
    rfl

omit [Null K] [Null V] in
theorem rowsOf_ne_nil (h : Heap (NcHashmapEntry K V)) (t : ℕ) (tails : ℕ → List ℕ) (i : ℕ) :
    rowsOf h t tails i ≠ [] := by simp [rowsOf, chainOf]

omit [Null K] [Null V] in
/-- Filling a dense row cannot leave a loop. -/
theorem not_relinks {compare : K → K → Bool} {r : Row K V} (h : Dense r) (k : K) :
    ¬ NcHashmap.Relinks compare r k := by
  rintro ⟨-, hn, hl⟩
  rcases h with rfl | h
  · exact hl rfl
  · exact h hn

theorem Shape.block_le {h : Heap (NcHashmapEntry K V)} {t n : ℕ} {tails : ℕ → List ℕ}
    {back : ℕ → Option Loc} (hS : Shape h t n tails back) {i : ℕ} (hi : i < n) {a : Loc}
    (ha : a ∈ chainOf t tails i) : a.block < h.tick := by
  obtain ⟨e, he⟩ := hS.cell hi ha
  exact Heap.block_lt he

/-- `m` is `m₀` with a table `T` of `N` dense chains under construction. -/
structure Building (m₀ : Mem K V) (T N : ℕ) (tails : ℕ → List ℕ) (m : Mem K V) : Prop where
  shape : Shape m.toHeap T N tails fun _ => none
  dense : ∀ i < N, Dense (rowsOf m.toHeap T tails i)
  frame : ∀ a, a.block < T → m.cells a = m₀.cells a
  nodes : ∀ i < N, ∀ b ∈ tails i, T ≤ b
  above : T < m.tick
  grants : m.grants = m₀.grants

namespace Building

variable {m₀ m m' : Mem K V} {T N : ℕ} {tails tails' : ℕ → List ℕ} {back' : ℕ → Option Loc}

theorem mem_block (B : Building m₀ T N tails m) {i : ℕ} (hi : i < N) {a : Loc}
    (ha : a ∈ chainOf T tails i) : T ≤ a.block := by
  rcases mem_chainOf.mp ha with rfl | ⟨b, hb, rfl⟩
  · exact Nat.le_refl T
  · exact B.nodes i hi b hb

/-- What an insertion leaves of the table under construction. -/
theorem inserted {map : NcHashmap K V} {i : ℕ} {k : K} {v : V} (B : Building m₀ T N tails m)
    (hi : i < N) (I : NcHashmap.Inserted map m m' T N tails (fun _ => none) i k v tails' back')
    (htick : m.tick ≤ m'.tick) : Building m₀ T N tails' m' where
  shape := I.shape.back_congr fun j hj => (I.acyclic (not_relinks (B.dense i hi) k) j hj).symm
  dense j hj := by
    by_cases hji : j = i
    · subst hji
      rw [I.row]
      exact .inr ((B.dense j hj).put _ _ _)
    · rw [I.rest j hj hji]
      exact B.dense j hj
  frame a ha := by
    rw [I.frame a (fun h => ?_) (fun h => ?_), B.frame a ha]
    · exact absurd (B.mem_block hi h) (by omega)
    · have := B.above
      rw [h] at ha
      exact absurd ha (by simp only [Loc.block]; omega)
  nodes j hj b hb := by
    rcases I.nodes j hj b hb with hb | rfl
    · exact B.nodes j hj b hb
    · exact B.above.le
  above := B.above.trans_le htick
  grants := I.grants.trans B.grants

/-- An insertion into the table under construction always has a result. -/
theorem insertBucket (map : NcHashmap K V) (B : Building m₀ T N tails m) (hash : UInt32) (key : K)
    (value : V) :
    ∃ r m' tails', Returns (fun f => NcHashmap.insertBucket map f m T N hash key value) (r, m') ∧
      Building m₀ T N tails' m' ∧
      ((has map.compare (rowsOf m.toHeap T tails (hash.toNat % N)) key = true ∧ r = 0) ∨
        (r = 1 ∧ m'.log = m.log ∧
          rowsOf m'.toHeap T tails' (hash.toNat % N) =
            Rows.put map.compare (rowsOf m.toHeap T tails (hash.toNat % N)) key value ∧
          (∀ j < N, j ≠ hash.toNat % N → rowsOf m'.toHeap T tails' j = rowsOf m.toHeap T tails j) ∧
          ((none ∈ rowsOf m.toHeap T tails (hash.toNat % N) ∧ m'.tick = m.tick) ∨
            (none ∉ rowsOf m.toHeap T tails (hash.toNat % N) ∧ m'.tick = m.tick + 1 ∧
              m.grants m.tick = true))) ∨
        (r = -1 ∧ m'.log = m.log ∧ tails' = tails ∧ m'.cells = m.cells ∧ m'.tick = m.tick + 1 ∧
          none ∉ rowsOf m.toHeap T tails (hash.toNat % N) ∧ m.grants m.tick = false)) := by
  have hi : hash.toNat % N < N := Nat.mod_lt _ B.shape.pos
  cases hk : has map.compare (rowsOf m.toHeap T tails (hash.toNat % N)) key with
  | true =>
      obtain ⟨m', hr, I, ht, -⟩ := NcHashmap.insertBucket_replace value B.shape hk
      exact ⟨0, m', tails, hr, B.inserted hi I ht.ge, .inl ⟨rfl, rfl⟩⟩
  | false =>
      by_cases hn : none ∈ rowsOf m.toHeap T tails (hash.toNat % N)
      · obtain ⟨m', back', hr, I, ht, hl⟩ :=
          NcHashmap.insertBucket_fill value B.shape rfl hk hn
        exact ⟨1, m', tails, hr, B.inserted hi I ht.ge,
          .inr (.inl ⟨rfl, hl, I.row, I.rest, .inl ⟨hn, ht⟩⟩)⟩
      · cases hg : m.grants m.tick with
        | true =>
            obtain ⟨m', tails', back', hr, I, ht, hl⟩ :=
              NcHashmap.insertBucket_append value B.shape rfl hk hn hg
            exact ⟨1, m', tails', hr, B.inserted hi I (by omega),
              .inr (.inl ⟨rfl, hl, I.row, I.rest, .inr ⟨hn, ht, rfl⟩⟩)⟩
        | false =>
            refine ⟨-1, _, tails, NcHashmap.insertBucket_fail value B.shape rfl hk hn hg, ?_,
              .inr (.inr ⟨rfl, rfl, rfl, rfl, rfl, hn, rfl⟩)⟩
            exact
              { shape := B.shape.of_cells rfl
                dense := B.dense
                frame := B.frame
                nodes := B.nodes
                above := Nat.lt_succ_of_lt B.above
                grants := B.grants }

theorem init {m₀ : Mem K V} {N : ℕ} (hN : 0 < N) :
    Building m₀ m₀.tick N (fun _ => [])
      { m₀ with toHeap := m₀.toHeap.grantTable N NcHashmapEntry.zero } := by
  obtain ⟨hS, hrow⟩ := Shape.calloc m₀.toHeap hN
  exact
    { shape := hS
      dense := fun i hi => .inl (hrow i hi)
      frame := fun a ha => Heap.grantTable_ne _ _ _ (by omega)
      nodes := by simp
      above := Nat.lt_succ_self _
      grants := rfl }

end Building

/-- The buckets of the pairs `ps` in a table of `N` slots. -/
def slotsOf (map : NcHashmap K V) (N : ℕ) (ps : List (K × V)) : List ℕ :=
  ps.map fun p => slotOf map N p.1

omit [Null K] [Null V] in
@[simp] theorem slotsOf_append (map : NcHashmap K V) (N : ℕ) (ps qs : List (K × V)) :
    slotsOf map N (ps ++ qs) = slotsOf map N ps ++ slotsOf map N qs := List.map_append

/-- One round of the inner loop, at an occupied entry. -/
theorem NcHashmap.rehashChain_occupied {map : NcHashmap K V} {m m₁ : Mem K V} {a : Loc}
    {e : NcHashmapEntry K V} {t N : ℕ} {r items : ℤ} (he : m.cells a = some e) (ho : e.occ = true)
    (hr : Returns (fun n => NcHashmap.insertBucket map n m t N (map.hash e.hash) e.hash e.value)
      (r, m₁)) {x : Bool × ℤ × Mem K V}
    (hx : Returns (fun n =>
      if r > 0 then
        match m₁.cells a with
        | none => .error .dangling
        | some e => NcHashmap.rehashChain map t N n e.next (items + r) m₁
      else .ok (false, items, m₁)) x) :
    Returns (fun n => NcHashmap.rehashChain map t N n (some a) items m) x := by
  refine (hr.bind (g := fun x n =>
    if x.1 > 0 then
      match x.2.cells a with
      | none => .error .dangling
      | some e => NcHashmap.rehashChain map t N n e.next (items + x.1) x.2
    else .ok (false, items, x.2)) hx).succ fun n => ?_
  simp only [NcHashmap.rehashChain, he, ho]
  rfl

/-- The table under construction holds the pairs `qs`, whose overflow nodes were all granted. -/
structure Copied (map : NcHashmap K V) (D : K → Prop) (m₀ : Mem K V) (N : ℕ)
    (qs : List (K × V)) (tails : ℕ → List ℕ) (m : Mem K V) : Prop
    extends Building m₀ m₀.tick N tails m where
  rows : Bucketed (slotOf map N) D map.compare N (rowsOf m.toHeap m₀.tick tails)
  pairs : (contents (rowsOf m.toHeap m₀.tick tails) N).Perm qs
  log : m.log = m₀.log
  tick : m.tick = m₀.tick + 1 + spill (slotsOf map N qs)
  granted : ∀ j ≤ spill (slotsOf map N qs), m₀.grants (m₀.tick + j) = true

/-- The copy met a refused allocation, one of the first `bound` after that of the table. -/
structure Stuck (m₀ : Mem K V) (N bound : ℕ) (tails : ℕ → List ℕ) (m : Mem K V) : Prop
    extends Building m₀ m₀.tick N tails m where
  some_pair : contents (rowsOf m.toHeap m₀.tick tails) N ≠ []
  log : m.log = m₀.log
  refused : ∃ j, 1 ≤ j ∧ j ≤ bound ∧ m₀.grants (m₀.tick + j) = false ∧
    (∀ l < j, m₀.grants (m₀.tick + l) = true) ∧ m.tick = m₀.tick + j + 1

theorem Stuck.mono {m₀ m : Mem K V} {N b b' : ℕ} {tails : ℕ → List ℕ} (h : Stuck m₀ N b tails m)
    (hb : b ≤ b') : Stuck m₀ N b' tails m :=
  { h with refused := h.refused.imp fun _ hj => ⟨hj.1, hj.2.1.trans hb, hj.2.2⟩ }

namespace Copied

variable {map : NcHashmap K V} {D : K → Prop} {m₀ m : Mem K V} {N : ℕ} {qs : List (K × V)}
  {tails : ℕ → List ℕ}

/-- No copied pair stands in a row exactly when the row is the hole that `calloc` made. -/
theorem none_mem_iff (C : Copied map D m₀ N qs tails m) {i : ℕ} (hi : i < N) :
    none ∈ rowsOf m.toHeap m₀.tick tails i ↔ i ∉ slotsOf map N qs := by
  have mem : i ∈ slotsOf map N qs ↔ ∃ p, p ∈ Rows.pairs (rowsOf m.toHeap m₀.tick tails i) := by
    simp only [slotsOf, List.mem_map, ← C.pairs.mem_iff, mem_contents]
    constructor
    · rintro ⟨p, ⟨j, hj, hp⟩, rfl⟩
      exact ⟨p, (C.rows.placed j hj p hp).symm ▸ hp⟩
    · rintro ⟨p, hp⟩
      exact ⟨p, ⟨i, hi, hp⟩, C.rows.placed i hi p hp⟩
  rw [mem]
  rcases C.dense i hi with hr | hr
  · simp [hr]
  · refine iff_of_false hr fun hno => ?_
    have hnil : Rows.pairs (rowsOf m.toHeap m₀.tick tails i) = [] :=
      List.eq_nil_iff_forall_not_mem.mpr fun p hp => hno ⟨p, hp⟩
    have := eq_map_pairs hr
    rw [hnil] at this
    exact rowsOf_ne_nil _ _ _ _ this

theorem step (C : Copied map D m₀ N qs tails m) {k : K} {v : V} (hk : D k)
    (hnew : ∀ q ∈ qs, map.compare q.1 k = false) :
    ∃ r m' tails',
      Returns (fun f => NcHashmap.insertBucket map f m m₀.tick N (map.hash k) k v) (r, m') ∧
      ((r = 1 ∧ Copied map D m₀ N (qs ++ [(k, v)]) tails' m') ∨
        (r = -1 ∧ Stuck m₀ N (spill (slotsOf map N (qs ++ [(k, v)]))) tails' m')) := by
  have hi : slotOf map N k < N := Nat.mod_lt _ C.shape.pos
  have habs : has map.compare (rowsOf m.toHeap m₀.tick tails (slotOf map N k)) k = false := by
    rw [has_eq_false]
    intro p hp
    exact hnew p (C.pairs.mem_iff.mp (mem_contents.mpr ⟨_, hi, hp⟩))
  have hspill : spill (slotsOf map N (qs ++ [(k, v)])) =
      spill (slotsOf map N qs) + if slotOf map N k ∈ slotsOf map N qs then 1 else 0 := by
    rw [slotsOf_append]
    exact spill_concat _ _
  obtain ⟨r, m', tails', hr, B, h | ⟨rfl, hlog, hrow, hrest, ht⟩ |
    ⟨rfl, hlog, rfl, hcells, ht, hn, hg⟩⟩ := C.toBuilding.insertBucket map (map.hash k) k v
  · rw [show has map.compare (rowsOf m.toHeap m₀.tick tails ((map.hash k).toNat % N)) k = false
      from habs] at h
    exact absurd h.1 (by simp)
  · refine ⟨1, m', tails', hr, .inl ⟨rfl, B, ?_, ?_, ?_, ?_, ?_⟩⟩
    · exact C.rows.put_new hk hrest hrow (C.dense _ hi) habs
    · exact ((contents_put_perm hi hrest hrow habs).trans (C.pairs.cons _)).trans
        (List.perm_append_singleton (k, v) qs).symm
    · rw [hlog, C.log]
    · rw [hspill]
      rcases ht with ⟨hn, ht⟩ | ⟨hn, ht, -⟩
      · rw [if_neg ((C.none_mem_iff hi).mp hn), ht, C.tick]; rfl
      · rw [if_pos (not_not.mp ((C.none_mem_iff hi).not.mp hn)), ht, C.tick]; omega
    · rw [hspill]
      rcases ht with ⟨hn, -⟩ | ⟨hn, -, hg⟩
      · rw [if_neg ((C.none_mem_iff hi).mp hn)]
        exact C.granted
      · rw [if_pos (not_not.mp ((C.none_mem_iff hi).not.mp hn))]
        intro j hj
        by_cases hjs : j ≤ spill (slotsOf map N qs)
        · exact C.granted j hjs
        · rw [C.grants, C.tick] at hg
          rwa [show m₀.tick + j = m₀.tick + 1 + spill (slotsOf map N qs) by omega]
  · have hin := not_not.mp ((C.none_mem_iff hi).not.mp hn)
    refine ⟨-1, m', tails', hr, .inr ⟨rfl, B, ?_, ?_, ?_⟩⟩
    · rw [rowsOf_of_cells hcells]
      intro hnil
      have := C.pairs.symm
      rw [hnil, List.perm_nil] at this
      rw [this] at hin
      cases hin
    · rw [hlog, C.log]
    · rw [C.grants, C.tick] at hg
      refine ⟨spill (slotsOf map N qs) + 1, by omega, by rw [hspill, if_pos hin], ?_, ?_, ?_⟩
      · rwa [← Nat.add_assoc, Nat.add_right_comm]
      · exact fun l hl => C.granted l (by omega)
      · rw [ht, C.tick]; omega

/-- The inner loop over the rest `xs` of an old chain that reaches NULL. -/
theorem rehashChain (C : Copied map D m₀ N qs tails m) {p : Option Loc} {xs : List Loc}
    (hp : Path NcHashmapEntry.next m₀.cells p xs none)
    (hD : ∀ q ∈ Rows.pairs (rowOf m₀.toHeap xs), D q.1)
    (hu : Uniq map.compare (qs ++ Rows.pairs (rowOf m₀.toHeap xs))) (items : ℤ) :
    ∃ ok items' m' tails',
      Returns (fun f => NcHashmap.rehashChain map m₀.tick N f p items m) (ok, items', m') ∧
      ((ok = true ∧ items' = items + (Rows.pairs (rowOf m₀.toHeap xs)).length ∧
          Copied map D m₀ N (qs ++ Rows.pairs (rowOf m₀.toHeap xs)) tails' m') ∨
        (ok = false ∧
          Stuck m₀ N (spill (slotsOf map N (qs ++ Rows.pairs (rowOf m₀.toHeap xs)))) tails' m')) := by
  induction xs generalizing p qs m tails items with
  | nil =>
      obtain rfl : p = none := hp
      refine ⟨true, items, m, tails, ?_, .inl ⟨rfl, by simp, by simpa using C⟩⟩
      exact (Returns.pure _).congr fun n => by cases n <;> rfl
  | cons a xs ih =>
      obtain ⟨rfl, e, he, hp⟩ := hp
      have hea : ∀ {tails : ℕ → List ℕ} {m : Mem K V}, Building m₀ m₀.tick N tails m →
          m.cells a = some e := fun B => (B.frame a (Heap.block_lt he)).trans he
      cases ho : e.occ with
      | false =>
          rw [rowOf_cons, viewAt_eq he, NcHashmapEntry.view_blank ho, pairs_hole] at hD hu ⊢
          obtain ⟨ok, items', m', tails', hr, h⟩ := ih C hp hD hu items
          refine ⟨ok, items', m', tails', hr.succ fun n => ?_, h⟩
          simp [NcHashmap.rehashChain, hea C.toBuilding, ho]
      | true =>
          rw [rowOf_cons, viewAt_eq he, NcHashmapEntry.view_occ ho, pairs_pair] at hD hu ⊢
          have hnew : ∀ q ∈ qs, map.compare q.1 e.hash = false := fun q hq =>
            (List.pairwise_append.mp hu).2.2 q hq (e.hash, e.value) List.mem_cons_self
          rw [← List.singleton_append, ← List.append_assoc] at hu ⊢
          obtain ⟨r, m₁, tails₁, hr₁, ⟨rfl, C₁⟩ | ⟨rfl, S⟩⟩ :=
            C.step (v := e.value) (hD (e.hash, e.value) List.mem_cons_self) hnew
          · obtain ⟨ok, items', m', tails', hr, h⟩ :=
              ih C₁ hp (fun q hq => hD q (List.mem_cons_of_mem _ hq)) hu (items + 1)
            refine ⟨ok, items', m', tails', NcHashmap.rehashChain_occupied (hea C.toBuilding) ho hr₁ ?_,
              ?_⟩
            · simpa [hea C₁.toBuilding] using hr
            · refine h.imp (fun h => ⟨h.1, ?_, h.2.2⟩) id
              rw [h.2.1, List.length_append, List.length_singleton]
              push_cast
              omega
          · refine ⟨false, items, m₁, tails₁,
              NcHashmap.rehashChain_occupied (hea C.toBuilding) ho hr₁ ?_, .inr ⟨rfl, S.mono ?_⟩⟩
            · exact Returns.pure _
            · rw [slotsOf_append _ _ (qs ++ [_])]
              exact spill_append_le _ _

theorem rehash (C : Copied map D m₀ N qs tails m) {tails₀ : ℕ → List ℕ} {is : List ℕ}
    (hp : ∀ i ∈ is, Path NcHashmapEntry.next m₀.cells (some (.slot map.buckets i))
      (chainOf map.buckets tails₀ i) none)
    (hD : ∀ i ∈ is, ∀ q ∈ Rows.pairs (rowsOf m₀.toHeap map.buckets tails₀ i), D q.1)
    (hu : Uniq map.compare
      (qs ++ is.flatMap fun i => Rows.pairs (rowsOf m₀.toHeap map.buckets tails₀ i)))
    (items : ℤ) :
    ∃ ok items' m' tails',
      Returns (fun f => NcHashmap.rehash map f m₀.tick N is items m) (ok, items', m') ∧
      ((ok = true ∧
          items' = items +
            (is.flatMap fun i => Rows.pairs (rowsOf m₀.toHeap map.buckets tails₀ i)).length ∧
          Copied map D m₀ N
            (qs ++ is.flatMap fun i => Rows.pairs (rowsOf m₀.toHeap map.buckets tails₀ i)) tails' m') ∨
        (ok = false ∧
          Stuck m₀ N (spill (slotsOf map N
            (qs ++ is.flatMap fun i => Rows.pairs (rowsOf m₀.toHeap map.buckets tails₀ i))))
            tails' m')) := by
  induction is generalizing qs m tails items with
  | nil => exact ⟨true, items, m, tails, Returns.pure _, .inl ⟨rfl, by simp, by simpa using C⟩⟩
  | cons i is ih =>
      rw [List.flatMap_cons, ← List.append_assoc] at hu ⊢
      have hu₁ := (List.pairwise_append.mp hu).1
      obtain ⟨ok, items₁, m₁, tails₁, hr₁, ⟨rfl, hi₁, C₁⟩ | ⟨rfl, S⟩⟩ :=
        C.rehashChain (hp i List.mem_cons_self) (hD i List.mem_cons_self) hu₁ items
      · obtain ⟨ok, items', m', tails', hr, h⟩ :=
          ih C₁ (fun j hj => hp j (List.mem_cons_of_mem i hj))
            (fun j hj => hD j (List.mem_cons_of_mem i hj)) hu items₁
        refine ⟨ok, items', m', tails', hr₁.bind hr, h.imp (fun h => ⟨h.1, ?_, h.2.2⟩) id⟩
        rw [h.2.1, hi₁, List.length_append]
        push_cast
        exact Int.add_assoc _ _ _
      · refine ⟨false, items₁, m₁, tails₁, hr₁.bind (Returns.pure _), .inr ⟨rfl, S.mono ?_⟩⟩
        rw [slotsOf_append _ _ (qs ++ _)]
        exact spill_append_le _ _

end Copied

/-- `s'` is `s` after a successful resize. -/
structure Resized (D : K → Prop) (s s' : State K V) (tails tails' : ℕ → List ℕ) : Prop where
  self : s'.self =
    { s.self with
      nBuckets := s.self.nBuckets * increaseFactor
      buckets := s.mem.tick
      size := (contents (rowsOf s.mem.toHeap s.self.buckets tails) s.self.nBuckets).length
      nextSize := fullSize (s.self.nBuckets * increaseFactor) }
  table : Table s'.self D s'.mem.toHeap s'.self.buckets s'.self.nBuckets tails' fun _ => none
  dense : ∀ i < s'.self.nBuckets, Dense (rowsOf s'.mem.toHeap s'.self.buckets tails' i)
  pairs : (contents (rowsOf s'.mem.toHeap s'.self.buckets tails') s'.self.nBuckets).Perm
    (contents (rowsOf s.mem.toHeap s.self.buckets tails) s.self.nBuckets)
  log : s'.mem.log = s.mem.log
  grants : s'.mem.grants = s.mem.grants
  tick : s'.mem.tick = s.mem.tick + 1 + spill (slotsOf s.self (s.self.nBuckets * increaseFactor)
    (contents (rowsOf s.mem.toHeap s.self.buckets tails) s.self.nBuckets))
  granted : ∀ j ≤ spill (slotsOf s.self (s.self.nBuckets * increaseFactor)
    (contents (rowsOf s.mem.toHeap s.self.buckets tails) s.self.nBuckets)),
      s.mem.grants (s.mem.tick + j) = true

/-- `s'` is `s` after a resize that failed once it had copied some pairs: the old table is
untouched, but the cleanup functions were called on the copied pairs. -/
structure Spoilt (s s' : State K V) (tails : ℕ → List ℕ) : Prop where
  self : s'.self = s.self
  frame : ∀ a, a.block < s.mem.tick → s'.mem.cells a = s.mem.cells a
  log : ∃ ps, ps ≠ [] ∧ s'.mem.log = s.mem.log ++ freeCalls s.self ps
  grants : s'.mem.grants = s.mem.grants
  refused : ∃ j, 1 ≤ j ∧ j ≤ spill (slotsOf s.self (s.self.nBuckets * increaseFactor)
      (contents (rowsOf s.mem.toHeap s.self.buckets tails) s.self.nBuckets)) ∧
    s.mem.grants (s.mem.tick + j) = false ∧
    (∀ l < j, s.mem.grants (s.mem.tick + l) = true) ∧ s'.mem.tick = s.mem.tick + j + 1

theorem Copied.init (map : NcHashmap K V) (D : K → Prop) {m₀ : Mem K V} {N : ℕ} (hN : 0 < N)
    (hg : m₀.grants m₀.tick = true) :
    Copied map D m₀ N [] (fun _ => [])
      { m₀ with toHeap := m₀.toHeap.grantTable N NcHashmapEntry.zero } := by
  have hrow := (Shape.calloc m₀.toHeap hN).2
  have hnone : ∀ i < N, Rows.pairs (rowsOf (m₀.toHeap.grantTable N NcHashmapEntry.zero) m₀.tick
      (fun _ => []) i) = [] := fun i hi => by rw [hrow i hi]; rfl
  refine ⟨Building.init hN, .of_empty hnone, ?_, rfl, rfl, fun j hj => ?_⟩
  · rw [contents_holes hrow]
  · obtain rfl : j = 0 := Nat.le_zero.mp hj
    exact hg

/-- A table in a heap that agrees on all older cells. -/
theorem Shape.later {h h' : Heap (NcHashmapEntry K V)} {t n T : ℕ} {tails : ℕ → List ℕ}
    {back : ℕ → Option Loc} (hS : Shape h t n tails back)
    (he : ∀ a, a.block < T → h'.cells a = h.cells a) (ht : t < T)
    (hold : ∀ i < n, ∀ a ∈ chainOf t tails i, a.block < T) : Shape h' t n tails back :=
  hS.congr (fun i hi => by rw [he (.slot t i) ht]; exact hS.table_none hi)
    fun i hi a ha => he a (hold i hi a ha)

/-- Giving back the old table leaves the new one. -/
theorem Copied.resized {D : K → Prop} {s : State K V} {m m' : Mem K V} {tails tails' : ℕ → List ℕ}
    (C : Copied s.self D s.mem (s.self.nBuckets * increaseFactor)
      (contents (rowsOf s.mem.toHeap s.self.buckets tails) s.self.nBuckets) tails' m)
    (ht : s.self.buckets < s.mem.tick)
    (hold : ∀ i < s.self.nBuckets, ∀ a ∈ chainOf s.self.buckets tails i, a.block < s.mem.tick)
    {ps : List (K × V)}
    (F : Freed s.self false m m' (fun a => ∃ i < s.self.nBuckets, ∃ b ∈ tails i, a = .node b) ps) :
    Resized D s ⟨NcHashmap.updateNextSize { s.self with
        nBuckets := s.self.nBuckets * increaseFactor
        size := 0 + (contents (rowsOf s.mem.toHeap s.self.buckets tails) s.self.nBuckets).length
        buckets := s.mem.tick },
      { m' with toHeap := m'.toHeap.freeTable s.self.buckets }⟩ tails tails' := by
  have hcell : ∀ a, s.mem.tick ≤ a.block →
      (m'.toHeap.freeTable s.self.buckets).cells a = m.cells a := by
    intro a ha
    rw [Heap.freeTable_ne _ (by omega), F.kept]
    rintro ⟨i, hi, b, hb, rfl⟩
    have := hold i hi (.node b) (mem_chainOf.mpr (.inr ⟨b, hb, rfl⟩))
    omega
  have hin : ∀ i < s.self.nBuckets * increaseFactor, ∀ a ∈ chainOf s.mem.tick tails' i,
      (m'.toHeap.freeTable s.self.buckets).cells a = m.cells a := fun i hi a ha =>
    hcell a (C.mem_block hi ha)
  have hrow : ∀ i < s.self.nBuckets * increaseFactor,
      rowsOf (m'.toHeap.freeTable s.self.buckets) s.mem.tick tails' i =
        rowsOf m.toHeap s.mem.tick tails' i := fun i hi => rowOf_congr (hin i hi)
  have hshape : Shape (m'.toHeap.freeTable s.self.buckets) s.mem.tick
      (s.self.nBuckets * increaseFactor) tails' fun _ => none :=
    C.shape.congr (fun i hi => by rw [hcell _ (Nat.le_refl _)]; exact C.shape.table_none hi) hin
  have hdense : ∀ i < s.self.nBuckets * increaseFactor,
      Dense (rowsOf (m'.toHeap.freeTable s.self.buckets) s.mem.tick tails' i) := fun i hi => by
    rw [hrow i hi]; exact C.dense i hi
  have hpairs : (contents (rowsOf (m'.toHeap.freeTable s.self.buckets) s.mem.tick tails')
      (s.self.nBuckets * increaseFactor)).Perm
      (contents (rowsOf s.mem.toHeap s.self.buckets tails) s.self.nBuckets) := by
    rw [contents_congr hrow]; exact C.pairs
  refine ⟨?_, ⟨hshape, C.rows.congr hrow⟩, hdense, hpairs, ?_, ?_, ?_, C.granted⟩
  · simp only [NcHashmap.updateNextSize, Int.zero_add]
  · rw [F.log, C.log, if_neg (by decide), List.append_nil]
  · exact F.grants.trans C.grants
  · exact F.tick.trans C.tick

/-- Nuking the half-built table spoils the old one. -/
theorem Stuck.spoilt {s : State K V} {m m' : Mem K V} {tails tails' : ℕ → List ℕ}
    (S : Stuck s.mem (s.self.nBuckets * increaseFactor)
      (spill (slotsOf s.self (s.self.nBuckets * increaseFactor)
        ([] ++ contents (rowsOf s.mem.toHeap s.self.buckets tails) s.self.nBuckets))) tails' m)
    (F : Freed s.self true m m'
      (fun a => ∃ i < s.self.nBuckets * increaseFactor, ∃ b ∈ tails' i, a = .node b)
      (contents (rowsOf m.toHeap s.mem.tick tails') (s.self.nBuckets * increaseFactor))) :
    Spoilt s { s with mem := { m' with toHeap := m'.toHeap.freeTable s.mem.tick } } tails := by
  refine ⟨rfl, fun a ha => ?_, ⟨_, S.some_pair, ?_⟩, F.grants.trans S.grants, ?_⟩
  · change (m'.toHeap.freeTable s.mem.tick).cells a = _
    rw [Heap.freeTable_ne _ (by omega), F.kept, S.frame a ha]
    rintro ⟨i, hi, b, hb, rfl⟩
    have := S.nodes i hi b hb
    exact absurd ha (by simp only [Loc.block]; omega)
  · change m'.log = _
    rw [F.log, S.log, if_pos rfl]
  · obtain ⟨j, h₁, h₂, hg, hl, ht⟩ := S.refused
    exact ⟨j, h₁, h₂, hg, hl, F.tick.trans ht⟩

namespace NcHashmap

variable {D : K → Prop} {s : State K V} {tails : ℕ → List ℕ}

theorem resize_overflow (hint : intMax < s.self.nBuckets * increaseFactor) (f : ℕ) :
    resize f s = .error .overflow := by
  unfold resize
  rw [if_pos hint]

theorem resize_refused (hint : s.self.nBuckets * increaseFactor ≤ intMax)
    (hg : s.mem.grants s.mem.tick = false) :
    Returns (fun f => resize f s) (false, { s with mem := { s.mem with toHeap := s.mem.pass } }) := by
  refine (Returns.pure _).congr fun f => ?_
  unfold resize
  simp only [Heap.callocTable, hg, if_neg (Nat.not_lt.mpr hint)]
  rfl

/-- With memory for the new table the pairs are copied, or the cleanup spoils them. -/
theorem resize_granted (hS : Shape s.mem.toHeap s.self.buckets s.self.nBuckets tails fun _ => none)
    (hD : ∀ q ∈ contents (rowsOf s.mem.toHeap s.self.buckets tails) s.self.nBuckets, D q.1)
    (hu : Uniq s.self.compare
      (contents (rowsOf s.mem.toHeap s.self.buckets tails) s.self.nBuckets))
    (hint : s.self.nBuckets * increaseFactor ≤ intMax) (hg : s.mem.grants s.mem.tick = true) :
    ∃ ok s', Returns (fun f => resize f s) (ok, s') ∧
      ((ok = true ∧ ∃ tails', Resized D s s' tails tails') ∨ (ok = false ∧ Spoilt s s' tails)) := by
  have hN : 0 < s.self.nBuckets * increaseFactor := Nat.mul_pos hS.pos (by decide)
  have hold : ∀ i < s.self.nBuckets, ∀ a ∈ chainOf s.self.buckets tails i,
      a.block < s.mem.tick := fun i hi a ha => hS.block_le hi ha
  have ht : s.self.buckets < s.mem.tick := hold 0 hS.pos _ (mem_chainOf.mpr (.inl rfl))
  obtain ⟨ok, items, m, tails', hr, h⟩ := (Copied.init s.self D hN hg).rehash
    (fun i hi => (hS.path i (List.mem_range.mp hi)))
    (fun i hi q hq => hD q (mem_contents.mpr ⟨i, List.mem_range.mp hi, hq⟩)) hu 0
  rcases h with ⟨rfl, rfl, C⟩ | ⟨rfl, S⟩
  · obtain ⟨m', hm', F⟩ := freeBuckets_table s.self false (hS.later C.frame ht hold)
    refine ⟨true, _, ?_, .inl ⟨rfl, tails', C.resized ht hold F⟩⟩
    filter_upwards [hr, hm'] with f h₁ h₂
    unfold resize
    simp only [Heap.callocTable, hg, if_neg (Nat.not_lt.mpr hint), if_true, h₁]
    change (freeBuckets s.self f s.self.buckets false (List.range s.self.nBuckets) m >>= _) = _
    rw [h₂]
    rfl
  · obtain ⟨m', hm', F⟩ := freeBuckets_table s.self true S.shape
    refine ⟨false, _, ?_, .inr ⟨rfl, S.spoilt F⟩⟩
    filter_upwards [hr, hm'] with f h₁ h₂
    unfold resize
    simp only [Heap.callocTable, hg, if_neg (Nat.not_lt.mpr hint), if_true, h₁]
    change (freeBuckets s.self f s.mem.tick true
      (List.range (s.self.nBuckets * increaseFactor)) m >>= _) = _
    rw [h₂]
    rfl

theorem resize_succeeds (hS : Shape s.mem.toHeap s.self.buckets s.self.nBuckets tails fun _ => none)
    (hD : ∀ q ∈ contents (rowsOf s.mem.toHeap s.self.buckets tails) s.self.nBuckets, D q.1)
    (hu : Uniq s.self.compare
      (contents (rowsOf s.mem.toHeap s.self.buckets tails) s.self.nBuckets))
    (hint : s.self.nBuckets * increaseFactor ≤ intMax) (hg : ∀ i, s.mem.grants i = true) :
    ∃ s' tails', Returns (fun f => resize f s) (true, s') ∧ Resized D s s' tails tails' := by
  obtain ⟨ok, s', hr, ⟨rfl, tails', R⟩ | ⟨-, S⟩⟩ := resize_granted hS hD hu hint (hg _)
  · exact ⟨s', tails', hr, R⟩
  · obtain ⟨j, -, -, hj, -⟩ := S.refused
    rw [hg] at hj
    cases hj

end NcHashmap
end Nica
