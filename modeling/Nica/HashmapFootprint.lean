import Nica.Footprint
import Nica.HashmapRuns

/-! # The cells of a map

The cells of a map are those of the chains of its table (`footprint`).  Every function of the map is
an action of the owner of these cells in the sense of `Blocks.Acts`, also when an allocation fails:
what it allocates hangs in a chain afterwards or is given back (`insertBucket_acts`, `resize_acts`,
`put_acts`, `removeInternal_acts`), a new map owns what it allocated (`newInternal_acts`), and
`nc_hashmap_free` gives everything back (`free_acts`).  This is about maps whose chains reach NULL,
with any hash and comparison. -/

namespace Nica

open Blocks Linked Rows Fueled

variable {K V : Type}

/-- The cells that the slots of a table lead to. -/
def cellsOf (h : Heap (NcHashmapEntry K V)) (t n : ℕ) : Set Loc :=
  {a | ∃ i < n, Reaches NcHashmapEntry.next h.cells (some (.slot t i)) a}

def footprint (s : State K V) : Set Loc := cellsOf s.mem.toHeap s.self.buckets s.self.nBuckets

section shape
variable [Null K] [Null V] {h h' : Heap (NcHashmapEntry K V)} {t n : ℕ} {tails : ℕ → List ℕ}
  {back : ℕ → Option Loc} {a : Loc}

theorem Shape.mem_cellsOf (hS : Shape h t n tails back) :
    a ∈ cellsOf h t n ↔ ∃ i < n, a ∈ chainOf t tails i := by
  constructor
  · rintro ⟨i, hi, ha⟩
    exact ⟨i, hi, (hS.reaches_iff hi).mp ha⟩
  · rintro ⟨i, hi, ha⟩
    exact ⟨i, hi, (hS.reaches_iff hi).mpr ha⟩

theorem Shape.isSome (hS : Shape h t n tails back) (ha : a ∈ cellsOf h t n) :
    (h.cells a).isSome = true := by
  obtain ⟨i, hi, ha⟩ := hS.mem_cellsOf.mp ha
  obtain ⟨e, he⟩ := hS.cell hi ha
  rw [he]
  rfl

theorem Shape.cellsOf_eq (hS : Shape h t n tails back) {back' : ℕ → Option Loc}
    (hS' : Shape h' t n tails back') : cellsOf h' t n = cellsOf h t n := by
  ext a
  rw [hS.mem_cellsOf, hS'.mem_cellsOf]

/-- The table in a heap that agrees on its cells. -/
theorem Shape.elsewhere (hS : Shape h t n tails back)
    (htab : ∀ i, n ≤ i → h'.cells (.slot t i) = none)
    (he : ∀ a ∈ cellsOf h t n, h'.cells a = h.cells a) : Shape h' t n tails back := by
  apply hS.congr htab
  intro i hi a ha
  exact he a (hS.mem_cellsOf.mpr ⟨i, hi, ha⟩)

end shape

namespace NcHashmap
variable [Null K] [Null V]

/-! ### Insertion -/

section insert
variable {self : NcHashmap K V} {m m' : Mem K V} {t n : ℕ} {tails tails' : ℕ → List ℕ}
  {back back' : ℕ → Option Loc} {i : ℕ} {key : K} {value : V} {hash : UInt32}

/-- An insertion that allocates nothing. -/
theorem Inserted.acts (hS : Shape m.toHeap t n tails back) (hi : i < n)
    (I : Inserted self m m' t n tails back i key value tails back') (htick : m'.tick = m.tick) :
    Acts m.toHeap m'.toHeap (cellsOf m.toHeap t n) (cellsOf m'.toHeap t n) := by
  rw [hS.cellsOf_eq I.shape]
  refine ⟨htick.ge, I.grants, ?_, fun a ha => .inl ha, fun a ha hn => absurd ha hn⟩
  intro a ha _
  by_cases hnew : a = .node m.tick
  · subst hnew
    rw [m.fresh _ le_rfl]
    exact m'.fresh _ htick.le
  · apply I.frame a
    · intro hin
      exact ha (hS.mem_cellsOf.mpr ⟨i, hi, hin⟩)
    · exact hnew

omit [Null K] [Null V] in
theorem length_rowsOf (h : Heap (NcHashmapEntry K V)) (t : ℕ) (tails : ℕ → List ℕ) (i : ℕ) :
    (rowsOf h t tails i).length = (tails i).length + 1 := by
  simp [rowsOf, rowOf, chainOf]

/-- A chain that got longer by an insertion got longer by the new node. -/
theorem Inserted.perm_of_longer (hi : i < n)
    (I : Inserted self m m' t n tails back i key value tails' back')
    (hrow : (rowsOf m'.toHeap t tails' i).length = (rowsOf m.toHeap t tails i).length + 1) :
    (tails' i).Perm (m.tick :: tails i) := by
  have hsub : tails' i ⊆ m.tick :: tails i := by
    intro b hb
    cases I.nodes i hi b hb with
    | inl hold => exact List.mem_cons_of_mem _ hold
    | inr hnew =>
        rw [hnew]
        exact List.mem_cons_self
  rw [length_rowsOf, length_rowsOf] at hrow
  apply (List.subperm_of_subset (I.shape.nodup i hi) hsub).perm_of_length_le
  rw [List.length_cons]
  omega

/-- The other chains keep their nodes. -/
theorem Inserted.perm_of_ne (hi : i < n)
    (I : Inserted self m m' t n tails back i key value tails' back') (hnew : m.tick ∈ tails' i)
    {j : ℕ} (hj : j < n) (hji : j ≠ i) : (tails' j).Perm (tails j) := by
  have hsub : tails' j ⊆ tails j := by
    intro b hb
    cases I.nodes j hj b hb with
    | inl hold => exact hold
    | inr htick =>
        subst htick
        exact absurd hnew (I.shape.apart j hj i hi hji _ hb)
  have hlen := congrArg List.length (I.rest j hj hji)
  rw [length_rowsOf, length_rowsOf] at hlen
  apply (List.subperm_of_subset (I.shape.nodup j hj) hsub).perm_of_length_le
  omega

/-- An insertion that makes a chain longer. -/
theorem Inserted.acts_longer (hS : Shape m.toHeap t n tails back) (hi : i < n)
    (I : Inserted self m m' t n tails back i key value tails' back')
    (hrow : (rowsOf m'.toHeap t tails' i).length = (rowsOf m.toHeap t tails i).length + 1)
    (htick : m'.tick = m.tick + 1) :
    Acts m.toHeap m'.toHeap (cellsOf m.toHeap t n) (cellsOf m'.toHeap t n) := by
  have hperm := I.perm_of_longer hi hrow
  have hnew : m.tick ∈ tails' i := hperm.mem_iff.mpr List.mem_cons_self
  have hcells : ∀ a, a ∈ cellsOf m'.toHeap t n ↔ a ∈ cellsOf m.toHeap t n ∨ a = .node m.tick := by
    intro a
    rw [I.shape.mem_cellsOf, hS.mem_cellsOf]
    constructor
    · rintro ⟨j, hj, ha⟩
      obtain rfl | ⟨b, hb, rfl⟩ := mem_chainOf.mp ha
      · exact .inl ⟨j, hj, mem_chainOf.mpr (.inl rfl)⟩
      · cases I.nodes j hj b hb with
        | inl hold => exact .inl ⟨j, hj, mem_chainOf.mpr (.inr ⟨b, hold, rfl⟩)⟩
        | inr htick =>
            right
            rw [htick]
    · rintro (⟨j, hj, ha⟩ | rfl)
      · obtain rfl | ⟨b, hb, rfl⟩ := mem_chainOf.mp ha
        · exact ⟨j, hj, mem_chainOf.mpr (.inl rfl)⟩
        · refine ⟨j, hj, mem_chainOf.mpr (.inr ⟨b, ?_, rfl⟩)⟩
          by_cases hji : j = i
          · subst hji
            exact hperm.mem_iff.mpr (List.mem_cons_of_mem _ hb)
          · exact (I.perm_of_ne hi hnew hj hji).mem_iff.mpr hb
      · exact ⟨i, hi, mem_chainOf.mpr (.inr ⟨m.tick, hnew, rfl⟩)⟩
  refine ⟨by omega, I.grants, ?_, ?_, ?_⟩
  · intro a ha ha'
    apply I.frame a
    · intro hin
      exact ha (hS.mem_cellsOf.mpr ⟨i, hi, hin⟩)
    · intro htick
      exact ha' ((hcells a).mpr (.inr htick))
  · intro a ha
    cases (hcells a).mp ha with
    | inl hold => exact .inl hold
    | inr htick =>
        right
        rw [htick]
        exact le_rfl
  · intro a ha ha'
    exact absurd ((hcells a).mpr (.inl ha)) ha'

/-- An insertion into a bucket whose chain reaches NULL. -/
theorem insertBucket_acts (hS : Shape m.toHeap t n tails back) (hb : back (hash.toNat % n) = none)
    {r : ℤ} (hr : Returns (fun f => insertBucket self f m t n hash key value) (r, m')) :
    Acts m.toHeap m'.toHeap (cellsOf m.toHeap t n) (cellsOf m'.toHeap t n) := by
  have hi : hash.toNat % n < n := Nat.mod_lt _ hS.pos
  cases hk : has self.compare (rowsOf m.toHeap t tails (hash.toNat % n)) key with
  | true =>
      obtain ⟨m₁, hr₁, I, htick, -⟩ := insertBucket_replace value hS hk
      obtain ⟨-, rfl⟩ := Prod.mk.inj (hr.unique hr₁)
      exact I.acts hS hi htick
  | false =>
      by_cases hn : none ∈ rowsOf m.toHeap t tails (hash.toNat % n)
      · obtain ⟨m₁, back', hr₁, I, htick, -⟩ := insertBucket_fill value hS hb hk hn
        obtain ⟨-, rfl⟩ := Prod.mk.inj (hr.unique hr₁)
        exact I.acts hS hi htick
      · cases hg : m.grants m.tick with
        | true =>
            obtain ⟨m₁, tails', back', hr₁, I, htick, -⟩ := insertBucket_append value hS hb hk hn hg
            obtain ⟨-, rfl⟩ := Prod.mk.inj (hr.unique hr₁)
            apply I.acts_longer hS hi _ htick
            rw [I.row, Rows.put, hk, if_neg (by simp), if_neg (by rwa [holed_iff]),
              List.length_append, List.length_singleton]
        | false =>
            have hr₁ := insertBucket_fail value hS hb hk hn hg
            obtain ⟨-, rfl⟩ := Prod.mk.inj (hr.unique hr₁)
            exact .pass _ _

end insert

/-! ### Freeing -/

section freeing
variable {self : NcHashmap K V} {nuke : Bool} {m m' : Mem K V} {t n : ℕ} {tails : ℕ → List ℕ}
  {back : ℕ → Option Loc} {ps : List (K × V)}

/-- The chains of a table and then the table itself are given back. -/
theorem freeTable_acts (hS : Shape m.toHeap t n tails back)
    (F : Freed self nuke m m' (fun a => ∃ i < n, ∃ b ∈ tails i, a = .node b) ps) :
    Acts m.toHeap (m'.toHeap.freeTable t) (cellsOf m.toHeap t n) ∅ := by
  have hslot : ∀ i, (m'.toHeap.freeTable t).cells (.slot t i) = none := fun i => if_pos rfl
  refine ⟨F.tick.ge, F.grants, ?_, fun a ha => absurd ha (Set.notMem_empty a), ?_⟩
  · intro a ha _
    by_cases hblock : ∃ i, a = .slot t i
    · obtain ⟨i, rfl⟩ := hblock
      have hi : n ≤ i := by
        by_contra hlt
        exact ha (hS.mem_cellsOf.mpr ⟨i, by omega, mem_chainOf.mpr (.inl rfl)⟩)
      rw [hslot, hS.table_none hi]
    · have hkept : m'.cells a = m.cells a := by
        apply F.kept
        rintro ⟨i, hi, b, hb, rfl⟩
        exact ha (hS.mem_cellsOf.mpr ⟨i, hi, mem_chainOf.mpr (.inr ⟨b, hb, rfl⟩)⟩)
      rw [← hkept]
      cases a with
      | slot u i => exact if_neg fun hu => hblock ⟨i, by rw [hu]⟩
      | node b => rfl
  · intro a ha _
    obtain ⟨i, hi, ha⟩ := hS.mem_cellsOf.mp ha
    obtain rfl | ⟨b, hb, rfl⟩ := mem_chainOf.mp ha
    · exact hslot i
    · exact F.freed _ ⟨i, hi, b, hb, rfl⟩

end freeing

/-- `nc_hashmap_free` gives back all cells of a map, and touches no other. -/
theorem free_acts {s : State K V} {tails : ℕ → List ℕ}
    (hS : Shape s.mem.toHeap s.self.buckets s.self.nBuckets tails fun _ => none) :
    ∃ m, Returns (fun f => free f s) m ∧ Acts s.mem.toHeap m.toHeap (footprint s) ∅ := by
  obtain ⟨m, hm, F⟩ := freeBuckets_table s.self true hS
  exact ⟨_, hm.bind (Returns.pure _), freeTable_acts hS F⟩

/-- A table fresh from `calloc` belongs to the one who asked for it. -/
theorem grantTable_acts (h : Heap (NcHashmapEntry K V)) {n : ℕ} (hn : 0 < n) :
    Acts h (h.grantTable n NcHashmapEntry.zero) ∅
      (cellsOf (h.grantTable n NcHashmapEntry.zero) h.tick n) := by
  have hS := (Shape.calloc h hn).1
  refine ⟨Nat.le_succ _, rfl, ?_, ?_, fun a ha => absurd ha (Set.notMem_empty a)⟩
  · intro a _ ha
    by_cases hblock : a.block = h.tick
    · -- behind the end of the table, or a node of the same number
      rw [h.fresh a hblock.ge]
      cases a with
      | slot t i =>
          obtain rfl : t = h.tick := hblock
          rw [Heap.grantTable_slot]
          apply if_neg
          intro hi
          exact ha (hS.mem_cellsOf.mpr ⟨i, hi, mem_chainOf.mpr (.inl rfl)⟩)
      | node b =>
          obtain rfl : b = h.tick := hblock
          exact h.fresh _ le_rfl
    · exact Heap.grantTable_ne _ _ _ hblock
  · intro a ha
    right
    obtain ⟨i, -, ha⟩ := hS.mem_cellsOf.mp ha
    obtain rfl | ⟨b, hb, -⟩ := mem_chainOf.mp ha
    · exact le_rfl
    · cases hb

theorem newInternal_acts {m : Mem K V} {create : K → UInt32} {compare : K → K → Bool}
    {keyFree valueFree : Bool} {s : State K V}
    (h : newInternal m create compare keyFree valueFree = some s) :
    Acts m.toHeap s.mem.toHeap ∅ (footprint s) := by
  unfold newInternal at h
  split at h
  · simp only [Heap.callocTable] at h
    split_ifs at h
    simp only [Option.some.injEq] at h
    subst h
    exact (Acts.pass m.toHeap ∅).trans (grantTable_acts m.pass (by decide))
  · cases h

/-! ### Resizing -/

section resizing
variable {map : NcHashmap K V} {m₀ m m' : Mem K V} {T N : ℕ} {tails : ℕ → List ℕ}

/-- The inner loop, wherever it takes the pairs from. -/
theorem rehashChain_acts {f : ℕ} {p : Option Loc} {items items' : ℤ} {ok : Bool}
    (B : Building m₀ T N tails m)
    (h : rehashChain map T N f p items m = .ok (ok, items', m')) :
    ∃ tails', Building m₀ T N tails' m' ∧
      Acts m.toHeap m'.toHeap (cellsOf m.toHeap T N) (cellsOf m'.toHeap T N) := by
  induction f generalizing p items m tails with
  | zero =>
      cases p with
      | none =>
          obtain ⟨-, -, rfl⟩ := Prod.mk.inj (Except.ok.inj h)
          exact ⟨tails, B, .refl _ _⟩
      | some a => cases h
  | succ f ih =>
      cases p with
      | none =>
          obtain ⟨-, -, rfl⟩ := Prod.mk.inj (Except.ok.inj h)
          exact ⟨tails, B, .refl _ _⟩
      | some a =>
          rw [rehashChain] at h
          split at h
          · cases h
          · rename_i e he
            split_ifs at h with hocc
            · obtain ⟨⟨r, m₁⟩, hr, h⟩ := ok_of_bind h
              have hret := (insertBucket_steady map m T N _ _ _).returns hr
              obtain ⟨r', m₂, tails₂, hr₂, B₂, -⟩ := B.insertBucket map _ e.hash e.value
              obtain ⟨-, rfl⟩ := Prod.mk.inj (hret.unique hr₂)
              have hacts := insertBucket_acts B.shape rfl hret
              simp only at h
              split_ifs at h
              · split at h
                · cases h
                · obtain ⟨tails', B', hrest⟩ := ih B₂ h
                  exact ⟨tails', B', hacts.trans hrest⟩
              · obtain ⟨-, -, rfl⟩ := Prod.mk.inj (Except.ok.inj h)
                exact ⟨tails₂, B₂, hacts⟩
            · exact ih B h

theorem rehash_acts {f : ℕ} {is : List ℕ} {items items' : ℤ} {ok : Bool}
    (B : Building m₀ T N tails m) (h : rehash map f T N is items m = .ok (ok, items', m')) :
    ∃ tails', Building m₀ T N tails' m' ∧
      Acts m.toHeap m'.toHeap (cellsOf m.toHeap T N) (cellsOf m'.toHeap T N) := by
  induction is generalizing items m tails with
  | nil =>
      obtain ⟨-, -, rfl⟩ := Prod.mk.inj (Except.ok.inj h)
      exact ⟨tails, B, .refl _ _⟩
  | cons i is ih =>
      rw [rehash] at h
      obtain ⟨⟨ok₁, items₁, m₁⟩, h₁, h⟩ := ok_of_bind h
      obtain ⟨tails₁, B₁, hacts⟩ := rehashChain_acts B h₁
      simp only at h
      split_ifs at h
      · obtain ⟨tails', B', hrest⟩ := ih B₁ h
        exact ⟨tails', B', hacts.trans hrest⟩
      · obtain ⟨-, -, rfl⟩ := Prod.mk.inj (Except.ok.inj h)
        exact ⟨tails₁, B₁, hacts⟩

theorem rehash_grant_acts {f : ℕ} {is : List ℕ} {items' : ℤ} {ok : Bool} (hN : 0 < N)
    (h : rehash map f m₀.tick N is 0
      { m₀ with toHeap := m₀.toHeap.grantTable N NcHashmapEntry.zero } = .ok (ok, items', m')) :
    ∃ tails', Building m₀ m₀.tick N tails' m' ∧
      Acts m₀.toHeap m'.toHeap ∅ (cellsOf m'.toHeap m₀.tick N) := by
  have hinit : Building m₀ m₀.tick N (fun _ => [])
      { m₀ with toHeap := m₀.toHeap.grantTable N NcHashmapEntry.zero } := .init hN
  obtain ⟨tails', B', hacts⟩ := rehash_acts hinit h
  exact ⟨tails', B', (grantTable_acts m₀.toHeap hN).trans hacts⟩

end resizing

variable {s s' : State K V} {tails : ℕ → List ℕ}

theorem resize_cases {f : ℕ} {ok : Bool} (h : resize f s = .ok (ok, s')) :
    (ok = false ∧ s' = { s with mem := { s.mem with toHeap := s.mem.pass } }) ∨
    ∃ items m m', rehash s.self f s.mem.tick (s.self.nBuckets * increaseFactor)
        (List.range s.self.nBuckets) 0
        { s.mem with
          toHeap := s.mem.grantTable (s.self.nBuckets * increaseFactor) NcHashmapEntry.zero }
          = .ok (ok, items, m) ∧
      ((ok = true ∧ freeBuckets s.self f s.self.buckets false (List.range s.self.nBuckets) m
            = .ok m' ∧
          s'.self.buckets = s.mem.tick ∧ s'.self.nBuckets = s.self.nBuckets * increaseFactor ∧
          s'.mem.toHeap = m'.toHeap.freeTable s.self.buckets) ∨
        (ok = false ∧ freeBuckets s.self f s.mem.tick true
            (List.range (s.self.nBuckets * increaseFactor)) m = .ok m' ∧
          s'.self = s.self ∧ s'.mem.toHeap = m'.toHeap.freeTable s.mem.tick)) := by
  unfold resize at h
  simp only [Heap.callocTable] at h
  split_ifs at h with hint hg
  · obtain ⟨⟨ok₁, items, m⟩, hr, h⟩ := ok_of_bind h
    simp only at h
    split_ifs at h with hok
    · obtain ⟨m', hm', h⟩ := ok_of_bind h
      obtain ⟨rfl, rfl⟩ := Prod.mk.inj (Except.ok.inj h)
      subst hok
      exact .inr ⟨items, m, m', hr, .inl ⟨rfl, hm', rfl, rfl, rfl⟩⟩
    · obtain ⟨m', hm', h⟩ := ok_of_bind h
      obtain ⟨rfl, rfl⟩ := Prod.mk.inj (Except.ok.inj h)
      obtain rfl : ok₁ = false := by simpa using hok
      exact .inr ⟨items, m, m', hr, .inr ⟨rfl, hm', rfl, rfl⟩⟩
  · obtain ⟨rfl, rfl⟩ := Prod.mk.inj (Except.ok.inj h)
    exact .inl ⟨rfl, rfl⟩

/-- The cells of the old table lie in older blocks than the new table. -/
theorem disjoint_building {m : Mem K V} {N : ℕ} {tails' : ℕ → List ℕ}
    (hS : Shape s.mem.toHeap s.self.buckets s.self.nBuckets tails fun _ => none)
    (B : Building s.mem s.mem.tick N tails' m) :
    Disjoint (footprint s) (cellsOf m.toHeap s.mem.tick N) := by
  rw [Set.disjoint_left]
  intro a ha ha'
  obtain ⟨i, hi, ha⟩ := hS.mem_cellsOf.mp ha
  obtain ⟨j, hj, ha'⟩ := B.shape.mem_cellsOf.mp ha'
  have hlt := hS.block_le hi ha
  have hge := B.mem_block hj ha'
  omega

/-- Giving back the old table after the new one is built. -/
theorem resize_swaps {m m' : Mem K V} {N : ℕ} {tails' : ℕ → List ℕ} {ps : List (K × V)}
    (hS : Shape s.mem.toHeap s.self.buckets s.self.nBuckets tails fun _ => none)
    (B : Building s.mem s.mem.tick N tails' m)
    (hbuild : Acts s.mem.toHeap m.toHeap (footprint s)
      (cellsOf m.toHeap s.mem.tick N ∪ footprint s))
    (hS₁ : Shape m.toHeap s.self.buckets s.self.nBuckets tails fun _ => none)
    (F : Freed s.self false m m' (fun a => ∃ i < s.self.nBuckets, ∃ b ∈ tails i, a = .node b) ps) :
    Shape (m'.toHeap.freeTable s.self.buckets) s.mem.tick N tails' (fun _ => none) ∧
      Acts s.mem.toHeap (m'.toHeap.freeTable s.self.buckets) (footprint s)
        (cellsOf (m'.toHeap.freeTable s.self.buckets) s.mem.tick N) := by
  have ht : s.self.buckets < s.mem.tick := hS.block_le hS.pos (mem_chainOf.mpr (.inl rfl))
  have hgone := freeTable_acts hS₁ F
  rw [show cellsOf m.toHeap s.self.buckets s.self.nBuckets = footprint s from hS.cellsOf_eq hS₁]
    at hgone
  have hsame := (hgone.elsewhere (disjoint_building hS B) fun a ha => B.shape.isSome ha).2
  have hbehind : ∀ i, N ≤ i →
      (m'.toHeap.freeTable s.self.buckets).cells (.slot s.mem.tick i) = none := by
    intro i hi
    rw [Heap.freeTable_ne _ (by change s.mem.tick ≠ s.self.buckets; omega), F.kept]
    · exact B.shape.table_none hi
    · rintro ⟨j, -, b, -, hne⟩
      cases hne
  have hS' := B.shape.elsewhere hbehind hsame
  refine ⟨hS', ?_⟩
  rw [B.shape.cellsOf_eq hS']
  have hlast := hgone.frame_rule (cellsOf m.toHeap s.mem.tick N)
  rw [Set.empty_union, Set.union_comm] at hlast
  exact hbuild.trans hlast

theorem resize_undoes {m m' : Mem K V} {N : ℕ} {tails' : ℕ → List ℕ} {ps : List (K × V)}
    (hS : Shape s.mem.toHeap s.self.buckets s.self.nBuckets tails fun _ => none)
    (B : Building s.mem s.mem.tick N tails' m)
    (hbuild : Acts s.mem.toHeap m.toHeap (footprint s)
      (cellsOf m.toHeap s.mem.tick N ∪ footprint s))
    (F : Freed s.self true m m' (fun a => ∃ i < N, ∃ b ∈ tails' i, a = .node b) ps) :
    Shape (m'.toHeap.freeTable s.mem.tick) s.self.buckets s.self.nBuckets tails (fun _ => none) ∧
      Acts s.mem.toHeap (m'.toHeap.freeTable s.mem.tick) (footprint s)
        (cellsOf (m'.toHeap.freeTable s.mem.tick) s.self.buckets s.self.nBuckets) := by
  have ht : s.self.buckets < s.mem.tick := hS.block_le hS.pos (mem_chainOf.mpr (.inl rfl))
  have hgone := (freeTable_acts B.shape F).frame_rule (footprint s)
  rw [Set.empty_union] at hgone
  have hsame : ∀ a, a.block < s.mem.tick →
      (m'.toHeap.freeTable s.mem.tick).cells a = s.mem.cells a := by
    intro a ha
    rw [Heap.freeTable_ne _ (by omega), F.kept, B.frame a ha]
    rintro ⟨i, hi, b, hb, rfl⟩
    have hge := B.nodes i hi b hb
    exact absurd ha (by simp only [Loc.block]; omega)
  have hS' := hS.later hsame ht fun i hi a ha => hS.block_le hi ha
  refine ⟨hS', ?_⟩
  rw [hS.cellsOf_eq hS']
  exact hbuild.trans hgone

/-- A resize owns the new table afterwards, or the old one as before. -/
theorem resize_acts (hS : Shape s.mem.toHeap s.self.buckets s.self.nBuckets tails fun _ => none)
    {ok : Bool} (hr : Returns (fun f => resize f s) (ok, s')) :
    (∃ tails', Shape s'.mem.toHeap s'.self.buckets s'.self.nBuckets tails' fun _ => none) ∧
      Acts s.mem.toHeap s'.mem.toHeap (footprint s) (footprint s') := by
  obtain ⟨f, hf⟩ := hr.exists
  have hN : 0 < s.self.nBuckets * increaseFactor := Nat.mul_pos hS.pos (by decide)
  have ht : s.self.buckets < s.mem.tick := hS.block_le hS.pos (mem_chainOf.mpr (.inl rfl))
  obtain ⟨-, rfl⟩ | ⟨items, m, m', hrehash, hend⟩ := resize_cases hf
  · exact ⟨⟨tails, hS.of_cells rfl⟩, .pass _ _⟩
  obtain ⟨tails', B, hbuild⟩ := rehash_grant_acts hN hrehash
  have hboth := hbuild.frame_rule (footprint s)
  rw [Set.empty_union] at hboth
  -- the old table is still there
  have hS₁ := hS.later B.frame ht fun i hi a ha => hS.block_le hi ha
  obtain ⟨-, hfree, hbuckets, hn, hheap⟩ | ⟨-, hfree, hself, hheap⟩ := hend
  · obtain ⟨m₂, hm₂, F⟩ := freeBuckets_table s.self false hS₁
    obtain rfl := ((freeBuckets_steady _ _ _ _ _).returns hfree).unique hm₂
    have hswap := resize_swaps hS B hboth hS₁ F
    rw [← hheap, ← hbuckets, ← hn] at hswap
    exact ⟨⟨tails', hswap.1⟩, hswap.2⟩
  · obtain ⟨m₂, hm₂, F⟩ := freeBuckets_table s.self true B.shape
    obtain rfl := ((freeBuckets_steady _ _ _ _ _).returns hfree).unique hm₂
    have hundo := resize_undoes hS B hboth F
    have hfoot : footprint s' = cellsOf s'.mem.toHeap s.self.buckets s.self.nBuckets := by
      rw [footprint, hself]
    rw [hfoot, hself, hheap]
    exact ⟨⟨tails, hundo.1⟩, hundo.2⟩

/-! ### Puts and removals -/

theorem storeIn_acts {key : K} {value : V}
    (hS : Shape s.mem.toHeap s.self.buckets s.self.nBuckets tails fun _ => none) {ok : Bool}
    (hr : Returns (fun f => storeIn f s key value) (ok, s')) :
    Acts s.mem.toHeap s'.mem.toHeap (footprint s) (footprint s') := by
  obtain ⟨f, hf⟩ := hr.exists
  rw [storeIn] at hf
  obtain ⟨⟨inc, m⟩, hins, hf⟩ := ok_of_bind hf
  have hacts := insertBucket_acts hS rfl ((insertBucket_steady _ _ _ _ _ _ _).returns hins)
  simp only at hf
  split_ifs at hf
  · obtain ⟨-, rfl⟩ := Prod.mk.inj (Except.ok.inj hf)
    exact hacts
  · obtain ⟨-, rfl⟩ := Prod.mk.inj (Except.ok.inj hf)
    exact hacts

theorem put_cases {f : ℕ} {key : K} {value : V} {ok : Bool} (h : put f s key value = .ok (ok, s')) :
    (s.self.maybeResize = false ∧ storeIn f s key value = .ok (ok, s')) ∨
    (s.self.maybeResize = true ∧ ∃ ok₁ s₁, resize f s = .ok (ok₁, s₁) ∧
      ((ok₁ = true ∧ storeIn f s₁ key value = .ok (ok, s')) ∨
        (ok₁ = false ∧ ok = false ∧ s' = s₁))) := by
  cases hr : s.self.maybeResize with
  | false =>
      left
      refine ⟨rfl, ?_⟩
      rwa [put_keep hr] at h
  | true =>
      right
      refine ⟨rfl, ?_⟩
      unfold put at h
      rw [hr, if_pos rfl] at h
      obtain ⟨⟨ok₁, s₁⟩, h₁, h⟩ := ok_of_bind h
      refine ⟨ok₁, s₁, h₁, ?_⟩
      cases ok₁ with
      | true =>
          left
          exact ⟨rfl, h⟩
      | false =>
          right
          obtain ⟨rfl, rfl⟩ := Prod.mk.inj (Except.ok.inj h)
          exact ⟨rfl, rfl, rfl⟩

theorem storeIn_steady (s : State K V) (key : K) (value : V) :
    Steady fun f => storeIn f s key value := by
  apply (insertBucket_steady _ _ _ _ _ _ _).bind
  rintro ⟨inc, m⟩
  simp only
  split_ifs <;> exact .const _

theorem put_acts {key : K} {value : V}
    (hS : Shape s.mem.toHeap s.self.buckets s.self.nBuckets tails fun _ => none) {ok : Bool}
    (hr : Returns (fun f => put f s key value) (ok, s')) :
    Acts s.mem.toHeap s'.mem.toHeap (footprint s) (footprint s') := by
  obtain ⟨f, hf⟩ := hr.exists
  obtain ⟨-, hstore⟩ | ⟨-, ok₁, s₁, hres, hend⟩ := put_cases hf
  · exact storeIn_acts hS ((storeIn_steady _ _ _).returns hstore)
  · obtain ⟨⟨tails₁, hS₁⟩, hacts⟩ := resize_acts hS ((resize_steady _).returns hres)
    obtain ⟨-, hstore⟩ | ⟨-, -, rfl⟩ := hend
    · exact hacts.trans (storeIn_acts hS₁ ((storeIn_steady _ _ _).returns hstore))
    · exact hacts

omit [Null K] [Null V] in
theorem entryScan_reaches {self : NcHashmap K V} {m : Mem K V} {key : K} {f : ℕ} {p : Option Loc}
    {a : Loc} (h : entryScan self m key f p = .ok (some a)) :
    Reaches NcHashmapEntry.next m.cells p a := by
  induction f generalizing p with
  | zero =>
      cases p with
      | none => cases h
      | some b => cases h
  | succ f ih =>
      cases p with
      | none => cases h
      | some b =>
          rw [entryScan] at h
          split at h
          · cases h
          · rename_i e he
            split_ifs at h
            · obtain rfl := Option.some.inj (Except.ok.inj h)
              exact .here he
            · exact .step he (ih h)

/-- A removal writes to one entry, and allocates and frees nothing. -/
theorem removeInternal_acts {key : K} {remove : Bool}
    (hS : Shape s.mem.toHeap s.self.buckets s.self.nBuckets tails fun _ => none) {ok : Bool}
    (hr : Returns (fun f => removeInternal f s key remove) (ok, s')) :
    Acts s.mem.toHeap s'.mem.toHeap (footprint s) (footprint s') := by
  obtain ⟨f, hf⟩ := hr.exists
  rw [removeInternal] at hf
  obtain ⟨found, hfound, hf⟩ := ok_of_bind hf
  cases found with
  | none =>
      obtain ⟨-, rfl⟩ := Prod.mk.inj (Except.ok.inj hf)
      exact .refl _ _
  | some a =>
      simp only at hf
      split at hf
      · cases hf
      · rename_i e he
        obtain ⟨-, rfl⟩ := Prod.mk.inj (Except.ok.inj hf)
        have hi : (s.self.hash key).toNat % s.self.nBuckets < s.self.nBuckets :=
          Nat.mod_lt _ hS.pos
        have ha := entryScan_reaches hfound
        have hS' : Shape (vacate s a (e.hash, e.value) remove).mem.toHeap s.self.buckets
            s.self.nBuckets tails fun _ => none := by
          rw [vacate_heap]
          exact hS.rewrite hi ((hS.reaches_iff hi).mp ha) (fun _ => rfl) fun _ _ _ => ⟨rfl, rfl⟩
        change Acts _ (vacate s a (e.hash, e.value) remove).mem.toHeap (footprint s)
          (cellsOf (vacate s a (e.hash, e.value) remove).mem.toHeap s.self.buckets s.self.nBuckets)
        rw [hS.cellsOf_eq hS', vacate_heap]
        refine ⟨le_rfl, rfl, ?_, fun b hb => .inl hb, fun b hb hn => absurd hb hn⟩
        intro b hb _
        apply Heap.update_ne
        rintro rfl
        exact hb ⟨_, hi, ha⟩

end NcHashmap
end Nica
