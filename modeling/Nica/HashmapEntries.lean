import Nica.HashmapRuns
import Mathlib.Data.List.Perm.Basic

/-! # The entries of a map

`Listing s ps` says that `ps` are the pairs of the occupied entries of a map, one for each entry, and
`Tidy s` that no unoccupied entry is left in a chain: the only ones are bucket slots without a
successor.  A resize turns any well-formed map into a tidy one with the same entries
(`resize_rebuilds`).  Lookup, removal and iteration see these entries alike, but
`nc_hashmap_contains` asks for the value of the entry (`membership_agrees`). -/

namespace Nica

open Blocks Linked Rows Fueled NcHashmap

variable {K V : Type} [Null K] [Null V]

/-- `ps` are the pairs of the entries of the map, one for each entry. -/
def Listing (s : State K V) (ps : List (K × V)) : Prop :=
  ∃ nodes, Entries s nodes ps ∧ ∀ a k v, OccupiedAt s a k v → a ∈ nodes

/-- Every unoccupied entry is a bucket slot without a successor. -/
def Tidy (s : State K V) : Prop :=
  ∀ i < s.self.nBuckets, ∀ a e,
    Reaches NcHashmapEntry.next s.mem.cells (some (.slot s.self.buckets i)) a →
    s.mem.cells a = some e → e.occ = false → a = .slot s.self.buckets i ∧ e.next = none

section shape
variable {s : State K V} {tails : ℕ → List ℕ} {back : ℕ → Option Loc}

theorem Shape.listing (hS : Shape s.mem.toHeap s.self.buckets s.self.nBuckets tails back) :
    Listing s (contents (rowsOf s.mem.toHeap s.self.buckets tails) s.self.nBuckets) := by
  have shown : ∀ xs : List Loc,
      List.Forall₂ (fun a p => viewAt s.mem.toHeap a = some p)
        (xs.filter fun a => (viewAt s.mem.toHeap a).isSome) (pairs (rowOf s.mem.toHeap xs)) := by
    intro xs
    induction xs with
    | nil => exact .nil
    | cons a xs ih =>
        cases ha : viewAt s.mem.toHeap a with
        | none =>
            rw [rowOf_cons, ha, pairs_hole, List.filter_cons_of_neg (by simp [ha])]
            exact ih
        | some p =>
            rw [rowOf_cons, ha, pairs_pair, List.filter_cons_of_pos (by simp [ha])]
            exact .cons ha ih
  refine ⟨(cellsFrom s.self.buckets tails s.self.nBuckets 0).filter
    fun a => (viewAt s.mem.toHeap a).isSome, ⟨hS.nodup_cells.filter _, ?_⟩, fun a k v h => ?_⟩
  · rw [contents_rowsOf]
    refine ((List.forall₂_and_left _ _).mpr
      ⟨fun a ha => List.mem_of_mem_filter ha, shown _⟩).imp fun a p h => ?_
    exact hS.occupiedAt_cells.mpr h
  · obtain ⟨ha, hv⟩ := (hS.occupiedAt_cells (p := (k, v))).mp h
    rw [List.mem_filter, hv]
    exact ⟨ha, rfl⟩

theorem Shape.tidy (hS : Shape s.mem.toHeap s.self.buckets s.self.nBuckets tails fun _ => none)
    (hd : ∀ i < s.self.nBuckets, Dense (rowsOf s.mem.toHeap s.self.buckets tails i)) : Tidy s := by
  intro i hi a e hr he ho
  have ha := (hS.reaches_iff hi).mp hr
  have hrow : rowsOf s.mem.toHeap s.self.buckets tails i = [none] := by
    refine (hd i hi).resolve_right fun hn => hn (List.mem_map.mpr ⟨a, ha, ?_⟩)
    rw [viewAt_eq he, NcHashmapEntry.view_blank ho]
  -- the chain is its slot
  have htail : tails i = [] := by
    have hlen := congrArg List.length hrow
    rw [rowsOf, rowOf, List.length_map, chainOf, List.length_cons, List.length_map] at hlen
    exact List.length_eq_zero_iff.mp (Nat.succ.inj hlen)
  have hchain : chainOf s.self.buckets tails i = [.slot s.self.buckets i] := by
    rw [chainOf, htail, List.map_nil]
  have hpath := hS.path i hi
  rw [hchain] at ha hpath
  obtain rfl := List.mem_singleton.mp ha
  obtain ⟨-, d, hd, hn⟩ := hpath
  obtain rfl := Option.some.inj (he.symm.trans hd)
  exact ⟨rfl, hn⟩

end shape

omit [Null K] [Null V] in
theorem Listing.perm {s : State K V} {ps qs : List (K × V)} (hp : Listing s ps)
    (hq : Listing s qs) : ps.Perm qs := by
  have shown : ∀ {xs : List Loc} {rs : List (K × V)},
      List.Forall₂ (fun a p => OccupiedAt s a p.1 p.2) xs rs →
        rs.map some = xs.map (viewAt s.mem.toHeap) := by
    intro xs rs h
    induction h with
    | nil => rfl
    | cons h _ ih =>
        rw [List.map_cons, List.map_cons, ih, viewAt_eq_some.mpr h.2]
  have mem : ∀ {xs : List Loc} {rs : List (K × V)},
      List.Forall₂ (fun a p => OccupiedAt s a p.1 p.2) xs rs → ∀ a ∈ xs,
        ∃ k v, OccupiedAt s a k v := by
    intro xs rs h
    induction h with
    | nil => simp
    | cons h _ ih => exact List.forall_mem_cons.mpr ⟨⟨_, _, h⟩, ih⟩
  obtain ⟨xs, hx, hallx⟩ := hp
  obtain ⟨ys, hy, hally⟩ := hq
  have hperm : xs.Perm ys := by
    refine (List.perm_ext_iff_of_nodup hx.1 hy.1).mpr fun a => ⟨fun ha => ?_, fun ha => ?_⟩
    · obtain ⟨k, v, h⟩ := mem hx.2 a ha
      exact hally a k v h
    · obtain ⟨k, v, h⟩ := mem hy.2 a ha
      exact hallx a k v h
  have hmap := hperm.map (viewAt s.mem.toHeap)
  rw [← shown hx.2, ← shown hy.2] at hmap
  exact (List.map_perm_map_iff (Option.some_injective _)).mp hmap

omit [Null K] [Null V] in
theorem Listing.mem_iff {s : State K V} {ps : List (K × V)} (hp : Listing s ps) {k : K} {v : V} :
    (k, v) ∈ ps ↔ Holds s k v := by
  obtain ⟨nodes, ⟨-, h⟩, hall⟩ := hp
  constructor
  · intro hm
    clear hall
    induction h with
    | nil => cases hm
    | cons h _ ih =>
        rcases List.mem_cons.mp hm with rfl | hm
        · exact ⟨_, h⟩
        · exact ih hm
  · rintro ⟨a, ha⟩
    have hmem := hall a k v ha
    clear hall
    induction h with
    | nil => cases hmem
    | cons h _ ih =>
        rcases List.mem_cons.mp hmem with rfl | hmem
        · obtain ⟨-, e, he, -, h₁, h₂⟩ := ha
          obtain ⟨-, e', he', -, h₁', h₂'⟩ := h
          obtain rfl := Option.some.inj (he.symm.trans he')
          refine List.mem_cons.mpr (.inl (Prod.ext ?_ ?_))
          · exact h₁.symm.trans h₁'
          · exact h₂.symm.trans h₂'
        · exact List.mem_cons_of_mem _ (ih hmem)

/-- The entries of a well-formed map; if its keys equal themselves, no two are the same pair. -/
theorem WellFormed.exists_listing {s : State K V} (wf : WellFormed s) :
    ∃ ps, Listing s ps ∧ s.self.size = ps.length ∧
      ((∀ k v, Holds s k v → s.self.compare k k = true) → ps.Nodup) := by
  obtain ⟨tails, T, hu, hn⟩ := wf.everywhere.table
  refine ⟨_, T.toShape.listing, hn, fun hrefl => hu.imp_of_mem fun {p q} hp _ hpq => ?_⟩
  rintro rfl
  rw [hrefl p.1 p.2 (T.holds_iff.mpr hp)] at hpq
  cases hpq

/-! ### Resizing -/

section resize
variable {s : State K V} {tails : ℕ → List ℕ}

theorem rehash_granted
    (hS : Shape s.mem.toHeap s.self.buckets s.self.nBuckets tails fun _ => none)
    (hu : Uniq s.self.compare
      (contents (rowsOf s.mem.toHeap s.self.buckets tails) s.self.nBuckets))
    (hg : ∀ i, s.mem.grants i = true) :
    ∃ m, Returns (fun f => rehash s.self f s.mem.tick (s.self.nBuckets * increaseFactor)
      (List.range s.self.nBuckets) 0
      { s.mem with
        toHeap := s.mem.grantTable (s.self.nBuckets * increaseFactor) NcHashmapEntry.zero })
      (true, ((contents (rowsOf s.mem.toHeap s.self.buckets tails) s.self.nBuckets).length : ℤ),
        m) := by
  have hN : 0 < s.self.nBuckets * increaseFactor := Nat.mul_pos hS.pos (by decide)
  obtain ⟨ok, items, m, tails', hr, ⟨rfl, rfl, -⟩ | ⟨-, S⟩⟩ :=
    (Copied.init s.self (fun _ => True) hN (hg _)).rehash
      (fun i hi => hS.path i (List.mem_range.mp hi)) (fun _ _ _ _ => trivial) hu 0
  · rw [Int.zero_add] at hr
    exact ⟨m, hr⟩
  · obtain ⟨j, -, -, hj, -⟩ := S.refused
    rw [hg] at hj
    cases hj

/-- A resize of a well-formed map with enough memory succeeds.  The new table has four times as many
slots; it is well-formed and tidy, it holds the entries of the old one, and no entry went to the
cleanup functions.  The copying itself ends with the number of entries: no insertion met an equal
key, and none failed. -/
theorem resize_rebuilds (L : LawfulBesideNull s.self.hash s.self.compare) (wf : WellFormed s)
    (hg : ∀ i, s.mem.grants i = true) (hint : s.self.nBuckets * increaseFactor ≤ intMax) :
    ∃ s', Returns (fun f => resize f s) (true, s') ∧
      s'.self.nBuckets = s.self.nBuckets * 4 ∧ WellFormed s' ∧ ChainsEnd s' ∧ Tidy s' ∧
      (∃ ps ps', Listing s ps ∧ Listing s' ps' ∧ ps'.Perm ps ∧ s'.self.size = ps'.length) ∧
      s'.self.nextSize = fullSize s'.self.nBuckets ∧ s'.mem.log = s.mem.log ∧
      ∃ m, Returns (fun f => rehash s.self f s.mem.tick s'.self.nBuckets
        (List.range s.self.nBuckets) 0
        { s.mem with toHeap := s.mem.grantTable s'.self.nBuckets NcHashmapEntry.zero })
        (true, s'.self.size, m) := by
  obtain ⟨tails, T, hu, -⟩ := wf.everywhere.table
  obtain ⟨s', tails', hr, R⟩ := resize_succeeds (D := fun _ => True) T.toShape
    (fun _ _ => trivial) hu hint hg
  have hself := R.self
  have hn : s'.self.nBuckets = s.self.nBuckets * increaseFactor := by rw [hself]
  have hsize : s'.self.size =
      (contents (rowsOf s.mem.toHeap s.self.buckets tails) s.self.nBuckets).length := by
    rw [hself]
  have hsize' : s'.self.size =
      (contents (rowsOf s'.mem.toHeap s'.self.buckets tails') s'.self.nBuckets).length := by
    rw [hsize, R.pairs.length_eq]
  have wf' : WellFormed s' :=
    (R.table.wellFormed (by rw [hself]; exact L.everywhere) hsize').wellFormed
  refine ⟨s', hr, hn, wf', wf'.chainsEnd, R.table.toShape.tidy R.dense,
    ⟨_, _, T.toShape.listing, R.table.toShape.listing, R.pairs, hsize'⟩, by rw [hself], R.log, ?_⟩
  rw [hn, hsize]
  exact rehash_granted T.toShape hu hg

end resize

/-- A resize of a map with the key NULL and a hole before the key 62. -/
theorem resize_rebuilds_worn : ∃ s s' : State UInt64 UInt64, worn 0 = .ok s ∧
    bucketRow s 1 = some [none, some (62, 162)] ∧ Returns (fun f => resize f s) (true, s') ∧
    s'.self.nBuckets = 244 ∧ s'.self.nextSize = 170 ∧ Tidy s' ∧
    ∀ k v, Holds s' k v ↔ (k, v) ∈ wornPairs 0 := by
  obtain ⟨s, hs, W, hn, -, hrow, -⟩ := exists_worn (show (0 : UInt64) ∈ [0, 42] by decide)
  obtain ⟨s', hr, hn', -, -, htidy, ⟨ps, ps', hps, hps', hperm, -⟩, hnext, -⟩ :=
    resize_rebuilds W.lawful W.wellFormed W.grants (by rw [hn]; decide)
  refine ⟨s, s', hs, hrow, hr, by rw [hn', hn], by rw [hnext, hn', hn]; decide, htidy,
    fun k v => ?_⟩
  rw [← hps'.mem_iff, hperm.mem_iff, hps.mem_iff, W.holds]

/-! ### Membership -/

section membership
variable [DecidableEq V] {s : State K V} {key : K}

/-- `nc_hashmap_contains`, a removal and a whole iteration tell alike whether the map has the key. -/
def MembershipAgrees (s : State K V) (key : K) : Prop :=
  ∃ c ok s' ps, Returns (fun f => contains f s key) c ∧ Returns (fun f => remove f s key) (ok, s') ∧
    Returns (fun f => drain s f iterInit) ps ∧ (c = true ↔ ok = true) ∧
    (c = true ↔ ∃ p ∈ ps, s.self.compare p.1 key = true)

omit [Null K] in
theorem contains_of_get {v : V} (hr : Returns (fun f => get f s key) v) :
    Returns (fun f => contains f s key) (decide (v ≠ null)) := hr.bind (Returns.pure _)

/-- Removal and iteration always agree, so only `nc_hashmap_contains` can differ. -/
theorem membershipAgrees_iff (L : LawfulKeys s.self.hash s.self.compare)
    (wf : WellFormedOn NonNull s) (hk : NonNull key) {c : Bool}
    (hc : Returns (fun f => contains f s key) c) :
    MembershipAgrees s key ↔ (c = true ↔ ∃ k v, Holds s k v ∧ s.self.compare k key = true) := by
  obtain ⟨tails, T, -⟩ := wf.table
  obtain ⟨ok, s', hremove, -, hok, -⟩ := remove_spec L.toLawful wf hk (L.null_ne key hk) true
  have hdrain := drain_contents T.toShape (iterInit_at s tails)
  rw [← contents_rowsOf] at hdrain
  have hseen : (∃ p ∈ contents (rowsOf s.mem.toHeap s.self.buckets tails) s.self.nBuckets,
      s.self.compare p.1 key = true) ↔ ∃ k v, Holds s k v ∧ s.self.compare k key = true := by
    simp only [T.holds_iff, Prod.exists]
  constructor
  · rintro ⟨c', ok', s'', ps, hc', hremove', -, hagree, -⟩
    obtain rfl := hc.unique hc'
    obtain ⟨rfl, -⟩ := Prod.mk.inj (hremove.unique hremove')
    rw [hagree, hok]
  · intro hagree
    exact ⟨c, ok, s', _, hc, hremove, hdrain, by rw [hagree, hok], by rw [hagree, hseen]⟩

/-- The three agree exactly when the map does not hold NULL for the key. -/
theorem membership_agrees (L : LawfulKeys s.self.hash s.self.compare) (wf : WellFormed s)
    (hkeys : ∀ k v, Holds s k v → NonNull k) (hk : NonNull key) :
    MembershipAgrees s key ↔ ¬ ∃ k, Holds s k null ∧ s.self.compare k key = true := by
  have wf : WellFormedOn NonNull s := ⟨wf, hkeys⟩
  obtain ⟨hpresent, habsent⟩ := get_spec L.toLawful wf hk (L.null_ne key hk)
  by_cases h : ∃ k v, Holds s k v ∧ s.self.compare k key = true
  · obtain ⟨k, v, hkv, hc⟩ := h
    have hin : ∃ k v, Holds s k v ∧ s.self.compare k key = true := ⟨k, v, hkv, hc⟩
    rw [membershipAgrees_iff L wf hk (contains_of_get (hpresent k v hkv hc)), iff_true_right hin,
      decide_eq_true_iff, ne_eq, not_iff_not]
    constructor
    · rintro rfl
      exact ⟨k, hkv, hc⟩
    · rintro ⟨k', hnull, hc'⟩
      exact (hpresent k v hkv hc).unique (hpresent k' null hnull hc')
  · have hno : ∀ k v, Holds s k v → s.self.compare k key = false := fun k v hkv =>
      Bool.eq_false_iff.mpr fun hc => h ⟨k, v, hkv, hc⟩
    rw [membershipAgrees_iff L wf hk (contains_of_get (habsent hno))]
    exact iff_of_true (iff_of_false (by simp) h) fun ⟨k, hkv, hc⟩ => h ⟨k, null, hkv, hc⟩

end membership

/-- A new map in which NULL was stored for the key 5 does not contain 5, although 5 can be
removed. -/
theorem membership_disagrees : ∃ s₀ s s' : State UInt64 UInt64,
    new (Mem.granting UInt64 UInt64) ncSimpleHash ncSimpleCompare = some s₀ ∧
    Returns (fun f => put f s₀ 5 0) (true, s) ∧
    WellFormed s ∧ LawfulKeys s.self.hash s.self.compare ∧
    Returns (fun f => contains f s 5) false ∧ Returns (fun f => remove f s 5) (true, s') ∧
    ¬ MembershipAgrees s 5 := by
  obtain ⟨s₀, h₀⟩ := newInternal_granted (m := Mem.granting UInt64 UInt64)
    (fun _ => rfl) ncSimpleHash ncSimpleCompare false false
  obtain ⟨-, -, hself, hgrants⟩ := newInternal_table h₀ NonNull
  have L₀ : LawfulKeys s₀.self.hash s₀.self.compare := by
    rw [hself]
    exact simple_lawful.toLawfulKeys
  have hk : NonNull (5 : UInt64) := by decide
  obtain ⟨s, hput, A, F, -⟩ := (newInternal_filled h₀).put L₀.toLawful hk 0
    (fun i => by rw [hgrants]; rfl) (by rw [hself]; exact (by decide : (0 : ℤ) < 2 ^ 29))
  have L : LawfulKeys s.self.hash s.self.compare := by
    rw [A.hash, A.compare]
    exact L₀
  have wf := F.wellFormed L.toLawful
  have hheld : Holds s 5 0 := (A.holds 5 0).mpr (.inl ⟨rfl, rfl⟩)
  have hself : s.self.compare 5 5 = true := L.refl 5 hk
  have hnull := L.null_ne 5 hk
  obtain ⟨ok, s', hremove, -, hok, -⟩ := remove_spec L.toLawful wf hk hnull true
  obtain rfl : ok = true := hok.mpr ⟨5, 0, hheld, hself⟩
  have hcontains := contains_of_get ((get_spec L.toLawful wf hk hnull).1 5 0 hheld hself)
  refine ⟨s₀, s, s', h₀, hput, wf.wellFormed, L, hcontains, hremove, fun hagree => ?_⟩
  exact absurd ((membershipAgrees_iff L wf hk hcontains).mp hagree).mpr
    fun h => Bool.false_ne_true (h ⟨5, 0, hheld, hself⟩)

/-- They agree on the key 62 behind a hole and on the key 1 that was removed. -/
theorem membership_agrees_worn : ∃ s : State UInt64 UInt64, worn 42 = .ok s ∧
    bucketRow s 1 = some [none, some (62, 162)] ∧ MembershipAgrees s 62 ∧ MembershipAgrees s 1 := by
  obtain ⟨s, hs, W, -, -, hrow, -⟩ := exists_worn (show (42 : UInt64) ∈ [0, 42] by decide)
  have hpairs := List.forall_iff_forall_mem.mp
    (show (wornPairs 42).Forall fun p => NonNull p.1 ∧ p.2 ≠ 0 by decide +kernel)
  have hkeys : ∀ k v, Holds s k v → NonNull k := fun k v h =>
    (hpairs (k, v) ((W.holds k v).mp h)).1
  have hvalues : ∀ k, ¬ Holds s k 0 := fun k h => (hpairs (k, 0) ((W.holds k 0).mp h)).2 rfl
  exact ⟨s, hs, hrow,
    (membership_agrees W.lawful.toLawfulKeys W.wellFormed hkeys (by decide)).mpr
      fun ⟨k, h, _⟩ => hvalues k h,
    (membership_agrees W.lawful.toLawfulKeys W.wellFormed hkeys (by decide)).mpr
      fun ⟨k, h, _⟩ => hvalues k h⟩

end Nica
