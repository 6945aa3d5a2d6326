import Nica.HashmapEntries

/-! # The order of insertions

A map that is only added to is tidy, and its sizes depend on the number of puts only: `grow` is what
one put of a new key makes of them (`Filled.put_new`).  So two runs of the same puts in different
order lead to maps that cannot be told apart by their sizes, by lookups or by the pairs that an
iteration yields (`puts_commute`), although their chains may differ. -/

namespace Nica

open Blocks Linked Rows Fueled NcHashmap

variable {K V : Type} [Null K] [Null V]

/-- The sizes of map and table after a put of a new key. -/
def grow (x : ℤ × ℕ) : ℤ × ℕ :=
  (x.1 + 1, if ((x.2 * 7 / 10 : ℕ) : ℤ) ≤ x.1 then x.2 * increaseFactor else x.2)

def sizes (s : State K V) : ℤ × ℕ := (s.self.size, s.self.nBuckets)

variable {D : K → Prop} {s : State K V} {key : K}

theorem Filled.nextSize (F : Filled D s) : s.self.nextSize = (s.self.nBuckets * 7 / 10 : ℕ) := by
  obtain ⟨tails, P⟩ := F
  exact P.nextSize

theorem Filled.tidy (F : Filled D s) : Tidy s := by
  obtain ⟨tails, P⟩ := F
  exact P.table.toShape.tidy P.dense

theorem Filled.put_new (L : LawfulKeys s.self.hash s.self.compare) (F : Filled NonNull s)
    (hk : NonNull key) (value : V) (hg : ∀ i, s.mem.grants i = true) (hsize : s.self.size < 2 ^ 29)
    (hnew : ∀ k v, Holds s k v → s.self.compare k key = false) :
    ∃ s', Returns (fun f => NcHashmap.put f s key value) (true, s') ∧ Added s s' key value ∧
      Filled NonNull s' ∧ sizes s' = grow (sizes s) := by
  obtain ⟨s', hr, A, F', -⟩ := F.put L.toLawful hk value hg hsize
  have L' : Lawful NonNull s'.self.hash s'.self.compare := by
    rw [A.hash, A.compare]
    exact L.toLawful
  have hint : s.self.maybeResize = true → s.self.nBuckets * increaseFactor ≤ intMax := by
    intro hres
    obtain ⟨tails, P⟩ := F
    exact P.mul_le_intMax hres hsize
  obtain ⟨s'', hr', -, -, -, hn⟩ := put_spec L.toLawful (F.wellFormed L.toLawful) hk value hg hint
  obtain ⟨-, rfl⟩ := Prod.mk.inj (hr.unique hr')
  -- the entries are the old ones and the new one
  have wf := F.wellFormed L.toLawful
  have wf' := F'.wellFormed L'
  obtain ⟨ps, hps, hlen, hnd⟩ := wf.wellFormed.exists_listing
  obtain ⟨ps', hps', hlen', hnd'⟩ := wf'.wellFormed.exists_listing
  have hnd := hnd fun k v h => L.refl k (wf.keys k v h)
  have hnd' := hnd' fun k v h => by
    rw [A.compare]
    exact L.refl k (wf'.keys k v h)
  have hself : s.self.compare key key = true := L.refl key hk
  have hfresh : (key, value) ∉ ps := by
    intro hmem
    rw [hnew key value (hps.mem_iff.mp hmem)] at hself
    cases hself
  have hperm : ps'.Perm ((key, value) :: ps) := by
    refine (List.perm_ext_iff_of_nodup hnd' (List.nodup_cons.mpr ⟨hfresh, hnd⟩)).mpr fun p => ?_
    rw [List.mem_cons, show p = (p.1, p.2) from rfl, hps'.mem_iff, hps.mem_iff, A.holds,
      Prod.mk.injEq]
    exact or_congr_right ⟨fun h => h.1, fun h => ⟨h, hnew _ _ h⟩⟩
  refine ⟨s', hr, A, F', Prod.ext ?_ ?_⟩
  · change s'.self.size = s.self.size + 1
    rw [hlen', hlen, hperm.length_eq, List.length_cons]
    push_cast
    rfl
  · change s'.self.nBuckets = if _ ≤ s.self.size then _ else _
    rw [hn, maybeResize, F.nextSize]
    simp only [decide_eq_true_eq]
    rfl

/-- A run of puts of keys that are pairwise unequal and that the map does not have. -/
theorem Filled.puts_new {ps : List (K × V)} (L : LawfulKeys s.self.hash s.self.compare)
    (F : Filled NonNull s) (hk : ∀ p ∈ ps, NonNull p.1) (hg : ∀ i, s.mem.grants i = true)
    (hsize : s.self.size + ps.length ≤ 2 ^ 29)
    (hne : ps.Pairwise fun p q => s.self.compare p.1 q.1 = false)
    (hnew : ∀ p ∈ ps, ∀ k v, Holds s k v → s.self.compare k p.1 = false) :
    ∃ s', Returns (fun f => puts f s ps) s' ∧ Filled NonNull s' ∧ s'.self.hash = s.self.hash ∧
      s'.self.compare = s.self.compare ∧ sizes s' = grow^[ps.length] (sizes s) ∧
      ∀ k v, Holds s' k v ↔ Holds s k v ∨ (k, v) ∈ ps := by
  induction ps generalizing s with
  | nil => exact ⟨s, Returns.pure _, F, rfl, rfl, rfl, fun k v => by simp⟩
  | cons p ps ih =>
      rw [List.length_cons] at hsize
      push_cast at hsize
      obtain ⟨hp, hne⟩ := List.pairwise_cons.mp hne
      have hkp := hk p List.mem_cons_self
      have hnewp := hnew p List.mem_cons_self
      obtain ⟨s₁, hr, A, F₁, hgrow⟩ := F.put_new L hkp p.2 hg (by omega) hnewp
      have hsize₁ : s₁.self.size = s.self.size + 1 := congrArg Prod.fst hgrow
      obtain ⟨s', hr', F', hh, hc, hsizes, hholds⟩ := ih (by rw [A.hash, A.compare]; exact L) F₁
        (fun q hq => hk q (List.mem_cons_of_mem p hq)) (by rw [A.grants]; exact hg) (by omega)
        (by rw [A.compare]; exact hne) fun q hq k v hkv => by
          rw [A.compare]
          rcases (A.holds k v).mp hkv with ⟨rfl, -⟩ | ⟨hkv, -⟩
          · exact hp q hq
          · exact hnew q (List.mem_cons_of_mem p hq) k v hkv
      refine ⟨s', hr.bind hr', F', hh.trans A.hash, hc.trans A.compare, ?_, fun k v => ?_⟩
      · rw [hsizes, hgrow, List.length_cons, Function.iterate_succ_apply]
      · rw [hholds, A.holds, List.mem_cons, show (k, v) = p ↔ k = p.1 ∧ v = p.2 from Prod.ext_iff]
        constructor
        · rintro ((h | ⟨h, -⟩) | h)
          · exact .inr (.inl h)
          · exact .inl h
          · exact .inr (.inr h)
        · rintro (h | h | h)
          · exact .inl (.inr ⟨h, hnewp k v h⟩)
          · exact .inl (.inl h)
          · exact .inr h

/-- A run of puts on a new map: the map it leaves and the pairs that an iteration of it yields. -/
theorem puts_new_map {m : Mem K V} {hash : K → UInt32} {compare : K → K → Bool}
    (L : LawfulKeys hash compare) (hg : ∀ i, m.grants i = true) {s₀ : State K V}
    (hnew : new m hash compare = some s₀) {ps : List (K × V)} (hk : ∀ p ∈ ps, NonNull p.1)
    (hne : ps.Pairwise fun p q => compare p.1 q.1 = false) (hlen : ps.length < 2 ^ 29) :
    ∃ s xs, Returns (fun f => puts f s₀ ps) s ∧ WellFormedOn NonNull s ∧ Tidy s ∧
      s.self.hash = hash ∧ s.self.compare = compare ∧ sizes s = grow^[ps.length] (0, initialSize) ∧
      s.self.nextSize = (s.self.nBuckets * 7 / 10 : ℕ) ∧ (∀ k v, Holds s k v ↔ (k, v) ∈ ps) ∧
      Returns (fun f => drain s f iterInit) xs ∧ xs.Perm ps := by
  obtain ⟨-, -, hself, hgrants⟩ := newInternal_table hnew NonNull
  have hempty := (newInternal_wellFormed hnew L.toLawful).2
  have hsizes : sizes s₀ = (0, initialSize) := by rw [sizes, hself]
  obtain ⟨s, hr, F, hh, hc, hgrow, hholds⟩ := (newInternal_filled hnew).puts_new
    (by rw [hself]; exact L) hk (by rw [hgrants]; exact hg)
    (by rw [hself]; push_cast; omega) (by rw [hself]; exact hne)
    fun p _ k v h => absurd h (hempty k v)
  rw [hself] at hh hc
  rw [hsizes] at hgrow
  have L' : LawfulKeys s.self.hash s.self.compare := by rw [hh, hc]; exact L
  have wf := F.wellFormed L'.toLawful
  have hholds' : ∀ k v, Holds s k v ↔ (k, v) ∈ ps := fun k v => by simp [hholds, hempty]
  obtain ⟨tails, T, hu, -⟩ := wf.table
  have hdrain := drain_contents T.toShape (iterInit_at s tails)
  rw [← contents_rowsOf] at hdrain
  refine ⟨s, _, hr, wf, F.tidy, hh, hc, hgrow, F.nextSize, hholds', hdrain, ?_⟩
  -- neither list has a pair twice
  obtain ⟨qs, hqs, -, hnd⟩ := wf.wellFormed.exists_listing
  have hnd := hnd fun k v h => L'.refl k (wf.keys k v h)
  have hndp : ps.Nodup := hne.imp_of_mem fun {p q} hp _ hpq => by
    rintro rfl
    rw [L.refl _ (hk p hp)] at hpq
    cases hpq
  refine (T.toShape.listing.perm hqs).trans ((List.perm_ext_iff_of_nodup hnd hndp).mpr fun p => ?_)
  rw [show p = (p.1, p.2) from rfl, hqs.mem_iff, hholds']

/-- Two runs of the same puts in different order, each on a new map, lead to maps that agree in
their sizes, in every lookup, and up to the order in what an iteration yields. -/
theorem puts_commute {m m' : Mem K V} {hash : K → UInt32} {compare : K → K → Bool}
    (L : LawfulKeys hash compare) (hg : ∀ i, m.grants i = true) (hg' : ∀ i, m'.grants i = true)
    {s₀ t₀ : State K V} (hs : new m hash compare = some s₀) (ht : new m' hash compare = some t₀)
    {ps qs : List (K × V)} (hperm : ps.Perm qs) (hk : ∀ p ∈ ps, NonNull p.1)
    (hne : ps.Pairwise fun p q => compare p.1 q.1 = false) (hlen : ps.length < 2 ^ 29) :
    ∃ s t, Returns (fun f => puts f s₀ ps) s ∧ Returns (fun f => puts f t₀ qs) t ∧
      (ChainsEnd s ∧ Tidy s) ∧ (ChainsEnd t ∧ Tidy t) ∧
      (s.self.size = t.self.size ∧ s.self.nBuckets = t.self.nBuckets ∧
        s.self.nextSize = t.self.nextSize) ∧
      (∀ key, NonNull key →
        ∃ v, Returns (fun f => get f s key) v ∧ Returns (fun f => get f t key) v) ∧
      ∃ xs ys, Returns (fun f => drain s f iterInit) xs ∧ Returns (fun f => drain t f iterInit) ys ∧
        xs.Perm ps ∧ ys.Perm qs ∧ xs.Perm ys := by
  have hne' : qs.Pairwise fun p q => compare p.1 q.1 = false := by
    have hsymm : ps.Pairwise fun p q =>
        compare p.1 q.1 = false ∧ compare q.1 p.1 = false := by
      refine hne.imp_of_mem fun {p q} hp hq hpq => ⟨hpq, Bool.eq_false_iff.mpr fun hqp => ?_⟩
      rw [L.per.symm _ _ (hk q hq) (hk p hp) hqp] at hpq
      cases hpq
    exact (hperm.pairwise hsymm fun h => h.symm).imp fun h => h.1
  obtain ⟨s, xs, hrs, wfs, hts, hsh, hsc, hssize, hsn, hsholds, hsdrain, hsx⟩ :=
    puts_new_map L hg hs hk hne hlen
  obtain ⟨t, ys, hrt, wft, htt, hth, htc, htsize, htn, htholds, htdrain, hty⟩ :=
    puts_new_map L hg' ht (fun p hp => hk p (hperm.mem_iff.mpr hp)) hne' (hperm.length_eq ▸ hlen)
  have hsizes : sizes s = sizes t := by rw [hssize, htsize, hperm.length_eq]
  have hn : s.self.nBuckets = t.self.nBuckets := congrArg Prod.snd hsizes
  have hsame : ∀ k v, Holds s k v ↔ Holds t k v := fun k v => by
    rw [hsholds, htholds, hperm.mem_iff]
  refine ⟨s, t, hrs, hrt, ⟨wfs.wellFormed.chainsEnd, hts⟩, ⟨wft.wellFormed.chainsEnd, htt⟩,
    ⟨congrArg Prod.fst hsizes, hn, by rw [hsn, htn, hn]⟩, fun key hkey => ?_,
    xs, ys, hsdrain, htdrain, hsx, hty, hsx.trans (hperm.trans hty.symm)⟩
  obtain ⟨hsp, hsa⟩ := get_spec (by rw [hsh, hsc]; exact L.toLawful) wfs hkey
    (by rw [hsc]; exact L.null_ne key hkey)
  obtain ⟨htp, hta⟩ := get_spec (by rw [hth, htc]; exact L.toLawful) wft hkey
    (by rw [htc]; exact L.null_ne key hkey)
  by_cases h : ∃ k v, Holds s k v ∧ compare k key = true
  · obtain ⟨k, v, hkv, hc⟩ := h
    exact ⟨v, hsp k v hkv (by rw [hsc]; exact hc),
      htp k v ((hsame k v).mp hkv) (by rw [htc]; exact hc)⟩
  · have hno : ∀ k v, Holds s k v → compare k key = false := fun k v hkv =>
      Bool.eq_false_iff.mpr fun hc => h ⟨k, v, hkv, hc⟩
    exact ⟨null, hsa fun k v hkv => by rw [hsc]; exact hno k v hkv,
      hta fun k v hkv => by rw [htc]; exact hno k v ((hsame k v).mpr hkv)⟩

/-- Two keys of one bucket, put in both orders. -/
theorem puts_commute_two : ∃ s₀ s t : State UInt64 UInt64,
    Returns (fun f => puts f s₀ [(1, 7), (62, 8)]) s ∧
    Returns (fun f => puts f s₀ [(62, 8), (1, 7)]) t ∧
    Tidy s ∧ Tidy t ∧ s.self.size = t.self.size := by
  obtain ⟨s₀, h₀⟩ := newInternal_granted (m := Mem.granting UInt64 UInt64)
    (fun _ => rfl) ncSimpleHash ncSimpleCompare false false
  have hperm : List.Perm [((1 : UInt64), (7 : UInt64)), (62, 8)] [(62, 8), (1, 7)] :=
    List.Perm.swap _ _ _
  have hk : ∀ p ∈ [((1 : UInt64), (7 : UInt64)), (62, 8)], NonNull p.1 := by
    simp only [List.forall_mem_cons]
    exact ⟨by decide, by decide, by simp⟩
  obtain ⟨s, t, hs, ht, ⟨-, hts⟩, ⟨-, htt⟩, ⟨hsize, -⟩, -⟩ :=
    puts_commute simple_lawful.toLawfulKeys (fun _ => rfl) (fun _ => rfl) h₀ h₀ hperm hk (by decide)
      (by simp)
  exact ⟨s₀, s, t, hs, ht, hts, htt, hsize⟩

end Nica
