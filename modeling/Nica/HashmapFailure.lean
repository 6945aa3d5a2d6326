import Nica.HashmapFill
import Mathlib.Data.Set.Card

/-! # Puts without memory

A put whose `j`-th allocation is refused, on a well-formed map with any hash, comparison and cleanup
functions.  The first allocation of a put that resizes is the new table, the next ones are its
overflow nodes (`overflowNodes`), the last one is the overflow node of the new key.  Such a put
returns `false`, and leaves the map alone (`Unharmed`) unless it runs out of memory while it copies
pairs into the new table and a cleanup function is set (`put_refused`). -/

namespace Nica

open Blocks Linked Rows Fueled NcHashmap

variable {K V : Type} [Null K] [Null V]

/-- The put returns `false`, the map holds what it held, and no cleanup function was called. -/
def Unharmed (s : State K V) (key : K) (value : V) : Prop :=
  ∃ s', Returns (fun f => put f s key value) (false, s') ∧
    (∀ k v, Holds s' k v ↔ Holds s k v) ∧ s'.self.size = s.self.size ∧ s'.mem.log = s.mem.log

/-- The `j`-th allocation, counted from 0, is made inside the put. -/
def Attempts (s : State K V) (key : K) (value : V) (j : ℕ) : Prop :=
  ∀ ok s', Returns (fun f => put f s key value) (ok, s') → s.mem.tick + j < s'.mem.tick

/-- The number of overflow nodes that a resize needs: the pairs whose new bucket is taken by
another pair. -/
noncomputable def overflowNodes (s : State K V) : ℤ :=
  s.self.size - ({i | ∃ k v, Holds s k v ∧
    slotOf s.self (s.self.nBuckets * increaseFactor) k = i} : Set ℕ).ncard

variable {s : State K V} {tails : ℕ → List ℕ} {key : K} {value : V}

theorem overflowNodes_eq {back : ℕ → Option Loc}
    (hS : Shape s.mem.toHeap s.self.buckets s.self.nBuckets tails back)
    (hn : s.self.size =
      (contents (rowsOf s.mem.toHeap s.self.buckets tails) s.self.nBuckets).length) :
    overflowNodes s = spill (slotsOf s.self (s.self.nBuckets * increaseFactor)
      (contents (rowsOf s.mem.toHeap s.self.buckets tails) s.self.nBuckets)) := by
  obtain ⟨l, hl⟩ : ∃ l, slotsOf s.self (s.self.nBuckets * increaseFactor)
    (contents (rowsOf s.mem.toHeap s.self.buckets tails) s.self.nBuckets) = l := ⟨_, rfl⟩
  have hset : ({i | ∃ k v, Holds s k v ∧
      slotOf s.self (s.self.nBuckets * increaseFactor) k = i} : Set ℕ) = l.toFinset := by
    ext i
    simp only [hS.holds_iff, Set.mem_ofPred_eq, List.coe_toFinset, ← hl, slotsOf, List.mem_map,
      Prod.exists]
  have hlen : l.length =
      (contents (rowsOf s.mem.toHeap s.self.buckets tails) s.self.nBuckets).length := by
    rw [← hl]
    exact List.length_map _
  have hle := l.toFinset_card_le
  unfold overflowNodes spill
  rw [hset, Set.ncard_coe_finset, hn, ← hlen, hl]
  omega

/-- The last part of a put makes at most one allocation, and when that is refused nothing else has
happened. -/
theorem storeIn_attempts (hS : Shape s.mem.toHeap s.self.buckets s.self.nBuckets tails fun _ => none)
    (key : K) (value : V) :
    ∃ ok s', Returns (fun f => storeIn f s key value) (ok, s') ∧
      (s'.mem.tick = s.mem.tick ∨
        (s'.mem.tick = s.mem.tick + 1 ∧ s.mem.grants s.mem.tick = true) ∨
        (ok = false ∧ s' = { s with mem := { s.mem with toHeap := s.mem.pass } })) := by
  have one : ∀ {m'}, Returns (fun f => insertBucket s.self f s.mem s.self.buckets s.self.nBuckets
      (s.self.hash key) key value) (1, m') → Returns (fun f => storeIn f s key value)
      (true, ⟨{ s.self with size := s.self.size + 1 }, m'⟩) := fun hr => hr.bind (Returns.pure _)
  cases hh : has s.self.compare (rowsOf s.mem.toHeap s.self.buckets tails
      (slotOf s.self s.self.nBuckets key)) key with
  | true =>
      obtain ⟨m', hr, -, ht, -⟩ := insertBucket_replace value hS hh
      exact ⟨true, _, hr.bind (Returns.pure _), .inl ht⟩
  | false =>
      by_cases hn : none ∈ rowsOf s.mem.toHeap s.self.buckets tails
          (slotOf s.self s.self.nBuckets key)
      · obtain ⟨m', back', hr, -, ht, -⟩ := insertBucket_fill value hS rfl hh hn
        exact ⟨true, _, one hr, .inl ht⟩
      · cases hg : s.mem.grants s.mem.tick with
        | true =>
            obtain ⟨m', tails', back', hr, -, ht, -⟩ := insertBucket_append value hS rfl hh hn hg
            exact ⟨true, _, one hr, .inr (.inl ⟨ht, rfl⟩)⟩
        | false =>
            have hr := insertBucket_fail value hS rfl hh hn hg
            exact ⟨false, _, hr.bind (Returns.pure _), .inr (.inr ⟨rfl, rfl⟩)⟩

/-- A resize that spoilt pairs still holds them. -/
theorem Spoilt.holds_iff {s' : State K V} (P : Spoilt s s' tails)
    (hS : Shape s.mem.toHeap s.self.buckets s.self.nBuckets tails fun _ => none) (k : K) (v : V) :
    Holds s' k v ↔ Holds s k v := by
  have hself := P.self
  have hold : ∀ i < s.self.nBuckets, ∀ a ∈ chainOf s.self.buckets tails i,
      a.block < s.mem.tick := fun i hi a ha => hS.block_le hi ha
  have hS' : Shape s'.mem.toHeap s'.self.buckets s'.self.nBuckets tails fun _ => none := by
    rw [hself]
    exact hS.later P.frame (hold 0 hS.pos _ (mem_chainOf.mpr (.inl rfl))) hold
  have hrow : ∀ i < s.self.nBuckets, rowsOf s'.mem.toHeap s.self.buckets tails i =
      rowsOf s.mem.toHeap s.self.buckets tails i := fun i hi =>
    rowOf_congr fun a ha => P.frame a (hold i hi a ha)
  rw [hS'.holds_iff, hS.holds_iff, hself, contents_congr hrow]

theorem Resized.holds_iff {D : K → Prop} {s' : State K V} {tails' : ℕ → List ℕ}
    (R : Resized D s s' tails tails')
    (hS : Shape s.mem.toHeap s.self.buckets s.self.nBuckets tails fun _ => none) (k : K) (v : V) :
    Holds s' k v ↔ Holds s k v := by
  rw [R.table.holds_iff, hS.holds_iff, R.pairs.mem_iff]

/-- A resize that succeeded made no refused allocation. -/
theorem Resized.lt_of_refused {D : K → Prop} {s' : State K V} {tails' : ℕ → List ℕ} {j : ℕ}
    (R : Resized D s s' tails tails') (hrefused : s.mem.grants (s.mem.tick + j) = false) :
    spill (slotsOf s.self (s.self.nBuckets * increaseFactor)
      (contents (rowsOf s.mem.toHeap s.self.buckets tails) s.self.nBuckets)) < j := by
  by_contra hle
  rw [R.granted j (by omega)] at hrefused
  cases hrefused

/-- After a successful resize only the node of the new key can be refused. -/
theorem Resized.unharmed {D : K → Prop} {s₁ : State K V} {tails' : ℕ → List ℕ} {j : ℕ}
    (R : Resized D s s₁ tails tails')
    (hS : Shape s.mem.toHeap s.self.buckets s.self.nBuckets tails fun _ => none)
    (hn : s.self.size = (contents (rowsOf s.mem.toHeap s.self.buckets tails) s.self.nBuckets).length)
    (hr : s.self.maybeResize = true) (hres : Returns (fun f => resize f s) (true, s₁))
    (hrefused : s.mem.grants (s.mem.tick + j) = false) (hin : Attempts s key value j) :
    Unharmed s key value := by
  obtain ⟨ok, s', hret, h⟩ := storeIn_attempts R.table.toShape key value
  have hput := put_resize hr hres hret
  have hlt := hin ok s' hput
  have hj := R.lt_of_refused hrefused
  have ht := R.tick
  have hself := R.self
  rcases h with h | ⟨h, hg⟩ | ⟨rfl, rfl⟩
  · omega
  · rw [R.grants, ht, show s.mem.tick + 1 + spill (slotsOf s.self
      (s.self.nBuckets * increaseFactor) (contents (rowsOf s.mem.toHeap s.self.buckets tails)
        s.self.nBuckets)) = s.mem.tick + j by omega, hrefused] at hg
    cases hg
  · refine ⟨_, hput, R.holds_iff hS, ?_, R.log⟩
    change s₁.self.size = _
    rw [hself, hn]

omit [Null K] [Null V] in
theorem Spoilt.le_of_refused {s' : State K V} {j : ℕ} (P : Spoilt s s' tails)
    (hgranted : ∀ l < j, s.mem.grants (s.mem.tick + l) = true) :
    j ≤ spill (slotsOf s.self (s.self.nBuckets * increaseFactor)
      (contents (rowsOf s.mem.toHeap s.self.buckets tails) s.self.nBuckets)) := by
  obtain ⟨i, -, hi, hg, -⟩ := P.refused
  by_contra hlt
  rw [hgranted i (by omega)] at hg
  cases hg

/-- Pairs were spoilt unless there are no cleanup functions. -/
theorem Spoilt.unharmed_iff {s' : State K V} (P : Spoilt s s' tails)
    (hS : Shape s.mem.toHeap s.self.buckets s.self.nBuckets tails fun _ => none)
    (hput : Returns (fun f => put f s key value) (false, s')) :
    Unharmed s key value ↔ s.self.keyFree = false ∧ s.self.valueFree = false := by
  obtain ⟨ps, hps, hlog⟩ := P.log
  have hcalls : freeCalls s.self ps = [] ↔ s.self.keyFree = false ∧ s.self.valueFree = false := by
    rw [freeCalls_eq_nil, or_iff_right hps]
  rw [← hcalls]
  constructor
  · rintro ⟨s'', hret, -, -, hsame⟩
    obtain ⟨-, rfl⟩ := Prod.mk.inj (hput.unique hret)
    rw [hlog] at hsame
    simpa using hsame
  · intro hnone
    refine ⟨s', hput, P.holds_iff hS, by rw [P.self], ?_⟩
    rw [hlog, hnone, List.append_nil]

/-- A put one of whose allocations is refused leaves the map unharmed exactly when it does not
resize, or when no entry had been copied or every entry had been (and then the allocation is that
of the table or of the node for the new key), or when there are no cleanup functions. -/
theorem put_refused {j : ℕ} (wf : WellFormed s)
    (hgranted : ∀ l < j, s.mem.grants (s.mem.tick + l) = true)
    (hrefused : s.mem.grants (s.mem.tick + j) = false) (hin : Attempts s key value j) :
    Unharmed s key value ↔
      (s.self.maybeResize = true → s.self.nBuckets * increaseFactor ≤ intMax ∧
        (j = 0 ∨ overflowNodes s < j ∨ (s.self.keyFree = false ∧ s.self.valueFree = false))) := by
  obtain ⟨tails, T, hu, hn⟩ := wf.everywhere.table
  rw [overflowNodes_eq T.toShape hn]
  cases hr : s.self.maybeResize with
  | false =>
      refine iff_of_true ?_ (by simp)
      obtain ⟨ok, s', hret, h⟩ := storeIn_attempts T.toShape key value
      have hput := hret.congr fun f => put_keep hr f key value
      have hlt := hin ok s' hput
      rcases h with h | ⟨h, hg⟩ | ⟨rfl, rfl⟩
      · omega
      · obtain rfl : j = 0 := by omega
        rw [Nat.add_zero, hg] at hrefused
        cases hrefused
      · exact ⟨_, hput, fun _ _ => Iff.rfl, rfl, rfl⟩
  | true =>
      simp only [forall_const]
      by_cases hint : s.self.nBuckets * increaseFactor ≤ intMax
      · rw [and_iff_right hint]
        by_cases hj : j = 0
        · subst hj
          refine iff_of_true ?_ (.inl rfl)
          exact ⟨_, put_resize hr (resize_refused hint hrefused) (Returns.pure _),
            fun _ _ => Iff.rfl, rfl, rfl⟩
        · obtain ⟨ok, s₁, hres, ⟨rfl, tails', R⟩ | ⟨rfl, P⟩⟩ := resize_granted (D := fun _ => True)
            T.toShape (fun _ _ => trivial) hu hint (by simpa using hgranted 0 (by omega))
          · exact iff_of_true (R.unharmed T.toShape hn hr hres hrefused hin)
              (.inr (.inl (by exact_mod_cast R.lt_of_refused hrefused)))
          · rw [P.unharmed_iff T.toShape (put_resize hr hres (Returns.pure _))]
            have hle := P.le_of_refused hgranted
            constructor
            · exact fun h => .inr (.inr h)
            · rintro (h | h | h)
              · exact absurd h hj
              · exact absurd hle (by omega)
              · exact h
      · refine iff_of_false ?_ fun h => hint h.1
        rintro ⟨s', hret, -⟩
        obtain ⟨f, hf⟩ := hret.exists
        rw [put_overflow hr (Nat.lt_of_not_le hint)] at hf
        cases hf

/-! ### A map of 42 pairs

After the keys 1 to 41 and 245 a new map is due for a resize, and the keys 1 and 245 share a bucket
of the old table and of the new one. -/

/-- The map with its next `j`-th allocation refused. -/
def refuse (s : State K V) (j : ℕ) : State K V :=
  { s with mem := { s.mem with grants := fun i => i != s.mem.tick + j } }

theorem WellFormed.refuse (wf : WellFormed s) (j : ℕ) : WellFormed (refuse s j) := by
  obtain ⟨tails, hS, h⟩ := wf
  exact ⟨tails, hS.of_cells rfl, h⟩

def crowd : List (UInt64 × UInt64) :=
  ((List.range 41).map fun i => (UInt64.ofNat (i + 1), 7)) ++ [(245, 7)]

def crowded : Except Fault (State UInt64 UInt64) :=
  match newFull (Mem.granting UInt64 UInt64) ncSimpleHash ncSimpleCompare true true with
  | none => .error .dangling
  | some s => puts 10 s crowd

theorem crowded_wellFormed {s : State UInt64 UInt64} (hs : crowded = .ok s) : WellFormed s := by
  obtain ⟨s₀, h₀⟩ := newInternal_granted (m := Mem.granting UInt64 UInt64)
    (fun _ => rfl) ncSimpleHash ncSimpleCompare true true
  obtain ⟨-, -, hself, hgrants⟩ := newInternal_table h₀ fun _ => True
  have L : Lawful (fun _ => True) s₀.self.hash s₀.self.compare := by
    rw [hself]
    exact simple_lawful_on _
  have hrun : puts 10 s₀ crowd = .ok s := by
    unfold crowded newFull at hs
    rwa [h₀] at hs
  have hlen : (0 : ℤ) + (crowd.length : ℤ) ≤ 2 ^ 29 := by decide +kernel
  have P := puts_filled L (newInternal_filled h₀) (fun _ _ => trivial)
    (by rw [hgrants]; intro; rfl) (by rw [hself]; exact hlen) hrun
  exact (P.filled.wellFormed (by rw [P.hash, P.compare]; exact L)).wellFormed

/-- A put of the key 246 with the `j`-th allocation refused: the map before, and the result. -/
def crowdedPut (j : ℕ) : Except Fault (State UInt64 UInt64 × Bool × State UInt64 UInt64) := do
  let s ← crowded
  let r ← NcHashmap.put 10 (refuse s j) 246 7
  .ok (s, r)

theorem crowdedPut_ok {j : ℕ} {s s' : State UInt64 UInt64} {ok : Bool}
    (h : crowdedPut j = .ok (s, ok, s')) :
    crowded = .ok s ∧ Returns (fun f => NcHashmap.put f (refuse s j) 246 7) (ok, s') := by
  unfold crowdedPut at h
  cases hs : crowded with
  | error e => rw [hs] at h; cases h
  | ok t =>
      rw [hs] at h
      cases hr : NcHashmap.put 10 (refuse t j) 246 7 with
      | error e =>
          simp only [bind, Except.bind, hr] at h
          cases h
      | ok r =>
          simp only [bind, Except.bind, hr] at h
          obtain ⟨rfl, rfl⟩ := Prod.mk.inj (Except.ok.inj h)
          exact ⟨rfl, (put_steady _ _ _).returns hr⟩

/-- What an observer sees of `crowdedPut`: the result, the size of the table before, and the calls of
the cleanup functions and the number of allocations before and after. -/
structure CrowdedSeen where
  ok : Bool
  nBuckets : ℕ
  log : List (FreeCall UInt64 UInt64)
  log' : List (FreeCall UInt64 UInt64)
  tick : ℕ
  tick' : ℕ
deriving DecidableEq

def crowdedSeen (j : ℕ) : Option CrowdedSeen :=
  (crowdedPut j).toOption.map fun (s, ok, s') =>
    ⟨ok, s.self.nBuckets, s.mem.log, s'.mem.log, s.mem.tick, s'.mem.tick⟩

theorem crowdedSeen_some {j : ℕ} {o : CrowdedSeen} (h : crowdedSeen j = some o) :
    ∃ s s', crowdedPut j = .ok (s, o.ok, s') ∧ s.self.nBuckets = o.nBuckets ∧ s.mem.log = o.log ∧
      s'.mem.log = o.log' ∧ s.mem.tick = o.tick ∧ s'.mem.tick = o.tick' := by
  unfold crowdedSeen at h
  cases hc : crowdedPut j with
  | error e => rw [hc] at h; cases h
  | ok r =>
      obtain ⟨s, ok, s'⟩ := r
      rw [hc] at h
      obtain rfl := Option.some.inj h
      exact ⟨s, s', rfl, rfl, rfl, rfl, rfl, rfl⟩

/-- The fifth allocation is that of the node for the key 245.  When it is refused, the pair 1, 7 has
been copied; the map still holds it, but its key and value have gone to the cleanup functions. -/
theorem put_refused_spoils : ∃ s : State UInt64 UInt64, crowded = .ok s ∧
    WellFormed (refuse s 1) ∧ (∀ l < 1, (refuse s 1).mem.grants ((refuse s 1).mem.tick + l) = true) ∧
    (refuse s 1).mem.grants ((refuse s 1).mem.tick + 1) = false ∧
    Attempts (refuse s 1) 246 7 1 ∧ ¬ Unharmed (refuse s 1) 246 7 := by
  have hseen : crowdedSeen 1 = some ⟨false, 61, [], [.key 1, .value 7], 3, 5⟩ := by decide +kernel
  obtain ⟨s, s', hc, -, hlog, hlog', ht, ht'⟩ := crowdedSeen_some hseen
  obtain ⟨hs, hr⟩ := crowdedPut_ok hc
  refine ⟨s, hs, (crowded_wellFormed hs).refuse 1, fun l hl => ?_, ?_, fun ok s₁ hr₁ => ?_, ?_⟩
  · simp only [refuse, bne_iff_ne]
    omega
  · simp [refuse]
  · obtain ⟨-, rfl⟩ := Prod.mk.inj (hr.unique hr₁)
    change s.mem.tick + 1 < _
    rw [ht, ht']
    decide
  · rintro ⟨s₁, hr₁, -, -, hsame⟩
    obtain ⟨-, rfl⟩ := Prod.mk.inj (hr.unique hr₁)
    rw [hlog'] at hsame
    exact absurd (hsame.trans hlog) (by decide)

/-- Refusing the new table itself does no harm. -/
theorem put_refused_table : ∃ s : State UInt64 UInt64, crowded = .ok s ∧
    Unharmed (refuse s 0) 246 7 := by
  have hseen : crowdedSeen 0 = some ⟨false, 61, [], [], 3, 4⟩ := by decide +kernel
  obtain ⟨s, s', hc, hn, -, -, ht, ht'⟩ := crowdedSeen_some hseen
  obtain ⟨hs, hr⟩ := crowdedPut_ok hc
  refine ⟨s, hs, (put_refused ((crowded_wellFormed hs).refuse 0) (by simp) (by simp [refuse])
    fun ok s₁ hr₁ => ?_).mpr fun _ => ⟨?_, .inl rfl⟩⟩
  · obtain ⟨-, rfl⟩ := Prod.mk.inj (hr.unique hr₁)
    change s.mem.tick + 0 < _
    rw [ht, ht']
    decide
  · change s.self.nBuckets * increaseFactor ≤ intMax
    rw [hn]
    decide

end Nica
