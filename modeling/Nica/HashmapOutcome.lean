import Nica.HashmapFootprint
import Nica.HashmapFailure

/-! # Puts on a memory that may run out

What a put on a well-formed map leaves when any of its allocations may fail (`put_outcome`).  It
returns `true` and the pair is stored, or it returns `false`, an allocation was refused, and the map
holds what it held.  Unless the put relinks a hole, the map is well-formed afterwards in either
case. -/

namespace Nica

open Blocks Linked Rows Fueled NcHashmap

variable {K V : Type} [Null K] [Null V]

/-- `s'` is `s` after a put of `key`, `value` that returned `ok`. -/
structure PutOutcome (s s' : State K V) (key : K) (value : V) (ok : Bool) : Prop where
  wellFormed : WellFormedOn NonNull s'
  stored : ok = true → ∀ k v, Holds s' k v ↔
    (k = key ∧ v = value) ∨ (Holds s k v ∧ s.self.compare k key = false)
  kept : ok = false → (∀ k v, Holds s' k v ↔ Holds s k v) ∧ Refused s.mem.toHeap s'.mem.toHeap
  hash : s'.self.hash = s.self.hash
  compare : s'.self.compare = s.self.compare

variable {s s' : State K V} {tails : ℕ → List ℕ} {key : K} {value : V}

theorem PutOutcome.of_true (wf : WellFormedOn NonNull s')
    (hstored : ∀ k v, Holds s' k v ↔
      (k = key ∧ v = value) ∨ (Holds s k v ∧ s.self.compare k key = false))
    (hhash : s'.self.hash = s.self.hash) (hcompare : s'.self.compare = s.self.compare) :
    PutOutcome s s' key value true where
  wellFormed := wf
  stored _ := hstored
  kept h := by cases h
  hash := hhash
  compare := hcompare

theorem PutOutcome.of_false (wf : WellFormedOn NonNull s') (hkept : ∀ k v, Holds s' k v ↔ Holds s k v)
    (hrefused : Refused s.mem.toHeap s'.mem.toHeap)
    (hhash : s'.self.hash = s.self.hash) (hcompare : s'.self.compare = s.self.compare) :
    PutOutcome s s' key value false where
  wellFormed := wf
  stored h := by cases h
  kept _ := ⟨hkept, hrefused⟩
  hash := hhash
  compare := hcompare

/-- A failed allocation leaves a well-formed map. -/
theorem Table.wellFormed_pass (L : LawfulKeys s.self.hash s.self.compare)
    (T : Table s.self NonNull s.mem.toHeap s.self.buckets s.self.nBuckets tails fun _ => none)
    (hn : s.self.size =
      (contents (rowsOf s.mem.toHeap s.self.buckets tails) s.self.nBuckets).length) :
    WellFormedOn NonNull { s with mem := { s.mem with toHeap := s.mem.pass } } := by
  have T' : Table s.self NonNull s.mem.pass s.self.buckets s.self.nBuckets tails fun _ => none :=
    ⟨T.toShape.of_cells rfl, T.rows⟩
  exact Table.wellFormed (s := { s with mem := { s.mem with toHeap := s.mem.pass } }) L.toLawful T' hn

/-- The last part of a put. -/
theorem storeIn_outcome (L : LawfulKeys s.self.hash s.self.compare)
    (T : Table s.self NonNull s.mem.toHeap s.self.buckets s.self.nBuckets tails fun _ => none)
    (hn : s.self.size =
      (contents (rowsOf s.mem.toHeap s.self.buckets tails) s.self.nBuckets).length)
    (hk : NonNull key) (value : V)
    (hrelinks : ¬ Relinks s.self.compare
      (rowsOf s.mem.toHeap s.self.buckets tails (slotOf s.self s.self.nBuckets key)) key) :
    ∃ ok s', Returns (fun f => storeIn f s key value) (ok, s') ∧ PutOutcome s s' key value ok := by
  by_cases hg : none ∈ rowsOf s.mem.toHeap s.self.buckets tails
      (slotOf s.self s.self.nBuckets key) ∨
    has s.self.compare (rowsOf s.mem.toHeap s.self.buckets tails
      (slotOf s.self s.self.nBuckets key)) key = true ∨ s.mem.grants s.mem.tick = true
  · obtain ⟨s', tails', back', hr, S⟩ := storeIn_stores L.toLawful T hk value (.inl rfl) hg
    have hself := S.self
    have hhash : s'.self.hash = s.self.hash := by rw [hself]
    have hcompare : s'.self.compare = s.self.compare := by rw [hself]
    have hbuckets : s'.self.nBuckets = s.self.nBuckets := by rw [hself]
    refine ⟨true, s', hr, .of_true ?_ (fun k v => ?_) hhash hcompare⟩
    · have hback := S.inserted.acyclic hrelinks
      have T' : Table s'.self NonNull s'.mem.toHeap s'.self.buckets s'.self.nBuckets tails'
          fun _ => none :=
        ⟨S.table.toShape.back_congr fun j hj => (hback j (by rwa [← hbuckets])).symm, S.table.rows⟩
      exact T'.wellFormed (by rw [hhash, hcompare]; exact L.toLawful) (S.size hn)
    · rw [S.table.holds_iff, T.holds_iff, S.mem, Prod.mk.injEq]
  · simp only [not_or, Bool.not_eq_true] at hg
    obtain ⟨hnone, hhas, hgrant⟩ := hg
    have hr := insertBucket_fail value T.toShape rfl hhas hnone hgrant
    exact ⟨false, _, hr.bind (Returns.pure _),
      .of_false (T.wellFormed_pass L hn) (fun _ _ => Iff.rfl) (.pass hgrant) rfl rfl⟩

/-- A map that holds what it held, after a resize that failed. -/
theorem Spoilt.wellFormed (P : Spoilt s s' tails) (L : LawfulKeys s.self.hash s.self.compare)
    (T : Table s.self NonNull s.mem.toHeap s.self.buckets s.self.nBuckets tails fun _ => none)
    (hn : s.self.size =
      (contents (rowsOf s.mem.toHeap s.self.buckets tails) s.self.nBuckets).length) :
    WellFormedOn NonNull s' := by
  have hS := T.toShape
  have hold : ∀ i < s.self.nBuckets, ∀ a ∈ chainOf s.self.buckets tails i,
      a.block < s.mem.tick := fun i hi a ha => hS.block_le hi ha
  have hrow : ∀ i < s.self.nBuckets, rowsOf s'.mem.toHeap s.self.buckets tails i =
      rowsOf s.mem.toHeap s.self.buckets tails i := fun i hi =>
    rowOf_congr fun a ha => P.frame a (hold i hi a ha)
  have hS' : Shape s'.mem.toHeap s.self.buckets s.self.nBuckets tails fun _ => none :=
    hS.later P.frame (hold 0 hS.pos _ (mem_chainOf.mpr (.inl rfl))) hold
  have T' : Table s.self NonNull s'.mem.toHeap s.self.buckets s.self.nBuckets tails fun _ => none :=
    ⟨hS', T.rows.congr hrow⟩
  have hwf := Table.wellFormed (s := ⟨s.self, s'.mem⟩) L.toLawful T'
    (by rw [hn, contents_congr hrow])
  have hs' : s' = ⟨s.self, s'.mem⟩ := by
    rw [← P.self]
  rw [hs']
  exact hwf

/-- A put on a well-formed map that does not relink a hole. -/
theorem put_outcome (L : LawfulKeys s.self.hash s.self.compare)
    (wf : WellFormedOn NonNull s) (hk : NonNull key) (value : V)
    (hkeep : s.self.maybeResize = true ∨ ¬ RelinksAt s key)
    (hint : s.self.maybeResize = true → s.self.nBuckets * increaseFactor ≤ intMax) :
    ∃ ok s', Returns (fun f => put f s key value) (ok, s') ∧ PutOutcome s s' key value ok := by
  obtain ⟨tails, T, hu, hn⟩ := wf.table
  cases hr : s.self.maybeResize with
  | false =>
      have hrelinks : ¬ Relinks s.self.compare
          (rowsOf s.mem.toHeap s.self.buckets tails (slotOf s.self s.self.nBuckets key)) key := by
        intro hrel
        have hno := hkeep.resolve_left (by simp [hr])
        exact hno ⟨_, T.path _ (Nat.mod_lt _ T.pos), hrel⟩
      obtain ⟨ok, s', hret, O⟩ := storeIn_outcome L T hn hk value hrelinks
      exact ⟨ok, s', hret.congr fun f => put_keep hr f key value, O⟩
  | true =>
      cases hg : s.mem.grants s.mem.tick with
      | false =>
          exact ⟨false, _, put_resize hr (resize_refused (hint hr) hg) (Returns.pure _),
            .of_false (T.wellFormed_pass L hn) (fun _ _ => Iff.rfl) (.pass hg) rfl rfl⟩
      | true =>
          have hD : ∀ q ∈ contents (rowsOf s.mem.toHeap s.self.buckets tails) s.self.nBuckets,
              NonNull q.1 := by
            intro q hq
            obtain ⟨i, hi, hq⟩ := mem_contents.mp hq
            exact T.rows.keys i hi q hq
          obtain ⟨ok, s₁, hres, ⟨rfl, tails', R⟩ | ⟨rfl, P⟩⟩ :=
            resize_granted T.toShape hD hu (hint hr) hg
          · have hself := R.self
            have L₁ : LawfulKeys s₁.self.hash s₁.self.compare := by
              rw [hself]
              exact L
            have hn₁ : s₁.self.size = (contents (rowsOf s₁.mem.toHeap s₁.self.buckets tails')
                s₁.self.nBuckets).length := by
              rw [R.pairs.length_eq, hself]
            obtain ⟨ok, s', hret, O⟩ := storeIn_outcome L₁ R.table hn₁ hk value
              (not_relinks (R.dense _ (Nat.mod_lt _ R.table.pos)) key)
            have hacts := (resize_acts T.toShape hres).2
            refine ⟨ok, s', put_resize hr hres hret, O.wellFormed, fun hok k v => ?_,
              fun hok => ⟨fun k v => ?_, (O.kept hok).2.after hacts⟩, ?_, ?_⟩
            · rw [O.stored hok, R.holds_iff T.toShape, hself]
            · rw [(O.kept hok).1, R.holds_iff T.toShape]
            · rw [O.hash, hself]
            · rw [O.compare, hself]
          · obtain ⟨j, -, -, hgj, -, htick⟩ := P.refused
            have hrefused : Refused s.mem.toHeap s₁.mem.toHeap :=
              ⟨s.mem.tick + j, by omega, by omega, hgj⟩
            exact ⟨false, s₁, put_resize hr hres (Returns.pure _),
              .of_false (P.wellFormed L T hn) (P.holds_iff T.toShape) hrefused
                (congrArg _ P.self) (congrArg _ P.self)⟩

end Nica
