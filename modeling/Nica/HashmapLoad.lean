import Nica.HashmapLoops
import Nica.HashmapRuns

/-! # The load of a map

What a run of calls, any of whose allocations may fail, leaves of the counters of a map that was made
without cleanup functions.  The table has one of the sizes `61 * 4 ^ k`, `size` counts the occupied
entries and never exceeds `next_size` (`Loaded`), chains that run into themselves included: a resize
of such a table fails.  Since a table only grows when it is full, after at most `2 ^ 29` puts no
`int` has overflowed (`load_bound`). -/

namespace Nica

open Blocks Linked Rows Fueled NcHashmap

variable {K V : Type} [Null K] [Null V]

/-- A map after at most `puts` puts. -/
structure Loaded (puts : ℕ) (s : State K V) (tails : ℕ → List ℕ) (back : ℕ → Option Loc) :
    Prop where
  lawful : LawfulKeys s.self.hash s.self.compare
  table : Table s.self NonNull s.mem.toHeap s.self.buckets s.self.nBuckets tails back
  size : s.self.size = (contents (rowsOf s.mem.toHeap s.self.buckets tails) s.self.nBuckets).length
  nBuckets : ∃ k, s.self.nBuckets = initialSize * increaseFactor ^ k
  nextSize : s.self.nextSize = (s.self.nBuckets * 7 / 10 : ℕ)
  load : s.self.size ≤ s.self.nextSize
  few : s.self.size ≤ puts

namespace Loaded

variable {s s' : State K V} {puts : ℕ} {tails : ℕ → List ℕ} {back : ℕ → Option Loc} {key : K}

theorem mono (P : Loaded puts s tails back) {puts' : ℕ} (h : puts ≤ puts') :
    Loaded puts' s tails back :=
  { P with few := P.few.trans (by exact_mod_cast h) }

/-- A full table after at most `2 ^ 29` puts can be resized within `int`. -/
theorem mul_le_intMax (P : Loaded puts s tails back) (hr : s.self.maybeResize = true)
    (hputs : puts ≤ 2 ^ 29) : s.self.nBuckets * increaseFactor ≤ intMax := by
  have hfull : s.self.nextSize ≤ s.self.size := of_decide_eq_true hr
  have hfew := P.few
  rw [P.nextSize] at hfull
  apply mul_le_intMax_of_load P.nBuckets
  omega

/-- A call that keeps the map. -/
theorem kept (P : Loaded puts s tails back) (h : Kept s s') : Loaded puts s' tails back := by
  obtain ⟨T, hrow⟩ := P.table.kept h
  have hself := h.self
  rw [hself] at hrow
  refine ⟨by rw [hself]; exact P.lawful, T, ?_, by rw [hself]; exact P.nBuckets,
    by rw [hself]; exact P.nextSize, by rw [hself]; exact P.load, by rw [hself]; exact P.few⟩
  rw [hself, contents_congr hrow]
  exact P.size

omit [Null K] [Null V] in
/-- A failed allocation. -/
theorem kept_pass (s : State K V) : Kept s { s with mem := { s.mem with toHeap := s.mem.pass } } :=
  ⟨rfl, fun _ _ => rfl, rfl⟩

/-! ### Puts -/

/-- The last part of a put, into a table that is not full. -/
theorem storeIn (P : Loaded puts s tails back) (hk : NonNull key) {value : V}
    (hroom : s.self.size < s.self.nextSize) {ok : Bool}
    (hr : Returns (fun f => NcHashmap.storeIn f s key value) (ok, s')) :
    ∃ tails' back', Loaded (puts + 1) s' tails' back' := by
  by_cases hb : back (slotOf s.self s.self.nBuckets key) = none ∨
      has s.self.compare (rowsOf s.mem.toHeap s.self.buckets tails
        (slotOf s.self s.self.nBuckets key)) key = true
  · by_cases hg : none ∈ rowsOf s.mem.toHeap s.self.buckets tails
          (slotOf s.self s.self.nBuckets key) ∨
        has s.self.compare (rowsOf s.mem.toHeap s.self.buckets tails
          (slotOf s.self s.self.nBuckets key)) key = true ∨ s.mem.grants s.mem.tick = true
    · obtain ⟨t, tails', back', hret, S⟩ :=
        storeIn_stores P.lawful.toLawful P.table hk value hb hg
      obtain ⟨rfl, rfl⟩ := Prod.mk.inj (hr.unique hret)
      have hself := S.self
      have hgrows := S.grows
      have hfew := P.few
      refine ⟨tails', back', by rw [hself]; exact P.lawful, S.table, S.size P.size,
        by rw [hself]; exact P.nBuckets, by rw [hself]; exact P.nextSize, ?_, ?_⟩
      · rw [hself]
        change s'.self.size ≤ s.self.nextSize
        omega
      · push_cast
        omega
    · -- the allocation of the overflow node fails
      obtain ⟨hn, hg⟩ := not_or.mp hg
      obtain ⟨hh, hg⟩ := not_or.mp hg
      have hret := insertBucket_fail value P.table.toShape (hb.resolve_right hh)
        (Bool.eq_false_iff.mpr hh) hn (Bool.eq_false_iff.mpr hg)
      obtain ⟨-, rfl⟩ := Prod.mk.inj (hr.unique (hret.bind (Returns.pure _)))
      exact ⟨tails, back, (P.kept (kept_pass s)).mono (Nat.le_succ _)⟩
  · -- the search of a chain that runs into itself does not end
    obtain ⟨hback, hh⟩ := not_or.mp hb
    obtain ⟨f, hf⟩ := hr.exists
    rw [NcHashmap.storeIn, insertBucket_closed P.table.toShape hback
      (Bool.eq_false_iff.mpr hh)] at hf
    cases hf

/-- After a successful resize there is room. -/
theorem resized {tails' : ℕ → List ℕ}
    (P : Loaded puts s tails fun _ => none) (R : Resized NonNull s s' tails tails')
    (hint : s.self.nBuckets * increaseFactor ≤ intMax) :
    Loaded puts s' tails' (fun _ => none) ∧ s'.self.size < s'.self.nextSize := by
  have hself := R.self
  have hsize : s'.self.size = s.self.size := by rw [hself, P.size]
  have hn : s'.self.nBuckets = s.self.nBuckets * increaseFactor := by rw [hself]
  have hgrown : ∃ k, s'.self.nBuckets = initialSize * increaseFactor ^ k := by
    obtain ⟨k, hk⟩ := P.nBuckets
    exact ⟨k + 1, by rw [hn, hk, Nat.pow_succ, Nat.mul_assoc]⟩
  have hnext : s'.self.nextSize = (s'.self.nBuckets * 7 / 10 : ℕ) := by
    rw [← fullSize_quadrupled hgrown (by rw [hn]; exact hint), hself]
  have hroom : s'.self.size < s'.self.nextSize := by
    obtain ⟨k, hk⟩ := P.nBuckets
    have hpos : 61 ≤ s.self.nBuckets := by
      rw [hk]
      exact Nat.le_mul_of_pos_right 61 (Nat.pow_pos (by decide))
    have hload := P.load
    rw [P.nextSize] at hload
    rw [hsize, hnext, hn]
    unfold increaseFactor
    omega
  refine ⟨⟨by rw [hself]; exact P.lawful, R.table, ?_, hgrown, hnext, hroom.le, ?_⟩, hroom⟩
  · rw [R.pairs.length_eq, hsize, P.size]
  · rw [hsize]
    exact P.few

theorem put (P : Loaded puts s tails back) (hk : NonNull key) {value : V} {ok : Bool}
    (hr : Returns (fun f => NcHashmap.put f s key value) (ok, s')) :
    ∃ tails' back', Loaded (puts + 1) s' tails' back' := by
  cases hres : s.self.maybeResize with
  | false =>
      have hroom : s.self.size < s.self.nextSize := Int.not_le.mp (of_decide_eq_false hres)
      exact P.storeIn hk hroom (hr.congr fun f => (put_keep hres f key value).symm)
  | true =>
      have keep : ∀ {t : State K V}, Kept s t → ∃ tails' back', Loaded (puts + 1) t tails' back' :=
        fun h => ⟨tails, back, (P.kept h).mono (Nat.le_succ _)⟩
      by_cases hall : ∀ i < s.self.nBuckets, back i = none
      · have P' : Loaded puts s tails fun _ => none :=
          { P with
            table := ⟨P.table.toShape.back_congr fun i hi => (hall i hi).symm, P.table.rows⟩ }
        by_cases hint : s.self.nBuckets * increaseFactor ≤ intMax
        · cases hg : s.mem.grants s.mem.tick with
          | false =>
              have hret : Returns (fun f => NcHashmap.put f s key value) (false, _) :=
                put_resize hres (resize_refused hint hg) (Returns.pure _)
              obtain ⟨-, rfl⟩ := Prod.mk.inj (hr.unique hret)
              exact keep (kept_pass s)
          | true =>
              obtain ⟨ok₁, s₁, hret₁, ⟨rfl, tails₁, R⟩ | ⟨rfl, S⟩⟩ :=
                resize_granted P'.table.toShape P.table.rows.keys_contents
                  (P.table.rows.uniq_contents (P.lawful.toLawful.slot _)) hint hg
              · obtain ⟨P₁, hroom⟩ := P'.resized R hint
                have hstore : Returns (fun f => NcHashmap.storeIn f s₁ key value) (ok, s') := by
                  filter_upwards [hr, hret₁] with f h₁ h₂
                  simp only [NcHashmap.put, hres, if_true, h₂] at h₁
                  exact h₁
                exact P₁.storeIn hk hroom hstore
              · obtain ⟨-, rfl⟩ := Prod.mk.inj
                  (hr.unique (put_resize hres hret₁ (Returns.pure _)))
                exact keep ⟨S.self, S.frame, S.grants⟩
        · obtain ⟨f, hf⟩ := hr.exists
          rw [put_overflow hres (Nat.lt_of_not_le hint)] at hf
          cases hf
      · -- a table with a chain that runs into itself cannot be copied
        simp only [not_forall] at hall
        obtain ⟨i, hi, hb⟩ := hall
        obtain ⟨f, hf⟩ := hr.exists
        exact keep (put_looped P.table.toShape hi hb hres hf).2

/-! ### Removals and runs -/

theorem removal (P : Loaded puts s tails back) (hk : NonNull key) {remove ok : Bool}
    (hr : Returns (fun f => removeInternal f s key remove) (ok, s')) :
    Loaded puts s' tails back := by
  have hnull := P.lawful.null_ne key hk
  cases hh : has s.self.compare (rowsOf s.mem.toHeap s.self.buckets tails
      (slotOf s.self s.self.nBuckets key)) key with
  | true =>
      obtain ⟨xs, a, ys, e, hx, hxs, he, ho, hc, hget⟩ := P.table.getEntry_found (.inl hnull) hh
      obtain ⟨-, rfl⟩ := Prod.mk.inj (hr.unique (removeInternal_of_getEntry remove hget he))
      obtain ⟨T', hrow, hrest⟩ := P.table.vacate hx hxs he ho hc remove
      have hload := P.load
      have hfew := P.few
      refine ⟨P.lawful, ⟨T'.toShape, T'.rows⟩, P.table.size_vacate hh hrow hrest P.size, P.nBuckets,
        P.nextSize, ?_, ?_⟩
      · change s.self.size - 1 ≤ s.self.nextSize
        omega
      · change s.self.size - 1 ≤ puts
        omega
  | false =>
      by_cases hb : back (slotOf s.self s.self.nBuckets key) = none
      · have hret := removeInternal_of_none remove (P.table.getEntry_none (.inl hnull) hh hb)
        obtain ⟨-, rfl⟩ := Prod.mk.inj (hr.unique hret)
        exact P
      · -- the lookup goes round for ever
        obtain ⟨f, hf⟩ := hr.exists
        rw [removeInternal, P.table.getEntry_closed (.inl hnull) hh hb] at hf
        cases hf

end Loaded

/-- How many calls of a run are puts. -/
def putCount : List (Op K V) → ℕ
  | [] => 0
  | .put _ _ :: ops => putCount ops + 1
  | _ :: ops => putCount ops

omit [Null K] [Null V] in
theorem putCount_append (ops ops' : List (Op K V)) :
    putCount (ops ++ ops') = putCount ops + putCount ops' := by
  induction ops with
  | nil => exact (Nat.zero_add _).symm
  | cons op ops ih =>
      cases op with
      | put key value =>
          simp only [List.cons_append, putCount, ih]
          omega
      | remove key => exact ih
      | steal key => exact ih
      | get key => exact ih

theorem Loaded.call {s s' : State K V} {puts : ℕ} {tails : ℕ → List ℕ} {back : ℕ → Option Loc}
    (P : Loaded puts s tails back) {op : Op K V} (hk : NonNull op.key)
    (hr : Returns (fun f => Nica.call f s op) s') :
    ∃ tails' back', Loaded (puts + putCount [op]) s' tails' back' := by
  cases op with
  | put key value =>
      obtain ⟨ok, hret⟩ := returns_of_call (put_steady s key value) hr
      exact P.put hk hret
  | remove key =>
      obtain ⟨ok, hret⟩ := returns_of_call (removeInternal_steady s key true) hr
      exact ⟨tails, back, P.removal hk hret⟩
  | steal key =>
      obtain ⟨ok, hret⟩ := returns_of_call (removeInternal_steady s key false) hr
      exact ⟨tails, back, P.removal hk hret⟩
  | get key =>
      obtain rfl := eq_of_call_get hr
      exact ⟨tails, back, P⟩

theorem newInternal_loaded {m : Mem K V} {create : K → UInt32} {compare : K → K → Bool}
    (L : LawfulKeys create compare) {keyFree valueFree : Bool} {s : State K V}
    (h : newInternal m create compare keyFree valueFree = some s) :
    Loaded 0 s (fun _ => []) fun _ => none := by
  obtain ⟨T, hrow, hself, -⟩ := newInternal_table h NonNull
  have hsize : s.self.size = 0 := by rw [hself]
  have hnext : s.self.nextSize = 42 := by rw [hself]
  have hn : s.self.nBuckets = initialSize := by rw [hself]
  refine ⟨by rw [hself]; exact L, T, ?_, ⟨0, hn⟩, ?_, ?_, hsize.le⟩
  · rw [contents_holes hrow, hsize]
    rfl
  · rw [hnext, hn]
    rfl
  · rw [hsize, hnext]
    decide

theorem Loaded.run {s₀ s : State K V} {tails : ℕ → List ℕ} {back : ℕ → Option Loc}
    (P : Loaded 0 s₀ tails back) {ops : List (Op K V)}
    (hrun : Run (fun _ op => NonNull op.key) s₀ ops s) :
    ∃ tails' back', Loaded (putCount ops) s tails' back' := by
  induction hrun with
  | init => exact ⟨tails, back, P⟩
  | call _ hk hr ih =>
      obtain ⟨tails', back', P'⟩ := ih
      rw [putCount_append]
      exact P'.call hk hr

/-- In every run with at most `2 ^ 29` puts, whatever allocations fail: the table has one of the
sizes `61 * 4 ^ k`, `next_size` is seven tenths of it, `size` counts the occupied entries and is at
most `next_size`, and what the next call would make of `n_buckets` and `size` is an `int`. -/
theorem load_bound {m : Mem K V} {hash : K → UInt32} {compare : K → K → Bool}
    (L : LawfulKeys hash compare) {s₀ : State K V} (hnew : new m hash compare = some s₀)
    {ops : List (Op K V)} {s : State K V} (hrun : Run (fun _ op => NonNull op.key) s₀ ops s)
    (hputs : putCount ops ≤ 2 ^ 29) :
    (∃ k, s.self.nBuckets = 61 * 4 ^ k) ∧
    s.self.nextSize = (7 * s.self.nBuckets / 10 : ℕ) ∧
    0 ≤ s.self.size ∧ s.self.size ≤ s.self.nextSize ∧
    (∃ nodes : List Loc, nodes.Nodup ∧ (∀ a, a ∈ nodes ↔ ∃ k v, OccupiedAt s a k v) ∧
      s.self.size = nodes.length) ∧
    (s.self.maybeResize = true → s.self.nBuckets * increaseFactor ≤ intMax) ∧
    s.self.size + 1 ≤ intMax ∧ -(intMax : ℤ) - 1 ≤ s.self.size - 1 := by
  obtain ⟨tails, back, P⟩ := (newInternal_loaded L hnew).run hrun
  obtain ⟨nodes, hnd, hmem, hlen⟩ := P.table.toShape.occupied_entries
  have hpos : 0 ≤ s.self.size := by rw [P.size]; omega
  have hfew := P.few
  refine ⟨P.nBuckets, by rw [P.nextSize, Nat.mul_comm], hpos, P.load,
    ⟨nodes, hnd, hmem, by rw [hlen]; exact P.size⟩, fun hr => P.mul_le_intMax hr hputs, ?_, ?_⟩
  all_goals unfold intMax; omega

/-- The keys 1, 62 and 123 share a bucket, and there is no memory for the node of 123.  62 is replaced,
removed and put again, and further puts make the table grow. -/
def loading : List (Op UInt64 UInt64) :=
  [.put 1 7, .put 62 8, .put 123 9, .put 62 10, .remove 62, .put 62 11, .get 123] ++
    ((List.range 42).map fun i => .put (UInt64.ofNat (i + 2)) 7) ++ [.steal 2]

def loaded : Except Fault (State UInt64 UInt64) :=
  match new { Heap.empty _ (fun i => i != 3) with log := [] } ncSimpleHash ncSimpleCompare with
  | none => .error .dangling
  | some s => perform 5 s loading

theorem load_bound_loading : ∃ s₀ s : State UInt64 UInt64,
    Run (fun _ op => NonNull op.key) s₀ loading s ∧ s.self.nBuckets = 244 ∧ s.self.nextSize = 170 ∧
    s.self.size = 43 ∧ ∃ nodes : List Loc, nodes.Nodup ∧ nodes.length = 43 ∧
      ∀ a, a ∈ nodes ↔ ∃ k v, OccupiedAt s a k v := by
  have hseen : loaded.toOption.map (fun s => (s.self.nBuckets, s.self.size)) = some (244, 43) := by
    decide +kernel
  obtain ⟨s, hs, hsee⟩ := Option.map_eq_some_iff.mp hseen
  obtain ⟨hn, hsize⟩ := Prod.mk.inj hsee
  have hperform := ok_of_toOption hs
  unfold loaded at hperform
  split at hperform
  · cases hperform
  · rename_i s₀ h₀
    have hkeys : ∀ op ∈ loading, NonNull op.key := by decide +kernel
    have hrun := Run.init.perform (Q := fun op => NonNull op.key) hkeys hperform
    obtain ⟨-, hnext, -, -, ⟨nodes, hnd, hmem, hlen⟩, -⟩ :=
      load_bound simple_lawful.toLawfulKeys h₀ hrun (by decide +kernel)
    rw [hn] at hnext
    rw [hsize] at hlen
    exact ⟨s₀, s, hrun, hn, hnext, hsize, nodes, hnd, by exact_mod_cast hlen.symm, hmem⟩

end Nica
