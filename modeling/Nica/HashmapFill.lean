import Nica.HashmapPut
import Nica.HashmapFuel

/-! # Maps that are only added to

A map on which nothing was ever removed has dense chains, so no put relinks a hole and its table is
always one of the sizes `61 * 4 ^ k` (`Packed`).  Every put on it succeeds as long as it holds fewer
than `2 ^ 29` pairs (`Filled.put`): the next table size is then still an `int`
(`Packed.mul_le_intMax`). -/

namespace Nica

open Blocks Linked Rows Fueled NcHashmap

variable {K V : Type} [Null K] [Null V]

structure Packed (D : K → Prop) (s : State K V) (tails : ℕ → List ℕ) : Prop where
  table : Table s.self D s.mem.toHeap s.self.buckets s.self.nBuckets tails fun _ => none
  dense : ∀ i < s.self.nBuckets, Dense (rowsOf s.mem.toHeap s.self.buckets tails i)
  size : s.self.size = (contents (rowsOf s.mem.toHeap s.self.buckets tails) s.self.nBuckets).length
  nBuckets : ∃ k, s.self.nBuckets = initialSize * increaseFactor ^ k
  nextSize : s.self.nextSize = (s.self.nBuckets * 7 / 10 : ℕ)

def Filled (D : K → Prop) (s : State K V) : Prop := ∃ tails, Packed D s tails

/-- At the table sizes of a run on a new map the rounded product with `FULL_FACTOR` is seven tenths
of the size, rounded down. -/
theorem fullSize_quadrupled {n : ℕ} (hn : ∃ k, n = initialSize * increaseFactor ^ k)
    (hint : n ≤ intMax) : fullSize n = n * 7 / 10 := by
  obtain ⟨k, rfl⟩ := hn
  have hk : k < 13 := by
    by_contra hge
    have hpow : 4 ^ 13 ≤ 4 ^ k := Nat.pow_le_pow_right (by decide) (by omega)
    unfold initialSize increaseFactor intMax at hint
    omega
  have sizes : ∀ k < 13, fullSize (initialSize * increaseFactor ^ k) =
      initialSize * increaseFactor ^ k * 7 / 10 := by decide +kernel
  exact sizes k hk

variable {D : K → Prop} {s : State K V} {tails : ℕ → List ℕ} {key : K}

/-- A table size whose load is at most `2 ^ 29` can be multiplied within `int`. -/
theorem mul_le_intMax_of_load {n : ℕ} (hn : ∃ k, n = initialSize * increaseFactor ^ k)
    (hload : n * 7 / 10 ≤ 2 ^ 29) : n * increaseFactor ≤ intMax := by
  obtain ⟨k, rfl⟩ := hn
  unfold initialSize increaseFactor intMax at *
  have hk : k < 12 := by
    by_contra hge
    have hpow : 4 ^ 12 ≤ 4 ^ k := Nat.pow_le_pow_right (by decide) (by omega)
    omega
  have hpow : 4 ^ k ≤ 4 ^ 11 := Nat.pow_le_pow_right (by decide) (by omega)
  omega

/-- The table of a map of fewer than `2 ^ 29` pairs can be resized within `int`. -/
theorem Packed.mul_le_intMax (P : Packed D s tails) (hr : s.self.maybeResize = true)
    (hsize : s.self.size < 2 ^ 29) : s.self.nBuckets * increaseFactor ≤ intMax := by
  have hle : s.self.nextSize ≤ s.self.size := of_decide_eq_true hr
  rw [P.nextSize] at hle
  apply mul_le_intMax_of_load P.nBuckets
  omega

theorem Filled.wellFormed (L : Lawful D s.self.hash s.self.compare) (F : Filled D s) :
    WellFormedOn D s := by
  obtain ⟨tails, P⟩ := F
  exact P.table.wellFormed L P.size

/-- A put keeps a map packed if the new table is dense and no chain runs into itself. -/
theorem Packed.stored {s' : State K V} {value : V} {tails' : ℕ → List ℕ} {back' : ℕ → Option Loc}
    (P : Packed D s tails) (S : Stored D s s' key value tails tails' back')
    (hint : s.self.maybeResize = true → s.self.nBuckets * increaseFactor ≤ intMax)
    (hback : ∀ j < s'.self.nBuckets, back' j = none)
    (hdense : ∀ j < s'.self.nBuckets, Dense (rowsOf s'.mem.toHeap s'.self.buckets tails' j)) :
    Packed D s' tails' where
  table := S.table_closed hback
  dense := hdense
  size := (S.size P.size).1
  nBuckets := by
    obtain ⟨n, hn⟩ := P.nBuckets
    rw [S.nBuckets]
    split_ifs
    · exact ⟨n + 1, by rw [hn, Nat.pow_succ, Nat.mul_assoc]⟩
    · exact ⟨n, hn⟩
  nextSize := by
    obtain ⟨n, hn⟩ := P.nBuckets
    rw [S.nextSize, S.nBuckets]
    split_ifs with hr
    · rw [fullSize_quadrupled ⟨n + 1, by rw [hn, Nat.pow_succ, Nat.mul_assoc]⟩ (hint hr)]
    · exact P.nextSize

theorem Filled.put (L : Lawful D s.self.hash s.self.compare) (F : Filled D s) (hk : D key)
    (value : V) (hg : ∀ i, s.mem.grants i = true) (hsize : s.self.size < 2 ^ 29) :
    ∃ s', Returns (fun f => NcHashmap.put f s key value) (true, s') ∧ Added s s' key value ∧
      Filled D s' ∧ s'.self.size ≤ s.self.size + 1 := by
  obtain ⟨tails, P⟩ := F
  have hint := fun hr => P.mul_le_intMax hr hsize
  cases hr : s.self.maybeResize with
  | true =>
      obtain ⟨s', tails', hret, S, hdense⟩ := put_rebuilds L P.table hk value hr (hint hr) hg
      exact ⟨s', hret, S.added P.table, ⟨tails', P.stored S hint (fun _ _ => rfl) hdense⟩,
        (S.size P.size).2⟩
  | false =>
      obtain ⟨s', tails', back', hret, S, I⟩ :=
        put_keeps L P.table hk value hr (.inl rfl) (hg _)
      have hi := P.table.slotOf_lt key
      have hn : s'.self.nBuckets = s.self.nBuckets := by rw [S.nBuckets, hr]; rfl
      have hb : s'.self.buckets = s.self.buckets := S.buckets hr
      refine ⟨s', hret, S.added P.table, ⟨tails', P.stored S hint (fun j hj => ?_) fun j hj => ?_⟩,
        (S.size P.size).2⟩
      · exact I.acyclic (not_relinks (P.dense _ hi) key) j (hn ▸ hj)
      · rw [hb]
        by_cases hj' : j = slotOf s.self s.self.nBuckets key
        · rw [hj', I.row]
          exact .inr ((P.dense _ hi).put _ _ _)
        · rw [I.rest j (hn ▸ hj) hj']
          exact P.dense j (hn ▸ hj)

theorem newInternal_filled {m : Mem K V} {create : K → UInt32} {compare : K → K → Bool}
    {keyFree valueFree : Bool} (h : newInternal m create compare keyFree valueFree = some s) :
    Filled D s := by
  obtain ⟨T, hrow, hself, -⟩ := newInternal_table h D
  have hnext : (42 : ℤ) = (initialSize * 7 / 10 : ℕ) := by decide
  refine ⟨_, T, fun i hi => .inl (hrow i hi), ?_, ⟨0, by rw [hself]; rfl⟩, by rw [hself]; exact hnext⟩
  rw [contents_holes hrow, hself]
  rfl

def puts (fuel : ℕ) : State K V → List (K × V) → Except Fault (State K V)
  | s, [] => .ok s
  | s, p :: ps => do
      let (_, s) ← NcHashmap.put fuel s p.1 p.2
      puts fuel s ps

/-- `s'` is `s` after putting `ps`.  If no two keys of `ps` are equal, it holds them and the pairs of
`s` with other keys. -/
structure PutsDone (D : K → Prop) (s s' : State K V) (ps : List (K × V)) : Prop where
  filled : Filled D s'
  hash : s'.self.hash = s.self.hash
  compare : s'.self.compare = s.self.compare
  grants : s'.mem.grants = s.mem.grants
  holds : (ps.Pairwise fun p q => s.self.compare p.1 q.1 = false) → ∀ k v, Holds s' k v ↔
    (k, v) ∈ ps ∨ (Holds s k v ∧ ∀ p ∈ ps, s.self.compare k p.1 = false)

theorem puts_filled {ps : List (K × V)} {s s' : State K V} {f : ℕ}
    (L : Lawful D s.self.hash s.self.compare) (F : Filled D s) (hk : ∀ p ∈ ps, D p.1)
    (hg : ∀ i, s.mem.grants i = true) (hsize : s.self.size + ps.length ≤ 2 ^ 29)
    (hr : puts f s ps = .ok s') : PutsDone D s s' ps := by
  induction ps generalizing s with
  | nil =>
      obtain rfl := Except.ok.inj hr
      exact ⟨F, rfl, rfl, rfl, fun _ k v => by simp⟩
  | cons p ps ih =>
      rw [List.length_cons] at hsize
      push_cast at hsize
      obtain ⟨s₁, hput, A, F₁, hs₁⟩ := F.put L (hk p List.mem_cons_self) p.2 hg (by omega)
      unfold puts at hr
      cases hcall : NcHashmap.put f s p.1 p.2 with
      | error e => rw [hcall] at hr; cases hr
      | ok x =>
          -- the call that was made is the one that the lemma describes
          obtain rfl := ((put_steady s p.1 p.2).returns hcall).unique hput
          rw [hcall] at hr
          have P := ih (by rw [A.hash, A.compare]; exact L) F₁
            (fun q hq => hk q (List.mem_cons_of_mem p hq)) (by rw [A.grants]; exact hg) (by omega) hr
          refine ⟨P.filled, P.hash.trans A.hash, P.compare.trans A.compare,
            P.grants.trans A.grants, fun hne k v => ?_⟩
          obtain ⟨hp, hne⟩ := List.pairwise_cons.mp hne
          rw [P.holds (by rw [A.compare]; exact hne), A.holds, A.compare, List.mem_cons,
            List.forall_mem_cons, Prod.ext_iff]
          constructor
          · rintro (h | ⟨h | h, hps⟩)
            · exact .inl (.inr h)
            · exact .inl (.inl h)
            · exact .inr ⟨h.1, h.2, hps⟩
          · rintro ((h | h) | ⟨h, hk, hps⟩)
            · exact .inr ⟨.inl h, fun q hq => by rw [show k = p.1 from h.1]; exact hp q hq⟩
            · exact .inl h
            · exact .inr ⟨.inr ⟨h, hk⟩, hps⟩

end Nica
