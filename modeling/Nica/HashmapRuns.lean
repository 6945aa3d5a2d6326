import Nica.HashmapIter
import Nica.HashmapFill
import Nica.HashmapFuel

/-! # Runs of calls on a map

A run is any sequence of puts, removals, steals and lookups, each of which ends (`Run`).  On a map
with lawful keys and enough memory every chain keeps ending in NULL as long as no put relinks a hole
(`chains_end`): such a put makes the last entry of its chain point back into the chain
(`chains_end_relinked`). -/

namespace Nica

open Blocks Linked Rows Fueled NcHashmap

variable {K V : Type}

/-- The calls of a run. -/
inductive Op (K V : Type) where
  | put (key : K) (value : V)
  | remove (key : K)
  | steal (key : K)
  | get (key : K)

/-- The key that a call is made with. -/
def Op.key : Op K V → K
  | .put k _ => k
  | .remove k => k
  | .steal k => k
  | .get k => k

/-- The call ends: it has a result, or it stops at the `int` overflow of a table size. -/
def Terminates {α : Type} (f : ℕ → Except Fault α) : Prop :=
  (∃ r, Returns f r) ∨ ∀ n, f n = .error .overflow

theorem terminates_of_returns {α : Type} {f : ℕ → Except Fault α} {r : α} (h : Returns f r) :
    Terminates f := .inl ⟨r, h⟩

theorem not_terminates {α : Type} {f : ℕ → Except Fault α} (h : ∀ n, f n = .error .timeout) :
    ¬ Terminates f := by
  rintro (⟨r, hr⟩ | ho)
  · obtain ⟨n, hn⟩ := hr.exists
    rw [h n] at hn
    cases hn
  · have := (h 0).symm.trans (ho 0)
    cases this

/-- Every chain of the table reaches NULL without visiting an entry twice, and no entry lies on two
chains. -/
def ChainsEnd (s : State K V) : Prop :=
  ∃ chains : ℕ → List Loc,
    (∀ i < s.self.nBuckets, (chains i).Nodup ∧
      Path NcHashmapEntry.next s.mem.cells (some (.slot s.self.buckets i)) (chains i) none) ∧
    ∀ i < s.self.nBuckets, ∀ j < s.self.nBuckets, i ≠ j → (chains i).Disjoint (chains j)

/-- A call that leaves the map `s'` has a result. -/
theorem returns_of_call {f : ℕ → Except Fault (Bool × State K V)} (hf : Steady f) {s' : State K V}
    (h : Returns (fun n => f n >>= fun x => .ok x.2) s') : ∃ ok, Returns f (ok, s') := by
  obtain ⟨n, hn⟩ := h.exists
  obtain ⟨⟨ok, t⟩, ht, he⟩ := ok_of_bind hn
  obtain rfl := Except.ok.inj he
  exact ⟨ok, hf.returns ht⟩

variable [Null K] [Null V]

theorem WellFormed.chainsEnd {s : State K V} (wf : WellFormed s) : ChainsEnd s := by
  obtain ⟨tails, hS, -⟩ := wf
  exact ⟨chainOf s.self.buckets tails, fun i hi => ⟨hS.chain_nodup hi, hS.path i hi⟩,
    fun i hi j hj hij _ ha => hS.chain_apart hi hj hij ha⟩

/-- The map after a call. -/
def call (fuel : ℕ) (s : State K V) : Op K V → Except Fault (State K V)
  | .put key value => do
      let (_, s') ← put fuel s key value
      .ok s'
  | .remove key => do
      let (_, s') ← remove fuel s key
      .ok s'
  | .steal key => do
      let (_, s') ← steal fuel s key
      .ok s'
  | .get key => do
      let _ ← get fuel s key
      .ok s

theorem call_steady (s : State K V) (op : Op K V) : Steady fun f => call f s op := by
  cases op with
  | put key value => exact (put_steady s key value).bind fun _ => .const _
  | remove key => exact (removeInternal_steady s key true).bind fun _ => .const _
  | steal key => exact (removeInternal_steady s key false).bind fun _ => .const _
  | get key => exact (get_steady s key).bind fun _ => .const _

/-- A lookup leaves the map as it was. -/
theorem eq_of_call_get {s s' : State K V} {key : K}
    (h : Returns (fun f => call f s (.get key)) s') : s' = s := by
  obtain ⟨f, hf⟩ := h.exists
  obtain ⟨v, -, hs⟩ := ok_of_bind hf
  exact (Except.ok.inj hs).symm

/-- The calls `ops`, each of which ends and meets the condition `P` on the map before it, lead from
`s₀` to `s`. -/
inductive Run (P : State K V → Op K V → Prop) (s₀ : State K V) : List (Op K V) → State K V → Prop
  | init : Run P s₀ [] s₀
  | call {ops : List (Op K V)} {s s' : State K V} {op : Op K V} :
      Run P s₀ ops s → P s op → Returns (fun f => call f s op) s' → Run P s₀ (ops ++ [op]) s'

/-- What a new map satisfies and every call keeps holds after every run. -/
theorem Run.invariant {P : State K V → Op K V → Prop} {I : State K V → Prop} {s₀ s : State K V}
    {ops : List (Op K V)} (hrun : Run P s₀ ops s) (h₀ : I s₀)
    (hstep : ∀ s op s', I s → P s op → Returns (fun f => Nica.call f s op) s' → I s') : I s := by
  induction hrun with
  | init => exact h₀
  | call _ hp hr ih => exact hstep _ _ _ ih hp hr

/-- The calls one after the other, each with the same amount of fuel. -/
def perform (fuel : ℕ) (s : State K V) : List (Op K V) → Except Fault (State K V)
  | [] => .ok s
  | op :: ops => do
      let s' ← call fuel s op
      perform fuel s' ops

theorem Run.perform {Q : Op K V → Prop} {s₀ s s' : State K V} {ops ops' : List (Op K V)} {n : ℕ}
    (hrun : Run (fun _ op => Q op) s₀ ops s) (hQ : ∀ op ∈ ops', Q op)
    (h : perform n s ops' = .ok s') : Run (fun _ op => Q op) s₀ (ops ++ ops') s' := by
  induction ops' generalizing s ops with
  | nil =>
      obtain rfl := Except.ok.inj h
      rwa [List.append_nil]
  | cons op ops' ih =>
      simp only [Nica.perform] at h
      cases hc : Nica.call n s op with
      | error e => rw [hc] at h; cases h
      | ok t =>
          rw [hc] at h
          rw [List.append_cons]
          exact ih (hrun.call (hQ op List.mem_cons_self) ((call_steady s op).returns hc))
            (fun o ho => hQ o (List.mem_cons_of_mem op ho)) h

/-- The calls one after the other, each with the same amount of fuel and only if it passes `test`. -/
def performIf (test : State K V → Op K V → Bool) (fuel : ℕ) (s : State K V) :
    List (Op K V) → Except Fault (State K V)
  | [] => .ok s
  | op :: ops =>
      if test s op then do
        let s' ← call fuel s op
        performIf test fuel s' ops
      else .error .dangling

/-- A run whose calls pass a test that, as long as `I` holds, stands for the condition `P`. -/
theorem Run.performIf {P : State K V → Op K V → Prop} {test : State K V → Op K V → Bool}
    {I : State K V → Prop} (htest : ∀ s op, I s → test s op = true → P s op)
    (hstep : ∀ s op s', I s → P s op → Returns (fun f => Nica.call f s op) s' → I s')
    {s₀ s s' : State K V} {ops ops' : List (Op K V)} {n : ℕ} (hrun : Run P s₀ ops s) (hI : I s)
    (h : performIf test n s ops' = .ok s') : Run P s₀ (ops ++ ops') s' := by
  induction ops' generalizing s ops with
  | nil =>
      obtain rfl := Except.ok.inj h
      rwa [List.append_nil]
  | cons op ops' ih =>
      rw [Nica.performIf] at h
      split_ifs at h with hop
      obtain ⟨t, hc, h⟩ := ok_of_bind h
      have hret := (call_steady s op).returns hc
      have hP := htest s op hI hop
      rw [List.append_cons]
      exact ih (hrun.call hP hret) (hstep s op t hI hP hret) h

/-! ### Chains that end -/

/-- The call has a key that is not NULL, and does not store it in the place of a hole that is not
the last entry of its chain, unless the table is resized first. -/
def KeepsChains (s : State K V) (op : Op K V) : Prop :=
  NonNull op.key ∧
    ∀ k v, op = .put k v → s.self.maybeResize = true ∨ ¬ RelinksAt s k

/-- The condition as a test, for chains of at most five entries. -/
def keepsChains [DecidableEq K] [DecidableEq V] (s : State K V) (op : Op K V) : Bool :=
  decide (NonNull op.key) && match op with
    | .put k _ => s.self.maybeResize ||
        match rowFrom s 5 (some (.slot s.self.buckets (slotOf s.self s.self.nBuckets k))) with
        | none => false
        | some r => has s.self.compare r k || !holed r || decide (r.getLast? = some none)
    | _ => true

omit [Null V] in
theorem keepsChains_of_test [DecidableEq K] [DecidableEq V] (s : State K V) (op : Op K V)
    (h : keepsChains s op = true) : KeepsChains s op := by
  obtain ⟨hk, h⟩ := (Bool.and_eq_true _ _).mp h
  refine ⟨of_decide_eq_true hk, fun k v hop => ?_⟩
  subst hop
  rcases (Bool.or_eq_true _ _).mp h with h | h
  · exact .inl h
  · cases hr : rowFrom s 5 (some (.slot s.self.buckets (slotOf s.self s.self.nBuckets k))) with
    | none => simp [hr] at h
    | some r =>
        refine .inr (not_relinksAt_of_rowFrom hr ?_)
        rintro ⟨hno, hn, hlast⟩
        simp [hr, hno, holed_iff.mpr hn, hlast] at h

variable {s : State K V}

/-- A call on a well-formed map ends, and leaves a well-formed map unless it relinks a hole. -/
theorem call_wellFormed (L : LawfulKeys s.self.hash s.self.compare) (wf : WellFormedOn NonNull s)
    (hg : ∀ i, s.mem.grants i = true) {op : Op K V} (hk : NonNull op.key) :
    (∃ s', Returns (fun f => call f s op) s' ∧ (KeepsChains s op → WellFormedOn NonNull s') ∧
      s'.self.hash = s.self.hash ∧ s'.self.compare = s.self.compare ∧
      s'.mem.grants = s.mem.grants) ∨
    ∀ f, call f s op = .error .overflow := by
  have hnull := L.null_ne op.key hk
  cases op with
  | put key value =>
      by_cases hint : s.self.maybeResize = true → s.self.nBuckets * increaseFactor ≤ intMax
      · obtain ⟨s', hr, A, -, hwf, -⟩ := put_spec L.toLawful wf hk value hg hint
        exact .inl ⟨s', hr.bind (Returns.pure _), fun h => hwf (h.2 key value rfl), A.hash,
          A.compare, A.grants⟩
      · obtain ⟨hr, hn⟩ := Classical.not_imp.mp hint
        refine .inr fun f => ?_
        simp only [call, put_overflow hr (Nat.lt_of_not_le hn)]
        rfl
  | remove key =>
      obtain ⟨ok, s', hr, hwf, -, -, h⟩ := remove_spec L.toLawful wf hk hnull true
      exact .inl ⟨s', hr.bind (Returns.pure _), fun _ => hwf, h⟩
  | steal key =>
      obtain ⟨ok, s', hr, hwf, -, -, h⟩ := remove_spec L.toLawful wf hk hnull false
      exact .inl ⟨s', hr.bind (Returns.pure _), fun _ => hwf, h⟩
  | get key =>
      obtain ⟨hp, ha⟩ := get_spec L.toLawful wf hk hnull
      have hend : ∃ v, Returns (fun f => get f s key) v := by
        by_cases h : ∃ k v, Holds s k v ∧ s.self.compare k key = true
        · obtain ⟨k, v, hkv, hc⟩ := h
          exact ⟨v, hp k v hkv hc⟩
        · exact ⟨null, ha fun k v hkv => Bool.eq_false_iff.mpr fun hc => h ⟨k, v, hkv, hc⟩⟩
      obtain ⟨v, hv⟩ := hend
      exact .inl ⟨s, hv.bind (Returns.pure _), fun _ => wf, rfl, rfl, rfl⟩

theorem resize_terminates (wf : WellFormed s) (hg : ∀ i, s.mem.grants i = true) :
    Terminates fun f => resize f s := by
  obtain ⟨tails, T, hu, -⟩ := wf.everywhere.table
  by_cases hint : s.self.nBuckets * increaseFactor ≤ intMax
  · obtain ⟨ok, s', hr, -⟩ :=
      resize_granted (D := fun _ => True) T.toShape (fun _ _ => trivial) hu hint (hg _)
    exact terminates_of_returns hr
  · exact .inr fun f => resize_overflow (Nat.lt_of_not_le hint) f

/-- In every run in which no put relinks a hole, every chain ends in NULL, no entry lies on two
chains, and every further call on the map ends. -/
theorem chains_end {m : Mem K V} {hash : K → UInt32} {compare : K → K → Bool}
    (L : LawfulKeys hash compare) (hg : ∀ i, m.grants i = true) {s₀ : State K V}
    (hnew : new m hash compare = some s₀) {ops : List (Op K V)} {s : State K V}
    (hrun : Run KeepsChains s₀ ops s) :
    ChainsEnd s ∧
    (∀ op : Op K V, NonNull op.key → Terminates fun f => call f s op) ∧
    (Terminates fun f => resize f s) ∧
    (Terminates fun f => drain s f iterInit) ∧
    Terminates fun f => free f s := by
  have I : WellFormedOn NonNull s ∧ s.self.hash = hash ∧ s.self.compare = compare ∧
      ∀ i, s.mem.grants i = true := by
    refine hrun.invariant (I := fun s => WellFormedOn NonNull s ∧ s.self.hash = hash ∧
      s.self.compare = compare ∧ ∀ i, s.mem.grants i = true) ?_
      fun s op s' ⟨wf, hh, hc, hm⟩ hk hr => ?_
    · obtain ⟨-, -, hself, hgrants⟩ := newInternal_table hnew NonNull
      exact ⟨(newInternal_wellFormed hnew L.toLawful).1, by rw [hself], by rw [hself],
        by rw [hgrants]; exact hg⟩
    · rcases call_wellFormed (by rw [hh, hc]; exact L) wf hm hk.1 with
        ⟨t, ht, hwf, hh', hc', hm'⟩ | ho
      · obtain rfl := hr.unique ht
        exact ⟨hwf hk, hh'.trans hh, hc'.trans hc, fun i => by rw [hm']; exact hm i⟩
      · obtain ⟨f, hf⟩ := hr.exists
        rw [ho f] at hf
        cases hf
  obtain ⟨wf, hh, hc, hm⟩ := I
  obtain ⟨tails, T, -⟩ := wf.table
  refine ⟨wf.wellFormed.chainsEnd, fun op hk => ?_, resize_terminates wf.wellFormed hm,
    terminates_of_returns (drain_contents T.toShape (iterInit_at s tails)), ?_⟩
  · rcases call_wellFormed (by rw [hh, hc]; exact L) wf hm hk with ⟨s', hr, -⟩ | ho
    · exact terminates_of_returns hr
    · exact .inr ho
  · obtain ⟨m', hm', -⟩ := free_returns T.toShape
    exact terminates_of_returns hm'

/-- The keys 1, 62 and 123 meet in one bucket; 123 is removed and put again, in the last place of the
chain, and so is 1 after the table was resized. -/
def keeping : List (Op UInt64 UInt64) :=
  [.put 1 7, .put 62 8, .put 123 9, .remove 123, .put 123 10, .get 123] ++
    ((List.range 40).map fun i => .put (UInt64.ofNat (i + 2)) 7) ++ [.steal 1, .put 1 11]

def keepingRun : Except Fault (State UInt64 UInt64) :=
  match new (Mem.granting UInt64 UInt64) ncSimpleHash ncSimpleCompare with
  | none => .error .dangling
  | some s => performIf keepsChains 6 s keeping

theorem chains_end_keeping : ∃ s₀ s : State UInt64 UInt64, Run KeepsChains s₀ keeping s ∧
    s.self.nBuckets = 244 ∧ ChainsEnd s ∧ Terminates fun f => free f s := by
  have hseen : keepingRun.toOption.map (fun s => s.self.nBuckets) = some 244 := by decide +kernel
  obtain ⟨s, hs, hn⟩ := Option.map_eq_some_iff.mp hseen
  obtain ⟨s₀, h₀⟩ := newInternal_granted (m := Mem.granting UInt64 UInt64)
    (fun _ => rfl) ncSimpleHash ncSimpleCompare false false
  have hrun : performIf keepsChains 6 s₀ keeping = .ok s := by
    have hkept := ok_of_toOption hs
    unfold keepingRun new at hkept
    rwa [h₀] at hkept
  have hrun := Run.init.performIf (I := fun _ => True) (fun s op _ => keepsChains_of_test s op)
    (fun _ _ _ _ _ _ => trivial) trivial hrun
  obtain ⟨hends, -, -, -, hfree⟩ := chains_end simple_lawful.toLawfulKeys (fun _ => rfl) h₀ hrun
  exact ⟨s₀, s, hrun, hn, hends, hfree⟩

/-! ### A relinked hole

The keys 1, 62 and 123 share the bucket 1 of a new map.  Removing 1 leaves a hole at the head of the
chain of 1 and 62; putting 1 again fills it and links it behind 62. -/

def relinking : List (Op UInt64 UInt64) := [.put 1 7, .put 62 7, .remove 1, .put 1 7]

def relinked : Except Fault (State UInt64 UInt64) :=
  match new (Mem.granting UInt64 UInt64) ncSimpleHash ncSimpleCompare with
  | none => .error .dangling
  | some s => perform 5 s relinking

/-- The table of a map, the bucket of the key 123, whether the keys 1 and 62 miss it, and the keys
and links of two entries. -/
structure RelinkedSeen where
  nBuckets : ℕ
  buckets : ℕ
  slot : ℕ
  misses : Bool
  head : Option (UInt64 × Option Loc)
  tail : Option (UInt64 × Option Loc)
deriving DecidableEq

def linkAt (s : State UInt64 UInt64) (a : Loc) : Option (UInt64 × Option Loc) :=
  (s.mem.cells a).map fun e => (e.hash, e.next)

theorem linkAt_eq {s : State UInt64 UInt64} {a : Loc} {k : UInt64} {q : Option Loc}
    (h : linkAt s a = some (k, q)) : ∃ e, s.mem.cells a = some e ∧ e.hash = k ∧ e.next = q := by
  obtain ⟨e, he, hk⟩ := Option.map_eq_some_iff.mp h
  exact ⟨e, he, (Prod.mk.inj hk).1, (Prod.mk.inj hk).2⟩

def relinkedSeen (s : State UInt64 UInt64) : RelinkedSeen :=
  ⟨s.self.nBuckets, s.self.buckets, slotOf s.self s.self.nBuckets 123,
    !s.self.compare 1 123 && !s.self.compare 62 123, linkAt s (.slot 1 1), linkAt s (.node 2)⟩

/-- After these four calls the chain of bucket 1 runs in a circle, and looking up 123 does not
end. -/
theorem chains_end_relinked : ∃ s₀ s : State UInt64 UInt64,
    new (Mem.granting UInt64 UInt64) ncSimpleHash ncSimpleCompare = some s₀ ∧
    Run (fun _ op => NonNull op.key) s₀ [.put 1 7, .put 62 7, .remove 1, .put 1 7] s ∧
    ¬ ChainsEnd s ∧ ¬ Terminates fun f => call f s (.get 123) := by
  have hseen : relinked.toOption.map relinkedSeen =
      some ⟨61, 1, 1, true, some (1, some (.node 2)), some (62, some (.slot 1 1))⟩ := by
    decide +kernel
  obtain ⟨s, hs, hsee⟩ := Option.map_eq_some_iff.mp hseen
  obtain ⟨s₀, h₀⟩ := newInternal_granted (m := Mem.granting UInt64 UInt64)
    (fun _ => rfl) ncSimpleHash ncSimpleCompare false false
  have hrun : perform 5 s₀ relinking = .ok s := by
    unfold relinked new at hs
    rw [h₀] at hs
    cases hp : perform 5 s₀ relinking with
    | error e => simp only [hp] at hs; cases hs
    | ok t => simp only [hp] at hs; exact congrArg _ (Option.some.inj hs)
  obtain ⟨hn, hb, hslot, hmiss, hhead, htail⟩ := RelinkedSeen.mk.inj hsee
  obtain ⟨e, he, hek, hen⟩ := linkAt_eq hhead
  obtain ⟨d, hd, hdk, hdn⟩ := linkAt_eq htail
  -- the chain of bucket 1, back to its head
  have hp : Path NcHashmapEntry.next s.mem.cells (some (.slot 1 1)) [.slot 1 1, .node 2]
      (some (.slot 1 1)) := ⟨rfl, e, he, hen, d, hd, hdn⟩
  refine ⟨s₀, s, h₀, Run.init.perform (by decide) hrun, ?_, not_terminates fun f => ?_⟩
  · rintro ⟨chains, hc, -⟩
    have h := (hc 1 (by rw [hn]; decide)).2
    rw [hb] at h
    exact hp.endless (by simp) (by simp) h
  · have hget : getEntry f s 123 = .error .timeout := by
      unfold getEntry
      rw [hb]
      change entryScan s.self s.mem 123 f (some (.slot 1 (slotOf s.self s.self.nBuckets 123))) = _
      rw [hslot]
      refine entryScan_closed hp (by simp) (fun b hmem c hcell => ?_) (by simp) f
      simp only [Bool.and_eq_true, Bool.not_eq_true'] at hmiss
      rcases List.mem_pair.mp hmem with rfl | rfl
      · obtain rfl := Option.some.inj (he.symm.trans hcell)
        rw [hek]
        exact hmiss.1
      · obtain rfl := Option.some.inj (hd.symm.trans hcell)
        rw [hdk]
        exact hmiss.2
    simp only [call, NcHashmap.get, hget]
    rfl

end Nica
