import Nica.HashmapEntries
import Mathlib.Algebra.Order.Group.Multiset
import Mathlib.Tactic.Abel

/-! # Who owns the keys and the values

A map made with both cleanup functions owns the pointers that are put into it until it passes them to
a cleanup function or they are stolen.  A put of a new key frees nothing, a put of an equal key frees
the old pair, a removal the removed pair, and `nc_hashmap_free` every pair (`put_owned`,
`removal_owned`, `free_owned`).  So at every moment of a history the pointers put are, each in one
place, held by the map, freed or stolen (`ownership_conserved`). -/

namespace Nica

open Blocks Linked Rows Fueled NcHashmap

variable {K V : Type}

/-- The pointers of the pairs `ps`, each as the call that frees it. -/
def pointers (ps : List (K × V)) : List (FreeCall K V) := ps.flatMap fun p => [.key p.1, .value p.2]

theorem pointers_append (ps qs : List (K × V)) :
    pointers (ps ++ qs) = pointers ps ++ pointers qs := List.flatMap_append

theorem pointers_perm {ps qs : List (K × V)} (h : ps.Perm qs) : (pointers ps).Perm (pointers qs) :=
  h.flatMap_right _

theorem pointers_coe {ps : List (K × V)} {p : K × V} {qs : List (K × V)} (h : ps.Perm (p :: qs)) :
    (pointers ps : Multiset (FreeCall K V)) = pointers [p] + pointers qs := by
  rw [Multiset.coe_eq_coe.mpr (pointers_perm h)]
  rfl

theorem pointers_concat (ps : List (K × V)) (p : K × V) :
    (pointers (ps ++ [p]) : Multiset (FreeCall K V)) = pointers ps + pointers [p] := by
  rw [pointers_append, Multiset.coe_add]

/-- With both cleanup functions every pointer of a pair is freed. -/
theorem freeCalls_eq_pointers {self : NcHashmap K V} (hk : self.keyFree = true)
    (hv : self.valueFree = true) (ps : List (K × V)) : freeCalls self ps = pointers ps := by
  unfold freeCalls pointers
  rw [hk, hv]
  rfl

/-! ### The ledger -/

/-- Every pointer given to the map is held, freed or stolen. -/
structure Ledger (s₀ s : State K V) (given stolen held : List (K × V)) (calls : List (FreeCall K V)) :
    Prop where
  listing : Listing s held
  log : s.mem.log = s₀.mem.log ++ calls
  balance : (pointers held : Multiset (FreeCall K V)) + calls + pointers stolen = pointers given

section ledger
variable {s₀ s s' : State K V} {given stolen held held' : List (K × V)}
  {calls : List (FreeCall K V)} {key k : K} {v value : V}

theorem Ledger.put_new (B : Ledger s₀ s given stolen held calls) (h : Listing s' held')
    (hlog : s'.mem.log = s.mem.log) (hperm : held'.Perm ((key, value) :: held)) :
    Ledger s₀ s' (given ++ [(key, value)]) stolen held' calls := by
  refine ⟨h, hlog.trans B.log, ?_⟩
  rw [pointers_coe hperm, pointers_concat, ← B.balance]
  abel

theorem Ledger.put_equal {rest : List (K × V)} (B : Ledger s₀ s given stolen held calls)
    (h : Listing s' held') (hlog : s'.mem.log = s.mem.log ++ [.value v, .key k])
    (hrest : held.Perm ((k, v) :: rest)) (hperm : held'.Perm ((key, value) :: rest)) :
    Ledger s₀ s' (given ++ [(key, value)]) stolen held' (calls ++ [.value v, .key k]) := by
  have hpair : (([.value v, .key k] : List (FreeCall K V)) : Multiset (FreeCall K V)) =
      pointers [(k, v)] := Multiset.coe_eq_coe.mpr (List.Perm.swap _ _ _)
  refine ⟨h, by rw [hlog, B.log, List.append_assoc], ?_⟩
  rw [pointers_coe hperm, pointers_concat, ← B.balance, pointers_coe hrest, ← Multiset.coe_add, hpair]
  abel

theorem Ledger.remove (B : Ledger s₀ s given stolen held calls) (h : Listing s' held')
    (hlog : s'.mem.log = s.mem.log ++ [.key k, .value v]) (hperm : held.Perm ((k, v) :: held')) :
    Ledger s₀ s' given stolen held' (calls ++ [.key k, .value v]) := by
  refine ⟨h, by rw [hlog, B.log, List.append_assoc], ?_⟩
  rw [← B.balance, pointers_coe hperm, ← Multiset.coe_add,
    show [.key k, .value v] = pointers [(k, v)] from rfl]
  abel

theorem Ledger.steal (B : Ledger s₀ s given stolen held calls) (h : Listing s' held')
    (hlog : s'.mem.log = s.mem.log) (hperm : held.Perm ((k, v) :: held')) :
    Ledger s₀ s' given (stolen ++ [(k, v)]) held' calls := by
  refine ⟨h, hlog.trans B.log, ?_⟩
  rw [← B.balance, pointers_coe hperm, pointers_concat]
  abel

end ledger

/-! ### Maps with cleanup functions -/

/-- `s'` has the functions of `s`, and its memory the same luck with allocations. -/
structure SameSetup (s s' : State K V) : Prop where
  hash : s'.self.hash = s.self.hash
  compare : s'.self.compare = s.self.compare
  keyFree : s'.self.keyFree = s.self.keyFree
  valueFree : s'.self.valueFree = s.self.valueFree
  grants : s'.mem.grants = s.mem.grants

/-- A map with lawful keys and both cleanup functions, in a memory where no allocation fails. -/
structure Owning [Null K] (s : State K V) : Prop where
  lawful : LawfulBesideNull s.self.hash s.self.compare
  keyFree : s.self.keyFree = true
  valueFree : s.self.valueFree = true
  grants : ∀ i, s.mem.grants i = true

theorem Owning.same [Null K] {s s' : State K V} (O : Owning s) (h : SameSetup s s') : Owning s' where
  lawful := by rw [h.hash, h.compare]; exact O.lawful
  keyFree := h.keyFree.trans O.keyFree
  valueFree := h.valueFree.trans O.valueFree
  grants i := by rw [h.grants]; exact O.grants i

variable [Null K] [Null V] {s s' : State K V} {key : K}

/-! ### Puts -/

section storing
variable {D : K → Prop} {tails : ℕ → List ℕ} {back : ℕ → Option Loc} {value : V}

/-- What an insertion frees. -/
theorem storeIn_log {ok : Bool}
    (T : Table s.self D s.mem.toHeap s.self.buckets s.self.nBuckets tails fun _ => none)
    (hg : s.mem.grants s.mem.tick = true)
    (hr : Returns (fun f => storeIn f s key value) (ok, s')) :
    (has s.self.compare (rowsOf s.mem.toHeap s.self.buckets tails
        (slotOf s.self s.self.nBuckets key)) key = false → s'.mem.log = s.mem.log) ∧
    (has s.self.compare (rowsOf s.mem.toHeap s.self.buckets tails
        (slotOf s.self s.self.nBuckets key)) key = true →
      ∃ p ∈ pairs (rowsOf s.mem.toHeap s.self.buckets tails (slotOf s.self s.self.nBuckets key)),
        s.self.compare p.1 key = true ∧
        s'.mem.log = ((s.mem.freeValue s.self p.2).freeKey s.self p.1).log) := by
  have stored : ∀ {inc : ℤ} {m : Mem K V}, 0 ≤ inc →
      Returns (fun f => insertBucket s.self f s.mem s.self.buckets s.self.nBuckets
        (s.self.hash key) key value) (inc, m) → s'.mem = m := by
    intro inc m hinc hret
    have hstore : Returns (fun f => storeIn f s key value)
        (true, ⟨{ s.self with size := s.self.size + inc }, m⟩) :=
      hret.bind ((Returns.pure _).congr fun f => if_pos hinc)
    obtain ⟨-, rfl⟩ := Prod.mk.inj (hr.unique hstore)
    rfl
  constructor
  · intro hh
    by_cases hn : none ∈ rowsOf s.mem.toHeap s.self.buckets tails
        (slotOf s.self s.self.nBuckets key)
    · obtain ⟨m, back', hret, -, -, hlog⟩ := insertBucket_fill value T.toShape rfl hh hn
      rw [stored (by decide) hret, hlog]
    · obtain ⟨m, tails', back', hret, -, -, hlog⟩ :=
        insertBucket_append value T.toShape rfl hh hn hg
      rw [stored (by decide) hret, hlog]
  · intro hh
    obtain ⟨m, hret, -, -, p, hp, hpk, hlog⟩ := insertBucket_replace value T.toShape hh
    exact ⟨p, hp, hpk, by rw [stored (by decide) hret, hlog]⟩

/-- A put is an insertion into a table of the same pairs. -/
theorem put_inserts (O : Owning s) (wf : WellFormed s)
    (hint : s.self.maybeResize = true → s.self.nBuckets * increaseFactor ≤ intMax) :
    ∃ s₁ tails tails₁,
      Table s.self (fun _ => True) s.mem.toHeap s.self.buckets s.self.nBuckets tails (fun _ => none) ∧
      Table s₁.self (fun _ => True) s₁.mem.toHeap s₁.self.buckets s₁.self.nBuckets tails₁
        (fun _ => none) ∧
      (contents (rowsOf s₁.mem.toHeap s₁.self.buckets tails₁) s₁.self.nBuckets).Perm
        (contents (rowsOf s.mem.toHeap s.self.buckets tails) s.self.nBuckets) ∧
      SameSetup s s₁ ∧ s₁.mem.log = s.mem.log ∧
      ∀ key value r, Returns (fun f => storeIn f s₁ key value) r →
        Returns (fun f => put f s key value) r := by
  obtain ⟨tails, T, hu, -⟩ := wf.everywhere.table
  cases hr : s.self.maybeResize with
  | false =>
      exact ⟨s, tails, tails, T, T, .refl _, ⟨rfl, rfl, rfl, rfl, rfl⟩, rfl,
        fun key value r h => h.congr fun f => put_keep hr f key value⟩
  | true =>
      obtain ⟨s₁, tails₁, hres, R⟩ :=
        resize_succeeds (D := fun _ => True) T.toShape
          (fun _ _ => trivial) hu (hint hr) O.grants
      have hself := R.self
      exact ⟨s₁, tails, tails₁, T, R.table, R.pairs, ⟨by rw [hself], by rw [hself], by rw [hself],
        by rw [hself], R.grants⟩, R.log, fun key value r h => put_resize hr hres h⟩

end storing

/-- A put of a new key frees nothing; a put of an equal key frees the old value and the old key and
keeps the new ones. -/
theorem put_owned (O : Owning s) (wf : WellFormed s) (key : K) (value : V)
    (hint : s.self.maybeResize = true → s.self.nBuckets * increaseFactor ≤ intMax)
    {held : List (K × V)} (hheld : Listing s held) :
    ∃ s' held', Returns (fun f => put f s key value) (true, s') ∧ SameSetup s s' ∧
      Listing s' held' ∧
      (((∀ k v, Holds s k v → s.self.compare k key = false) ∧ s'.mem.log = s.mem.log ∧
          held'.Perm ((key, value) :: held)) ∨
        ∃ k v rest, Holds s k v ∧ s.self.compare k key = true ∧
          s'.mem.log = s.mem.log ++ [.value v, .key k] ∧ held.Perm ((k, v) :: rest) ∧
          held'.Perm ((key, value) :: rest)) := by
  obtain ⟨s₁, tails, tails₁, T, T₁, hperm, hsame, hlog, hput⟩ := put_inserts O wf hint
  have O₁ := O.same hsame
  have L₁ := O₁.lawful.everywhere
  obtain ⟨s', tails', back', hret, S⟩ : ∃ s' tails' back',
      Returns (fun f => storeIn f s₁ key value) (true, s') ∧ StoredIn (fun _ => True) s₁ s' key value
        tails₁ (fun _ => none) tails' back' := storeIn_stores L₁ T₁ trivial value (.inl rfl)
    (.inr (.inr (O₁.grants _)))
  obtain ⟨hnew, hold⟩ := storeIn_log T₁ (O₁.grants _) hret
  have hself := S.self
  have hi := T₁.slotOf_lt key
  have hall := T.toShape.listing.perm hheld
  have hsame' : SameSetup s s' :=
    ⟨by rw [hself]; exact hsame.hash, by rw [hself]; exact hsame.compare,
      by rw [hself]; exact hsame.keyFree, by rw [hself]; exact hsame.valueFree,
      S.inserted.grants.trans hsame.grants⟩
  refine ⟨s', _, hput _ _ _ hret, hsame', S.table.toShape.listing, ?_⟩
  have hbuckets : s'.self.buckets = s₁.self.buckets := by rw [hself]
  have hn : s'.self.nBuckets = s₁.self.nBuckets := by rw [hself]
  rw [hbuckets, hn]
  have hheldpairs : ∀ k v, Holds s k v ↔
      (k, v) ∈ contents (rowsOf s₁.mem.toHeap s₁.self.buckets tails₁) s₁.self.nBuckets := by
    intro k v
    rw [T.holds_iff, hperm.mem_iff]
  cases hh : has s₁.self.compare (rowsOf s₁.mem.toHeap s₁.self.buckets tails₁
      (slotOf s₁.self s₁.self.nBuckets key)) key with
  | false =>
      refine .inl ⟨fun k v hkv => ?_, (hnew hh).trans hlog, ?_⟩
      · rw [← hsame.compare, ← Bool.not_eq_true]
        intro hc
        have := (T₁.rows.has_iff (L₁.slot _) trivial hi).mpr ⟨(k, v), (hheldpairs k v).mp hkv, hc⟩
        rw [hh] at this
        cases this
      · exact (contents_put_perm hi S.inserted.rest S.inserted.row hh).trans
          ((hperm.trans hall).cons _)
  | true =>
      obtain ⟨⟨k, v⟩, hp, hpk, hplog⟩ := hold hh
      have hmem : (k, v) ∈ contents (rowsOf s₁.mem.toHeap s₁.self.buckets tails₁) s₁.self.nBuckets :=
        mem_contents.mpr ⟨_, hi, hp⟩
      obtain ⟨rest, hrest, hrest'⟩ := T₁.rows.contents_replace L₁.per (L₁.slot _) trivial hi
        S.inserted.rest S.inserted.row hmem hpk
      refine .inr ⟨k, v, rest, (hheldpairs k v).mpr hmem, hsame.compare ▸ hpk, ?_,
        (hall.symm.trans hperm.symm).trans hrest, hrest'⟩
      rw [hplog]
      simp only [Mem.freeKey, Mem.freeValue, O₁.keyFree, O₁.valueFree, if_true, List.append_assoc,
        hlog]
      rfl

/-! ### Removals -/

theorem Owning.held_unique (O : Owning s) (wf : WellFormed s) {k k' : K} {v v' : V}
    (h : Holds s k v) (h' : Holds s k' v') (hc : s.self.compare k key = true)
    (hc' : s.self.compare k' key = true) : k = k' ∧ v = v' := by
  obtain ⟨tails, T, hu, -⟩ := wf.everywhere.table
  exact Prod.mk.inj (hu.eq_of_mem O.lawful.everywhere.per (fun _ _ => trivial) trivial
    (T.holds_iff.mp h) (T.holds_iff.mp h') hc hc')

/-- A removal takes the pair of the key out of the map, and frees it unless it is stolen. -/
theorem removal_owned (O : Owning s) (wf : WellFormed s) (hk : NonNull key) (remove : Bool) {k : K}
    {v : V} (h : Holds s k v) (hc : s.self.compare k key = true) {held : List (K × V)}
    (hheld : Listing s held) :
    ∃ s' held', Returns (fun f => removeInternal f s key remove) (true, s') ∧ SameSetup s s' ∧
      Listing s' held' ∧ held.Perm ((k, v) :: held') ∧
      s'.mem.log = s.mem.log ++ if remove then [.key k, .value v] else [] := by
  obtain ⟨tails, T, -⟩ := wf.everywhere.table
  obtain ⟨a, k', v', ha, hc', hr, T', hrow, hrest⟩ :=
    removeInternal_present O.lawful.everywhere T trivial (O.lawful.null_ne key hk) remove
      ⟨k, v, h, hc⟩
  obtain ⟨rfl, rfl⟩ := O.held_unique wf h ⟨a, ha⟩ hc hc'
  have herase := T.rows.contents_erase O.lawful.everywhere.per (O.lawful.everywhere.slot _) trivial
    (T.slotOf_lt key)
    hrest hrow (T.holds_iff.mp h) hc
  have T'' : Table (vacate s a (k, v) remove).self (fun _ => True) (vacate s a (k, v) remove).mem.toHeap
      (vacate s a (k, v) remove).self.buckets (vacate s a (k, v) remove).self.nBuckets tails
      fun _ => none := ⟨T'.toShape, T'.rows⟩
  refine ⟨_, _, hr, ⟨rfl, rfl, rfl, rfl, by rw [vacate_heap]; rfl⟩, T''.toShape.listing,
    (hheld.perm T.toShape.listing).trans herase, ?_⟩
  cases remove with
  | false => exact (List.append_nil _).symm
  | true =>
      simp only [vacate, Mem.write, Mem.freeKey, Mem.freeValue, O.keyFree, O.valueFree, if_true,
        List.append_assoc]
      rfl

/-! ### Freeing the map -/

/-- The node `b` hangs in a chain of the map. -/
def OverflowNode (s : State K V) (b : ℕ) : Prop :=
  ∃ i < s.self.nBuckets,
    Reaches NcHashmapEntry.next s.mem.cells (some (.slot s.self.buckets i)) (.node b)

/-- Freeing a map cleans up every pair it holds and gives back its table and each of its overflow
nodes, occupied or not; giving back a node twice, or a slot as a node, would be a fault. -/
theorem free_owned (O : Owning s) (wf : WellFormed s) {held : List (K × V)}
    (hheld : Listing s held) :
    ∃ m, Returns (fun f => free f s) m ∧
      (∃ calls, m.log = s.mem.log ++ calls ∧ calls.Perm (pointers held)) ∧
      (∀ b, OverflowNode s b → (s.mem.cells (.node b)).isSome ∧ m.cells (.node b) = none) ∧
      (∀ b, ¬ OverflowNode s b → m.cells (.node b) = s.mem.cells (.node b)) ∧
      ∀ i, m.cells (.slot s.self.buckets i) = none := by
  obtain ⟨tails, T, -⟩ := wf.everywhere.table
  obtain ⟨m, hm, F⟩ := free_returns T.toShape
  have hnode : ∀ b, OverflowNode s b ↔ ∃ i < s.self.nBuckets, b ∈ tails i := by
    intro b
    refine exists_congr fun i => and_congr_right fun hi => ?_
    rw [T.reaches_iff hi, mem_chainOf]
    simp
  refine ⟨m, hm, ⟨_, F.log, ?_⟩, fun b hb => ?_, fun b hb => F.kept _ ?_,
    fun i => F.freed _ (.inl ⟨i, rfl⟩)⟩
  · rw [if_pos rfl, freeCalls_eq_pointers O.keyFree O.valueFree]
    exact pointers_perm (T.toShape.listing.perm hheld)
  · obtain ⟨i, hi, hbi⟩ := (hnode b).mp hb
    obtain ⟨e, he⟩ := T.cell hi (mem_chainOf.mpr (.inr ⟨b, hbi, rfl⟩))
    exact ⟨by rw [he]; rfl, F.freed _ (.inr ⟨i, hi, b, hbi, rfl⟩)⟩
  · rintro (⟨i, h⟩ | ⟨i, hi, c, hc, h⟩)
    · cases h
    · obtain rfl := Loc.node.inj h
      exact hb ((hnode b).mpr ⟨i, hi, hc⟩)

/-! ### Histories -/

/-- What each operation on the map frees. -/
structure FreesItsOwn (s : State K V) : Prop where
  put_new : ∀ key value, NonNull key →
    (s.self.maybeResize = true → s.self.nBuckets * increaseFactor ≤ intMax) →
    (∀ k v, Holds s k v → s.self.compare k key = false) →
    ∃ s', Returns (fun f => put f s key value) (true, s') ∧ s'.mem.log = s.mem.log ∧
      Holds s' key value
  put_equal : ∀ key value k v, NonNull key →
    (s.self.maybeResize = true → s.self.nBuckets * increaseFactor ≤ intMax) →
    Holds s k v → s.self.compare k key = true →
    ∃ s', Returns (fun f => put f s key value) (true, s') ∧
      s'.mem.log = s.mem.log ++ [.value v, .key k] ∧ Holds s' key value
  remove : ∀ key k v, NonNull key → Holds s k v → s.self.compare k key = true →
    ∃ s', Returns (fun f => remove f s key) (true, s') ∧
      s'.mem.log = s.mem.log ++ [.key k, .value v] ∧
      ∀ k' v', Holds s' k' v' → s.self.compare k' key = false
  steal : ∀ key k v, NonNull key → Holds s k v → s.self.compare k key = true →
    ∃ s', Returns (fun f => steal f s key) (true, s') ∧ s'.mem.log = s.mem.log ∧
      ∀ k' v', Holds s' k' v' → s.self.compare k' key = false
  absent : ∀ key, NonNull key → (∀ k v, Holds s k v → s.self.compare k key = false) →
    Returns (fun f => NcHashmap.remove f s key) (false, s) ∧
    Returns (fun f => NcHashmap.steal f s key) (false, s)
  free : ∃ m, Returns (fun f => free f s) m ∧
    (∀ held, Listing s held →
      ∃ calls, m.log = s.mem.log ++ calls ∧ calls.Perm (pointers held)) ∧
    (∀ b, OverflowNode s b → (s.mem.cells (.node b)).isSome ∧ m.cells (.node b) = none) ∧
    (∀ b, ¬ OverflowNode s b → m.cells (.node b) = s.mem.cells (.node b)) ∧
    ∀ i, m.cells (.slot s.self.buckets i) = none

theorem Owning.freesItsOwn (O : Owning s) (wf : WellFormed s) : FreesItsOwn s := by
  obtain ⟨held, hheld, -⟩ := wf.exists_listing
  have gone : ∀ {key : K} {remove : Bool} {s' : State K V}, NonNull key →
      Returns (fun f => removeInternal f s key remove) (true, s') →
      ∀ k v, Holds s' k v → s.self.compare k key = false := by
    intro key remove s' hk hr k v h
    obtain ⟨ok, t, ht, -, -, hholds, -⟩ := remove_spec O.lawful.everywhere wf.everywhere trivial
      (O.lawful.null_ne key hk) remove
    obtain ⟨-, rfl⟩ := Prod.mk.inj (hr.unique ht)
    exact ((hholds k v).mp h).2
  refine ⟨fun key value _ hint hno => ?_, fun key value k v _ hint hkv hc => ?_,
    fun key k v hk hkv hc => ?_, fun key k v hk hkv hc => ?_, fun key hk hno => ?_, ?_⟩
  · obtain ⟨s', held', hr, -, hheld', ⟨-, hlog, hperm⟩ | ⟨k, v, -, hkv, hc, -⟩⟩ :=
      put_owned O wf key value hint hheld
    · exact ⟨s', hr, hlog, hheld'.mem_iff.mp (hperm.mem_iff.mpr List.mem_cons_self)⟩
    · rw [hno k v hkv] at hc
      cases hc
  · obtain ⟨s', held', hr, -, hheld', ⟨hno, -⟩ | ⟨k', v', rest, hkv', hc', hlog, -, hperm⟩⟩ :=
      put_owned O wf key value hint hheld
    · rw [hno k v hkv] at hc
      cases hc
    · obtain ⟨rfl, rfl⟩ := O.held_unique wf hkv hkv' hc hc'
      exact ⟨s', hr, hlog, hheld'.mem_iff.mp (hperm.mem_iff.mpr List.mem_cons_self)⟩
  · obtain ⟨s', -, hr, -, -, -, hlog⟩ := removal_owned O wf hk true hkv hc hheld
    exact ⟨s', hr, hlog, gone hk hr⟩
  · obtain ⟨s', -, hr, -, -, -, hlog⟩ := removal_owned O wf hk false hkv hc hheld
    exact ⟨s', hr, by rw [hlog]; exact List.append_nil _, gone hk hr⟩
  · obtain ⟨tails, T, -⟩ := wf.everywhere.table
    have hnone := getEntry_absent O.lawful.everywhere T trivial (O.lawful.null_ne key hk) hno
    exact ⟨removeInternal_of_none true hnone, removeInternal_of_none false hnone⟩
  · obtain ⟨m, hm, -, hnodes⟩ := free_owned O wf hheld
    refine ⟨m, hm, fun held' hheld' => ?_, hnodes⟩
    obtain ⟨m', hm', hlog, -⟩ := free_owned O wf hheld'
    obtain rfl := hm.unique hm'
    exact hlog

/-- Calls on well-formed maps lead from `s₀` to `s`; the pairs `given` were put and the pairs
`stolen` were stolen on the way. -/
inductive History (s₀ : State K V) : List (K × V) → List (K × V) → State K V → Prop
  | init : History s₀ [] [] s₀
  | put {given stolen : List (K × V)} {s s' : State K V} {key : K} {value : V} :
      History s₀ given stolen s → WellFormed s → NonNull key →
      (s.self.maybeResize = true → s.self.nBuckets * increaseFactor ≤ intMax) →
      Returns (fun f => NcHashmap.put f s key value) (true, s') →
      History s₀ (given ++ [(key, value)]) stolen s'
  | remove {given stolen : List (K × V)} {s s' : State K V} {key : K} {ok : Bool} :
      History s₀ given stolen s → WellFormed s → NonNull key →
      Returns (fun f => NcHashmap.remove f s key) (ok, s') → History s₀ given stolen s'
  | steal {given stolen : List (K × V)} {s s' : State K V} {key k : K} {v : V} :
      History s₀ given stolen s → WellFormed s → NonNull key → Holds s k v →
      s.self.compare k key = true → Returns (fun f => NcHashmap.steal f s key) (true, s') →
      History s₀ given (stolen ++ [(k, v)]) s'
  | miss {given stolen : List (K × V)} {s s' : State K V} {key : K} :
      History s₀ given stolen s → WellFormed s → NonNull key →
      Returns (fun f => NcHashmap.steal f s key) (false, s') → History s₀ given stolen s'

theorem History.ledger {s₀ : State K V} (O : Owning s₀) {held₀ given stolen : List (K × V)}
    (h₀ : Listing s₀ held₀) (hist : History s₀ given stolen s) :
    Owning s ∧ ∃ held calls, Ledger s₀ s (held₀ ++ given) stolen held calls := by
  induction hist with
  | init =>
      refine ⟨O, held₀, [], h₀, (List.append_nil _).symm, ?_⟩
      rw [List.append_nil]
      change (pointers held₀ : Multiset (FreeCall K V)) + 0 + 0 = _
      rw [add_zero, add_zero]
  | @put given stolen s s' key value _ wf hk hint hr ih =>
      obtain ⟨O', held, calls, B⟩ := ih
      obtain ⟨t, held', ht, hsame, hheld', h⟩ := put_owned O' wf key value hint B.listing
      obtain ⟨-, rfl⟩ := Prod.mk.inj (hr.unique ht)
      refine ⟨O'.same hsame, held', ?_⟩
      rw [← List.append_assoc]
      rcases h with ⟨-, hlog, hperm⟩ | ⟨k, v, rest, -, -, hlog, hrest, hperm⟩
      · exact ⟨_, B.put_new hheld' hlog hperm⟩
      · exact ⟨_, B.put_equal hheld' hlog hrest hperm⟩
  | @remove given stolen s s' key ok _ wf hk hr ih =>
      obtain ⟨O', held, calls, B⟩ := ih
      by_cases h : ∃ k v, Holds s k v ∧ s.self.compare k key = true
      · obtain ⟨k, v, hkv, hc⟩ := h
        obtain ⟨t, held', ht, hsame, hheld', hperm, hlog⟩ :=
          removal_owned O' wf hk true hkv hc B.listing
        obtain ⟨-, rfl⟩ := Prod.mk.inj (hr.unique ht)
        exact ⟨O'.same hsame, held', _, B.remove hheld' hlog hperm⟩
      · have hno : ∀ k v, Holds s k v → s.self.compare k key = false := fun k v hkv =>
          Bool.eq_false_iff.mpr fun hc => h ⟨k, v, hkv, hc⟩
        obtain ⟨-, rfl⟩ := Prod.mk.inj (hr.unique ((O'.freesItsOwn wf).absent key hk hno).1)
        exact ⟨O', held, calls, B⟩
  | @steal given stolen s s' key k v _ wf hk hkv hc hr ih =>
      obtain ⟨O', held, calls, B⟩ := ih
      obtain ⟨t, held', ht, hsame, hheld', hperm, hlog⟩ :=
        removal_owned O' wf hk false hkv hc B.listing
      obtain ⟨-, rfl⟩ := Prod.mk.inj (hr.unique ht)
      exact ⟨O'.same hsame, held', _, B.steal hheld' (hlog.trans (List.append_nil _)) hperm⟩
  | @miss given stolen s s' key _ wf hk hr ih =>
      obtain ⟨O', held, calls, B⟩ := ih
      obtain ⟨ok, t, ht, -, hok, -⟩ := remove_spec O'.lawful.everywhere wf.everywhere
        trivial (O'.lawful.null_ne key hk) false
      obtain ⟨rfl, rfl⟩ := Prod.mk.inj (hr.unique ht)
      have hno : ∀ k v, Holds s k v → s.self.compare k key = false := fun k v hkv =>
        Bool.eq_false_iff.mpr fun hc => Bool.false_ne_true (hok.mpr ⟨k, v, hkv, hc⟩)
      obtain ⟨-, rfl⟩ := Prod.mk.inj (hr.unique ((O'.freesItsOwn wf).absent key hk hno).2)
      exact ⟨O', held, calls, B⟩

/-- Every operation on a well-formed map with both cleanup functions frees what it gives up and
nothing else.  Along every history the pointers given to the map are, each in one place, those it
holds, those freed and those stolen; once the map is freed, every one is freed or stolen. -/
theorem ownership_conserved {s₀ : State K V} (O : Owning s₀) {held₀ given stolen : List (K × V)}
    (h₀ : Listing s₀ held₀) (hist : History s₀ given stolen s)
    (hfresh : (pointers (held₀ ++ given)).Nodup) :
    (WellFormed s → FreesItsOwn s) ∧
    ∃ held calls, Listing s held ∧ s.mem.log = s₀.mem.log ++ calls ∧
      (pointers held ++ calls ++ pointers stolen).Perm (pointers (held₀ ++ given)) ∧
      (pointers held ++ calls ++ pointers stolen).Nodup ∧
      (WellFormed s → ∃ m calls', Returns (fun f => free f s) m ∧
        m.log = s₀.mem.log ++ calls' ∧
        (calls' ++ pointers stolen).Perm (pointers (held₀ ++ given)) ∧
        (calls' ++ pointers stolen).Nodup) := by
  obtain ⟨O', held, calls, B⟩ := hist.ledger O h₀
  have hperm : (pointers held ++ calls ++ pointers stolen).Perm (pointers (held₀ ++ given)) :=
    Multiset.coe_eq_coe.mp B.balance
  refine ⟨O'.freesItsOwn, held, calls, B.listing, B.log, hperm, hperm.nodup_iff.mpr hfresh,
    fun wf => ?_⟩
  obtain ⟨m, hm, ⟨last, hlog, hlast⟩, -⟩ := free_owned O' wf B.listing
  have hperm' : (calls ++ last ++ pointers stolen).Perm (pointers (held₀ ++ given)) :=
    ((List.perm_append_comm.trans (hlast.append_right calls)).append_right _).trans hperm
  exact ⟨m, calls ++ last, hm, by rw [hlog, B.log, List.append_assoc], hperm',
    hperm'.nodup_iff.mpr hfresh⟩

/-- On a map with the key NULL and a hole before the key 62: a put under another pointer, which resizes
the table first and frees the pair of 62, a removal and a steal; then the map is freed. -/
theorem ownership_conserved_worn : ∃ s₀ s : State UInt64 UInt64, worn 0 = .ok s₀ ∧
    bucketRow s₀ 1 = some [none, some (62, 162)] ∧ s₀.self.maybeResize = true ∧
    History s₀ [(1062, 9)] [(40, 140)] s ∧ FreesItsOwn s ∧
    ∃ m calls, Returns (fun f => free f s) m ∧ m.log = s₀.mem.log ++ calls ∧
      (calls ++ pointers [(40, 140)]).Perm (pointers (wornPairs 0 ++ [(1062, 9)])) := by
  obtain ⟨s₀, hs, W, hn, hfull, hrow, hkeyFree, hvalueFree⟩ :=
    exists_worn (show (0 : UInt64) ∈ [0, 42] by decide)
  have O : Owning s₀ := ⟨W.lawful, hkeyFree, hvalueFree, W.grants⟩
  have hdigits := List.forall_iff_forall_mem.mp
    (show [(1062 : UInt64), 41, 40].Forall NonNull by decide)
  obtain ⟨held, hheld, -, hnodup⟩ := W.wellFormed.exists_listing
  have hperm : held.Perm (wornPairs 0) := by
    refine (List.perm_ext_iff_of_nodup (hnodup fun k v h => ?_) (by decide +kernel)).mpr fun p => ?_
    · rw [W.compare, digitsCompare, beq_self_eq_true, beq_self_eq_true]
      rfl
    · rw [hheld.mem_iff, W.holds]
  have hint : s₀.self.maybeResize = true → s₀.self.nBuckets * increaseFactor ≤ intMax := fun _ => by
    rw [hn]
    decide
  obtain ⟨s₁, hput, A, -, hwf₁, -⟩ : ∃ s₁, Returns (fun f => put f s₀ 1062 9) (true, s₁) ∧
      Added s₀ s₁ 1062 9 ∧ _ :=
    put_spec W.lawful.everywhere W.wellFormed.everywhere trivial 9 W.grants hint
  have wf₁ := hwf₁ (.inl hfull)
  have L₁ : LawfulBesideNull s₁.self.hash s₁.self.compare := by
    rw [A.hash, A.compare]
    exact W.lawful
  obtain ⟨ok₁, s₂, hremove, wf₂, -, hholds₂, hhash₂, hcompare₂, -⟩ :=
    remove_spec L₁.everywhere wf₁ trivial (L₁.null_ne 41 (hdigits 41 (by decide))) true
  have L₂ : LawfulBesideNull s₂.self.hash s₂.self.compare := by
    rw [hhash₂, hcompare₂]
    exact L₁
  -- 40 is still there
  have h40 : Holds s₂ 40 140 := by
    rw [hholds₂, A.holds, W.holds, A.compare, W.compare]
    exact ⟨.inr (by decide +kernel), by decide⟩
  have hc40 : s₂.self.compare 40 40 = true := L₂.refl 40 (hdigits 40 (by decide))
  obtain ⟨ok₂, s₃, hsteal, wf₃, hok₂, -⟩ :=
    remove_spec L₂.everywhere wf₂ trivial (L₂.null_ne 40 (hdigits 40 (by decide))) false
  obtain rfl : ok₂ = true := hok₂.mpr ⟨40, 140, h40, hc40⟩
  have hist : History s₀ [(1062, 9)] [(40, 140)] s₃ :=
    ((History.init.put W.wellFormed (hdigits 1062 (by decide)) hint hput).remove wf₁.wellFormed
      (hdigits 41 (by decide)) hremove).steal wf₂.wellFormed (hdigits 40 (by decide)) h40 hc40 hsteal
  have hgiven := pointers_perm (hperm.append_right [((1062 : UInt64), (9 : UInt64))])
  obtain ⟨hfrees, -, -, -, -, -, -, hfree⟩ :=
    ownership_conserved O hheld hist (hgiven.nodup_iff.mpr (by decide +kernel))
  obtain ⟨m, calls, hm, hlog, hcalls, -⟩ := hfree wf₃.wellFormed
  exact ⟨s₀, s₃, hs, hrow, hfull, hist, hfrees wf₃.wellFormed, m, calls, hm, hlog,
    hcalls.trans hgiven⟩

end Nica
