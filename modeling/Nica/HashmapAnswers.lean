import Nica.Dictionary
import Nica.HashmapOutcome
import Nica.HashmapLoad

/-! # What a map answers

A map is told apart from a dictionary only by a put that runs out of memory: every other call gives
the dictionary's answer, and so does that put if refusing it is allowed (`Serves`).  `Live n s b`
says that the map `s` stands for the dictionary `b` after at most `n` puts; every call keeps it
(`Live.answer`), whatever allocations fail, as long as no put relinks a hole.  It depends only on
the cells of the map (`Live.elsewhere`). -/

namespace Nica

open Blocks Linked Rows Fueled NcHashmap

variable {K V : Type}

inductive Answer (K V : Type) where
  | done
  | flag (b : Bool)
  | value (v : V)
  | count (n : ℤ)
  | pairs (ps : List (K × V))
deriving DecidableEq

/-- The dictionary that a map stands for. -/
structure Book (K V : Type) where
  compare : K → K → Bool
  pairs : List (K × V)

namespace Book

def store (b : Book K V) (key : K) (value : V) : Book K V :=
  ⟨b.compare, Dictionary.store b.compare key value b.pairs⟩

def erase (b : Book K V) (key : K) : Book K V := ⟨b.compare, Dictionary.erase b.compare key b.pairs⟩

def find (b : Book K V) (key : K) : Option V := Dictionary.find b.compare key b.pairs

end Book

variable [Null K] [Null V]

/-- A call and what it returns. -/
def answer (fuel : ℕ) (s : State K V) : Op K V → Except Fault (Answer K V × State K V)
  | .put key value => do
      let (ok, s') ← put fuel s key value
      .ok (.flag ok, s')
  | .remove key => do
      let (ok, s') ← remove fuel s key
      .ok (.flag ok, s')
  | .steal key => do
      let (ok, s') ← steal fuel s key
      .ok (.flag ok, s')
  | .get key => do
      let v ← get fuel s key
      .ok (.value v, s)

omit [Null K] in
/-- What a dictionary may answer; `refused` says whether an allocation was refused meanwhile. -/
inductive Serves (refused : Prop) (b : Book K V) : Op K V → Answer K V → Book K V → Prop
  | put (key : K) (value : V) : Serves refused b (.put key value) (.flag true) (b.store key value)
  | put_refused (key : K) (value : V) : refused → Serves refused b (.put key value) (.flag false) b
  | remove (key : K) : Serves refused b (.remove key) (.flag (b.find key).isSome) (b.erase key)
  | steal (key : K) : Serves refused b (.steal key) (.flag (b.find key).isSome) (b.erase key)
  | get (key : K) : Serves refused b (.get key) (.value ((b.find key).getD null)) b

/-- `answer` is `call` with its result. -/
theorem call_of_answer {s s' : State K V} {op : Op K V} {a : Answer K V}
    (h : Returns (fun f => answer f s op) (a, s')) : Returns (fun f => call f s op) s' := by
  obtain ⟨f, hf⟩ := h.exists
  apply (call_steady s op).returns (n := f)
  cases op with
  | put key value =>
      obtain ⟨⟨ok, t⟩, ht, heq⟩ := ok_of_bind hf
      obtain ⟨-, rfl⟩ := Prod.mk.inj (Except.ok.inj heq)
      simp only [call, ht, ok_bind]
  | remove key =>
      obtain ⟨⟨ok, t⟩, ht, heq⟩ := ok_of_bind hf
      obtain ⟨-, rfl⟩ := Prod.mk.inj (Except.ok.inj heq)
      simp only [call, ht, ok_bind]
  | steal key =>
      obtain ⟨⟨ok, t⟩, ht, heq⟩ := ok_of_bind hf
      obtain ⟨-, rfl⟩ := Prod.mk.inj (Except.ok.inj heq)
      simp only [call, ht, ok_bind]
  | get key =>
      obtain ⟨v, hv, heq⟩ := ok_of_bind hf
      obtain ⟨-, rfl⟩ := Prod.mk.inj (Except.ok.inj heq)
      simp only [call, hv, ok_bind]

/-- A call is an action of the owner of the map. -/
theorem call_acts {s s' : State K V} (wf : WellFormed s) {op : Op K V}
    (h : Returns (fun f => call f s op) s') :
    Acts s.mem.toHeap s'.mem.toHeap (footprint s) (footprint s') := by
  obtain ⟨tails, hS, -⟩ := wf
  cases op with
  | put key value =>
      obtain ⟨ok, hret⟩ := returns_of_call (put_steady s key value) h
      exact put_acts hS hret
  | remove key =>
      obtain ⟨ok, hret⟩ := returns_of_call (removeInternal_steady s key true) h
      exact removeInternal_acts hS hret
  | steal key =>
      obtain ⟨ok, hret⟩ := returns_of_call (removeInternal_steady s key false) h
      exact removeInternal_acts hS hret
  | get key =>
      obtain rfl := eq_of_call_get h
      exact .refl _ _

/-! ### Maps that stand for a dictionary -/

structure Live (n : ℕ) (s : State K V) (b : Book K V) : Prop where
  lawful : LawfulKeys s.self.hash s.self.compare
  wellFormed : WellFormedOn NonNull s
  loaded : ∃ tails back, Loaded n s tails back
  compare : b.compare = s.self.compare
  distinct : Dictionary.Distinct b.compare NonNull b.pairs
  holds : ∀ k v, Holds s k v ↔ (k, v) ∈ b.pairs

namespace Live
variable {n : ℕ} {s s' : State K V} {b : Book K V} {key : K} {value : V}

theorem mono (h : Live n s b) {n' : ℕ} (hn : n ≤ n') : Live n' s b := by
  obtain ⟨tails, back, P⟩ := h.loaded
  exact { h with loaded := ⟨tails, back, P.mono hn⟩ }

/-- The dictionary has the key when the map holds a pair with an equal one. -/
theorem find_isSome (h : Live n s b) :
    (b.find key).isSome = true ↔ ∃ k v, Holds s k v ∧ s.self.compare k key = true := by
  rw [Option.isSome_iff_ne_none, ne_eq, Book.find, Dictionary.find_eq_none, h.compare]
  simp only [h.holds, Prod.forall, not_forall, Bool.not_eq_false, exists_prop]

theorem mem_erase (h : Live n s b) (k : K) (v : V) :
    (k, v) ∈ (b.erase key).pairs ↔ Holds s k v ∧ s.self.compare k key = false := by
  rw [Book.erase, Dictionary.mem_erase, ← h.holds, h.compare]

theorem mem_store (h : Live n s b) (k : K) (v : V) :
    (k, v) ∈ (b.store key value).pairs ↔
      (k = key ∧ v = value) ∨ (Holds s k v ∧ s.self.compare k key = false) := by
  rw [Book.store, Dictionary.mem_store, ← h.holds, h.compare, Prod.mk.injEq]

theorem distinct_store (h : Live n s b) (hk : NonNull key) (value : V) :
    Dictionary.Distinct b.compare NonNull (b.store key value).pairs := by
  have E := h.lawful.per
  apply h.distinct.store hk
  · rw [h.compare]
    exact h.lawful.refl key hk
  · intro k hkk
    rw [h.compare]
    exact Bool.eq_iff_iff.mpr ⟨E.symm _ _ hk hkk, E.symm _ _ hkk hk⟩

/-- A lookup answers as the dictionary. -/
theorem get_eq (h : Live n s b) (hk : NonNull key) :
    Returns (fun f => get f s key) ((b.find key).getD null) := by
  obtain ⟨hpresent, habsent⟩ := get_spec h.lawful.toLawful h.wellFormed hk
    (h.lawful.null_ne key hk)
  by_cases hhas : ∃ k v, Holds s k v ∧ s.self.compare k key = true
  · obtain ⟨k, v, hhold, hc⟩ := hhas
    have hfind : b.find key = some v := by
      apply Dictionary.find_eq_some (p := (k, v))
      · rintro ⟨k', v'⟩ hmem hc'
        rw [h.compare] at hc'
        have hhold' := (h.holds k' v').mpr hmem
        have hmem₁ := (h.holds k v).mp hhold
        have hD := h.distinct.keys _ hmem
        have hD₁ := h.distinct.keys _ hmem₁
        apply h.distinct.eq_of_compare _ hmem _ hmem₁
        rw [h.compare]
        exact h.lawful.per.trans _ _ _ hD hk hD₁ hc' (h.lawful.per.symm _ _ hD₁ hk hc)
      · exact (h.holds k v).mp hhold
      · rw [h.compare]
        exact hc
    rw [hfind]
    exact hpresent k v hhold hc
  · have hnone : b.find key = none := by
      rw [← Option.not_isSome_iff_eq_none, h.find_isSome]
      exact hhas
    rw [hnone]
    apply habsent
    intro k v hhold
    rw [← Bool.not_eq_true]
    intro hc
    exact hhas ⟨k, v, hhold, hc⟩

/-- A removal answers as the dictionary. -/
theorem removal (h : Live n s b) (hk : NonNull key) (remove : Bool) :
    ∃ s', Returns (fun f => removeInternal f s key remove) ((b.find key).isSome, s') ∧
      Live n s' (b.erase key) := by
  obtain ⟨ok, s', hr, wf, hok, hholds, hhash, hcompare, -⟩ :=
    remove_spec h.lawful.toLawful h.wellFormed hk (h.lawful.null_ne key hk) remove
  have hsome : ok = (b.find key).isSome :=
    Bool.eq_iff_iff.mpr (hok.trans (h.find_isSome).symm)
  subst hsome
  obtain ⟨tails, back, P⟩ := h.loaded
  refine ⟨s', hr, by rw [hhash, hcompare]; exact h.lawful, wf, ⟨tails, back, P.removal hk hr⟩,
    by rw [hcompare]; exact h.compare, h.distinct.erase key, fun k v => ?_⟩
  rw [hholds, h.mem_erase]

/-- Every call answers as the dictionary may, and what it leaves stands for the dictionary after
it. -/
theorem answer (h : Live n s b) {op : Op K V} (hkeep : KeepsChains s op)
    (hputs : n + putCount [op] ≤ 2 ^ 29) :
    ∃ a s' b', Returns (fun f => Nica.answer f s op) (a, s') ∧ Live (n + putCount [op]) s' b' ∧
      Serves (Refused s.mem.toHeap s'.mem.toHeap) b op a b' := by
  obtain ⟨hk, hrelink⟩ := hkeep
  cases op with
  | put key value =>
      have hkey : NonNull key := hk
      obtain ⟨tails, back, P⟩ := h.loaded
      have hn : n ≤ 2 ^ 29 := (Nat.le_add_right _ _).trans hputs
      obtain ⟨ok, s', hr, O⟩ := put_outcome h.lawful h.wellFormed hkey value
        (hrelink key value rfl) fun hfull => P.mul_le_intMax hfull hn
      have hcall : Returns (fun f => Nica.answer f s (.put key value)) (.flag ok, s') :=
        hr.bind (Returns.pure _)
      have L' : LawfulKeys s'.self.hash s'.self.compare := by
        rw [O.hash, O.compare]
        exact h.lawful
      have hloaded := P.put hk hr
      cases ok with
      | true =>
          refine ⟨_, s', b.store key value, hcall, ⟨L', O.wellFormed, hloaded,
            by rw [O.compare]; exact h.compare, h.distinct_store hk value, fun k v => ?_⟩,
            .put key value⟩
          rw [O.stored rfl, h.mem_store]
      | false =>
          refine ⟨_, s', b, hcall, ⟨L', O.wellFormed, hloaded,
            by rw [O.compare]; exact h.compare, h.distinct, fun k v => ?_⟩,
            .put_refused key value (O.kept rfl).2⟩
          rw [(O.kept rfl).1, h.holds]
  | remove key =>
      have hkey : NonNull key := hk
      obtain ⟨s', hr, h'⟩ := h.removal hkey true
      exact ⟨_, s', _, hr.bind (Returns.pure _), h', .remove key⟩
  | steal key =>
      have hkey : NonNull key := hk
      obtain ⟨s', hr, h'⟩ := h.removal hkey false
      exact ⟨_, s', _, hr.bind (Returns.pure _), h', .steal key⟩
  | get key =>
      exact ⟨_, s, b, (h.get_eq hk).bind (Returns.pure _), h, .get key⟩

/-! ### Maps beside others -/

omit [Null K] [Null V] in
theorem rowsOf_elsewhere {h h' : Heap (NcHashmapEntry K V)} {t k : ℕ} {tails : ℕ → List ℕ}
    (he : ∀ i < k, ∀ a ∈ chainOf t tails i, h'.cells a = h.cells a) :
    ∀ i < k, rowsOf h' t tails i = rowsOf h t tails i := fun i hi => rowOf_congr (he i hi)

/-- A map in another memory that has the same cells for it. -/
theorem elsewhere (h : Live n s b) {m : Mem K V}
    (htab : ∀ i, s.self.nBuckets ≤ i → m.cells (.slot s.self.buckets i) = none)
    (he : ∀ a ∈ footprint s, m.cells a = s.mem.cells a) :
    Live n ⟨s.self, m⟩ b ∧ footprint ⟨s.self, m⟩ = footprint s := by
  obtain ⟨tails, T, -, hn⟩ := h.wellFormed.table
  obtain ⟨tails₁, back, P⟩ := h.loaded
  have hS := T.toShape
  have hchain : ∀ i < s.self.nBuckets, ∀ a ∈ chainOf s.self.buckets tails i,
      m.cells a = s.mem.cells a := fun i hi a ha => he a (hS.mem_cellsOf.mpr ⟨i, hi, ha⟩)
  have hchain₁ : ∀ i < s.self.nBuckets, ∀ a ∈ chainOf s.self.buckets tails₁ i,
      m.cells a = s.mem.cells a :=
    fun i hi a ha => he a (P.table.toShape.mem_cellsOf.mpr ⟨i, hi, ha⟩)
  have hrow := rowsOf_elsewhere hchain
  have hrow₁ := rowsOf_elsewhere hchain₁
  have hS' : Shape m.toHeap s.self.buckets s.self.nBuckets tails fun _ => none :=
    hS.elsewhere htab he
  have T' : Table s.self NonNull m.toHeap s.self.buckets s.self.nBuckets tails fun _ => none :=
    ⟨hS', T.rows.congr hrow⟩
  have P' : Loaded n ⟨s.self, m⟩ tails₁ back :=
    { lawful := P.lawful
      table := ⟨P.table.toShape.elsewhere htab he, P.table.rows.congr hrow₁⟩
      size := by
        rw [contents_congr hrow₁]
        exact P.size
      nBuckets := P.nBuckets
      nextSize := P.nextSize
      load := P.load
      few := P.few }
  refine ⟨⟨h.lawful, ?_, ⟨tails₁, back, P'⟩, h.compare, h.distinct, fun k v => ?_⟩,
    hS.cellsOf_eq hS'⟩
  · apply Table.wellFormed (s := ⟨s.self, m⟩) h.lawful.toLawful T'
    rw [contents_congr hrow]
    exact hn
  · rw [Shape.holds_iff (s := ⟨s.self, m⟩) hS', contents_congr hrow, ← hS.holds_iff, h.holds]

/-- `size` counts the pairs of the dictionary, and an iteration sees them. -/
theorem counts (h : Live n s b) : s.self.size = b.pairs.length ∧
    ∃ ps, Returns (fun f => drain s f iterInit) ps ∧ ps.Perm b.pairs := by
  obtain ⟨tails, T, hu, hn⟩ := h.wellFormed.table
  have hnodup : (contents (rowsOf s.mem.toHeap s.self.buckets tails) s.self.nBuckets).Nodup := by
    apply List.Pairwise.imp_of_mem _ hu
    rintro p q hp hq hne rfl
    obtain ⟨i, hi, hp⟩ := mem_contents.mp hp
    rw [h.lawful.refl _ (T.rows.keys i hi p hp)] at hne
    cases hne
  have hperm : (contents (rowsOf s.mem.toHeap s.self.buckets tails) s.self.nBuckets).Perm
      b.pairs := by
    apply (List.perm_ext_iff_of_nodup hnodup h.distinct.nodup).mpr
    rintro ⟨k, v⟩
    rw [← T.holds_iff, h.holds]
  have hdrain := drain_contents T.toShape (iterInit_at s tails)
  rw [← contents_rowsOf] at hdrain
  exact ⟨by rw [hn, hperm.length_eq], _, hdrain, hperm⟩

end Live
end Nica
