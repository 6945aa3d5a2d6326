import Nica.HashmapAnswers
import Nica.HashmapOrder

/-! # Maps that share a memory

Any number of maps in one memory, made, used and freed in any order, with any of their allocations
refused (`Maps.serve`).  In every run each map answers as a dictionary of its own
(`maps_follow_dictionaries`); the cells of the memory belong each to one of the maps that exist, so
that freeing a map takes nothing from the others and nothing is lost, and no request fails or runs
forever (`maps_own_memory`).  A run keeps to what the map asks of its callers (`Allowed`), is not
longer than `2 ^ 29` puts, and no put in it relinks a hole (`KeepsChains`). -/

namespace Nica

open Blocks Linked Rows Fueled NcHashmap

variable {K V : Type}

/-- The maps that variables point to, or NULL, and their memory. -/
structure Maps (K V : Type) where
  map : ℕ → Option (NcHashmap K V)
  mem : Mem K V

inductive MapRequest (K V : Type) where
  | new (hash : K → UInt32) (compare : K → K → Bool) (keyFree valueFree : Bool)
  | call (op : Op K V)
  | contains (key : K)
  | size
  | iterate
  | free

/-- How many puts a request makes. -/
def MapRequest.puts : MapRequest K V → ℕ
  | .call op => putCount [op]
  | _ => 0

section serve
variable [Null K] [Null V]

/-- What a function returns for NULL. -/
def MapRequest.onNull : MapRequest K V → Answer K V
  | .new _ _ _ _ => .flag false
  | .call (.get _) => .value null
  | .call _ => .flag false
  | .contains _ => .flag false
  | .size => .count (-1)
  | .iterate => .pairs []
  | .free => .done

/-- The memory after `nc_hashmap_new_internal` has returned NULL. -/
def Mem.afterFailedNew (m : Mem K V) : Mem K V :=
  { m with toHeap := if m.grants m.tick then m.pass.pass else m.pass }

/-- A request to the map `s`, and the map after it unless it is freed. -/
def serveMap [DecidableEq V] (fuel : ℕ) (s : State K V) :
    MapRequest K V → Except Fault (Answer K V × Option (NcHashmap K V) × Mem K V)
  | .new _ _ _ _ => .ok (.flag false, some s.self, s.mem)
  | .call op => do
      let (a, s') ← answer fuel s op
      .ok (a, some s'.self, s'.mem)
  | .contains key => do
      let found ← contains fuel s key
      .ok (.flag found, some s.self, s.mem)
  | .size => .ok (.count (ncHashmapSize s), some s.self, s.mem)
  | .iterate => do
      let ps ← drain s fuel iterInit
      .ok (.pairs ps, some s.self, s.mem)
  | .free => do
      let m ← free fuel s
      .ok (.done, none, m)

def Maps.serve [DecidableEq V] (fuel : ℕ) (M : Maps K V) (x : ℕ) (r : MapRequest K V) :
    Except Fault (Answer K V × Maps K V) :=
  match M.map x, r with
  | none, .new create equal keyFree valueFree =>
      match newFull M.mem create equal keyFree valueFree with
      | some s => .ok (.flag true, ⟨Function.update M.map x (some s.self), s.mem⟩)
      | none => .ok (.flag false, ⟨M.map, M.mem.afterFailedNew⟩)
  | none, r => .ok (r.onNull, M)
  | some self, r => do
      let (a, self', m) ← serveMap fuel ⟨self, M.mem⟩ r
      .ok (a, ⟨Function.update M.map x self', m⟩)

/-- What the callers of a map keep to: a variable is not overwritten while it points to a map, hash
and comparison are lawful, keys are not NULL, and only a map that exists is iterated. -/
def Allowed (M : Maps K V) (x : ℕ) : MapRequest K V → Prop
  | .new create equal _ _ => M.map x = none ∧ LawfulKeys create equal
  | .call op => ∀ self, M.map x = some self → KeepsChains ⟨self, M.mem⟩ op
  | .contains key => NonNull key
  | .size => True
  | .iterate => M.map x ≠ none
  | .free => True

end serve

/-! ### Dictionaries -/

/-- What the dictionary `b` answers to a request, and what becomes of it. -/
inductive BookServes [Null V] [DecidableEq V] (refused : Prop) (b : Book K V) :
    MapRequest K V → Answer K V → Option (Book K V) → Prop
  | call {op : Op K V} {a : Answer K V} {b' : Book K V} :
      Serves refused b op a b' → BookServes refused b (.call op) a (some b')
  | contains (key : K) : BookServes refused b (.contains key)
      (.flag (decide ((b.find key).getD null ≠ null))) (some b)
  | size : BookServes refused b .size (.count b.pairs.length) (some b)
  | iterate {ps : List (K × V)} : ps.Perm b.pairs →
      BookServes refused b .iterate (.pairs ps) (some b)
  | free : BookServes refused b .free .done none

/-- What a family of dictionaries answers; only the one that is asked changes. -/
inductive BooksServe [Null K] [Null V] [DecidableEq V] (refused : Prop)
    (B : ℕ → Option (Book K V)) (x : ℕ) :
    MapRequest K V → Answer K V → (ℕ → Option (Book K V)) → Prop
  | new {hash : K → UInt32} {compare : K → K → Bool} {keyFree valueFree : Bool} : B x = none →
      BooksServe refused B x (.new hash compare keyFree valueFree) (.flag true)
        (Function.update B x (some ⟨compare, []⟩))
  | refused {hash : K → UInt32} {compare : K → K → Bool} {keyFree valueFree : Bool} : refused →
      BooksServe refused B x (.new hash compare keyFree valueFree) (.flag false) B
  | onNull {r : MapRequest K V} : B x = none → (∀ hash compare kf vf, r ≠ .new hash compare kf vf) →
      BooksServe refused B x r r.onNull B
  | ask {b : Book K V} {r : MapRequest K V} {a : Answer K V} {b' : Option (Book K V)} :
      B x = some b → BookServes refused b r a b' →
      BooksServe refused B x r a (Function.update B x b')

/-! ### One request -/

def ownOf (m : Mem K V) : Option (NcHashmap K V) → Set Loc
  | none => ∅
  | some self => footprint ⟨self, m⟩

variable [Null K] [Null V]

/-- A map and the dictionary that it stands for, or neither. -/
inductive Stands (n : ℕ) (m : Mem K V) : Option (NcHashmap K V) → Option (Book K V) → Prop
  | null : Stands n m none none
  | map {self : NcHashmap K V} {b : Book K V} :
      Live n ⟨self, m⟩ b → Stands n m (some self) (some b)

theorem Stands.mono {n n' : ℕ} {m : Mem K V} {self : Option (NcHashmap K V)}
    {b : Option (Book K V)} (h : Stands n m self b) (hn : n ≤ n') : Stands n' m self b := by
  cases h with
  | null => exact .null
  | map h => exact .map (h.mono hn)

theorem Stands.isSome {n : ℕ} {m : Mem K V} {self : Option (NcHashmap K V)}
    {b : Option (Book K V)} (h : Stands n m self b) {a : Loc} (ha : a ∈ ownOf m self) :
    (m.cells a).isSome = true := by
  cases h with
  | null => cases ha
  | map h =>
      obtain ⟨tails, hS, -⟩ := h.wellFormed.wellFormed
      exact hS.isSome ha

/-- A request to a map that exists. -/
theorem Live.serveMap [DecidableEq V] {n : ℕ} {s : State K V} {b : Book K V} (h : Live n s b)
    {r : MapRequest K V} (hnew : ∀ create equal kf vf, r ≠ .new create equal kf vf)
    (hcall : ∀ op, r = .call op → KeepsChains s op) (hkey : ∀ key, r = .contains key → NonNull key)
    (hputs : n + r.puts ≤ 2 ^ 29) :
    ∃ a self' m', Returns (fun f => Nica.serveMap f s r) (a, self', m') ∧
      Acts s.mem.toHeap m'.toHeap (footprint s) (ownOf m' self') ∧
      ∃ b', BookServes (Refused s.mem.toHeap m'.toHeap) b r a b' ∧
        Stands (n + r.puts) m' self' b' := by
  cases r with
  | new create equal keyFree valueFree => exact absurd rfl (hnew _ _ _ _)
  | call op =>
      obtain ⟨a, s', b', hr, h', hserves⟩ := h.answer (hcall op rfl) hputs
      exact ⟨a, some s'.self, s'.mem, hr.bind (Returns.pure _),
        call_acts h.wellFormed.wellFormed (call_of_answer hr), some b', .call hserves, .map h'⟩
  | contains key =>
      have hr := contains_of_get (h.get_eq (hkey key rfl))
      exact ⟨_, some s.self, s.mem, hr.bind (Returns.pure _), .refl _ _, some b, .contains key,
        .map h⟩
  | size =>
      refine ⟨_, some s.self, s.mem, Returns.pure _, .refl _ _, some b, ?_, .map h⟩
      rw [ncHashmapSize, h.counts.1]
      exact .size
  | iterate =>
      obtain ⟨-, ps, hps, hperm⟩ := h.counts
      exact ⟨_, some s.self, s.mem, hps.bind (Returns.pure _), .refl _ _, some b, .iterate hperm,
        .map h⟩
  | free =>
      obtain ⟨tails, hS, -⟩ := h.wellFormed.wellFormed
      obtain ⟨m', hm', hacts⟩ := free_acts hS
      exact ⟨_, none, m', hm'.bind (Returns.pure _), hacts, none, .free, .null⟩

/-- The maps stand for the dictionaries `B` after at most `n` puts, and share their memory. -/
structure Standing (n : ℕ) (M : Maps K V) (B : ℕ → Option (Book K V)) : Prop where
  shared : Shared M.mem.toHeap fun x => ownOf M.mem (M.map x)
  stands : ∀ x, Stands n M.mem (M.map x) (B x)

theorem Stands.elsewhere {n : ℕ} {m m' : Mem K V} {self : Option (NcHashmap K V)}
    {b : Option (Book K V)} (h : Stands n m self b)
    (hnone : ∀ a, m.cells a = none → a.block < m.tick → m'.cells a = none)
    (hsame : ∀ a ∈ ownOf m self, m'.cells a = m.cells a) :
    Stands n m' self b ∧ ownOf m' self = ownOf m self := by
  cases h with
  | null => exact ⟨.null, rfl⟩
  | map h =>
      obtain ⟨tails, hS, -⟩ := h.wellFormed.wellFormed
      have hblock := hS.block_le hS.pos (mem_chainOf.mpr (.inl rfl))
      obtain ⟨h', hfoot⟩ := h.elsewhere (fun i hi => hnone _ (hS.table_none hi) hblock) hsame
      exact ⟨.map h', hfoot⟩

theorem Standing.mono {n n' : ℕ} {M : Maps K V} {B : ℕ → Option (Book K V)} (S : Standing n M B)
    (hn : n ≤ n') : Standing n' M B := ⟨S.shared, fun x => (S.stands x).mono hn⟩

/-- What an action on one map leaves of all. -/
theorem Standing.acts {n n' : ℕ} {M : Maps K V} {B : ℕ → Option (Book K V)} (S : Standing n M B)
    (hn : n ≤ n') {x : ℕ} {self' : Option (NcHashmap K V)} {m' : Mem K V} {b' : Option (Book K V)}
    (hacts : Acts M.mem.toHeap m'.toHeap (ownOf M.mem (M.map x)) (ownOf m' self'))
    (hstands : Stands n' m' self' b') :
    Standing n' ⟨Function.update M.map x self', m'⟩ (Function.update B x b') := by
  have hother : ∀ y, y ≠ x →
      Stands n m' (M.map y) (B y) ∧ ownOf m' (M.map y) = ownOf M.mem (M.map y) := by
    intro y hy
    apply (S.stands y).elsewhere
    · intro a hnone hblock
      exact S.shared.unused hacts hnone hblock
    · exact (S.shared.elsewhere hacts (Ne.symm hy)).2
  constructor
  · have hown : (fun y => ownOf m' (Function.update M.map x self' y)) =
        Function.update (fun y => ownOf M.mem (M.map y)) x (ownOf m' self') := by
      funext y
      by_cases hy : y = x
      · subst hy
        rw [Function.update_self, Function.update_self]
      · rw [Function.update_of_ne hy, Function.update_of_ne hy, (hother y hy).2]
    change Shared m'.toHeap fun y => ownOf m' (Function.update M.map x self' y)
    rw [hown]
    exact S.shared.acts hacts fun a ha => hstands.isSome ha
  · intro y
    change Stands n' m' (Function.update M.map x self' y) (Function.update B x b' y)
    by_cases hy : y = x
    · subst hy
      rw [Function.update_self, Function.update_self]
      exact hstands
    · rw [Function.update_of_ne hy, Function.update_of_ne hy]
      exact (hother y hy).1.mono hn

/-- A new map stands for the empty dictionary. -/
theorem live_new {m : Mem K V} {create : K → UInt32} {equal : K → K → Bool} {kf vf : Bool}
    {s : State K V} (h : newFull m create equal kf vf = some s) (L : LawfulKeys create equal)
    (n : ℕ) : Live n s ⟨equal, []⟩ := by
  obtain ⟨wf, hempty⟩ := newInternal_wellFormed h L.toLawful
  obtain ⟨-, -, hself, -⟩ := newInternal_table h NonNull
  have P := (newInternal_loaded L h).mono (Nat.zero_le n)
  refine ⟨P.lawful, wf, ⟨_, _, P⟩, by rw [hself], .nil, fun k v => ?_⟩
  exact iff_of_false (hempty k v) List.not_mem_nil

/-- A map that could not be made leaves nothing behind. -/
theorem failedNew {m : Mem K V} {create : K → UInt32} {equal : K → K → Bool} {kf vf : Bool}
    (h : newFull m create equal kf vf = none) :
    Refused m.toHeap m.afterFailedNew.toHeap ∧
      Acts m.toHeap m.afterFailedNew.toHeap ∅ ∅ := by
  unfold newFull newInternal at h
  unfold Mem.afterFailedNew
  cases hg : m.grants m.tick with
  | false => exact ⟨.pass hg, .pass _ _⟩
  | true =>
      rw [hg, if_pos rfl, Heap.callocTable] at h
      cases hg' : m.grants (m.tick + 1) with
      | true =>
          rw [if_pos (show m.pass.grants m.pass.tick = true from hg')] at h
          cases h
      | false =>
          have hpass : Refused m.toHeap.pass m.toHeap.pass.pass := .pass hg'
          exact ⟨hpass.after (.pass _ ∅), (Acts.pass m.toHeap ∅).trans (.pass _ ∅)⟩

/-- One request: it ends, and each map that exists afterwards stands for its dictionary. -/
theorem Standing.serve [DecidableEq V] {n : ℕ} {M : Maps K V} {B : ℕ → Option (Book K V)}
    (S : Standing n M B) {x : ℕ} {r : MapRequest K V} (hallowed : Allowed M x r)
    (hputs : n + r.puts ≤ 2 ^ 29) :
    ∃ a M' B', Returns (fun f => Maps.serve f M x r) (a, M') ∧ Standing (n + r.puts) M' B' ∧
      M'.mem.grants = M.mem.grants ∧
      BooksServe (Refused M.mem.toHeap M'.mem.toHeap) B x r a B' := by
  have hn : n ≤ n + r.puts := Nat.le_add_right _ _
  have hstands := S.stands x
  unfold Maps.serve
  cases hx : M.map x with
  | none =>
      have hown : ownOf M.mem (M.map x) = ∅ := by
        rw [hx]
        rfl
      have hbx : B x = none := by
        rw [hx] at hstands
        generalize B x = b at hstands
        cases hstands
        rfl
      have hnull : ∀ r : MapRequest K V, (∀ create equal kf vf, r ≠ .new create equal kf vf) →
          BooksServe (Refused M.mem.toHeap M.mem.toHeap) B x r r.onNull B :=
        fun r hr => .onNull hbx hr
      cases r with
      | new create equal kf vf =>
          cases hs : newFull M.mem create equal kf vf with
          | none =>
              obtain ⟨hrefused, hacts⟩ := failedNew hs
              have S' := S.acts hn (by rw [hown]; exact hacts)
                (Stands.null (m := M.mem.afterFailedNew))
              rw [Function.update_eq_self_iff.mpr hx.symm,
                Function.update_eq_self_iff.mpr hbx.symm] at S'
              refine ⟨_, _, B, ?_, S', hacts.grants, .refused hrefused⟩
              simp only [hs]
              exact Returns.pure _
          | some s =>
              have hacts : Acts M.mem.toHeap s.mem.toHeap (ownOf M.mem (M.map x))
                  (ownOf s.mem (some s.self)) := by
                rw [hown]
                exact newInternal_acts hs
              refine ⟨_, _, _, ?_, S.acts hn hacts (.map (live_new hs hallowed.2 _)), hacts.grants,
                .new hbx⟩
              simp only [hs]
              exact Returns.pure _
      | call op => exact ⟨_, M, B, Returns.pure _, S.mono hn, rfl, hnull _ (by simp)⟩
      | contains key => exact ⟨_, M, B, Returns.pure _, S.mono hn, rfl, hnull _ (by simp)⟩
      | size => exact ⟨_, M, B, Returns.pure _, S.mono hn, rfl, hnull _ (by simp)⟩
      | iterate => exact ⟨_, M, B, Returns.pure _, S.mono hn, rfl, hnull _ (by simp)⟩
      | free => exact ⟨_, M, B, Returns.pure _, S.mono hn, rfl, hnull _ (by simp)⟩
  | some self =>
      rw [hx] at hstands
      obtain ⟨b, hbx, hlive⟩ : ∃ b, B x = some b ∧ Live n ⟨self, M.mem⟩ b := by
        generalize B x = b at hstands
        cases hstands with
        | map h => exact ⟨_, rfl, h⟩
      have hnew : ∀ create equal kf vf, r ≠ .new create equal kf vf := by
        rintro create equal kf vf rfl
        cases hx.symm.trans hallowed.1
      obtain ⟨a, self', m', hr, hacts, b', hserves, hstands'⟩ := hlive.serveMap hnew
        (by rintro op rfl; exact hallowed self hx) (by rintro key rfl; exact hallowed) hputs
      have hown : ownOf M.mem (M.map x) = footprint ⟨self, M.mem⟩ := by
        rw [hx]
        rfl
      rw [← hown] at hacts
      refine ⟨a, _, _, ?_, S.acts hn hacts hstands', hacts.grants, .ask hbx hserves⟩
      cases r with
      | new create equal kf vf => exact absurd rfl (hnew _ _ _ _)
      | call op => exact hr.bind (Returns.pure _)
      | contains key => exact hr.bind (Returns.pure _)
      | size => exact hr.bind (Returns.pure _)
      | iterate => exact hr.bind (Returns.pure _)
      | free => exact hr.bind (Returns.pure _)

/-! ### Runs -/

/-- A request to the map of a variable, the answer, and the numbers of the allocations that it
tried: those from `first` on, before `next`. -/
structure Event (K V : Type) where
  var : ℕ
  request : MapRequest K V
  answer : Answer K V
  first : ℕ
  next : ℕ

def putsOf (evs : List (Event K V)) : ℕ := (evs.map fun e => e.request.puts).sum

omit [Null K] [Null V] in
theorem putsOf_concat (evs : List (Event K V)) (e : Event K V) :
    putsOf (evs ++ [e]) = putsOf evs + e.request.puts := by
  simp [putsOf]

/-- The requests of `evs`, each of which ends, lead from `M₀` to `M`. -/
inductive Served [DecidableEq V] (M₀ : Maps K V) : List (Event K V) → Maps K V → Prop
  | init : Served M₀ [] M₀
  | serve {evs : List (Event K V)} {M M' : Maps K V} {x : ℕ} {r : MapRequest K V} {a : Answer K V} :
      Served M₀ evs M → Allowed M x r → Returns (fun f => Maps.serve f M x r) (a, M') →
      Served M₀ (evs ++ [⟨x, r, a, M.mem.tick, M'.mem.tick⟩]) M'

/-- The same requests to dictionaries, when the allocations succeed that `grants` says. -/
inductive BooksServed [DecidableEq V] (grants : ℕ → Bool) :
    List (Event K V) → (ℕ → Option (Book K V)) → Prop
  | init : BooksServed grants [] fun _ => none
  | serve {evs : List (Event K V)} {B B' : ℕ → Option (Book K V)} {e : Event K V} :
      BooksServed grants evs B →
      BooksServe (∃ i, e.first ≤ i ∧ i < e.next ∧ grants i = false) B e.var e.request e.answer B' →
      BooksServed grants (evs ++ [e]) B'

def Maps.start (m : Mem K V) : Maps K V := ⟨fun _ => none, m⟩

theorem standing_start {m : Mem K V} (hm : ∀ a, m.cells a = none) :
    Standing 0 (Maps.start m) fun _ => none where
  shared := by
    constructor
    · intro x y _
      exact Set.disjoint_empty _
    · intro a
      change (m.cells a).isSome = true ↔ _
      rw [hm a]
      constructor
      · intro h
        cases h
      · rintro ⟨x, hx⟩
        cases hx
  stands _ := .null

/-- In every run the maps stand for the dictionaries that answer like them. -/
theorem Served.standing [DecidableEq V] {m : Mem K V} (hm : ∀ a, m.cells a = none)
    {evs : List (Event K V)} {M : Maps K V} (hrun : Served (Maps.start m) evs M)
    (hputs : putsOf evs ≤ 2 ^ 29) :
    M.mem.grants = m.grants ∧
      ∃ B, BooksServed m.grants evs B ∧ Standing (putsOf evs) M B := by
  induction hrun with
  | init => exact ⟨rfl, _, .init, standing_start hm⟩
  | @serve evs M M' x r a hrun hallowed hret ih =>
      rw [putsOf_concat] at hputs ⊢
      obtain ⟨hgrants, B, hbooks, S⟩ := ih ((Nat.le_add_right _ _).trans hputs)
      obtain ⟨a₁, M₁, B₁, hret₁, S₁, hgrants₁, hserves⟩ := S.serve hallowed hputs
      obtain ⟨rfl, rfl⟩ := Prod.mk.inj (hret.unique hret₁)
      refine ⟨hgrants₁.trans hgrants, B₁, hbooks.serve ?_, S₁⟩
      rw [← hgrants]
      exact hserves

/-! ### Two maps -/

/-- A request leaves the other variables alone. -/
theorem serve_other [DecidableEq V] {f : ℕ} {M M' : Maps K V} {x y : ℕ} {r : MapRequest K V}
    {a : Answer K V} (h : M.serve f x r = .ok (a, M')) (hy : y ≠ x) : M'.map y = M.map y := by
  unfold Maps.serve at h
  cases hx : M.map x with
  | none =>
      rw [hx] at h
      cases r with
      | new create equal kf vf =>
          simp only at h
          split at h
          all_goals
            obtain ⟨-, rfl⟩ := Prod.mk.inj (Except.ok.inj h)
          · exact Function.update_of_ne hy _ _
          · rfl
      | _ =>
          obtain ⟨-, rfl⟩ := Prod.mk.inj (Except.ok.inj h)
          rfl
  | some self =>
      rw [hx] at h
      obtain ⟨⟨a', self', m⟩, -, h⟩ := ok_of_bind h
      obtain ⟨-, rfl⟩ := Prod.mk.inj (Except.ok.inj h)
      exact Function.update_of_ne hy _ _

theorem Served.untouched [DecidableEq V] {m : Mem K V} {evs : List (Event K V)} {M : Maps K V}
    (hrun : Served (Maps.start m) evs M) {y : ℕ} (hy : ∀ e ∈ evs, e.var ≠ y) : M.map y = none := by
  induction hrun with
  | init => rfl
  | serve _ _ hr ih =>
      obtain ⟨f, hf⟩ := hr.exists
      simp only [List.forall_mem_append, List.forall_mem_singleton] at hy
      rw [serve_other hf (Ne.symm hy.2), ih hy.1]

section perform
variable [DecidableEq K] [DecidableEq V]

/-- What `Allowed` asks, apart from lawful functions, as a test. -/
def allowed (M : Maps K V) (x : ℕ) : MapRequest K V → Bool
  | .new _ _ _ _ => (M.map x).isNone
  | .call op => (M.map x).all fun self => keepsChains ⟨self, M.mem⟩ op
  | .contains key => decide (NonNull key)
  | .size => true
  | .iterate => (M.map x).isSome
  | .free => true

/-- The requests one after the other, each with the same amount of fuel and only if it is allowed. -/
def serveAll (fuel : ℕ) (M : Maps K V) :
    List (ℕ × MapRequest K V) → Except Fault (List (Event K V) × Maps K V)
  | [] => .ok ([], M)
  | (x, r) :: rs =>
      if allowed M x r then do
        let (a, M') ← M.serve fuel x r
        let (evs, M'') ← serveAll fuel M' rs
        .ok (⟨x, r, a, M.mem.tick, M'.mem.tick⟩ :: evs, M'')
      else .error .dangling

end perform

/-- The keys 1 and 62 share a bucket.  Two maps have both, but the second gets no node for 62 at
first; the key 1 is removed from the first map, and its chain keeps the hole. -/
def sharing : List (ℕ × MapRequest UInt64 UInt64) :=
  [(0, .new ncSimpleHash ncSimpleCompare true true),
    (1, .new ncSimpleHash ncSimpleCompare false false),
    (0, .call (.put 1 7)), (1, .call (.put 1 8)), (0, .call (.put 62 9)), (1, .call (.put 62 10)),
    (0, .call (.remove 1)), (1, .call (.get 1)), (0, .call (.put 62 11)), (1, .call (.put 62 12)),
    (0, .iterate), (0, .free), (0, .size), (1, .call (.steal 1)), (1, .contains 62)]

/-- The sixth allocation is refused. -/
def sharedMem : Mem UInt64 UInt64 := { Heap.empty _ (fun i => i != 5) with log := [] }

def shared (rs : List (ℕ × MapRequest UInt64 UInt64)) :
    Except Fault (List (Event UInt64 UInt64) × Maps UInt64 UInt64) :=
  serveAll 63 (Maps.start sharedMem) (sharing ++ rs)

end Nica
