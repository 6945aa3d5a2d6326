import Nica.NcListFree

/-! # The calls on a list are local

The calls of `list.c` and `list.h` on one list pointer (`ListCall`), with what each of them makes of
the sequence that the list carries (`ListCall.onSequence`): the answer, the data that it hands to
`free`, and the sequence afterwards (`ListCall.spec`).

What a call does with the nodes of its list it does in a larger memory too, and it leaves the other
nodes alone (`ListCall.whole`). -/

namespace Nica

open Linked Fueled HeapParts

variable {D : Type}

inductive ListCall (D : Type) where
  | op (op : ListOp D)
  | forEach
  | free
  | freeAll

/-- What a call tells its caller. -/
inductive ListAnswer (D : Type) where
  | flag (ok : Bool)
  | seen (data : List D)
  | done

namespace ListCall

/-- `calloc` returns NULL or an address that is not in use. -/
def Allowed (s : ListState D) : ListCall D → Prop
  | ListCall.op o => o.Allowed s
  | _ => True

instance (s : ListState D) : (c : ListCall D) → Decidable (c.Allowed s)
  | ListCall.op o => inferInstanceAs (Decidable (o.Allowed s))
  | .forEach => isTrue trivial
  | .free => isTrue trivial
  | .freeAll => isTrue trivial

variable [DecidableEq D]

def call [Null D] (fuel : ℕ) (s : ListState D) :
    ListCall D → Except Fault (ListAnswer D × ListState D)
  | ListCall.op o => do
      let (ok, s) ← o.call fuel s
      .ok (.flag ok, s)
  | .forEach => do
      let data ← Nica.forEach s.nodes fuel s.list
      .ok (.seen data, s)
  | .free => do
      let s ← ncListFree fuel s
      .ok (.done, s)
  | .freeAll => do
      let s ← ncListFreeAll fuel s
      .ok (.done, s)

/-- The data that a call on a list of `xs` hands to `free`. -/
def freedOf (xs : List D) : ListCall D → List D
  | ListCall.op (.remove data true) => if data ∈ xs then [data] else []
  | ListCall.op _ => []
  | .forEach => []
  | .free => []
  | .freeAll => xs

/-- The answer of the call and the sequence afterwards. -/
def onSequence (xs : List D) : ListCall D → ListAnswer D × List D
  | ListCall.op o => (.flag (o.onSequence xs).1, (o.onSequence xs).2)
  | .forEach => (.seen xs, xs)
  | .free => (.done, [])
  | .freeAll => (.done, [])

end ListCall

theorem load_ok {h : Nodes D} {p : Option Addr} {n : NcList D} (hload : h.load p = .ok n) :
    ∃ a, p = some a ∧ h a = some n := by
  cases p with
  | none => cases hload
  | some a =>
      cases ha : h a with
      | none =>
          rw [Nodes.load, Option.bind_some, ha] at hload
          cases hload
      | some m =>
          rw [Nodes.load_some ha] at hload
          rw [Except.ok.inj hload] at ha
          exact ⟨a, rfl, ha⟩

section insertion
variable {s s' : ListState D} {d : D} {ok : Bool}

/-- The insertions free no data. -/
theorem ncListAppend_freed [Null D] {calloc : Option Addr}
    (hcall : ncListAppend s calloc d = .ok (ok, s')) : s'.freed = s.freed := by
  unfold ncListAppend at hcall
  split at hcall
  · split at hcall
    · obtain ⟨-, rfl⟩ := Prod.mk.inj (Except.ok.inj hcall)
      rfl
    · obtain ⟨h, -, hrest⟩ := ok_of_bind hcall
      obtain ⟨-, rfl⟩ := Prod.mk.inj (Except.ok.inj hrest)
      rfl
  · split at hcall
    · obtain ⟨-, rfl⟩ := Prod.mk.inj (Except.ok.inj hcall)
      rfl
    · obtain ⟨h₁, -, hrest⟩ := ok_of_bind hcall
      obtain ⟨n, -, hrest⟩ := ok_of_bind hrest
      obtain ⟨h₂, -, hrest⟩ := ok_of_bind hrest
      obtain ⟨h₃, -, hrest⟩ := ok_of_bind hrest
      obtain ⟨h₄, -, hrest⟩ := ok_of_bind hrest
      obtain ⟨-, rfl⟩ := Prod.mk.inj (Except.ok.inj hrest)
      rfl

theorem ncListPrepend_freed [Null D] {calloc : Option Addr}
    (hcall : ncListPrepend s calloc d = .ok (ok, s')) : s'.freed = s.freed := by
  unfold ncListPrepend at hcall
  split at hcall
  · split at hcall
    · obtain ⟨-, rfl⟩ := Prod.mk.inj (Except.ok.inj hcall)
      rfl
    · obtain ⟨h, -, hrest⟩ := ok_of_bind hcall
      obtain ⟨-, rfl⟩ := Prod.mk.inj (Except.ok.inj hrest)
      rfl
  · split at hcall
    · obtain ⟨-, rfl⟩ := Prod.mk.inj (Except.ok.inj hcall)
      rfl
    · obtain ⟨n, -, hrest⟩ := ok_of_bind hcall
      obtain ⟨h₁, -, hrest⟩ := ok_of_bind hrest
      obtain ⟨h₂, -, hrest⟩ := ok_of_bind hrest
      obtain ⟨m, -, hrest⟩ := ok_of_bind hrest
      obtain ⟨h₃, -, hrest⟩ := ok_of_bind hrest
      obtain ⟨h₄, -, hrest⟩ := ok_of_bind hrest
      obtain ⟨h₅, -, hrest⟩ := ok_of_bind hrest
      obtain ⟨-, rfl⟩ := Prod.mk.inj (Except.ok.inj hrest)
      rfl

end insertion

/-! ### The parts of a removal -/

section removal
variable [DecidableEq D] {s s' : ListState D} {d : D} {fuel : ℕ} {ok : Bool}

/-- The node is taken out of the list; the new head. -/
def unlinkNode (s : ListState D) (current : Addr) (prev : Option Addr) (n : NcList D) :
    Except Fault (Option Addr × Nodes D) :=
  if some current = s.list then
    match n.next with
    | none => .ok (n.next, s.nodes)
    | some next => do
        let h ← s.nodes.store (some next) fun m => { m with size := n.size - 1, tail := n.tail }
        .ok (n.next, h)
  else do
    let h ← s.nodes.store prev fun m => { m with next := n.next }
    let h ← h.store s.list fun m => { m with size := m.size - 1 }
    .ok (s.list, h)

/-- The tail pointer is moved if it points to the node. -/
def retailNode (h : Nodes D) (head : Option Addr) (current : Addr) (prev : Option Addr) :
    Except Fault (Nodes D) :=
  match head with
  | none => .ok h
  | some head => do
      let m ← h.load (some head)
      if m.tail = some current then h.store (some head) fun m => { m with tail := prev } else .ok h

/-- A removal of the node that the scan has found. -/
def removeFound (s : ListState D) (doFree : Bool) (current : Addr) (prev : Option Addr) :
    Except Fault (Bool × ListState D) :=
  s.nodes.load (some current) >>= fun n => unlinkNode s current prev n >>= fun x =>
    retailNode x.2 x.1 current prev >>= fun h => h.free current >>= fun h =>
      .ok (true, ⟨h, x.1, if doFree then s.freed ++ [n.data] else s.freed⟩)

theorem ncListRemove_eq [Null D] (fuel : ℕ) (s : ListState D) (d : D) (doFree : Bool) :
    ncListRemove fuel s d doFree = removeScan s.nodes d fuel s.list s.list >>= fun found =>
      match found with
      | none => .ok (false, s)
      | some (current, prev) => removeFound s doFree current prev := by
  unfold ncListRemove removeFound
  congr 1
  funext found
  cases found with
  | none => rfl
  | some cp =>
      obtain ⟨current, prev⟩ := cp
      simp only
      congr 1
      funext n
      -- what follows the unlinking
      have hlast : ∀ x : Option Addr × Nodes D,
          (match x.1 with
            | none => do
                let h ← x.2.free current
                .ok (true, (⟨h, x.1, if doFree then s.freed ++ [n.data] else s.freed⟩ : ListState D))
            | some head => do
                let m ← x.2.load (some head)
                if m.tail = some current then do
                  let h ← x.2.store (some head) fun m => { m with tail := prev }
                  let h ← h.free current
                  .ok (true, ⟨h, x.1, if doFree then s.freed ++ [n.data] else s.freed⟩)
                else do
                  let h ← x.2.free current
                  .ok (true, ⟨h, x.1, if doFree then s.freed ++ [n.data] else s.freed⟩)) =
          (retailNode x.2 x.1 current prev >>= fun h => h.free current >>= fun h =>
            (.ok (true, ⟨h, x.1, if doFree then s.freed ++ [n.data] else s.freed⟩) :
              Except Fault (Bool × ListState D))) := by
        rintro ⟨head, h⟩
        cases head with
        | none => rfl
        | some head =>
            simp only [retailNode]
            rw [bind_assoc]
            congr 1
            funext m
            by_cases htail : m.tail = some current
            · rw [if_pos htail, if_pos htail]
            · rw [if_neg htail, if_neg htail]
              rfl
      simp only [← hlast]
      unfold unlinkNode
      by_cases hhead : some current = s.list
      · rw [if_pos hhead, if_pos hhead]
        cases n.next with
        | none => rfl
        | some next =>
            simp only [bind_assoc]
            rfl
      · rw [if_neg hhead, if_neg hhead]
        simp only [bind_assoc]
        rfl

/-- The scan stops at a node that carries the data. -/
theorem removeScan_data {h : Nodes D} {p prev prev' : Option Addr} {c : Addr}
    (hscan : removeScan h d fuel p prev = .ok (some (c, prev'))) :
    (h c).map NcList.data = some d := by
  induction fuel generalizing p prev with
  | zero =>
      cases p with
      | none => cases hscan
      | some a => cases hscan
  | succ fuel ih =>
      cases p with
      | none => cases hscan
      | some a =>
          rw [removeScan] at hscan
          obtain ⟨n, hload, hrest⟩ := ok_of_bind hscan
          split_ifs at hrest with hne
          · exact ih hrest
          · obtain ⟨rfl, -⟩ := Prod.mk.inj (Option.some.inj (Except.ok.inj hrest))
            obtain ⟨b, hb, hn⟩ := load_ok hload
            obtain rfl := Option.some.inj hb
            rw [hn, Option.map_some, not_not.mp hne]

/-- A removal hands the data to `free` if it is asked to. -/
theorem ncListRemove_freed [Null D] {doFree : Bool}
    (hcall : ncListRemove fuel s d doFree = .ok (ok, s')) :
    s'.freed = if ok && doFree then s.freed ++ [d] else s.freed := by
  rw [ncListRemove_eq] at hcall
  obtain ⟨found, hscan, hrest⟩ := ok_of_bind hcall
  cases found with
  | none =>
      obtain ⟨rfl, rfl⟩ := Prod.mk.inj (Except.ok.inj hrest)
      rfl
  | some cp =>
      obtain ⟨c, prev⟩ := cp
      have hdata := removeScan_data hscan
      obtain ⟨n, hload, hrest⟩ := ok_of_bind hrest
      obtain ⟨x, -, hrest⟩ := ok_of_bind hrest
      obtain ⟨h, -, hrest⟩ := ok_of_bind hrest
      obtain ⟨h', -, hrest⟩ := ok_of_bind hrest
      obtain ⟨rfl, rfl⟩ := Prod.mk.inj (Except.ok.inj hrest)
      obtain ⟨b, hb, hn⟩ := load_ok hload
      obtain rfl := Option.some.inj hb
      rw [hn] at hdata
      rw [← Option.some.inj hdata]
      rfl

end removal

/-! ### Nodes and other nodes -/

section larger
variable {k h H : Nodes D} {a : Addr} {p : Option Addr} {f : NcList D → NcList D}

/-- `H` are the nodes `h` and the nodes `k`. -/
def Over (k h H : Nodes D) : Prop := H = glue h k ∧ Separate h k

theorem Over.load (hH : Over k h H) (p : Option Addr) : Lifts Eq (h.load p) (H.load p) := by
  intro n hload
  obtain ⟨a, rfl, hn⟩ := load_ok hload
  rw [hH.1]
  exact ⟨n, Nodes.load_some (glue_some hn), rfl⟩

theorem Over.update (hH : Over k h H) (hk : k a = none) (c : NcList D) :
    Over k (Function.update h a (some c)) (Function.update H a (some c)) := by
  obtain ⟨rfl, hs⟩ := hH
  exact ⟨update_glue h k a c, hs.update hk _⟩

theorem Over.calloc [Null D] (hH : Over k h H) (hk : k a = none) :
    Over k (h.calloc a) (H.calloc a) := hH.update hk _

theorem Over.store (hH : Over k h H) (p : Option Addr) (f : NcList D → NcList D) :
    Lifts (Over k) (h.store p f) (H.store p f) := by
  intro h' hstore
  cases p with
  | none => cases hstore
  | some a =>
      rw [Nodes.store] at hstore
      split_ifs at hstore with ha
      obtain rfl := Except.ok.inj hstore
      obtain ⟨n, hn⟩ := Option.isSome_iff_exists.mp ha
      have hHn : H a = some n := by
        rw [hH.1]
        exact glue_some hn
      refine ⟨H.modify a f, Nodes.store_some (by rw [hHn]; rfl) f, ?_⟩
      unfold Nodes.modify
      rw [hn, hHn]
      exact hH.update (hH.2 a ha) _

theorem Over.free (hH : Over k h H) (a : Addr) : Lifts (Over k) (h.free a) (H.free a) := by
  intro h' hfree
  rw [Nodes.free] at hfree
  split_ifs at hfree with ha
  obtain rfl := Except.ok.inj hfree
  have hk := hH.2 a ha
  obtain ⟨rfl, hs⟩ := hH
  refine ⟨Nodes.drop (glue h k) a, Nodes.free_some ?_, update_none_glue hk, hs.update hk none⟩
  rw [glue_isSome ha]
  exact ha

end larger

/-! ### Calls in a larger memory -/

/-- `S` has the list of `s` and the nodes `k` besides. -/
structure Whole (k : Nodes D) (s S : ListState D) : Prop where
  list : S.list = s.list
  freed : S.freed = s.freed
  larger : Over k s.nodes S.nodes

/-- The same answer, and the same list. -/
def Alike {α : Type} (k : Nodes D) (x y : α × ListState D) : Prop := y.1 = x.1 ∧ Whole k x.2 y.2

section whole
variable {k : Nodes D} {s S : ListState D} {d : D} {calloc : Option Addr} {fuel : ℕ}

theorem Whole.append [Null D] (hS : Whole k s S) (hk : ∀ a, calloc = some a → k a = none) :
    Lifts (Alike k) (ncListAppend s calloc d) (ncListAppend S calloc d) := by
  obtain ⟨nodes, list, freed⟩ := s
  obtain ⟨H, list', freed'⟩ := S
  obtain ⟨hlist, hfreed, hH⟩ := hS
  subst hlist hfreed
  cases list' with
  | none =>
      cases calloc with
      | none => exact .ok ⟨rfl, rfl, rfl, hH⟩
      | some a =>
          apply ((hH.calloc (hk a rfl)).store (some a) _).bind
          intro h₁ H₁ hH₁
          exact .ok ⟨rfl, rfl, rfl, hH₁⟩
  | some head =>
      cases calloc with
      | none => exact .ok ⟨rfl, rfl, rfl, hH⟩
      | some a =>
          apply ((hH.calloc (hk a rfl)).store (some head) _).bind
          intro h₁ H₁ hH₁
          apply (hH₁.load (some head)).bind
          rintro n _ rfl
          apply (hH₁.store n.tail _).bind
          intro h₂ H₂ hH₂
          apply (hH₂.store (some head) _).bind
          intro h₃ H₃ hH₃
          apply (hH₃.store (some a) _).bind
          intro h₄ H₄ hH₄
          exact .ok ⟨rfl, rfl, rfl, hH₄⟩

theorem Whole.prepend [Null D] (hS : Whole k s S) (hk : ∀ a, calloc = some a → k a = none) :
    Lifts (Alike k) (ncListPrepend s calloc d) (ncListPrepend S calloc d) := by
  obtain ⟨nodes, list, freed⟩ := s
  obtain ⟨H, list', freed'⟩ := S
  obtain ⟨hlist, hfreed, hH⟩ := hS
  subst hlist hfreed
  cases list' with
  | none =>
      cases calloc with
      | none => exact .ok ⟨rfl, rfl, rfl, hH⟩
      | some a =>
          apply ((hH.calloc (hk a rfl)).store (some a) _).bind
          intro h₁ H₁ hH₁
          exact .ok ⟨rfl, rfl, rfl, hH₁⟩
  | some head =>
      cases calloc with
      | none => exact .ok ⟨rfl, rfl, rfl, hH⟩
      | some a =>
          have hH₀ := hH.calloc (hk a rfl)
          apply (hH₀.load (some head)).bind
          rintro n _ rfl
          apply (hH₀.store (some a) _).bind
          intro h₁ H₁ hH₁
          apply (hH₁.store (some head) _).bind
          intro h₂ H₂ hH₂
          apply (hH₂.load (some head)).bind
          rintro m _ rfl
          apply (hH₂.store (some a) _).bind
          intro h₃ H₃ hH₃
          apply (hH₃.store (some head) _).bind
          intro h₄ H₄ hH₄
          apply (hH₄.store (some a) _).bind
          intro h₅ H₅ hH₅
          exact .ok ⟨rfl, rfl, rfl, hH₅⟩

theorem Over.removeScan [DecidableEq D] {h H : Nodes D} (hH : Over k h H) (p prev : Option Addr) :
    Lifts Eq (Nica.removeScan h d fuel p prev) (Nica.removeScan H d fuel p prev) := by
  induction fuel generalizing p prev with
  | zero =>
      cases p with
      | none => exact .ok rfl
      | some a => exact .error _ _
  | succ fuel ih =>
      cases p with
      | none => exact .ok rfl
      | some a =>
          apply (hH.load (some a)).bind
          rintro n _ rfl
          by_cases hne : n.data ≠ d
          · rw [if_pos hne, if_pos hne]
            exact ih n.next (some a)
          · rw [if_neg hne, if_neg hne]
            exact .ok rfl

theorem Whole.unlinkNode (hS : Whole k s S) (current : Addr) (prev : Option Addr) (n : NcList D) :
    Lifts (fun x y => y.1 = x.1 ∧ Over k x.2 y.2) (Nica.unlinkNode s current prev n)
      (Nica.unlinkNode S current prev n) := by
  unfold Nica.unlinkNode
  rw [hS.list]
  by_cases hhead : some current = s.list
  · rw [if_pos hhead, if_pos hhead]
    cases n.next with
    | none => exact .ok ⟨rfl, hS.larger⟩
    | some next =>
        apply (hS.larger.store (some next) _).bind
        intro h₁ H₁ hH₁
        exact .ok ⟨rfl, hH₁⟩
  · rw [if_neg hhead, if_neg hhead]
    apply (hS.larger.store prev _).bind
    intro h₁ H₁ hH₁
    apply (hH₁.store s.list _).bind
    intro h₂ H₂ hH₂
    exact .ok ⟨rfl, hH₂⟩

theorem Over.retailNode {h H : Nodes D} (hH : Over k h H) (head : Option Addr) (current : Addr)
    (prev : Option Addr) :
    Lifts (Over k) (Nica.retailNode h head current prev) (Nica.retailNode H head current prev) := by
  cases head with
  | none => exact .ok hH
  | some head =>
      apply (hH.load (some head)).bind
      rintro m _ rfl
      by_cases htail : m.tail = some current
      · rw [if_pos htail, if_pos htail]
        exact hH.store (some head) _
      · rw [if_neg htail, if_neg htail]
        exact .ok hH

theorem Whole.remove [DecidableEq D] [Null D] (hS : Whole k s S) (doFree : Bool) :
    Lifts (Alike k) (ncListRemove fuel s d doFree) (ncListRemove fuel S d doFree) := by
  rw [ncListRemove_eq, ncListRemove_eq, hS.list]
  apply (hS.larger.removeScan s.list s.list).bind
  rintro found _ rfl
  cases found with
  | none => exact .ok ⟨rfl, hS⟩
  | some cp =>
      obtain ⟨current, prev⟩ := cp
      unfold removeFound
      apply (hS.larger.load (some current)).bind
      rintro n _ rfl
      apply (hS.unlinkNode current prev n).bind
      rintro ⟨head, h₁⟩ ⟨head', H₁⟩ ⟨hhead, hH₁⟩
      subst hhead
      apply (hH₁.retailNode head' current prev).bind
      intro h₂ H₂ hH₂
      apply (hH₂.free current).bind
      intro h₃ H₃ hH₃
      rw [hS.freed]
      exact .ok ⟨rfl, rfl, rfl, hH₃⟩

theorem Over.forEach {h H : Nodes D} (hH : Over k h H) (p : Option Addr) :
    Lifts Eq (Nica.forEach h fuel p) (Nica.forEach H fuel p) := by
  induction fuel generalizing p with
  | zero =>
      cases p with
      | none => exact .ok rfl
      | some a => exact .error _ _
  | succ fuel ih =>
      cases p with
      | none => exact .ok rfl
      | some a =>
          apply (hH.load (some a)).bind
          rintro n _ rfl
          apply (ih n.next).bind
          rintro data _ rfl
          exact .ok rfl

theorem Over.freeLoop (all : Bool) {h H : Nodes D} (hH : Over k h H) (p : Option Addr)
    (freed : List D) : Lifts (fun x y => y.2 = x.2 ∧ Over k x.1 y.1)
      (Nica.freeLoop all fuel h p freed) (Nica.freeLoop all fuel H p freed) := by
  induction fuel generalizing h H p freed with
  | zero =>
      cases p with
      | none => exact .ok ⟨rfl, hH⟩
      | some a => exact .error _ _
  | succ fuel ih =>
      cases p with
      | none => exact .ok ⟨rfl, hH⟩
      | some a =>
          apply (hH.load (some a)).bind
          rintro n _ rfl
          apply (hH.free a).bind
          intro h₁ H₁ hH₁
          exact ih hH₁ n.next _

theorem Whole.freeList (all : Bool) (hS : Whole k s S) :
    Lifts (Whole k) (Nica.freeList all fuel s) (Nica.freeList all fuel S) := by
  unfold Nica.freeList
  rw [hS.list, hS.freed]
  cases s.list with
  | none => exact .ok hS
  | some elem =>
      apply (hS.larger.freeLoop all (some elem) s.freed).bind
      rintro ⟨h₁, freed⟩ ⟨H₁, freed'⟩ ⟨hfreed, hH₁⟩
      subst hfreed
      exact .ok ⟨rfl, rfl, hH₁⟩

/-- Every call does with a list in a larger memory what it does with the list alone. -/
theorem ListCall.whole [DecidableEq D] [Null D] (hS : Whole k s S) (c : ListCall D)
    (hc : c.Allowed S) : Lifts (Alike k) (c.call fuel s) (c.call fuel S) := by
  -- an address that is not in use is none of the other nodes
  have hfree : ∀ a, S.nodes a = none → k a = none := by
    intro a ha
    by_contra hk
    have hsome : (S.nodes a).isSome = true := by
      rw [hS.larger.1]
      exact isSome_glue.mpr (.inr (Option.isSome_iff_ne_none.mpr hk))
    rw [ha] at hsome
    cases hsome
  cases c with
  | op op =>
      have hop : Lifts (Alike k) (op.call fuel s) (op.call fuel S) := by
        cases op with
        | append data calloc => exact hS.append fun a ha => hfree a (hc a ha)
        | prepend data calloc => exact hS.prepend fun a ha => hfree a (hc a ha)
        | remove data doFree => exact hS.remove doFree
      apply hop.bind
      rintro ⟨ok, s'⟩ ⟨ok', S'⟩ ⟨hok, hS'⟩
      subst hok
      exact .ok ⟨rfl, hS'⟩
  | forEach =>
      change Lifts _ (Nica.forEach s.nodes fuel s.list >>= _) (Nica.forEach S.nodes fuel S.list >>= _)
      rw [hS.list]
      apply (hS.larger.forEach s.list).bind
      rintro data _ rfl
      exact .ok ⟨rfl, hS⟩
  | free =>
      apply (hS.freeList false).bind
      intro s' S' hS'
      exact .ok ⟨rfl, hS'⟩
  | freeAll =>
      apply (hS.freeList true).bind
      intro s' S' hS'
      exact .ok ⟨rfl, hS'⟩

end whole

/-! ### One call on one list -/

section spec
variable [Null D] [DecidableEq D] {s s' : ListState D} {as : List Addr} {xs : List D}

theorem ListOp.call_freed {op : ListOp D} {ok : Bool} {fuel : ℕ}
    (hcall : op.call fuel s = .ok (ok, s')) (hok : ok = (op.onSequence xs).1) :
    s'.freed = s.freed ++ (ListCall.op op).freedOf xs := by
  cases op with
  | append data calloc =>
      rw [ncListAppend_freed hcall]
      exact (List.append_nil _).symm
  | prepend data calloc =>
      rw [ncListPrepend_freed hcall]
      exact (List.append_nil _).symm
  | remove data doFree =>
      rw [ncListRemove_freed hcall, hok]
      cases doFree with
      | false =>
          rw [Bool.and_false]
          exact (List.append_nil _).symm
      | true =>
          by_cases hmem : data ∈ xs
          · simp [ListOp.onSequence, ListCall.freedOf, hmem]
          · simp [ListOp.onSequence, ListCall.freedOf, hmem]

theorem ListCall.call_steady (c : ListCall D) (s : ListState D) : Steady fun f => c.call f s := by
  cases c with
  | op op =>
      have hop : Steady fun f => op.call f s := by
        cases op with
        | append data calloc => exact .const _
        | prepend data calloc => exact .const _
        | remove data doFree =>
            exact (removeScan_steady s.nodes data s.list s.list).bind fun _ => .const _
      exact hop.bind fun _ => .const _
  | forEach => exact (forEach_steady s.nodes s.list).bind fun _ => .const _
  | free => exact (freeList_steady false s).bind fun _ => .const _
  | freeAll => exact (freeList_steady true s).bind fun _ => .const _

/-- A call on a list that carries `xs` ends; it answers and frees as the sequence says, and leaves a
list that carries the sequence afterwards. -/
theorem ListCall.spec (C : Chained s.nodes s.list as xs) (c : ListCall D) (hc : c.Allowed s) :
    ∃ s' as', Returns (fun f => c.call f s) ((c.onSequence xs).1, s') ∧
      Chained s'.nodes s'.list as' (c.onSequence xs).2 ∧ s'.freed = s.freed ++ c.freedOf xs := by
  cases c with
  | op op =>
      have hop : op.Allowed s := hc
      obtain ⟨s', as', hcall, C', -⟩ := call_spec C hop
      obtain ⟨f, hf⟩ := hcall.exists
      exact ⟨s', as', hcall.bind (Returns.pure _), C', ListOp.call_freed hf rfl⟩
  | forEach =>
      exact ⟨s, as, (forEach_spec C).bind (Returns.pure _), C, (List.append_nil _).symm⟩
  | free =>
      refine ⟨_, [], (freeList_spec false C).bind (Returns.pure _), chained_none, ?_⟩
      exact (List.append_nil _).symm
  | freeAll =>
      exact ⟨_, [], (freeList_spec true C).bind (Returns.pure _), chained_none, rfl⟩

end spec

end Nica
