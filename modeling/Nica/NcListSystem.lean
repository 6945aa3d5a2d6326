import Nica.NcListLocal

/-! # Lists that share a memory

Any number of list pointers, with the calls on them in any order and with any allocation refused
(`Lists.serve`).  In every run each list answers as a sequence of its own
(`lists_follow_sequences`).  Every node belongs to one of the lists, so that none is left when all
of them are NULL (`lists_own_nodes`).  The data that the lists have accepted is what was handed to
`free`, what was given back to the callers and what they still carry (`lists_conserve_data`). -/

namespace Nica

open Linked Fueled HeapParts

variable {D : Type}

/-- The nodes, the list pointers of the callers by number, and the data handed to `free`. -/
structure Lists (D : Type) where
  nodes : Nodes D
  list : ℕ → Option Addr
  freed : List D

def Lists.start (D : Type) : Lists D := ⟨fun _ => none, fun _ => none, []⟩

/-- The list of one pointer. -/
def Lists.one (L : Lists D) (x : ℕ) : ListState D := ⟨L.nodes, L.list x, L.freed⟩

/-- A call with one of the pointers. -/
def Lists.serve [Null D] [DecidableEq D] (fuel : ℕ) (L : Lists D) (x : ℕ) (c : ListCall D) :
    Except Fault (ListAnswer D × Lists D) := do
  let (answer, s) ← c.call fuel (L.one x)
  .ok (answer, ⟨s.nodes, Function.update L.list x s.list, s.freed⟩)

/-- A call with the pointer of that number, and its answer. -/
structure ListEvent (D : Type) where
  var : ℕ
  call : ListCall D
  answer : ListAnswer D

/-- Calls from NULL pointers on, each of which ends. -/
inductive ListsRun [Null D] [DecidableEq D] : List (ListEvent D) → Lists D → Prop
  | start : ListsRun [] (.start D)
  | call {evs : List (ListEvent D)} {L L' : Lists D} {x : ℕ} {c : ListCall D}
      {answer : ListAnswer D} : ListsRun evs L → c.Allowed (L.one x) →
      Returns (fun f => L.serve f x c) (answer, L') → ListsRun (evs ++ [⟨x, c, answer⟩]) L'

/-! ### What the calls say -/

/-- One of several sequences is exchanged. -/
theorem flatMap_update {vars : List ℕ} (hnd : vars.Nodup) {x : ℕ} (hx : x ∈ vars)
    (B : ℕ → List D) (xs : List D) : ∃ others, (vars.flatMap B).Perm (B x ++ others) ∧
      (vars.flatMap (Function.update B x xs)).Perm (xs ++ others) := by
  refine ⟨(vars.erase x).flatMap B, ?_, ?_⟩
  · exact (List.perm_cons_erase hx).flatMap_right B
  · have hsame : (vars.erase x).flatMap (Function.update B x xs) = (vars.erase x).flatMap B := by
      apply List.flatMap_congr
      intro y hy
      apply Function.update_of_ne
      rintro rfl
      exact (hnd.not_mem_erase) hy
    have hperm := (List.perm_cons_erase hx).flatMap_right (Function.update B x xs)
    rw [List.flatMap_cons, Function.update_self, hsame] at hperm
    exact hperm

section histories
variable [DecidableEq D]

/-- A call changes the sequence of its list. -/
def advance (B : ℕ → List D) (e : ListEvent D) : ℕ → List D :=
  Function.update B e.var (e.call.onSequence (B e.var)).2

def sequencesAfter (evs : List (ListEvent D)) : ℕ → List D := evs.foldl advance fun _ => []

/-- What the calls yield together, each from the sequence that it meets. -/
def gathered (of : List D → ListCall D → List D) : (ℕ → List D) → List (ListEvent D) → List D
  | _, [] => []
  | B, e :: evs => of (B e.var) e.call ++ gathered of (advance B e) evs

/-- The data that a call takes into the list. -/
def takenOf : ListCall D → List D
  | ListCall.op (.append data (some _)) => [data]
  | ListCall.op (.prepend data (some _)) => [data]
  | _ => []

/-- The data that a call takes out of a list of `xs` and does not free. -/
def returnedOf (xs : List D) : ListCall D → List D
  | ListCall.op (.remove data false) => if data ∈ xs then [data] else []
  | ListCall.free => xs
  | _ => []

/-- The data that the calls have accepted, handed to `free` and given back. -/
def taken (evs : List (ListEvent D)) : List D :=
  gathered (fun _ c => takenOf c) (fun _ => []) evs

def freedBy (evs : List (ListEvent D)) : List D :=
  gathered (fun xs c => c.freedOf xs) (fun _ => []) evs

def returned (evs : List (ListEvent D)) : List D := gathered returnedOf (fun _ => []) evs

theorem sequencesAfter_concat (evs : List (ListEvent D)) (e : ListEvent D) :
    sequencesAfter (evs ++ [e]) = advance (sequencesAfter evs) e := List.foldl_concat ..

theorem gathered_concat (of : List D → ListCall D → List D) (B : ℕ → List D)
    (evs : List (ListEvent D)) (e : ListEvent D) :
    gathered of B (evs ++ [e]) = gathered of B evs ++ of (evs.foldl advance B e.var) e.call := by
  induction evs generalizing B with
  | nil => exact List.append_nil _
  | cons e' evs ih =>
      rw [List.cons_append, gathered, ih, gathered, List.append_assoc]
      rfl

theorem taken_concat (evs : List (ListEvent D)) (e : ListEvent D) :
    taken (evs ++ [e]) = taken evs ++ takenOf e.call := gathered_concat _ _ evs e

theorem freedBy_concat (evs : List (ListEvent D)) (e : ListEvent D) :
    freedBy (evs ++ [e]) = freedBy evs ++ e.call.freedOf (sequencesAfter evs e.var) :=
  gathered_concat _ _ evs e

theorem returned_concat (evs : List (ListEvent D)) (e : ListEvent D) :
    returned (evs ++ [e]) = returned evs ++ returnedOf (sequencesAfter evs e.var) e.call :=
  gathered_concat _ _ evs e

/-- What one call takes in and out. -/
theorem call_conserves (xs : List D) (c : ListCall D) :
    (xs ++ takenOf c).Perm (c.freedOf xs ++ returnedOf xs c ++ (c.onSequence xs).2) := by
  cases c with
  | op op =>
      cases op with
      | append data calloc =>
          cases calloc with
          | none => exact .of_eq (List.append_nil _)
          | some a => exact .refl _
      | prepend data calloc =>
          cases calloc with
          | none => exact .of_eq (List.append_nil _)
          | some a => exact List.perm_append_singleton data xs
      | remove data doFree =>
          by_cases hmem : data ∈ xs
          · have herase : (xs ++ []).Perm (data :: xs.erase data) := by
              rw [List.append_nil]
              exact List.perm_cons_erase hmem
            cases doFree with
            | false => simpa [takenOf, returnedOf, ListCall.freedOf, ListCall.onSequence,
                ListOp.onSequence, hmem] using herase
            | true => simpa [takenOf, returnedOf, ListCall.freedOf, ListCall.onSequence,
                ListOp.onSequence, hmem] using herase
          · cases doFree with
            | false => simp [takenOf, returnedOf, ListCall.freedOf, ListCall.onSequence,
                ListOp.onSequence, hmem]
            | true => simp [takenOf, returnedOf, ListCall.freedOf, ListCall.onSequence,
                ListOp.onSequence, hmem]
  | forEach => exact .of_eq (List.append_nil _)
  | free => exact .of_eq rfl
  | freeAll => exact .of_eq (by simp [takenOf, returnedOf, ListCall.freedOf, ListCall.onSequence])

/-- What the lists have accepted was freed or given back, or they carry it. -/
theorem calls_conserve {vars : List ℕ} (hnd : vars.Nodup) (evs : List (ListEvent D))
    (hvars : ∀ e ∈ evs, e.var ∈ vars) :
    (taken evs).Perm (freedBy evs ++ returned evs ++ vars.flatMap (sequencesAfter evs)) := by
  induction evs using List.reverseRecOn with
  | nil =>
      have hnone : vars.flatMap (sequencesAfter (D := D) []) = [] := by
        rw [List.flatMap_eq_nil_iff]
        exact fun _ _ => rfl
      rw [hnone]
      exact .refl _
  | append_singleton evs e ih =>
      have hold := ih fun e' he' => hvars e' (List.mem_append_left _ he')
      have hx : e.var ∈ vars := hvars e (List.mem_append_right _ (List.mem_singleton.mpr rfl))
      obtain ⟨others, hbefore, hafter⟩ := flatMap_update hnd hx (sequencesAfter evs)
        (e.call.onSequence (sequencesAfter evs e.var)).2
      have hcall := call_conserves (sequencesAfter evs e.var) e.call
      rw [taken_concat, freedBy_concat, returned_concat, sequencesAfter_concat, advance]
      apply List.perm_iff_count.mpr
      intro d
      have h₁ := hold.count_eq d
      have h₂ := hbefore.count_eq d
      have h₃ := hafter.count_eq d
      have h₄ := hcall.count_eq d
      simp only [List.count_append] at h₁ h₂ h₃ h₄ ⊢
      omega

end histories

/-! ### One call -/

section standing
variable {L L' : Lists D} {B : ℕ → List D} {as : ℕ → List Addr} {k : Nodes D}
  {s S s' : ListState D} {x : ℕ}

/-- Every list carries its sequence in nodes of its own, and there are no other nodes. -/
structure ListsStand (L : Lists D) (B : ℕ → List D) (as : ℕ → List Addr) : Prop where
  one : ∀ x, Chained (part L.nodes (as x)) (L.list x) (as x) (B x)
  all : ∀ a, (L.nodes a).isSome = true ↔ ∃ x, a ∈ as x
  apart : ∀ x y a, a ∈ as x → a ∈ as y → x = y

theorem lists_start : ListsStand (.start D) (fun _ => []) fun _ => [] where
  one x := by
    have hnone : part (fun _ => none : Nodes D) [] = fun _ => none := rfl
    rw [Lists.start, hnone]
    exact chained_none
  all a := by simp [Lists.start]
  apart x y a ha := absurd ha List.not_mem_nil

theorem ListsStand.mem_rest (S : ListsStand L B as) {a : Addr} :
    (rest L.nodes (as x) a).isSome = true ↔ ∃ y, y ≠ x ∧ a ∈ as y := by
  constructor
  · intro ha
    by_cases hmem : a ∈ as x
    · rw [rest_mem hmem] at ha
      cases ha
    · rw [rest_notMem hmem] at ha
      obtain ⟨y, hy⟩ := (S.all a).mp ha
      refine ⟨y, ?_, hy⟩
      rintro rfl
      exact hmem hy
  · rintro ⟨y, hne, hy⟩
    rw [rest_notMem fun hx => hne (S.apart y x a hy hx)]
    exact (S.all a).mpr ⟨y, hy⟩

/-- Another list for one of the pointers, in nodes apart from those of the others. -/
theorem ListsStand.exchange (S : ListsStand L B as) {bs : List Addr} {ys : List D}
    (C : Chained s'.nodes s'.list bs ys) (hs : Separate s'.nodes (rest L.nodes (as x))) :
    ListsStand ⟨glue s'.nodes (rest L.nodes (as x)), Function.update L.list x s'.list, s'.freed⟩
      (Function.update B x ys) (Function.update as x bs) := by
  -- the nodes of another list
  have hother : ∀ y, y ≠ x → ∀ a ∈ as y, s'.nodes a = none := by
    intro y hy a ha
    by_contra hsome
    have hnone := hs a (Option.isSome_iff_ne_none.mpr hsome)
    have hrest := S.mem_rest.mpr ⟨y, hy, ha⟩
    rw [hnone] at hrest
    cases hrest
  constructor
  · intro y
    by_cases hy : y = x
    · subst hy
      change Chained (part (glue s'.nodes (rest L.nodes (as y))) _) (Function.update L.list y _ y) _ _
      rw [Function.update_self, Function.update_self, Function.update_self, part_glue C.exact]
      exact C
    · change Chained (part (glue s'.nodes (rest L.nodes (as x))) _) (Function.update L.list x _ y) _ _
      rw [Function.update_of_ne hy, Function.update_of_ne hy, Function.update_of_ne hy,
        part_glue_right (hother y hy)]
      have hsame : part (rest L.nodes (as x)) (as y) = part L.nodes (as y) := by
        funext a
        by_cases ha : a ∈ as y
        · rw [part_mem ha, part_mem ha, rest_notMem fun hx => hy (S.apart y x a ha hx)]
        · rw [part_notMem ha, part_notMem ha]
      rw [hsame]
      exact S.one y
  · intro a
    rw [isSome_glue, C.exact, S.mem_rest]
    constructor
    · rintro (ha | ⟨y, hy, ha⟩)
      · exact ⟨x, by rwa [Function.update_self]⟩
      · exact ⟨y, by rwa [Function.update_of_ne hy]⟩
    · rintro ⟨y, ha⟩
      by_cases hy : y = x
      · rw [hy, Function.update_self] at ha
        exact .inl ha
      · rw [Function.update_of_ne hy] at ha
        exact .inr ⟨y, hy, ha⟩
  · have hnew : ∀ y a, y ≠ x → a ∈ as y → a ∉ bs := by
      intro y a hy ha hb
      have hsome := (C.exact a).mpr hb
      rw [hother y hy a ha] at hsome
      cases hsome
    intro y z a ha hb
    by_cases hy : y = x
    · by_cases hz : z = x
      · rw [hy, hz]
      · rw [hy, Function.update_self] at ha
        rw [Function.update_of_ne hz] at hb
        exact absurd ha (hnew z a hz hb)
    · rw [Function.update_of_ne hy] at ha
      by_cases hz : z = x
      · rw [hz, Function.update_self] at hb
        exact absurd hb (hnew y a hy ha)
      · rw [Function.update_of_ne hz] at hb
        exact S.apart y z a ha hb

variable [Null D] [DecidableEq D]

theorem returns_whole (hS : Whole k s S) (c : ListCall D) (hc : c.Allowed S)
    {answer : ListAnswer D} (hcall : Returns (fun f => c.call f s) (answer, s')) :
    Separate s'.nodes k ∧
      Returns (fun f => c.call f S) (answer, ⟨glue s'.nodes k, s'.list, s'.freed⟩) := by
  have hlift : ∀ f, c.call f s = .ok (answer, s') → Separate s'.nodes k ∧
      c.call f S = .ok (answer, ⟨glue s'.nodes k, s'.list, s'.freed⟩) := by
    intro f hf
    obtain ⟨⟨answer', nodes, list, freed⟩, hf', hanswer, hlist, hfreed, hnodes, hs⟩ :=
      ListCall.whole hS c hc _ hf
    simp only at hanswer hlist hfreed hnodes hs
    subst hanswer hlist hfreed hnodes
    exact ⟨hs, hf'⟩
  obtain ⟨f, hf⟩ := hcall.exists
  refine ⟨(hlift f hf).1, ?_⟩
  filter_upwards [hcall] with f hf
  exact (hlift f hf).2

/-- A call with one of the pointers. -/
theorem ListsStand.serve (S : ListsStand L B as) (x : ℕ) (c : ListCall D)
    (hc : c.Allowed (L.one x)) : ∃ L' as',
      Returns (fun f => L.serve f x c) ((c.onSequence (B x)).1, L') ∧
      ListsStand L' (Function.update B x (c.onSequence (B x)).2) as' ∧
      L'.freed = L.freed ++ c.freedOf (B x) := by
  let s : ListState D := ⟨part L.nodes (as x), L.list x, L.freed⟩
  have hwhole : Whole (rest L.nodes (as x)) s (L.one x) :=
    ⟨rfl, rfl, (glue_part L.nodes (as x)).symm, separate_part L.nodes (as x)⟩
  have hpart : ∀ a, L.nodes a = none → s.nodes a = none := by
    intro a ha
    by_cases hmem : a ∈ as x
    · rw [← ha]
      exact part_mem hmem
    · exact part_notMem hmem
  have hcs : c.Allowed s := by
    cases c with
    | op op =>
        cases op with
        | append data calloc => exact fun a ha => hpart a (hc a ha)
        | prepend data calloc => exact fun a ha => hpart a (hc a ha)
        | remove data doFree => trivial
    | forEach => trivial
    | free => trivial
    | freeAll => trivial
  have C : Chained s.nodes s.list (as x) (B x) := S.one x
  obtain ⟨s', bs, hcall, C', hfreed⟩ := c.spec C hcs
  obtain ⟨hs, hret⟩ := returns_whole hwhole c hc hcall
  exact ⟨_, _, hret.bind (Returns.pure _), S.exchange C' hs, hfreed⟩

/-! ### Runs -/

theorem ListsRun.standing {evs : List (ListEvent D)} (hrun : ListsRun evs L) :
    (∃ as, ListsStand L (sequencesAfter evs) as) ∧ L.freed = freedBy evs ∧
      ∀ i (e : ListEvent D), evs[i]? = some e →
        e.answer = (e.call.onSequence (sequencesAfter (evs.take i) e.var)).1 := by
  induction hrun with
  | start => exact ⟨⟨_, lists_start⟩, rfl, fun i e he => by simp at he⟩
  | @call evs L L' x c answer _ hc hcall ih =>
      obtain ⟨⟨as, S⟩, hfreed, hanswers⟩ := ih
      obtain ⟨L'', as', hret, S', hfreed'⟩ := S.serve x c hc
      obtain ⟨rfl, rfl⟩ := Prod.mk.inj (hcall.unique hret)
      refine ⟨⟨as', ?_⟩, ?_, fun i e he => ?_⟩
      · rw [sequencesAfter_concat]
        exact S'
      · rw [hfreed', hfreed, freedBy_concat]
      · by_cases hi : i < evs.length
        · rw [List.getElem?_append_left hi] at he
          rw [List.take_append_of_le_length (by omega)]
          exact hanswers i e he
        · have hlen := (List.getElem?_eq_some_iff.mp he).1
          rw [List.length_append, List.length_singleton] at hlen
          have hlast : i = evs.length := by omega
          rw [hlast, List.getElem?_concat_length] at he
          obtain rfl := Option.some.inj he
          rw [hlast, List.take_left']
          rfl

/-- A list is NULL when its sequence is empty. -/
theorem ListsRun.list_eq_none {evs : List (ListEvent D)} (hrun : ListsRun evs L) :
    L.list x = none ↔ sequencesAfter evs x = [] := by
  obtain ⟨⟨as, S⟩, -⟩ := hrun.standing
  exact (S.one x).list_eq_none

/-- A pointer that no call has used is NULL. -/
theorem ListsRun.untouched {evs : List (ListEvent D)} (hrun : ListsRun evs L)
    (hx : ∀ e ∈ evs, e.var ≠ x) : L.list x = none := by
  induction hrun with
  | start => rfl
  | @call evs L L' y c answer _ _ hcall ih =>
      obtain ⟨f, hf⟩ := hcall.exists
      obtain ⟨⟨answer', s'⟩, -, hf⟩ := ok_of_bind hf
      obtain ⟨-, rfl⟩ := Prod.mk.inj (Except.ok.inj hf)
      have hne : x ≠ y := (hx _ (List.mem_append_right _ (List.mem_singleton.mpr rfl))).symm
      exact (Function.update_of_ne hne _ _).trans (ih fun e he => hx e (List.mem_append_left _ he))

/-! ### Two lists -/

/-- The calls one after the other, each with the same amount of fuel and only if it is allowed. -/
def callAll (fuel : ℕ) (L : Lists D) :
    List (ℕ × ListCall D) → Except Fault (List (ListEvent D) × Lists D)
  | [] => .ok ([], L)
  | (x, c) :: cs =>
      if c.Allowed (L.one x) then do
        let (answer, L') ← L.serve fuel x c
        let (evs, L'') ← callAll fuel L' cs
        .ok (⟨x, c, answer⟩ :: evs, L'')
      else .error .dangling

theorem callAll_run {evs evs' : List (ListEvent D)} {n : ℕ} {cs : List (ℕ × ListCall D)}
    (hrun : ListsRun evs L) (h : callAll n L cs = .ok (evs', L')) :
    ListsRun (evs ++ evs') L' ∧ evs'.map (fun e => (e.var, e.call)) = cs := by
  induction cs generalizing L evs evs' with
  | nil =>
      obtain ⟨rfl, rfl⟩ := Prod.mk.inj (Except.ok.inj h)
      exact ⟨by rwa [List.append_nil], rfl⟩
  | cons q cs ih =>
      obtain ⟨x, c⟩ := q
      rw [callAll] at h
      split_ifs at h with hc
      obtain ⟨⟨answer, L₁⟩, hserve, h⟩ := ok_of_bind h
      obtain ⟨⟨evs₁, L₂⟩, hrest, h⟩ := ok_of_bind h
      obtain ⟨rfl, rfl⟩ := Prod.mk.inj (Except.ok.inj h)
      have hsteady : Steady fun f => L.serve f x c :=
        (c.call_steady (L.one x)).bind fun _ => .const _
      have hstep := hrun.call hc (hsteady.returns hserve)
      obtain ⟨hall, hcs⟩ := ih hstep hrest
      rw [List.append_assoc] at hall
      exact ⟨hall, congrArg ((x, c) :: ·) hcs⟩

/-- Two lists are filled in turn, with one allocation refused; a node of the first is removed and its
address used again; the second list is freed. -/
def twoLists : List (ℕ × ListCall UInt64) :=
  [(0, .op (.append 7 (some ⟨0, by decide⟩))), (1, .op (.append 8 (some ⟨1, by decide⟩))),
    (0, .op (.prepend 9 (some ⟨2, by decide⟩))), (1, .op (.append 5 none)),
    (1, .op (.prepend 6 (some ⟨3, by decide⟩))), (0, .op (.remove 7 true)),
    (0, .op (.append 4 (some ⟨0, by decide⟩))), (1, .op (.remove 7 false)), (1, .forEach),
    (1, .free)]

def twoListsEvents : List (ListEvent UInt64) :=
  List.zipWith (fun q answer => ⟨q.1, q.2, answer⟩) twoLists
    [.flag true, .flag true, .flag true, .flag false, .flag true, .flag true, .flag true, .flag false,
      .seen [6, 8], .done]

theorem exists_twoLists : ∃ L : Lists UInt64, ListsRun twoListsEvents L := by
  have hevs : (callAll 3 (.start UInt64) twoLists).toOption.map Prod.fst = some twoListsEvents := rfl
  obtain ⟨⟨evs, L⟩, h, rfl⟩ := Option.map_eq_some_iff.mp hevs
  exact ⟨L, (callAll_run .start (ok_of_toOption h)).1⟩

/-- In every run each call answers as the sequence of its list says, whatever is done with the other
lists meanwhile, and hands to `free` what it should; and every further call ends with its answer. -/
theorem lists_follow_sequences {evs : List (ListEvent D)} (hrun : ListsRun evs L) :
    (∀ i (e : ListEvent D), evs[i]? = some e →
      e.answer = (e.call.onSequence (sequencesAfter (evs.take i) e.var)).1) ∧
    L.freed = freedBy evs ∧
    ∀ x (c : ListCall D), c.Allowed (L.one x) → ∃ L',
      Returns (fun f => L.serve f x c) ((c.onSequence (sequencesAfter evs x)).1, L') := by
  obtain ⟨⟨as, S⟩, hfreed, hanswers⟩ := hrun.standing
  refine ⟨hanswers, hfreed, fun x c hc => ?_⟩
  obtain ⟨L', -, hret, -⟩ := S.serve x c hc
  exact ⟨L', hret⟩

theorem lists_follow_sequences_turns : ∃ L : Lists UInt64, ListsRun twoListsEvents L ∧
    sequencesAfter (twoListsEvents.take 8) 1 = [6, 8] ∧ L.freed = [7] ∧
    (∃ L', Returns (fun f => L.serve f 0 .forEach) (.seen [9, 4], L')) ∧
    ∃ L', Returns (fun f => L.serve f 1 .forEach) (.seen [], L') := by
  obtain ⟨L, hrun⟩ := exists_twoLists
  obtain ⟨hanswers, hfreed, hnext⟩ := lists_follow_sequences hrun
  have hseen := hanswers 8 ⟨1, .forEach, .seen [6, 8]⟩ rfl
  exact ⟨L, hrun, (ListAnswer.seen.inj hseen).symm, hfreed, hnext 0 .forEach trivial,
    hnext 1 .forEach trivial⟩

/-- In every run the nodes in memory are those of the lists, each of one list only and met once from
its pointer on; so none is left when all pointers are NULL. -/
theorem lists_own_nodes {evs : List (ListEvent D)} (hrun : ListsRun evs L) :
    ∃ as : ℕ → List Addr,
      (∀ x, (as x).Nodup ∧ Path NcList.next L.nodes (L.list x) (as x) none ∧
        (as x).map (fun a => (L.nodes a).map NcList.data) = (sequencesAfter evs x).map some) ∧
      (∀ a, (L.nodes a).isSome = true ↔ ∃ x, a ∈ as x) ∧
      (∀ x y a, a ∈ as x → a ∈ as y → x = y) ∧
      ((∀ x, L.list x = none) → ∀ a, L.nodes a = none) := by
  obtain ⟨⟨as, S⟩, -⟩ := hrun.standing
  refine ⟨as, fun x => ?_, S.all, S.apart, fun hnull a => ?_⟩
  · have hpath := (S.one x).path.glue (k := rest L.nodes (as x))
    rw [glue_part] at hpath
    refine ⟨(S.one x).nodup, hpath, ?_⟩
    rw [← (S.one x).data]
    apply List.map_congr_left
    intro a ha
    rw [part_mem ha]
  · by_contra hsome
    obtain ⟨x, hx⟩ := (S.all a).mp (Option.isSome_iff_ne_none.mpr hsome)
    have C := S.one x
    rw [hnull x] at C
    rw [C.empty.1] at hx
    cases hx

theorem lists_own_nodes_turns : ∃ (L L' : Lists UInt64) (as : List Addr),
    ListsRun twoListsEvents L ∧ as.Nodup ∧ Path NcList.next L.nodes (L.list 0) as none ∧
      as.map (fun a => (L.nodes a).map NcList.data) = [some 9, some 4] ∧
      Returns (fun f => L.serve f 0 .freeAll) (.done, L') ∧ ∀ a, L'.nodes a = none := by
  obtain ⟨L, hrun⟩ := exists_twoLists
  obtain ⟨as, hall, -⟩ := lists_own_nodes hrun
  obtain ⟨hnodup, hpath, hdata⟩ := hall 0
  obtain ⟨⟨as', S⟩, -⟩ := hrun.standing
  obtain ⟨L', -, hret, -⟩ := S.serve 0 .freeAll trivial
  have hrun' : ListsRun (twoListsEvents ++ [⟨0, .freeAll, .done⟩]) L' :=
    hrun.call (c := .freeAll) trivial hret
  have hvars : ∀ e ∈ twoListsEvents ++ [⟨0, .freeAll, .done⟩], e.var = 0 ∨ e.var = 1 := by decide
  obtain ⟨-, -, -, -, hnone⟩ := lists_own_nodes hrun'
  refine ⟨L, L', as 0, hrun, hnodup, hpath, hdata, hret, hnone fun x => ?_⟩
  by_cases hx : x = 0 ∨ x = 1
  · rcases hx with rfl | rfl
    · exact hrun'.list_eq_none.mpr rfl
    · exact hrun'.list_eq_none.mpr rfl
  · refine hrun'.untouched fun e he hex => hx ?_
    rw [← hex]
    exact hvars e he

/-- In every run the data that the lists have accepted is, item by item, what was handed to `free`,
what was given back and what the lists carry.  So data that is accepted only once is not freed twice,
and no list carries data that was freed. -/
theorem lists_conserve_data {evs : List (ListEvent D)} (hrun : ListsRun evs L) {vars : List ℕ}
    (hnd : vars.Nodup) (hvars : ∀ e ∈ evs, e.var ∈ vars) :
    (taken evs).Perm (L.freed ++ returned evs ++ vars.flatMap (sequencesAfter evs)) ∧
    ((taken evs).Nodup →
      L.freed.Nodup ∧ ∀ x ∈ vars, ∀ d ∈ sequencesAfter evs x, d ∉ L.freed) := by
  obtain ⟨-, hfreed, -⟩ := hrun.standing
  have hperm := calls_conserve hnd evs hvars
  rw [← hfreed] at hperm
  refine ⟨hperm, fun hacc => ?_⟩
  have hall := hperm.nodup_iff.mp hacc
  obtain ⟨hfront, -, hapart⟩ := List.nodup_append.mp hall
  refine ⟨(List.nodup_append.mp hfront).1, fun x hx d hd hmem => ?_⟩
  have hcarried : d ∈ vars.flatMap (sequencesAfter evs) := List.mem_flatMap.mpr ⟨x, hx, hd⟩
  exact hapart d (List.mem_append_left _ hmem) d hcarried rfl

theorem lists_conserve_data_turns : ∃ L : Lists UInt64, ListsRun twoListsEvents L ∧
    ([7, 8, 9, 6, 4] : List UInt64).Perm (L.freed ++ [6, 8] ++ [9, 4]) ∧ L.freed.Nodup := by
  obtain ⟨L, hrun⟩ := exists_twoLists
  obtain ⟨hperm, honce⟩ := lists_conserve_data hrun (show [0, 1].Nodup by decide) (by decide)
  exact ⟨L, hrun, hperm, (honce (by decide)).1⟩

end standing

end Nica
