import Nica.NcListRuns
import Nica.HeapParts

/-! # Freeing and going through a list

`NC_LIST_FOREACH`, `nc_list_free` and `nc_list_free_all` of `list.h`.  On a list that carries a
sequence the loop sees the sequence (`forEach_spec`), and both functions leave no node; the second
one hands the data of the sequence to `free`, in order (`freeList_spec`). -/

namespace Nica

open Linked Fueled HeapParts

variable {D : Type}

/-- The loop of `NC_LIST_FOREACH`, with the data of the elements for which the body is run. -/
def forEach (h : Nodes D) : ℕ → Option Addr → Except Fault (List D)
  | _, none => .ok []
  | 0, some _ => .error .timeout
  | fuel + 1, some elem => do
      let n ← h.load (some elem)
      let rest ← forEach h fuel n.next
      .ok (n.data :: rest)

/-- The loop of the two functions, of which the second one frees the data of the nodes. -/
def freeLoop (all : Bool) :
    ℕ → Nodes D → Option Addr → List D → Except Fault (Nodes D × List D)
  | _, h, none, freed => .ok (h, freed)
  | 0, _, some _, _ => .error .timeout
  | fuel + 1, h, some elem, freed => do
      let n ← h.load (some elem)
      let freed := if all then freed ++ [n.data] else freed
      let h ← h.free elem
      freeLoop all fuel h n.next freed

def freeList (all : Bool) (fuel : ℕ) (s : ListState D) : Except Fault (ListState D) :=
  match s.list with
  | none => .ok s
  | some elem => do
      let (h, freed) ← freeLoop all fuel s.nodes (some elem) s.freed
      .ok ⟨h, none, freed⟩

/-- `nc_list_free`. -/
def ncListFree (fuel : ℕ) (s : ListState D) : Except Fault (ListState D) := freeList false fuel s

/-- `nc_list_free_all`. -/
def ncListFreeAll (fuel : ℕ) (s : ListState D) : Except Fault (ListState D) := freeList true fuel s

/-! ### What the loops do -/

section loops
variable {h : Nodes D} {p : Option Addr} {as : List Addr} {xs : List D}

/-- Over a path that ends in NULL the loop sees the data of its nodes. -/
theorem forEach_path (hp : Path NcList.next h p as none)
    (hdata : as.map (fun a => (h a).map NcList.data) = xs.map some) :
    Returns (fun f => forEach h f p) xs := by
  induction as generalizing p xs with
  | nil =>
      cases xs with
      | cons x xs => cases hdata
      | nil =>
          rw [path_nil] at hp
          subst hp
          refine (Returns.pure []).congr fun f => ?_
          cases f <;> rfl
  | cons a as ih =>
      cases xs with
      | nil => cases hdata
      | cons x xs =>
          obtain ⟨rfl, n, hn, hnext⟩ := hp
          rw [List.map_cons, List.map_cons, List.cons.injEq, hn] at hdata
          obtain ⟨hx, hdata⟩ := hdata
          have hbody : Returns (fun f => forEach h f n.next >>= fun rest =>
              (.ok (n.data :: rest) : Except Fault (List D))) (n.data :: xs) :=
            (ih hnext hdata).bind (Returns.pure (n.data :: xs))
          rw [← Option.some.inj hx]
          apply hbody.succ
          intro f
          rw [forEach, Nodes.load_some hn]
          rfl

/-- The nodes without those at some addresses. -/
def dropAll (h : Nodes D) (as : List Addr) : Nodes D := as.foldl Nodes.drop h

theorem dropAll_notMem {a : Addr} (ha : a ∉ as) : dropAll h as a = h a := by
  induction as generalizing h with
  | nil => rfl
  | cons b as ih =>
      rw [List.mem_cons, not_or] at ha
      obtain ⟨hne, hnot⟩ := ha
      change dropAll (h.drop b) as a = _
      rw [ih hnot, Nodes.drop_ne hne]

theorem dropAll_mem {a : Addr} (ha : a ∈ as) : dropAll h as a = none := by
  induction as generalizing h with
  | nil => cases ha
  | cons b as ih =>
      change dropAll (h.drop b) as a = none
      by_cases hin : a ∈ as
      · exact ih hin
      · rw [dropAll_notMem hin]
        cases List.mem_cons.mp ha with
        | inl heq => rw [heq, Nodes.drop_self]
        | inr hmem => exact absurd hmem hin

/-- Over a path without repetition every node is freed once. -/
theorem freeLoop_path (all : Bool) (hp : Path NcList.next h p as none) (hnd : as.Nodup)
    (hdata : as.map (fun a => (h a).map NcList.data) = xs.map some) (freed : List D) :
    Returns (fun f => freeLoop all f h p freed)
      (dropAll h as, if all then freed ++ xs else freed) := by
  induction as generalizing h p xs freed with
  | nil =>
      cases xs with
      | cons x xs => cases hdata
      | nil =>
          rw [path_nil] at hp
          subst hp
          have hfreed : (if all then freed ++ [] else freed) = freed := by
            rw [List.append_nil, ite_self]
          rw [hfreed]
          refine (Returns.pure _).congr fun f => ?_
          cases f <;> rfl
  | cons a as ih =>
      cases xs with
      | nil => cases hdata
      | cons x xs =>
          obtain ⟨rfl, n, hn, hnext⟩ := hp
          obtain ⟨hnot, hnd⟩ := List.nodup_cons.mp hnd
          rw [List.map_cons, List.map_cons, List.cons.injEq, hn] at hdata
          obtain ⟨hx, hdata⟩ := hdata
          obtain rfl := Option.some.inj hx
          -- the other nodes of the path are as they were
          have hsame : ∀ b ∈ as, h.drop a b = h b := by
            intro b hb
            apply Nodes.drop_ne
            rintro rfl
            exact hnot hb
          have hpath : Path NcList.next (h.drop a) n.next as none :=
            hnext.congr fun b hb => by rw [hsame b hb]
          have hdata' : as.map (fun b => (h.drop a b).map NcList.data) = xs.map some := by
            rw [← hdata]
            apply List.map_congr_left
            intro b hb
            rw [hsame b hb]
          have hrest := ih hpath hnd hdata' (if all then freed ++ [n.data] else freed)
          have hfreed : (if all then (if all then freed ++ [n.data] else freed) ++ xs
              else (if all then freed ++ [n.data] else freed)) =
              if all then freed ++ n.data :: xs else freed := by
            cases all with
            | false => rfl
            | true => simp
          rw [hfreed] at hrest
          apply hrest.succ
          intro f
          rw [freeLoop, Nodes.load_some hn]
          change (h.free a >>= _) = _
          rw [Nodes.free_some (by rw [hn]; rfl)]
          rfl

theorem forEach_steady (h : Nodes D) (elem : Option Addr) : Steady fun f => forEach h f elem := by
  intro f
  induction f generalizing elem with
  | zero =>
      cases elem with
      | none => exact .refl _
      | some a => exact .error _ _
  | succ f ih =>
      cases elem with
      | none => exact .refl _
      | some a => exact (Below.refl _).bind fun n => (ih n.next).bind fun _ => .refl _

theorem freeLoop_steady (all : Bool) (h : Nodes D) (elem : Option Addr) (freed : List D) :
    Steady fun f => freeLoop all f h elem freed := by
  intro f
  induction f generalizing h elem freed with
  | zero =>
      cases elem with
      | none => exact .refl _
      | some a => exact .error _ _
  | succ f ih =>
      cases elem with
      | none => exact .refl _
      | some a => exact (Below.refl _).bind fun n => (Below.refl _).bind fun h' => ih h' n.next _

end loops

section calls
variable {s : ListState D} {as : List Addr} {xs : List D}

theorem forEach_spec (C : Chained s.nodes s.list as xs) :
    Returns (fun f => forEach s.nodes f s.list) xs := forEach_path C.path C.data

theorem freeList_spec (all : Bool) (C : Chained s.nodes s.list as xs) :
    Returns (fun f => freeList all f s)
      ⟨fun _ => none, none, if all then s.freed ++ xs else s.freed⟩ := by
  obtain ⟨nodes, list, freed⟩ := s
  cases list with
  | none =>
      obtain ⟨rfl, rfl⟩ := C.empty
      have hnodes : nodes = fun _ => none := by
        funext a
        exact Option.not_isSome_iff_eq_none.mp fun ha => List.not_mem_nil ((C.exact a).mp ha)
      have hfreed : (if all then freed ++ [] else freed) = freed := by
        rw [List.append_nil, ite_self]
      rw [hfreed, ← hnodes]
      exact Returns.pure _
  | some elem =>
      have hnodes : dropAll nodes as = fun _ => none := by
        funext a
        by_cases ha : a ∈ as
        · exact dropAll_mem ha
        · rw [dropAll_notMem ha]
          exact Option.not_isSome_iff_eq_none.mp fun hsome => ha ((C.exact a).mp hsome)
      have hloop := freeLoop_path all C.path C.nodup C.data freed
      rw [hnodes] at hloop
      have hlast : Returns
          (fun _ => (.ok ⟨fun _ => none, none, if all then freed ++ xs else freed⟩ :
            Except Fault (ListState D)))
          ⟨fun _ => none, none, if all then freed ++ xs else freed⟩ := .pure _
      exact hloop.bind hlast

theorem chained_none : Chained (D := D) (fun _ => none) none [] [] where
  path := rfl
  data := rfl
  exact a := by simp
  tail a h := by cases h
  size a h := by cases h

theorem freeList_steady (all : Bool) (s : ListState D) : Steady fun f => freeList all f s := by
  unfold freeList
  cases s.list with
  | none => exact .const _
  | some head => exact (freeLoop_steady all s.nodes _ s.freed).bind fun _ => .const _

end calls

end Nica
