import Nica.HashmapLayout
import Mathlib.Data.List.Basic

/-! # Freeing chains

`freeBuckets` on chains that reach NULL gives back their overflow nodes and leaves every other cell
alone; the cleanup functions are called on the pairs of the chains, in order, exactly when `nuke` is
set (`Freed`).  The slots themselves go with their table. -/

namespace Nica

open Blocks Linked Rows Fueled

variable {K V : Type}

/-- The calls that `nc_hashmap_free_bucket` makes for the pairs `ps`. -/
def freeCalls (self : NcHashmap K V) (ps : List (K × V)) : List (FreeCall K V) :=
  ps.flatMap fun p =>
    (if self.keyFree then [.key p.1] else []) ++ (if self.valueFree then [.value p.2] else [])

@[simp] theorem freeCalls_nil (self : NcHashmap K V) : freeCalls self [] = [] := rfl

@[simp] theorem freeCalls_append (self : NcHashmap K V) (ps qs : List (K × V)) :
    freeCalls self (ps ++ qs) = freeCalls self ps ++ freeCalls self qs := List.flatMap_append

/-- Without cleanup functions, and for no pairs, there are no calls. -/
theorem freeCalls_eq_nil {self : NcHashmap K V} {ps : List (K × V)} :
    freeCalls self ps = [] ↔ ps = [] ∨ self.keyFree = false ∧ self.valueFree = false := by
  cases ps with
  | nil => simp
  | cons p ps =>
      cases hk : self.keyFree <;> cases hv : self.valueFree <;> simp [freeCalls, hk, hv]

/-- `m'` is `m` without the cells in `gone`, after the cleanup of the pairs `ps`. -/
structure Freed (map : NcHashmap K V) (nuke : Bool) (m m' : Mem K V) (gone : Loc → Prop)
    (ps : List (K × V)) : Prop where
  freed : ∀ a, gone a → m'.cells a = none
  kept : ∀ a, ¬ gone a → m'.cells a = m.cells a
  tick : m'.tick = m.tick
  grants : m'.grants = m.grants
  log : m'.log = m.log ++ if nuke then freeCalls map ps else []

namespace Freed

variable {self : NcHashmap K V} {nuke : Bool} {m m₁ m₂ : Mem K V} {gone gone₁ gone₂ : Loc → Prop}
  {ps qs : List (K × V)}

theorem refl (m : Mem K V) (hg : ∀ a, ¬ gone a) : Freed self nuke m m gone [] where
  freed a ha := absurd ha (hg a)
  kept _ _ := rfl
  tick := rfl
  grants := rfl
  log := by cases nuke <;> simp

theorem of_gone (h₁ : Freed self nuke m m₁ gone₁ ps) (hg : ∀ a, gone a ↔ gone₁ a) :
    Freed self nuke m m₁ gone ps where
  freed a ha := h₁.freed a ((hg a).mp ha)
  kept a ha := h₁.kept a fun h => ha ((hg a).mpr h)
  tick := h₁.tick
  grants := h₁.grants
  log := h₁.log

theorem trans (h₁ : Freed self nuke m m₁ gone₁ ps) (h₂ : Freed self nuke m₁ m₂ gone₂ qs)
    (hg : ∀ a, gone a ↔ gone₁ a ∨ gone₂ a) : Freed self nuke m m₂ gone (ps ++ qs) where
  freed a ha := by
    by_cases h : gone₂ a
    · exact h₂.freed a h
    · rw [h₂.kept a h]
      exact h₁.freed a (((hg a).mp ha).resolve_right h)
  kept a ha := by
    rw [hg, not_or] at ha
    rw [h₂.kept a ha.2, h₁.kept a ha.1]
  tick := h₂.tick.trans h₁.tick
  grants := h₂.grants.trans h₁.grants
  log := by rw [h₂.log, h₁.log]; cases nuke <;> simp

end Freed

namespace NcHashmap

/-- The cleanup of one entry, before its node is given back. -/
def cleanEntry (self : NcHashmap K V) (nuke : Bool) (e : NcHashmapEntry K V) (m : Mem K V) :
    Mem K V :=
  if nuke && e.occ then (m.freeKey self e.hash).freeValue self e.value else m

theorem cleanEntry_freed (self : NcHashmap K V) (nuke : Bool) (e : NcHashmapEntry K V)
    (m : Mem K V) :
    Freed self nuke m (cleanEntry self nuke e m) (fun _ => False) (pairs [e.view]) := by
  cases nuke <;> cases ho : e.occ <;> cases hk : self.keyFree <;> cases hv : self.valueFree <;>
    constructor <;>
    simp [cleanEntry, Mem.freeKey, Mem.freeValue, NcHashmapEntry.view, ho, hk, hv, freeCalls]

theorem free_freed (self : NcHashmap K V) (nuke : Bool) {m : Mem K V} {b : ℕ}
    {e : NcHashmapEntry K V} (hb : m.cells (.node b) = some e) :
    ∃ m', m.free (.node b) = .ok m' ∧ Freed self nuke m m' (fun a => a = .node b) [] := by
  refine ⟨_, if_pos (by simp [hb]), fun a ha => ?_, fun a ha => Heap.freeNode_ne _ ha, rfl, rfl, ?_⟩
  · rw [ha]; exact Heap.freeNode_self _ _
  · cases nuke <;> simp

/-- One round of the loop. -/
theorem freeChain_succ {self : NcHashmap K V} (nuke : Bool) {root a : Loc} {m m₁ : Mem K V}
    {e : NcHashmapEntry K V} (he : m.cells a = some e)
    (h : (if a ≠ root then (cleanEntry self nuke e m).free a
      else .ok (cleanEntry self nuke e m)) = .ok m₁) (n : ℕ) :
    freeChain self nuke root (n + 1) (some a) m = freeChain self nuke root n e.next m₁ := by
  unfold cleanEntry at h
  simp only [freeChain, he]
  split_ifs at h ⊢ <;> rw [h] <;> rfl

/-- The loop over the part `xs` of a chain that reaches NULL. -/
theorem freeChain_freed (self : NcHashmap K V) (nuke : Bool) {root : Loc} {m : Mem K V}
    {p : Option Loc} {xs : List Loc} (hp : Path NcHashmapEntry.next m.cells p xs none)
    (hnode : ∀ a ∈ xs, a ≠ root → ∃ b, a = .node b) :
    ∃ m', Returns (fun n => freeChain self nuke root n p m) m' ∧
      Freed self nuke m m' (fun a => a ∈ xs ∧ a ≠ root) (pairs (rowOf m.toHeap xs)) := by
  induction xs generalizing p m with
  | nil =>
      obtain rfl : p = none := hp
      exact ⟨m, (Returns.pure m).congr fun n => by cases n <;> rfl, .refl m (by simp)⟩
  | cons a xs ih =>
      have hnd := hp.nodup
      obtain ⟨rfl, e, he, hp⟩ := hp
      have hclean := cleanEntry_freed self nuke e m
      have hce : (cleanEntry self nuke e m).cells a = some e := by
        rw [hclean.kept a id, he]
      obtain ⟨m₁, hm₁, hstep⟩ : ∃ m₁, (if a ≠ root then (cleanEntry self nuke e m).free a
          else .ok (cleanEntry self nuke e m)) = .ok m₁ ∧
          Freed self nuke m m₁ (fun b => b = a ∧ b ≠ root) (pairs [e.view]) := by
        by_cases har : a = root
        · have hnone : ∀ b, ¬ (b = a ∧ b ≠ root) := by
            rintro b ⟨rfl, hb⟩
            exact hb har
          exact ⟨_, if_neg (not_not.mpr har), hclean.of_gone fun b => by simp [hnone b]⟩
        · obtain ⟨b, rfl⟩ := hnode a List.mem_cons_self har
          obtain ⟨m₁, hm₁, hf⟩ := free_freed self nuke hce
          refine ⟨m₁, by rw [if_pos har, hm₁], ?_⟩
          rw [← List.append_nil (pairs [e.view])]
          refine hclean.trans hf fun c => ?_
          constructor
          · exact fun h => .inr h.1
          · rintro (h | rfl)
            · exact h.elim
            · exact ⟨rfl, har⟩
      have hne : ∀ b ∈ xs, m₁.cells b = m.cells b := fun b hb =>
        hstep.kept b fun h => (List.nodup_cons.mp hnd).1 (h.1 ▸ hb)
      obtain ⟨m₂, hm₂, hrest⟩ := ih (hp.congr fun b hb => by rw [hne b hb])
        fun b hb => hnode b (List.mem_cons_of_mem a hb)
      refine ⟨m₂, hm₂.succ fun n => ?_, ?_⟩
      · exact freeChain_succ nuke he hm₁ n
      · rw [rowOf_congr hne] at hrest
        have hrow : pairs (rowOf m.toHeap (a :: xs)) = pairs [e.view] ++ pairs (rowOf m.toHeap xs) := by
          rw [← pairs_append, rowOf_cons, viewAt_eq he]
          rfl
        rw [hrow]
        refine hstep.trans hrest fun b => ?_
        rw [List.mem_cons]
        tauto

/-- The chains of the slots `is`, one after the other. -/
theorem freeBuckets_freed (self : NcHashmap K V) (nuke : Bool) {m : Mem K V} {t : ℕ}
    {tails : ℕ → List ℕ} {is : List ℕ}
    (hp : ∀ i ∈ is, Path NcHashmapEntry.next m.cells (some (.slot t i)) (chainOf t tails i) none)
    (hap : is.Pairwise fun i j => ∀ a ∈ chainOf t tails i, a ∉ chainOf t tails j) :
    ∃ m', Returns (fun n => freeBuckets self n t nuke is m) m' ∧
      Freed self nuke m m' (fun a => ∃ i ∈ is, ∃ b ∈ tails i, a = .node b)
        (is.flatMap fun i => pairs (rowsOf m.toHeap t tails i)) := by
  induction is generalizing m with
  | nil => exact ⟨m, Returns.pure m, .refl m (by simp)⟩
  | cons i is ih =>
      obtain ⟨hi, his⟩ := List.pairwise_cons.mp hap
      have hnode : ∀ a ∈ chainOf t tails i, a ≠ .slot t i → ∃ b, a = .node b := by
        intro a ha har
        obtain ⟨b, -, rfl⟩ := (mem_chainOf.mp ha).resolve_left har
        exact ⟨b, rfl⟩
      obtain ⟨m₁, hm₁, h₁⟩ := freeChain_freed self nuke (hp i List.mem_cons_self) hnode
      have hne : ∀ j ∈ is, ∀ a ∈ chainOf t tails j, m₁.cells a = m.cells a := fun j hj a ha =>
        h₁.kept a fun h => hi j hj a h.1 ha
      obtain ⟨m₂, hm₂, h₂⟩ := ih (fun j hj => (hp j (List.mem_cons_of_mem i hj)).congr
        fun a ha => by rw [hne j hj a ha]) his
      refine ⟨m₂, hm₁.bind hm₂, ?_⟩
      have hrow : is.flatMap (fun j => pairs (rowsOf m₁.toHeap t tails j)) =
          is.flatMap fun j => pairs (rowsOf m.toHeap t tails j) :=
        List.flatMap_congr fun j hj => congrArg pairs (rowOf_congr (hne j hj))
      rw [hrow] at h₂
      rw [List.flatMap_cons]
      refine h₁.trans h₂ fun a => ?_
      simp only [List.mem_cons, exists_eq_or_imp, mem_chainOf]
      refine or_congr ?_ Iff.rfl
      constructor
      · rintro ⟨b, hb, rfl⟩
        exact ⟨.inr ⟨b, hb, rfl⟩, by simp⟩
      · rintro ⟨h | h, hne⟩
        · exact absurd h hne
        · exact h

variable [Null K] [Null V]

/-- All chains of a table that reach NULL. -/
theorem freeBuckets_table (self : NcHashmap K V) (nuke : Bool) {m : Mem K V} {t n : ℕ}
    {tails : ℕ → List ℕ} (hS : Shape m.toHeap t n tails fun _ => none) :
    ∃ m', Returns (fun f => freeBuckets self f t nuke (List.range n) m) m' ∧
      Freed self nuke m m' (fun a => ∃ i < n, ∃ b ∈ tails i, a = .node b)
        (contents (rowsOf m.toHeap t tails) n) := by
  have hap : (List.range n).Pairwise fun i j => ∀ a ∈ chainOf t tails i, a ∉ chainOf t tails j := by
    refine List.Pairwise.imp_of_mem ?_ List.nodup_range
    intro i j hi hj hij a ha
    exact hS.chain_apart (List.mem_range.mp hi) (List.mem_range.mp hj) hij ha
  obtain ⟨m', hm', hf⟩ := freeBuckets_freed self nuke
    (fun i hi => hS.path i (List.mem_range.mp hi)) hap
  refine ⟨m', hm', ?_⟩
  simpa only [List.mem_range, contents] using hf

/-- A map whose chains reach NULL can be freed: its overflow nodes and its table are given back, and
all its pairs cleaned up. -/
theorem free_returns {s : State K V} {tails : ℕ → List ℕ}
    (hS : Shape s.mem.toHeap s.self.buckets s.self.nBuckets tails fun _ => none) :
    ∃ m', Returns (fun f => free f s) m' ∧
      Freed s.self true s.mem m'
        (fun a => (∃ i, a = .slot s.self.buckets i) ∨ ∃ i < s.self.nBuckets, ∃ b ∈ tails i, a = .node b)
        (contents (rowsOf s.mem.toHeap s.self.buckets tails) s.self.nBuckets) := by
  obtain ⟨m', hm', F⟩ := freeBuckets_table s.self true hS
  have slots : Freed s.self true m' { m' with toHeap := m'.freeTable s.self.buckets }
      (fun a => ∃ i, a = .slot s.self.buckets i) [] := by
    refine ⟨?_, fun a ha => ?_, rfl, rfl, by simp⟩
    · rintro a ⟨i, rfl⟩
      exact if_pos rfl
    · cases a with
      | slot t i => exact if_neg fun ht => ha ⟨i, by rw [ht]⟩
      | node b => rfl
  refine ⟨_, hm'.bind (Returns.pure _), ?_⟩
  rw [← List.append_nil (contents _ _)]
  exact F.trans slots fun a => or_comm

end NcHashmap
end Nica
