import Nica.Hashmap

/-! # Fuel is not part of the result

A call that ends with some fuel ends in the same way with more.  One lemma for every loop, by
induction on the fuel, and from them one for every function. -/

namespace Nica.NcHashmap

open Blocks Fueled

variable {K V : Type} (self : NcHashmap K V)

/-- The search of an insertion; a chain with a loop uses up any fuel. -/
theorem insertScan_steady (m : Mem K V) (key : K) (p : Option Loc) (parent : Loc)
    (tomb : Option Loc) : Steady fun n => insertScan self m key n p parent tomb := by
  intro n
  induction n generalizing p parent tomb with
  | zero =>
      cases p with
      | none => exact .refl _
      | some row => exact .error _ _
  | succ n ih =>
      cases p with
      | none => exact .refl _
      | some row =>
          simp only [insertScan]
          cases m.cells row with
          | none => exact .refl _
          | some e =>
              simp only
              split_ifs
              · exact .refl _
              · exact ih _ _ _
              · exact ih _ _ _

theorem freeChain_steady (nuke : Bool) (root : Loc) (p : Option Loc) (m : Mem K V) :
    Steady fun n => freeChain self nuke root n p m := by
  intro n
  induction n generalizing p m with
  | zero =>
      cases p with
      | none => exact .refl _
      | some tmp => exact .error _ _
  | succ n ih =>
      cases p with
      | none => exact .refl _
      | some tmp =>
          simp only [freeChain]
          cases m.cells tmp with
          | none => exact .refl _
          | some e =>
              simp only
              split_ifs
              all_goals exact Below.bind (.refl _) fun m => ih _ m

theorem freeBuckets_steady (table : ℕ) (nuke : Bool) (is : List ℕ) (m : Mem K V) :
    Steady fun n => freeBuckets self n table nuke is m := by
  intro n
  induction is generalizing m with
  | nil => exact .refl _
  | cons i is ih => exact Below.bind (freeChain_steady self nuke _ _ m n) fun m => ih m

theorem entryScan_steady (m : Mem K V) (key : K) (p : Option Loc) :
    Steady fun n => entryScan self m key n p := by
  intro n
  induction n generalizing p with
  | zero =>
      cases p with
      | none => exact .refl _
      | some row => exact .error _ _
  | succ n ih =>
      cases p with
      | none => exact .refl _
      | some row =>
          simp only [entryScan]
          cases m.cells row with
          | none => exact .refl _
          | some e =>
              simp only
              split_ifs
              · exact .refl _
              · exact ih _

variable (s : State K V) (key : K)

theorem getEntry_steady : Steady fun n => getEntry n s key := entryScan_steady _ _ _ _

theorem get_steady [Null V] : Steady fun n => get n s key :=
  (getEntry_steady s key).bind fun _ => .const _

/-- Entering a bucket costs a unit of fuel too, so the loop does not recurse on the chain alone. -/
theorem iterLoop_steady (bucket : ℤ) (item : Option Loc) :
    Steady fun n => iterLoop s n bucket item := by
  intro n
  induction n generalizing bucket item with
  | zero => exact .error _ _
  | succ n ih =>
      cases item with
      | none =>
          simp only [iterLoop]
          split
          · exact .refl _
          · cases s.mem.cells (.slot s.self.buckets (bucket + 1).toNat) with
            | none => exact .refl _
            | some e =>
                dsimp only
                split
                · exact .refl _
                · exact ih _ _
      | some a =>
          simp only [iterLoop]
          cases s.mem.cells a with
          | none => exact .refl _
          | some e =>
              dsimp only
              split_ifs
              · exact .refl _
              · exact .refl _
              · exact ih _ _

theorem iterNext_steady (it : Iter) : Steady fun n => iterNext n s it :=
  (iterLoop_steady s it.bucket it.item).bind fun _ => .const _

variable [Null K] [Null V]

theorem removeInternal_steady (remove : Bool) : Steady fun n => removeInternal n s key remove :=
  (getEntry_steady s key).bind fun _ => .const _

theorem insertBucket_steady (m : Mem K V) (buckets nBuckets : ℕ) (hash : UInt32) (key : K)
    (value : V) : Steady fun n => insertBucket self n m buckets nBuckets hash key value :=
  (insertScan_steady self m key _ _ _).bind fun _ => .const _

/-- Each round hands its fuel on to the insertion of the pair. -/
theorem rehashChain_steady (newBuckets newSize : ℕ) (p : Option Loc) (items : ℤ) (m : Mem K V) :
    Steady fun n => rehashChain self newBuckets newSize n p items m := by
  intro n
  induction n generalizing p items m with
  | zero =>
      cases p with
      | none => exact .refl _
      | some entry => exact .error _ _
  | succ n ih =>
      cases p with
      | none => exact .refl _
      | some entry =>
          simp only [rehashChain]
          cases m.cells entry with
          | none => exact .refl _
          | some e =>
              simp only
              split_ifs
              · refine Below.bind (insertBucket_steady self m _ _ _ _ _ n) fun x => ?_
                split_ifs
                · cases x.2.cells entry with
                  | none => exact .refl _
                  | some e => exact ih _ _ _
                · exact .refl _
              · exact ih _ _ _

theorem rehash_steady (newBuckets newSize : ℕ) (is : List ℕ) (items : ℤ) (m : Mem K V) :
    Steady fun n => rehash self n newBuckets newSize is items m := by
  intro n
  induction is generalizing items m with
  | nil => exact .refl _
  | cons i is ih =>
      refine Below.bind (rehashChain_steady self _ _ _ items m n) fun x => ?_
      simp only
      split_ifs
      · exact ih _ _
      · exact .refl _

/-- The copy ends with one of two loops that free a table, and either needs fuel. -/
theorem resize_steady : Steady fun n => resize n s := by
  intro n
  simp only [resize]
  split_ifs
  · exact .refl _
  · split
    · exact .refl _
    · refine Below.bind (rehash_steady _ _ _ _ _ _ n) fun x => ?_
      split_ifs
      · exact Below.bind (freeBuckets_steady _ _ _ _ _ n) fun _ => .refl _
      · exact Below.bind (freeBuckets_steady _ _ _ _ _ n) fun _ => .refl _

/-- A put that is due for a resize stores the pair in the table that the resize leaves. -/
theorem put_steady (value : V) : Steady fun n => put n s key value := by
  have store : ∀ x : Bool × State K V, Steady fun n =>
      (if x.1 then
        insertBucket x.2.self n x.2.mem x.2.self.buckets x.2.self.nBuckets (x.2.self.hash key) key
            value >>= fun r =>
          if r.1 ≥ 0 then .ok (true, ⟨{ x.2.self with size := x.2.self.size + r.1 }, r.2⟩)
          else .ok (false, { x.2 with mem := r.2 })
      else .ok (false, x.2) : Except Fault (Bool × State K V)) := by
    intro x n
    simp only
    split_ifs
    · exact Below.bind (insertBucket_steady _ _ _ _ _ _ _ n) fun _ => .refl _
    · exact .refl _
  intro n
  simp only [put]
  split_ifs
  · exact Below.bind (resize_steady s n) fun x => store x n
  · exact Below.bind (.refl _) fun x => store x n

end Nica.NcHashmap
