import Nica.Pointers
import Mathlib.Data.List.Basic
import Mathlib.Tactic.Common

/-! # Growing a block

`greedy_realloc` of `util.c`.  A block is the list of its cells, of `width` bytes each; a NULL pointer
is no block.  `realloc` fails or grants exactly the size asked for (`resized`): the common part of
the old block is kept, and the cells behind it may hold anything.

The size asked for is twice the need, in 64 bits.  It is at least the need below `2 ^ 63`, and less
than it from there on (`need_le_asked`, `asked_lt_need`).  So a call keeps its promise in every
sequence of calls unless `realloc` grants such a request (`greedy_realloc_promise`). -/

namespace Nica

variable {β : Type}

/-- What `realloc` makes of the block `old` when it grants `size` bytes; `fresh` are the contents
of memory that was not in use. -/
def resized (width : ℕ) (fresh : ℕ → β) (old : List β) (size : ℕ) : List β :=
  (List.range (size / width)).map fun i => old[i]?.getD (fresh i)

@[simp] theorem length_resized (width : ℕ) (fresh : ℕ → β) (old : List β) (size : ℕ) :
    (resized width fresh old size).length = size / width := by simp [resized]

theorem resized_getElem? {width : ℕ} {fresh : ℕ → β} {old : List β} {size i : ℕ}
    (hi : i < size / width) :
    (resized width fresh old size)[i]? = some (old[i]?.getD (fresh i)) := by
  rw [resized, List.getElem?_map, List.getElem?_range hi, Option.map_some]

/-- Growing keeps the whole block. -/
theorem prefix_resized {width : ℕ} (fresh : ℕ → β) {old : List β} {size : ℕ}
    (h : old.length ≤ size / width) : old <+: resized width fresh old size := by
  rw [List.prefix_iff_getElem?]
  intro i hi
  rw [resized_getElem? (by omega), List.getElem?_eq_getElem hi, Option.getD_some]

/-- The pointer and the size that the caller of `greedy_realloc` keeps. -/
structure Grown (β : Type) where
  p : Option (List β)
  allocated : UInt64

/-- The size that `greedy_realloc` asks for: `MAX(64u, need * 2)`. -/
def asked (need : UInt64) : UInt64 := if 64 > need * 2 then 64 else need * 2

/-- `greedy_realloc`: the block it returns, and what it leaves in `*p` and `*allocated`.  `realloc`
is `none` when the call of `realloc` fails. -/
def greedyRealloc (width : ℕ) (b : Grown β) (need : UInt64) (realloc : Option (ℕ → β)) :
    Option (List β) × Grown β :=
  if b.allocated ≥ need then (b.p, b)
  else
    let a := asked need
    match realloc with
    | none => (none, b)
    | some fresh =>
        let q := resized width fresh (b.p.getD []) a.toNat
        (some q, ⟨some q, a⟩)

section cases
variable {width : ℕ} {b : Grown β} {need : UInt64} {realloc : Option (ℕ → β)}

theorem greedyRealloc_keeps (h : need ≤ b.allocated) :
    greedyRealloc width b need realloc = (b.p, b) := if_pos h

theorem greedyRealloc_fails (h : b.allocated < need) :
    greedyRealloc width b need none = (none, b) := if_neg (UInt64.not_le.mpr h)

theorem greedyRealloc_grows (h : b.allocated < need) (fresh : ℕ → β) :
    greedyRealloc width b need (some fresh) =
      (some (resized width fresh (b.p.getD []) (asked need).toNat),
        ⟨some (resized width fresh (b.p.getD []) (asked need).toNat), asked need⟩) :=
  if_neg (UInt64.not_le.mpr h)

end cases

theorem toNat_asked (need : UInt64) :
    (asked need).toNat = max 64 (need.toNat * 2 % 2 ^ 64) := by
  have hmul : (need * 2).toNat = need.toNat * 2 % 2 ^ 64 := UInt64.toNat_mul need 2
  have h64 : (64 : UInt64).toNat = 64 := rfl
  unfold asked
  split_ifs with h
  · rw [gt_iff_lt, UInt64.lt_iff_toNat_lt, hmul, h64] at h
    omega
  · rw [gt_iff_lt, UInt64.lt_iff_toNat_lt, hmul, h64] at h
    omega

theorem need_le_asked {need : UInt64} (h : need.toNat < 2 ^ 63) : need ≤ asked need := by
  rw [UInt64.le_iff_toNat_le, toNat_asked]
  omega

/-- From `2 ^ 63` on the doubled size wraps. -/
theorem asked_lt_need {need : UInt64} (h : 2 ^ 63 ≤ need.toNat) : asked need < need := by
  have hlt := need.toNat_lt
  rw [UInt64.lt_iff_toNat_lt, toNat_asked]
  omega

/-! ### Sequences of calls -/

/-- A call of `greedy_realloc` with a need, and what `realloc` does if it is called. -/
structure Request (β : Type) where
  need : UInt64
  realloc : Option (ℕ → β)

/-- The block of bytes after a call. -/
def Grown.request (b : Grown β) (r : Request β) : Grown β := (greedyRealloc 1 b r.need r.realloc).2

/-- No block yet: the pair (NULL, 0). -/
def Grown.start (β : Type) : Grown β := ⟨none, 0⟩

/-- The block after the calls `rs`. -/
def Grown.requests (b : Grown β) (rs : List (Request β)) : Grown β := rs.foldl Grown.request b

/-- What the next call promises: a block that it returns has the recorded size, which is enough and
no less than before, and starts with the old block; when `realloc` fails nothing changes. -/
def KeepsPromise (b : Grown β) (r : Request β) : Prop :=
  (∀ block, (greedyRealloc 1 b r.need r.realloc).1 = some block →
    (b.request r).p = some block ∧ (b.request r).allocated.toNat = block.length ∧
    r.need ≤ (b.request r).allocated ∧ (∀ old, b.p = some old → old <+: block) ∧
    b.allocated ≤ (b.request r).allocated) ∧
  (b.allocated < r.need → r.realloc = none →
    (greedyRealloc 1 b r.need r.realloc).1 = none ∧ b.request r = b)

/-- The recorded size is the size of the block. -/
def Grown.Recorded (b : Grown β) : Prop := b.allocated.toNat = (b.p.getD []).length

theorem Grown.Recorded.request {b : Grown β} (hb : b.Recorded) (r : Request β) :
    (b.request r).Recorded := by
  by_cases h : r.need ≤ b.allocated
  · rw [Grown.request, greedyRealloc_keeps h]
    exact hb
  · rw [UInt64.not_le] at h
    rw [Grown.request]
    cases hr : r.realloc with
    | none =>
        rw [greedyRealloc_fails h]
        exact hb
    | some fresh =>
        rw [greedyRealloc_grows h]
        exact ((length_resized _ _ _ _).trans (Nat.div_one _)).symm

theorem Grown.Recorded.requests {b : Grown β} (hb : b.Recorded) (rs : List (Request β)) :
    (b.requests rs).Recorded := by
  induction rs generalizing b with
  | nil => exact hb
  | cons r rs ih => exact ih (hb.request r)

/-- A call keeps its promise unless `realloc` grants a need that the block does not meet and whose
double wraps. -/
theorem Grown.Recorded.keepsPromise_iff {b : Grown β} (hb : b.Recorded) (r : Request β) :
    KeepsPromise b r ↔ r.need.toNat < 2 ^ 63 ∨ r.need ≤ b.allocated ∨ r.realloc = none := by
  unfold KeepsPromise Grown.request
  by_cases h : r.need ≤ b.allocated
  · rw [greedyRealloc_keeps h]
    refine iff_of_true ⟨fun block hblock => ?_, fun hlt => ?_⟩ (.inr (.inl h))
    · refine ⟨hblock, ?_, h, fun old hold => ?_, UInt64.le_refl _⟩
      · rw [hb, show b.p = some block from hblock, Option.getD_some]
      · obtain rfl := Option.some.inj (hold.symm.trans hblock)
        exact List.prefix_refl _
    · exact absurd h (UInt64.not_le.mpr hlt)
  · have hlt := UInt64.not_le.mp h
    cases hr : r.realloc with
    | none =>
        rw [greedyRealloc_fails hlt]
        refine iff_of_true ⟨fun block hblock => ?_, fun _ _ => ⟨rfl, rfl⟩⟩ (.inr (.inr rfl))
        cases hblock
    | some fresh =>
        rw [greedyRealloc_grows hlt]
        constructor
        · rintro ⟨hpromise, -⟩
          by_contra hno
          have hbig : 2 ^ 63 ≤ r.need.toNat := Nat.not_lt.mp fun hs => hno (.inl hs)
          obtain ⟨-, -, hneed, -⟩ := hpromise _ rfl
          exact absurd (asked_lt_need hbig) (UInt64.not_lt.mpr hneed)
        · intro hfit
          have hsmall : r.need.toNat < 2 ^ 63 :=
            hfit.resolve_right fun hs => hs.elim h fun hn => by cases hn
          have hneed := need_le_asked hsmall
          have hgrow : b.allocated ≤ asked r.need :=
            UInt64.le_trans (UInt64.le_of_lt hlt) hneed
          refine ⟨fun block hblock => ?_, fun _ hn => by cases hn⟩
          obtain rfl := Option.some.inj hblock
          refine ⟨rfl, ?_, hneed, fun old hold => ?_, hgrow⟩
          · exact ((length_resized _ _ _ _).trans (Nat.div_one _)).symm
          · rw [hold, Option.getD_some]
            apply prefix_resized
            have hsize : b.allocated.toNat = old.length := by rw [hb, hold, Option.getD_some]
            rw [Nat.div_one, ← hsize]
            exact UInt64.le_iff_toNat_le.mp hgrow

/-- After every sequence of calls on the pair (NULL, 0), the next call keeps its promise exactly when
its need is below `2 ^ 63`, or the block meets it already, or `realloc` fails. -/
theorem greedy_realloc_promise (rs : List (Request β)) (r : Request β) :
    KeepsPromise ((Grown.start β).requests rs) r ↔
      r.need.toNat < 2 ^ 63 ∨ r.need ≤ ((Grown.start β).requests rs).allocated ∨
        r.realloc = none := by
  have hstart : (Grown.start β).Recorded := rfl
  exact (hstart.requests rs).keepsPromise_iff r

/-- The need `2 ^ 63` is granted as 64 bytes. -/
theorem greedy_realloc_wraps :
    ((Grown.start UInt8).request ⟨9223372036854775808, some fun _ => 0⟩).allocated = 64 ∧
    ¬ KeepsPromise (Grown.start UInt8) ⟨9223372036854775808, some fun _ => 0⟩ := by
  refine ⟨rfl, fun h => ?_⟩
  obtain ⟨-, -, hneed, -⟩ := h.1 _ rfl
  exact absurd hneed (by decide)

end Nica
