import Mathlib.Data.List.Nodup
import Mathlib.Data.List.Infix
import Mathlib.Tactic.Common

/-! # Linked cells

A heap is a partial function from addresses to cells, and every cell names at most one
successor (`nx`).  `Path nx h p xs q` says that following the successors from the pointer `p`
visits the cells `xs` in order and then stands at the pointer `q`; `Reaches nx h p a` says that
the cell `a` is met on the way from `p`.

A path that ends in the null pointer visits no cell twice (`Path.nodup`) and is determined by its
start (`Path.unique`).  A path that ends inside itself never meets the null pointer: its cells are
closed under taking the successor (`Path.closed`).  Both kinds reach exactly the cells they list
(`Path.reaches_iff`).  Writes are handled by `Path.congr` (no listed cell changes its successor)
and `Path.relink` (the last listed cell gets a new successor). -/

namespace Linked

variable {A β : Type} {nx : β → Option A} {h h' : A → Option β}

/-- Following `nx` from `p` visits the cells `xs` in order and arrives at `q`. -/
def Path (nx : β → Option A) (h : A → Option β) : Option A → List A → Option A → Prop
  | p, [], q => p = q
  | p, a :: xs, q => p = some a ∧ ∃ c, h a = some c ∧ Path nx h (nx c) xs q

/-- The cell `a` is met when following `nx` from `p`. -/
inductive Reaches (nx : β → Option A) (h : A → Option β) : Option A → A → Prop
  | here {a : A} {c : β} : h a = some c → Reaches nx h (some a) a
  | step {a b : A} {c : β} : h a = some c → Reaches nx h (nx c) b → Reaches nx h (some a) b

@[simp] theorem path_nil {p q : Option A} : Path nx h p [] q ↔ p = q := Iff.rfl

@[simp] theorem path_cons {p q : Option A} {a : A} {xs : List A} :
    Path nx h p (a :: xs) q ↔ p = some a ∧ ∃ c, h a = some c ∧ Path nx h (nx c) xs q := Iff.rfl

theorem Path.append {p r q : Option A} {xs ys : List A} (h₁ : Path nx h p xs r)
    (h₂ : Path nx h r ys q) : Path nx h p (xs ++ ys) q := by
  induction xs generalizing p with
  | nil => rw [path_nil] at h₁; rw [h₁]; exact h₂
  | cons a xs ih =>
      obtain ⟨rfl, c, hc, hp⟩ := h₁
      exact ⟨rfl, c, hc, ih hp⟩

theorem path_append {p q : Option A} {xs ys : List A} :
    Path nx h p (xs ++ ys) q ↔ ∃ r, Path nx h p xs r ∧ Path nx h r ys q := by
  refine ⟨fun hp => ?_, fun ⟨r, h₁, h₂⟩ => h₁.append h₂⟩
  induction xs generalizing p with
  | nil => exact ⟨p, rfl, hp⟩
  | cons a xs ih =>
      obtain ⟨rfl, c, hc, hp⟩ := hp
      obtain ⟨r, h₁, h₂⟩ := ih hp
      exact ⟨r, ⟨rfl, c, hc, h₁⟩, h₂⟩

/-- Every listed cell is allocated. -/
theorem Path.cell {p q : Option A} {xs : List A} (hp : Path nx h p xs q) {a : A} (ha : a ∈ xs) :
    ∃ c, h a = some c := by
  induction xs generalizing p with
  | nil => cases ha
  | cons b xs ih =>
      obtain ⟨rfl, c, hc, hp⟩ := hp
      rcases List.mem_cons.mp ha with rfl | ha
      · exact ⟨c, hc⟩
      · exact ih hp ha

theorem Path.head {p q : Option A} {a : A} {xs : List A} (hp : Path nx h p (a :: xs) q) :
    p = some a := hp.1

/-- Two paths from one pointer to the null pointer list the same cells. -/
theorem Path.unique {p : Option A} {xs ys : List A} (h₁ : Path nx h p xs none)
    (h₂ : Path nx h p ys none) : xs = ys := by
  induction xs generalizing p ys with
  | nil =>
      cases ys with
      | nil => rfl
      | cons b ys => rw [path_nil] at h₁; rw [h₁] at h₂; cases h₂.1
  | cons a xs ih =>
      obtain ⟨rfl, c, hc, hp⟩ := h₁
      cases ys with
      | nil => cases h₂
      | cons b ys =>
          obtain ⟨hab, d, hd, hq⟩ := h₂
          obtain rfl := Option.some.inj hab
          obtain rfl := Option.some.inj (hc.symm.trans hd)
          rw [ih hp hq]

/-- A path is the beginning of the path to the null pointer. -/
theorem Path.isPrefix {p q : Option A} {xs ys : List A} (h₁ : Path nx h p xs q)
    (h₂ : Path nx h p ys none) : xs.IsPrefix ys := by
  induction xs generalizing p ys with
  | nil => exact List.nil_prefix
  | cons a xs ih =>
      obtain ⟨rfl, c, hc, hp⟩ := h₁
      cases ys with
      | nil => cases h₂
      | cons b ys =>
          obtain ⟨hab, d, hd, hq⟩ := h₂
          obtain rfl := Option.some.inj hab
          obtain rfl := Option.some.inj (hc.symm.trans hd)
          exact List.cons_prefix_cons.mpr ⟨rfl, ih hp hq⟩

/-- A path to the null pointer visits no cell twice. -/
theorem Path.nodup {p : Option A} {xs : List A} (hp : Path nx h p xs none) : xs.Nodup := by
  induction xs generalizing p with
  | nil => exact List.nodup_nil
  | cons a xs ih =>
      obtain ⟨rfl, c, hc, hq⟩ := hp
      refine List.nodup_cons.mpr ⟨fun ha => ?_, ih hq⟩
      -- the part of the path from the second visit on would be as long as the whole path
      obtain ⟨ys, zs, rfl⟩ := List.append_of_mem ha
      obtain ⟨r, -, hr⟩ := path_append.mp hq
      obtain rfl : r = some a := hr.head
      have hlen := congrArg List.length
        (hr.unique (show Path nx h (some a) (a :: (ys ++ a :: zs)) none from ⟨rfl, c, hc, hq⟩))
      simp at hlen
      omega

/-- A write that leaves the successor of every listed cell alone leaves the path alone. -/
theorem Path.congr {p q : Option A} {xs : List A} (hp : Path nx h p xs q)
    (he : ∀ a ∈ xs, (h' a).map nx = (h a).map nx) : Path nx h' p xs q := by
  induction xs generalizing p with
  | nil => exact hp
  | cons a xs ih =>
      obtain ⟨rfl, c, hc, hq⟩ := hp
      have ha := he a List.mem_cons_self
      rw [hc, Option.map_some, Option.map_eq_some_iff] at ha
      obtain ⟨d, hd, hn⟩ := ha
      exact ⟨rfl, d, hd, hn ▸ ih hq fun b hb => he b (List.mem_cons_of_mem a hb)⟩

/-- Giving the last cell of a path another successor redirects the end of the path. -/
theorem Path.relink {p q : Option A} {xs : List A} {a : A} {d : β}
    (hp : Path nx h p (xs ++ [a]) q) (ha : h' a = some d)
    (he : ∀ b ∈ xs, (h' b).map nx = (h b).map nx) : Path nx h' p (xs ++ [a]) (nx d) := by
  obtain ⟨r, h₁, h₂⟩ := path_append.mp hp
  obtain rfl : r = some a := h₂.head
  exact (h₁.congr he).append ⟨rfl, d, ha, rfl⟩

/-- The successor of a listed cell is listed, or is where the path ends. -/
theorem Path.next {p q : Option A} {xs : List A} (hp : Path nx h p xs q) {a : A} (ha : a ∈ xs) :
    ∃ c, h a = some c ∧ (nx c = q ∨ ∃ b ∈ xs, nx c = some b) := by
  obtain ⟨ys, zs, rfl⟩ := List.append_of_mem ha
  obtain ⟨r, -, -, c, hc, hq⟩ := path_append.mp hp
  refine ⟨c, hc, ?_⟩
  cases zs with
  | nil => exact .inl hq
  | cons b zs => exact .inr ⟨b, by simp, hq.head⟩

/-- The cells of a path that ends inside itself are closed under taking the successor. -/
theorem Path.closed {p : Option A} {xs : List A} {e : A} (hp : Path nx h p xs (some e))
    (he : e ∈ xs) {a : A} (ha : a ∈ xs) : ∃ c, h a = some c ∧ ∃ b ∈ xs, nx c = some b := by
  obtain ⟨c, hc, hq | hb⟩ := hp.next ha
  · exact ⟨c, hc, e, he, hq⟩
  · exact ⟨c, hc, hb⟩

/-- A path that ends inside itself never meets the null pointer. -/
theorem Path.endless {p : Option A} {xs ys : List A} {e a : A} (hp : Path nx h p xs (some e))
    (he : e ∈ xs) (ha : a ∈ xs) : ¬ Path nx h (some a) ys none := by
  induction ys generalizing a with
  | nil => exact Option.some_ne_none a
  | cons b ys ih =>
      rintro ⟨hb, c, hc, hq⟩
      obtain rfl := Option.some.inj hb
      obtain ⟨c', hc', d, hd, hn⟩ := hp.closed he ha
      obtain rfl := Option.some.inj (hc.symm.trans hc')
      rw [hn] at hq
      exact ih hd hq

theorem Path.reaches {p q : Option A} {xs : List A} (hp : Path nx h p xs q) {a : A}
    (ha : a ∈ xs) : Reaches nx h p a := by
  induction xs generalizing p with
  | nil => cases ha
  | cons b xs ih =>
      obtain ⟨rfl, c, hc, hq⟩ := hp
      rcases List.mem_cons.mp ha with rfl | ha
      · exact .here hc
      · exact .step hc (ih hq ha)

/-- A path that ends in the null pointer or inside itself lists all that is reached. -/
theorem Path.reaches_iff {p q : Option A} {xs : List A} (hp : Path nx h p xs q)
    (hq : ∀ e, q = some e → e ∈ xs) {a : A} : Reaches nx h p a ↔ a ∈ xs := by
  refine ⟨fun hr => ?_, hp.reaches⟩
  have start : ∀ b, p = some b → b ∈ xs := by
    intro b hb
    cases xs with
    | nil => exact hq b (hp.symm.trans hb)
    | cons c xs => rw [Option.some.inj (hb.symm.trans hp.head)]; exact List.mem_cons_self
  have next : ∀ b c, b ∈ xs → h b = some c → ∀ d, nx c = some d → d ∈ xs := by
    intro b c hb hc d hd
    obtain ⟨c', hc', hn | ⟨e, he, hn⟩⟩ := hp.next hb
    all_goals obtain rfl := Option.some.inj (hc.symm.trans hc')
    · exact hq d (hn.symm.trans hd)
    · exact Option.some.inj (hd.symm.trans hn) ▸ he
  clear hp
  induction hr with
  | here hc => exact start _ rfl
  | step hc _ ih => exact ih (next _ _ (start _ rfl) hc)

end Linked
