import Mathlib.Data.List.DropRight
import Mathlib.Data.Nat.Notation

/-! # Both ends of a list

What `dropWhile` and `rdropWhile` do at an element that they do not drop, and the shape that a list
has at its end. -/

namespace Trimming

variable {α : Type} {p : α → Bool}

theorem rdropWhile_append_of_pos {d : List α} (l : List α) (hd : ∀ c ∈ d, p c = true) :
    (l ++ d).rdropWhile p = l.rdropWhile p := by
  induction d using List.reverseRecOn with
  | nil => rw [List.append_nil]
  | append_singleton d c ih =>
      rw [← List.append_assoc, List.rdropWhile_concat_pos _ _ _ (hd c (by simp))]
      exact ih fun c hc => hd c (by simp [hc])

theorem rdropWhile_append_of_ne_nil {m : List α} (l : List α) (hm : m.rdropWhile p ≠ []) :
    (l ++ m).rdropWhile p = l ++ m.rdropWhile p := by
  have hsplit : m.rdropWhile p ++ m.rtakeWhile p = m := List.rdropWhile_append_rtakeWhile
  have htail : ∀ c ∈ m.rtakeWhile p, p c = true := fun _ => List.mem_rtakeWhile_imp
  have hlast := List.rdropWhile_last_not p m hm
  conv_lhs => rw [← hsplit, ← List.append_assoc, rdropWhile_append_of_pos _ htail]
  refine List.rdropWhile_eq_self_iff.mpr fun hne => ?_
  rwa [List.getLast_append_of_ne_nil _ hm]

theorem rdropWhile_append_cons {c : α} (hc : ¬ p c = true) (l m : List α) :
    (l ++ c :: m).rdropWhile p = l ++ c :: m.rdropWhile p := by
  induction m using List.reverseRecOn with
  | nil => exact List.rdropWhile_concat_neg _ _ _ hc
  | append_singleton m d ih =>
      rw [← List.cons_append, ← List.append_assoc]
      by_cases hd : p d = true
      · rw [List.rdropWhile_concat_pos _ _ _ hd, List.rdropWhile_concat_pos _ _ _ hd, ih]
      · rw [List.rdropWhile_concat_neg _ _ _ hd, List.rdropWhile_concat_neg _ _ _ hd,
          List.append_assoc, List.cons_append]

theorem dropWhile_append_cons {c : α} (hc : ¬ p c = true) (l m : List α) :
    (l ++ c :: m).dropWhile p = l.dropWhile p ++ c :: m := by
  rw [List.dropWhile_append, List.dropWhile_cons_of_neg hc]
  cases l.dropWhile p <;> rfl

section replicate
variable {a : α}

/-- The last place of `a`. -/
theorem split_last {l : List α} (h : a ∈ l) : ∃ r t, l = r ++ a :: t ∧ a ∉ t := by
  obtain ⟨u, v, huv, hu⟩ := List.eq_append_cons_of_mem (List.mem_reverse.mpr h)
  refine ⟨v.reverse, u.reverse, ?_, fun hm => hu (List.mem_reverse.mp hm)⟩
  rw [← List.reverse_reverse l, huv]
  simp

theorem getElem?_copies {j n : ℕ} (hj : j < n) (u t : List α) :
    (u ++ (List.replicate n a ++ t))[u.length + j]? = some a := by
  rw [List.getElem?_append_right (Nat.le_add_right _ _), Nat.add_sub_cancel_left,
    List.getElem?_append_left (by simpa using hj), List.getElem?_replicate, if_pos hj]

variable [DecidableEq α]

/-- A list ends in copies of `a`, and something else stands before them. -/
theorem copies_or_last (a : α) (l : List α) : ∃ n, l = List.replicate n a ∨
    ∃ w c, c ≠ a ∧ l = w ++ c :: List.replicate n a := by
  induction l using List.reverseRecOn with
  | nil => exact ⟨0, .inl rfl⟩
  | append_singleton l c ih =>
      by_cases hc : c = a
      · obtain ⟨n, h⟩ := ih
        refine ⟨n + 1, ?_⟩
        cases h with
        | inl h =>
            left
            rw [h, hc, List.replicate_succ']
        | inr h =>
            obtain ⟨w, d, hd, rfl⟩ := h
            exact .inr ⟨w, d, hd, by rw [hc, List.replicate_succ', List.append_assoc]; rfl⟩
      · exact ⟨0, .inr ⟨l, c, hc, rfl⟩⟩

/-- A list starts with copies of `a`, and something else stands behind them. -/
theorem copies_or_first (a : α) (l : List α) : ∃ n, l = List.replicate n a ∨
    ∃ c t, c ≠ a ∧ l = List.replicate n a ++ c :: t := by
  obtain ⟨n, h⟩ := copies_or_last a l.reverse
  refine ⟨n, ?_⟩
  cases h with
  | inl h =>
      left
      rw [← List.reverse_reverse l, h, List.reverse_replicate]
  | inr h =>
      obtain ⟨w, c, hc, h⟩ := h
      refine .inr ⟨c, w.reverse, hc, ?_⟩
      rw [← List.reverse_reverse l, h]
      simp

theorem dropWhile_copies (n : ℕ) (l : List α) :
    (List.replicate n a ++ l).dropWhile (· = a) = l.dropWhile (· = a) := by
  apply List.dropWhile_append_of_pos
  intro c hc
  exact decide_eq_true (List.eq_of_mem_replicate hc)

theorem rdropWhile_copies (n : ℕ) (l : List α) :
    (l ++ List.replicate n a).rdropWhile (· = a) = l.rdropWhile (· = a) := by
  apply rdropWhile_append_of_pos
  intro c hc
  exact decide_eq_true (List.eq_of_mem_replicate hc)

end replicate

end Trimming
