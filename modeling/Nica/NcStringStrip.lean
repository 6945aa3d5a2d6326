import Nica.NcString
import Nica.Trimming

/-! # Stripping a string

The first loop of `nc_string_strip` stops at the first character that is not a space, the second at
the last one, but only strictly behind the place of the first: a text with a single such character is
left as it is behind it.  So the C string returned is the text without the spaces at both ends unless
it is one character with spaces behind it (`strip_right_iff`). -/

namespace Nica

open CString Trimming

/-! ### The two loops -/

theorem stripFront_spaces {str : Bytes} {m n i : ℕ} (h : ∀ j < m, str[i + j]? = some 32) :
    stripFront str (m + n) i = stripFront str n (i + m) := by
  induction m generalizing i with
  | zero => rw [Nat.zero_add, Nat.add_zero]
  | succ m ih =>
      have h0 : str[i]? = some 32 := h 0 (Nat.succ_pos m)
      have hrest : ∀ j < m, str[i + 1 + j]? = some 32 := by
        intro j hj
        rw [Nat.add_assoc, Nat.add_comm 1 j]
        exact h (j + 1) (by omega)
      rw [show m + 1 + n = m + n + 1 by omega, show i + (m + 1) = i + 1 + m by omega, ← ih hrest]
      simp [stripFront, h0]

theorem stripFront_stop {str : Bytes} {i : ℕ} {c : UInt8} (h : str[i]? = some c) (hc : c ≠ 32)
    (n : ℕ) : stripFront str (n + 1) i = some i := by
  rw [stripFront, h]
  exact if_pos hc

/-- The second loop does not run when nothing stands behind the place of the first. -/
theorem stripBack_low {str : Bytes} {i n : ℕ} (h : n ≤ i + 1) : stripBack str i n = some str := by
  cases n with
  | zero => rfl
  | succ j =>
      rw [stripBack]
      exact if_neg (by omega)

theorem stripBack_spaces {str : Bytes} {i k m : ℕ} (h : ∀ j < m, str[k + j]? = some 32) :
    stripBack str i (k + m) = stripBack str i k := by
  induction m with
  | zero => rfl
  | succ m ih =>
      have hm : str[k + m]? = some 32 := h m (Nat.lt_succ_self m)
      rw [← ih fun j hj => h j (by omega), ← Nat.add_assoc, stripBack, hm]
      by_cases hi : k + m > i
      · rw [if_pos hi]
        rfl
      · rw [if_neg hi, stripBack_low (by omega)]

theorem stripBack_stop {str : Bytes} {i j : ℕ} {c : UInt8} (h : str[j]? = some c) (hc : c ≠ 32)
    (hj : i < j) : stripBack str i (j + 1) = write str (j + 1) 0 := by
  rw [stripBack, if_pos hj, h]
  exact if_pos hc

/-! ### The three kinds of texts -/

/-- A text of spaces. -/
def spaces (n : ℕ) : Bytes := List.replicate n 32

@[simp] theorem length_spaces (n : ℕ) : (spaces n).length = n := List.length_replicate

theorem dropWhile_spaces (n : ℕ) (l : Bytes) :
    (spaces n ++ l).dropWhile (· = 32) = l.dropWhile (· = 32) := dropWhile_copies n l

theorem rdropWhile_spaces (n : ℕ) (l : Bytes) :
    (l ++ spaces n).rdropWhile (· = 32) = l.rdropWhile (· = 32) := rdropWhile_copies n l

/-- A text of spaces, with one other character, or with a first and a last one. -/
theorem text_cases (l : Bytes) :
    (∃ n, l = spaces n) ∨
    (∃ m c n, c ≠ 32 ∧ l = spaces m ++ c :: spaces n) ∨
    ∃ m b w c n, b ≠ 32 ∧ c ≠ 32 ∧
      l = spaces m ++ b :: (w ++ c :: spaces n) := by
  obtain ⟨m, h⟩ := copies_or_first 32 l
  cases h with
  | inl h => exact .inl ⟨m, h⟩
  | inr h =>
      right
      obtain ⟨b, t, hb, rfl⟩ := h
      obtain ⟨n, h⟩ := copies_or_last 32 t
      cases h with
      | inl h => exact .inl ⟨m, b, n, hb, by rw [h]; rfl⟩
      | inr h =>
          obtain ⟨w, c, hc, rfl⟩ := h
          exact .inr ⟨m, b, w, c, n, hb, hc, rfl⟩

/-- The text without the spaces at both ends. -/
def stripped (l : Bytes) : Bytes := (l.dropWhile (· = 32)).rdropWhile (· = 32)

theorem stripped_spaces (n : ℕ) : stripped (spaces n) = [] := by
  have h := dropWhile_spaces n []
  rw [List.append_nil] at h
  rw [stripped, h]
  rfl

theorem stripped_single {c : UInt8} (hc : c ≠ 32) (m n : ℕ) :
    stripped (spaces m ++ c :: spaces n) = [c] := by
  rw [stripped, dropWhile_spaces, List.dropWhile_cons_of_neg (by simpa using hc),
    ← List.singleton_append, rdropWhile_spaces, List.rdropWhile_singleton, if_neg (by simpa using hc)]

theorem stripped_text {b c : UInt8} (hb : b ≠ 32) (hc : c ≠ 32) (m n : ℕ) (w : Bytes) :
    stripped (spaces m ++ b :: (w ++ c :: spaces n)) = b :: (w ++ [c]) := by
  rw [stripped, dropWhile_spaces, List.dropWhile_cons_of_neg (by simpa using hb),
    List.append_cons, ← List.cons_append, rdropWhile_spaces, ← List.cons_append]
  exact List.rdropWhile_concat_neg _ _ _ (by simpa using hc)

/-! ### The whole function -/

/-- The two loops on the block of a text. -/
theorem strip_loops {l rest str : Bytes} {i : ℕ}
    (hfront : stripFront (l ++ 0 :: rest) l.length 0 = some i)
    (hback : stripBack (l ++ 0 :: rest) i l.length = some str) :
    ncStringStrip ⟨some (l ++ 0 :: rest), l.length⟩ = some (some i, ⟨some str, l.length⟩) := by
  simp only [ncStringStrip, Int.toNat_natCast, hfront, hback, Option.bind_eq_bind, Option.bind_some]

/-- The first loop on a text with another character than a space. -/
theorem stripFront_text {c : UInt8} (hc : c ≠ 32) (m : ℕ) (t rest : Bytes) :
    stripFront ((spaces m ++ c :: t) ++ 0 :: rest) (spaces m ++ c :: t).length 0 =
      some m := by
  have hlen : (spaces m ++ c :: t).length = m + (t.length + 1) := by simp
  rw [hlen, List.append_assoc, stripFront_spaces, Nat.zero_add]
  · apply stripFront_stop _ hc
    simp
  · intro j hj
    exact getElem?_copies hj [] _

/-- The second loop passes over the spaces at the end. -/
theorem stripBack_end (i n : ℕ) (u rest : Bytes) :
    stripBack ((u ++ spaces n) ++ 0 :: rest) i (u ++ spaces n).length =
      stripBack ((u ++ spaces n) ++ 0 :: rest) i u.length := by
  rw [List.length_append, length_spaces, List.append_assoc]
  exact stripBack_spaces fun j hj => getElem?_copies hj u _

/-- The second loop on a text with a last character behind the place of the first loop. -/
theorem stripBack_text {i : ℕ} {c : UInt8} {u : Bytes} (hc : c ≠ 32) (hi : i < u.length) (n : ℕ)
    (rest : Bytes) :
    stripBack (((u ++ [c]) ++ spaces n) ++ 0 :: rest) i
        ((u ++ [c]) ++ spaces n).length =
      some ((u ++ [c]) ++ 0 :: ((spaces n ++ [0]).tail ++ rest)) := by
  have hlast : (((u ++ [c]) ++ spaces n) ++ 0 :: rest)[u.length]? = some c := by simp
  have htail : (spaces n ++ 0 :: rest).drop 1 = (spaces n ++ [0]).tail ++ rest := by
    cases n <;> simp [spaces, List.replicate_succ]
  have hlen : (u ++ [c]).length = u.length + 1 := by simp
  have hbound : u.length + 1 < ((u ++ [c]) ++ (spaces n ++ 0 :: rest)).length := by
    simp only [List.length_append, List.length_cons, List.length_nil]
    omega
  rw [stripBack_end, hlen, stripBack_stop hlast hc hi, List.append_assoc (u ++ [c]),
    write_at hbound]
  rw [← hlen, List.take_left, ← List.drop_drop, List.drop_left, htail]

theorem strip_spaces (n : ℕ) (rest : Bytes) :
    ncStringStrip ⟨some (spaces n ++ 0 :: rest), (spaces n).length⟩ =
      some (some n, ⟨some (spaces n ++ 0 :: rest),
        (spaces n).length⟩) := by
  apply strip_loops
  · have hfront : stripFront (spaces n ++ 0 :: rest) (n + 0) 0 =
        stripFront (spaces n ++ 0 :: rest) 0 (0 + n) :=
      stripFront_spaces fun j hj => getElem?_copies hj [] _
    rw [Nat.add_zero, Nat.zero_add] at hfront
    rw [length_spaces, hfront, stripFront]
  · apply stripBack_low
    simp

/-- A single character is left with the spaces behind it. -/
theorem strip_single {c : UInt8} (hc : c ≠ 32) (m n : ℕ) (rest : Bytes) :
    ncStringStrip ⟨some ((spaces m ++ c :: spaces n) ++ 0 :: rest),
        (spaces m ++ c :: spaces n).length⟩ =
      some (some m, ⟨some ((spaces m ++ c :: spaces n) ++ 0 :: rest),
        (spaces m ++ c :: spaces n).length⟩) := by
  apply strip_loops (stripFront_text hc m _ rest)
  rw [List.append_cons (spaces m), stripBack_end]
  apply stripBack_low
  simp

/-- A text with a first and a last character other than a space gets a NUL behind the last. -/
theorem strip_text {b c : UInt8} (hb : b ≠ 32) (hc : c ≠ 32) (m n : ℕ) (w rest : Bytes) :
    ncStringStrip ⟨some ((spaces m ++ b :: (w ++ c :: spaces n)) ++ 0 :: rest),
        (spaces m ++ b :: (w ++ c :: spaces n)).length⟩ =
      some (some m, ⟨some ((spaces m ++ b :: (w ++ [c])) ++
          0 :: ((spaces n ++ [0]).tail ++ rest)),
        (spaces m ++ b :: (w ++ c :: spaces n)).length⟩) := by
  apply strip_loops (stripFront_text hb m _ rest)
  have hm : m < (spaces m ++ b :: w).length := by simp
  have h := stripBack_text hc hm n rest
  simpa using h

/-! ### What a strip is for -/

/-- The string that shows `l` is stripped: the C string at the pointer returned is the text without
the spaces at both ends, no character behind the NUL of `l` is read or written, and stripping the
result changes nothing. -/
def StripsRight (l rest : Bytes) : Prop :=
  ∃ i str r, ncStringStrip ⟨some (l ++ 0 :: rest), l.length⟩ =
      some (some i, ⟨some (str ++ rest), l.length⟩) ∧
    ncStringStrip ⟨some (l ++ [0]), l.length⟩ = some (some i, ⟨some str, l.length⟩) ∧
    stringAt (str ++ rest) i = some r ∧ r = stripped l ∧
    ∀ rest', ncStringStrip ⟨some (r ++ 0 :: rest'), r.length⟩ =
      some (some 0, ⟨some (r ++ 0 :: rest'), r.length⟩)

/-- A single character that is not a space, with spaces behind it. -/
def LoneCharacter (l : Bytes) : Prop :=
  ∃ m c n, c ≠ 32 ∧ l = spaces m ++ c :: spaces (n + 1)

/-- Stripping a stripped text changes nothing. -/
theorem strip_stripped (l rest : Bytes) :
    ncStringStrip ⟨some (stripped l ++ 0 :: rest), (stripped l).length⟩ =
      some (some 0, ⟨some (stripped l ++ 0 :: rest), (stripped l).length⟩) := by
  obtain ⟨n, rfl⟩ | ⟨m, c, n, hc, rfl⟩ | ⟨m, b, w, c, n, hb, hc, rfl⟩ := text_cases l
  · rw [stripped_spaces]
    exact strip_spaces 0 rest
  · rw [stripped_single hc]
    exact strip_single hc 0 0 rest
  · rw [stripped_text hb hc]
    exact strip_text hb hc 0 0 w rest

/-- The C string behind `m` spaces. -/
theorem stringAt_spaces {t : Bytes} (h0 : 0 ∉ t) (m : ℕ) (rest : Bytes) :
    stringAt ((spaces m ++ t) ++ 0 :: rest) m = some t := by
  have hm : m ≤ (spaces m ++ t).length := by simp
  have hdrop : (spaces m ++ t).drop m = t := List.drop_left' (length_spaces m)
  rw [stringAt_shown hm, hdrop, chars_eq_self h0]

/-- A text that no NUL is written behind. -/
theorem strips_right_unchanged {l rest : Bytes} {i : ℕ}
    (hstrip : ∀ rest, ncStringStrip ⟨some (l ++ 0 :: rest), l.length⟩ =
      some (some i, ⟨some (l ++ 0 :: rest), l.length⟩))
    (hr : stringAt (l ++ 0 :: rest) i = some (stripped l)) : StripsRight l rest := by
  refine ⟨i, l ++ [0], stripped l, ?_, hstrip [], ?_, rfl, strip_stripped l⟩
  · rw [List.append_assoc]
    exact hstrip rest
  · rw [List.append_assoc]
    exact hr

/-- For every string whose length is that of its text, `nc_string_strip` does what it is for exactly
when the text is not a single character with spaces behind it. -/
theorem strip_right_iff {l : Bytes} (h0 : 0 ∉ l) (rest : Bytes) :
    StripsRight l rest ↔ ¬ LoneCharacter l := by
  constructor
  · rintro ⟨i, str, r, hstrip, -, hr, rfl, -⟩ ⟨m, c, n, hc, rfl⟩
    have hsame := hstrip.symm.trans (strip_single hc m (n + 1) rest)
    simp only [Option.some.injEq, Prod.mk.injEq, NcString.mk.injEq] at hsame
    obtain ⟨rfl, hstr, -⟩ := hsame
    have h0t : 0 ∉ c :: spaces (n + 1) := fun h => h0 (List.mem_append_right _ h)
    rw [hstr, stringAt_spaces h0t, stripped_single hc] at hr
    have hlen := congrArg List.length (Option.some.inj hr)
    simp at hlen
  · intro hno
    obtain ⟨n, rfl⟩ | ⟨m, c, n, hc, rfl⟩ | ⟨m, b, w, c, n, hb, hc, rfl⟩ := text_cases l
    · apply strips_right_unchanged (strip_spaces n)
      have h := stringAt_spaces (t := []) List.not_mem_nil n rest
      rwa [List.append_nil, ← stripped_spaces n] at h
    · -- there are no spaces behind a single character
      have hn : n = 0 := by
        by_contra hn
        obtain ⟨k, rfl⟩ := Nat.exists_eq_succ_of_ne_zero hn
        exact hno ⟨m, c, k, hc, rfl⟩
      subst hn
      apply strips_right_unchanged (strip_single hc m 0)
      rw [stripped_single hc]
      exact stringAt_spaces (fun h => h0 (List.mem_append_right _ h)) m rest
    · have h0t : 0 ∉ b :: (w ++ [c]) := by
        intro h
        apply h0
        simp only [List.mem_append, List.mem_cons] at h ⊢
        tauto
      refine ⟨m, (spaces m ++ (b :: (w ++ [c]))) ++ 0 :: (spaces n ++ [0]).tail, _, ?_, ?_, ?_,
        rfl, strip_stripped _⟩
      · have h := strip_text hb hc m n w rest
        simpa using h
      · have h := strip_text hb hc m n w []
        simpa using h
      · rw [stripped_text hb hc, List.append_assoc]
        exact stringAt_spaces h0t m _

/-- The text ` ab `. -/
theorem strip_right_padded : ∃ str,
    ncStringStrip ⟨some [32, 97, 98, 32, 0], 4⟩ = some (some 1, ⟨some str, 4⟩) ∧
    stringAt str 1 = some [97, 98] ∧ StripsRight [32, 97, 98, 32] [] := by
  refine ⟨[32, 97, 98, 0, 0], by decide, by decide, ?_⟩
  apply (strip_right_iff (by decide) []).mpr
  rintro ⟨m, c, n, hc, h⟩
  have hlen : (stripped [32, 97, 98, 32]).length = 2 := by decide
  rw [h, stripped_single hc] at hlen
  cases hlen

/-- The text `a ` keeps its space. -/
theorem strip_keeps_space : ncStringStrip ⟨some [97, 32, 0], 2⟩ =
      some (some 0, ⟨some [97, 32, 0], 2⟩) ∧
    stripped [97, 32] = [97] ∧ ¬ StripsRight [97, 32] [] := by
  have hstrip : ncStringStrip ⟨some [97, 32, 0], 2⟩ = some (some 0, ⟨some [97, 32, 0], 2⟩) := by
    decide
  refine ⟨hstrip, by decide, ?_⟩
  rintro ⟨i, str, r, h, -, hr, rfl, -⟩
  have hsame := h.symm.trans hstrip
  simp only [Option.some.injEq, Prod.mk.injEq, NcString.mk.injEq] at hsame
  obtain ⟨rfl, hstr, -⟩ := hsame
  rw [hstr] at hr
  revert hr
  decide

end Nica
