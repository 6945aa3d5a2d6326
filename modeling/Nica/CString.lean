import Mathlib.Data.List.Basic
import Mathlib.Data.List.TakeWhile
import Mathlib.Data.UInt

/-! # Strings in blocks of memory

A block is the list of its characters.  An access outside of it has no result, so every operation
returns an `Option`; `none` says that some index was not below the length of the block.

* `write`, `readBefore`, `writeBefore` : one character.
* `streq`, `strchr`, `strdup` : the loops of the C library, which stop at the first NUL.

A block that shows the characters `l` has the form `l ++ 0 :: rest`; the lemmas say what each
operation does on such a block.  Characters of `l` may be NUL too: a string ends at the first one
(`chars`). -/

namespace CString

variable {α : Type}

/-! ### Single characters -/

/-- `b[i] = x`. -/
def write (b : List α) (i : ℕ) (x : α) : Option (List α) :=
  if i < b.length then some (b.set i x) else none

/-- The value of `b[r - 1]`. -/
def readBefore (b : List α) : ℕ → Option α
  | 0 => none
  | r + 1 => b[r]?

/-- `b[r - 1] = x`. -/
def writeBefore (b : List α) (r : ℕ) (x : α) : Option (List α) :=
  match r with
  | 0 => none
  | r + 1 => write b r x

variable {l rest : List α}

theorem write_at {b : List α} {i : ℕ} (hi : i < b.length) (x : α) :
    write b i x = some (b.take i ++ x :: b.drop (i + 1)) := by
  rw [write, if_pos hi, List.set_eq_take_append_cons_drop, if_pos hi]

/-- Writing at or directly behind the end of the characters shown. -/
theorem write_shown {i : ℕ} (hi : i ≤ l.length) (x y : α) (rest : List α) :
    ∃ rest', write (l ++ x :: rest) i y = some (l.take i ++ y :: rest') := by
  have hlt : i < (l ++ x :: rest).length := by
    rw [List.length_append, List.length_cons]
    omega
  rw [write_at hlt, List.take_append_of_le_length hi]
  exact ⟨_, rfl⟩

/-- The last of the characters shown. -/
theorem readBefore_shown (hl : l ≠ []) (rest : List α) :
    readBefore (l ++ rest) l.length = some (l.getLast hl) := by
  obtain ⟨l, x, rfl⟩ := (List.eq_nil_or_concat' l).resolve_left hl
  simp [readBefore]

/-- Cutting off the last of the characters shown. -/
theorem writeBefore_shown (hl : l ≠ []) (x y : α) (rest : List α) :
    ∃ rest', writeBefore (l ++ x :: rest) l.length y = some (l.dropLast ++ y :: rest') := by
  obtain ⟨l, z, rfl⟩ := (List.eq_nil_or_concat' l).resolve_left hl
  rw [List.length_append, List.length_singleton, writeBefore, List.dropLast_concat]
  obtain ⟨rest', h⟩ := write_shown (l := l ++ [z]) (i := l.length) (by simp) x y rest
  exact ⟨rest', by rw [h, List.take_left]⟩

/-! ### Strings -/

variable [DecidableEq α] [Zero α]

/-- The characters before the first NUL. -/
def chars (b : List α) : List α := b.takeWhile (· ≠ 0)

/-- `strcmp(b, s) == 0`. -/
def streq : List α → List α → Option Bool
  | [], _ => none
  | _ :: _, [] => none
  | x :: b, y :: s => if x ≠ y then some false else if x = 0 then some true else streq b s

/-- `strchr(b, c)` as an offset into `b`. -/
def strchr (c : α) : List α → Option (Option ℕ)
  | [] => none
  | x :: b =>
      if x = c then some (some 0)
      else if x = 0 then some none
      else (strchr c b).map (Option.map (· + 1))

/-- The string that starts at `b + i`. -/
def stringAt (b : List α) (i : ℕ) : Option (List α) :=
  if 0 ∈ b.drop i then some (chars (b.drop i)) else none

/-- `strdup(b + i)`: a new block, with no room behind the NUL. -/
def strdup (b : List α) (i : ℕ) : Option (List α) := (stringAt b i).map (· ++ [0])

@[simp] theorem chars_nil : chars ([] : List α) = [] := rfl

@[simp] theorem chars_zero : chars (0 :: l) = [] := by simp [chars]

theorem chars_cons {x : α} (hx : x ≠ 0) : chars (x :: l) = x :: chars l := by simp [chars, hx]

theorem chars_eq_self (h : 0 ∉ l) : chars l = l := by
  refine List.takeWhile_eq_self_iff.mpr fun x hx => decide_eq_true ?_
  rintro rfl
  exact h hx

theorem zero_notMem_chars (l : List α) : 0 ∉ chars l :=
  fun h => (by simpa using List.mem_takeWhile_imp h : (0 : α) ≠ 0) rfl

theorem chars_initial (l : List α) : chars l <+: l := List.takeWhile_prefix _

/-- The string is shorter than a list that has a NUL in it. -/
theorem length_chars_lt (h : 0 ∈ l) : (chars l).length < l.length := by
  refine lt_of_le_of_ne (chars_initial l).length_le fun he => ?_
  rw [← (chars_initial l).eq_of_length he] at h
  exact zero_notMem_chars l h

theorem chars_append (h : 0 ∉ l) (m : List α) : chars (l ++ m) = l ++ chars m := by
  refine List.takeWhile_append_of_pos fun x hx => decide_eq_true ?_
  rintro rfl
  exact h hx

@[simp] theorem chars_append_zero (l rest : List α) : chars (l ++ 0 :: rest) = chars l := by
  induction l with
  | nil => exact chars_zero
  | cons x l ih =>
      by_cases hx : x = 0
      · rw [hx, List.cons_append, chars_zero, chars_zero]
      · rw [List.cons_append, chars_cons hx, chars_cons hx, ih]

theorem streq_empty (l rest : List α) : streq (l ++ 0 :: rest) [0] = some (decide (chars l = [])) := by
  cases l with
  | nil => simp [streq]
  | cons x l =>
      by_cases hx : x = 0
      · simp [streq, hx]
      · simp [streq, hx, chars_cons hx]

theorem strchr_shown {c : α} (hc : c ≠ 0) (l rest : List α) :
    strchr c (l ++ 0 :: rest) =
      some (if c ∈ chars l then some ((chars l).takeWhile (· ≠ c)).length else none) := by
  induction l with
  | nil => simp [strchr, hc.symm]
  | cons x l ih =>
      rw [List.cons_append, strchr]
      by_cases hxc : x = c
      · rw [if_pos hxc, hxc, chars_cons hc]
        simp
      · rw [if_neg hxc]
        by_cases hx : x = 0
        · rw [if_pos hx, hx]
          simp
        · rw [if_neg hx, ih, chars_cons hx]
          by_cases hm : c ∈ chars l
          · simp [hm, hxc]
          · simp [hm, Ne.symm hxc]

theorem stringAt_shown {i : ℕ} (hi : i ≤ l.length) (rest : List α) :
    stringAt (l ++ 0 :: rest) i = some (chars (l.drop i)) := by
  rw [stringAt, List.drop_append_of_le_length hi, chars_append_zero, if_pos (by simp)]

theorem strdup_shown {i : ℕ} (hi : i ≤ l.length) (rest : List α) :
    strdup (l ++ 0 :: rest) i = some (chars (l.drop i) ++ [0]) := by
  rw [strdup, stringAt_shown hi, Option.map_some]

end CString
