import Nica.Pointers
import Nica.CString

/-! # The string

`nc_string_dup`, `nc_string_cat` and `nc_string_strip` on blocks of memory; `none` is an access
outside of the block that holds a string at that moment.

A string keeps its length beside the terminating NUL of its block.  `nc_string_strip` writes a NUL and
leaves `len` alone, so `len` is the size of the block less one but not always the length of the C
string in it (`Sized`).  `nc_string_cat` takes a new length below `len` for a failure, so after a
strip it refuses what does not make up for the characters cut off (`cat_right_iff`). -/

namespace Nica

open CString

structure NcString where
  str : Option Bytes
  len : ℤ
deriving DecidableEq

/-- `asprintf` of the characters `text`: the new block, and the number of characters or −1. -/
def asprintf (granted : Bool) (text : Bytes) : Option Bytes × ℤ :=
  if granted && decide (text.length ≤ intMax) then (some (text ++ [0]), text.length) else (none, -1)

/-- `nc_string_dup`; the first allocation is the string itself, the second its block. -/
def ncStringDup (calloc granted : Bool) (str : Option Bytes) : Option (Option NcString) :=
  match str with
  | none => some none
  | some str =>
      if calloc then do
        let text ← stringAt str 0
        let (p, len) := asprintf granted text
        if len < 0 ∨ p = none then some none else some (some ⟨p, len⟩)
      else some none

def ncStringCat (granted : Bool) (s : NcString) (append : Option Bytes) :
    Option (Bool × NcString) :=
  match append, s.str with
  | none, _ => some (false, s)
  | some _, none => some (false, s)
  | some append, some str => do
      let text ← stringAt str 0
      let more ← stringAt append 0
      let (p, len) := asprintf granted (text ++ more)
      if p = none ∨ len < s.len then some (false, s) else some (true, ⟨p, len⟩)

/-- The first loop of `nc_string_strip`, with the rounds left and `i`. -/
def stripFront (str : Bytes) : ℕ → ℕ → Option ℕ
  | 0, i => some i
  | n + 1, i =>
      match str[i]? with
      | none => none
      | some c => if c ≠ 32 then some i else stripFront str n (i + 1)

/-- The second loop of `nc_string_strip`, with `j + 1`. -/
def stripBack (str : Bytes) (i : ℕ) : ℕ → Option Bytes
  | 0 => some str
  | j + 1 =>
      if j > i then
        match str[j]? with
        | none => none
        | some c => if c ≠ 32 then write str (j + 1) 0 else stripBack str i j
      else some str

/-- `nc_string_strip`: the pointer it returns, as an offset into the block, and the string. -/
def ncStringStrip (s : NcString) : Option (Option ℕ × NcString) :=
  match s.str with
  | none => some (none, s)
  | some str => do
      let i ← stripFront str s.len.toNat 0
      let str ← stripBack str i s.len.toNat
      some (some i, { s with str := some str })

/-! ### What every call keeps -/

/-- The block has `len` characters and a NUL behind them. -/
structure Sized (s : NcString) (str : Bytes) : Prop where
  block : s.str = some str
  len : (str.length : ℤ) = s.len + 1
  nul : str.getLast? = some 0

theorem asprintf_granted {text : Bytes} (h : text.length ≤ intMax) :
    asprintf true text = (some (text ++ [0]), (text.length : ℤ)) := by simp [asprintf, h]

theorem asprintf_sized {granted : Bool} {text p : Bytes} {len : ℤ}
    (h : asprintf granted text = (some p, len)) : Sized ⟨some p, len⟩ p := by
  unfold asprintf at h
  split_ifs at h
  · obtain ⟨hp, rfl⟩ := Prod.mk.inj h
    obtain rfl := Option.some.inj hp
    exact ⟨rfl, by simp, by simp⟩
  · cases (Prod.mk.inj h).1

theorem Sized.zero_mem {s : NcString} {str : Bytes} (S : Sized s str) : 0 ∈ str :=
  List.mem_of_getLast? S.nul

theorem stringAt_zero {str : Bytes} (h : 0 ∈ str) : stringAt str 0 = some (chars str) := if_pos h

theorem stripFront_le {str : Bytes} {n i : ℕ} (h : i + n ≤ str.length) :
    ∃ k, stripFront str n i = some k ∧ k ≤ i + n := by
  induction n generalizing i with
  | zero => exact ⟨i, rfl, Nat.le_refl _⟩
  | succ n ih =>
      have hi : i < str.length := by omega
      rw [stripFront, List.getElem?_eq_getElem hi]
      by_cases hc : str[i] ≠ 32
      · exact ⟨i, if_pos hc, by omega⟩
      · obtain ⟨k, hk, hle⟩ := ih (i := i + 1) (by omega)
        exact ⟨k, (if_neg hc).trans hk, by omega⟩

/-- The second loop keeps the size of the block and its last NUL. -/
theorem stripBack_sized {str : Bytes} {i n : ℕ} (hn : n < str.length) (hlast : str.getLast? = some 0) :
    ∃ str', stripBack str i n = some str' ∧ str'.length = str.length ∧
      str'.getLast? = some 0 := by
  induction n with
  | zero => exact ⟨str, rfl, rfl, hlast⟩
  | succ j ih =>
      rw [stripBack]
      by_cases hj : j > i
      · rw [if_pos hj, List.getElem?_eq_getElem (by omega)]
        by_cases hc : str[j] ≠ 32
        · refine ⟨str.set (j + 1) 0, ?_, List.length_set, ?_⟩
          · exact (if_pos hc).trans (if_pos hn)
          · rw [List.getLast?_eq_getElem?, List.length_set, List.getElem?_set,
              ← List.getLast?_eq_getElem?, hlast]
            split_ifs <;> rfl
        · obtain ⟨str', h, hrest⟩ := ih (by omega)
          exact ⟨str', (if_neg hc).trans h, hrest⟩
      · exact ⟨str, if_neg hj, rfl, hlast⟩

theorem ncStringDup_sized {str : Bytes} (h : 0 ∈ str) (hint : (chars str).length ≤ intMax) :
    ∃ s, ncStringDup true true (some str) = some (some s) ∧ Sized s (chars str ++ [0]) ∧
      s.len = (chars str).length := by
  have hp := asprintf_granted hint
  refine ⟨_, ?_, asprintf_sized hp, rfl⟩
  rw [ncStringDup, if_pos rfl, stringAt_zero h, Option.bind_eq_bind, Option.bind_some, hp]
  exact if_neg (by simp)

/-- A strip keeps the size of the block and its last NUL, and reads and writes nothing outside of
it. -/
theorem Sized.strip {s : NcString} {str : Bytes} (S : Sized s str) :
    ∃ i str' s', ncStringStrip s = some (some i, s') ∧ Sized s' str' ∧ s'.len = s.len := by
  have hlen := S.len
  have hpos := List.length_pos_of_mem S.zero_mem
  have hn : s.len.toNat < str.length := by omega
  obtain ⟨i, hi, -⟩ : ∃ i, stripFront str s.len.toNat 0 = some i ∧ i ≤ 0 + s.len.toNat :=
    stripFront_le (by omega)
  obtain ⟨str', hback, hsize, hlast⟩ := stripBack_sized (i := i) hn S.nul
  refine ⟨i, str', { s with str := some str' }, ?_, ⟨rfl, by rw [hsize]; exact hlen, hlast⟩, rfl⟩
  simp only [ncStringStrip, S.block, hi, hback, Option.bind_eq_bind, Option.bind_some]

/-- An append is refused when the new length is below `len`. -/
theorem Sized.cat {s : NcString} {str : Bytes} (S : Sized s str) {t : Bytes} (ht : 0 ∈ t)
    (hint : (chars str ++ chars t).length ≤ intMax) :
    ncStringCat true s (some t) =
      if ((chars str ++ chars t).length : ℤ) < s.len then some (false, s)
      else some (true,
        ⟨some (chars str ++ chars t ++ [0]), (chars str ++ chars t).length⟩) := by
  simp only [ncStringCat, S.block, stringAt_zero S.zero_mem, stringAt_zero ht, Option.bind_eq_bind,
    Option.bind_some, asprintf_granted hint, reduceCtorEq, false_or]

/-- An append whose result is longer than an `int` can say. -/
theorem Sized.cat_long {s : NcString} {str : Bytes} (S : Sized s str) {t : Bytes} (ht : 0 ∈ t)
    (hint : intMax < (chars str ++ chars t).length) :
    ncStringCat true s (some t) = some (false, s) := by
  have hp : asprintf true (chars str ++ chars t) = (none, -1) := by
    simp only [asprintf, Bool.true_and, decide_eq_true_eq, if_neg (Nat.not_le.mpr hint)]
  simp only [ncStringCat, S.block, stringAt_zero S.zero_mem, stringAt_zero ht, Option.bind_eq_bind,
    Option.bind_some, hp, true_or, if_true]

/-! ### Sequences of calls -/

inductive StringOp where
  | cat (append : Option Bytes)
  | strip

/-- What is appended is NULL or the block of a C string. -/
def StringOp.Valid (op : StringOp) : Prop := ∀ t, op = .cat (some t) → 0 ∈ t

def stringCall (s : NcString) : StringOp → Option NcString
  | .cat append => (ncStringCat true s append).map Prod.snd
  | .strip => (ncStringStrip s).map Prod.snd

/-- The string after the calls, one after the other. -/
def stringCalls (s : NcString) : List StringOp → Option NcString
  | [] => some s
  | op :: ops => (stringCall s op).bind fun s' => stringCalls s' ops

/-- The C string held in `s->str`. -/
def content (s : NcString) : Bytes := chars (s.str.getD [])

/-- `nc_string_cat` appends the C string at `t`, and `len` is then the length. -/
def Appends (s : NcString) (t : Bytes) : Prop :=
  ∃ s', ncStringCat true s (some t) = some (true, s') ∧ content s' = content s ++ chars t ∧
    s'.len = (content s').length

theorem Sized.call {s : NcString} {str : Bytes} (S : Sized s str) {op : StringOp} (hop : op.Valid) :
    ∃ s' str', stringCall s op = some s' ∧ Sized s' str' := by
  cases op with
  | strip =>
      obtain ⟨i, str', s', h, S', -⟩ := S.strip
      exact ⟨s', str', by rw [stringCall, h]; rfl, S'⟩
  | cat append =>
      cases append with
      | none => exact ⟨s, str, rfl, S⟩
      | some t =>
          have ht := hop t rfl
          by_cases hint : (chars str ++ chars t).length ≤ intMax
          · rw [stringCall, S.cat ht hint]
            split_ifs
            · exact ⟨s, str, rfl, S⟩
            · exact ⟨_, _, rfl, asprintf_sized (asprintf_granted hint)⟩
          · rw [stringCall, S.cat_long ht (Nat.lt_of_not_le hint)]
            exact ⟨s, str, rfl, S⟩

theorem Sized.calls {s : NcString} {str : Bytes} (S : Sized s str) {ops : List StringOp}
    (hops : ∀ op ∈ ops, op.Valid) : ∃ s' str', stringCalls s ops = some s' ∧ Sized s' str' := by
  induction ops generalizing s str with
  | nil => exact ⟨s, str, rfl, S⟩
  | cons op ops ih =>
      obtain ⟨s₁, str₁, h₁, S₁⟩ := S.call (hops op List.mem_cons_self)
      obtain ⟨s', str', h, S'⟩ := ih S₁ fun o ho => hops o (List.mem_cons_of_mem op ho)
      exact ⟨s', str', by rw [stringCalls, h₁]; exact h, S'⟩

theorem content_joined (a b : Bytes) (len : ℤ) :
    content ⟨some (chars a ++ chars b ++ [0]), len⟩ = chars a ++ chars b := by
  rw [content, Option.getD_some, chars_append_zero, chars_eq_self]
  rw [List.mem_append, not_or]
  exact ⟨zero_notMem_chars a, zero_notMem_chars b⟩

/-- After any calls on a string made by `nc_string_dup`, `nc_string_cat` appends a text exactly when
the new length is at least the recorded one. -/
theorem cat_right_iff {str : Bytes} (hstr : 0 ∈ str) (hlen : (chars str).length ≤ intMax)
    {ops : List StringOp} (hops : ∀ op ∈ ops, op.Valid) :
    ∃ s₀ s, ncStringDup true true (some str) = some (some s₀) ∧ stringCalls s₀ ops = some s ∧
      ∀ t : Bytes, 0 ∈ t → (content s).length + (chars t).length ≤ intMax →
        (Appends s t ↔ s.len ≤ (content s).length + (chars t).length) := by
  obtain ⟨s₀, hdup, S₀, -⟩ := ncStringDup_sized hstr hlen
  obtain ⟨s, held, hcalls, S⟩ := S₀.calls hops
  have hheld : content s = chars held := by rw [content, S.block, Option.getD_some]
  refine ⟨s₀, s, hdup, hcalls, fun t ht hint => ?_⟩
  rw [hheld, ← List.length_append] at hint
  unfold Appends
  rw [hheld, S.cat ht hint]
  have hsum : ((chars held ++ chars t).length : ℤ) = (chars held).length + (chars t).length := by
    rw [List.length_append]
    push_cast
    rfl
  by_cases hless : ((chars held ++ chars t).length : ℤ) < s.len
  · rw [if_pos hless]
    refine iff_of_false ?_ (by omega)
    rintro ⟨s', h, -⟩
    cases (Prod.mk.inj (Option.some.inj h)).1
  · rw [if_neg hless]
    refine iff_of_true ⟨_, rfl, content_joined held t _, ?_⟩ (by omega)
    rw [content_joined]

/-- A blank is appended to `ab` and a blank, then the string is stripped: it holds `ab` with the length
4, so two characters can be appended and one cannot. -/
theorem cat_right_stripped : ∃ s₀ s : NcString,
    ncStringDup true true (some [97, 98, 32, 0]) = some (some s₀) ∧
    stringCalls s₀ [.cat (some [32, 0]), .strip] = some s ∧ content s = [97, 98] ∧ s.len = 4 ∧
    Appends s [120, 121, 0] ∧ ¬ Appends s [120, 0] := by
  have hops : ∀ op ∈ [StringOp.cat (some [32, 0]), .strip], op.Valid := by
    rintro op hop t rfl
    rcases List.mem_pair.mp hop with h | h
    · cases h
      decide
    · cases h
  have hstr : (0 : UInt8) ∈ ([97, 98, 32, 0] : Bytes) := by decide
  obtain ⟨s₀, s, hdup, hcalls, hcat⟩ := cat_right_iff hstr (by decide) hops
  have hs₀ : ncStringDup true true (some [97, 98, 32, 0]) = some (some ⟨some [97, 98, 32, 0], 3⟩) := by
    decide
  obtain rfl := Option.some.inj (Option.some.inj (hdup.symm.trans hs₀))
  have hs : stringCalls ⟨some [97, 98, 32, 0], 3⟩ [.cat (some [32, 0]), .strip] =
      some ⟨some [97, 98, 0, 32, 0], 4⟩ := by decide
  obtain rfl := Option.some.inj (hcalls.symm.trans hs)
  exact ⟨_, _, hdup, hcalls, by decide, rfl, (hcat _ (by decide) (by decide)).mpr (by decide),
    fun h => absurd ((hcat _ (by decide) (by decide)).mp h) (by decide)⟩

/-- The string `ab` with two blanks behind it refuses an `x` once it is stripped. -/
theorem cat_after_strip : ∃ s₀ s : NcString,
    ncStringDup true true (some [97, 98, 32, 32, 0]) = some (some s₀) ∧
    ncStringStrip s₀ = some (some 0, s) ∧ content s = [97, 98] ∧
    ncStringCat true s (some [120, 0]) = some (false, s) ∧ ¬ Appends s [120, 0] := by
  have hcat : ncStringCat true ⟨some [97, 98, 0, 32, 0], 4⟩ (some [120, 0]) =
      some (false, ⟨some [97, 98, 0, 32, 0], 4⟩) := by decide
  refine ⟨⟨some [97, 98, 32, 32, 0], 4⟩, ⟨some [97, 98, 0, 32, 0], 4⟩, by decide, by decide,
    by decide, hcat, ?_⟩
  rintro ⟨s', h, -⟩
  rw [hcat] at h
  cases (Prod.mk.inj (Option.some.inj h)).1

end Nica
