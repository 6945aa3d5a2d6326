import Nica.Pointers
import Nica.CString
import Mathlib.Data.List.DropRight
import Mathlib.Tactic.Common

/-! # The trimming functions of the INI parser

`lstrip`, `rstrip`, `string_strip` and `string_chew_terminated` of `inifile.c` on blocks of memory.

* An access outside of the block that holds the string at that moment is `none`, and `Stop.outside`
  in `string_chew_terminated`.
* The lengths of the first three are `ssize_t`, enough for any block, and natural numbers here.  The
  counters of `string_chew_terminated` are `int`, and it stops when one of them overflows.
* `strdup` makes a block of the size of its string, so a block that had characters behind a NUL
  loses them when leading blanks are stripped; the length that goes with it does not change.
* `kept l` is what `string_strip` keeps of the characters `l`, and `chewText` is what
  `string_chew_terminated` makes of a string. -/

namespace Nica

open CString

/-- Why the parser has no result: an access outside of a block, an `int` of `string_chew_terminated`
or the `int` line number that overflows, or a call of the map without a result. -/
inductive Stop where
  | outside
  | counter
  | lineCount
  | map (fault : Fault)
deriving DecidableEq, Repr

/-- An access that must be inside of its block. -/
def inside {α : Type} : Option α → Except Stop α
  | none => .error .outside
  | some a => .ok a

/-- `++i` on an `int`. -/
def incr (overflow : Stop) (i : ℕ) : Except Stop ℕ :=
  if i < intMax then .ok (i + 1) else .error overflow

/-- A space or a tab. -/
def isBlank (c : UInt8) : Bool := c = 32 || c = 9

/-- The loop of `lstrip`, with the rounds left, `i` and `skip_len`. -/
def lstripLoop (str : Bytes) : ℕ → ℕ → ℕ → Option ℕ
  | 0, _, skipLen => some skipLen
  | n + 1, i, skipLen =>
      match str[i]? with
      | none => none
      | some c => if isBlank c then lstripLoop str n (i + 1) (skipLen + 1) else some skipLen

/-- `lstrip`: the string and `*out_len`. -/
def lstrip (str : Bytes) (len : ℕ) : Option (Bytes × ℕ) := do
  let skipLen ← lstripLoop str len 0 0
  if skipLen > 0 then
    let c ← strdup str skipLen
    some (c, len - skipLen)
  else some (str, len - skipLen)

/-- The loop of `rstrip`, and with a bound `low` above 0 the second one of
`string_chew_terminated`: blanks are counted, NULs are passed over. -/
def skipBack (str : Bytes) (low : ℕ) : ℕ → ℕ → Option ℕ
  | 0, skipLen => some skipLen
  | i + 1, skipLen =>
      if i + 1 > low then
        match str[i + 1]? with
        | none => none
        | some c =>
            if isBlank c then skipBack str low i (skipLen + 1)
            else if c = 0 then skipBack str low i skipLen
            else some skipLen
      else some skipLen

/-- `rstrip`: the string and `*out_len`. -/
def rstrip (str : Bytes) (len : ℕ) : Option (Bytes × ℕ) := do
  let skipLen ← skipBack str 0 len 0
  if len = skipLen then some (str, len - skipLen)
  else
    let str ← write str (len - skipLen) 0
    some (str, len - skipLen)

/-- `string_strip`: the string and `*out_len`. -/
def stringStrip (str : Bytes) (len : ℕ) : Option (Bytes × ℕ) := do
  let (c, mylen) ← lstrip str len
  rstrip c mylen

/-- The first loop of `string_chew_terminated`: `skip_offset` and `len`. -/
def chewScan : Bytes → ℕ → ℕ → Bool → Except Stop (ℕ × ℕ)
  | [], _, _, _ => .error .outside
  | c :: inp, skipOffset, len, count =>
      if c = 0 then .ok (skipOffset, len)
      else if count && isBlank c then do
        let skipOffset ← incr .counter skipOffset
        chewScan inp skipOffset len count
      else do
        let len ← incr .counter len
        chewScan inp skipOffset len false

/-- `string_chew_terminated`.  The counters of its second loop go down from `len` and up to at most
`len`. -/
def stringChewTerminated (inp : Bytes) : Except Stop Bytes := do
  let (skipOffset, len) ← chewScan inp 0 0 true
  let endLen ← inside (skipBack inp skipOffset len 0)
  let inp ← inside (if endLen > 0 then write inp (len - endLen) 0 else some inp)
  inside (if skipOffset > 0 then strdup inp skipOffset else some inp)

/-! ### The loops -/

/-- The blanks at the end of a list, given backwards; NULs are passed over. -/
def countBack : Bytes → ℕ
  | [] => 0
  | c :: cs => if isBlank c then countBack cs + 1 else if c = 0 then countBack cs else 0

@[simp] theorem countBack_zero (cs : Bytes) : countBack (0 :: cs) = countBack cs := rfl

theorem countBack_le (l : Bytes) : countBack l ≤ l.length := by
  induction l with
  | nil => exact Nat.le_refl _
  | cons c l ih =>
      simp only [countBack, List.length_cons]
      split_ifs <;> omega

/-- Without NULs the count is the number of blanks at the end. -/
theorem countBack_eq {l : Bytes} (h : 0 ∉ l) : countBack l = (l.takeWhile isBlank).length := by
  induction l with
  | nil => rfl
  | cons c l ih =>
      rw [List.mem_cons, not_or] at h
      by_cases hc : isBlank c = true
      · rw [countBack, if_pos hc, ih h.2, List.takeWhile_cons_of_pos hc, List.length_cons]
      · rw [countBack, if_neg hc, if_neg (Ne.symm h.1), List.takeWhile_cons_of_neg hc]
        rfl

theorem isBlank_zero : isBlank 0 = false := by decide

theorem lstripLoop_eq (pre l rest : Bytes) (skipLen : ℕ) :
    lstripLoop (pre ++ (l ++ rest)) l.length pre.length skipLen =
      some (skipLen + (l.takeWhile isBlank).length) := by
  induction l generalizing pre skipLen with
  | nil => rfl
  | cons c l ih =>
      have hread : (pre ++ (c :: l ++ rest))[pre.length]? = some c := by simp
      rw [List.length_cons, lstripLoop, hread]
      by_cases hc : isBlank c = true
      · have h := ih (pre ++ [c]) (skipLen + 1)
        rw [List.append_assoc, List.singleton_append, ← List.cons_append, List.length_append,
          List.length_singleton] at h
        simp only [hc, if_true]
        rw [h, List.takeWhile_cons_of_pos hc, List.length_cons]
        congr 1
        omega
      · simp only [hc, if_false, Bool.false_eq_true]
        rw [List.takeWhile_cons_of_neg hc]
        rfl

/-- The loop from the end of `l` down to the bound, which lies inside `pre`. -/
theorem skipBack_eq {pre : Bytes} {low : ℕ} (hlow : pre.length = low + 1) (l rest : Bytes)
    (skipLen : ℕ) :
    skipBack (pre ++ (l ++ rest)) low (low + l.length) skipLen =
      some (skipLen + countBack l.reverse) := by
  induction l using List.reverseRecOn generalizing rest skipLen with
  | nil =>
      cases low with
      | zero => rfl
      | succ low => exact if_neg (Nat.lt_irrefl _)
  | append_singleton l c ih =>
      have hread : (pre ++ (l ++ [c] ++ rest))[low + l.length + 1]? = some c := by
        rw [List.append_assoc, ← List.append_assoc, List.getElem?_append_right] <;>
          simp only [List.length_append, hlow]
        · simp [show low + l.length + 1 - (low + 1 + l.length) = 0 by omega]
        · omega
      rw [List.length_append, List.length_singleton, ← Nat.add_assoc, skipBack,
        if_pos (by omega), hread, List.reverse_append, List.reverse_singleton,
        List.singleton_append, countBack]
      simp only
      rw [List.append_assoc, List.singleton_append]
      split_ifs
      · rw [ih]
        congr 1
        omega
      · rw [ih]
      · rfl

/-! ### Stripping a line -/

/-- What `string_strip` keeps of the characters `l`. -/
def kept (l : Bytes) : Bytes :=
  let t := l.dropWhile isBlank
  t.take (t.length - countBack t.tail.reverse)

/-- The first character is a blank. -/
def Indented (l : Bytes) : Prop := l.head?.any isBlank = true

instance (l : Bytes) : Decidable (Indented l) := inferInstanceAs (Decidable (_ = true))

theorem dropWhile_of_not_indented {l : Bytes} (h : ¬ Indented l) : l.dropWhile isBlank = l := by
  cases l with
  | nil => rfl
  | cons c l => exact List.dropWhile_cons_of_neg h

theorem takeWhile_of_not_indented {l : Bytes} (h : ¬ Indented l) : l.takeWhile isBlank = [] := by
  cases l with
  | nil => rfl
  | cons c l => exact List.takeWhile_cons_of_neg h

theorem not_indented_dropWhile (l : Bytes) : ¬ Indented (l.dropWhile isBlank) := by
  cases h : l.dropWhile isBlank with
  | nil => exact Bool.false_ne_true
  | cons c t =>
      have hc := List.head?_dropWhile_not isBlank l
      rw [h] at hc
      simpa [Indented] using hc

theorem kept_dropWhile (l : Bytes) : kept (l.dropWhile isBlank) = kept l := by
  unfold kept
  rw [List.dropWhile_idempotent]

@[simp] theorem kept_nil : kept [] = [] := rfl

theorem kept_cons {x : UInt8} {u : Bytes} (h : ¬ Indented (x :: u)) :
    kept (x :: u) = (x :: u).take (u.length + 1 - countBack u.reverse) := by
  unfold kept
  rw [dropWhile_of_not_indented h]
  rfl

/-- Leading blanks are not NULs. -/
theorem zero_mem_dropWhile {l : Bytes} (h : 0 ∈ l) : 0 ∈ l.dropWhile isBlank := by
  rw [← List.takeWhile_append_dropWhile (p := isBlank) (l := l), List.mem_append] at h
  refine h.resolve_left fun h0 => ?_
  have hb := List.mem_takeWhile_imp h0
  rw [isBlank_zero] at hb
  cases hb

theorem not_indented_of_initial {l m : Bytes} (hp : l <+: m) (h : ¬ Indented m) : ¬ Indented l := by
  obtain ⟨d, rfl⟩ := hp
  cases l with
  | nil => exact Bool.false_ne_true
  | cons c l => exact h

theorem not_indented_kept (l : Bytes) : ¬ Indented (kept l) :=
  not_indented_of_initial (List.take_prefix _ _) (not_indented_dropWhile l)

theorem lstrip_flush {l : Bytes} (h : ¬ Indented l) (rest : Bytes) :
    lstrip (l ++ 0 :: rest) l.length = some (l ++ 0 :: rest, l.length) := by
  have hloop := lstripLoop_eq [] l (0 :: rest) 0
  rw [takeWhile_of_not_indented h] at hloop
  exact congrArg (· >>= _) hloop

theorem lstrip_indented {l : Bytes} (h : Indented l) (rest : Bytes) :
    lstrip (l ++ 0 :: rest) l.length =
      some (chars (l.dropWhile isBlank) ++ [0], (l.dropWhile isBlank).length) := by
  have hloop := lstripLoop_eq [] l (0 :: rest) 0
  have hsplit := List.takeWhile_append_dropWhile (p := isBlank) (l := l)
  have hpos : 0 < (l.takeWhile isBlank).length := by
    cases l with
    | nil => cases h
    | cons c l =>
        rw [List.takeWhile_cons_of_pos (p := isBlank) h, List.length_cons]
        exact Nat.succ_pos _
  have hdrop : l.drop (l.takeWhile isBlank).length = l.dropWhile isBlank := by
    conv_lhs => rw [← hsplit]
    rw [List.takeWhile_append_of_pos fun _ => List.mem_takeWhile_imp]
    exact List.drop_left' (by simp [takeWhile_of_not_indented (not_indented_dropWhile l)])
  have hlen := congrArg List.length hsplit
  rw [List.length_append] at hlen
  rw [List.nil_append, List.length_nil, Nat.zero_add] at hloop
  simp only [lstrip, hloop, Option.bind_eq_bind, Option.bind_some]
  rw [if_pos hpos, strdup_shown (by omega), hdrop]
  exact congrArg (fun n => some (_, n)) (by omega)

theorem rstrip_shown {t : Bytes} (h : ¬ Indented t) (rest : Bytes) :
    ∃ rest', rstrip (t ++ 0 :: rest) t.length = some (kept t ++ 0 :: rest', (kept t).length) := by
  cases t with
  | nil => exact ⟨rest, rfl⟩
  | cons x u =>
      have hloop := skipBack_eq (show [x].length = 0 + 1 from rfl) (u ++ [0]) rest 0
      have hle := countBack_le u.reverse
      rw [List.length_reverse] at hle
      have hback : countBack (u ++ [0]).reverse = countBack u.reverse := by
        rw [List.reverse_append]
        rfl
      rw [hback, List.length_append, Nat.zero_add, Nat.zero_add, List.length_singleton,
        List.append_assoc] at hloop
      change skipBack (x :: u ++ 0 :: rest) 0 (u.length + 1) 0 = some (countBack u.reverse) at hloop
      obtain ⟨rest', hw⟩ := write_shown (l := x :: u) (i := u.length + 1 - countBack u.reverse)
        (by rw [List.length_cons]; omega) 0 0 rest
      refine ⟨rest', ?_⟩
      rw [kept_cons h, rstrip, List.length_cons]
      simp only [hloop, Option.bind_eq_bind, Option.bind_some]
      rw [if_neg (by omega), hw, List.length_take, List.length_cons]
      exact congrArg (fun n => some (_, n)) (by omega)

/-- A copy that ends at a NUL inside the line is read behind its end. -/
theorem rstrip_outside {t : Bytes} (h : 0 ∈ t) : rstrip (chars t ++ [0]) t.length = none := by
  have hlt := length_chars_lt h
  obtain ⟨n, hn⟩ := Nat.exists_eq_succ_of_ne_zero (show t.length ≠ 0 by omega)
  have hread : (chars t ++ [0])[n + 1]? = none := by
    rw [List.getElem?_eq_none_iff, List.length_append, List.length_singleton]
    omega
  rw [rstrip, hn, skipBack, if_pos (Nat.succ_pos n), hread]
  rfl

/-- The line loses its indentation to a copy that ends at an earlier NUL. -/
def Misread (l : Bytes) : Prop := Indented l ∧ 0 ∈ l

instance (l : Bytes) : Decidable (Misread l) := inferInstanceAs (Decidable (_ ∧ _))

/-- `string_strip` on a line in a block that is large enough. -/
theorem stringStrip_shown {l : Bytes} (h : ¬ Misread l) (rest : Bytes) :
    ∃ rest', stringStrip (l ++ 0 :: rest) l.length =
      some (kept l ++ 0 :: rest', (kept l).length) := by
  unfold stringStrip
  by_cases hi : Indented l
  · have h0 : 0 ∉ l := fun h0 => h ⟨hi, h0⟩
    obtain ⟨rest', hr⟩ := rstrip_shown (not_indented_dropWhile l) []
    rw [lstrip_indented hi, chars_eq_self fun h => h0 ((List.dropWhile_sublist _).subset h)]
    rw [kept_dropWhile] at hr
    exact ⟨rest', hr⟩
  · obtain ⟨rest', hr⟩ := rstrip_shown hi rest
    rw [lstrip_flush hi]
    exact ⟨rest', hr⟩

theorem stringStrip_outside {l : Bytes} (h : Misread l) (rest : Bytes) :
    stringStrip (l ++ 0 :: rest) l.length = none := by
  unfold stringStrip
  rw [lstrip_indented h.1]
  exact rstrip_outside (zero_mem_dropWhile h.2)

/-! ### Stripped text -/

/-- The text without the blanks at both ends. -/
def strip (l : Bytes) : Bytes := (l.dropWhile isBlank).rdropWhile isBlank

theorem take_rdropWhile (l : Bytes) :
    l.rdropWhile isBlank = l.take (l.length - (l.reverse.takeWhile isBlank).length) := by
  have h : l.rdropWhile isBlank ++ l.rtakeWhile isBlank = l := List.rdropWhile_append_rtakeWhile
  have hlen := congrArg List.length h
  rw [List.length_append] at hlen
  conv_rhs => rw [← h]
  rw [List.take_left' ?_]
  rw [h]
  simp only [List.rtakeWhile, List.length_reverse] at hlen
  omega

/-- On a line without NULs `string_strip` strips the blanks at both ends. -/
theorem kept_eq_strip {l : Bytes} (h : 0 ∉ l) : kept l = strip l := by
  have hi := not_indented_dropWhile l
  have h0 : 0 ∉ l.dropWhile isBlank := fun h0 => h ((List.dropWhile_sublist _).subset h0)
  unfold strip
  rw [← kept_dropWhile, take_rdropWhile]
  cases ht : l.dropWhile isBlank with
  | nil => rfl
  | cons x u =>
      rw [ht] at hi h0
      have hu : 0 ∉ u.reverse := fun hu => h0 (List.mem_cons_of_mem x (List.mem_reverse.mp hu))
      have hx : [x].takeWhile isBlank = [] := takeWhile_of_not_indented hi
      have hrev : (x :: u).reverse.takeWhile isBlank = u.reverse.takeWhile isBlank := by
        rw [List.reverse_cons, List.takeWhile_append, hx, List.append_nil]
        split_ifs with hall
        · exact ((List.takeWhile_prefix _).eq_of_length hall).symm
        · rfl
      rw [kept_cons hi, countBack_eq hu, hrev, List.length_cons]

theorem strip_append {w v : Bytes} (hw : ∀ c ∈ w, isBlank c = true) : strip (w ++ v) = strip v := by
  unfold strip
  rw [List.dropWhile_append_of_pos hw]

/-- A text is its indentation, a part without blanks at its ends, and more blanks. -/
theorem exists_strip (l : Bytes) : ∃ w v d, l = w ++ v ++ d ∧ (∀ c ∈ w, isBlank c = true) ∧
    (∀ c ∈ d, isBlank c = true) ∧ v = strip l ∧ w = l.takeWhile isBlank := by
  refine ⟨l.takeWhile isBlank, strip l, (l.dropWhile isBlank).rtakeWhile isBlank, ?_,
    fun _ => List.mem_takeWhile_imp, fun _ => List.mem_rtakeWhile_imp, rfl, rfl⟩
  unfold strip
  rw [List.append_assoc, List.rdropWhile_append_rtakeWhile, List.takeWhile_append_dropWhile]

/-! ### Chewing a string -/

/-- What `string_chew_terminated` makes of a string, as a string. -/
def chewText (text : Bytes) : Bytes :=
  match stringChewTerminated (text ++ [0]) with
  | .error _ => []
  | .ok b => chars b

/-- The counters of `string_chew_terminated` do not overflow on the string. -/
def FitsInt (text : Bytes) : Prop :=
  (text.takeWhile isBlank).length ≤ intMax ∧ (text.dropWhile isBlank).length ≤ intMax

instance (text : Bytes) : Decidable (FitsInt text) := inferInstanceAs (Decidable (_ ∧ _))

/-- The value of `end_len` for a string of `skip` blanks and then `v`: the second loop starts at the
length of `v`, counted from the start of the blanks. -/
def endLen (skip : ℕ) (v : Bytes) : ℕ :=
  countBack ((v.tail ++ [0]).take (v.length - skip)).reverse

/-- What is left of `v`. -/
def chewed (skip : ℕ) (v : Bytes) : Bytes :=
  if endLen skip v = 0 then v else v.take (v.length - endLen skip v - skip)

variable {w v : Bytes}

theorem chewScan_overlong (h : 0 ∉ v) (rest : Bytes) (skip : ℕ) {n : ℕ} (hn : n ≤ intMax) :
    chewScan (v ++ 0 :: rest) skip n false =
      if n + v.length ≤ intMax then .ok (skip, n + v.length) else .error .counter := by
  induction v generalizing n with
  | nil => rw [List.length_nil, Nat.add_zero, if_pos hn]; rfl
  | cons c v ih =>
      rw [List.mem_cons, not_or] at h
      rw [List.cons_append, chewScan, if_neg (Ne.symm h.1), Bool.false_and,
        if_neg Bool.false_ne_true, List.length_cons, incr]
      by_cases hlt : n < intMax
      · rw [if_pos hlt, show n + (v.length + 1) = n + 1 + v.length by omega]
        exact ih h.2 hlt
      · rw [if_neg hlt, if_neg (by omega)]
        rfl

theorem chewScan_eq (hw : ∀ c ∈ w, isBlank c = true) (hv : ¬ Indented v) (h0 : 0 ∉ v)
    (rest : Bytes) {skip : ℕ} (hskip : skip ≤ intMax) :
    chewScan (w ++ (v ++ 0 :: rest)) skip 0 true =
      if skip + w.length ≤ intMax ∧ v.length ≤ intMax then .ok (skip + w.length, v.length)
      else .error .counter := by
  induction w generalizing skip with
  | nil =>
      rw [List.nil_append, List.length_nil, Nat.add_zero]
      cases v with
      | nil => rw [if_pos ⟨hskip, Nat.zero_le _⟩]; rfl
      | cons c v =>
          have hscan := chewScan_overlong h0 rest skip (Nat.zero_le intMax)
          have hc : isBlank c = false := by simpa [Indented] using hv
          rw [List.mem_cons, not_or] at h0
          rw [List.cons_append, chewScan, if_neg (Ne.symm h0.1), Bool.false_and,
            if_neg Bool.false_ne_true] at hscan
          rw [List.cons_append, chewScan, if_neg (Ne.symm h0.1), hc, Bool.and_false,
            if_neg Bool.false_ne_true, hscan, Nat.zero_add]
          simp only [hskip, true_and]
  | cons c w ih =>
      have hc := hw c List.mem_cons_self
      have hne : c ≠ 0 := by
        rintro rfl
        exact absurd hc (by decide)
      rw [List.cons_append, chewScan, if_neg hne, hc, Bool.and_self, if_pos rfl, List.length_cons,
        incr]
      by_cases hlt : skip < intMax
      · rw [if_pos hlt, show skip + (w.length + 1) = skip + 1 + w.length by omega]
        exact ih (fun c hc => hw c (List.mem_cons_of_mem _ hc)) hlt
      · rw [if_neg hlt, if_neg (by omega)]
        rfl

theorem skipBack_low (str : Bytes) {low i : ℕ} (h : i ≤ low) (skipLen : ℕ) :
    skipBack str low i skipLen = some skipLen := by
  cases i with
  | zero => rfl
  | succ i => exact if_neg (by omega)

theorem endLen_le (skip : ℕ) (v : Bytes) : endLen skip v ≤ v.length - skip := by
  apply (countBack_le _).trans
  rw [List.length_reverse, List.length_take]
  exact min_le_left _ _

theorem skipBack_endLen (w v rest : Bytes) :
    skipBack (w ++ (v ++ 0 :: rest)) w.length v.length 0 = some (endLen w.length v) := by
  by_cases hle : v.length ≤ w.length
  · have he := endLen_le w.length v
    rw [skipBack_low _ hle]
    congr 1
    omega
  · cases v with
    | nil => exact absurd (Nat.zero_le _) hle
    | cons y u =>
        have h := skipBack_eq (show (w ++ [y]).length = w.length + 1 by simp)
          ((u ++ [0]).take (u.length + 1 - w.length))
          ((u ++ [0]).drop (u.length + 1 - w.length) ++ rest) 0
        rw [← List.append_assoc (List.take _ _), List.take_append_drop, List.length_take,
          List.length_append, List.length_singleton, Nat.zero_add] at h
        rw [List.length_cons] at hle ⊢
        rw [Nat.min_eq_left (by omega), Nat.add_sub_cancel' (by omega)] at h
        simpa [endLen] using h

theorem inside_some {α β : Type} (a : α) (f : α → Except Stop β) : inside (some a) >>= f = f a := rfl

/-- `string_chew_terminated` on a string of blanks and then `v`. -/
theorem stringChewTerminated_eq (hw : ∀ c ∈ w, isBlank c = true) (hv : ¬ Indented v) (h0 : 0 ∉ v)
    (hc : w.length ≤ intMax ∧ v.length ≤ intMax) (rest : Bytes) :
    ∃ rest', stringChewTerminated (w ++ v ++ 0 :: rest) =
      .ok (chewed w.length v ++ 0 :: rest') := by
  have hw0 : 0 ∉ w := fun h => absurd (hw 0 h) (by decide)
  have hscan := chewScan_eq hw hv h0 rest (Nat.zero_le intMax)
  have hback := skipBack_endLen w v rest
  have hle := endLen_le w.length v
  rw [Nat.zero_add, if_pos hc] at hscan
  rw [List.append_assoc, stringChewTerminated, hscan]
  change ∃ rest', (inside (skipBack _ w.length v.length 0) >>= _) = _
  rw [hback, inside_some]
  -- the string after the cut
  obtain ⟨v', rest', hcut, hv', hsub⟩ : ∃ v' rest', (if endLen w.length v > 0 then
      write (w ++ (v ++ 0 :: rest)) (v.length - endLen w.length v) 0
      else some (w ++ (v ++ 0 :: rest))) = some (w ++ v' ++ 0 :: rest') ∧
      v' = chewed w.length v ∧ ∀ c ∈ v', c ∈ v := by
    by_cases he : endLen w.length v = 0
    · refine ⟨v, rest, ?_, (if_pos he).symm, fun _ h => h⟩
      rw [if_neg (by omega), List.append_assoc]
    · obtain ⟨rest', hr⟩ := write_shown (l := w ++ v) (i := v.length - endLen w.length v)
        (by rw [List.length_append]; omega) 0 0 rest
      refine ⟨v.take (v.length - endLen w.length v - w.length), rest', ?_, (if_neg he).symm,
        fun _ h => List.mem_of_mem_take h⟩
      rw [if_pos (by omega), ← List.append_assoc, hr, List.take_append,
        List.take_of_length_le (by omega)]
  rw [hcut, inside_some, ← hv']
  split_ifs with hs
  · rw [strdup_shown (by rw [List.length_append]; omega), List.drop_left,
      chars_eq_self fun h => h0 (hsub 0 h)]
    exact ⟨[], rfl⟩
  · obtain rfl : w = [] := List.length_eq_zero_iff.mp (by omega)
    exact ⟨rest', rfl⟩

theorem zero_notMem_chewed (h0 : 0 ∉ v) (skip : ℕ) : 0 ∉ chewed skip v := by
  unfold chewed
  split_ifs
  · exact h0
  · exact fun h => h0 (List.mem_of_mem_take h)

theorem chewText_eq (hw : ∀ c ∈ w, isBlank c = true) (hv : ¬ Indented v) (h0 : 0 ∉ v)
    (hc : w.length ≤ intMax ∧ v.length ≤ intMax) : chewText (w ++ v) = chewed w.length v := by
  obtain ⟨rest', h⟩ := stringChewTerminated_eq hw hv h0 hc []
  unfold chewText
  rw [h]
  simp only
  rw [chars_append_zero, chars_eq_self (zero_notMem_chewed h0 _)]

/-- `string_chew_terminated` on a string that it can count. -/
theorem stringChewTerminated_shown {text : Bytes} (h0 : 0 ∉ text) (hc : FitsInt text)
    (rest : Bytes) :
    ∃ rest', stringChewTerminated (text ++ 0 :: rest) = .ok (chewText text ++ 0 :: rest') := by
  have hs : text.takeWhile isBlank ++ text.dropWhile isBlank = text :=
    List.takeWhile_append_dropWhile
  have hw : ∀ c ∈ text.takeWhile isBlank, isBlank c = true := fun _ => List.mem_takeWhile_imp
  have hv := not_indented_dropWhile text
  have h0' : 0 ∉ text.dropWhile isBlank := fun h => h0 ((List.dropWhile_sublist _).subset h)
  rw [← hs, chewText_eq hw hv h0' hc]
  exact stringChewTerminated_eq hw hv h0' hc rest

/-- `string_chew_terminated` on any other string. -/
theorem stringChewTerminated_counter {text : Bytes} (h0 : 0 ∉ text) (hc : ¬ FitsInt text)
    (rest : Bytes) : stringChewTerminated (text ++ 0 :: rest) = .error .counter := by
  have hs : text.takeWhile isBlank ++ text.dropWhile isBlank = text :=
    List.takeWhile_append_dropWhile
  have h0' : 0 ∉ text.dropWhile isBlank := fun h => h0 ((List.dropWhile_sublist _).subset h)
  have hw : ∀ c ∈ text.takeWhile isBlank, isBlank c = true := fun _ => List.mem_takeWhile_imp
  have hscan := chewScan_eq hw (not_indented_dropWhile text) h0' rest (Nat.zero_le intMax)
  rw [← List.append_assoc, hs, Nat.zero_add] at hscan
  rw [stringChewTerminated, hscan.trans (if_neg hc)]
  rfl

theorem zero_notMem_chewText (text : Bytes) : 0 ∉ chewText text := by
  unfold chewText
  split
  · exact List.not_mem_nil
  · exact zero_notMem_chars _

theorem fitsInt_append (hw : ∀ c ∈ w, isBlank c = true) (hv : ¬ Indented v) :
    FitsInt (w ++ v) ↔ w.length ≤ intMax ∧ v.length ≤ intMax := by
  rw [FitsInt, List.takeWhile_append_of_pos hw, List.dropWhile_append_of_pos hw,
    takeWhile_of_not_indented hv, dropWhile_of_not_indented hv, List.append_nil]

theorem fitsInt_flush {text : Bytes} (h : ¬ Indented text) :
    FitsInt text ↔ text.length ≤ intMax := by
  rw [FitsInt, takeWhile_of_not_indented h, dropWhile_of_not_indented h]
  exact and_iff_right (Nat.zero_le _)

/-- A string that does not start with a blank is stripped. -/
theorem chewText_flush {text : Bytes} (h : ¬ Indented text) (h0 : 0 ∉ text) (hc : FitsInt text) :
    chewText text = strip text := by
  have he := chewText_eq (w := []) (fun _ h => absurd h List.not_mem_nil) h h0
    ⟨Nat.zero_le _, (fitsInt_flush h).mp hc⟩
  rw [List.nil_append] at he
  rw [he, ← kept_eq_strip h0]
  cases text with
  | nil => rfl
  | cons x u =>
      have hend : endLen 0 (x :: u) = countBack u.reverse := by
        unfold endLen
        rw [List.take_of_length_le (by simp), List.tail_cons, List.reverse_append]
        rfl
      rw [kept_cons h]
      unfold chewed
      rw [List.length_nil, hend, List.length_cons, Nat.sub_zero]
      split_ifs with hz
      · rw [hz, Nat.sub_zero, ← List.length_cons (a := x), List.take_length]
      · rfl

end Nica
