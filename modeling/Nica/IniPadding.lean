import Nica.IniParse
import Nica.Trimming

/-! # Padding around an assignment

The value that is stored for an assignment is its text without the blanks at both ends exactly when
`Chewable` holds of the text after the `=`: the second loop of `string_chew_terminated` starts at
the length of the value, counted from the start of the blanks before it, and cuts there when it
meets a blank.  Padding a line changes nothing if the text is chewable before and after, and the
counters of the function go as far as the padded texts. -/

namespace Nica

open CString NcHashmap Fueled Trimming

/-! ### Chewable texts -/

/-- There is at most one blank before the value, or there are at least as many blanks as the value
has characters, or the second loop of `string_chew_terminated` does not start at a blank. -/
def Chewable (text : Bytes) : Prop :=
  (text.takeWhile isBlank).length < 2 ∨
  (strip text).length ≤ (text.takeWhile isBlank).length ∨
  ((strip text)[(strip text).length - (text.takeWhile isBlank).length]?).any isBlank = false

instance (text : Bytes) : Decidable (Chewable text) := inferInstanceAs (Decidable (_ ∨ _))

theorem countBack_reverse_eq_zero {l : Bytes} (h : 0 ∉ l) :
    countBack l.reverse = 0 ↔ l.getLast?.any isBlank = false := by
  rw [← List.head?_reverse]
  have h' : 0 ∉ l.reverse := fun h0 => h (List.mem_reverse.mp h0)
  cases hl : l.reverse with
  | nil => exact iff_of_true rfl rfl
  | cons c m =>
      rw [hl, List.mem_cons, not_or] at h'
      rw [countBack, if_neg (Ne.symm h'.1), List.head?_cons, Option.any_some]
      split_ifs with hc <;> simp [hc]

/-- The second loop cuts nothing off a value without blanks at its ends. -/
theorem endLen_eq_zero {skip : ℕ} {v : Bytes} (h0 : 0 ∉ v) (hne : v ≠ [])
    (hlast : v.getLast?.any isBlank = false) :
    endLen skip v = 0 ↔
      skip < 2 ∨ v.length ≤ skip ∨ (v[v.length - skip]?).any isBlank = false := by
  obtain ⟨x, u, rfl⟩ := List.exists_cons_of_ne_nil hne
  have hu : 0 ∉ u := fun h => h0 (List.mem_cons_of_mem x h)
  unfold endLen
  rw [List.tail_cons, List.length_cons]
  rcases Nat.eq_zero_or_pos skip with rfl | hpos
  · refine iff_of_true ?_ (.inl (by omega))
    rw [Nat.sub_zero, List.take_of_length_le (by simp), List.reverse_append]
    apply (countBack_reverse_eq_zero hu).mpr
    cases u with
    | nil => rfl
    | cons y u => rwa [List.getLast?_cons_cons] at hlast
  rcases Nat.lt_or_ge skip (u.length + 1) with hlt | hge
  · have hlen : u.length + 1 - skip ≤ u.length := by omega
    rw [List.take_append_of_le_length hlen,
      countBack_reverse_eq_zero fun h => hu (List.mem_of_mem_take h)]
    have hget : (u.take (u.length + 1 - skip)).getLast? = (x :: u)[u.length + 1 - skip]? := by
      obtain ⟨n, hn⟩ : ∃ n, u.length + 1 - skip = n + 1 := ⟨u.length - skip, by omega⟩
      rw [hn, List.getElem?_cons_succ, List.getLast?_take, if_neg (Nat.succ_ne_zero n),
        Nat.succ_sub_one, List.getElem?_eq_getElem (by omega)]
      rfl
    rw [hget]
    constructor
    · exact fun h => .inr (.inr h)
    · rintro (h | h | h)
      · obtain rfl : skip = 1 := by omega
        rw [List.getLast?_eq_getElem?, List.length_cons] at hlast
        exact hlast
      · omega
      · exact h
  · rw [Nat.sub_eq_zero_of_le hge]
    exact iff_of_true rfl (.inr (.inl hge))

theorem chewed_eq_self {skip : ℕ} {v : Bytes} (hne : v ≠ []) :
    chewed skip v = v ↔ endLen skip v = 0 := by
  have hpos := List.length_pos_of_ne_nil hne
  unfold chewed
  split_ifs with he
  · exact iff_of_true rfl he
  · refine iff_of_false (fun h => ?_) he
    have hlen := congrArg List.length h
    rw [List.length_take] at hlen
    omega

/-- The value of a text is the stripped text exactly when the text is chewable. -/
theorem chewText_eq_strip_iff {text : Bytes} (h0 : 0 ∉ text)
    (hc : FitsInt (text.rdropWhile isBlank)) :
    chewText (text.rdropWhile isBlank) = strip text ↔ Chewable text := by
  obtain ⟨w, v, d, htext, hw, hd, hv, hw'⟩ := exists_strip text
  have hv0 : 0 ∉ v := fun h => h0 (by rw [htext]; simp [h])
  have hvi : ¬ Indented v := by
    rw [hv]
    exact not_indented_of_initial (List.rdropWhile_prefix isBlank _) (not_indented_dropWhile text)
  have hdrop : text.rdropWhile isBlank = (w ++ v).rdropWhile isBlank := by
    conv_lhs => rw [htext, rdropWhile_append_of_pos _ hd]
  unfold Chewable
  rw [← hv, ← hw', hdrop]
  rw [hdrop] at hc
  by_cases hne : v = []
  · rw [hne, List.append_nil, List.rdropWhile_eq_nil_iff.mpr hw]
    exact iff_of_true rfl (.inr (.inl (Nat.zero_le _)))
  · have hlast : ¬ isBlank (v.getLast hne) = true := by
      subst hv
      exact List.rdropWhile_last_not isBlank _ hne
    have hself : (w ++ v).rdropWhile isBlank = w ++ v := by
      refine List.rdropWhile_eq_self_iff.mpr fun hl => ?_
      rwa [List.getLast_append_of_ne_nil _ hne]
    rw [hself] at hc ⊢
    rw [chewText_eq hw hvi hv0 ((fitsInt_append hw hvi).mp hc), chewed_eq_self hne,
      endLen_eq_zero hv0 hne]
    rw [List.getLast?_eq_some_getLast hne, Option.any_some]
    exact Bool.eq_false_of_not_eq_true hlast

/-! ### Countable texts -/

/-- A text can be counted if it can be with other characters behind it. -/
theorem FitsInt.of_append {l d : Bytes} (h : FitsInt (l ++ d)) : FitsInt l := by
  obtain ⟨hskip, hlen⟩ := h
  rw [List.takeWhile_append] at hskip
  rw [List.dropWhile_append] at hlen
  constructor
  · split_ifs at hskip with hall
    · rw [List.length_append] at hskip
      omega
    · exact hskip
  · cases hdrop : l.dropWhile isBlank with
    | nil => exact Nat.zero_le _
    | cons c t =>
        rw [hdrop, List.isEmpty_cons, if_neg Bool.false_ne_true, List.length_append] at hlen
        omega

/-- A value can be counted if it can be with more blanks before it. -/
theorem fitsInt_of_padded {c post : Bytes} (hc : ∀ x ∈ c, isBlank x = true)
    (h : FitsInt ((c ++ post).rdropWhile isBlank)) : FitsInt (post.rdropWhile isBlank) := by
  by_cases hpost : post.rdropWhile isBlank = []
  · rw [hpost]
    exact ⟨Nat.zero_le _, Nat.zero_le _⟩
  · rw [rdropWhile_append_of_ne_nil _ hpost, FitsInt, List.takeWhile_append_of_pos hc,
      List.dropWhile_append_of_pos hc, List.length_append] at h
    exact ⟨by omega, h.2⟩

/-! ### Assignment lines -/

theorem exists_key {pre post key text : Bytes} (h61 : 61 ∉ pre)
    (h : classify true (pre ++ 61 :: post) = .assignment key text) :
    ∃ x e, pre.dropWhile isBlank = x :: e ∧ 61 ∉ x :: e ∧ ¬ isBlank x = true ∧ x ≠ 91 ∧
      ¬ (x = 35 ∨ x = 59) := by
  have hp61 : 61 ∉ pre.dropWhile isBlank := fun h => h61 ((List.dropWhile_sublist _).subset h)
  have hi := not_indented_dropWhile pre
  unfold classify at h
  rw [strip_equals] at h
  cases hpre : pre.dropWhile isBlank with
  | nil =>
      have hkey : strip (beforeEquals ([] ++ 61 :: post.rdropWhile isBlank)) = [] := rfl
      rw [hpre] at h
      rw [if_neg (by simp), if_neg (by simp), if_neg (by simp), if_neg (by simp),
        if_neg (by decide), if_pos hkey] at h
      cases h
  | cons x e =>
      rw [hpre] at h hp61 hi
      refine ⟨x, e, rfl, hp61, hi, fun h91 => ?_, fun hcom => ?_⟩
      · rw [if_neg (by simp), if_pos (by simp [h91])] at h
        split_ifs at h
      · have h91 : x ≠ 91 := by rcases hcom with rfl | rfl <;> decide
        rw [if_neg (by simp), if_neg (by simpa using h91), if_pos (by simpa using hcom)] at h
        cases h

theorem dropWhile_padded (b : Bytes) {pre a e : Bytes} {x : UInt8}
    (hpre : pre.dropWhile isBlank = x :: e) (ha : ∀ x ∈ a, isBlank x = true) :
    (a ++ pre ++ b).dropWhile isBlank = x :: (e ++ b) := by
  rw [List.append_assoc, List.dropWhile_append_of_pos ha, List.dropWhile_append, hpre]
  rfl

/-- The stripped texts of an assignment line and of the padded line. -/
theorem strip_padded (post b c : Bytes) {pre a d e : Bytes} {x : UInt8}
    (hpre : pre.dropWhile isBlank = x :: e) (ha : ∀ x ∈ a, isBlank x = true)
    (hd : ∀ x ∈ d, isBlank x = true) :
    strip (pre ++ 61 :: post) = x :: e ++ 61 :: post.rdropWhile isBlank ∧
      strip (a ++ pre ++ b ++ 61 :: (c ++ post ++ d)) =
        x :: (e ++ b) ++ 61 :: (c ++ post).rdropWhile isBlank := by
  rw [strip_equals, strip_equals, hpre, dropWhile_padded b hpre ha, rdropWhile_append_of_pos _ hd]
  exact ⟨rfl, rfl⟩

/-- Padding changes only the text of an assignment. -/
theorem classify_padded {pre post a b c d key text : Bytes} (h61 : 61 ∉ pre)
    (ha : ∀ x ∈ a, isBlank x = true) (hb : ∀ x ∈ b, isBlank x = true)
    (hd : ∀ x ∈ d, isBlank x = true)
    (h : classify true (pre ++ 61 :: post) = .assignment key text) :
    ∃ key, ∀ sectioned,
      classify sectioned (pre ++ 61 :: post) =
        (if sectioned = false then .error .noSection
          else .assignment key (post.rdropWhile isBlank)) ∧
      classify sectioned (a ++ pre ++ b ++ 61 :: (c ++ post ++ d)) =
        if sectioned = false then .error .noSection
          else .assignment key ((c ++ post).rdropWhile isBlank) := by
  obtain ⟨x, e, hpre, hx61, hx, h91, hcom⟩ := exists_key h61 h
  obtain ⟨hline, hpadded⟩ := strip_padded post b c hpre ha hd
  have hb61 : 61 ∉ x :: (e ++ b) := by
    rw [← List.cons_append, List.mem_append, not_or]
    exact ⟨hx61, fun h => absurd (hb 61 h) (by decide)⟩
  have hkey : strip (x :: (e ++ b)) = strip (x :: e) := by
    have hdrop : ∀ m, (x :: m).dropWhile isBlank = x :: m := fun m =>
      List.dropWhile_cons_of_neg hx
    unfold strip
    rw [hdrop, hdrop, ← List.cons_append, rdropWhile_append_of_pos _ hb]
  refine ⟨strip (x :: e), fun sectioned => ⟨?_, ?_⟩⟩
  · exact classify_of_key hline hx61 hx h91 hcom sectioned
  · rw [← hkey]
    exact classify_of_key hpadded hb61 hx h91 hcom sectioned

/-- Neither line stops the parser when the padded texts can be counted. -/
theorem stopOf_padded {pre post a b c d key text : Bytes} (h61 : 61 ∉ pre)
    (ha : ∀ x ∈ a, isBlank x = true) (hb : ∀ x ∈ b, isBlank x = true)
    (hc : ∀ x ∈ c, isBlank x = true) (hd : ∀ x ∈ d, isBlank x = true)
    (h : classify true (pre ++ 61 :: post) = .assignment key text)
    (h0 : 0 ∉ pre ++ 61 :: post) (h0p : 0 ∉ a ++ pre ++ b ++ 61 :: (c ++ post ++ d))
    (hkey : FitsInt (pre.dropWhile isBlank ++ b))
    (hvalue : FitsInt ((c ++ post).rdropWhile isBlank)) (sectioned : Bool) :
    stopOf sectioned (pre ++ 61 :: post) = none ∧
      stopOf sectioned (a ++ pre ++ b ++ 61 :: (c ++ post ++ d)) = none := by
  cases sectioned with
  | false => exact ⟨stopOf_unsectioned h0, stopOf_unsectioned h0p⟩
  | true =>
      obtain ⟨x, e, hpre, hx61, -, h91, hcom⟩ := exists_key h61 h
      obtain ⟨hline, hpadded⟩ := strip_padded post b c hpre ha hd
      have hb61 : 61 ∉ x :: (e ++ b) := by
        rw [← List.cons_append, List.mem_append, not_or]
        exact ⟨hx61, fun h => absurd (hb 61 h) (by decide)⟩
      rw [hpre] at hkey
      rw [stopOf_of_key h0 hline hx61 h91 hcom, stopOf_of_key h0p hpadded hb61 h91 hcom,
        if_pos ⟨hkey.of_append, fitsInt_of_padded hc hvalue⟩, if_pos ⟨hkey, hvalue⟩]
      exact ⟨rfl, rfl⟩

/-! ### Lines in a file -/

structure LineAt (before line after : Bytes) : Prop where
  before_newline : before = [] ∨ before.getLast? = some 10
  newline : 10 ∉ line
  after_newline : after = [] ∨ after.head? = some 10

theorem lines_append_newline (l : Bytes) :
    ∃ ls, ∀ content, lines (l ++ 10 :: content) = ls ++ lines content := by
  refine ⟨l.splitOn 10, fun content => ?_⟩
  have hne := List.splitOn_ne_nil 10 content
  unfold lines
  rw [List.splitOn_append_cons_self, List.getLast?_append_of_ne_nil _ hne,
    List.dropLast_append_of_ne_nil hne]
  split_ifs <;> rfl

/-- The lines around a line do not depend on it. -/
theorem exists_lines (before after : Bytes) (hbefore : before = [] ∨ before.getLast? = some 10)
    (hafter : after = [] ∨ after.head? = some 10) :
    ∃ ls ls', ∀ line : Bytes, 10 ∉ line → line ≠ [] →
      lines (before ++ line ++ after) = ls ++ line :: ls' := by
  obtain ⟨ls, hls⟩ : ∃ ls, ∀ content, lines (before ++ content) = ls ++ lines content := by
    rcases hbefore with rfl | h
    · exact ⟨[], fun _ => rfl⟩
    · obtain ⟨l, rfl⟩ := List.getLast?_eq_some_iff.mp h
      obtain ⟨ls, hls⟩ := lines_append_newline l
      exact ⟨ls, fun content => by rw [List.append_assoc]; exact hls content⟩
  have hsplit : ∀ line : Bytes, 10 ∉ line → line.splitOn 10 = [line] := fun line h =>
    List.splitOn_eq_singleton h
  obtain ⟨ls', hls'⟩ : ∃ ls', ∀ line : Bytes, 10 ∉ line → line ≠ [] →
      lines (line ++ after) = line :: ls' := by
    rcases hafter with rfl | h
    · refine ⟨[], fun line h hne => ?_⟩
      unfold lines
      rw [List.append_nil, hsplit line h]
      exact if_neg fun he => hne (Option.some.inj he)
    · obtain ⟨content, rfl⟩ := List.head?_eq_some_iff.mp h
      refine ⟨lines content, fun line h _ => ?_⟩
      have hne := List.splitOn_ne_nil 10 content
      unfold lines
      rw [List.splitOn_append_cons_self, hsplit line h, List.singleton_append,
        List.getLast?_cons_of_ne_nil hne, List.dropLast_cons_of_ne_nil hne]
      split_ifs <;> rfl
  refine ⟨ls, ls', fun line h hne => ?_⟩
  rw [List.append_assoc, hls, hls' line h hne]

/-- Two lines with which the parser does the same can be exchanged. -/
theorem runLines_exchange {line line' : Bytes} (hs : ∀ b, stopOf b line = none)
    (hs' : ∀ b, stopOf b line' = none) {fuel : ℕ}
    (hact : ∀ p : Parser, act fuel p (interpret p.currentSection.isSome line') =
      act fuel p (interpret p.currentSection.isSome line)) (ls ls' : List Bytes) (n : ℕ) (p : Parser) :
    runLines fuel (ls ++ line' :: ls') n p = runLines fuel (ls ++ line :: ls') n p := by
  induction ls generalizing n p with
  | nil =>
      rw [List.nil_append, List.nil_append, runLines, runLines, hs, hs']
      simp only [hact]
  | cons l ls ih =>
      rw [List.cons_append, List.cons_append, runLines, runLines]
      cases stopOf p.currentSection.isSome l with
      | some s => rfl
      | none =>
          simp only
          congr 1
          funext x
          cases x with
          | next p =>
              simp only
              congr 1
              funext n
              exact ih n p
          | fail p err => rfl

/-! ### Padded files -/

def lineValue (line : Bytes) : Option Bytes := do
  let (buf, _) ← stringStrip (line ++ [0]) line.length
  match ← strchr 61 buf with
  | none => none
  | some offset => do
      let (_, value) ← (splitAssignment buf offset).toOption
      stringAt value 0

theorem lineValue_eq {pre post : Bytes} (h61 : 61 ∉ pre) (h0 : 0 ∉ pre ++ 61 :: post) :
    lineValue (pre ++ 61 :: post) =
      if FitsInt (pre.dropWhile isBlank) ∧ FitsInt (post.rdropWhile isBlank) then
        some (chewText (post.rdropWhile isBlank))
      else none := by
  have hm : ¬ Misread (pre ++ 61 :: post) := fun h => h0 h.2
  obtain ⟨rest, hstrip⟩ := stringStrip_shown hm []
  have hs0 := zero_notMem_strip h0
  rw [kept_eq_strip h0, strip_equals] at hstrip
  rw [strip_equals] at hs0
  have h61' : 61 ∉ pre.dropWhile isBlank := fun h => h61 ((List.dropWhile_sublist _).subset h)
  have hpre : 0 ∉ pre.dropWhile isBlank := fun h => hs0 (List.mem_append_left _ h)
  have hpost : 0 ∉ post.rdropWhile isBlank := fun h =>
    hs0 (List.mem_append_right _ (List.mem_cons_of_mem _ h))
  have hbefore : (pre.dropWhile isBlank ++ 61 :: post.rdropWhile isBlank).takeWhile (· ≠ 61) =
      pre.dropWhile isBlank := beforeEquals_key h61' _
  have hchars : chars (post.rdropWhile isBlank ++ []) = post.rdropWhile isBlank := by
    rw [List.append_nil, chars_eq_self hpost]
  have hvalue : lineValue (pre ++ 61 :: post) =
      (splitAssignment (pre.dropWhile isBlank ++ 61 :: post.rdropWhile isBlank ++ 0 :: rest)
        (pre.dropWhile isBlank).length).toOption.bind fun x => stringAt x.2 0 := by
    simp only [lineValue, hstrip, strchr_shown (show (61 : UInt8) ≠ 0 by decide), chars_eq_self hs0,
      hbefore, Option.bind_eq_bind, Option.bind_some]
    rw [if_pos (by simp)]
  rw [hvalue]
  split_ifs with hc
  · obtain ⟨r, r', hsplit⟩ :=
      splitAssignment_shown (not_indented_dropWhile pre) hpre hchars hc.1 hc.2 rest
    rw [List.append_nil] at hsplit
    rw [hsplit, Except.toOption, Option.bind_some]
    rw [stringAt_shown (Nat.zero_le _), List.drop_zero, chars_eq_self (zero_notMem_chewText _)]
  · have hsplit := splitAssignment_counter hpre hchars hc rest
    rw [List.append_nil] at hsplit
    rw [hsplit]
    rfl

/-- The same sections with the same keys and the same values. -/
def IniMap.Same (m m' : IniMap) : Prop :=
  (∀ name, (∃ v, Holds m.root name v) ↔ ∃ v, Holds m'.root name v) ∧
  ∀ name key value, m.Value name key value ↔ m'.Value name key value

theorem IniMap.Same.refl (m : IniMap) : m.Same m := ⟨fun _ => Iff.rfl, fun _ _ _ => Iff.rfl⟩

theorem blank_ne {l : Bytes} (hl : ∀ c ∈ l, isBlank c = true) {c : UInt8} (hc : isBlank c = false) :
    c ∉ l := fun h => by
  rw [hl c h] at hc
  cases hc

/-- The padding of an assignment line consists of blanks only. -/
theorem not_mem_padded {pre post a b c d : Bytes}
    (hblank : ∀ x ∈ a ++ b ++ c ++ d, isBlank x = true) {x : UInt8} (hx : isBlank x = false)
    (hl : x ∉ pre ++ 61 :: post) : x ∉ a ++ pre ++ b ++ 61 :: (c ++ post ++ d) := by
  have hpadding := blank_ne hblank hx
  simp only [List.mem_append, List.mem_cons, not_or] at hl hpadding ⊢
  obtain ⟨⟨⟨ha, hb⟩, hc⟩, hd⟩ := hpadding
  exact ⟨⟨⟨ha, hl.1⟩, hb⟩, hl.2.1, ⟨hc, hl.2.2⟩, hd⟩

theorem lineValue_padded {pre post a b c d e : Bytes} {x : UInt8}
    (hpre : pre.dropWhile isBlank = x :: e) (h61 : 61 ∉ a ++ pre ++ b)
    (h0 : 0 ∉ a ++ pre ++ b ++ 61 :: (c ++ post ++ d)) (ha : ∀ x ∈ a, isBlank x = true)
    (hd : ∀ x ∈ d, isBlank x = true) :
    lineValue (a ++ pre ++ b ++ 61 :: (c ++ post ++ d)) =
      if FitsInt (pre.dropWhile isBlank ++ b) ∧ FitsInt ((c ++ post).rdropWhile isBlank) then
        some (chewText ((c ++ post).rdropWhile isBlank))
      else none := by
  rw [lineValue_eq h61 h0, dropWhile_padded b hpre ha, rdropWhile_append_of_pos _ hd, hpre,
    List.cons_append]

/-- Padding an assignment line changes nothing, and the value that is stored is the stripped text,
exactly when the text after the `=` is chewable without and with the blanks put before it, and the
padded texts before and after the `=` can be counted. -/
theorem padding_insignificant (fuel : ℕ) (slack slack' : ℕ → Bytes) {errorLineNumber : Bool}
    {before pre post after a b c d key text : Bytes} {m : IniMap}
    (hline : LineAt before (pre ++ 61 :: post) after) (h61 : 61 ∉ pre)
    (hblank : ∀ x ∈ a ++ b ++ c ++ d, isBlank x = true)
    (h0 : 0 ∉ before ++ (pre ++ 61 :: post) ++ after)
    (hassign : classify true (pre ++ 61 :: post) = .assignment key text)
    (hacc : ncIniFileParseFull fuel slack (some (before ++ (pre ++ 61 :: post) ++ after)) true
      errorLineNumber = .ok ⟨0, some m, none⟩) :
    ((∃ m', ncIniFileParseFull fuel slack'
        (some (before ++ (a ++ pre ++ b ++ 61 :: (c ++ post ++ d)) ++ after)) true errorLineNumber =
          .ok ⟨0, some m', none⟩ ∧ m.Same m') ∧
      lineValue (pre ++ 61 :: post) = some (strip post) ∧
      lineValue (a ++ pre ++ b ++ 61 :: (c ++ post ++ d)) = some (strip post)) ↔
    (Chewable post ∧ Chewable (c ++ post)) ∧
      FitsInt (pre.dropWhile isBlank ++ b) ∧ FitsInt ((c ++ post).rdropWhile isBlank) := by
  have ha : ∀ x ∈ a, isBlank x = true := fun x hx => hblank x (by simp [hx])
  have hb : ∀ x ∈ b, isBlank x = true := fun x hx => hblank x (by simp [hx])
  have hc : ∀ x ∈ c, isBlank x = true := fun x hx => hblank x (by simp [hx])
  have hd : ∀ x ∈ d, isBlank x = true := fun x hx => hblank x (by simp [hx])
  have h0l : 0 ∉ pre ++ 61 :: post := fun h =>
    h0 (List.mem_append_left _ (List.mem_append_right _ h))
  have h0post : 0 ∉ post := fun h => h0l (by simp [h])
  have h0c : 0 ∉ c ++ post := by
    rw [List.mem_append, not_or]
    exact ⟨blank_ne hc isBlank_zero, h0post⟩
  have h61p : 61 ∉ a ++ pre ++ b := by
    simp only [List.mem_append, not_or]
    exact ⟨⟨blank_ne ha (by decide), h61⟩, blank_ne hb (by decide)⟩
  have h0p := not_mem_padded hblank isBlank_zero h0l
  obtain ⟨x, e, hpre, -⟩ := exists_key h61 hassign
  have hvalue := lineValue_padded hpre h61p h0p ha hd
  have hchew : FitsInt ((c ++ post).rdropWhile isBlank) →
      (chewText ((c ++ post).rdropWhile isBlank) = strip post ↔ Chewable (c ++ post)) := by
    intro hcount
    rw [← chewText_eq_strip_iff h0c hcount, strip_append hc]
  constructor
  · rintro ⟨-, hv, hv'⟩
    rw [lineValue_eq h61 h0l] at hv
    rw [hvalue] at hv'
    split_ifs at hv hv' with hcount hcount'
    exact ⟨⟨(chewText_eq_strip_iff h0post hcount.2).mp (Option.some.inj hv),
      (hchew hcount'.2).mp (Option.some.inj hv')⟩, hcount'⟩
  rintro ⟨⟨hpost, hcpost⟩, hcount⟩
  have hcount₀ := fitsInt_of_padded hc hcount.2
  have hsame := (chewText_eq_strip_iff h0post hcount₀).mpr hpost
  have hsame' := (hchew hcount.2).mpr hcpost
  rw [lineValue_eq h61 h0l, hvalue, if_pos ⟨hcount.1.of_append, hcount₀⟩, if_pos hcount, hsame,
    hsame']
  refine ⟨⟨m, ?_, .refl m⟩, rfl, rfl⟩
  obtain ⟨ls, ls', hlines⟩ := exists_lines before after hline.before_newline hline.after_newline
  have hstop := stopOf_padded h61 ha hb hc hd hassign h0l h0p hcount.1 hcount.2
  rw [← hacc, parse_eq_runLines, parse_eq_runLines,
    hlines _ (not_mem_padded hblank (by decide) hline.newline) (by simp),
    hlines _ hline.newline (by simp)]
  rw [runLines_exchange (fun b => (hstop b).1) (fun b => (hstop b).2)]
  intro p
  obtain ⟨k, hk⟩ := classify_padded (c := c) h61 ha hb hd hassign
  obtain ⟨hplain, hpadded⟩ := hk p.currentSection.isSome
  rw [interpret_eq_classify h0l, interpret_eq_classify h0p, hplain, hpadded]
  cases p.currentSection with
  | none => rfl
  | some name =>
      simp only [Option.isSome_some, Bool.true_eq_false, if_false, act]
      rw [hsame, hsame']

/-- The line `k=v`, padded on all sides. -/
theorem padding_insignificant_short : ∃ fuel m m',
    ncIniFileParseFull fuel (fun _ => []) (some [91, 115, 93, 10, 107, 61, 118, 10]) true true =
      .ok ⟨0, some m, none⟩ ∧
    ncIniFileParseFull fuel (fun _ => [])
      (some [91, 115, 93, 10, 32, 107, 9, 61, 32, 118, 32, 10]) true true =
        .ok ⟨0, some m', none⟩ ∧ m.Same m' := by
  obtain ⟨p, -, hr, -⟩ := parse_accepted (fun _ => []) true
    (show 0 ∉ ([91, 115, 93, 10, 107, 61, 118, 10] : Bytes) by decide) (by decide)
    (passed_of_lt (by decide))
  obtain ⟨fuel, hacc⟩ := hr.exists
  have hline : LineAt [91, 115, 93, 10] ([107] ++ 61 :: [118]) [10] :=
    ⟨.inr rfl, by decide, .inr rfl⟩
  have hblank : ∀ x ∈ ([32] : Bytes) ++ [9] ++ [32] ++ [32], isBlank x = true :=
    List.all_eq_true.mp rfl
  have hassign : classify true ([107] ++ 61 :: [118]) = .assignment [107] [118] := by decide
  obtain ⟨⟨m', hacc', hsame⟩, -⟩ := (padding_insignificant fuel (fun _ => []) (fun _ => []) hline
    (by decide) hblank (by decide) hassign hacc).mpr (by decide)
  exact ⟨fuel, _, m', hacc, hacc', hsame⟩

/-- `k=a b` in the section `s`, and two blanks put behind the `=`. -/
theorem padding_significant : ∃ m m',
    Returns (fun f => ncIniFileParseFull f (fun _ => [])
      (some [91, 115, 93, 10, 107, 61, 97, 32, 98, 10]) true true) ⟨0, some m, none⟩ ∧
    Returns (fun f => ncIniFileParseFull f (fun _ => [])
      (some [91, 115, 93, 10, 107, 61, 32, 32, 97, 32, 98, 10]) true true) ⟨0, some m', none⟩ ∧
    m.Value (some [115]) (some [107]) (some [97, 32, 98]) ∧
    m'.Value (some [115]) (some [107]) (some []) ∧ ¬ m.Same m' := by
  obtain ⟨p, names, hr, B⟩ := parse_accepted (fun _ => []) true
    (show 0 ∉ ([91, 115, 93, 10, 107, 61, 97, 32, 98, 10] : Bytes) by decide) (by decide)
    (passed_of_lt (by decide))
  obtain ⟨p', names', hr', B'⟩ := parse_accepted (fun _ => []) true
    (show 0 ∉ ([91, 115, 93, 10, 107, 61, 32, 32, 97, 32, 98, 10] : Bytes) by decide) (by decide)
    (passed_of_lt (by decide))
  -- the second of two lines is the last assignment
  have hlast : ∀ {l line : Bytes} (text : Bytes), headerOf classify l = some [115] →
      classify true line = .assignment [107] text →
      LastValue classify [l, line] [115] [107] (chewText text) := by
    intro l line text hl hline
    refine ⟨1, text, ⟨line, rfl, hline, by simp [sectionBefore, hl]⟩, rfl, fun j hj text' hj' => ?_⟩
    have hlt := hj'.lt
    simp only [List.length_cons, List.length_nil] at hlt
    omega
  have hv := B.merged.value_iff.mpr (hlast [97, 32, 98] (by decide) (by decide))
  have hv' := B'.merged.value_iff.mpr (hlast [32, 32, 97, 32, 98] (by decide) (by decide))
  refine ⟨_, _, hr, hr', hv, hv', fun h => ?_⟩
  have h' := B'.merged.value_iff.mp ((h.2 _ _ _).mp hv)
  cases h'.unique (B'.merged.value_iff.mp hv')

end Nica
