import Nica.NcString

/-! # Tests on a string

`nc_string_dup_printf`, `ncstrlen`, `nc_string_equal`, `nc_string_const_equal`,
`nc_string_has_suffix_const` and `nc_string_has_prefix_const`; `none` is an access outside of a block
or through NULL, or a failed assertion.

The tests count from `len`, which a strip leaves alone.  So after any calls the prefix test is that of
the text, `nc_string_const_equal` looks no further than `len` characters, and the suffix test is that
of the text exactly while `len` is its length (`tests_right_iff`). -/

namespace Nica

open CString

/-- `(size_t) len`. -/
def sizeT (len : ℤ) : ℕ := (len % 2 ^ 64).toNat

/-- `strncmp`, as the difference of the first characters that differ. -/
def strncmp (a b : Bytes) : ℕ → Option ℤ
  | 0 => some 0
  | n + 1 =>
      match a, b with
      | x :: a, y :: b =>
          if x ≠ y then some (x.toNat - y.toNat : ℤ) else if x = 0 then some 0 else strncmp a b n
      | _, _ => none

/-- `nc_string_dup_printf`, where `vasprintf` makes the characters `text` of the pattern. -/
def ncStringDupPrintf (calloc granted : Bool) (ptn : Option Bytes) (text : Bytes) :
    Option NcString :=
  match ptn with
  | none => none
  | some _ =>
      if calloc then
        let (p, len) := asprintf granted text
        if len < 0 ∨ p = none then none else some ⟨p, len⟩
      else none

def ncstrlen (str : Option NcString) : Option ℤ := str.map NcString.len

def ncStringConstEqual (a : Option NcString) (b : Option Bytes) : Option Bool :=
  match a, b with
  | some a, some b =>
      match a.str with
      | none => some false
      | some str => (strncmp str b (sizeT a.len)).map fun r => decide (r = 0)
  | _, _ => some false

def ncStringEqual (a b : Option NcString) : Option Bool :=
  match a, b with
  | some a, some b =>
      match a.str, b.str with
      | some str, some str' => (strncmp str str' (sizeT a.len)).map fun r => decide (r = 0)
      | _, _ => some false
  | _, _ => some false

/-- `nc_string_has_suffix_const` and `nc_string_has_prefix_const`, which differ in the place of the
comparison. -/
def hasPartConst (place : ℤ → ℕ) (str : Option NcString) (part : Option Bytes) (len : ℤ) :
    Option Bool :=
  match str, part with
  | some s, some part =>
      if len > s.len ∨ len ≤ 0 then some false
      else s.str.bind fun str =>
        (strncmp (str.drop (place s.len)) part (sizeT len)).map fun r => decide (r = 0)
  | _, _ => some false

def ncStringHasSuffixConst (str : Option NcString) (suffix : Option Bytes) (len : ℤ) :
    Option Bool := hasPartConst (fun n => (n - len).toNat) str suffix len

def ncStringHasPrefixConst (str : Option NcString) (part : Option Bytes) (len : ℤ) :
    Option Bool := hasPartConst (fun _ => 0) str part len

/-! ### Comparing -/

/-- `strncmp` on two strings compares their first characters. -/
theorem strncmp_eq {a b : Bytes} (ha : 0 ∈ a) (hb : 0 ∈ b) (n : ℕ) :
    ∃ r, strncmp a b n = some r ∧ (r = 0 ↔ (chars a).take n = (chars b).take n) := by
  induction n generalizing a b with
  | zero => exact ⟨0, by unfold strncmp; rfl, by simp⟩
  | succ n ih =>
      cases a with
      | nil => exact absurd ha List.not_mem_nil
      | cons x a =>
          cases b with
          | nil => exact absurd hb List.not_mem_nil
          | cons y b =>
              rw [strncmp]
              by_cases hxy : x = y
              · subst hxy
                rw [if_neg (not_not.mpr rfl)]
                by_cases hx : x = 0
                · rw [if_pos hx, hx]
                  exact ⟨0, rfl, by simp⟩
                · rw [if_neg hx, chars_cons hx, chars_cons hx]
                  have ha' := (List.mem_cons.mp ha).resolve_left (Ne.symm hx)
                  have hb' := (List.mem_cons.mp hb).resolve_left (Ne.symm hx)
                  obtain ⟨r, hr, hiff⟩ := ih ha' hb'
                  refine ⟨r, hr, hiff.trans ?_⟩
                  rw [List.take_succ_cons, List.take_succ_cons, List.cons_inj_right]
              · rw [if_pos hxy]
                refine ⟨_, rfl, iff_of_false ?_ ?_⟩
                · intro h
                  apply hxy
                  apply UInt8.toNat_inj.mp
                  omega
                · -- at most one of the two strings is empty
                  intro h
                  by_cases hx : x = 0
                  · have hy : y ≠ 0 := fun hy => hxy (hx.trans hy.symm)
                    rw [hx, chars_zero, chars_cons hy] at h
                    cases h
                  · by_cases hy : y = 0
                    · rw [hy, chars_zero, chars_cons hx] at h
                      cases h
                    · rw [chars_cons hx, chars_cons hy] at h
                      exact hxy (List.cons.inj h).1

/-! ### What is behind the text -/

/-- The block shows the text `w`; behind its NUL are characters that a strip has cut off. -/
structure Shows (str w junk : Bytes) : Prop where
  block : str = w ++ 0 :: junk
  nul : 0 ∉ w
  behind : ∀ c ∈ junk, c = 0 ∨ c = 32
  last : junk ≠ [] → ∃ c, w.getLast? = some c ∧ c ≠ 32

theorem shows_text {w : Bytes} (h : 0 ∉ w) : Shows (w ++ [0]) w [] :=
  ⟨rfl, h, nofun, fun h => absurd rfl h⟩

theorem Shows.chars_eq {str w junk : Bytes} (H : Shows str w junk) : chars str = w := by
  rw [H.block, chars_append_zero, chars_eq_self H.nul]

theorem last_chars {w : Bytes} (h0 : 0 ∉ w) {n : ℕ} (hn : n ≤ w.length) :
    (chars ((w ++ [0]).drop (w.length - n))).take n = w.drop (w.length - n) := by
  rw [List.drop_append_of_le_length (Nat.sub_le _ _), chars_append_zero,
    chars_eq_self fun h => h0 (List.mem_of_mem_drop h), List.take_of_length_le]
  rw [List.length_drop]
  omega

/-- What the second loop of `nc_string_strip` writes. -/
theorem stripBack_cases {str str' : Bytes} {i n : ℕ} (h : stripBack str i n = some str') :
    str' = str ∨ ∃ j c, j < n ∧ str[j]? = some c ∧ c ≠ 32 ∧
      (∀ k, j < k → k < n → str[k]? = some 32) ∧ str' = str.set (j + 1) 0 := by
  induction n with
  | zero => exact .inl (Option.some.inj h).symm
  | succ n ih =>
      rw [stripBack] at h
      by_cases hn : n > i
      · rw [if_pos hn] at h
        cases hc : str[n]? with
        | none =>
            rw [hc] at h
            cases h
        | some c =>
            rw [hc] at h
            simp only at h
            by_cases hspace : c ≠ 32
            · rw [if_pos hspace, write] at h
              split_ifs at h with hlt
              refine .inr ⟨n, c, by omega, hc, hspace, fun k hk hkn => by omega, ?_⟩
              exact (Option.some.inj h).symm
            · rw [if_neg hspace] at h
              cases ih h with
              | inl h => exact .inl h
              | inr h =>
                  obtain ⟨j, c', hj, hc', hne, hspaces, heq⟩ := h
                  refine .inr ⟨j, c', by omega, hc', hne, fun k hk hkn => ?_, heq⟩
                  rcases Nat.lt_succ_iff_lt_or_eq.mp hkn with hlt | rfl
                  · exact hspaces k hk hlt
                  · rw [hc, not_not.mp hspace]
      · rw [if_neg hn] at h
        exact .inl (Option.some.inj h).symm

/-- A strip cuts off spaces of the text, or changes nothing before its NUL. -/
theorem Shows.stripBack {str w junk str' : Bytes} {i n : ℕ} (H : Shows str w junk)
    (hn : str.length = n + 1) (h : Nica.stripBack str i n = some str') :
    ∃ w' junk', Shows str' w' junk' := by
  cases stripBack_cases h with
  | inl h => exact ⟨w, junk, h ▸ H⟩
  | inr h =>
      obtain ⟨j, c, hj, hc, hne, hspaces, rfl⟩ := h
      have hblock := H.block
      by_cases hw : j < w.length
      · by_cases hend : j + 1 = w.length
        · -- the NUL is written over the NUL of the text
          refine ⟨w, junk, ?_⟩
          have hsame : str.set (j + 1) 0 = str := by
            rw [hblock, hend, List.set_append_right _ _ le_rfl, Nat.sub_self, List.set_cons_zero]
          rw [hsame]
          exact H
        · have hfull : w.length = n := by
            by_contra hlt
            have hnul : str[w.length]? = some 0 := by
              rw [hblock, List.getElem?_append_right le_rfl, Nat.sub_self, List.getElem?_cons_zero]
            have hlen : w.length < n := by
              rw [hblock, List.length_append, List.length_cons] at hn
              omega
            have hspace := hspaces w.length hw hlen
            rw [hnul] at hspace
            exact absurd (Option.some.inj hspace) (by decide)
          have hjunk : junk = [] := by
            apply List.length_eq_zero_iff.mp
            rw [hblock, List.length_append, List.length_cons] at hn
            omega
          subst hjunk
          refine ⟨w.take (j + 1), w.drop (j + 2) ++ [0], ?_, ?_, ?_, fun _ => ⟨c, ?_, hne⟩⟩
          · rw [hblock, List.set_append_left _ _ (by omega),
              List.set_eq_take_append_cons_drop, if_pos (by omega), List.append_assoc,
              List.cons_append]
          · exact fun h0 => H.nul (List.mem_of_mem_take h0)
          · intro x hx
            rw [List.mem_append, List.mem_singleton] at hx
            cases hx with
            | inr hx => exact .inl hx
            | inl hx =>
                obtain ⟨k, hk, rfl⟩ := List.getElem_of_mem hx
                rw [List.length_drop] at hk
                have hspace := hspaces (j + 2 + k) (by omega) (by omega)
                rw [hblock, List.getElem?_append_left (by omega),
                  List.getElem?_eq_getElem (by omega)] at hspace
                rw [List.getElem_drop]
                exact .inr (Option.some.inj hspace)
          · rw [hblock, List.getElem?_append_left hw] at hc
            rw [List.getLast?_eq_getElem?, List.length_take, Nat.min_eq_left (by omega),
              Nat.add_sub_cancel, List.getElem?_take_of_lt (by omega), hc]
      · -- behind the text
        refine ⟨w, junk.set (j - w.length) 0, ?_, H.nul, ?_, fun hjunk => H.last ?_⟩
        · rw [hblock, List.set_append_right _ _ (by omega),
            show j + 1 - w.length = (j - w.length) + 1 by omega, List.set_cons_succ]
        · intro x hx
          cases List.mem_or_eq_of_mem_set hx with
          | inl hx => exact H.behind x hx
          | inr hx => exact .inl hx
        · rintro rfl
          exact hjunk List.set_nil

/-- The string has `len` characters, and the first of them are the text `w`. -/
structure Texted (s : NcString) (str w junk : Bytes) : Prop where
  sized : Sized s str
  shown : Shows str w junk
  fits : s.len ≤ intMax

theorem Texted.content_eq {s : NcString} {str w junk : Bytes} (T : Texted s str w junk) :
    content s = w := by
  rw [content, T.sized.block, Option.getD_some, T.shown.chars_eq]

theorem texted_joined {w : Bytes} (h0 : 0 ∉ w) (hint : w.length ≤ intMax) :
    Texted ⟨some (w ++ [0]), w.length⟩ (w ++ [0]) w [] :=
  ⟨asprintf_sized (asprintf_granted hint), shows_text h0, by simpa using hint⟩

theorem Texted.call {s : NcString} {str w junk : Bytes} (T : Texted s str w junk) {op : StringOp}
    (hop : op.Valid) : ∃ s' str' w' junk', stringCall s op = some s' ∧ Texted s' str' w' junk' := by
  have S := T.sized
  cases op with
  | strip =>
      obtain ⟨i, str', s', h, S', hlen⟩ := S.strip
      have hback : ∃ k, stripBack str k s.len.toNat = some str' := by
        rw [ncStringStrip, S.block] at h
        obtain ⟨k, -, h⟩ := Option.bind_eq_some_iff.mp h
        obtain ⟨str'', hback, h⟩ := Option.bind_eq_some_iff.mp h
        obtain ⟨-, rfl⟩ := Prod.mk.inj (Option.some.inj h)
        rw [← Option.some.inj S'.block]
        exact ⟨k, hback⟩
      obtain ⟨k, hback⟩ := hback
      have hsize := S.len
      have hpos := List.length_pos_of_mem S.zero_mem
      obtain ⟨w', junk', H'⟩ := T.shown.stripBack (n := s.len.toNat) (by omega) hback
      exact ⟨s', str', w', junk', by rw [stringCall, h]; rfl, ⟨S', H', by rw [hlen]; exact T.fits⟩⟩
  | cat append =>
      cases append with
      | none => exact ⟨s, str, w, junk, rfl, T⟩
      | some t =>
          have ht := hop t rfl
          by_cases hint : (chars str ++ chars t).length ≤ intMax
          · rw [stringCall, S.cat ht hint]
            split_ifs
            · exact ⟨s, str, w, junk, rfl, T⟩
            · refine ⟨_, _, _, [], rfl, texted_joined ?_ hint⟩
              rw [List.mem_append, not_or]
              exact ⟨zero_notMem_chars str, zero_notMem_chars t⟩
          · rw [stringCall, S.cat_long ht (Nat.lt_of_not_le hint)]
            exact ⟨s, str, w, junk, rfl, T⟩

theorem Texted.calls {s : NcString} {str w junk : Bytes} (T : Texted s str w junk)
    {ops : List StringOp} (hops : ∀ op ∈ ops, op.Valid) :
    ∃ s' str' w' junk', stringCalls s ops = some s' ∧ Texted s' str' w' junk' := by
  induction ops generalizing s str w junk with
  | nil => exact ⟨s, str, w, junk, rfl, T⟩
  | cons op ops ih =>
      obtain ⟨s₁, str₁, w₁, junk₁, h₁, T₁⟩ := T.call (hops op List.mem_cons_self)
      obtain ⟨s', str', w', junk', h, T'⟩ := ih T₁ fun o ho => hops o (List.mem_cons_of_mem op ho)
      exact ⟨s', str', w', junk', by rw [stringCalls, h₁]; exact h, T'⟩

/-- The strings that `nc_string_dup` and `nc_string_dup_printf` return; the text printed has no
NUL. -/
inductive Made (s : NcString) : Prop
  | dup {calloc granted : Bool} {str : Bytes} : 0 ∈ str →
      ncStringDup calloc granted (some str) = some (some s) → Made s
  | printf {calloc granted : Bool} {ptn text : Bytes} : 0 ∉ text →
      ncStringDupPrintf calloc granted (some ptn) text = some s → Made s

theorem texted_of_asprintf {granted : Bool} {w : Bytes} (h0 : 0 ∉ w)
    (h : ¬ ((asprintf granted w).2 < 0 ∨ (asprintf granted w).1 = none)) :
    Texted ⟨(asprintf granted w).1, (asprintf granted w).2⟩ (w ++ [0]) w [] := by
  by_cases hfits : granted = true ∧ w.length ≤ intMax
  · rw [hfits.1, asprintf_granted hfits.2]
    exact texted_joined h0 hfits.2
  · exfalso
    apply h
    left
    rw [asprintf, if_neg (by simpa using hfits)]
    decide

theorem Made.texted {s : NcString} (h : Made s) : ∃ str w, Texted s str w [] := by
  cases h with
  | @dup calloc granted str hstr h =>
      cases calloc with
      | false => cases h
      | true =>
          rw [ncStringDup, if_pos rfl, stringAt_zero hstr, Option.bind_eq_bind,
            Option.bind_some] at h
          simp only at h
          split_ifs at h with hfail
          · cases Option.some.inj h
          · obtain rfl := Option.some.inj (Option.some.inj h)
            exact ⟨_, _, texted_of_asprintf (zero_notMem_chars str) hfail⟩
  | @printf calloc granted ptn text h0 h =>
      cases calloc with
      | false => cases h
      | true =>
          rw [ncStringDupPrintf, if_pos rfl] at h
          simp only at h
          split_ifs at h with hfail
          obtain rfl := Option.some.inj h
          exact ⟨_, _, texted_of_asprintf h0 hfail⟩

/-! ### What the tests say -/

namespace Texted

variable {s : NcString} {str w junk t : Bytes}

theorem length_eq (T : Texted s str w junk) : s.len = w.length + junk.length := by
  have hlen := T.sized.len
  rw [T.shown.block, List.length_append, List.length_cons] at hlen
  push_cast at hlen
  omega

/-- The length of a string is not that of its text once a strip has cut it. -/
theorem whole_iff (T : Texted s str w junk) : s.len = w.length ↔ junk = [] := by
  rw [T.length_eq, ← List.length_eq_zero_iff]
  omega

theorem sizeT_len (T : Texted s str w junk) : sizeT s.len = w.length + junk.length := by
  have hlen := T.length_eq
  have hint := T.fits
  unfold sizeT
  unfold intMax at hint
  omega

theorem zero_mem_drop (T : Texted s str w junk) {n : ℕ} (hn : n ≤ w.length + junk.length) :
    0 ∈ str.drop n := by
  have hlast := T.sized.nul
  have hlen : str.length = w.length + junk.length + 1 := by
    rw [T.shown.block, List.length_append, List.length_cons]
    omega
  rw [List.getLast?_eq_getElem?, hlen, Nat.add_sub_cancel] at hlast
  obtain ⟨h, hat⟩ := List.getElem?_eq_some_iff.mp hlast
  refine List.mem_iff_getElem.mpr ⟨w.length + junk.length - n, by rw [List.length_drop]; omega, ?_⟩
  rw [List.getElem_drop, ← hat]
  congr 1
  omega

/-- `nc_string_const_equal` asks for a first part, except on a string that a strip has cut. -/
theorem constEqual (T : Texted s str w junk) (ht : 0 ∈ t) :
    ncStringConstEqual (some s) (some t) =
      some (decide (if junk = [] then w <+: chars t else w = chars t)) := by
  obtain ⟨r, hr, hiff⟩ := strncmp_eq T.sized.zero_mem ht (w.length + junk.length)
  rw [T.shown.chars_eq, List.take_of_length_le (Nat.le_add_right _ _)] at hiff
  simp only [ncStringConstEqual, T.sized.block, T.sizeT_len, hr, Option.map_some,
    Option.some.injEq, decide_eq_decide, hiff]
  by_cases hjunk : junk = []
  · rw [if_pos hjunk, hjunk, List.length_nil, Nat.add_zero, List.prefix_iff_eq_take]
  · rw [if_neg hjunk]
    have hpos := List.length_pos_of_ne_nil hjunk
    constructor
    · intro h
      -- `w` is shorter than the part of `t` that is compared, unless it is all of it
      have hlen := congrArg List.length h
      rw [List.length_take] at hlen
      rw [h, List.take_of_length_le (by omega)]
    · intro h
      rw [← h, List.take_of_length_le (Nat.le_add_right _ _)]

/-- The comparison of a part of the string with all of a text. -/
theorem hasPartConst_eq (T : Texted s str w junk) (ht : 0 ∈ t) {place : ℤ → ℕ}
    (hplace : place s.len ≤ w.length + junk.length) :
    hasPartConst place (some s) (some t) (chars t).length =
      some (decide ((chars t).length ≤ w.length + junk.length ∧ chars t ≠ [] ∧
        (chars (str.drop (place s.len))).take (chars t).length = chars t)) := by
  have hlen := T.length_eq
  have hint := T.fits
  rw [hasPartConst]
  by_cases hshort : (chars t).length > s.len ∨ ((chars t).length : ℤ) ≤ 0
  · rw [if_pos hshort, Option.some.injEq, eq_comm, decide_eq_false_iff_not]
    rintro ⟨hle, hne, -⟩
    have hpos := List.length_pos_of_ne_nil hne
    omega
  · rw [not_or] at hshort
    have hsize : sizeT (chars t).length = (chars t).length := by
      unfold sizeT
      unfold intMax at hint
      omega
    obtain ⟨r, hr, hiff⟩ := strncmp_eq (T.zero_mem_drop hplace) ht (chars t).length
    rw [List.take_length] at hiff
    have hne : chars t ≠ [] := fun h => hshort.2 (by rw [h]; rfl)
    have hle : (chars t).length ≤ w.length + junk.length := by omega
    rw [if_neg (not_or.mpr hshort), T.sized.block, Option.bind_some, hsize, hr, Option.map_some]
    simp [hiff, hne, hle]

theorem hasPrefix (T : Texted s str w junk) (ht : 0 ∈ t) :
    ncStringHasPrefixConst (some s) (some t) (chars t).length =
      some (decide (chars t ≠ [] ∧ chars t <+: w)) := by
  rw [ncStringHasPrefixConst, T.hasPartConst_eq ht (Nat.zero_le _), List.drop_zero,
    T.shown.chars_eq, Option.some.injEq, decide_eq_decide]
  constructor
  · rintro ⟨-, hne, h⟩
    exact ⟨hne, List.prefix_iff_eq_take.mpr h.symm⟩
  · rintro ⟨hne, h⟩
    exact ⟨by have := h.length_le; omega, hne, (List.prefix_iff_eq_take.mp h).symm⟩

/-- The suffix test looks at the characters before the last NUL of the block. -/
theorem hasSuffix (T : Texted s str w junk) (ht : 0 ∈ t) :
    ncStringHasSuffixConst (some s) (some t) (chars t).length =
      some (decide ((chars t).length ≤ w.length + junk.length ∧ chars t ≠ [] ∧
        (chars (str.drop (w.length + junk.length - (chars t).length))).take (chars t).length =
          chars t)) := by
  have hlen := T.length_eq
  have hplace : (s.len - (chars t).length).toNat =
      w.length + junk.length - (chars t).length := by omega
  rw [ncStringHasSuffixConst, T.hasPartConst_eq ht (by omega)]
  simp only [hplace]

end Texted

/-- After any calls on a string, the prefix test is that of the text, `nc_string_const_equal` and
`nc_string_equal` ask for a first part of the other text, or for all of it if the string was cut, and
the suffix test is that of the text exactly when the string was not cut. -/
theorem tests_right_iff {s₀ : NcString} (hmade : Made s₀) {ops : List StringOp}
    (hops : ∀ op ∈ ops, op.Valid) :
    ∃ s, stringCalls s₀ ops = some s ∧
      (∀ t : Bytes, 0 ∈ t →
        ncStringHasPrefixConst (some s) (some t) (chars t).length =
          some (decide (chars t ≠ [] ∧ chars t <+: content s)) ∧
        ncStringConstEqual (some s) (some t) = some (decide
          (if ncstrlen (some s) = some ((content s).length : ℤ) then content s <+: chars t
            else content s = chars t)) ∧
        ∀ n, ncStringEqual (some s) (some ⟨some t, n⟩) = ncStringConstEqual (some s) (some t)) ∧
      ((∀ t : Bytes, 0 ∈ t →
          ncStringHasSuffixConst (some s) (some t) (chars t).length =
            some (decide (chars t ≠ [] ∧ chars t <:+ content s))) ↔
        ncstrlen (some s) = some ((content s).length : ℤ)) := by
  obtain ⟨str₀, w₀, T₀⟩ := hmade.texted
  obtain ⟨s, str, w, junk, hcalls, T⟩ := T₀.calls hops
  refine ⟨s, hcalls, fun t ht => ⟨?_, ?_, fun n => ?_⟩, ?_⟩
  · rw [T.hasPrefix ht, T.content_eq]
  · rw [T.constEqual ht]
    simp only [ncstrlen, Option.map_some, Option.some.injEq, T.content_eq, T.whole_iff]
  · rw [ncStringEqual, ncStringConstEqual, T.sized.block]
  · rw [ncstrlen, Option.map_some, Option.some.injEq, T.content_eq, T.whole_iff]
    constructor
    · -- the last character of the text is not what stands at the end of a string that was cut
      intro h
      by_contra hjunk
      obtain ⟨c, hc, hne⟩ := T.shown.last hjunk
      have hzero : c ≠ 0 := by
        rintro rfl
        exact T.shown.nul (List.mem_of_getLast? hc)
      have hchars : chars [c, 0] = [c] := by rw [chars_cons hzero, chars_zero]
      have htest := h [c, 0] (by simp)
      rw [T.hasSuffix (by simp), hchars, Option.some.injEq, decide_eq_decide] at htest
      obtain ⟨u, hu⟩ := List.getLast?_eq_some_iff.mp hc
      obtain ⟨-, -, htake⟩ := htest.mpr ⟨List.cons_ne_nil _ _, u, hu.symm⟩
      have hat : c ∈ str.drop (w.length + junk.length - [c].length) := by
        apply (chars_initial _).subset
        apply List.mem_of_mem_take
        rw [htake]
        exact List.mem_singleton_self c
      have hpos := List.length_pos_of_ne_nil hjunk
      rw [T.shown.block, List.length_singleton, List.drop_append,
        List.drop_eq_nil_of_le (by omega), List.nil_append] at hat
      cases List.mem_cons.mp (List.mem_of_mem_drop hat) with
      | inl hz => exact hzero hz
      | inr hin => exact (T.shown.behind c hin).elim hzero hne
    · intro hjunk t ht
      subst hjunk
      rw [T.hasSuffix ht, Option.some.injEq, decide_eq_decide, List.length_nil, Nat.add_zero,
        T.shown.block]
      constructor
      · rintro ⟨hle, hne, h⟩
        rw [last_chars T.shown.nul hle] at h
        exact ⟨hne, List.suffix_iff_eq_drop.mpr h.symm⟩
      · rintro ⟨hne, h⟩
        rw [last_chars T.shown.nul h.length_le]
        exact ⟨h.length_le, hne, (List.suffix_iff_eq_drop.mp h).symm⟩

/-- The string `ab` with two blanks behind it, stripped: it starts with an `a`, and the suffix test
is wrong for some text. -/
theorem tests_right_iff_stripped : ∃ s : NcString,
    stringCalls ⟨some [97, 98, 32, 32, 0], 4⟩ [.strip] = some s ∧
    ncStringHasPrefixConst (some s) (some [97, 0]) 1 = some true ∧
    ¬ ∀ t : Bytes, 0 ∈ t → ncStringHasSuffixConst (some s) (some t) (chars t).length =
      some (decide (chars t ≠ [] ∧ chars t <:+ content s)) := by
  have hmade : Made ⟨some [97, 98, 32, 32, 0], 4⟩ :=
    Made.dup (show (0 : UInt8) ∈ [97, 98, 32, 32, 0] by decide)
      (show ncStringDup true true _ = _ by decide)
  have hops : ∀ op ∈ [StringOp.strip], op.Valid := by
    intro op hop t ht
    rw [List.mem_singleton] at hop
    rw [hop] at ht
    cases ht
  obtain ⟨s, hcalls, htests, hsuffix⟩ := tests_right_iff hmade hops
  have hs : stringCalls ⟨some [97, 98, 32, 32, 0], 4⟩ [.strip] =
      some ⟨some [97, 98, 0, 32, 0], 4⟩ := by decide
  obtain rfl := Option.some.inj (hs.symm.trans hcalls)
  refine ⟨_, hcalls, ?_, ?_⟩
  · exact (htests [97, 0] (by decide)).1
  · rw [hsuffix]
    decide

end Nica
