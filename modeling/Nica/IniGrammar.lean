import Nica.IniFile
import Nica.Trimming

/-! # The grammar of INI files

`lines` splits a file at its newlines and `classify` says what a line without NULs is.  The parser
reads every line as `interpret` says, which agrees with `classify` on lines without NULs
(`interpret_eq_classify`) and lets the string of any other line end at its first NUL.  The body of
the line loop is `act` on that reading, unless the line stops the parser (`parseLine_eq`): because
`string_strip` misreads it, or `string_chew_terminated` cannot count a text in it (`stopOf`). -/

namespace Nica

open CString NcHashmap Fueled Trimming

/-! ### Lines -/

/-- The lines of a file; behind the last newline there is a line unless the file ends there. -/
def lines (content : Bytes) : List Bytes :=
  if (content.splitOn 10).getLast? = some [] then (content.splitOn 10).dropLast
  else content.splitOn 10

/-- A line without its newline. -/
def chomp (raw : Bytes) : Bytes := if raw.getLast? = some 10 then raw.dropLast else raw

theorem chomp_cons {c : UInt8} (hc : c ≠ 10) (raw : Bytes) : chomp (c :: raw) = c :: chomp raw := by
  unfold chomp
  cases raw with
  | nil => simp [hc]
  | cons d raw =>
      rw [List.getLast?_cons_cons, List.dropLast_cons_cons]
      split_ifs <;> rfl

theorem lines_newline (content : Bytes) : lines (10 :: content) = [] :: lines content := by
  have hs : (10 :: content).splitOn 10 = [] :: content.splitOn 10 := by
    rw [List.splitOn_cons_eq_if_modifyHead]
    rfl
  have hne := List.splitOn_ne_nil 10 content
  unfold lines
  rw [hs]
  cases h : content.splitOn 10 with
  | nil => exact absurd h hne
  | cons l ls =>
      rw [List.getLast?_cons_cons, List.dropLast_cons_cons]
      split_ifs <;> rfl

theorem lines_cons {c : UInt8} (hc : c ≠ 10) (content : Bytes) :
    lines (c :: content) =
      match lines content with
      | [] => [[c]]
      | l :: ls => (c :: l) :: ls := by
  have hs : (c :: content).splitOn 10 = (content.splitOn 10).modifyHead (c :: ·) := by
    rw [List.splitOn_cons_eq_if_modifyHead, if_neg (by simpa using hc)]
  unfold lines
  rw [hs]
  cases h : content.splitOn 10 with
  | nil => exact absurd h (List.splitOn_ne_nil 10 content)
  | cons l ls =>
      cases ls with
      | nil => by_cases hl : l = [] <;> simp [hl]
      | cons l' ls =>
          rw [List.modifyHead_cons, List.getLast?_cons_cons, List.getLast?_cons_cons,
            List.dropLast_cons_cons, List.dropLast_cons_cons]
          split_ifs <;> rfl

/-- `getline` returns the lines of the file. -/
theorem map_chomp_rawLines (content : Bytes) : (rawLines content).map chomp = lines content := by
  induction content with
  | nil => rfl
  | cons c content ih =>
      rw [rawLines]
      split_ifs with hc
      · rw [hc, lines_newline, List.map_cons, ih]
        rfl
      · rw [lines_cons hc, ← ih]
        cases rawLines content with
        | nil => exact congrArg (fun l => [l]) (chomp_cons hc [])
        | cons raw raws => exact congrArg (fun l => l :: raws.map chomp) (chomp_cons hc raw)

/-- `getline` returns at least one character. -/
theorem nil_notMem_rawLines (content : Bytes) : [] ∉ rawLines content := by
  induction content with
  | nil => exact List.not_mem_nil
  | cons c content ih =>
      rw [rawLines]
      split_ifs
      · simpa using ih
      · cases h : rawLines content with
        | nil => simp
        | cons raw raws =>
            rw [h, List.mem_cons, not_or] at ih
            simpa using ih.2

theorem fixNewline_shown {raw : Bytes} (h : raw ≠ []) (slack : Bytes) :
    ∃ rest, fixNewline (raw ++ 0 :: slack) raw.length =
      some (chomp raw ++ 0 :: rest, (chomp raw).length) := by
  have hread := readBefore_shown h (0 :: slack)
  simp only [fixNewline, hread, Option.bind_eq_bind, Option.bind_some]
  unfold chomp
  rw [List.getLast?_eq_some_getLast h]
  by_cases hc : raw.getLast h = 10
  · obtain ⟨rest, hw⟩ := writeBefore_shown h 0 0 slack
    rw [if_pos hc, if_pos (by rw [hc]), hw]
    exact ⟨rest, by simp⟩
  · rw [if_neg hc, if_neg fun he => hc (Option.some.inj he)]
    exact ⟨slack, rfl⟩

/-! ### What a line says -/

/-- What a line can be. -/
inductive Line where
  | blank
  | comment
  | header (name : Bytes)
  | assignment (key text : Bytes)
  | error (err : NcIniError)
deriving DecidableEq

/-- The text before the first `=`. -/
def beforeEquals (l : Bytes) : Bytes := l.takeWhile (· ≠ 61)

/-- The text after the first `=`. -/
def afterEquals (l : Bytes) : Bytes := (l.dropWhile (· ≠ 61)).tail

/-- The grammar of a line, by its stripped text; `sectioned` says whether a header came before. -/
def classify (sectioned : Bool) (line : Bytes) : Line :=
  let l := strip line
  if l = [] then .blank
  else if l.head? = some 91 then
    if l.getLast? = some 93 then .header l.dropLast.tail else .error .notClosed
  else if l.head? = some 35 ∨ l.head? = some 59 then .comment
  else if 61 ∉ l then .error .invalidLine
  else if sectioned = false then .error .noSection
  else if strip (beforeEquals l) = [] then .error .emptyKey
  else .assignment (strip (beforeEquals l)) (afterEquals l)

/-- How the parser reads a line: `k` is what `string_strip` keeps, `l` the string in it. -/
def interpret (sectioned : Bool) (line : Bytes) : Line :=
  let k := kept line
  let l := chars k
  if l = [] then .blank
  else if l.head? = some 91 then
    if k.getLast? = some 93 then .header (chars k.dropLast.tail) else .error .notClosed
  else if l.head? = some 35 ∨ l.head? = some 59 then .comment
  else if 61 ∉ l then .error .invalidLine
  else if sectioned = false then .error .noSection
  else if strip (beforeEquals l) = [] then .error .emptyKey
  else .assignment (strip (beforeEquals l)) (afterEquals l)

/-- A reading of lines for which it matters only at an assignment, and at a line that would be wrong
there too, whether a header came before. -/
structure Reading (read : Bool → Bytes → Line) : Prop where
  unsectioned : ∀ l, read false l = .error .noSection ∨
    (read false l = read true l ∧ ∀ key text, read true l ≠ .assignment key text)

theorem classify_reading : Reading classify where
  unsectioned l := by
    unfold classify
    simp only [Bool.true_eq_false, if_false, if_true]
    split_ifs <;> simp

theorem interpret_reading : Reading interpret where
  unsectioned l := by
    unfold interpret
    simp only [Bool.true_eq_false, if_false, if_true]
    split_ifs <;> simp

/-- Whether there was a header matters only for an error. -/
theorem Reading.read_true {read : Bool → Bytes → Line} (R : Reading read) {b : Bool} {l : Bytes}
    (h : ∀ err, read b l ≠ .error err) : read true l = read b l := by
  cases b with
  | true => rfl
  | false =>
      rcases R.unsectioned l with herr | ⟨heq, -⟩
      · exact absurd herr (h _)
      · exact heq.symm

/-- Only a line behind a header is an assignment. -/
theorem Reading.sectioned {read : Bool → Bytes → Line} (R : Reading read) {b : Bool}
    {l key text : Bytes} (h : read b l = .assignment key text) : b = true := by
  cases b with
  | true => rfl
  | false =>
      rcases R.unsectioned l with herr | ⟨heq, hno⟩
      · rw [herr] at h
        cases h
      · exact absurd (heq.symm.trans h) (hno key text)

theorem strip_sublist (l : Bytes) : (strip l).Sublist l :=
  (List.rdropWhile_prefix isBlank (l := l.dropWhile isBlank)).sublist.trans (List.dropWhile_sublist _)

theorem interpret_eq_classify {line : Bytes} (h : 0 ∉ line) (sectioned : Bool) :
    interpret sectioned line = classify sectioned line := by
  have hs : 0 ∉ strip line := fun h0 => h ((strip_sublist line).subset h0)
  have ht : 0 ∉ (strip line).dropLast.tail := fun h0 =>
    hs (List.dropLast_subset _ (List.mem_of_mem_tail h0))
  unfold interpret classify
  rw [kept_eq_strip h]
  simp only [chars_eq_self hs, chars_eq_self ht]

/-! ### Lines that stop the parser -/

/-- `l` is taken for an assignment, and `string_chew_terminated` cannot count its key or its value. -/
def Overlong (l : Bytes) : Prop :=
  61 ∈ l ∧ l.head? ∉ [some 91, some 35, some 59] ∧
    ¬ (FitsInt (beforeEquals l) ∧ FitsInt (afterEquals l))

instance (l : Bytes) : Decidable (Overlong l) := inferInstanceAs (Decidable (_ ∧ _ ∧ _))

/-- What stops the parser at a line. -/
def stopOf (sectioned : Bool) (line : Bytes) : Option Stop :=
  if Misread line then some .outside
  else if sectioned = true ∧ Overlong (chars (kept line)) then some .counter
  else none

theorem stopOf_plain {line : Bytes} (h : 0 ∉ line) (sectioned : Bool) :
    stopOf sectioned line =
      if sectioned = true ∧ Overlong (strip line) then some .counter else none := by
  have hs : 0 ∉ strip line := fun h0 => h ((strip_sublist line).subset h0)
  rw [stopOf, if_neg fun hm => h hm.2, kept_eq_strip h, chars_eq_self hs]

theorem stopOf_unsectioned {line : Bytes} (h : 0 ∉ line) : stopOf false line = none := by
  simp [stopOf_plain h]

/-! ### Assignment lines -/

/-- Stripping a line that has an `=`. -/
theorem strip_equals (pre post : Bytes) :
    strip (pre ++ 61 :: post) = pre.dropWhile isBlank ++ 61 :: post.rdropWhile isBlank := by
  unfold strip
  rw [dropWhile_append_cons (by decide), rdropWhile_append_cons (by decide)]

section key
variable {line e post : Bytes} {x : UInt8}

theorem beforeEquals_key (h61 : 61 ∉ e) (post : Bytes) : beforeEquals (e ++ 61 :: post) = e := by
  unfold beforeEquals
  rw [List.takeWhile_append_of_pos fun c hc => decide_eq_true (ne_of_mem_of_not_mem hc h61),
    List.takeWhile_cons_of_neg (by decide), List.append_nil]

theorem afterEquals_key (h61 : 61 ∉ e) (post : Bytes) : afterEquals (e ++ 61 :: post) = post := by
  unfold afterEquals
  rw [List.dropWhile_append_of_pos fun c hc => decide_eq_true (ne_of_mem_of_not_mem hc h61),
    List.dropWhile_cons_of_neg (by decide), List.tail_cons]

/-- A line whose stripped text starts like a key. -/
theorem classify_of_key (hl : strip line = x :: e ++ 61 :: post) (h61 : 61 ∉ x :: e)
    (hx : ¬ isBlank x = true) (h91 : x ≠ 91) (hcom : ¬ (x = 35 ∨ x = 59)) (sectioned : Bool) :
    classify sectioned line =
      if sectioned = false then .error .noSection else .assignment (strip (x :: e)) post := by
  have hkey : strip (x :: e) ≠ [] := by
    have h := (List.dropWhile_eq_self_iff (p := isBlank) (l := x :: e)).mpr fun _ => hx
    unfold strip
    rw [h, Ne, List.rdropWhile_eq_nil_iff]
    exact fun h => hx (h x List.mem_cons_self)
  unfold classify
  rw [hl]
  simp only [beforeEquals_key h61, afterEquals_key h61]
  rw [if_neg (by simp), if_neg (by simpa using h91), if_neg (by simpa using hcom),
    if_neg (by simp), if_neg hkey]

/-- The texts that must be counted in such a line. -/
theorem stopOf_of_key (h0 : 0 ∉ line) (hl : strip line = x :: e ++ 61 :: post) (h61 : 61 ∉ x :: e)
    (h91 : x ≠ 91) (hcom : ¬ (x = 35 ∨ x = 59)) :
    stopOf true line = if FitsInt (x :: e) ∧ FitsInt post then none else some .counter := by
  have hfirst : some x ∉ [some 91, some 35, some 59] := by
    rw [not_or] at hcom
    simp [h91, hcom]
  have hu : Overlong (strip line) ↔ ¬ (FitsInt (x :: e) ∧ FitsInt post) := by
    rw [Overlong, hl, beforeEquals_key h61, afterEquals_key h61, List.cons_append, List.head?_cons]
    exact ⟨fun h => h.2.2, fun h => ⟨by simp, hfirst, h⟩⟩
  rw [stopOf_plain h0]
  by_cases hc : FitsInt (x :: e) ∧ FitsInt post
  · rw [if_pos hc, if_neg fun h => hu.mp h.2 hc]
  · rw [if_neg hc, if_pos ⟨rfl, hu.mpr hc⟩]

end key

/-! ### What the parser does with it -/

/-- What the parser does with a line. -/
def act (fuel : ℕ) (p : Parser) : Line → Except Stop Jump
  | .blank => .ok (.next p)
  | .comment => .ok (.next p)
  | .header name => do
      let p ← openSection fuel p name
      .ok (.next p)
  | .assignment key text => store fuel p key (chewText text)
  | .error err => .ok (.fail p err)

theorem split_equals {l : Bytes} (h : 61 ∈ l) : l = beforeEquals l ++ 61 :: afterEquals l := by
  have hs : beforeEquals l ++ l.dropWhile (· ≠ 61) = l := List.takeWhile_append_dropWhile
  unfold afterEquals
  cases hd : l.dropWhile (· ≠ 61) with
  | nil =>
      have h61 := List.dropWhile_eq_nil_iff.mp hd 61 h
      cases h61
  | cons c t =>
      have hc := List.head?_dropWhile_not (· ≠ 61) l
      rw [hd] at hc hs
      obtain rfl : c = 61 := by simpa using hc
      exact hs.symm

section split
variable {pre post m : Bytes}

/-- The texts that are chewed, of a line whose string is `pre=post`. -/
theorem splitAssignment_eq (hpre : 0 ∉ pre) (hpost : chars (post ++ m) = post) (rest : Bytes) :
    splitAssignment (pre ++ 61 :: (post ++ m) ++ 0 :: rest) pre.length =
      stringChewTerminated (pre ++ [0]) >>= fun key =>
        stringChewTerminated (post ++ [0]) >>= fun value => .ok (key, value) := by
  have hlen : pre.length + 1 ≤ (pre ++ 61 :: (post ++ m)).length := by
    rw [List.length_append, List.length_cons]
    omega
  have hdrop : (pre ++ 61 :: (post ++ m)).drop (pre.length + 1) = post ++ m := by
    rw [← List.drop_drop, List.drop_left]
    rfl
  obtain ⟨rest', hw⟩ := write_shown (show pre.length ≤ (pre ++ 61 :: (post ++ m)).length by omega)
    0 0 rest
  rw [List.take_left] at hw
  rw [splitAssignment, strdup_shown hlen, hdrop, hpost, inside_some, hw, inside_some,
    strdup_shown (Nat.zero_le _), List.drop_zero, chars_eq_self hpre, inside_some]

/-- The key and the value, if they can be counted. -/
theorem splitAssignment_shown (hi : ¬ Indented pre) (hpre : 0 ∉ pre)
    (hpost : chars (post ++ m) = post) (hcpre : FitsInt pre) (hcpost : FitsInt post)
    (rest : Bytes) :
    ∃ r r', splitAssignment (pre ++ 61 :: (post ++ m) ++ 0 :: rest) pre.length =
      .ok (strip pre ++ 0 :: r, chewText post ++ 0 :: r') := by
  obtain ⟨r, hkey⟩ := stringChewTerminated_shown hpre hcpre []
  obtain ⟨r', hvalue⟩ := stringChewTerminated_shown (hpost ▸ zero_notMem_chars _) hcpost []
  rw [chewText_flush hi hpre hcpre] at hkey
  exact ⟨r, r', by rw [splitAssignment_eq hpre hpost, hkey, ok_bind, hvalue, ok_bind]⟩

theorem splitAssignment_counter (hpre : 0 ∉ pre) (hpost : chars (post ++ m) = post)
    (hc : ¬ (FitsInt pre ∧ FitsInt post)) (rest : Bytes) :
    splitAssignment (pre ++ 61 :: (post ++ m) ++ 0 :: rest) pre.length = .error .counter := by
  have h0 : 0 ∉ post := hpost ▸ zero_notMem_chars _
  rw [splitAssignment_eq hpre hpost]
  by_cases hcpre : FitsInt pre
  · obtain ⟨r, hkey⟩ := stringChewTerminated_shown hpre hcpre []
    rw [hkey, ok_bind, stringChewTerminated_counter h0 fun h => hc ⟨hcpre, h⟩]
    rfl
  · rw [stringChewTerminated_counter hpre hcpre]
    rfl

end split

theorem zero_notMem_strip {l : Bytes} (h : 0 ∉ l) : 0 ∉ strip l :=
  fun h0 => h ((strip_sublist l).subset h0)

/-- An assignment line, from its `=` on. -/
theorem assign_shown {k : Bytes} (hi : ¬ Indented k) (h61 : 61 ∈ chars k) (fuel : ℕ) (p : Parser)
    (rest : Bytes) :
    assign fuel p (k ++ 0 :: rest) (beforeEquals (chars k)).length =
      if FitsInt (beforeEquals (chars k)) ∧ FitsInt (afterEquals (chars k)) then
        if strip (beforeEquals (chars k)) = [] then .ok (.fail p .emptyKey)
        else store fuel p (strip (beforeEquals (chars k))) (chewText (afterEquals (chars k)))
      else .error .counter := by
  obtain ⟨m, hm⟩ := chars_initial k
  have hsplit := split_equals h61
  have h0 := zero_notMem_chars k
  have hpre : 0 ∉ beforeEquals (chars k) := fun h => h0 ((List.takeWhile_prefix _).subset h)
  have hik : ¬ Indented (beforeEquals (chars k)) :=
    not_indented_of_initial ((List.takeWhile_prefix _).trans (chars_initial k)) hi
  have hk : k = beforeEquals (chars k) ++ 61 :: (afterEquals (chars k) ++ m) := by
    conv_lhs => rw [← hm, hsplit]
    rw [List.append_assoc, List.cons_append]
  have hpost : chars (afterEquals (chars k) ++ m) = afterEquals (chars k) := by
    have h : chars k = beforeEquals (chars k) ++ 61 :: chars (afterEquals (chars k) ++ m) := by
      conv_lhs => rw [hk, chars_append hpre, chars_cons (by decide)]
    exact (List.cons.inj (List.append_cancel_left (h.symm.trans hsplit))).2
  generalize beforeEquals (chars k) = pre at hpre hik hk ⊢
  generalize afterEquals (chars k) = post at hk hpost ⊢
  rw [assign, hk]
  by_cases hc : FitsInt pre ∧ FitsInt post
  · obtain ⟨r, r', hs⟩ := splitAssignment_shown hik hpre hpost hc.1 hc.2 rest
    rw [hs, ok_bind, if_pos hc]
    simp only
    rw [streq_empty, inside_some, chars_eq_self (zero_notMem_strip hpre)]
    simp only [decide_eq_true_eq]
    split_ifs
    · rfl
    · rw [stringAt_shown (Nat.zero_le _), inside_some, stringAt_shown (Nat.zero_le _), inside_some,
        List.drop_zero, List.drop_zero, chars_eq_self (zero_notMem_strip hpre),
        chars_eq_self (zero_notMem_chewText post)]
  · rw [splitAssignment_counter hpre hpost hc, if_neg hc]
    rfl

/-- A line that starts with a bracket. -/
theorem parseHeader_shown {k : Bytes} (h : k.head? = some 91) (fuel : ℕ) (p : Parser) (rest : Bytes) :
    parseHeader fuel p (k ++ 0 :: rest) k.length =
      act fuel p (if k.getLast? = some 93 then .header (chars k.dropLast.tail)
        else .error .notClosed) := by
  have hk : k ≠ [] := by
    rintro rfl
    cases h
  have hlast : k.getLast? = some (k.getLast hk) := List.getLast?_eq_some_getLast hk
  rw [parseHeader, readBefore_shown hk, inside_some, hlast]
  by_cases hc : k.getLast hk = 93
  · obtain ⟨r, hw⟩ := writeBefore_shown hk 0 0 rest
    have hlen : 1 ≤ k.dropLast.length := by
      cases k with
      | nil => exact absurd rfl hk
      | cons c u =>
          cases u with
          | nil =>
              obtain rfl : c = 93 := hc
              cases h
          | cons d u => simp
    rw [if_neg (not_not.mpr hc), if_pos (by rw [hc]), hw, inside_some, stringAt_shown hlen,
      inside_some, List.drop_one]
    rfl
  · rw [if_pos hc, if_neg fun he => hc (Option.some.inj he)]
    rfl

/-- The parser reads a stripped line as `interpret` says, if it can count the texts in it. -/
theorem parseStripped_shown (line : Bytes) (fuel : ℕ) (p : Parser) (rest : Bytes) :
    parseStripped fuel p (kept line ++ 0 :: rest) (kept line).length =
      if p.currentSection.isSome = true ∧ Overlong (chars (kept line)) then .error .counter
      else act fuel p (interpret p.currentSection.isSome line) := by
  have hi := not_indented_kept line
  unfold interpret
  generalize kept line = k at hi ⊢
  have skip : ¬ (61 ∈ chars k ∧ (chars k).head? ∉ [some 91, some 35, some 59]) →
      ∀ x y : Except Stop Jump,
        (if p.currentSection.isSome = true ∧ Overlong (chars k) then x else y) = y :=
    fun h _ _ => if_neg fun hu => h ⟨hu.2.1, hu.2.2.1⟩
  rw [parseStripped, streq_empty, inside_some]
  simp only [decide_eq_true_eq]
  by_cases hl : chars k = []
  · rw [skip (by simp [hl]), if_pos hl, if_pos hl]
    rfl
  rw [if_neg hl, if_neg hl]
  cases k with
  | nil => exact absurd rfl hl
  | cons c u =>
      have hc : c ≠ 0 := by
        rintro rfl
        exact hl chars_zero
      have hhead : (chars (c :: u)).head? = some c := by rw [chars_cons hc, List.head?_cons]
      rw [hhead] at skip ⊢
      change (if c = 91 then _ else _) = _
      simp only [Option.some.injEq]
      by_cases h91 : c = 91
      · rw [skip (by simp [h91]), if_pos h91, if_pos h91, parseHeader_shown (by rw [h91]; rfl)]
      rw [if_neg h91, if_neg h91, parseEntry]
      by_cases hcom : c = 35 ∨ c = 59
      · rw [skip fun h => h.2 (by rcases hcom with rfl | rfl <;> simp), if_pos hcom, if_pos hcom]
        rfl
      rw [if_neg hcom, if_neg hcom, strchr_shown (by decide), inside_some]
      by_cases h61 : 61 ∈ chars (c :: u)
      · rw [if_pos h61, if_neg (not_not.mpr h61)]
        simp only
        cases hp : p.currentSection with
        | none => simp [act]
        | some name =>
            have hfirst : some c ∉ [some 91, some 35, some 59] := by
              rw [not_or] at hcom
              simp [h91, hcom]
            have hu : (some name).isSome = true ∧ Overlong (chars (c :: u)) ↔
                ¬ (FitsInt (beforeEquals (chars (c :: u))) ∧
                  FitsInt (afterEquals (chars (c :: u)))) := by
              simp only [Option.isSome_some, true_and, Overlong, hhead, h61, hfirst,
                not_false_eq_true]
            rw [if_neg (Option.some_ne_none name), ← beforeEquals, assign_shown hi h61]
            simp only [Option.isSome_some, Bool.true_eq_false, if_false] at hu ⊢
            simp only [hu, ite_not]
            split_ifs <;> rfl
      · rw [skip fun h => h61 h.1, if_neg h61, if_pos h61]
        rfl

/-- The body of the line loop. -/
theorem parseLine_eq {raw : Bytes} (hr : raw ≠ []) (fuel : ℕ) (p : Parser) (slack : Bytes) :
    parseLine fuel p raw slack =
      match stopOf p.currentSection.isSome (chomp raw) with
      | some s => .error s
      | none => act fuel p (interpret p.currentSection.isSome (chomp raw)) := by
  obtain ⟨rest, hfix⟩ := fixNewline_shown hr slack
  rw [parseLine, hfix, inside_some, stopOf]
  by_cases hm : Misread (chomp raw)
  · simp only
    rw [stringStrip_outside hm, if_pos hm]
    rfl
  · obtain ⟨rest', hstrip⟩ := stringStrip_shown hm rest
    simp only
    rw [hstrip, inside_some, if_neg hm]
    simp only
    rw [parseStripped_shown (chomp raw) fuel p rest']
    split_ifs <;> rfl

end Nica
