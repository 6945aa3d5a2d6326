import Nica.IniMerge

/-! # Documents

A document is what a user writes down in an INI file: blocks with a name and with settings,
comments and blank lines, in which a block or a key can come again.  `renderDoc` writes it as the
header of the parser shows it, with `key = value` for a setting.  The parser reads every document
back (`parse_rendered`): the maps have the blocks as sections, and a program finds the last setting
of a key in all blocks of a name. -/

namespace Nica

open CString NcHashmap Fueled

/-! ### What can be written -/

/-- The text of one line. -/
def Unbroken (l : Bytes) : Prop := 0 ∉ l ∧ 10 ∉ l

instance (l : Bytes) : Decidable (Unbroken l) := inferInstanceAs (Decidable (_ ∧ _))

/-- The key of a setting, which must not look like another kind of line; a blank behind it is counted
by an `int`. -/
structure IniKey where
  text : Bytes
  short : text.length < intMax
  unbroken : Unbroken text
  noEquals : 61 ∉ text
  trimmed : strip text = text
  first : ∃ x e, text = x :: e ∧ isBlank x = false ∧ x ∉ ([91, 35, 59] : Bytes)

/-- The value of a setting; it can be empty and can have an `=`. -/
structure IniValue where
  text : Bytes
  short : text.length ≤ intMax
  unbroken : Unbroken text
  trimmed : strip text = text

/-- A line of a block. -/
inductive IniEntry where
  | blank
  | comment (sign : UInt8) (text : Bytes) (hsign : sign = 35 ∨ sign = 59) (htext : Unbroken text)
  | setting (key : IniKey) (value : IniValue)

/-- A header and the lines below it. -/
structure IniBlock where
  name : Bytes
  unbroken : Unbroken name
  entries : List IniEntry

/-! ### The file -/

/-- The line of an entry. -/
def IniEntry.line : IniEntry → Bytes
  | .blank => []
  | .comment sign text _ _ => sign :: text
  | .setting key value => key.text ++ [32, 61, 32] ++ value.text

def IniBlock.header (block : IniBlock) : Bytes := 91 :: (block.name ++ [93])

def IniBlock.lines (block : IniBlock) : List Bytes :=
  block.header :: block.entries.map IniEntry.line

/-- The lines of a document. -/
def docLines (doc : List IniBlock) : List Bytes := doc.flatMap IniBlock.lines

/-- The file of a document. -/
def renderDoc (doc : List IniBlock) : Bytes := (docLines doc).flatMap (· ++ [10])

/-! ### What it says -/

/-- The key and the value of a setting. -/
def IniEntry.pair? : IniEntry → Option (Bytes × Bytes)
  | .setting key value => some (key.text, value.text)
  | _ => none

theorem pair?_blank : IniEntry.blank.pair? = none := rfl

theorem pair?_comment {sign : UInt8} {text : Bytes} {hsign : sign = 35 ∨ sign = 59}
    {htext : Unbroken text} : (IniEntry.comment sign text hsign htext).pair? = none := rfl

theorem pair?_setting (key : IniKey) (value : IniValue) :
    (IniEntry.setting key value).pair? = some (key.text, value.text) := rfl

/-- The settings of all blocks with a name, in order. -/
def settings (doc : List IniBlock) (name : Bytes) : List (Bytes × Bytes) :=
  (doc.filter (·.name = name)).flatMap (·.entries.filterMap IniEntry.pair?)

/-- The value of a key: the last one counts. -/
def docValue (doc : List IniBlock) (name key : Bytes) : Option Bytes :=
  (settings doc name).reverse.lookup key

/-! ### Rendered lines -/

theorem not_indented_strip (l : Bytes) : ¬ Indented (strip l) :=
  not_indented_of_initial (List.rdropWhile_prefix isBlank _) (not_indented_dropWhile l)

theorem not_indented_of_trimmed {l : Bytes} (h : strip l = l) : ¬ Indented l := by
  rw [← h]
  exact not_indented_strip l

/-- Stripping a text leaves its first character, unless that is a blank. -/
theorem strip_cons {x : UInt8} (hx : ¬ isBlank x = true) (e : Bytes) :
    ∃ e', strip (x :: e) = x :: e' := by
  rw [strip, List.dropWhile_cons_of_neg hx]
  have hinitial := List.rdropWhile_prefix isBlank (x :: e)
  cases hrest : (x :: e).rdropWhile isBlank with
  | nil => exact absurd (List.rdropWhile_eq_nil_iff.mp hrest x List.mem_cons_self) hx
  | cons c e' =>
      rw [hrest, List.cons_prefix_cons] at hinitial
      rw [hinitial.1]
      exact ⟨e', rfl⟩

theorem classify_header (block : IniBlock) (sectioned : Bool) :
    classify sectioned block.header = .header block.name := by
  have hstrip : strip block.header = block.header := by
    rw [strip, IniBlock.header, List.dropWhile_cons_of_neg (by decide), ← List.cons_append,
      List.rdropWhile_concat_neg _ _ _ (by decide)]
  have hlast : block.header.getLast? = some 93 := by
    rw [IniBlock.header, ← List.cons_append, List.getLast?_concat]
  have hname : block.header.dropLast.tail = block.name := by
    rw [IniBlock.header, ← List.cons_append, List.dropLast_concat, List.tail_cons]
  unfold classify
  simp only [hstrip, hlast, hname]
  simp [IniBlock.header]

theorem classify_comment {sign : UInt8} (hsign : sign = 35 ∨ sign = 59) (text : Bytes)
    (sectioned : Bool) : classify sectioned (sign :: text) = .comment := by
  have hblank : ¬ isBlank sign = true := by
    cases hsign with
    | inl h => rw [h]; decide
    | inr h => rw [h]; decide
  have hbracket : sign ≠ 91 := by
    cases hsign with
    | inl h => rw [h]; decide
    | inr h => rw [h]; decide
  obtain ⟨text', hstrip⟩ := strip_cons hblank text
  unfold classify
  simp only [hstrip]
  simp [hbracket, hsign]

/-- The text behind the `=` of a setting. -/
theorem fitsInt_value (value : IniValue) : FitsInt ((32 :: value.text).rdropWhile isBlank) := by
  have hspace : ∀ c ∈ ([32] : Bytes), isBlank c = true := List.forall_mem_singleton.mpr (by decide)
  have hall : FitsInt ([32] ++ value.text) :=
    (fitsInt_append hspace (not_indented_of_trimmed value.trimmed)).mpr ⟨by decide, value.short⟩
  obtain ⟨d, hd⟩ := List.rdropWhile_prefix isBlank (32 :: value.text)
  rw [List.singleton_append, ← hd] at hall
  exact hall.of_append

/-- The text of a setting is chewed to its value. -/
theorem chewText_value (value : IniValue) :
    chewText ((32 :: value.text).rdropWhile isBlank) = value.text := by
  have hspace : ∀ c ∈ ([32] : Bytes), isBlank c = true := List.forall_mem_singleton.mpr (by decide)
  have hchewable : Chewable (32 :: value.text) := by
    left
    rw [List.takeWhile_cons_of_pos (by decide),
      takeWhile_of_not_indented (not_indented_of_trimmed value.trimmed)]
    decide
  have h0 : 0 ∉ 32 :: value.text :=
    List.not_mem_cons_of_ne_of_not_mem (by decide) value.unbroken.1
  rw [(chewText_eq_strip_iff h0 (fitsInt_value value)).mpr hchewable]
  exact (strip_append hspace).trans value.trimmed

/-- A rendered line has no newline and no NUL. -/
theorem unbroken_line (entry : IniEntry) : Unbroken entry.line := by
  cases entry with
  | blank => exact ⟨List.not_mem_nil, List.not_mem_nil⟩
  | comment sign text hsign htext =>
      unfold Unbroken IniEntry.line
      simp only [List.mem_cons, not_or]
      rcases hsign with rfl | rfl
      · exact ⟨⟨by decide, htext.1⟩, by decide, htext.2⟩
      · exact ⟨⟨by decide, htext.1⟩, by decide, htext.2⟩
  | setting key value =>
      unfold Unbroken IniEntry.line
      simp only [List.mem_append, not_or]
      exact ⟨⟨⟨key.unbroken.1, by decide⟩, value.unbroken.1⟩, ⟨key.unbroken.2, by decide⟩,
        value.unbroken.2⟩

theorem classify_setting (key : IniKey) (value : IniValue) : ∃ text,
    chewText text = value.text ∧ stopOf true (IniEntry.setting key value).line = none ∧
      ∀ sectioned, classify sectioned (IniEntry.setting key value).line =
        if sectioned = false then .error .noSection else .assignment key.text text := by
  obtain ⟨x, e, htext, hblank, hfirst⟩ := key.first
  have hx : ¬ isBlank x = true := by simp [hblank]
  have h91 : x ≠ 91 := fun h => hfirst (by simp [h])
  have hcom : ¬ (x = 35 ∨ x = 59) := fun h => hfirst (by rcases h with h | h <;> simp [h])
  have hline : (IniEntry.setting key value).line =
      (key.text ++ [32]) ++ 61 :: (32 :: value.text) := by
    simp [IniEntry.line]
  have hstrip : strip (IniEntry.setting key value).line =
      x :: (e ++ [32]) ++ 61 :: (32 :: value.text).rdropWhile isBlank := by
    rw [hline, strip_equals, htext, List.cons_append, List.dropWhile_cons_of_neg hx]
  have h61 : 61 ∉ x :: (e ++ [32]) := by
    rw [← List.cons_append, ← htext, List.mem_append, not_or]
    exact ⟨key.noEquals, by decide⟩
  refine ⟨(32 :: value.text).rdropWhile isBlank, chewText_value value, ?_, fun sectioned => ?_⟩
  · have hcount : FitsInt (x :: (e ++ [32])) := by
      have hi : ¬ Indented (x :: (e ++ [32])) := hx
      have hshort := key.short
      rw [fitsInt_flush hi, ← List.cons_append, ← htext, List.length_append]
      exact hshort
    rw [stopOf_of_key (unbroken_line _).1 hstrip h61 h91 hcom, if_pos ⟨hcount, fitsInt_value value⟩]
  · have hkey : strip (x :: (e ++ [32])) = key.text := by
      rw [← List.cons_append, ← htext]
      have htrim := key.trimmed
      rw [strip, htext, List.dropWhile_cons_of_neg hx, ← htext] at htrim
      rw [strip, htext, List.cons_append, List.dropWhile_cons_of_neg hx, ← List.cons_append,
        List.rdropWhile_concat_pos _ _ _ (by decide), ← htext, htrim]
    rw [classify_of_key hstrip h61 hx h91 hcom sectioned, hkey]

theorem classify_blank (sectioned : Bool) : classify sectioned [] = .blank := rfl

theorem unbroken_header (block : IniBlock) : Unbroken block.header := by
  unfold Unbroken IniBlock.header
  simp only [List.mem_cons, List.mem_append, not_or]
  exact ⟨⟨by decide, block.unbroken.1, by decide, List.not_mem_nil⟩,
    by decide, block.unbroken.2, by decide, List.not_mem_nil⟩

theorem unbroken_blockLines (block : IniBlock) : ∀ l ∈ block.lines, Unbroken l := by
  intro l hl
  cases List.mem_cons.mp hl with
  | inl h =>
      rw [h]
      exact unbroken_header block
  | inr h =>
      obtain ⟨entry, -, rfl⟩ := List.mem_map.mp h
      exact unbroken_line entry

theorem unbroken_docLines {doc : List IniBlock} : ∀ l ∈ docLines doc, Unbroken l := by
  intro l hl
  obtain ⟨block, -, hblock⟩ := List.mem_flatMap.mp hl
  exact unbroken_blockLines block l hblock

/-- The lines of a file that was written line by line. -/
theorem lines_written {ls : List Bytes} (h : ∀ l ∈ ls, 10 ∉ l) :
    lines (ls.flatMap (· ++ [10])) = ls := by
  induction ls with
  | nil => rfl
  | cons l ls ih =>
      rw [List.flatMap_cons, List.append_assoc, List.singleton_append]
      have hl := h l List.mem_cons_self
      have hrest := ih fun l' hl' => h l' (List.mem_cons_of_mem _ hl')
      clear ih h
      induction l with
      | nil => rw [List.nil_append, lines_newline, hrest]
      | cons c l ih =>
          rw [List.mem_cons, not_or] at hl
          rw [List.cons_append, lines_cons (Ne.symm hl.1), ih hl.2]

theorem lines_render (doc : List IniBlock) : lines (renderDoc doc) = docLines doc :=
  lines_written fun l hl => (unbroken_docLines l hl).2

theorem zero_notMem_render (doc : List IniBlock) : 0 ∉ renderDoc doc := by
  intro h
  obtain ⟨l, hl, h0⟩ := List.mem_flatMap.mp h
  rw [List.mem_append] at h0
  cases h0 with
  | inl h0 => exact (unbroken_docLines l hl).1 h0
  | inr h0 => exact absurd h0 (by decide)

/-! ### Reading a block back -/

theorem headerOf_header (block : IniBlock) : headerOf classify block.header = some block.name := by
  rw [headerOf, classify_header]

theorem headerOf_line (entry : IniEntry) : headerOf classify entry.line = none := by
  cases entry with
  | blank => rw [headerOf, IniEntry.line, classify_blank]
  | comment sign text hsign htext => rw [headerOf, IniEntry.line, classify_comment hsign]
  | setting key value =>
      obtain ⟨text, -, -, hline⟩ := classify_setting key value
      rw [headerOf, hline true, if_neg (by decide)]

/-- One more line that is passed. -/
theorem passed_snoc {ls : List Bytes} {l : Bytes} (h : ∀ i, Passed classify ls i)
    (hl : ∀ err, classify (sectionBefore classify ls).isSome l ≠ .error err)
    (hs : stopOf (sectionBefore classify ls).isSome l = none) (i : ℕ) :
    Passed classify (ls ++ [l]) i := by
  rcases Nat.lt_trichotomy i ls.length with hi | rfl | hi
  · exact (passed_append_left hi).mpr (h i)
  · have hat : (ls ++ [l])[ls.length]? = some l := List.getElem?_concat_length
    rw [Passed, errorAt_eq_none_iff hat, List.take_left, stopAt_append_length]
    exact ⟨hl, hs⟩
  · have hlen : (ls ++ [l]).length ≤ i := by
      rw [List.length_append, List.length_singleton]
      omega
    exact ⟨errorAt_none_of_length_le hlen, stopAt_none_of_length_le hlen⟩

/-- The lines `ls` make one section with these settings. -/
structure Reads (ls : List Bytes) (name : Bytes) (pairs : List (Bytes × Bytes)) : Prop where
  section_eq : sectionBefore classify ls = some name
  passed : ∀ i, Passed classify ls i
  values : ∀ name' key value, LastValue classify ls name' key value ↔
    name = name' ∧ pairs.reverse.lookup key = some value

theorem reads_header (block : IniBlock) : Reads [block.header] block.name [] where
  section_eq := by
    rw [sectionBefore, List.filterMap_cons_some (headerOf_header block)]
    rfl
  passed := by
    have hnone : ∀ i, Passed classify [] i := fun i =>
      ⟨errorAt_none_of_length_le (Nat.zero_le i), stopAt_none_of_length_le (Nat.zero_le i)⟩
    refine passed_snoc hnone (fun err herr => ?_) (stopOf_other (unbroken_header block).1 ?_ ?_ _)
    · rw [classify_header] at herr
      cases herr
    · intro err herr
      rw [classify_header] at herr
      cases herr
    · intro key text h
      rw [classify_header] at h
      cases h
  values name' key value := by
    have hnot : ∀ text, ¬ (classify true block.header = .assignment key text ∧
        sectionBefore classify [] = some name') := by
      intro text h
      rw [classify_header] at h
      cases h.1
    rw [← List.nil_append [block.header], lastValue_snoc_of_not hnot]
    constructor
    · exact fun h => absurd h not_lastValue_nil
    · rintro ⟨-, h⟩
      cases h

/-- A line that is neither a setting nor an error. -/
theorem Reads.skip {ls : List Bytes} {l name : Bytes} {pairs : List (Bytes × Bytes)}
    (R : Reads ls name pairs) (h0 : 0 ∉ l) (hheader : headerOf classify l = none)
    (hl : classify true l = .blank ∨ classify true l = .comment) : Reads (ls ++ [l]) name pairs where
  section_eq := by rw [sectionBefore_snoc, hheader, Option.none_or, R.section_eq]
  passed := by
    have hok : ∀ err, classify true l ≠ .error err := by
      intro err herr
      cases hl with
      | inl h => rw [h] at herr; cases herr
      | inr h => rw [h] at herr; cases herr
    refine passed_snoc R.passed ?_ (stopOf_other h0 hok (fun key text h' => ?_) _)
    · rw [R.section_eq, Option.isSome_some]
      exact hok
    · cases hl with
      | inl h => rw [h] at h'; cases h'
      | inr h => rw [h] at h'; cases h'
  values name' key value := by
    rw [lastValue_snoc_of_not, R.values]
    rintro text ⟨h', -⟩
    cases hl with
    | inl h => rw [h] at h'; cases h'
    | inr h => rw [h] at h'; cases h'

/-- One more entry. -/
theorem Reads.entry {ls : List Bytes} {name : Bytes} {pairs : List (Bytes × Bytes)}
    (R : Reads ls name pairs) (entry : IniEntry) :
    Reads (ls ++ [entry.line]) name (pairs ++ entry.pair?.toList) := by
  cases entry with
  | blank =>
      rw [pair?_blank, Option.toList_none, List.append_nil]
      exact R.skip List.not_mem_nil (headerOf_line _) (.inl rfl)
  | comment sign text hsign htext =>
      rw [pair?_comment, Option.toList_none, List.append_nil]
      exact R.skip (unbroken_line (.comment sign text hsign htext)).1 (headerOf_line _)
        (.inr (classify_comment hsign text true))
  | setting key value =>
      obtain ⟨text, htext, hstop, hline⟩ := classify_setting key value
      have htrue : classify true (IniEntry.setting key value).line = .assignment key.text text := by
        rw [hline, if_neg (by decide)]
      refine ⟨?_, ?_, fun name' key' value' => ?_⟩
      · rw [sectionBefore_snoc, headerOf_line, Option.none_or, R.section_eq]
      · refine passed_snoc R.passed (fun err herr => ?_) (by rw [R.section_eq]; exact hstop)
        rw [R.section_eq, Option.isSome_some, htrue] at herr
        cases herr
      · rw [pair?_setting, Option.toList_some, List.reverse_append, List.reverse_singleton,
          List.singleton_append]
        by_cases hname : name = name'
        · subst hname
          rw [lastValue_snoc_assignment htrue R.section_eq, R.values, htext, List.lookup_cons]
          by_cases hkey : key' = key.text
          · simp [hkey, eq_comm]
          · rw [beq_eq_false_iff_ne.mpr hkey]
            simp [hkey]
        · rw [lastValue_snoc_of_not, R.values]
          · simp [hname]
          · rintro text' ⟨-, h⟩
            exact hname (Option.some.inj (R.section_eq.symm.trans h))

theorem reads_block (block : IniBlock) :
    Reads block.lines block.name (block.entries.filterMap IniEntry.pair?) := by
  unfold IniBlock.lines
  induction block.entries using List.reverseRecOn with
  | nil => exact reads_header block
  | append_singleton entries entry ih =>
      have hstep := ih.entry entry
      rw [List.cons_append] at hstep
      rw [List.map_append, List.filterMap_append]
      cases h : entry.pair? with
      | none => simpa [h] using hstep
      | some pair => simpa [h] using hstep

/-! ### Reading a document back -/

/-- The headers of a document. -/
theorem headers_eq (doc : List IniBlock) :
    (docLines doc).filterMap (headerOf classify) = doc.map IniBlock.name := by
  have hblock : ∀ block : IniBlock, block.lines.filterMap (headerOf classify) = [block.name] := by
    intro block
    rw [IniBlock.lines, List.filterMap_cons_some (headerOf_header block),
      List.filterMap_eq_nil_iff.mpr]
    intro l hl
    obtain ⟨entry, -, rfl⟩ := List.mem_map.mp hl
    exact headerOf_line entry
  rw [docLines, List.filterMap_flatMap]
  simp only [hblock]
  exact List.flatMap_pure_eq_map IniBlock.name doc

theorem docLines_concat (doc : List IniBlock) (block : IniBlock) :
    docLines (doc ++ [block]) = docLines doc ++ block.lines := by
  rw [docLines, List.flatMap_append, List.flatMap_singleton, docLines]

theorem docValue_concat (doc : List IniBlock) (block : IniBlock) (name key : Bytes) :
    docValue (doc ++ [block]) name key =
      if block.name = name then
        ((block.entries.filterMap IniEntry.pair?).reverse.lookup key).or (docValue doc name key)
      else docValue doc name key := by
  unfold docValue settings
  split_ifs with hname
  · simp [List.filter_append, hname, List.lookup_append]
  · simp [List.filter_append, hname]

/-- The lines of a document are passed, and the last assignment is the last setting. -/
theorem document_lines (doc : List IniBlock) :
    (∀ i, Passed classify (docLines doc) i) ∧
    ∀ name key value, LastValue classify (docLines doc) name key value ↔
      docValue doc name key = some value := by
  induction doc using List.reverseRecOn with
  | nil =>
      refine ⟨fun i => ⟨errorAt_none_of_length_le (Nat.zero_le i),
        stopAt_none_of_length_le (Nat.zero_le i)⟩, fun name key value => ?_⟩
      constructor
      · exact fun h => absurd h not_lastValue_nil
      · intro h
        cases h
  | append_singleton doc block ih =>
      have R := reads_block block
      rw [docLines_concat]
      have hplain : ∀ l ∈ block.lines, 0 ∉ l := fun l hl => (unbroken_blockLines block l hl).1
      refine ⟨passed_append hplain ih.1 R.passed, fun name key value => ?_⟩
      rw [lastValue_append fun i => (R.passed i).1, ih.2, docValue_concat]
      simp only [R.values]
      by_cases hname : block.name = name
      · cases (block.entries.filterMap IniEntry.pair?).reverse.lookup key with
        | none => simp [hname]
        | some v => simp [hname]
      · simp [hname]

/-- The parser reads a document back: its sections are the names of the blocks, and the lookup of a
key gives its last setting, or NULL. -/
theorem parse_rendered (slack : ℕ → Bytes) (errorLineNumber : Bool) (doc : List IniBlock)
    (hn : (docLines doc).length < 2 ^ 29) :
    ∃ m, Returns (fun f => ncIniFileParseFull f slack (some (renderDoc doc)) true errorLineNumber)
        ⟨0, some m, none⟩ ∧
      (∀ name, (∃ v, Holds m.root name v) ↔ ∃ block ∈ doc, name = some block.name) ∧
      ∀ name key : Bytes,
        Returns (fun f => iniGet f m (some name) (some key)) (docValue doc name key) := by
  obtain ⟨hpassed, hvalues⟩ := document_lines doc
  rw [← lines_render] at hpassed hvalues hn
  obtain ⟨p, names, hr, B⟩ := parse_accepted slack errorLineNumber (zero_notMem_render doc) hn hpassed
  refine ⟨_, hr, fun name => ?_, fun name key => ?_⟩
  · rw [B.holds_name, lines_render, headers_eq]
    constructor
    · rintro ⟨n, hn, rfl⟩
      obtain ⟨block, hblock, rfl⟩ := List.mem_map.mp hn
      exact ⟨block, hblock, rfl⟩
    · rintro ⟨block, hblock, rfl⟩
      exact ⟨_, List.mem_map_of_mem hblock, rfl⟩
  · obtain ⟨v, hv, hlast⟩ := B.lookup name key
    have heq : v = docValue doc name key := by
      apply Option.ext
      intro value
      rw [hlast, hvalues]
    rw [← heq]
    exact hv

/-- `[Person]`, `alive = true` and a comment. -/
theorem parse_rendered_person : ∃ m,
    Returns (fun f => ncIniFileParseFull f (fun _ => [])
      (some [91, 80, 101, 114, 115, 111, 110, 93, 10,
        97, 108, 105, 118, 101, 32, 61, 32, 116, 114, 117, 101, 10, 59, 32, 121, 101, 115, 10])
      true true) ⟨0, some m, none⟩ ∧
    Returns (fun f => iniGet f m (some [80, 101, 114, 115, 111, 110]) (some [97, 108, 105, 118, 101]))
      (some [116, 114, 117, 101]) := by
  obtain ⟨m, hr, -, hget⟩ := parse_rendered (fun _ => []) true
    [⟨[80, 101, 114, 115, 111, 110], by decide,
      [.setting ⟨[97, 108, 105, 118, 101], by decide, by decide, by decide, by decide,
          ⟨_, _, rfl, by decide, by decide⟩⟩ ⟨[116, 114, 117, 101], by decide, by decide, by decide⟩,
        .comment 59 [32, 121, 101, 115] (.inr rfl) (by decide)]⟩] (by decide)
  exact ⟨m, hr, hget _ _⟩

end Nica
