import Nica.IniDocument

/-! # Files that are documents

`Written ls doc` says that the document `doc` has the sections that the lines `ls` open, and their
values as far as these have no blanks at their ends; every line keeps it for a document with at most
one more line (`exists_written`).  So the map of an accepted file is that of a document, which is no
longer than the file, exactly when none of its values has a blank at an end and none of its keys is as
long as an `int` can count (`parse_document_iff`).  The condition is needed: `string_chew_terminated`
leaves such blanks behind some values, and counts the blank that a document has behind a key. -/

namespace Nica

open CString NcHashmap Fueled

/-! ### The texts of a line -/

theorem Unbroken.subset {l u : Bytes} (hl : Unbroken l) (h : u ⊆ l) : Unbroken u :=
  ⟨fun h0 => hl.1 (h h0), fun h10 => hl.2 (h h10)⟩

theorem newline_notMem_lines {content : Bytes} : ∀ l ∈ lines content, 10 ∉ l := by
  induction content with
  | nil => exact fun l hl => absurd hl List.not_mem_nil
  | cons c content ih =>
      by_cases hc : c = 10
      · rw [hc, lines_newline]
        exact List.forall_mem_cons.mpr ⟨List.not_mem_nil, ih⟩
      · rw [lines_cons hc]
        cases hls : lines content with
        | nil => exact List.forall_mem_singleton.mpr (by simpa using Ne.symm hc)
        | cons l ls =>
            rw [hls, List.forall_mem_cons] at ih
            refine List.forall_mem_cons.mpr ⟨?_, ih.2⟩
            rw [List.mem_cons, not_or]
            exact ⟨Ne.symm hc, ih.1⟩

theorem strip_strip (l : Bytes) : strip (strip l) = strip l := by
  have h := dropWhile_of_not_indented (not_indented_strip l)
  unfold strip at h ⊢
  rw [h, List.rdropWhile_idempotent]

/-- What is made of a text is a part of it, and no longer than a counter. -/
theorem chewText_part {text : Bytes} (h0 : 0 ∉ text) :
    chewText text ⊆ text ∧ (chewText text).length ≤ intMax := by
  by_cases hc : FitsInt text
  · have hsub : text.dropWhile isBlank ⊆ text := (List.dropWhile_sublist isBlank).subset
    have hw : ∀ c ∈ text.takeWhile isBlank, isBlank c = true := fun _ => List.mem_takeWhile_imp
    have heq := chewText_eq hw (not_indented_dropWhile text) (fun h => h0 (hsub h)) hc
    rw [List.takeWhile_append_dropWhile] at heq
    rw [heq]
    unfold chewed
    split_ifs
    · exact ⟨hsub, hc.2⟩
    · refine ⟨fun c hc => hsub (List.mem_of_mem_take hc), ?_⟩
      exact (List.length_take_le _ _).trans ((Nat.sub_le _ _).trans ((Nat.sub_le _ _).trans hc.2))
  · have hempty : chewText text = [] := by
      rw [chewText, stringChewTerminated_counter h0 hc]
    rw [hempty]
    exact ⟨List.nil_subset text, Nat.zero_le _⟩

/-- The text of an assignment is a part of its line. -/
theorem text_subset {l key text : Bytes} (h : classify true l = .assignment key text) :
    text ⊆ l := by
  unfold classify at h
  simp only at h
  split_ifs at h
  obtain ⟨-, rfl⟩ := Line.assignment.inj h
  intro c hc
  exact (strip_sublist l).subset ((List.dropWhile_sublist _).subset (List.mem_of_mem_tail hc))

theorem name_subset {l name : Bytes} (h : headerOf classify l = some name) : name ⊆ l := by
  have hl : classify true l = .header name := by
    unfold headerOf at h
    split at h
    · rename_i n hn
      rw [hn, Option.some.inj h]
    · cases h
  unfold classify at hl
  simp only at hl
  split_ifs at hl
  obtain rfl := Line.header.inj hl
  intro c hc
  exact (strip_sublist l).subset (List.mem_of_mem_dropLast (List.mem_of_mem_tail hc))

/-- The key of an assignment can be written down, unless it is too long. -/
theorem exists_iniKey {l key text : Bytes} (hl : Unbroken l)
    (h : classify true l = .assignment key text) (hshort : key.length < intMax) :
    ∃ k : IniKey, k.text = key := by
  unfold classify at h
  simp only at h
  split_ifs at h with hne h91 _ hcom h61 _ hempty
  obtain ⟨rfl, -⟩ := Line.assignment.inj h
  have hindented := not_indented_strip l
  have hsub : strip l ⊆ l := (strip_sublist l).subset
  cases hu : strip l with
  | nil => exact absurd hu hne
  | cons x u =>
      rw [hu] at h91 hcom hempty hindented hsub
      have hx : ¬ isBlank x = true := hindented
      have hx61 : x ≠ 61 := by
        rintro rfl
        exact hempty rfl
      -- the key starts as the line does
      have hbefore : beforeEquals (x :: u) = x :: u.takeWhile (· ≠ 61) := by
        unfold beforeEquals
        rw [List.takeWhile_cons_of_pos (by simpa using hx61)]
      obtain ⟨e, he⟩ := strip_cons hx (u.takeWhile (· ≠ 61))
      have hpart : strip (beforeEquals (x :: u)) ⊆ beforeEquals (x :: u) :=
        (strip_sublist _).subset
      refine ⟨⟨strip (beforeEquals (x :: u)), hu ▸ hshort, hl.subset ?_, ?_, strip_strip _, x, e,
        ?_, ?_, ?_⟩, rfl⟩
      · exact fun c hc => hsub ((List.takeWhile_prefix _).subset (hpart hc))
      · intro hmem
        have h := List.mem_takeWhile_imp (hpart hmem)
        simp at h
      · rw [hbefore, he]
      · simpa using hx
      · simp only [List.head?_cons, Option.some.injEq, not_or] at h91 hcom
        simp [h91, hcom]

/-! ### A document for the lines -/

section written
variable {ls : List Bytes} {l : Bytes} {doc : List IniBlock}

/-- `doc` has the sections of the lines `ls`, and their values as far as these are trimmed and have a
key that is not too long. -/
structure Written (ls : List Bytes) (doc : List IniBlock) : Prop where
  length_le : (docLines doc).length ≤ ls.length
  names : doc.map IniBlock.name = ls.filterMap (headerOf classify)
  trimmed : ∀ name key value, LastValue classify ls name key value →
    strip value = value ∧ key.length < intMax → docValue doc name key = some value
  assigned : ∀ name key value, docValue doc name key = some value →
    ∃ value', LastValue classify ls name key value'

/-- A key that has a value keeps one. -/
theorem exists_lastValue_snoc {name key value : Bytes} (h : LastValue classify ls name key value) :
    ∃ value', LastValue classify (ls ++ [l]) name key value' := by
  by_cases hl : ∃ text, classify true l = .assignment key text ∧
      sectionBefore classify ls = some name
  · obtain ⟨text, htext⟩ := hl
    exact ⟨_, lastValue_snoc.mpr (.inl ⟨text, htext, rfl⟩)⟩
  · exact ⟨value, lastValue_snoc.mpr (.inr ⟨h, fun text htext => hl ⟨text, htext⟩⟩)⟩

/-- A line that is left out: no header, and no value that can be written down. -/
theorem Written.skip (W : Written ls doc) (hheader : headerOf classify l = none)
    (hl : ∀ key text, classify true l = .assignment key text →
      ¬ (strip (chewText text) = chewText text ∧ key.length < intMax)) :
    Written (ls ++ [l]) doc where
  length_le := by
    rw [List.length_append]
    exact W.length_le.trans (Nat.le_add_right _ _)
  names := by
    rw [List.filterMap_append, List.filterMap_cons_none hheader, List.filterMap_nil,
      List.append_nil, W.names]
  trimmed name key value hlast htrim := by
    cases lastValue_snoc.mp hlast with
    | inl h =>
        obtain ⟨text, ⟨htext, -⟩, rfl⟩ := h
        exact absurd htrim (hl key text htext)
    | inr h => exact W.trimmed name key value h.1 htrim
  assigned name key value hvalue := by
    obtain ⟨value', h⟩ := W.assigned name key value hvalue
    exact exists_lastValue_snoc h

/-- A header starts a block. -/
theorem Written.header (W : Written ls doc) {name : Bytes} (hl : headerOf classify l = some name)
    (hname : Unbroken name) : Written (ls ++ [l]) (doc ++ [⟨name, hname, []⟩]) := by
  have hvalue : ∀ name' key, docValue (doc ++ [⟨name, hname, []⟩]) name' key =
      docValue doc name' key := by
    intro name' key
    rw [docValue_concat]
    exact ite_self _
  have hlast : ∀ {name' key value}, LastValue classify (ls ++ [l]) name' key value ↔
      LastValue classify ls name' key value :=
    lastValue_snoc_of_not fun text h => not_assignment_of_headerOf hl text h.1
  refine ⟨?_, ?_, fun name' key value => ?_, fun name' key value => ?_⟩
  · have hle := W.length_le
    simp only [docLines_concat, List.length_append, IniBlock.lines, List.map_nil,
      List.length_singleton]
    omega
  · rw [List.map_append, List.filterMap_append, List.filterMap_cons_some hl, List.filterMap_nil,
      W.names]
    rfl
  · rw [hvalue, hlast]
    exact W.trimmed name' key value
  · rw [hvalue]
    simp only [hlast]
    exact W.assigned name' key value

/-- One more setting in the last block. -/
def IniBlock.add (block : IniBlock) (key : IniKey) (value : IniValue) : IniBlock :=
  { block with entries := block.entries ++ [.setting key value] }

theorem docValue_add (doc : List IniBlock) (block : IniBlock) (key : IniKey) (value : IniValue)
    (name key' : Bytes) : docValue (doc ++ [block.add key value]) name key' =
      if block.name = name ∧ key' = key.text then some value.text
      else docValue (doc ++ [block]) name key' := by
  rw [docValue_concat, docValue_concat, IniBlock.add, List.filterMap_append,
    List.filterMap_cons_some (pair?_setting key value), List.filterMap_nil, List.reverse_append,
    List.reverse_singleton, List.singleton_append, List.lookup_cons]
  by_cases hname : block.name = name
  · by_cases hkey : key' = key.text
    · simp [hname, hkey]
    · rw [beq_eq_false_iff_ne.mpr hkey]
      simp [hname, hkey]
  · simp [hname]

/-- An assignment of a trimmed value is a setting of the last block. -/
theorem Written.setting {block : IniBlock} (W : Written ls (doc ++ [block]))
    (hsection : sectionBefore classify ls = some block.name) {key : IniKey} {value : IniValue}
    {text : Bytes} (hl : classify true l = .assignment key.text text)
    (htext : chewText text = value.text) :
    Written (ls ++ [l]) (doc ++ [block.add key value]) where
  length_le := by
    have hle := W.length_le
    simp only [docLines_concat, IniBlock.add, IniBlock.lines, List.length_append, List.length_cons,
      List.length_map, List.length_nil] at hle ⊢
    omega
  names := by
    have hnames := W.names
    rw [List.map_append] at hnames ⊢
    rw [List.filterMap_append, List.filterMap_cons_none (headerOf_of_assignment hl),
      List.filterMap_nil, List.append_nil, ← hnames]
    rfl
  trimmed name key' value' hlast htrim := by
    rw [docValue_add]
    cases lastValue_snoc.mp hlast with
    | inl h =>
        obtain ⟨text', ⟨hassign, hname⟩, rfl⟩ := h
        obtain ⟨hkey, rfl⟩ := Line.assignment.inj (hl.symm.trans hassign)
        rw [if_pos ⟨Option.some.inj (hsection.symm.trans hname), hkey.symm⟩, htext]
    | inr h =>
        rw [if_neg]
        · exact W.trimmed name key' value' h.1 htrim
        · rintro ⟨rfl, rfl⟩
          exact h.2 text ⟨hl, hsection⟩
  assigned name key' value' hvalue := by
    rw [docValue_add] at hvalue
    split_ifs at hvalue with hhere
    · obtain ⟨rfl, rfl⟩ := hhere
      exact ⟨_, lastValue_snoc.mpr (.inl ⟨text, ⟨hl, hsection⟩, rfl⟩)⟩
    · obtain ⟨value'', h⟩ := W.assigned name key' value' hvalue
      exact exists_lastValue_snoc h

/-- Lines without errors are written down line by line. -/
theorem exists_written (hls : ∀ l ∈ ls, Unbroken l) (hok : ∀ i, errorAt classify ls i = none) :
    ∃ doc, Written ls doc := by
  induction ls using List.reverseRecOn with
  | nil =>
      refine ⟨[], le_rfl, rfl, fun name key value h => absurd h not_lastValue_nil, ?_⟩
      intro name key value h
      cases h
  | append_singleton ls l ih =>
      rw [List.forall_mem_append, List.forall_mem_singleton] at hls
      obtain ⟨hls, hl⟩ := hls
      have hok' : ∀ i, errorAt classify ls i = none := by
        intro i
        by_cases hi : i < ls.length
        · have hsame : errorAt classify (ls ++ [l]) i = errorAt classify ls i :=
            errorAt_append_left hi
          rw [← hsame]
          exact hok i
        · exact errorAt_none_of_length_le (by omega)
      obtain ⟨doc, W⟩ := ih hls hok'
      have hat : (ls ++ [l])[ls.length]? = some l := List.getElem?_concat_length
      have herr := (errorAt_eq_none_iff hat).mp (hok ls.length)
      rw [List.take_left] at herr
      have htrue := classify_reading.read_true herr
      cases hline : classify true l with
      | blank =>
          refine ⟨doc, W.skip (by rw [headerOf, hline]) fun key text h => ?_⟩
          rw [hline] at h
          cases h
      | comment =>
          refine ⟨doc, W.skip (by rw [headerOf, hline]) fun key text h => ?_⟩
          rw [hline] at h
          cases h
      | header name =>
          have hheader : headerOf classify l = some name := by rw [headerOf, hline]
          exact ⟨_, W.header hheader (hl.subset (name_subset hheader))⟩
      | assignment key text =>
          by_cases htrim : strip (chewText text) = chewText text ∧ key.length < intMax
          · -- the section of the line is the last block
            have hsome := classify_reading.sectioned (htrue.symm.trans hline)
            obtain ⟨name, hsection⟩ := Option.isSome_iff_exists.mp hsome
            have hlast := hsection
            rw [sectionBefore, ← W.names, List.getLast?_map] at hlast
            obtain ⟨block, hblock, rfl⟩ := Option.map_eq_some_iff.mp hlast
            obtain ⟨doc, rfl⟩ := List.getLast?_eq_some_iff.mp hblock
            obtain ⟨k, rfl⟩ := exists_iniKey hl hline htrim.2
            have htext : Unbroken text := hl.subset (text_subset hline)
            obtain ⟨hpart, hshort⟩ := chewText_part htext.1
            have hnew : Written (ls ++ [l])
                (doc ++ [block.add k ⟨_, hshort, htext.subset hpart, htrim.1⟩]) :=
              W.setting hsection hline rfl
            exact ⟨_, hnew⟩
          · refine ⟨doc, W.skip (headerOf_of_assignment hline) fun key' text' h => ?_⟩
            obtain ⟨rfl, rfl⟩ := Line.assignment.inj (hline.symm.trans h)
            exact htrim
      | error err => exact absurd (htrue.symm.trans hline) (herr err)

end written

/-! ### Files -/

theorem docValue_written {doc : List IniBlock} {name key value : Bytes}
    (h : docValue doc name key = some value) : strip value = value ∧ key.length < intMax := by
  obtain ⟨before, after, hsplit, -⟩ := List.lookup_eq_some_iff.mp h
  have hmem : (key, value) ∈ settings doc name := by
    rw [← List.mem_reverse, hsplit]
    exact List.mem_append_right _ List.mem_cons_self
  obtain ⟨block, -, hpair⟩ := List.mem_flatMap.mp hmem
  obtain ⟨entry, -, hentry⟩ := List.mem_filterMap.mp hpair
  cases entry with
  | blank => cases hentry
  | comment sign text hsign htext => cases hentry
  | setting key' value' =>
      rw [pair?_setting, Option.some.injEq, Prod.mk.injEq] at hentry
      rw [← hentry.1, ← hentry.2]
      exact ⟨value'.trimmed, key'.short⟩

theorem Merged.value_texts {ls : List Bytes} {m : IniMap} (M : Merged ls m)
    {name key value : Text} : m.Value name key value ↔ ∃ n k v, name = some n ∧ key = some k ∧
      value = some v ∧ LastValue classify ls n k v := by
  constructor
  · rintro ⟨h, sectionMap, hname, hmap, hpair⟩
    obtain ⟨n, -, rfl⟩ := (M.names name).mp ⟨_, hname⟩
    obtain ⟨k, v, rfl, rfl, hlast⟩ := ((M.pairs n h sectionMap hname hmap).2 key value).mp hpair
    exact ⟨n, k, v, rfl, rfl, rfl, hlast⟩
  · rintro ⟨n, k, v, rfl, rfl, rfl, hlast⟩
    exact M.value_iff.mpr hlast

/-- Lines that open the same sections and leave the same values make the same map. -/
theorem Merged.same {ls ls' : List Bytes} {m m' : IniMap} (M : Merged ls m) (M' : Merged ls' m')
    (hnames : ls.filterMap (headerOf classify) = ls'.filterMap (headerOf classify))
    (hvalues : ∀ name key value, LastValue classify ls name key value ↔
      LastValue classify ls' name key value) : m.Same m' := by
  refine ⟨fun name => ?_, fun name key value => ?_⟩
  · rw [M.names, M'.names, hnames]
  · rw [M.value_texts, M'.value_texts]
    simp only [hvalues]

/-- The map of an accepted file is that of a document with no more lines exactly when no value in
it has a blank at an end, and no key has as many characters as an `int` can count. -/
theorem parse_document_iff (slack slack' : ℕ → Bytes) (errorLineNumber : Bool) {content : Bytes}
    (h0 : 0 ∉ content) (hn : (lines content).length < 2 ^ 29) {m : IniMap}
    (hacc : Returns (fun f => ncIniFileParseFull f slack (some content) true errorLineNumber)
      ⟨0, some m, none⟩) :
    (∃ doc m', (docLines doc).length ≤ (lines content).length ∧
      Returns (fun f => ncIniFileParseFull f slack' (some (renderDoc doc)) true errorLineNumber)
        ⟨0, some m', none⟩ ∧ m.Same m') ↔
    ∀ name key value, m.Value (some name) (some key) (some value) →
      strip value = value ∧ key.length < intMax := by
  obtain ⟨M, hok⟩ := merged_of_accepted h0 hn hacc
  constructor
  · rintro ⟨doc, m', hle, hr, S⟩ name key value hvalue
    rw [← lines_render] at hle
    obtain ⟨M', -⟩ := merged_of_accepted (zero_notMem_render doc) (hle.trans_lt hn) hr
    rw [lines_render] at M'
    have hlast := M'.value_iff.mp ((S.2 _ _ _).mp hvalue)
    exact docValue_written (((document_lines doc).2 name key value).mp hlast)
  · intro htrim
    have hls : ∀ l ∈ lines content, Unbroken l :=
      fun l hl => ⟨fun h => h0 (lines_subset hl h), newline_notMem_lines l hl⟩
    obtain ⟨doc, W⟩ := exists_written hls fun i => (hok i).1
    have hle := W.length_le
    have hpassed := (document_lines doc).1
    rw [← lines_render] at hle hpassed
    obtain ⟨p, names, hr, B⟩ := parse_accepted slack' errorLineNumber (zero_notMem_render doc)
      (hle.trans_lt hn) hpassed
    rw [lines_render] at B
    refine ⟨doc, _, W.length_le, hr, M.same B.merged ?_ ?_⟩
    · rw [headers_eq, W.names]
    · intro name key value
      rw [(document_lines doc).2]
      constructor
      · intro hlast
        exact W.trimmed name key value hlast (htrim name key value (M.value_iff.mpr hlast))
      · intro hvalue
        obtain ⟨value', hlast⟩ := W.assigned name key value hvalue
        have h := W.trimmed name key value' hlast (htrim name key value' (M.value_iff.mpr hlast))
        obtain rfl := Option.some.inj (hvalue.symm.trans h)
        exact hlast

/-- `[s]`, `k=  a b c`: the value is an `a` and a blank. -/
theorem parse_document_iff_blank : ∃ m, Returns (fun f => ncIniFileParseFull f (fun _ => [])
      (some [91, 115, 93, 10, 107, 61, 32, 32, 97, 32, 98, 32, 99, 10]) true true)
      ⟨0, some m, none⟩ ∧
    ¬ ∃ doc m', (docLines doc).length ≤ 2 ∧
      Returns (fun f => ncIniFileParseFull f (fun _ => []) (some (renderDoc doc)) true true)
        ⟨0, some m', none⟩ ∧ m.Same m' := by
  have hlines : lines [91, 115, 93, 10, 107, 61, 32, 32, 97, 32, 98, 32, 99, 10] =
      [[91, 115, 93], [107, 61, 32, 32, 97, 32, 98, 32, 99]] := by decide
  have h0 : (0 : UInt8) ∉ [91, 115, 93, 10, 107, 61, 32, 32, 97, 32, 98, 32, 99, 10] := by decide
  have hn : (lines [91, 115, 93, 10, 107, 61, 32, 32, 97, 32, 98, 32, 99, 10]).length < 2 ^ 29 := by
    rw [hlines]
    decide
  obtain ⟨p, names, hr, B⟩ := parse_accepted (fun _ => []) true h0 hn
    (passed_of_lt (by rw [hlines]; decide))
  rw [hlines] at B
  have hlast : LastValue classify [[91, 115, 93], [107, 61, 32, 32, 97, 32, 98, 32, 99]]
      [115] [107] [97, 32] := by
    refine ⟨1, [32, 32, 97, 32, 98, 32, 99], ⟨_, rfl, by decide, by decide⟩, by decide, ?_⟩
    intro j hj text ha
    have hlt := ha.lt
    simp only [List.length_cons, List.length_nil] at hlt
    omega
  refine ⟨_, hr, fun h => ?_⟩
  have hiff := parse_document_iff (fun _ => []) (fun _ => []) true h0 hn hr
  rw [hlines] at hiff
  exact absurd (hiff.mp h [115] [107] [97, 32] (B.merged.value_iff.mpr hlast)).1 (by decide)

end Nica
