import Nica.IniRuns

/-! # The invariant of the line loop

`Built` says that the maps hold exactly what the lines so far say.  One line keeps it (`Built.act`),
and so does a run up to its end, its first error or a line that stops it (`Built.run_ends`); the maps
of a failed run can be freed (`Built.freeRoot`). -/

namespace Nica

open CString NcHashmap Fueled

theorem returns_mapCall {α : Type} {f : ℕ → Except Fault α} {a : α} (h : Returns f a) :
    Returns (fun n => mapCall (f n)) a := by
  filter_upwards [h] with n hn
  rw [hn]
  rfl

/-- The maps of `p` are what the lines `ls` say; `names` are the sections in the order in which they
were opened. -/
structure Built (read : Bool → Bytes → Line) (ls names : List Bytes) (p : Parser) : Prop where
  current : p.currentSection = sectionBefore read ls
  root : Stringly p.root ls.length
  nodup : names.Nodup
  length : p.sections.length = names.length
  mem : ∀ name, name ∈ names ↔ name ∈ ls.filterMap (headerOf read)
  held : ∀ k v, Holds p.root k v ↔
    ∃ (h : ℕ) (name : Bytes), names[h]? = some name ∧ k = some name ∧ v = some h
  maps : ∀ (h : ℕ) name m, names[h]? = some name → p.sections[h]? = some m →
    Stringly m ls.length ∧ ∀ k v, Holds m k v ↔
      ∃ key value, k = some key ∧ v = some value ∧ LastValue read ls name key value

theorem newRoot_eq : newFull (Mem.granting Text (Option ℕ)) ncStringHash ncStringCompare true true =
    some newRoot := (Option.some_get _).symm

theorem newSection_eq : newFull (Mem.granting Text Text) ncStringHash ncStringCompare true true =
    some newSection := (Option.some_get _).symm

namespace Built

variable {read : Bool → Bytes → Line} {ls names : List Bytes} {l name : Bytes} {p : Parser}

theorem init (read : Bool → Bytes → Line) : Built read [] [] ⟨none, newRoot, []⟩ where
  current := rfl
  root := (Stringly.new newRoot_eq).1
  nodup := List.nodup_nil
  length := rfl
  mem _ := Iff.rfl
  held k v := iff_of_false ((Stringly.new newRoot_eq).2 k v) (by simp)
  maps h name m hname := by simp at hname

/-- The root map leads to every section. -/
theorem get_root (B : Built read ls names p) {h : ℕ} (hname : names[h]? = some name) :
    Returns (fun f => mapCall (get f p.root (some name))) (some h) :=
  returns_mapCall (B.root.get_held ((B.held _ _).mpr ⟨h, name, hname, rfl, rfl⟩))

theorem get_root_absent (B : Built read ls names p) (hname : name ∉ names) :
    Returns (fun f => mapCall (get f p.root (some name))) none := by
  refine returns_mapCall (B.root.get_absent fun v hv => ?_)
  obtain ⟨h, name', hn, heq, -⟩ := (B.held _ _).mp hv
  obtain rfl := Option.some.inj heq
  exact hname (List.mem_of_getElem? hn)

theorem exists_map (B : Built read ls names p) {h : ℕ} (hname : names[h]? = some name) :
    ∃ m, p.sections[h]? = some m := by
  have hh := (List.getElem?_eq_some_iff.mp hname).1
  exact ⟨_, List.getElem?_eq_getElem (B.length ▸ hh)⟩

/-- A line that assigns nothing and opens no new section. -/
theorem extend (B : Built read ls names p)
    (ha : ∀ key text, read true l ≠ .assignment key text)
    (hh : ∀ name, headerOf read l = some name → name ∈ names) :
    Built read (ls ++ [l]) names ⟨(headerOf read l).or p.currentSection, p.root, p.sections⟩ where
  current := by rw [sectionBefore_snoc, B.current]
  root := B.root.mono (by simp)
  nodup := B.nodup
  length := B.length
  mem name := by
    rw [B.mem, List.filterMap_append, List.mem_append, or_iff_left_of_imp]
    intro h
    rw [← B.mem]
    obtain ⟨l', hl', hname⟩ := List.mem_filterMap.mp h
    rw [List.mem_singleton.mp hl'] at hname
    exact hh name hname
  held := B.held
  maps h name m hname hm := by
    obtain ⟨S, hS⟩ := B.maps h name m hname hm
    refine ⟨S.mono (by simp), fun k v => (hS k v).trans ?_⟩
    simp only [lastValue_snoc_of_not fun text h => ha _ text h.1]

/-- An element of a list with one more at its end. -/
theorem getElem?_snoc {names : List Bytes} {n name : Bytes} {h : ℕ}
    (hn : (names ++ [name])[h]? = some n) :
    (h < names.length ∧ names[h]? = some n) ∨ (h = names.length ∧ n = name) := by
  have hlt := (List.getElem?_eq_some_iff.mp hn).1
  rw [List.length_append, List.length_singleton] at hlt
  by_cases hold : h < names.length
  · rw [List.getElem?_append_left hold] at hn
    exact .inl ⟨hold, hn⟩
  · obtain rfl : h = names.length := by omega
    rw [List.getElem?_concat_length] at hn
    exact .inr ⟨rfl, (Option.some.inj hn).symm⟩

theorem create (B : Built read ls names p) (hl : headerOf read l = some name) (hname : name ∉ names)
    {root : Root} (R : Stringly root (ls.length + 1))
    (hroot : ∀ k v, Holds root k v ↔
      (k = some name ∧ v = some p.sections.length) ∨ (Holds p.root k v ∧ k ≠ some name)) :
    Built read (ls ++ [l]) (names ++ [name]) ⟨some name, root, p.sections ++ [newSection]⟩ := by
  refine ⟨?_, by simpa using R, ?_, by simp [B.length], fun n => ?_, fun k v => ?_,
    fun h n m hn hm => ?_⟩
  · rw [sectionBefore_snoc, hl]
    rfl
  · rw [List.nodup_append]
    refine ⟨B.nodup, List.nodup_singleton _, fun a ha b hb => ?_⟩
    rw [List.mem_singleton.mp hb]
    rintro rfl
    exact hname ha
  · simp [B.mem, hl]
  · rw [hroot, B.held, B.length]
    constructor
    · rintro (⟨rfl, rfl⟩ | ⟨⟨h, n, hn, rfl, rfl⟩, -⟩)
      · exact ⟨_, name, by simp, rfl, rfl⟩
      · have hlt := (List.getElem?_eq_some_iff.mp hn).1
        exact ⟨h, n, by rw [List.getElem?_append_left hlt]; exact hn, rfl, rfl⟩
    · rintro ⟨h, n, hn, rfl, rfl⟩
      cases getElem?_snoc hn with
      | inl hold =>
          refine .inr ⟨⟨h, n, hold.2, rfl, rfl⟩, fun he => hname ?_⟩
          rw [← Option.some.inj he]
          exact List.mem_of_getElem? hold.2
      | inr hnew =>
          obtain ⟨rfl, rfl⟩ := hnew
          exact .inl ⟨rfl, rfl⟩
  · have hlen : (ls ++ [l]).length = ls.length + 1 := by simp
    simp only [lastValue_snoc_of_not fun text h => not_assignment_of_headerOf hl text h.1]
    cases getElem?_snoc hn with
    | inl hold =>
        rw [List.getElem?_append_left (by rw [B.length]; exact hold.1)] at hm
        obtain ⟨S, hS⟩ := B.maps h n m hold.2 hm
        exact ⟨S.mono (by omega), hS⟩
    | inr hnew =>
        obtain ⟨rfl, rfl⟩ := hnew
        rw [← B.length, List.getElem?_concat_length] at hm
        obtain rfl := Option.some.inj hm
        obtain ⟨S, hS⟩ := Stringly.new newSection_eq
        refine ⟨S.mono (Nat.zero_le _), fun k v => iff_of_false (hS k v) ?_⟩
        rintro ⟨key, value, -, -, hv⟩
        exact hname ((B.mem n).mpr hv.mem)

theorem openSection (B : Built read ls names p) (hl : headerOf read l = some name)
    (hn : ls.length < 2 ^ 29) :
    ∃ p' names', Returns (fun f => Nica.openSection f p name) p' ∧
      Built read (ls ++ [l]) names' p' := by
  by_cases hname : name ∈ names
  · obtain ⟨h, hh, hget⟩ := List.getElem_of_mem hname
    have hget : names[h]? = some name := by rw [List.getElem?_eq_getElem hh, hget]
    have hopen : ∀ n, headerOf read l = some n → n ∈ names := by
      intro n hn
      rw [← Option.some.inj (hl.symm.trans hn)]
      exact hname
    have E := B.extend (fun _ => not_assignment_of_headerOf hl) hopen
    rw [hl] at E
    exact ⟨_, names, (B.get_root hget).bind (Returns.pure _), E⟩
  · obtain ⟨root, hput, R, hroot⟩ := B.root.put hn name (some p.sections.length)
    refine ⟨⟨some name, root, p.sections ++ [newSection]⟩, names ++ [name], ?_,
      B.create hl hname R hroot⟩
    exact (B.get_root_absent hname).bind ((returns_mapCall hput).bind (Returns.pure _))

theorem store (B : Built read ls names p) {key text : Bytes}
    (hl : read true l = .assignment key text) (hs : sectionBefore read ls = some name)
    (hn : ls.length < 2 ^ 29) :
    ∃ p' names', Returns (fun f => Nica.store f p key (chewText text)) (.next p') ∧
      Built read (ls ++ [l]) names' p' := by
  obtain ⟨h, hh, hget⟩ := List.getElem_of_mem ((B.mem name).mpr (sectionBefore_mem hs))
  have hget : names[h]? = some name := by rw [List.getElem?_eq_getElem hh, hget]
  obtain ⟨m, hm⟩ := B.exists_map hget
  obtain ⟨S, hS⟩ := B.maps h name m hget hm
  obtain ⟨m', hput, S', hm'⟩ := S.put hn key (some (chewText text))
  refine ⟨⟨p.currentSection, p.root, p.sections.set h m'⟩, names, ?_, ?_⟩
  · have hroot : Returns (fun f => mapCall (get f p.root p.currentSection)) (some h) := by
      rw [B.current, hs]
      exact B.get_root hget
    apply hroot.bind
    simp only [hm]
    exact (returns_mapCall hput).bind (Returns.pure _)
  · have hhead := headerOf_of_assignment hl
    have hlen : (ls ++ [l]).length = ls.length + 1 := by simp
    refine ⟨?_, B.root.mono (by omega), B.nodup, by simp [B.length], fun n => ?_, B.held,
      fun h' n m₁ hn' hm₁ => ?_⟩
    · rw [sectionBefore_snoc, hhead, B.current]
      rfl
    · simp [B.mem, hhead]
    · rw [hlen]
      by_cases hhh : h' = h
      · subst hhh
        obtain rfl := Option.some.inj (hget.symm.trans hn')
        rw [List.getElem?_set_self (by rw [B.length]; exact hh)] at hm₁
        obtain rfl := Option.some.inj hm₁
        refine ⟨S', fun k v => ?_⟩
        rw [hm', hS]
        simp only [lastValue_snoc_assignment hl hs]
        constructor
        · rintro (⟨rfl, rfl⟩ | ⟨⟨key', value, rfl, rfl, hv⟩, hne⟩)
          · exact ⟨key, _, rfl, rfl, .inl ⟨rfl, rfl⟩⟩
          · exact ⟨key', value, rfl, rfl, .inr ⟨hv, fun he => hne (by rw [he])⟩⟩
        · rintro ⟨key', value, rfl, rfl, ⟨rfl, rfl⟩ | ⟨hv, hne⟩⟩
          · exact .inl ⟨rfl, rfl⟩
          · exact .inr ⟨⟨key', value, rfl, rfl, hv⟩, fun he => hne (Option.some.inj he)⟩
      · rw [List.getElem?_set_ne (Ne.symm hhh)] at hm₁
        obtain ⟨S₁, hS₁⟩ := B.maps h' n m₁ hn' hm₁
        have hne : name ≠ n := by
          rintro rfl
          have hlt := (List.getElem?_eq_some_iff.mp hn').1
          exact hhh ((List.getElem?_inj hlt B.nodup).mp (hn'.trans hget.symm))
        refine ⟨S₁.mono (Nat.le_succ _), fun k v => (hS₁ k v).trans ?_⟩
        simp only [lastValue_snoc_of_not fun _ h => hne (Option.some.inj (hs.symm.trans h.2))]

/-- A line without an error. -/
theorem act (B : Built read ls names p) (hread : ∀ b, interpret b l = read b l)
    (hn : ls.length < 2 ^ 29)
    (hok : ∀ err, interpret p.currentSection.isSome l ≠ .error err) :
    ∃ p' names', Returns (fun f => Nica.act f p (interpret p.currentSection.isSome l)) (.next p') ∧
      Built read (ls ++ [l]) names' p' := by
  have htrue := interpret_reading.read_true hok
  rw [hread true] at htrue
  have skip : (∀ key text, read true l ≠ .assignment key text) → headerOf read l = none →
      Built read (ls ++ [l]) names p := by
    intro ha hh
    have E := B.extend ha fun n hn => by rw [hh] at hn; cases hn
    rw [hh] at E
    exact E
  cases hline : interpret p.currentSection.isSome l with
  | blank =>
      rw [hline] at htrue
      exact ⟨p, names, Returns.pure _, skip (by simp [htrue]) (by simp [headerOf, htrue])⟩
  | comment =>
      rw [hline] at htrue
      exact ⟨p, names, Returns.pure _, skip (by simp [htrue]) (by simp [headerOf, htrue])⟩
  | header name =>
      rw [hline] at htrue
      have hhead : headerOf read l = some name := by simp [headerOf, htrue]
      obtain ⟨p', names', hr, B'⟩ := B.openSection hhead hn
      exact ⟨p', names', hr.bind (Returns.pure _), B'⟩
  | assignment key text =>
      have hsec := interpret_reading.sectioned hline
      rw [B.current, Option.isSome_iff_exists] at hsec
      obtain ⟨name, hs⟩ := hsec
      rw [hline] at htrue
      exact B.store htrue hs hn
  | error err => exact absurd hline (hok err)

/-- A run from the first line on. -/
theorem run_ends (hread : ∀ l ∈ ls, ∀ b, interpret b l = read b l) (hn : ls.length < 2 ^ 29) :
    RunEnds read (fun ls p => ∃ names, Built read ls names p) ls 0
      fun f => runLines f ls 1 ⟨none, newRoot, []⟩ := by
  refine runLines_ends [] (fun ls p h => ?_) (fun ls l p h hlen hl hok => ?_)
    ⟨[], init read⟩ hread hn
  · obtain ⟨names, B⟩ := h
    exact B.current
  · obtain ⟨names, B⟩ := h
    obtain ⟨p', names', hr, B'⟩ := B.act hl hlen hok
    exact ⟨p', hr, names', B'⟩

/-- The maps of a failed run can be freed. -/
theorem freeRoot (B : Built read ls names p) : Returns (fun f => Nica.freeRoot f p) () := by
  have sections : ∀ calls, (∀ v, FreeCall.value v ∈ calls → ∃ h, v = some h ∧ h < p.sections.length) →
      Returns (fun f => freeSections f p.sections calls) () := by
    intro calls
    induction calls with
    | nil => exact fun _ => Returns.pure _
    | cons c calls ih =>
        intro hv
        have hrest := ih fun v h => hv v (List.mem_cons_of_mem _ h)
        cases c with
        | key k => exact hrest
        | value v =>
            obtain ⟨h, rfl, hh⟩ := hv v List.mem_cons_self
            have hname := List.getElem?_eq_getElem (B.length ▸ hh)
            have hm := List.getElem?_eq_getElem hh
            obtain ⟨m, hfree, -⟩ := (B.maps h _ _ hname hm).1.free
            simp only [freeSections, hm]
            exact (returns_mapCall hfree).bind hrest
  obtain ⟨m, hfree, hlog⟩ := B.root.free
  refine (returns_mapCall hfree).bind (sections _ fun v hv => ?_)
  obtain ⟨k, hk⟩ := hlog v hv
  obtain ⟨h, name, hname, -, rfl⟩ := (B.held k v).mp hk
  exact ⟨h, rfl, B.length ▸ (List.getElem?_eq_some_iff.mp hname).1⟩

end Built
end Nica
