import Nica.HashmapOwnership
import Nica.IniMerge

/-! # The strings of a parsed file

Every key and every value that the parser puts into a section map is a string of its own, and the
section maps belong to the root map.  `freeIni` is `nc_hashmap_free` of a map of maps with all that
the maps pass to their cleanup functions from their creation on.  `Owns` says that the maps have been
given what the lines so far say; one line keeps it (`Owns.act`).  So freeing the root map frees as many
strings of each text as were put, whether they are still there or were replaced long before
(`parse_frees_strings`). -/

namespace Nica

open CString Rows NcHashmap Fueled

/-! ### Freeing the map of maps -/

/-- `freeSections`, with the place of each section map and all that it passed to its cleanup
functions. -/
def freeSectionsLog (fuel : ℕ) (sections : List Section) :
    List (FreeCall Text (Option ℕ)) → Except Stop (List (ℕ × List (FreeCall Text Text)))
  | [] => .ok []
  | .value (some h) :: calls =>
      match sections[h]? with
      | none => .error (.map .dangling)
      | some sectionMap => do
          let m ← mapCall (free fuel sectionMap)
          let freed ← freeSectionsLog fuel sections calls
          .ok ((h, m.log) :: freed)
  | _ :: calls => freeSectionsLog fuel sections calls

/-- `nc_hashmap_free(ini)`: what the root map and the section maps passed to their cleanup
functions. -/
def freeIni (fuel : ℕ) (ini : IniMap) :
    Except Stop (List (FreeCall Text (Option ℕ)) × List (ℕ × List (FreeCall Text Text))) := do
  let m ← mapCall (free fuel ini.root)
  let freed ← freeSectionsLog fuel ini.sections (m.log.drop ini.root.mem.log.length)
  .ok (m.log, freed)

theorem freeSections_eq (fuel : ℕ) (sections : List Section)
    (calls : List (FreeCall Text (Option ℕ))) : freeSections fuel sections calls =
      freeSectionsLog fuel sections calls >>= fun _ => .ok () := by
  induction calls with
  | nil => rfl
  | cons c calls ih =>
      cases c with
      | key k => exact ih
      | value v =>
          cases v with
          | none => exact ih
          | some h =>
              simp only [freeSections, freeSectionsLog]
              cases sections[h]? with
              | none => rfl
              | some sectionMap =>
                  simp only
                  cases mapCall (free fuel sectionMap) with
                  | error e => rfl
                  | ok m =>
                      rw [ok_bind, ok_bind, ih]
                      cases freeSectionsLog fuel sections calls with
                      | error e => rfl
                      | ok freed => rfl

/-- The parser frees the maps of a failed run in the same way. -/
theorem freeRoot_eq (fuel : ℕ) (p : Parser) :
    freeRoot fuel p = freeIni fuel ⟨p.root, p.sections⟩ >>= fun _ => .ok () := by
  unfold freeRoot freeIni
  cases mapCall (free fuel p.root) with
  | error e => rfl
  | ok m =>
      simp only [ok_bind]
      rw [freeSections_eq]
      cases freeSectionsLog fuel p.sections (m.log.drop p.root.mem.log.length) with
      | error e => rfl
      | ok freed => rfl

/-! ### What is put into the maps -/

section puts
variable (read : Bool → Bytes → Line) (name : Bytes)

/-- The pair that the line `l` behind the lines `before` puts into the section `name`. -/
def putBy (before : List Bytes) (l : Bytes) : Option (Text × Text) :=
  match read true l with
  | .assignment key text =>
      if sectionBefore read before = some name then some (some key, some (chewText text)) else none
  | _ => none

/-- The pairs that the lines behind `before` put into the section `name`, in order. -/
def putsFrom (before : List Bytes) : List Bytes → List (Text × Text)
  | [] => []
  | l :: ls => (putBy read name before l).toList ++ putsFrom (before ++ [l]) ls

/-- The pairs that the lines put into the section `name`. -/
def putsInto (ls : List Bytes) : List (Text × Text) := putsFrom read name [] ls

variable {read name}

theorem putsFrom_snoc (before ls : List Bytes) (l : Bytes) : putsFrom read name before (ls ++ [l]) =
    putsFrom read name before ls ++ (putBy read name (before ++ ls) l).toList := by
  induction ls generalizing before with
  | nil => rw [List.nil_append, putsFrom, putsFrom, putsFrom, List.append_nil, List.append_nil,
      List.nil_append]
  | cons l' ls ih =>
      rw [List.cons_append, putsFrom, ih, putsFrom, List.append_assoc, List.append_assoc,
        List.singleton_append]

theorem putsInto_snoc (ls : List Bytes) (l : Bytes) :
    putsInto read name (ls ++ [l]) = putsInto read name ls ++ (putBy read name ls l).toList :=
  putsFrom_snoc [] ls l

theorem putBy_eq_none {before : List Bytes} {l : Bytes}
    (h : ∀ key text, read true l = .assignment key text → sectionBefore read before ≠ some name) :
    putBy read name before l = none := by
  unfold putBy
  cases hl : read true l with
  | assignment key text => exact if_neg (h key text hl)
  | blank => rfl
  | comment => rfl
  | header n => rfl
  | error err => rfl

/-- A section that is never opened gets nothing. -/
theorem putsInto_eq_nil {ls : List Bytes} (h : name ∉ ls.filterMap (headerOf read)) :
    putsInto read name ls = [] := by
  induction ls using List.reverseRecOn with
  | nil => rfl
  | append_singleton ls l ih =>
      rw [List.filterMap_append, List.mem_append, not_or] at h
      have hsection : sectionBefore read ls ≠ some name := fun hs => h.1 (sectionBefore_mem hs)
      rw [putsInto_snoc, ih h.1, putBy_eq_none fun _ _ _ => hsection]
      rfl

end puts

/-- The sections as the pairs of the root map. -/
def sectionPairs (names : List Bytes) : List (Text × Option ℕ) :=
  names.zipIdx.map fun x => (some x.1, some x.2)

theorem sectionPairs_snoc (names : List Bytes) (name : Bytes) :
    sectionPairs (names ++ [name]) = sectionPairs names ++ [(some name, some names.length)] := by
  simp [sectionPairs, List.zipIdx_append]

theorem mem_sectionPairs {names : List Bytes} {name : Bytes} {h : ℕ} :
    (some name, some h) ∈ sectionPairs names ↔ names[h]? = some name := by
  simp [sectionPairs, List.mem_zipIdx_iff_getElem?]

/-! ### Maps with strings -/

/-- The table of a map of strings can be resized within `int`. -/
theorem Stringly.mul_le_intMax {V : Type} [Null V] {s : State Text V} {n : ℕ} (S : Stringly s n)
    (hn : n < 2 ^ 29) (hr : s.self.maybeResize = true) :
    s.self.nBuckets * increaseFactor ≤ intMax := by
  obtain ⟨tails, P⟩ := S.filled
  apply P.mul_le_intMax hr
  have hsize := S.size
  omega

theorem owning_new {V : Type} [Null V] {s : State Text V}
    (h : newFull (Mem.granting Text V) ncStringHash ncStringCompare true true = some s) :
    Owning s ∧ s.mem.log = [] ∧ Listing s [] := by
  obtain ⟨T, hrow, hself, hgrants⟩ := newInternal_table h NonNull
  refine ⟨⟨by rw [hself]; exact string_lawful, by rw [hself], by rw [hself],
    fun i => by rw [hgrants]; rfl⟩, ?_, ?_⟩
  · unfold newFull newInternal at h
    split_ifs at h
    split at h
    · cases h
    · obtain rfl := Option.some.inj h
      rfl
  · have hlisting := T.toShape.listing
    rwa [contents_holes hrow] at hlisting

/-- All that a map passes to its cleanup functions until it is freed is what was put into it. -/
theorem History.freed {V : Type} [Null V] {s₀ s : State Text V} {given : List (Text × V)}
    (hist : History s₀ given [] s) (O : Owning s₀) (hlog : s₀.mem.log = []) (h₀ : Listing s₀ [])
    (wf : WellFormed s) :
    ∃ m, Returns (fun f => NcHashmap.free f s) m ∧ m.log.Perm (pointers given) := by
  obtain ⟨O', held, calls, B⟩ := hist.ledger O h₀
  obtain ⟨m, hm, ⟨last, hlast, hperm⟩, -⟩ := free_owned O' wf B.listing
  refine ⟨m, hm, ?_⟩
  have hbalance : (pointers held ++ calls ++ pointers []).Perm (pointers ([] ++ given)) :=
    Multiset.coe_eq_coe.mp B.balance
  rw [List.nil_append, show pointers ([] : List (Text × V)) = [] from rfl, List.append_nil]
    at hbalance
  rw [hlast, B.log, hlog, List.nil_append]
  exact (List.perm_append_comm.trans (hperm.append_right calls)).trans hbalance

/-! ### The invariant of the line loop -/

/-- The maps own what the lines `ls` put into them. -/
structure Owns (read : Bool → Bytes → Line) (ls names : List Bytes) (p : Parser) : Prop where
  root : Owning p.root
  log : p.root.mem.log = []
  pairs : ∃ held, Listing p.root held ∧ held.Perm (sectionPairs names)
  maps : ∀ (h : ℕ) name m, names[h]? = some name → p.sections[h]? = some m →
    History newSection (putsInto read name ls) [] m

namespace Owns

variable {read : Bool → Bytes → Line} {ls names names' : List Bytes} {l name : Bytes} {p : Parser}

theorem names_eq (O : Owns read ls names p) (B : Built read ls names' p) : names = names' := by
  obtain ⟨held, hheld, hperm⟩ := O.pairs
  apply List.ext_getElem?
  intro h
  apply Option.ext
  intro name
  rw [← mem_sectionPairs, ← hperm.mem_iff, hheld.mem_iff, B.held]
  constructor
  · rintro ⟨h', n, hn, hname, hh⟩
    obtain rfl := Option.some.inj hname
    obtain rfl := Option.some.inj hh
    exact hn
  · exact fun hn => ⟨h, name, hn, rfl, rfl⟩

theorem init (read : Bool → Bytes → Line) : Owns read [] [] ⟨none, newRoot, []⟩ := by
  obtain ⟨O, hlog, hlisting⟩ := owning_new newRoot_eq
  exact ⟨O, hlog, ⟨[], hlisting, .refl _⟩, fun h name m hname => by cases hname⟩

/-- A line that puts nothing into a section. -/
theorem skip (O : Owns read ls names p) (hnone : ∀ name, putBy read name ls l = none)
    (current : Text) : Owns read (ls ++ [l]) names ⟨current, p.root, p.sections⟩ where
  root := O.root
  log := O.log
  pairs := O.pairs
  maps h name m hname hm := by
    rw [putsInto_snoc, hnone, Option.toList_none, List.append_nil]
    exact O.maps h name m hname hm

theorem create (O : Owns read ls names p) (B : Built read ls names p)
    (hl : headerOf read l = some name) (hname : name ∉ names) (hn : ls.length < 2 ^ 29) :
    ∃ root, Returns (fun f => NcHashmap.put f p.root (some name) (some p.sections.length))
        (true, root) ∧
      Owns read (ls ++ [l]) (names ++ [name]) ⟨some name, root, p.sections ++ [newSection]⟩ := by
  obtain ⟨held, hheld, hperm⟩ := O.pairs
  obtain ⟨root, held', hput, hsame, hheld', hcase⟩ := put_owned O.root B.root.wellFormed.wellFormed
    (some name) (some p.sections.length) (B.root.mul_le_intMax hn) hheld
  have hnone : ∀ n, putBy read n ls l = none := fun n =>
    putBy_eq_none fun _ _ h => absurd h (not_assignment_of_headerOf hl _)
  obtain ⟨-, hlog, hnew⟩ | ⟨k, v, rest, hholds, hcompare, -⟩ := hcase
  swap
  · -- the root map has no such key
    rw [B.root.compare, ncStringCompare_iff] at hcompare
    obtain ⟨h, n, hn', hk, -⟩ := (B.held k v).mp hholds
    rw [hcompare] at hk
    exact absurd (Option.some.inj hk ▸ List.mem_of_getElem? hn') hname
  refine ⟨root, hput, O.root.same hsame, hlog.trans O.log, ⟨held', hheld', ?_⟩, fun h n m hn' hm => ?_⟩
  · rw [sectionPairs_snoc, ← B.length]
    exact hnew.trans ((hperm.cons _).trans (List.perm_append_singleton _ _).symm)
  · rw [putsInto_snoc, hnone, Option.toList_none, List.append_nil]
    cases Built.getElem?_snoc hn' with
    | inl hold =>
        rw [List.getElem?_append_left (by rw [B.length]; exact hold.1)] at hm
        exact O.maps h n m hold.2 hm
    | inr hnew =>
        obtain ⟨rfl, rfl⟩ := hnew
        rw [← B.length, List.getElem?_concat_length] at hm
        obtain rfl := Option.some.inj hm
        rw [putsInto_eq_nil fun hmem => hname ((B.mem n).mpr hmem)]
        exact .init

theorem openSection (O : Owns read ls names p) (B : Built read ls names p)
    (hl : headerOf read l = some name) (hn : ls.length < 2 ^ 29) :
    ∃ p' names', Returns (fun f => Nica.openSection f p name) p' ∧
      Owns read (ls ++ [l]) names' p' := by
  by_cases hname : name ∈ names
  · obtain ⟨h, hh, hat⟩ := List.getElem_of_mem hname
    have hsome : names[h]? = some name := by rw [List.getElem?_eq_getElem hh, hat]
    have hnone : ∀ n, putBy read n ls l = none := fun n =>
      putBy_eq_none fun _ _ h => absurd h (not_assignment_of_headerOf hl _)
    exact ⟨_, names, (B.get_root hsome).bind (Returns.pure _), O.skip hnone (some name)⟩
  · obtain ⟨root, hput, O'⟩ := O.create B hl hname hn
    exact ⟨_, _, (B.get_root_absent hname).bind ((returns_mapCall hput).bind (Returns.pure _)), O'⟩

theorem store (O : Owns read ls names p) (B : Built read ls names p) {key text : Bytes}
    (hl : read true l = .assignment key text) (hs : sectionBefore read ls = some name)
    (hn : ls.length < 2 ^ 29) :
    ∃ p' names', Returns (fun f => Nica.store f p key (chewText text)) (.next p') ∧
      Owns read (ls ++ [l]) names' p' := by
  obtain ⟨h, hh, hat⟩ := List.getElem_of_mem ((B.mem name).mpr (sectionBefore_mem hs))
  have hsome : names[h]? = some name := by rw [List.getElem?_eq_getElem hh, hat]
  obtain ⟨m, hm⟩ := B.exists_map hsome
  obtain ⟨S, -⟩ := B.maps h name m hsome hm
  obtain ⟨m', hput, -⟩ := S.put hn key (some (chewText text))
  refine ⟨⟨p.currentSection, p.root, p.sections.set h m'⟩, names, ?_, O.root, O.log, O.pairs,
    fun h' n m₁ hn' hm₁ => ?_⟩
  · have hroot : Returns (fun f => mapCall (get f p.root p.currentSection)) (some h) := by
      rw [B.current, hs]
      exact B.get_root hsome
    apply hroot.bind
    simp only [hm]
    exact (returns_mapCall hput).bind (Returns.pure _)
  · rw [putsInto_snoc]
    by_cases hsame : h' = h
    · subst hsame
      obtain rfl := Option.some.inj (hsome.symm.trans hn')
      rw [List.getElem?_set_self (by rw [B.length]; exact hh)] at hm₁
      obtain rfl := Option.some.inj hm₁
      have hputs : putBy read name ls l = some (some key, some (chewText text)) := by
        rw [putBy, hl]
        exact if_pos hs
      rw [hputs, Option.toList_some]
      exact (O.maps h' name m hsome hm).put S.wellFormed.wellFormed (nonNull_iff.mpr ⟨key, rfl⟩)
        (S.mul_le_intMax hn) hput
    · rw [List.getElem?_set_ne (Ne.symm hsame)] at hm₁
      have hother : name ≠ n := by
        rintro rfl
        have hlt := (List.getElem?_eq_some_iff.mp hn').1
        exact hsame ((List.getElem?_inj hlt B.nodup).mp (hn'.trans hsome.symm))
      rw [putBy_eq_none fun _ _ _ h => hother (Option.some.inj (hs.symm.trans h)),
        Option.toList_none, List.append_nil]
      exact O.maps h' n m₁ hn' hm₁

/-- A line without an error. -/
theorem act (O : Owns read ls names p) (B : Built read ls names p)
    (hread : ∀ b, interpret b l = read b l) (hn : ls.length < 2 ^ 29)
    (hok : ∀ err, interpret p.currentSection.isSome l ≠ .error err) :
    ∃ p' names', Returns (fun f => Nica.act f p (interpret p.currentSection.isSome l)) (.next p') ∧
      Owns read (ls ++ [l]) names' p' := by
  have htrue := interpret_reading.read_true hok
  rw [hread true] at htrue
  cases hline : interpret p.currentSection.isSome l with
  | blank =>
      rw [hline] at htrue
      have hnone : ∀ n, putBy read n ls l = none := fun n => by rw [putBy, htrue]
      exact ⟨p, names, Returns.pure _, O.skip hnone p.currentSection⟩
  | comment =>
      rw [hline] at htrue
      have hnone : ∀ n, putBy read n ls l = none := fun n => by rw [putBy, htrue]
      exact ⟨p, names, Returns.pure _, O.skip hnone p.currentSection⟩
  | header name =>
      rw [hline] at htrue
      have hhead : headerOf read l = some name := by simp [headerOf, htrue]
      obtain ⟨p', names', hr, O'⟩ := O.openSection B hhead hn
      exact ⟨p', names', hr.bind (Returns.pure _), O'⟩
  | assignment key text =>
      have hsec := interpret_reading.sectioned hline
      rw [B.current, Option.isSome_iff_exists] at hsec
      obtain ⟨name, hs⟩ := hsec
      rw [hline] at htrue
      exact O.store B htrue hs hn
  | error err => exact absurd hline (hok err)

theorem run_ends (hread : ∀ l ∈ ls, ∀ b, interpret b l = read b l) (hn : ls.length < 2 ^ 29) :
    RunEnds read (fun ls p => ∃ names, Built read ls names p ∧ Owns read ls names p) ls 0
      fun f => runLines f ls 1 ⟨none, newRoot, []⟩ := by
  refine runLines_ends [] (fun ls p h => ?_) (fun ls l p h hlen hl hok => ?_)
    ⟨[], Built.init read, init read⟩ hread hn
  · obtain ⟨names, B, -⟩ := h
    exact B.current
  · obtain ⟨names, B, O⟩ := h
    obtain ⟨p₁, names₁, hr, B₁⟩ := B.act hl hlen hok
    obtain ⟨p₂, names₂, hr', O₁⟩ := O.act B hl hlen hok
    obtain rfl := Jump.next.inj (hr.unique hr')
    obtain rfl := O₁.names_eq B₁
    exact ⟨p₁, hr, names₂, B₁, O₁⟩

end Owns

/-! ### Freeing what the lines built -/

/-- The section map that a cleanup of the root map frees. -/
def placeOf : FreeCall Text (Option ℕ) → Option ℕ
  | .value v => v
  | .key _ => none

theorem placeOf_pointers (names : List Bytes) :
    (pointers (sectionPairs names)).filterMap placeOf = List.range names.length := by
  induction names using List.reverseRecOn with
  | nil => rfl
  | append_singleton names name ih =>
      rw [sectionPairs_snoc, pointers_append, List.filterMap_append, ih, List.length_append,
        List.length_singleton, List.range_succ]
      rfl

namespace Owns

variable {read : Bool → Bytes → Line} {ls names : List Bytes} {p : Parser}

theorem sections (O : Owns read ls names p) (B : Built read ls names p)
    {calls : List (FreeCall Text (Option ℕ))}
    (hcalls : ∀ v, FreeCall.value v ∈ calls → ∃ h, v = some h ∧ h < names.length) :
    ∃ freed, Returns (fun f => freeSectionsLog f p.sections calls) freed ∧
      freed.map Prod.fst = calls.filterMap placeOf ∧
      ∀ h log, (h, log) ∈ freed → ∃ name, names[h]? = some name ∧
        log.Perm (pointers (putsInto read name ls)) := by
  induction calls with
  | nil => exact ⟨[], Returns.pure _, rfl, fun h log hmem => absurd hmem List.not_mem_nil⟩
  | cons c calls ih =>
      obtain ⟨freed, hr, hplaces, hlogs⟩ := ih fun v hv => hcalls v (List.mem_cons_of_mem _ hv)
      cases c with
      | key k => exact ⟨freed, hr, hplaces, hlogs⟩
      | value v =>
          obtain ⟨h, rfl, hh⟩ := hcalls v List.mem_cons_self
          have hname : names[h]? = some names[h] := List.getElem?_eq_getElem hh
          obtain ⟨m, hm⟩ := B.exists_map hname
          obtain ⟨S, -⟩ := B.maps h _ m hname hm
          obtain ⟨O₀, hlog, hlisting⟩ := owning_new newSection_eq
          obtain ⟨mem, hfree, hperm⟩ :=
            (O.maps h _ m hname hm).freed O₀ hlog hlisting S.wellFormed.wellFormed
          refine ⟨(h, mem.log) :: freed, ?_, ?_, fun h' log hmem => ?_⟩
          · simp only [freeSectionsLog, hm]
            exact (returns_mapCall hfree).bind (hr.bind (Returns.pure _))
          · rw [List.map_cons, hplaces]
            rfl
          · cases List.mem_cons.mp hmem with
            | inl heq =>
                obtain ⟨rfl, rfl⟩ := Prod.mk.inj heq
                exact ⟨_, hname, hperm⟩
            | inr hmem => exact hlogs h' log hmem

/-- Freeing the root map frees each section map once, and with it what was put into it. -/
theorem free (O : Owns read ls names p) (B : Built read ls names p) :
    ∃ calls freed, Returns (fun f => freeIni f ⟨p.root, p.sections⟩) (calls, freed) ∧
      calls.Perm (pointers (sectionPairs names)) ∧
      (freed.map Prod.fst).Perm (List.range names.length) ∧
      ∀ h log, (h, log) ∈ freed → ∃ name, names[h]? = some name ∧
        log.Perm (pointers (putsInto read name ls)) := by
  obtain ⟨held, hheld, hperm⟩ := O.pairs
  obtain ⟨m, hm, ⟨calls, hlog, hcalls⟩, -⟩ := free_owned O.root B.root.wellFormed.wellFormed hheld
  rw [O.log, List.nil_append] at hlog
  have hall : m.log.Perm (pointers (sectionPairs names)) := by
    rw [hlog]
    exact hcalls.trans (pointers_perm hperm)
  have hvalues : ∀ v, FreeCall.value v ∈ m.log → ∃ h, v = some h ∧ h < names.length := by
    intro v hv
    obtain ⟨⟨k, v'⟩, hpair, hmem⟩ := List.mem_flatMap.mp (hall.mem_iff.mp hv)
    simp only [List.mem_cons, reduceCtorEq, FreeCall.value.injEq, List.not_mem_nil, or_false,
      false_or] at hmem
    subst hmem
    obtain ⟨⟨n, h⟩, hn, heq⟩ := List.mem_map.mp hpair
    obtain ⟨-, rfl⟩ := Prod.mk.inj heq
    exact ⟨h, rfl, (List.getElem?_eq_some_iff.mp (List.mem_zipIdx_iff_getElem?.mp hn)).1⟩
  obtain ⟨freed, hr, hplaces, hlogs⟩ := O.sections B hvalues
  refine ⟨m.log, freed, ?_, hall, ?_, hlogs⟩
  · refine (returns_mapCall hm).bind ?_
    simp only [O.log, List.length_nil, List.drop_zero]
    exact hr.bind (Returns.pure _)
  · rw [hplaces, ← placeOf_pointers]
    exact hall.filterMap placeOf

end Owns

/-! ### Files -/

/-- Whether the parser accepts a file or gives up at a line, the root map that it returns or frees
frees each section name and each section map once; and the texts of the strings that a section map
frees, during the parse or with the root map, are those of the keys and values that the lines put into
it, each as often. -/
theorem parse_frees_strings (slack : ℕ → Bytes) (errorLineNumber : Bool) {content : Bytes}
    (h0 : 0 ∉ content) (hn : (lines content).length < 2 ^ 29)
    (hg : Guarded classify (lines content)) :
    ∃ (p : Parser) (k : ℕ),
      (k = (lines content).length ∧
          Returns (fun f => ncIniFileParseFull f slack (some content) true errorLineNumber)
            ⟨0, some ⟨p.root, p.sections⟩, none⟩ ∨
        k < (lines content).length ∧ ∃ err,
          Returns (fun f => parseLines f slack (rawLines content) 1 ⟨none, newRoot, []⟩)
            (p, some (err, k + 1)) ∧
          (∀ f, freeRoot f p = freeIni f ⟨p.root, p.sections⟩ >>= fun _ => .ok ()) ∧
          Returns (fun f => ncIniFileParseFull f slack (some content) true errorLineNumber)
            ⟨-err.code, none, if errorLineNumber then some (k + 1) else none⟩) ∧
      ∃ (names : List Bytes) (calls : _) (freed : _), names.Nodup ∧
        (∀ name, name ∈ names ↔ name ∈ ((lines content).take k).filterMap (headerOf classify)) ∧
        Returns (fun f => freeIni f ⟨p.root, p.sections⟩) (calls, freed) ∧
        calls.Perm (pointers (sectionPairs names)) ∧
        (freed.map Prod.fst).Perm (List.range names.length) ∧
        ∀ h log, (h, log) ∈ freed → ∃ name, names[h]? = some name ∧
          log.Perm (pointers (putsInto classify name ((lines content).take k))) := by
  have hread : ∀ l ∈ lines content, ∀ b, interpret b l = classify b l :=
    fun l hl b => interpret_eq_classify (fun h => h0 (lines_subset hl h)) b
  have hparse : ∀ {p failed out}, Returns (fun f => runLines f (lines content) 1 ⟨none, newRoot, []⟩)
      (p, failed) → Returns (fun f => finish f errorLineNumber p failed) out →
      Returns (fun f => ncIniFileParseFull f slack (some content) true errorLineNumber) out := by
    intro p failed out hr hout
    refine Returns.congr ?_ fun f => parse_eq_runLines f slack content errorLineNumber
    exact hr.bind hout
  cases Owns.run_ends hread hn with
  | stopped _ hstop hall =>
      exact (ParseEnds.not_stopped hg hstop fun j => hall j (Nat.zero_le j)).elim
  | @passed p hr hI _ =>
      obtain ⟨names, B, O⟩ := hI
      obtain ⟨calls, freed, hfree, hcalls, hplaces, hlogs⟩ := O.free B
      refine ⟨p, (lines content).length, .inl ⟨rfl, hparse hr (Returns.pure _)⟩, names, calls, freed,
        B.nodup, ?_, hfree, hcalls, hplaces, ?_⟩
      · rw [List.take_length]
        exact B.mem
      · rw [List.take_length]
        exact hlogs
  | @failed i err p hr hI herr _ _ =>
      obtain ⟨names, B, O⟩ := hI
      obtain ⟨calls, freed, hfree, hcalls, hplaces, hlogs⟩ := O.free B
      have hi : i < (lines content).length := by
        by_contra hle
        rw [errorAt_none_of_length_le (Nat.le_of_not_lt hle)] at herr
        cases herr
      refine ⟨p, i, .inr ⟨hi, err, ?_, fun f => freeRoot_eq f p,
        hparse hr (B.freeRoot.bind (Returns.pure _))⟩, names, calls, freed, B.nodup, B.mem, hfree,
        hcalls, hplaces, hlogs⟩
      refine hr.congr fun f => ?_
      rw [parseLines_eq f slack (nil_notMem_rawLines content), map_chomp_rawLines]

/-- `[s]`, `k=1`, `k=2`: the replaced value is freed too. -/
theorem parse_frees_strings_replaced : ∃ m calls log,
    Returns (fun f => ncIniFileParseFull f (fun _ => [])
      (some [91, 115, 93, 10, 107, 61, 49, 10, 107, 61, 50, 10]) true true) ⟨0, some m, none⟩ ∧
    Returns (fun f => freeIni f m) (calls, [(0, log)]) ∧
    log.Perm [.key (some [107]), .value (some [49]), .key (some [107]), .value (some [50])] := by
  have hlines : lines [91, 115, 93, 10, 107, 61, 49, 10, 107, 61, 50, 10] =
      [[91, 115, 93], [107, 61, 49], [107, 61, 50]] := by decide
  have h0 : (0 : UInt8) ∉ [91, 115, 93, 10, 107, 61, 49, 10, 107, 61, 50, 10] := by decide
  have hn : (lines [91, 115, 93, 10, 107, 61, 49, 10, 107, 61, 50, 10]).length < 2 ^ 29 := by
    rw [hlines]
    decide
  obtain ⟨p, k, hend, names, calls, freed, hnd, hnames, hfree, -, hplaces, hlogs⟩ :=
    parse_frees_strings (fun _ => []) true h0 hn (by rw [hlines]; exact guarded_of_lt (by decide))
  obtain ⟨q, _, hq, -⟩ := parse_accepted (fun _ => []) true h0 hn
    (by rw [hlines]; exact passed_of_lt (by decide))
  rcases hend with ⟨hk, hparse⟩ | ⟨-, err, -, -, hparse⟩
  · rw [hk, List.take_length, hlines] at hnames hlogs
    -- one section
    have hone : names = [[115]] := by
      apply List.perm_singleton.mp
      have hheaders : [[91, 115, 93], [107, 61, 49], [107, 61, 50]].filterMap (headerOf classify) =
          [[115]] := by decide
      rw [hheaders] at hnames
      exact (List.perm_ext_iff_of_nodup hnd (List.nodup_singleton _)).mpr hnames
    subst hone
    have hplace : freed.map Prod.fst = [0] := List.perm_singleton.mp hplaces
    obtain ⟨⟨h, log⟩, rfl, rfl⟩ := List.map_eq_singleton_iff.mp hplace
    obtain ⟨name, hname, hperm⟩ := hlogs _ log List.mem_cons_self
    obtain rfl := Option.some.inj hname
    exact ⟨_, calls, log, hparse, hfree, hperm⟩
  · have hret := congrArg Outcome.ret (hq.unique hparse)
    have hcode := err.code_pos
    simp only at hret
    omega

end Nica
