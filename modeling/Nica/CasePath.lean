import Nica.NcString
import Nica.PathName

/-! # Paths on a case-preserving file system

`nc_build_case_correct_path_va` joins components by slashes and gives each the spelling that its
directory has.  Strings are lists of characters without their NUL, the file system is a table from
routes to directories, and every allocation succeeds; `asprintf` still fails when the length of its
result is no `int`.

Every component behind the first gets the name of an entry that equals it up to case, or stays as it
is when there is none (`buildLoop_next`).  But when the first one has such an entry, `root` is set to
NULL and the component is lost, so the path is right exactly when it has none
(`build_right_iff`). -/

namespace Nica

open PathName

/-- An entry of a directory, as `readdir` returns it. -/
structure Dirent where
  dName : Chars
  isName : IsName dName

/-- What `stat` and `opendir` find; `unreadable` is a directory that cannot be opened. -/
inductive FileKind where
  | file
  | unreadable
  | directory (entries : List Dirent)

abbrev FileTable := Route → Option FileKind

def toLower (c : UInt8) : UInt8 := if 65 ≤ c ∧ c ≤ 90 then c + 32 else c

/-- `strcasecmp(a, b) == 0`. -/
def strcaseeq (a b : Chars) : Bool := a.map toLower = b.map toLower

/-- The test for entries that the search passes over. -/
def skipped (dName : Chars) : Bool := dName.take 1 = [46] || dName.take 2 = [46, 46]

def readdirLoop (p : Chars) : List Dirent → Option Chars
  | [] => none
  | ent :: entries =>
      if skipped ent.dName then readdirLoop p entries
      else if strcaseeq ent.dName p then some ent.dName
      else readdirLoop p entries

/-- The search for `p` in `dir`, from `stat` on. -/
def findEntry (files : FileTable) (dir p : Chars) : Option Chars :=
  match files (route dir) with
  | none => none
  | some .file => none
  | some .unreadable => none
  | some (.directory entries) => readdirLoop p entries

/-- `asprintf(&t, "%s/%s", a, b)`; NULL for a negative result. -/
def joinPath (a b : Chars) : Option Chars :=
  if (asprintf true (a ++ 47 :: b)).2 < 0 then none else some (a ++ 47 :: b)

/-- The loop over the components, with `root`. -/
def buildLoop (files : FileTable) : Option Chars → List Chars → Option Chars
  | root, [] => root
  | none, p :: ps =>
      match findEntry files (dirname p) p with
      | none => buildLoop files (some p) ps
      -- there is no `sav`: `root` is freed and stays NULL
      | some _ => buildLoop files none ps
  | some sav, p :: ps =>
      match joinPath sav p with
      | none => none
      | some root =>
          match findEntry files (dirname root) p with
          | none => buildLoop files (some root) ps
          | some dName =>
              match joinPath sav dName with
              | none => none
              | some root => buildLoop files (some root) ps

def ncBuildCaseCorrectPathVa (files : FileTable) (c : Option Chars) (ap : List Chars) : Option Chars :=
  match c with
  | none => none
  | some c => buildLoop files none (c :: ap)

/-! ### What the path has to be -/

/-- The directory has an entry `name` that does not start with a dot and equals `p` up to case. -/
def Matching (files : FileTable) (dir : Route) (p name : Chars) : Prop :=
  ∃ entries ent, files dir = some (.directory entries) ∧ ent ∈ entries ∧ ent.dName = name ∧
    name.head? ≠ some 46 ∧ name.map toLower = p.map toLower

/-- `p'` is what stands for the component `p` in a directory: it equals it up to case, and it is the
name of an entry if an entry matches, else `p` itself. -/
structure Component (files : FileTable) (dir : Route) (p p' : Chars) : Prop where
  same : p'.map toLower = p.map toLower
  chosen : Matching files dir p p' ∨ (p' = p ∧ ∀ name, ¬ Matching files dir p name)

/-- `path` is `built` with components behind it that stand for `ps`, each in the directory built so
far. -/
inductive CaseCorrect (files : FileTable) : Chars → List Chars → Chars → Prop
  | done {built : Chars} : CaseCorrect files built [] built
  | next {built p p' path : Chars} {ps : List Chars} :
      Component files (route (built ++ [47])) p p' → CaseCorrect files (built ++ 47 :: p') ps path →
      CaseCorrect files built (p :: ps) path

/-- The call returns a path with a component for `c`, which is looked up in the current directory,
and one for each of `ps`. -/
def BuildsRight (files : FileTable) (c : Chars) (ps : List Chars) : Prop :=
  ∃ c' path, ncBuildCaseCorrectPathVa files (some c) ps = some path ∧
    Component files (route [46]) c c' ∧ CaseCorrect files c' ps path

/-- The length of the components joined by slashes. -/
def joinedLength (c : Chars) (ps : List Chars) : ℕ := c.length + (ps.map fun p => p.length + 1).sum

/-! ### The search -/

theorem skipped_iff {dName : Chars} : skipped dName = true ↔ dName.head? = some 46 := by
  cases dName with
  | nil => simp [skipped]
  | cons c t =>
      simp only [skipped, List.take_succ_cons, List.take_zero, List.head?_cons, Bool.or_eq_true,
        decide_eq_true_eq, List.cons.injEq, and_true, Option.some.injEq, or_iff_left_iff_imp]
      exact fun h => h.1

theorem readdirLoop_some {p name : Chars} {entries : List Dirent}
    (h : readdirLoop p entries = some name) :
    ∃ ent ∈ entries, ent.dName = name ∧ name.head? ≠ some 46 ∧ name.map toLower = p.map toLower := by
  induction entries with
  | nil => cases h
  | cons ent entries ih =>
      rw [readdirLoop] at h
      split_ifs at h with hskip hcase
      · obtain ⟨e, he, hrest⟩ := ih h
        exact ⟨e, List.mem_cons_of_mem _ he, hrest⟩
      · obtain rfl := Option.some.inj h
        exact ⟨ent, List.mem_cons_self, rfl, skipped_iff.not.mp hskip, of_decide_eq_true hcase⟩
      · obtain ⟨e, he, hrest⟩ := ih h
        exact ⟨e, List.mem_cons_of_mem _ he, hrest⟩

theorem readdirLoop_none {p : Chars} {entries : List Dirent} (h : readdirLoop p entries = none) :
    ∀ ent ∈ entries, ent.dName.head? ≠ some 46 → ent.dName.map toLower ≠ p.map toLower := by
  induction entries with
  | nil => simp
  | cons ent entries ih =>
      rw [readdirLoop] at h
      intro e he
      split_ifs at h with hskip hcase
      · cases List.mem_cons.mp he with
        | inl heq =>
            rw [heq]
            intro hdot
            exact absurd (skipped_iff.mp hskip) hdot
        | inr he => exact ih h e he
      · cases List.mem_cons.mp he with
        | inl heq =>
            rw [heq]
            intro _ hsame
            exact hcase (decide_eq_true hsame)
        | inr he => exact ih h e he

theorem findEntry_some {files : FileTable} {dir p name : Chars}
    (h : findEntry files dir p = some name) : Matching files (route dir) p name := by
  unfold findEntry at h
  split at h
  · cases h
  · cases h
  · cases h
  · rename_i entries hfiles
    obtain ⟨ent, hent, hrest⟩ := readdirLoop_some h
    exact ⟨entries, ent, hfiles, hent, hrest⟩

theorem findEntry_none {files : FileTable} {dir p : Chars} (h : findEntry files dir p = none)
    (name : Chars) : ¬ Matching files (route dir) p name := by
  rintro ⟨entries, ent, hfiles, hent, rfl, hdot, hsame⟩
  unfold findEntry at h
  rw [hfiles] at h
  exact readdirLoop_none h ent hent hdot hsame

theorem toLower_eq_slash {c : UInt8} (h : toLower c = 47) : c = 47 := by
  unfold toLower at h
  split_ifs at h with hc
  · -- a capital becomes a letter
    have hlow := UInt8.le_iff_toNat_le.mp hc.1
    have hhigh := UInt8.le_iff_toNat_le.mp hc.2
    have hsum := congrArg UInt8.toNat h
    rw [UInt8.toNat_add] at hsum
    change (65 : ℕ) ≤ c.toNat at hlow
    change c.toNat ≤ 90 at hhigh
    change (c.toNat + 32) % 256 = 47 at hsum
    omega
  · exact h

theorem Matching.isName {files : FileTable} {dir : Route} {p name : Chars}
    (h : Matching files dir p name) : IsName p := by
  obtain ⟨entries, ent, -, -, rfl, -, hsame⟩ := h
  constructor
  · rintro rfl
    exact ent.isName.ne_nil (List.map_eq_nil_iff.mp hsame)
  · intro hslash
    have hmem : (47 : UInt8) ∈ ent.dName.map toLower := by
      rw [hsame]
      exact List.mem_map.mpr ⟨47, hslash, rfl⟩
    obtain ⟨d, hd, hd47⟩ := List.mem_map.mp hmem
    rw [toLower_eq_slash hd47] at hd
    exact ent.isName.plain hd

theorem Component.length_eq {files : FileTable} {dir : Route} {p p' : Chars}
    (h : Component files dir p p') : p'.length = p.length := by
  have hlen := congrArg List.length h.same
  rwa [List.length_map, List.length_map] at hlen

/-- The search gives what stands for the component. -/
theorem component_findEntry (files : FileTable) {d p : Chars} {dir : Route}
    (hdir : IsName p → route d = dir) : Component files dir p ((findEntry files d p).getD p) := by
  cases h : findEntry files d p with
  | some name =>
      have hm := findEntry_some h
      rw [hdir hm.isName] at hm
      obtain ⟨entries, ent, hrest⟩ := id hm
      exact ⟨hrest.2.2.2.2, .inl hm⟩
  | none =>
      refine ⟨rfl, .inr ⟨rfl, fun name hm => findEntry_none h name ?_⟩⟩
      rwa [hdir hm.isName]

/-- The directory of a joined path is the one that was built before. -/
theorem route_dirname_next {p : Chars} (hp : IsName p) (built : Chars) :
    route (dirname (built ++ 47 :: p)) = route (built ++ [47]) := by
  have h := route_dirname hp built 0
  rw [slashes_zero, List.append_nil] at h
  have hnames : names (built ++ [47]) = names built := by
    rw [names_append_slash, names_nil, List.append_nil]
  have hhead : (built ++ [47]).head? = (built ++ 47 :: p).head? := by
    cases built with
    | nil => rfl
    | cons c t => rfl
  rw [h, route, hnames, hhead]

theorem route_dirname_first {p : Chars} (hp : IsName p) : route (dirname p) = route [46] := by
  have h := dirname_name hp 0
  rw [slashes_zero, List.append_nil] at h
  rw [h]

/-! ### The loop -/

theorem joinPath_eq (a b : Chars) :
    joinPath a b = if (a ++ 47 :: b).length ≤ intMax then some (a ++ 47 :: b) else none := by
  unfold joinPath
  by_cases h : (a ++ 47 :: b).length ≤ intMax
  · rw [if_pos h, asprintf_granted h]
    apply if_neg
    simp only
    omega
  · rw [if_neg h]
    apply if_pos
    simp only [asprintf, Bool.true_and, decide_eq_true_eq, if_neg h]
    decide

/-- A round with a path built: the component gets its spelling, if the path does not become too
long. -/
theorem buildLoop_next (files : FileTable) (built p : Chars) (ps : List Chars) :
    ∃ p', Component files (route (built ++ [47])) p p' ∧
      buildLoop files (some built) (p :: ps) =
        if (built ++ 47 :: p).length ≤ intMax then buildLoop files (some (built ++ 47 :: p')) ps
        else none := by
  have hcomp := component_findEntry files fun hp : IsName p => route_dirname_next hp built
  refine ⟨_, hcomp, ?_⟩
  rw [buildLoop, joinPath_eq]
  by_cases hlen : (built ++ 47 :: p).length ≤ intMax
  · rw [if_pos hlen, if_pos hlen]
    have hsame := hcomp.length_eq
    cases h : findEntry files (dirname (built ++ 47 :: p)) p with
    | none => simp only [h, Option.getD_none]
    | some name =>
        rw [h, Option.getD_some] at hsame
        have hlen' : (built ++ 47 :: name).length ≤ intMax := by
          rw [List.length_append, List.length_cons] at hlen ⊢
          omega
        simp only [h, joinPath_eq, if_pos hlen', Option.getD_some]
  · rw [if_neg hlen, if_neg hlen]

theorem CaseCorrect.length_eq {files : FileTable} {built path : Chars} {ps : List Chars}
    (h : CaseCorrect files built ps path) : path.length = joinedLength built ps := by
  induction h with
  | done => simp [joinedLength]
  | next hp _ ih =>
      rw [ih]
      simp only [joinedLength, List.length_append, List.length_cons, List.map_cons, List.sum_cons,
        hp.length_eq]
      omega

theorem joinedLength_cons {p p' : Chars} (hp : p'.length = p.length) (built : Chars)
    (ps : List Chars) : joinedLength built (p :: ps) = joinedLength (built ++ 47 :: p') ps := by
  simp only [joinedLength, List.length_append, List.length_cons, List.map_cons, List.sum_cons, hp]
  omega

/-- With a path built the loop spells every component right. -/
theorem buildLoop_correct {files : FileTable} {ps : List Chars} {built path : Chars}
    (h : buildLoop files (some built) ps = some path) : CaseCorrect files built ps path := by
  induction ps generalizing built with
  | nil =>
      obtain rfl := Option.some.inj h
      exact .done
  | cons p ps ih =>
      obtain ⟨p', hp, hnext⟩ := buildLoop_next files built p ps
      rw [hnext] at h
      split_ifs at h with hlen
      exact .next hp (ih h)

/-- With a path built the loop fails only for a path that is too long. -/
theorem buildLoop_some_iff {files : FileTable} {ps : List Chars} {built : Chars} :
    (∃ path, buildLoop files (some built) ps = some path) ↔
      ps = [] ∨ joinedLength built ps ≤ intMax := by
  induction ps generalizing built with
  | nil =>
      constructor
      · intro _
        exact .inl rfl
      · intro _
        exact ⟨built, rfl⟩
  | cons p ps ih =>
      obtain ⟨p', hp, hnext⟩ := buildLoop_next files built p ps
      have hsum := joinedLength_cons hp.length_eq built ps
      have hlen : (built ++ 47 :: p').length = (built ++ 47 :: p).length := by
        rw [List.length_append, List.length_append, List.length_cons, List.length_cons, hp.length_eq]
      rw [hnext, hsum]
      simp only [List.cons_ne_nil, false_or]
      split_ifs with hle
      · rw [ih]
        constructor
        · intro h
          cases h with
          | inl hnil =>
              subst hnil
              simp only [joinedLength, List.map_nil, List.sum_nil]
              omega
          | inr h => exact h
        · exact .inr
      · constructor
        · rintro ⟨path, h⟩
          cases h
        · intro h
          unfold joinedLength at h
          omega

/-- Without a path built the components in front are lost until one has no entry. -/
theorem buildLoop_drops {files : FileTable} {ps : List Chars} {path : Chars}
    (h : buildLoop files none ps = some path) :
    path.length < (ps.map fun p => p.length + 1).sum := by
  induction ps with
  | nil => cases h
  | cons p ps ih =>
      rw [List.map_cons, List.sum_cons]
      rw [buildLoop] at h
      split at h
      · have hlen := (buildLoop_correct h).length_eq
        unfold joinedLength at hlen
        omega
      · have := ih h
        omega

theorem matching_findEntry {files : FileTable} {p : Chars}
    (h : ∀ name, ¬ Matching files (route [46]) p name) : findEntry files (dirname p) p = none := by
  cases hfind : findEntry files (dirname p) p with
  | none => rfl
  | some name =>
      have hm := findEntry_some hfind
      rw [route_dirname_first hm.isName] at hm
      exact absurd hm (h name)

/-- The path is right exactly when the first component has no entry in the current directory, and
the path is short enough to be printed. -/
theorem build_right_iff (files : FileTable) (c : Chars) (ps : List Chars) :
    BuildsRight files c ps ↔ (∀ name, ¬ Matching files (route [46]) c name) ∧
      (ps = [] ∨ joinedLength c ps ≤ intMax) := by
  constructor
  · rintro ⟨c', path, hbuild, hc, hps⟩
    rw [ncBuildCaseCorrectPathVa, buildLoop] at hbuild
    split at hbuild
    · rename_i hfind
      refine ⟨fun name hm => findEntry_none hfind name ?_, buildLoop_some_iff.mp ⟨path, hbuild⟩⟩
      rwa [route_dirname_first hm.isName]
    · -- a lost component makes the path too short
      have hlost := buildLoop_drops hbuild
      have hlen := hps.length_eq
      unfold joinedLength at hlen
      omega
  · rintro ⟨hfirst, hlen⟩
    obtain ⟨path, hpath⟩ := buildLoop_some_iff.mpr hlen
    refine ⟨c, path, ?_, ⟨rfl, .inr ⟨rfl, hfirst⟩⟩, buildLoop_correct hpath⟩
    rw [ncBuildCaseCorrectPathVa, buildLoop, matching_findEntry hfirst]
    exact hpath

/-- A table in which `BOOT` is in the current directory. -/
def bootTable : FileTable := fun dir =>
  if dir = ⟨false, [[46]]⟩ then some (.directory [⟨[66, 79, 79, 84], by decide, by decide⟩])
  else none

/-- There `boot` alone gives NULL, and of `boot` and `EFI` only the second is left. -/
theorem build_loses_first :
    ncBuildCaseCorrectPathVa bootTable (some [98, 111, 111, 116]) [] = none ∧
    ncBuildCaseCorrectPathVa bootTable (some [98, 111, 111, 116]) [[69, 70, 73]] =
      some [69, 70, 73] ∧
    ¬ BuildsRight bootTable [98, 111, 111, 116] [] ∧
    ¬ BuildsRight bootTable [98, 111, 111, 116] [[69, 70, 73]] := by
  have hnull : ncBuildCaseCorrectPathVa bootTable (some [98, 111, 111, 116]) [] = none := by decide
  have hpath : ncBuildCaseCorrectPathVa bootTable (some [98, 111, 111, 116]) [[69, 70, 73]] =
      some [69, 70, 73] := by decide
  refine ⟨hnull, hpath, ?_, ?_⟩
  · rintro ⟨c', path, hbuild, -, -⟩
    rw [hnull] at hbuild
    cases hbuild
  · rintro ⟨c', path, hbuild, -, hps⟩
    rw [hpath] at hbuild
    obtain rfl := Option.some.inj hbuild
    have hlen : 3 = c'.length + 4 := hps.length_eq
    omega

end Nica
