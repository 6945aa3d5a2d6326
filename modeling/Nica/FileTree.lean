import Nica.PathName
import Mathlib.Logic.Function.Iterate

/-! # A tree of directories and files

* `FileTree` : a finite tree without links, with the working directory of a process.
* `resolve` : the directory that a path leads to, or the error where it ends.
* `mkdir` : the system call; which entries it does not make is a parameter.

A path names a directory exactly when its `dirname` does and a directory stands where the names lead
to (`isDirectory_iff`).  As there are no links, that place can be told from the names alone
(`lexical`). -/

namespace FileSystem

open PathName

/-- The name of an entry, and the names of the directories above it. -/
abbrev Place := List Chars

inductive Entry where
  | file (content : List UInt8)
  | directory
deriving DecidableEq

structure FileTree where
  entry : Place → Option Entry
  root : entry [] = some .directory
  parent : ∀ name place, entry (name :: place) ≠ none → entry place = some .directory
  proper : ∀ name place, entry (name :: place) ≠ none → Proper name
  finite : ∃ places : List Place, ∀ place, entry place ≠ none → place ∈ places
  cwd : Place
  inside : entry cwd = some .directory

/-- The errors of the system calls; `other` is any but the first three. -/
inductive Errno where
  | eexist
  | enoent
  | enotdir
  | other
deriving DecidableEq

/-- One name further. -/
def further (place : Place) (name : Chars) : Place :=
  if name = [46] then place else if name = [46, 46] then place.tail else name :: place

namespace FileTree

/-- The table of a tree gives every entry below the root a name and a directory to be in. -/
def IsTable (table : List (Place × Entry)) : Prop :=
  ∀ x ∈ table, x.1 ≠ [] ∧ (∀ name ∈ x.1.head?, Proper name) ∧
    (x.1.tail = [] ∨ table.lookup x.1.tail = some .directory)

instance (table : List (Place × Entry)) : Decidable (IsTable table) :=
  inferInstanceAs (Decidable (∀ _ ∈ table, _ ∧ _ ∧ _))

/-- The tree of a table; the process works in the root. -/
def ofTable (table : List (Place × Entry)) (h : IsTable table) : FileTree where
  entry place := if place = [] then some .directory else table.lookup place
  root := rfl
  parent name place hplace := by
    rw [if_neg (List.cons_ne_nil _ _)] at hplace
    obtain ⟨e, he⟩ := Option.ne_none_iff_exists'.mp hplace
    obtain ⟨before, after, rfl, -⟩ := List.lookup_eq_some_iff.mp he
    split_ifs with hroot
    · rfl
    · obtain ⟨-, -, hparent⟩ := h (name :: place, e) (by simp)
      exact hparent.resolve_left hroot
  proper name place hplace := by
    rw [if_neg (List.cons_ne_nil _ _)] at hplace
    obtain ⟨e, he⟩ := Option.ne_none_iff_exists'.mp hplace
    obtain ⟨before, after, rfl, -⟩ := List.lookup_eq_some_iff.mp he
    exact (h (name :: place, e) (by simp)).2.1 name rfl
  finite := by
    refine ⟨[] :: table.map Prod.fst, fun place hplace => ?_⟩
    split_ifs at hplace with hroot
    · rw [hroot]
      exact List.mem_cons_self
    · obtain ⟨e, he⟩ := Option.ne_none_iff_exists'.mp hplace
      obtain ⟨before, after, rfl, -⟩ := List.lookup_eq_some_iff.mp he
      simp
  cwd := []
  inside := rfl

variable (t : FileTree)

/-- One directory further. -/
def step (place : Place) (name : Chars) : Except Errno Place :=
  match t.entry (further place name) with
  | none => .error .enoent
  | some (.file _) => .error .enotdir
  | some .directory => .ok (further place name)

def start (r : Route) : Place := if r.absolute then [] else t.cwd

def walk (r : Route) : Except Errno Place := r.names.foldlM t.step (t.start r)

/-- The directory that the path names. -/
def resolve (path : Chars) : Except Errno Place :=
  if path = [] then .error .enoent else t.walk (route path)

/-- The place that the path names if directories stand on the way. -/
def lexical (path : Chars) : Place := (names path).foldl further (t.start (route path))

def IsDirectory (path : Chars) : Prop := ∃ place, t.resolve path = .ok place

def IsFile (path : Chars) : Prop := ∃ content, t.entry (t.lexical path) = some (.file content)

theorem start_directory (r : Route) : t.entry (t.start r) = some .directory := by
  unfold start
  split_ifs
  · exact t.root
  · exact t.inside

theorem step_ok_iff {place place' : Place} {name : Chars} :
    t.step place name = .ok place' ↔
      place' = further place name ∧ t.entry place' = some .directory := by
  constructor
  · intro h
    unfold step at h
    split at h
    · cases h
    · cases h
    · rename_i hdir
      obtain rfl := Except.ok.inj h
      exact ⟨rfl, hdir⟩
  · rintro ⟨rfl, hdir⟩
    rw [step, hdir]

theorem step_error {place : Place} {name : Chars} {e : Errno} (h : t.step place name = .error e) :
    e ≠ .eexist := by
  unfold step at h
  split at h <;> cases h <;> decide

/-- A way over directories ends where the names lead to. -/
theorem foldlM_step {names : List Chars} {place place' : Place}
    (hdir : t.entry place = some .directory) (h : names.foldlM t.step place = .ok place') :
    place' = names.foldl further place ∧ t.entry place' = some .directory := by
  induction names generalizing place with
  | nil =>
      obtain rfl := Except.ok.inj h
      exact ⟨rfl, hdir⟩
  | cons name names ih =>
      rw [List.foldlM_cons] at h
      cases hstep : t.step place name with
      | error e =>
          rw [hstep] at h
          cases h
      | ok next =>
          rw [hstep] at h
          obtain ⟨rfl, hnext⟩ := t.step_ok_iff.mp hstep
          exact ih hnext h

theorem foldlM_error {names : List Chars} {place : Place} {e : Errno}
    (h : names.foldlM t.step place = .error e) : e ≠ .eexist := by
  induction names generalizing place with
  | nil => cases h
  | cons name names ih =>
      rw [List.foldlM_cons] at h
      cases hstep : t.step place name with
      | error e' =>
          rw [hstep] at h
          obtain rfl := Except.error.inj h
          exact t.step_error hstep
      | ok next =>
          rw [hstep] at h
          exact ih h

theorem walk_directory {r : Route} {place : Place} (h : t.walk r = .ok place) :
    t.entry place = some .directory := (t.foldlM_step (t.start_directory r) h).2

/-! ### Directories of paths -/

theorem resolve_ok {path : Chars} {place : Place} (h : t.resolve path = .ok place) :
    place = t.lexical path ∧ t.entry place = some .directory := by
  unfold resolve at h
  split_ifs at h
  exact t.foldlM_step (t.start_directory _) h

theorem resolve_error {path : Chars} {e : Errno} (h : t.resolve path = .error e) : e ≠ .eexist := by
  unfold resolve at h
  split_ifs at h
  · obtain rfl := Except.error.inj h
    decide
  · exact t.foldlM_error h

theorem isDirectory_iff_resolve {path : Chars} :
    t.IsDirectory path ↔ t.resolve path = .ok (t.lexical path) := by
  constructor
  · rintro ⟨place, h⟩
    rwa [(t.resolve_ok h).1] at h
  · intro h
    exact ⟨_, h⟩

theorem IsDirectory.entry {t : FileTree} {path : Chars} (h : t.IsDirectory path) :
    t.entry (t.lexical path) = some .directory :=
  (t.resolve_ok (t.isDirectory_iff_resolve.mp h)).2

theorem IsDirectory.not_isFile {t : FileTree} {path : Chars} (h : t.IsDirectory path) :
    ¬ t.IsFile path := by
  rintro ⟨content, hfile⟩
  rw [h.entry] at hfile
  cases hfile

theorem not_isDirectory_nil : ¬ t.IsDirectory [] := by
  rintro ⟨place, h⟩
  cases h

theorem resolve_slashes (n : ℕ) : t.resolve (slashes (n + 1)) = .ok [] := by
  rw [resolve, if_neg (show slashes (n + 1) ≠ [] from List.cons_ne_nil _ _), route_slashes]
  rfl

theorem isDirectory_slashes (n : ℕ) : t.IsDirectory (slashes (n + 1)) := ⟨[], t.resolve_slashes n⟩

theorem names_dot : names [46] = [[46]] := names_of_isName ⟨by decide, by decide⟩

theorem resolve_dot : t.resolve [46] = .ok t.cwd := by
  have hstep : t.step t.cwd [46] = .ok t.cwd := t.step_ok_iff.mpr ⟨rfl, t.inside⟩
  rw [resolve, if_neg (List.cons_ne_nil _ _), walk, route, names_dot, List.foldlM_cons]
  change (t.step t.cwd [46] >>= fun place => [].foldlM t.step place) = _
  rw [hstep]
  rfl

theorem isDirectory_dot : t.IsDirectory [46] := ⟨t.cwd, t.resolve_dot⟩

theorem lexical_dot : t.lexical [46] = t.cwd := by
  rw [lexical, route, names_dot]
  rfl

/-- The names before the last one lead to the directory of the path. -/
theorem walk_front {path p : Chars} (h : EndsIn path p) :
    t.walk ⟨(route path).absolute, (names path).dropLast⟩ = t.resolve (dirname path) := by
  obtain ⟨front, hnames, hfront⟩ := h.names_eq
  rw [hnames, List.dropLast_concat]
  cases hfront with
  | inl hroute => rw [resolve, if_neg (dirname_ne_nil path), hroute]
  | inr halone =>
      obtain ⟨habs, rfl, hdot⟩ := halone
      rw [habs, hdot, resolve_dot]
      rfl

theorem resolve_next {path p : Chars} (h : EndsIn path p) :
    t.resolve path = t.resolve (dirname path) >>= fun place => t.step place p := by
  obtain ⟨front, hnames, -⟩ := h.names_eq
  have hlast : names path = (names path).dropLast ++ [p] := by rw [hnames, List.dropLast_concat]
  rw [← t.walk_front h, resolve, if_neg h.ne_nil, walk, walk]
  change (names path).foldlM t.step (t.start (route path)) = _
  rw [hlast, List.foldlM_append]
  simp only [List.foldlM_cons, List.foldlM_nil, bind_pure, List.dropLast_concat]
  rfl

theorem lexical_next {path p : Chars} (h : EndsIn path p) :
    t.lexical path = further (t.lexical (dirname path)) p := by
  obtain ⟨front, hnames, hfront⟩ := h.names_eq
  rw [lexical, hnames, List.foldl_append]
  cases hfront with
  | inl hroute =>
      have hdir : names (dirname path) = front := congrArg Route.names hroute
      rw [lexical, hroute, hdir]
      rfl
  | inr halone =>
      obtain ⟨habs, rfl, hdot⟩ := halone
      rw [hdot, lexical_dot, start, habs]
      rfl

/-- A path that ends in a name names a directory when its directory is one and one stands there. -/
theorem isDirectory_next {path p : Chars} (h : EndsIn path p) :
    t.IsDirectory path ↔
      t.IsDirectory (dirname path) ∧ t.entry (t.lexical path) = some .directory := by
  rw [t.isDirectory_iff_resolve, t.isDirectory_iff_resolve, t.resolve_next h, t.lexical_next h]
  constructor
  · intro hok
    cases hdir : t.resolve (dirname path) with
    | error e =>
        rw [hdir] at hok
        cases hok
    | ok place =>
        rw [hdir] at hok
        rw [(t.resolve_ok hdir).1] at hok ⊢
        exact ⟨rfl, (t.step_ok_iff.mp hok).2⟩
  · rintro ⟨hdir, hentry⟩
    rw [hdir]
    exact t.step_ok_iff.mpr ⟨rfl, hentry⟩

theorem isDirectory_iff {path : Chars} (hpath : path ≠ []) :
    t.IsDirectory path ↔
      t.IsDirectory (dirname path) ∧ t.entry (t.lexical path) = some .directory := by
  obtain rfl | ⟨n, rfl⟩ | ⟨p, h⟩ := path_ends path
  · exact absurd rfl hpath
  · have hroot := t.resolve_ok (t.resolve_slashes n)
    have hdir : t.IsDirectory (dirname (slashes (n + 1))) := by
      rw [dirname_slashes]
      split_ifs
      · exact t.isDirectory_slashes 1
      · exact t.isDirectory_slashes 0
    rw [← hroot.1]
    exact ⟨fun _ => ⟨hdir, t.root⟩, fun _ => t.isDirectory_slashes n⟩
  · exact t.isDirectory_next h

/-- With a path all above it are directories. -/
theorem IsDirectory.above {t : FileTree} {path : Chars} (h : t.IsDirectory path) (n : ℕ) :
    t.IsDirectory (dirname^[n] path) := by
  induction n generalizing path with
  | zero => exact h
  | succ n ih =>
      have hpath : path ≠ [] := by
        rintro rfl
        exact t.not_isDirectory_nil h
      exact ih ((t.isDirectory_iff hpath).mp h).1

/-! ### The system call -/

/-- The tree with a new directory, empty as nothing was below it. -/
def add {place : Place} (h : t.entry place = some .directory) {name : Chars} (hname : Proper name) :
    FileTree where
  entry p := if p = name :: place then some .directory else t.entry p
  root := by
    rw [if_neg (List.cons_ne_nil _ _).symm]
    exact t.root
  parent n p hp := by
    have hold : t.entry p = some .directory := by
      split_ifs at hp with heq
      · obtain ⟨rfl, rfl⟩ := List.cons.inj heq
        exact h
      · exact t.parent n p hp
    rw [hold]
    exact ite_self _
  proper n p hp := by
    split_ifs at hp with heq
    · obtain ⟨rfl, rfl⟩ := List.cons.inj heq
      exact hname
    · exact t.proper n p hp
  finite := by
    obtain ⟨places, hplaces⟩ := t.finite
    refine ⟨(name :: place) :: places, ?_⟩
    intro p hp
    by_cases heq : p = name :: place
    · rw [heq]
      exact List.mem_cons_self
    · rw [if_neg heq] at hp
      exact List.mem_cons_of_mem _ (hplaces p hp)
  cwd := t.cwd
  inside := by
    rw [t.inside]
    exact ite_self _

/-- A name that has no entry in a directory is a name of its own. -/
theorem further_missing {place : Place} {name : Chars} (hdir : t.entry place = some .directory)
    (hnone : t.entry (further place name) = none) :
    further place name = name :: place ∧ name ≠ [46] ∧ name ≠ [46, 46] := by
  unfold further at hnone ⊢
  split_ifs at hnone ⊢ with hdot hdots
  · rw [hdir] at hnone
    cases hnone
  · cases place with
    | nil =>
        rw [List.tail_nil, t.root] at hnone
        cases hnone
    | cons n place =>
        have hparent := t.parent n place (by rw [hdir]; exact Option.some_ne_none _)
        rw [List.tail_cons, hparent] at hnone
        cases hnone
  · exact ⟨rfl, hdot, hdots⟩

theorem proper_missing {r : Route} {place : Place} {path name : Chars} (h : t.walk r = .ok place)
    (hname : (names path).getLast? = some name)
    (hnone : ¬ (t.entry (further place name)).isSome = true) : Proper name :=
  ⟨isName_of_mem (List.mem_of_getLast? hname),
    (t.further_missing (t.walk_directory h) (Option.not_isSome_iff_eq_none.mp hnone)).2⟩

/-- `mkdir(path, mode)`; where `refuses` holds it fails for a reason of its own. -/
def mkdir (refuses : Place → Bool) (path : Chars) : Except Errno FileTree :=
  if path = [] then .error .enoent
  else
    match hname : (names path).getLast? with
    -- the root
    | none => .error .eexist
    | some name =>
        match h : t.walk ⟨(route path).absolute, (names path).dropLast⟩ with
        | .error e => .error e
        | .ok place =>
            if hthere : (t.entry (further place name)).isSome then .error .eexist
            else if refuses (further place name) then .error .other
            else .ok (t.add (t.walk_directory h) (t.proper_missing h hname hthere))

theorem mkdir_nil (refuses : Place → Bool) : t.mkdir refuses [] = .error .enoent := rfl

theorem mkdir_slashes (refuses : Place → Bool) (n : ℕ) :
    t.mkdir refuses (slashes (n + 1)) = .error .eexist := by
  rw [mkdir, if_neg (show slashes (n + 1) ≠ [] from List.cons_ne_nil _ _)]
  split
  · rfl
  · rename_i hlast
    rw [names_slashes] at hlast
    cases hlast

/-- What `mkdir` does with a path that ends in a name. -/
theorem mkdir_cases {path p : Chars} (h : EndsIn path p) (refuses : Place → Bool) :
    (∃ e, t.mkdir refuses path = .error e ∧ e ≠ .eexist ∧ ¬ t.IsDirectory (dirname path)) ∨
    t.IsDirectory (dirname path) ∧
      ((t.mkdir refuses path = .error .eexist ∧ t.entry (t.lexical path) ≠ none) ∨
      (t.mkdir refuses path = .error .other ∧ t.entry (t.lexical path) = none ∧
        refuses (t.lexical path) = true) ∨
      ∃ t' : FileTree, t.mkdir refuses path = .ok t' ∧ t.entry (t.lexical path) = none ∧
        refuses (t.lexical path) = false ∧ t'.cwd = t.cwd ∧
        ∀ q, t'.entry q = if q = t.lexical path then some .directory else t.entry q) := by
  obtain ⟨front, hnames, -⟩ := h.names_eq
  have hlast : (names path).getLast? = some p := by rw [hnames, List.getLast?_concat]
  rw [mkdir, if_neg h.ne_nil, t.lexical_next h]
  split
  · rename_i hnone
    rw [hnone] at hlast
    cases hlast
  · rename_i name hname
    rw [hname] at hlast
    obtain rfl := Option.some.inj hlast
    split
    · rename_i e hwalk
      rw [t.walk_front h] at hwalk
      left
      refine ⟨e, rfl, t.resolve_error hwalk, ?_⟩
      rintro ⟨place, hplace⟩
      rw [hwalk] at hplace
      cases hplace
    · rename_i place hwalk
      have hdir := t.walk_directory hwalk
      have hfront := hwalk
      rw [t.walk_front h] at hfront
      rw [← (t.resolve_ok hfront).1]
      right
      refine ⟨⟨place, hfront⟩, ?_⟩
      split_ifs with hentry hrefuses
      · exact .inl ⟨rfl, Option.isSome_iff_ne_none.mp hentry⟩
      · have hnone := Option.not_isSome_iff_eq_none.mp hentry
        exact .inr (.inl ⟨rfl, hnone, hrefuses⟩)
      · have hnone := Option.not_isSome_iff_eq_none.mp hentry
        refine .inr (.inr ⟨_, rfl, hnone, Bool.eq_false_iff.mpr hrefuses, rfl, fun q => ?_⟩)
        rw [(t.further_missing hdir hnone).1]
        rfl

/-! ### Growing trees -/

/-- Nothing that was there has changed. -/
structure Keeps (t t' : FileTree) : Prop where
  cwd : t'.cwd = t.cwd
  kept : ∀ place e, t.entry place = some e → t'.entry place = some e

/-- Besides, what is new are directories that prefixes of the path name. -/
structure Grows (path : Chars) (t t' : FileTree) : Prop extends Keeps t t' where
  fresh : ∀ place, t.entry place = none → t'.entry place ≠ none →
    t'.entry place = some .directory ∧ ∃ q, q <+: path ∧ t'.resolve q = .ok place

section grows
variable {path : Chars} {t t' t'' : FileTree}

theorem Keeps.lexical (K : Keeps t t') (q : Chars) : t'.lexical q = t.lexical q := by
  unfold FileTree.lexical start
  rw [K.cwd]

theorem Keeps.foldlM (K : Keeps t t') {names : List Chars} {place place' : Place}
    (h : names.foldlM t.step place = .ok place') : names.foldlM t'.step place = .ok place' := by
  induction names generalizing place with
  | nil => exact h
  | cons name names ih =>
      rw [List.foldlM_cons] at h ⊢
      cases hstep : t.step place name with
      | error e =>
          rw [hstep] at h
          cases h
      | ok next =>
          rw [hstep] at h
          obtain ⟨rfl, hdir⟩ := t.step_ok_iff.mp hstep
          rw [t'.step_ok_iff.mpr ⟨rfl, K.kept _ _ hdir⟩]
          exact ih h

theorem Keeps.resolve (K : Keeps t t') {q : Chars} {place : Place}
    (h : t.resolve q = .ok place) : t'.resolve q = .ok place := by
  unfold FileTree.resolve at h ⊢
  split_ifs at h ⊢
  unfold walk start at h ⊢
  rw [K.cwd]
  exact K.foldlM h

theorem Keeps.isDirectory (K : Keeps t t') {q : Chars} (h : t.IsDirectory q) :
    t'.IsDirectory q := by
  obtain ⟨place, hplace⟩ := h
  exact ⟨place, K.resolve hplace⟩

theorem Keeps.isFile (K : Keeps t t') {q : Chars} (h : t.IsFile q) : t'.IsFile q := by
  obtain ⟨content, hfile⟩ := h
  refine ⟨content, ?_⟩
  rw [K.lexical]
  exact K.kept _ _ hfile

theorem Keeps.entry_ne_none (K : Keeps t t') {place : Place} (h : t.entry place ≠ none) :
    t'.entry place ≠ none := by
  obtain ⟨e, he⟩ := Option.ne_none_iff_exists'.mp h
  rw [K.kept _ _ he]
  exact Option.some_ne_none e

theorem Grows.refl (path : Chars) (t : FileTree) : Grows path t t :=
  ⟨⟨rfl, fun _ _ h => h⟩, fun _ hnone hsome => absurd hnone hsome⟩

/-- No file is new. -/
theorem Grows.isFile (G : Grows path t t') {q : Chars} (h : t'.IsFile q) : t.IsFile q := by
  obtain ⟨content, hfile⟩ := h
  rw [G.lexical] at hfile
  refine ⟨content, ?_⟩
  cases hold : t.entry (t.lexical q) with
  | none =>
      obtain ⟨hdir, -⟩ := G.fresh _ hold (by rw [hfile]; exact Option.some_ne_none _)
      rw [hfile] at hdir
      cases hdir
  | some e =>
      rw [G.kept _ _ hold] at hfile
      exact hfile

theorem Grows.trans (G : Grows path t t') (H : Grows path t' t'') : Grows path t t'' := by
  refine ⟨⟨H.cwd.trans G.cwd, fun place e h => H.kept _ _ (G.kept _ _ h)⟩, ?_⟩
  intro place hnone hsome
  by_cases hmid : t'.entry place = none
  · exact H.fresh place hmid hsome
  · obtain ⟨hdir, q, hq, hplace⟩ := G.fresh place hnone hmid
    exact ⟨H.kept _ _ hdir, q, hq, H.resolve hplace⟩

/-- What grows along the directory of a path grows along the path. -/
theorem Grows.of_dirname {p : Chars} (h : EndsIn path p) (G : Grows (dirname path) t t') :
    Grows path t t' := by
  refine ⟨G.toKeeps, ?_⟩
  intro place hnone hsome
  obtain ⟨hdir, q, hq, hplace⟩ := G.fresh place hnone hsome
  refine ⟨hdir, q, ?_, hplace⟩
  cases h.dirname_prefix with
  | inl hdot =>
      -- the current directory is not new
      exfalso
      have hq' : q = [] ∨ q = [46] := by
        rw [hdot] at hq
        cases q with
        | nil => exact .inl rfl
        | cons c q =>
            obtain ⟨rfl, htail⟩ := List.cons_prefix_cons.mp hq
            rw [List.prefix_nil.mp htail]
            exact .inr rfl
      cases hq' with
      | inl hq =>
          subst hq
          cases hplace
      | inr hq =>
          subst hq
          rw [resolve_dot, G.cwd] at hplace
          rw [← Except.ok.inj hplace, t.inside] at hnone
          cases hnone
  | inr hprefix => exact hq.trans hprefix

/-- A new directory at the end of the path. -/
theorem Grows.added {p : Chars} (h : EndsIn path p) (hdir : t.IsDirectory (dirname path))
    (hnone : t.entry (t.lexical path) = none) (hcwd : t'.cwd = t.cwd)
    (hentry : ∀ q, t'.entry q = if q = t.lexical path then some .directory else t.entry q) :
    Grows path t t' ∧ t'.IsDirectory path := by
  have hkeeps : Keeps t t' := by
    refine ⟨hcwd, fun place e he => ?_⟩
    rw [hentry, if_neg, he]
    rintro rfl
    rw [hnone] at he
    cases he
  have hnew : t'.entry (t.lexical path) = some .directory := by rw [hentry, if_pos rfl]
  have hpath : t'.IsDirectory path := by
    apply (t'.isDirectory_next h).mpr
    rw [hkeeps.lexical]
    exact ⟨hkeeps.isDirectory hdir, hnew⟩
  refine ⟨⟨hkeeps, fun place hmissing hsome => ?_⟩, hpath⟩
  have hplace : place = t.lexical path := by
    by_contra hne
    rw [hentry, if_neg hne] at hsome
    exact hsome hmissing
  rw [hplace]
  refine ⟨hnew, path, List.prefix_rfl, ?_⟩
  rw [t'.isDirectory_iff_resolve.mp hpath, hkeeps.lexical]

end grows

end FileTree

end FileSystem
