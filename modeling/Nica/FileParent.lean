import Nica.FileCalls

/-! # The directory of a file

`nc_get_file_parent` of `files.c`.  Its result is a canonical path: the names of a place from the
root, with single slashes between them (`render`).  It shows every process of the tree the same
place, whatever its working directory, and different places have different canonical paths
(`get_file_parent_names`). -/

namespace FileSystem

open PathName Fueled

/-- The names of a place from the root. -/
def render : Place → Chars
  | [] => [47]
  | name :: place => join (render place) name

/-- `realpath(path, NULL)`. -/
def FileTree.realpath (t : FileTree) (path : Chars) : Except Errno Chars := do
  let _ ← t.lstat path
  let place ← t.locate path
  .ok (render place)

theorem render_ne_nil (place : Place) : render place ≠ [] := by
  cases place with
  | nil => exact List.cons_ne_nil _ _
  | cons name place =>
      rw [render, join]
      split_ifs
      · intro h
        rename_i hlast
        rw [(List.append_eq_nil_iff.mp h).1] at hlast
        cases hlast
      · simp

theorem names_render_cons {place : Place} {name : Chars} (hn : IsName name)
    (hlast : (render place).getLast? = some 47 → place = []) :
    names (render (name :: place)) = names (render place) ++ [name] := by
  by_cases hslash : (render place).getLast? = some 47
  · rw [hlast hslash]
    exact names_join hn [] 0 ▸ by rw [slashes_zero, List.append_nil]; rfl
  · exact names_joined hslash hn

theorem render_last {place : Place} (h : ∀ name ∈ place, IsName name)
    (hlast : (render place).getLast? = some 47) : place = [] := by
  cases place with
  | nil => rfl
  | cons name place =>
      exfalso
      rw [render, join] at hlast
      split_ifs at hlast
      · exact getLast?_name (h name List.mem_cons_self) _ hlast
      · rw [List.append_cons] at hlast
        exact getLast?_name (h name List.mem_cons_self) _ hlast

/-- The names of a canonical path are those of its place. -/
theorem names_render {place : Place} (h : ∀ name ∈ place, IsName name) :
    names (render place) = place.reverse := by
  induction place with
  | nil => exact names_slashes 1
  | cons name place ih =>
      obtain ⟨hn, hplace⟩ := List.forall_mem_cons.mp h
      rw [names_render_cons hn (render_last hplace), ih hplace, List.reverse_cons]

theorem absolute_render (place : Place) : (route (render place)).absolute = true := by
  induction place with
  | nil => rfl
  | cons name place ih =>
      have hhead := of_decide_eq_true ih
      apply decide_eq_true
      rw [render, join]
      split_ifs
      · rw [List.head?_append, hhead]
        rfl
      · rw [List.head?_append, hhead]
        rfl

/-- Different places have different canonical paths. -/
theorem render_injective {place place' : Place} (h : ∀ name ∈ place, IsName name)
    (h' : ∀ name ∈ place', IsName name) (heq : render place = render place') : place = place' := by
  apply List.reverse_injective
  rw [← names_render h, ← names_render h', heq]

end FileSystem

namespace Nica

open Fueled FileSystem PathName FileTree

/-- `nc_get_file_parent`; without a result it returns NULL. -/
def ncGetFileParent (path : Chars) (t : FileTree) : Option Chars :=
  match t.realpath (dirname path) with
  | .ok r => some r
  | .error _ => none

section parent
variable {t : FileTree} {path p : Chars} {place : Place}

/-- The names of a place of the tree. -/
theorem proper_of_mem (hplace : t.entry place ≠ none) : ∀ name ∈ place, Proper name := by
  induction place with
  | nil => exact fun name hname => absurd hname List.not_mem_nil
  | cons n place ih =>
      refine List.forall_mem_cons.mpr ⟨t.proper n place hplace, ih ?_⟩
      rw [t.parent n place hplace]
      exact Option.some_ne_none _

theorem isName_of_place (hplace : t.entry place ≠ none) : ∀ name ∈ place, IsName name :=
  fun name hname => (proper_of_mem hplace name hname).1

/-- From the root the names of a directory lead to it. -/
theorem foldlM_render (hdir : t.entry place = some .directory) :
    place.reverse.foldlM t.step [] = .ok place := by
  induction place with
  | nil => rfl
  | cons name place ih =>
      have hplace : t.entry (name :: place) ≠ none := by
        rw [hdir]
        exact Option.some_ne_none _
      obtain ⟨-, hdot, hdots⟩ := t.proper name place hplace
      rw [List.reverse_cons, List.foldlM_append, ih (t.parent name place hplace), ok_bind,
        List.foldlM_cons, t.step_ok_iff.mpr ⟨rfl, ?_⟩]
      · rw [further, if_neg hdot, if_neg hdots]
        rfl
      · rw [further, if_neg hdot, if_neg hdots, hdir]

/-- A name in a directory, there or not. -/
theorem locate_render_cons (hdir : t.entry place = some .directory) {name : Chars}
    (hn : IsName name) (hdot : name ≠ [46]) (hdots : name ≠ [46, 46]) :
    t.locate (render (name :: place)) = .ok (name :: place) := by
  have hplace : t.entry place ≠ none := by
    rw [hdir]
    exact Option.some_ne_none _
  have hall : ∀ n ∈ name :: place, IsName n := List.forall_mem_cons.mpr ⟨hn, isName_of_place hplace⟩
  rw [FileTree.locate, if_neg (render_ne_nil _), names_render hall, absolute_render,
    List.reverse_cons, List.getLast?_concat, List.dropLast_concat]
  change ((place.reverse.foldlM t.step []) >>= fun dir => .ok (further dir name)) = _
  rw [foldlM_render hdir, ok_bind, further, if_neg hdot, if_neg hdots]

theorem locate_render (hplace : t.entry place ≠ none) :
    t.locate (render place) = .ok place := by
  cases place with
  | nil => rfl
  | cons name place =>
      obtain ⟨hn, hdot, hdots⟩ := t.proper name place hplace
      exact locate_render_cons (t.parent name place hplace) hn hdot hdots

theorem lstat_render {e : Entry} (hplace : t.entry place = some e) :
    t.lstat (render place) = .ok e := by
  have hsome : t.entry place ≠ none := by
    rw [hplace]
    exact Option.some_ne_none e
  rw [FileTree.lstat, locate_render hsome, ok_bind, hplace]
  cases e with
  | directory => rfl
  | file content =>
      apply if_neg
      intro hlast
      rw [render_last (isName_of_place hsome) hlast, t.root] at hplace
      cases hplace

theorem ncGetFileParent_ok {e : Entry} (h : t.lstat (dirname path) = .ok e)
    (hlocate : t.locate (dirname path) = .ok place) :
    ncGetFileParent path t = some (render place) := by
  rw [ncGetFileParent, realpath, h, hlocate]
  rfl

theorem ncGetFileParent_error {e : Errno} (h : t.lstat (dirname path) = .error e) :
    ncGetFileParent path t = none := by
  rw [ncGetFileParent, realpath, h]
  rfl

theorem realpath_render (hplace : t.entry place ≠ none) :
    t.realpath (render place) = .ok (render place) := by
  obtain ⟨e, he⟩ := Option.ne_none_iff_exists'.mp hplace
  rw [realpath, lstat_render he, locate_render hplace]
  rfl

theorem ncFileExists_iff : ncFileExists path t = true ↔ ∃ e, t.lstat path = .ok e := by
  rw [ncFileExists]
  cases t.lstat path with
  | error e => simp
  | ok e => simp

/-- The result is the canonical path of the place of the `dirname`. -/
theorem ncGetFileParent_some_iff {r : Chars} : ncGetFileParent path t = some r ↔
    ∃ place e, t.lstat (dirname path) = .ok e ∧ t.locate (dirname path) = .ok place ∧
      t.entry place = some e ∧ r = render place := by
  constructor
  · intro h
    cases hlstat : t.lstat (dirname path) with
    | error e =>
        rw [ncGetFileParent_error hlstat] at h
        cases h
    | ok e =>
        obtain ⟨place, hlocate, hentry, -⟩ := lstat_eq_ok.mp hlstat
        rw [ncGetFileParent_ok hlstat hlocate] at h
        exact ⟨place, e, rfl, hlocate, hentry, (Option.some.inj h).symm⟩
  · rintro ⟨place, e, hlstat, hlocate, -, rfl⟩
    exact ncGetFileParent_ok hlstat hlocate

end parent

/-- There is a parent exactly when the `dirname` of the path exists.  It is an absolute path that is
canonical and shows the same entry whatever the working directory is; two paths have the same parent
exactly when their `dirname`s show the same place; and with a slash and the last name of the path
behind it, it leads where the path does. -/
theorem get_file_parent_names (t : FileTree) (path : Chars) :
    (ncGetFileParent path t ≠ none ↔ ncFileExists (dirname path) t = true) ∧
    ∀ r, ncGetFileParent path t = some r →
      (∀ t' : FileTree, t'.entry = t.entry →
        t'.lstat r = t.lstat (dirname path) ∧ t'.realpath r = .ok r) ∧
      (∀ path', ncGetFileParent path' t = some r ↔ ncFileExists (dirname path') t = true ∧
        t.locate (dirname path') = t.locate (dirname path)) ∧
      ∀ p, EndsIn path p → p ≠ [46] → p ≠ [46, 46] → t.IsDirectory (dirname path) →
        t.locate (join r p) = .ok (t.lexical path) := by
  refine ⟨?_, fun r hr => ?_⟩
  · rw [ncFileExists_iff, Option.ne_none_iff_exists']
    constructor
    · rintro ⟨r, hr⟩
      obtain ⟨place, e, hlstat, -⟩ := ncGetFileParent_some_iff.mp hr
      exact ⟨e, hlstat⟩
    · rintro ⟨e, hlstat⟩
      obtain ⟨place, hlocate, -⟩ := lstat_eq_ok.mp hlstat
      exact ⟨_, ncGetFileParent_ok hlstat hlocate⟩
  obtain ⟨place, e, hlstat, hlocate, hentry, rfl⟩ := ncGetFileParent_some_iff.mp hr
  have hplace : t.entry place ≠ none := by
    rw [hentry]
    exact Option.some_ne_none e
  refine ⟨fun t' ht' => ?_, fun path' => ?_, fun p hend hdot hdots hdir => ?_⟩
  · rw [← ht'] at hentry hplace
    exact ⟨(lstat_render hentry).trans hlstat.symm, realpath_render hplace⟩
  · rw [ncFileExists_iff, hlocate]
    constructor
    · intro hr'
      obtain ⟨place', e', hlstat', hlocate', hentry', heq⟩ := ncGetFileParent_some_iff.mp hr'
      have hplace' : t.entry place' ≠ none := by
        rw [hentry']
        exact Option.some_ne_none e'
      rw [hlocate', render_injective (isName_of_place hplace) (isName_of_place hplace') heq]
      exact ⟨⟨e', hlstat'⟩, rfl⟩
    · rintro ⟨⟨e', hlstat'⟩, hlocate'⟩
      exact ncGetFileParent_ok hlstat' hlocate'
  · obtain ⟨dir, hdir⟩ := hdir
    have hp : IsName p := by
      cases hend with
      | alone n hp => exact hp
      | below r n hp => exact hp
    -- the `dirname` shows the directory in which the path ends
    have hsame : place = dir := by
      rw [locate_directory ⟨dir, hdir⟩, ← (t.resolve_ok hdir).1] at hlocate
      exact (Except.ok.inj hlocate).symm
    rw [t.lexical_next hend, ← (t.resolve_ok hdir).1, further, if_neg hdot, if_neg hdots, ← hsame]
    apply locate_render_cons _ hp hdot hdots
    rw [hsame]
    exact (t.resolve_ok hdir).2

/-- The parent of the file `f` in the root. -/
theorem get_file_parent_names_file : ncGetFileParent [102] treeOfFile = some [47] ∧
    treeOfFile.locate (join [47] [102]) = .ok [[102]] := by
  have hparent : ncGetFileParent [102] treeOfFile = some [47] := by decide
  obtain ⟨-, hall⟩ := get_file_parent_names treeOfFile [102]
  exact ⟨hparent, (hall _ hparent).2.2 [102] (endsIn_single (by decide)) (by decide) (by decide)
    treeOfFile.isDirectory_dot⟩

end Nica
