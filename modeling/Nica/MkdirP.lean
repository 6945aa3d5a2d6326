import Nica.Pointers
import Nica.Fuel
import Nica.FileTree

/-! # Making a directory and those above it

`nc_mkdir_p` of `files.c`, on a tree of directories and files; `strdup` succeeds, and which
directories the system refuses to make, for another reason than the three errors of a path, is a
parameter.

The function calls itself for the `dirname` of the path and ends for every path, since that is a
shorter path, or `.` or made of slashes (`dirname_induction`).  It returns true when every directory
above the path is there or can be made, and at the path something is there or can be made
(`MkdirRun.made_iff`).  A regular file is enough for `EEXIST`, which counts as success, so what it
promises holds unless it comes to a file at the end of the path (`mkdir_p_right_iff`). -/

namespace Nica

open Fueled FileSystem PathName

structure Process where
  tree : FileTree
  errno : Errno

/-- `mkdir(path, mode)`, which returns 0 or -1. -/
def Process.mkdir (refuses : Place → Bool) (path : Chars) (s : Process) : ℤ × Process :=
  match s.tree.mkdir refuses path with
  | .ok tree => (0, { s with tree := tree })
  | .error e => (-1, { s with errno := e })

/-- The paths for which there is nothing to make. -/
abbrev StopPath (path : Chars) : Prop := path = [46] ∨ path = [47] ∨ path = [47, 47]

def ncMkdirP (refuses : Place → Bool) : ℕ → Chars → Process → Except Fault (Bool × Process)
  | 0, _, _ => .error .timeout
  | fuel + 1, path, s =>
      if StopPath path then .ok (true, s)
      else do
        let (made, s) ← ncMkdirP refuses fuel (dirname path) s
        if !made && s.errno ≠ .eexist then .ok (false, s)
        else
          let (ret, s) := s.mkdir refuses path
          .ok (!(ret < 0 && s.errno ≠ .eexist), s)

/-- `mkdir` does not fail for a reason of its own. -/
def Passes (refuses : Place → Bool) (t : FileTree) (path : Chars) : Prop :=
  t.entry (t.lexical path) = none → refuses (t.lexical path) = false

structure Makeable (refuses : Place → Bool) (t : FileTree) (path : Chars) : Prop where
  passes : Passes refuses t path
  not_file : ¬ t.IsFile path

/-- The call ends; when it returns true the path and all above it are directories; and besides new
directories along the path nothing has changed. -/
def MakesDirectories (refuses : Place → Bool) (path : Chars) (s : Process) : Prop :=
  ∃ made s', Returns (fun fuel => ncMkdirP refuses fuel path s) (made, s') ∧
    (made = true → ∀ n, s'.tree.IsDirectory (dirname^[n] path)) ∧
    FileTree.Grows path s.tree s'.tree

/-! ### One call -/

section call
variable {refuses : Place → Bool} {path : Chars} {s s' : Process}

theorem ncMkdirP_stop (refuses : Place → Bool) (h : StopPath path) (s : Process) :
    Returns (fun fuel => ncMkdirP refuses fuel path s) (true, s) := by
  apply (Returns.pure (true, s)).succ
  intro n
  exact if_pos h

theorem ncMkdirP_next (h : ¬ StopPath path) {made : Bool}
    (hrec : Returns (fun fuel => ncMkdirP refuses fuel (dirname path) s) (made, s')) :
    Returns (fun fuel => ncMkdirP refuses fuel path s)
      (if !made && s'.errno ≠ .eexist then (false, s')
        else (!((s'.mkdir refuses path).1 < 0 && (s'.mkdir refuses path).2.errno ≠ .eexist),
          (s'.mkdir refuses path).2)) := by
  obtain ⟨N, hN⟩ := returns_iff.mp hrec
  refine returns_iff.mpr ⟨N + 1, fun n hn => ?_⟩
  obtain ⟨m, rfl⟩ : ∃ m, n = m + 1 := ⟨n - 1, by omega⟩
  rw [ncMkdirP, if_neg h, hN m (by omega), ok_bind]
  by_cases hfailed : (!made && decide (s'.errno ≠ .eexist)) = true
  · rw [if_pos hfailed]
    exact if_pos hfailed
  · rw [if_neg hfailed]
    exact if_neg hfailed

theorem ncMkdirP_failed (h : ¬ StopPath path)
    (hrec : Returns (fun fuel => ncMkdirP refuses fuel (dirname path) s) (false, s'))
    (herrno : s'.errno ≠ .eexist) :
    Returns (fun fuel => ncMkdirP refuses fuel path s) (false, s') := by
  have hnext := ncMkdirP_next h hrec
  rwa [if_pos (by simp [herrno])] at hnext

/-- `EEXIST` is the only error that counts as success. -/
theorem ncMkdirP_error (h : ¬ StopPath path)
    (hrec : Returns (fun fuel => ncMkdirP refuses fuel (dirname path) s) (true, s')) {e : Errno}
    (hmkdir : s'.tree.mkdir refuses path = .error e) :
    Returns (fun fuel => ncMkdirP refuses fuel path s) (decide (e = .eexist), ⟨s'.tree, e⟩) := by
  have hnext := ncMkdirP_next h hrec
  have hcall : s'.mkdir refuses path = (-1, ⟨s'.tree, e⟩) := by rw [Process.mkdir, hmkdir]
  rw [if_neg (by simp), hcall] at hnext
  simpa using hnext

theorem ncMkdirP_made (h : ¬ StopPath path)
    (hrec : Returns (fun fuel => ncMkdirP refuses fuel (dirname path) s) (true, s')) {t : FileTree}
    (hmkdir : s'.tree.mkdir refuses path = .ok t) :
    Returns (fun fuel => ncMkdirP refuses fuel path s) (true, ⟨t, s'.errno⟩) := by
  have hnext := ncMkdirP_next h hrec
  have hcall : s'.mkdir refuses path = (0, ⟨t, s'.errno⟩) := by rw [Process.mkdir, hmkdir]
  rw [if_neg (by simp), hcall] at hnext
  simpa using hnext

end call

/-! ### What a run does -/

theorem makeable_of_isDirectory {t : FileTree} {path : Chars} (refuses : Place → Bool)
    (h : t.IsDirectory path) : Makeable refuses t path := by
  refine ⟨?_, h.not_isFile⟩
  intro hnone
  rw [h.entry] at hnone
  cases hnone

theorem isDirectory_stop {path : Chars} (h : StopPath path)
    (t : FileTree) : t.IsDirectory path := by
  obtain rfl | rfl | rfl := h
  · exact t.isDirectory_dot
  · exact t.isDirectory_slashes 0
  · exact t.isDirectory_slashes 1

/-- A run from `s` that ends in `s'` and returns `made`. -/
structure MkdirRun (refuses : Place → Bool) (path : Chars) (s : Process) (made : Bool)
    (s' : Process) : Prop where
  grows : FileTree.Grows path s.tree s'.tree
  granted : ∀ place, s.tree.entry place = none → s'.tree.entry place ≠ none →
    refuses place = false
  errno : made = false → s'.errno ≠ .eexist
  made_iff : made = true ↔ path ≠ [] ∧ Passes refuses s.tree path ∧
    ∀ n, Makeable refuses s.tree (dirname^[n + 1] path)
  above : made = true → s'.tree.IsDirectory (dirname path)
  there : made = true → s'.tree.entry (s.tree.lexical path) ≠ none

section run
variable {refuses : Place → Bool} {path p : Chars} {s s' : Process}

theorem MkdirRun.of_false {t : FileTree} {e : Errno} (hgrows : FileTree.Grows path s.tree t)
    (hgranted : ∀ place, s.tree.entry place = none → t.entry place ≠ none →
      refuses place = false) (he : e ≠ .eexist)
    (hnot : ¬ (path ≠ [] ∧ Passes refuses s.tree path ∧
      ∀ n, Makeable refuses s.tree (dirname^[n + 1] path))) :
    MkdirRun refuses path s false ⟨t, e⟩ where
  grows := hgrows
  granted := hgranted
  errno _ := he
  made_iff := by
    constructor
    · intro hmade
      cases hmade
    · intro hall
      exact absurd hall hnot
  above := by
    intro hmade
    cases hmade
  there := by
    intro hmade
    cases hmade

theorem MkdirRun.of_true {t : FileTree} (hgrows : FileTree.Grows path s.tree t)
    (hgranted : ∀ place, s.tree.entry place = none → t.entry place ≠ none →
      refuses place = false) (hpath : path ≠ []) (hpasses : Passes refuses s.tree path)
    (hall : ∀ n, Makeable refuses s.tree (dirname^[n + 1] path))
    (hdir : t.IsDirectory (dirname path)) (hentry : t.entry (s.tree.lexical path) ≠ none)
    (e : Errno) : MkdirRun refuses path s true ⟨t, e⟩ where
  grows := hgrows
  granted := hgranted
  errno := by
    intro hmade
    cases hmade
  made_iff := ⟨fun _ => ⟨hpath, hpasses, hall⟩, fun _ => rfl⟩
  above _ := hdir
  there _ := hentry

/-- Nothing is to do for a directory. -/
theorem mkdirRun_of_isDirectory (refuses : Place → Bool) (h : s.tree.IsDirectory path)
    (e : Errno) : MkdirRun refuses path s true ⟨s.tree, e⟩ := by
  have hpath : path ≠ [] := by
    rintro rfl
    exact s.tree.not_isDirectory_nil h
  have hentry : s.tree.entry (s.tree.lexical path) ≠ none := by
    rw [h.entry]
    exact Option.some_ne_none _
  exact .of_true (.refl path s.tree) (fun _ hnone hsome => absurd hnone hsome) hpath
    (makeable_of_isDirectory refuses h).passes
    (fun n => makeable_of_isDirectory refuses (h.above (n + 1))) (h.above 1) hentry e

/-- The empty path names nothing. -/
theorem mkdirRun_nil (refuses : Place → Bool) (s : Process) :
    MkdirRun refuses [] s false ⟨s.tree, .enoent⟩ := by
  apply MkdirRun.of_false (.refl [] s.tree) (fun _ hnone hsome => absurd hnone hsome)
  · intro hexist
    cases hexist
  · rintro ⟨hpath, -⟩
    exact hpath rfl

/-- A run that returns true leaves a directory where no file was. -/
theorem MkdirRun.isDirectory (R : MkdirRun refuses path s true s')
    (hfile : ¬ s.tree.IsFile path) : s'.tree.IsDirectory path := by
  apply (s'.tree.isDirectory_iff (R.made_iff.mp rfl).1).mpr
  refine ⟨R.above rfl, ?_⟩
  have hthere := R.there rfl
  rw [← R.grows.lexical] at hthere
  cases hentry : s'.tree.entry (s'.tree.lexical path) with
  | none => exact absurd hentry hthere
  | some e =>
      cases e with
      | file content => exact absurd (R.grows.isFile ⟨content, hentry⟩) hfile
      | directory => rfl

/-- What is a directory after the run could be made before it. -/
theorem MkdirRun.makeable (R : MkdirRun refuses path s true s') (h : s'.tree.IsDirectory path)
    (n : ℕ) : Makeable refuses s.tree (dirname^[n] path) := by
  obtain ⟨-, hpasses, habove⟩ := R.made_iff.mp rfl
  cases n with
  | zero => exact ⟨hpasses, fun hfile => h.not_isFile (R.grows.toKeeps.isFile hfile)⟩
  | succ n => exact habove n

/-- The call for the directory failed. -/
theorem MkdirRun.failed (h : EndsIn path p) (R : MkdirRun refuses (dirname path) s false s') :
    MkdirRun refuses path s false s' := by
  apply MkdirRun.of_false (R.grows.of_dirname h) R.granted (R.errno rfl)
  rintro ⟨-, -, hall⟩
  have hmade := R.made_iff.mpr ⟨dirname_ne_nil path, (hall 0).passes, fun n => hall (n + 1)⟩
  cases hmade

/-- The call for the directory returned true, but `mkdir` fails. -/
theorem MkdirRun.refused (h : EndsIn path p) (R : MkdirRun refuses (dirname path) s true s')
    {e : Errno} (he : e ≠ .eexist)
    (hnot : ¬ (Passes refuses s.tree path ∧ ¬ s.tree.IsFile (dirname path))) :
    MkdirRun refuses path s false ⟨s'.tree, e⟩ := by
  apply MkdirRun.of_false (R.grows.of_dirname h) R.granted he
  rintro ⟨-, hpasses, hall⟩
  exact hnot ⟨hpasses, (hall 0).not_file⟩

/-- The directory is there, and something at the path. -/
theorem MkdirRun.exists (h : EndsIn path p) (R : MkdirRun refuses (dirname path) s true s')
    (hdir : s'.tree.IsDirectory (dirname path))
    (hentry : s'.tree.entry (s.tree.lexical path) ≠ none) (e : Errno) :
    MkdirRun refuses path s true ⟨s'.tree, e⟩ :=
  .of_true (R.grows.of_dirname h) R.granted h.ne_nil (fun hnone => R.granted _ hnone hentry)
    (R.makeable hdir) hdir hentry e

/-- The directory is there, and the path is made. -/
theorem MkdirRun.added (h : EndsIn path p) (R : MkdirRun refuses (dirname path) s true s')
    (hdir : s'.tree.IsDirectory (dirname path)) (hrefuses : refuses (s.tree.lexical path) = false)
    {t : FileTree} (hgrows : FileTree.Grows path s'.tree t)
    (hentry : ∀ q, t.entry q =
      if q = s.tree.lexical path then some .directory else s'.tree.entry q) (e : Errno) :
    MkdirRun refuses path s true ⟨t, e⟩ := by
  have hgranted : ∀ place, s.tree.entry place = none → t.entry place ≠ none →
      refuses place = false := by
    intro place hnone hsome
    by_cases hplace : place = s.tree.lexical path
    · rw [hplace]
      exact hrefuses
    · rw [hentry, if_neg hplace] at hsome
      exact R.granted place hnone hsome
  apply MkdirRun.of_true ((R.grows.of_dirname h).trans hgrows) hgranted h.ne_nil
    (fun _ => hrefuses) (R.makeable hdir) (hgrows.isDirectory hdir)
  rw [hentry, if_pos rfl]
  exact Option.some_ne_none _

/-- The rest of a call, when the call for the directory returned true. -/
theorem ncMkdirP_last (h : EndsIn path p) (hstop : ¬ StopPath path)
    (hrec : Returns (fun fuel => ncMkdirP refuses fuel (dirname path) s) (true, s'))
    (R : MkdirRun refuses (dirname path) s true s') :
    ∃ made s'', Returns (fun fuel => ncMkdirP refuses fuel path s) (made, s'') ∧
      MkdirRun refuses path s made s'' := by
  have hcases := s'.tree.mkdir_cases h refuses
  rw [R.grows.lexical] at hcases
  obtain ⟨e, hmkdir, he, hdir⟩ | ⟨hdir, ⟨hmkdir, hentry⟩ | ⟨hmkdir, hnone, hrefuses⟩ |
    ⟨t, hmkdir, hnone, hrefuses, hcwd, hentry⟩⟩ := hcases
  · -- a file above the path
    have hrun := ncMkdirP_error hstop hrec hmkdir
    rw [decide_eq_false he] at hrun
    refine ⟨_, _, hrun, R.refused h he ?_⟩
    rintro ⟨-, hfile⟩
    exact hdir (R.isDirectory hfile)
  · exact ⟨_, _, ncMkdirP_error hstop hrec hmkdir, R.exists h hdir hentry .eexist⟩
  · have hold : s.tree.entry (s.tree.lexical path) = none := by
      by_contra hsome
      exact R.grows.entry_ne_none hsome hnone
    refine ⟨_, _, ncMkdirP_error hstop hrec hmkdir, R.refused h (by decide) ?_⟩
    rintro ⟨hpasses, -⟩
    rw [hpasses hold] at hrefuses
    cases hrefuses
  · have hadded := FileTree.Grows.added h hdir (by rw [R.grows.lexical]; exact hnone) hcwd
      (by rw [R.grows.lexical]; exact hentry)
    exact ⟨_, _, ncMkdirP_made hstop hrec hmkdir, R.added h hdir hrefuses hadded.1 hentry _⟩

/-- Every call ends, and does what a run does. -/
theorem ncMkdirP_run (refuses : Place → Bool) (path : Chars) (s : Process) :
    ∃ made s', Returns (fun fuel => ncMkdirP refuses fuel path s) (made, s') ∧
      MkdirRun refuses path s made s' := by
  induction path using dirname_induction with
  | nil =>
      have hrec := ncMkdirP_stop refuses (.inl dirname_nil) s
      exact ⟨_, _, ncMkdirP_error (by decide) hrec (s.tree.mkdir_nil refuses),
        mkdirRun_nil refuses s⟩
  | root n =>
      by_cases hstop : StopPath (slashes (n + 1))
      · exact ⟨_, _, ncMkdirP_stop refuses hstop s,
          mkdirRun_of_isDirectory refuses (isDirectory_stop hstop s.tree) s.errno⟩
      · have hdir : StopPath (dirname (slashes (n + 1))) := by
          rw [dirname_slashes]
          split_ifs
          · exact .inr (.inr rfl)
          · exact .inr (.inl rfl)
        have hrec := ncMkdirP_stop refuses hdir s
        exact ⟨_, _, ncMkdirP_error hstop hrec (s.tree.mkdir_slashes refuses n),
          mkdirRun_of_isDirectory refuses (s.tree.isDirectory_slashes n) _⟩
  | dot =>
      exact ⟨_, _, ncMkdirP_stop refuses (.inl rfl) s,
        mkdirRun_of_isDirectory refuses s.tree.isDirectory_dot s.errno⟩
  | next path p h ih =>
      by_cases hstop : StopPath path
      · exact ⟨_, _, ncMkdirP_stop refuses hstop s,
          mkdirRun_of_isDirectory refuses (isDirectory_stop hstop s.tree) s.errno⟩
      obtain ⟨made, s', hrec, R⟩ := ih
      cases made with
      | false => exact ⟨_, _, ncMkdirP_failed hstop hrec (R.errno rfl), R.failed h⟩
      | true => exact ncMkdirP_last h hstop hrec R

end run

/-- The call does what it promises unless the path comes to a file, with directories above it that
are there or can be made. -/
theorem mkdir_p_right_iff (refuses : Place → Bool) (path : Chars) (s : Process) :
    MakesDirectories refuses path s ↔
      ¬ (s.tree.IsFile path ∧ ∀ n, Makeable refuses s.tree (dirname^[n + 1] path)) := by
  obtain ⟨made, s', hrun, R⟩ := ncMkdirP_run refuses path s
  constructor
  · rintro ⟨made', s'', hrun', hdir, -⟩ ⟨hfile, habove⟩
    obtain ⟨rfl, rfl⟩ := Prod.mk.inj (hrun.unique hrun')
    have hpath : path ≠ [] := by
      rintro rfl
      obtain ⟨content, hroot⟩ := hfile
      rw [show s.tree.lexical [] = s.tree.cwd from rfl, s.tree.inside] at hroot
      cases hroot
    have hpasses : Passes refuses s.tree path := by
      intro hnone
      obtain ⟨content, hentry⟩ := hfile
      rw [hentry] at hnone
      cases hnone
    -- the file makes `mkdir` fail with `EEXIST`
    have hmade := R.made_iff.mpr ⟨hpath, hpasses, habove⟩
    exact (hdir hmade 0).not_isFile (R.grows.toKeeps.isFile hfile)
  · intro hnot
    refine ⟨made, s', hrun, ?_, R.grows⟩
    intro hmade n
    subst hmade
    apply FileTree.IsDirectory.above
    apply R.isDirectory
    intro hfile
    exact hnot ⟨hfile, (R.made_iff.mp rfl).2.2⟩

/-- A tree in which the root has the file `f`. -/
def treeOfFile : FileTree where
  entry place :=
    if place = [] then some .directory else if place = [[102]] then some (.file []) else none
  root := rfl
  parent := by
    intro name place h
    rw [if_neg (List.cons_ne_nil _ _)] at h
    split_ifs at h with heq
    · rw [(List.cons.inj heq).2]
      rfl
    · exact absurd rfl h
  proper := by
    intro name place h
    rw [if_neg (List.cons_ne_nil _ _)] at h
    split_ifs at h with heq
    · rw [(List.cons.inj heq).1]
      exact ⟨⟨by decide, by decide⟩, by decide, by decide⟩
    · exact absurd rfl h
  finite := by
    refine ⟨[[], [[102]]], ?_⟩
    intro place h
    split_ifs at h with hroot hfile
    · rw [hroot]
      exact List.mem_cons_self
    · rw [hfile]
      exact List.mem_cons_of_mem _ List.mem_cons_self
    · exact absurd rfl h
  cwd := []
  inside := rfl

/-- There `nc_mkdir_p` of `f` returns true, and `f` is still a file. -/
theorem mkdir_p_of_file :
    Returns (fun fuel => ncMkdirP (fun _ => false) fuel [102] ⟨treeOfFile, .other⟩)
      (true, ⟨treeOfFile, .eexist⟩) ∧
    ¬ treeOfFile.IsDirectory [102] ∧
    ¬ MakesDirectories (fun _ => false) [102] ⟨treeOfFile, .other⟩ := by
  have hstop : ¬ StopPath [102] := by decide
  have hmkdir : treeOfFile.mkdir (fun _ => false) [102] = .error .eexist := rfl
  have hdot : dirname [102] = [46] := rfl
  have hrec := ncMkdirP_stop (fun _ => false) (.inl hdot) ⟨treeOfFile, .other⟩
  have hrun := ncMkdirP_error hstop hrec hmkdir
  have hfile : ¬ treeOfFile.IsDirectory [102] := by
    rintro ⟨place, h⟩
    cases h
  refine ⟨hrun, hfile, ?_⟩
  rintro ⟨made, s', hrun', hdir, -⟩
  obtain ⟨rfl, rfl⟩ := Prod.mk.inj (hrun.unique hrun')
  exact hfile (hdir rfl 0)

end Nica
