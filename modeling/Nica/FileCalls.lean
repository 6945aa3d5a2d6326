import Nica.RmRf
import Nica.PlainPath

/-! # Making and removing

`nc_file_exists` of `files.c`, and `nc_mkdir_p` and `nc_rm_rf` one after the other.  A path that was
made and removed again leaves only the directories above it (`made_then_removed`), and one that was
removed and made again is an empty directory (`removed_then_made`). -/

namespace Nica

open Fueled FileSystem PathName FileTree

/-- `nc_file_exists`. -/
def ncFileExists (path : Chars) (t : FileTree) : Bool :=
  match t.lstat path with
  | .ok _ => true
  | .error _ => false

/-- What the system allows, and how it lists directories. -/
structure FileHost where
  ls : DirListing
  refusesMkdir : Place → Bool
  refusesRemoval : Place → Bool
  unreadable : Place → Bool

section congr
variable {t t' : FileTree} {path : Chars}

theorem lexical_congr (h : t'.cwd = t.cwd) (r : Chars) : t'.lexical r = t.lexical r := by
  unfold FileTree.lexical
  rw [start_congr h]

theorem apart_congr (h : t'.cwd = t.cwd) : t'.Apart path ↔ t.Apart path := by
  constructor
  · intro ha
    constructor
    · rw [← lexical_congr h, ← h]
      exact ha.cwd
    · rw [← lexical_congr h, ← start_congr h]
      exact ha.way
  · intro ha
    constructor
    · rw [lexical_congr h, h]
      exact ha.cwd
    · rw [lexical_congr h, start_congr h]
      exact ha.way

end congr

/-- The system refuses nothing. -/
noncomputable def FileHost.willing : FileHost :=
  ⟨DirListing.ofFinite, fun _ => false, fun _ => false, fun _ => false⟩

/-! ### What is there afterwards -/

section afterwards
variable {refuses : Place → Bool} {t t' : FileTree} {path p : Chars}

theorem locate_lexical (hend : EndsIn path p) {place : Place} (h : t.locate path = .ok place) :
    place = t.lexical path := by
  rw [FileTree.locate, if_neg hend.ne_nil, names_last hend, List.getLast?_concat,
    List.dropLast_concat] at h
  obtain ⟨dir, hwalk, hlast⟩ := ok_of_bind h
  rw [← Except.ok.inj hlast, FileTree.lexical, names_last hend, List.foldl_concat,
    (t.foldlM_step (t.start_directory _) hwalk).1]
  rfl

theorem ncFileExists_missing (hend : EndsIn path p) (hnone : t.entry (t.lexical path) = none) :
    ncFileExists path t = false := by
  rw [ncFileExists, FileTree.lstat]
  cases hlocate : t.locate path with
  | error e => rfl
  | ok place =>
      rw [locate_lexical hend hlocate] at *
      simp only [ok_bind, hnone]

theorem locate_directory (h : t.IsDirectory path) : t.locate path = .ok (t.lexical path) := by
  obtain rfl | ⟨n, rfl⟩ | ⟨p, hend⟩ := path_ends path
  · exact absurd h t.not_isDirectory_nil
  · have hroot : t.lexical (slashes (n + 1)) = [] := by
      rw [FileTree.lexical, route_slashes, names_slashes]
      rfl
    rw [hroot, FileTree.locate, if_neg (show slashes (n + 1) ≠ [] from List.cons_ne_nil _ _),
      names_slashes]
    rfl
  · obtain ⟨dir, hdir⟩ := ((t.isDirectory_next hend).mp h).1
    rw [FileTree.locate, if_neg hend.ne_nil, names_last hend, List.getLast?_concat,
      ← names_last hend]
    simp only [t.walk_front hend, hdir]
    rw [t.lexical_next hend, ← (t.resolve_ok hdir).1]
    rfl

theorem ncFileExists_directory (h : t.IsDirectory path) : ncFileExists path t = true := by
  rw [ncFileExists, FileTree.lstat, locate_directory h]
  simp only [ok_bind, h.entry]

/-- For a directory that is there nothing is done. -/
theorem ncMkdirP_present (refuses : Place → Bool) (h : t.IsDirectory path) (errno : Errno) :
    ∃ e, Returns (fun fuel => ncMkdirP refuses fuel path ⟨t, errno⟩) (true, ⟨t, e⟩) := by
  induction path using dirname_induction with
  | nil => exact absurd h t.not_isDirectory_nil
  | root n =>
      by_cases hstop : StopPath (slashes (n + 1))
      · exact ⟨errno, ncMkdirP_stop refuses hstop _⟩
      · have hdir : StopPath (dirname (slashes (n + 1))) := by
          rw [dirname_slashes]
          split_ifs
          · exact .inr (.inr rfl)
          · exact .inr (.inl rfl)
        have hrec := ncMkdirP_stop refuses hdir ⟨t, errno⟩
        exact ⟨.eexist, ncMkdirP_error hstop hrec (t.mkdir_slashes refuses n)⟩
  | dot => exact ⟨errno, ncMkdirP_stop refuses (.inl rfl) _⟩
  | next path p hend ih =>
      by_cases hstop : StopPath path
      · exact ⟨errno, ncMkdirP_stop refuses hstop _⟩
      obtain ⟨hdir, hentry⟩ := (t.isDirectory_next hend).mp h
      obtain ⟨e, hrec⟩ := ih hdir
      obtain ⟨-, -, -, hnot⟩ | ⟨-, ⟨hmkdir, -⟩ | ⟨-, hnone, -⟩ | ⟨-, -, hnone, -⟩⟩ :=
        t.mkdir_cases hend refuses
      · exact absurd hdir hnot
      · exact ⟨.eexist, ncMkdirP_error hstop hrec hmkdir⟩
      · rw [hnone] at hentry
        cases hentry
      · rw [hnone] at hentry
        cases hentry

/-- What a run makes new is not below the place of a plain path. -/
theorem leaf_of_grows (hplain : Plain path) (hgrows : Grows path t t')
    (hnone : t.entry (t.lexical path) = none) (name : Chars) :
    t'.entry (name :: t.lexical path) = none := by
  by_contra hsome
  have hold : t.entry (name :: t.lexical path) = none := by
    by_contra hne
    exact entry_above (List.suffix_cons name _) hne hnone
  obtain ⟨-, r, hr, hresolve⟩ := hgrows.fresh _ hold hsome
  have hplace := (t'.resolve_ok hresolve).1
  have hne : r ≠ [] := by
    rintro rfl
    cases hresolve
  rw [lexical_congr hgrows.cwd] at hplace
  have hin : t.lexical path <:+ t.lexical r := by
    rw [← hplace]
    exact List.suffix_cons name _
  have hlen := congrArg List.length (lexical_of_begins hplain hr hne hin)
  rw [← hplace, List.length_cons] at hlen
  omega

/-- The directory of a path that was removed stays. -/
theorem isDirectory_pruned (hend : EndsIn path p) (hapart : t.Apart path)
    (hdir : t.IsDirectory (dirname path)) (hprunes : Prunes (t.lexical path) t t') :
    t'.IsDirectory (dirname path) := by
  have hleads := (hapart.leads hend hdir).pruned hprunes List.suffix_rfl
  obtain ⟨-, dir, -, -, -, -, hwalk, -⟩ := hleads.split
  obtain ⟨-, hnames, habs⟩ := stripSlashes_endsIn hend
  rw [hnames, habs, t'.walk_front hend] at hwalk
  exact ⟨dir, hwalk⟩

end afterwards

/-- A plain path that named nothing: once `nc_mkdir_p` has returned true it exists, and `nc_rm_rf`
removes it again unless the system refuses that; then it does not exist, and the tree has changed
only by directories along the path. -/
theorem made_then_removed (host : FileHost) {s s' : Process} {path p : Chars}
    (hend : EndsIn path p) (hplain : Plain path)
    (hnew : s.tree.entry (s.tree.lexical path) = none)
    (hmade : Returns (fun fuel => ncMkdirP host.refusesMkdir fuel path s) (true, s')) :
    ncFileExists path s'.tree = true ∧ ∃ removed t',
      Returns (fun fuel => ncRmRf host.ls host.refusesRemoval host.unreadable fuel path s'.tree)
        (removed, t') ∧
      (removed = true ↔ host.refusesRemoval (s.tree.lexical path) = false) ∧
      (removed = true → ncFileExists path t' = false ∧ ∀ q, t'.entry q = s.tree.entry q ∨
        s.tree.entry q = none ∧ t'.entry q = some .directory ∧ ¬ s.tree.lexical path <:+ q ∧
          ∃ r, r <+: path ∧ s.tree.lexical r = q) := by
  obtain ⟨made, s'', hrun, R⟩ := ncMkdirP_run host.refusesMkdir path s
  obtain ⟨rfl, rfl⟩ := Prod.mk.inj (hrun.unique hmade)
  have hlexical := lexical_congr R.grows.cwd path
  have hdir : s''.tree.IsDirectory path := by
    apply R.isDirectory
    rintro ⟨content, hfile⟩
    rw [hnew] at hfile
    cases hfile
  have hcwd : ¬ s''.tree.lexical path <:+ s''.tree.cwd := by
    rw [hlexical, R.grows.cwd]
    intro hin
    apply entry_above hin _ hnew
    rw [s.tree.inside]
    exact Option.some_ne_none _
  obtain ⟨removed, t', hrm, Q⟩ := ncRmRf_run host.ls host.refusesRemoval host.unreadable hend
    (Apart.of_plain hend hplain hcwd)
  refine ⟨ncFileExists_directory hdir, removed, t', hrm, ?_, ?_⟩
  · have hthere := hdir.entry
    have hremoved := Q.removed_iff
    rw [hlexical] at hremoved hthere
    rw [hremoved, and_iff_right ((s''.tree.isDirectory_next hend).mp hdir).1, and_iff_right]
    · constructor
      · intro hall
        exact (hall _ List.suffix_rfl (by rw [hthere]; exact Option.some_ne_none _)).1
      · exact clearable_leaf (leaf_of_grows hplain R.grows hnew)
    · rw [hthere]
      exact Option.some_ne_none _
  · intro hremoved
    have hgone := Q.gone hremoved
    have hprunes := Q.prunes
    rw [hlexical] at hgone hprunes
    refine ⟨ncFileExists_missing hend ?_, fun q => ?_⟩
    · rw [lexical_congr hprunes.cwd, hlexical]
      exact hgone _ List.suffix_rfl
    · by_cases hq : s.tree.lexical path <:+ q
      · left
        rw [hgone q hq]
        by_contra hsome
        exact entry_above hq (Ne.symm hsome) hnew
      · rw [hprunes.outside hq]
        cases hold : s.tree.entry q with
        | some e => exact .inl (R.grows.kept q e hold)
        | none =>
            by_cases hsome : s''.tree.entry q = none
            · exact .inl hsome
            · obtain ⟨hdirectory, r, hr, hresolve⟩ := R.grows.fresh q hold hsome
              refine .inr ⟨rfl, hdirectory, hq, r, hr, ?_⟩
              rw [← lexical_congr R.grows.cwd]
              exact (s''.tree.resolve_ok hresolve).1.symm

/-- The directory `d` beside the file of the tree. -/
theorem made_then_removed_directory : ∃ s' : Process,
    Returns (fun fuel => ncMkdirP (fun _ => false) fuel [100] ⟨treeOfFile, .other⟩) (true, s') ∧
      ncFileExists [100] s'.tree = true := by
  have hend : EndsIn [100] [100] := endsIn_single (by decide)
  have hplain : Plain [100] := by
    unfold Plain
    decide
  obtain ⟨made, s', hrun, R⟩ := ncMkdirP_run (fun _ => false) [100] ⟨treeOfFile, .other⟩
  have hmade : made = true := by
    refine R.made_iff.mpr ⟨List.cons_ne_nil _ _, fun _ => rfl, fun n => ?_⟩
    exact makeable_of_isDirectory _ (treeOfFile.isDirectory_dot.above n)
  rw [hmade] at hrun
  exact ⟨s', hrun, (made_then_removed .willing hend hplain rfl hrun).1⟩

/-- A path that `nc_rm_rf` has removed does not exist, and `nc_mkdir_p` makes it again unless the
system refuses that: as an empty directory, and nothing else has changed. -/
theorem removed_then_made (host : FileHost) {t t' : FileTree} {path p : Chars}
    (hend : EndsIn path p) (hapart : t.Apart path)
    (hremoved : Returns
      (fun fuel => ncRmRf host.ls host.refusesRemoval host.unreadable fuel path t) (true, t'))
    (errno : Errno) :
    ncFileExists path t' = false ∧ ∃ made s',
      Returns (fun fuel => ncMkdirP host.refusesMkdir fuel path ⟨t', errno⟩) (made, s') ∧
      (made = true ↔ host.refusesMkdir (t.lexical path) = false) ∧
      (made = true → s'.tree.IsDirectory path ∧ ∀ q, s'.tree.entry q =
        if q = t.lexical path then some .directory
        else if t.lexical path <:+ q then none else t.entry q) := by
  obtain ⟨removed, t'', hrun, R⟩ :=
    ncRmRf_run host.ls host.refusesRemoval host.unreadable hend hapart
  obtain ⟨rfl, rfl⟩ := Prod.mk.inj (hrun.unique hremoved)
  have hgone := R.gone rfl
  have hlexical := lexical_congr R.prunes.cwd path
  have hnone : t''.entry (t''.lexical path) = none := by
    rw [hlexical]
    exact hgone _ List.suffix_rfl
  have hstop : ¬ StopPath path := by
    intro hstop
    rw [(isDirectory_stop hstop t'').entry] at hnone
    cases hnone
  have hdir := isDirectory_pruned hend hapart (R.removed_iff.mp rfl).1 R.prunes
  obtain ⟨e, hrec⟩ := ncMkdirP_present host.refusesMkdir hdir errno
  refine ⟨ncFileExists_missing hend hnone, ?_⟩
  obtain ⟨-, -, -, hnot⟩ | ⟨-, ⟨-, hsome⟩ | ⟨hmkdir, -, hrefuses⟩ |
    ⟨t₁, hmkdir, -, hrefuses, hcwd, hentry⟩⟩ := t''.mkdir_cases hend host.refusesMkdir
  · exact absurd hdir hnot
  · exact absurd hnone hsome
  · rw [hlexical] at hrefuses
    refine ⟨false, _, ncMkdirP_error hstop hrec hmkdir, ?_, fun h => by cases h⟩
    rw [hrefuses]
    simp
  · rw [hlexical] at hrefuses hentry
    refine ⟨true, _, ncMkdirP_made hstop hrec hmkdir, by simp [hrefuses], fun _ => ?_⟩
    constructor
    · apply (Grows.added hend hdir hnone hcwd _).2
      rw [hlexical]
      exact hentry
    · intro q
      change t₁.entry q = _
      rw [hentry]
      split_ifs with heq hin
      · rfl
      · exact hgone q hin
      · exact R.prunes.outside hin

/-- The directory `d` gives way to an empty one. -/
theorem removed_then_made_directory : ∃ t' s', Returns (fun fuel => ncRmRf DirListing.ofFinite
    (fun _ => false) (fun _ => false) fuel [100] treeOfDirectory) (true, t') ∧
      Returns (fun fuel => ncMkdirP (fun _ => false) fuel [100] ⟨t', .other⟩) (true, s') ∧
      s'.tree.IsDirectory [100] ∧ s'.tree.entry [[97], [100]] = none := by
  obtain ⟨removed, t', hrun, R⟩ := ncRmRf_run DirListing.ofFinite (fun _ => false)
    (fun _ => false) (endsIn_single (by decide)) treeOfDirectory_apart
  have hremoved : removed = true := by
    apply R.removed_iff.mpr
    refine ⟨treeOfDirectory.isDirectory_dot, Option.some_ne_none _, fun q _ hq => ⟨rfl, ?_⟩⟩
    intro _ hunreadable
    cases hunreadable
  rw [hremoved] at hrun
  obtain ⟨-, made, s', hmkdir, hiff, hmade⟩ :=
    removed_then_made .willing (endsIn_single (by decide)) treeOfDirectory_apart hrun .other
  have htrue := hiff.mpr rfl
  rw [htrue] at hmkdir
  obtain ⟨hdir, hentry⟩ := hmade htrue
  refine ⟨t', s', hrun, hmkdir, hdir, ?_⟩
  rw [hentry, if_neg (by decide), if_pos (by decide)]

end Nica
