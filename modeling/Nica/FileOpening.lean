import Nica.FileRemoval

/-! # Opening files

* `setFile` : the tree with a file at a place where no directory is.
* `openRead`, `openAppend` : `open` with `O_RDONLY`, and with
  `O_WRONLY | O_TRUNC | O_APPEND | O_CREAT`.  What the system refuses for a reason of its own is a
  parameter; for the second it depends on whether the file is there.
* `append` : a `write` to a file that was opened with `O_APPEND`.

A file that is open is known by its place.  Directories are neither made nor removed here, so every
path shows the same place afterwards (`locate_mono`). -/

namespace FileSystem

open PathName Fueled

namespace FileTree
variable (t : FileTree)

/-- The content of the file at a place. -/
def fileAt (place : Place) : Option (List UInt8) :=
  match t.entry place with
  | some (.file content) => some content
  | _ => none

theorem fileAt_eq_some {place : Place} {content : List UInt8} :
    t.fileAt place = some content ↔ t.entry place = some (.file content) := by
  unfold fileAt
  cases h : t.entry place with
  | none => simp
  | some e =>
      cases e with
      | file content' => simp
      | directory => simp

/-- The tree with a file at a place. -/
def setFile (place : Place) (content : List UInt8) (hparent : t.entry place.tail = some .directory)
    (hname : ∀ name ∈ place.head?, Proper name) (hnot : t.entry place ≠ some .directory) :
    FileTree where
  entry q := if q = place then some (.file content) else t.entry q
  root := by
    rw [if_neg]
    · exact t.root
    · rintro rfl
      exact hnot t.root
  parent name q hq := by
    have hold : t.entry q = some .directory := by
      split_ifs at hq with heq
      · rw [← heq] at hparent
        exact hparent
      · exact t.parent name q hq
    rw [if_neg]
    · exact hold
    · rintro rfl
      exact hnot hold
  proper name q hq := by
    split_ifs at hq with heq
    · rw [← heq] at hname
      exact hname name rfl
    · exact t.proper name q hq
  finite := by
    obtain ⟨places, hplaces⟩ := t.finite
    refine ⟨place :: places, ?_⟩
    intro q hq
    by_cases heq : q = place
    · rw [heq]
      exact List.mem_cons_self
    · rw [if_neg heq] at hq
      exact List.mem_cons_of_mem _ (hplaces q hq)
  cwd := t.cwd
  inside := by
    rw [if_neg]
    · exact t.inside
    · intro h
      exact hnot (h ▸ t.inside)

theorem parent_tail {place : Place} (h : t.entry place ≠ none) :
    t.entry place.tail = some .directory := by
  cases place with
  | nil => exact t.root
  | cons name place => exact t.parent name place h

theorem proper_head {place : Place} (h : t.entry place ≠ none) :
    ∀ name ∈ place.head?, Proper name := by
  cases place with
  | nil => exact nofun
  | cons name place =>
      intro n hn
      obtain rfl := Option.some.inj hn
      exact t.proper name place h

/-- A path that does not show a directory shows a place with a name of the path. -/
theorem locate_proper {path : Chars} {place : Place} (h : t.locate path = .ok place)
    (hnot : t.entry place ≠ some .directory) : ∀ name ∈ place.head?, Proper name := by
  by_cases hnone : t.entry place = none
  · unfold locate at h
    split_ifs at h
    cases hlast : (names path).getLast? with
    | none =>
        rw [hlast] at h
        obtain rfl := Except.ok.inj h
        exact nofun
    | some name =>
        rw [hlast] at h
        simp only at h
        cases hwalk : t.walk ⟨(route path).absolute, (names path).dropLast⟩ with
        | error e =>
            rw [hwalk] at h
            cases h
        | ok dir =>
            rw [hwalk] at h
            obtain rfl := Except.ok.inj h
            obtain ⟨heq, hdots⟩ := t.further_missing (t.walk_directory hwalk) hnone
            rw [heq]
            intro n hn
            obtain rfl := Option.some.inj hn
            exact ⟨isName_of_mem (List.mem_of_getLast? hlast), hdots⟩
  · exact t.proper_head hnone

/-- A path that does not show a directory shows a place in one. -/
theorem locate_parent {path : Chars} {place : Place} (h : t.locate path = .ok place)
    (hnot : t.entry place ≠ some .directory) : t.entry place.tail = some .directory := by
  unfold locate at h
  split_ifs at h
  cases hlast : (names path).getLast? with
  | none =>
      rw [hlast] at h
      obtain rfl := Except.ok.inj h
      exact t.root
  | some name =>
      rw [hlast] at h
      simp only at h
      cases hwalk : t.walk ⟨(route path).absolute, (names path).dropLast⟩ with
      | error e =>
          rw [hwalk] at h
          cases h
      | ok dir =>
          rw [hwalk] at h
          obtain rfl := Except.ok.inj h
          have hdir := t.walk_directory hwalk
          unfold further at hnot ⊢
          split_ifs at hnot ⊢ with hdot hdots
          · exact absurd hdir hnot
          · have hup : t.entry dir.tail = some .directory := t.parent_tail (by rw [hdir]; nofun)
            exact absurd hup hnot
          · exact hdir

/-- `open(path, O_RDONLY)`; a directory can be opened too. -/
def openRead (refuses : Place → Bool) (path : Chars) : Except Errno Place := do
  let _ ← t.lstat path
  let place ← t.locate path
  if refuses place then .error .other else .ok place

/-- `open(path, O_WRONLY | O_TRUNC | O_APPEND | O_CREAT, mode)`: where the file is, and the tree in
which it is empty. -/
def openAppend (refuses : Bool → Place → Bool) (path : Chars) : Except Errno (Place × FileTree) :=
  -- no file is made at a path that asks for a directory
  if path.getLast? = some 47 then .error .other
  else
    match h : t.locate path with
    | .error e => .error e
    | .ok place =>
        if hdir : t.entry place = some .directory then .error .other
        else if refuses (t.entry place).isSome place then .error .other
        else .ok (place,
          t.setFile place [] (t.locate_parent h hdir) (t.locate_proper h hdir) hdir)

/-- `write` at the end of a file. -/
def append (place : Place) (bytes : List UInt8) : FileTree :=
  match h : t.entry place with
  | some (.file content) =>
      t.setFile place (content ++ bytes) (t.parent_tail (by rw [h]; nofun))
        (t.proper_head (by rw [h]; nofun)) (by rw [h]; nofun)
  | _ => t

/-! ### What they do -/

/-- There is a file at the place, and nothing else has changed. -/
structure Sets (place : Place) (content : List UInt8) (t t' : FileTree) : Prop where
  cwd : t'.cwd = t.cwd
  entry : ∀ q, t'.entry q = if q = place then some (.file content) else t.entry q

section opening
variable {t} {t' : FileTree} {path : Chars} {place : Place} {content : List UInt8}

theorem Sets.here (h : Sets place content t t') : t'.fileAt place = some content := by
  rw [fileAt_eq_some, h.entry, if_pos rfl]

theorem Sets.fileAt (h : Sets place content t t') {q : Place} (hq : q ≠ place) :
    t'.fileAt q = t.fileAt q := by
  unfold FileTree.fileAt
  rw [h.entry, if_neg hq]

theorem Sets.append (h : Sets place content t t') (bytes : List UInt8) :
    Sets place (content ++ bytes) t (t'.append place bytes) := by
  have hhere := (t'.fileAt_eq_some).mp h.here
  unfold FileTree.append
  split
  · rename_i content' hcontent
    obtain rfl := Entry.file.inj (Option.some.inj (hhere.symm.trans hcontent))
    refine ⟨h.cwd, fun q => ?_⟩
    show (if q = place then some (.file (content ++ bytes)) else t'.entry q) = _
    split_ifs with hq
    · rfl
    · rw [h.entry, if_neg hq]
  · rename_i hnot
    exact absurd hhere (hnot content)

/-- A path shows the same place as long as the directories are there. -/
theorem locate_mono (hcwd : t'.cwd = t.cwd)
    (hdirs : ∀ q, t.entry q = some .directory → t'.entry q = some .directory)
    (h : t.locate path = .ok place) : t'.locate path = .ok place := by
  unfold locate at h ⊢
  split_ifs at h ⊢
  cases hlast : (names path).getLast? with
  | none =>
      rw [hlast] at h
      exact h
  | some name =>
      rw [hlast] at h
      simp only at h ⊢
      cases hwalk : t.walk ⟨(route path).absolute, (names path).dropLast⟩ with
      | error e =>
          rw [hwalk] at h
          cases h
      | ok dir =>
          rw [hwalk] at h
          have hstart := t.start_directory ⟨(route path).absolute, (names path).dropLast⟩
          have hway := t.way_of_foldlM hstart hwalk
          obtain ⟨rfl, -⟩ := t.foldlM_step hstart hwalk
          have hwalk' := t'.foldlM_way fun q hq => hdirs q (hway q hq)
          rw [← start_congr hcwd] at hwalk' h
          unfold walk
          rw [hwalk']
          exact h

theorem Removes.locate_iff (hrem : Removes place t t') (hnot : t.entry place ≠ some .directory)
    {q : Place} : t'.locate path = .ok q ↔ t.locate path = .ok q := by
  constructor
  · refine locate_mono hrem.cwd.symm fun q hq => ?_
    rw [hrem.entry] at hq
    split_ifs at hq
    exact hq
  · refine locate_mono hrem.cwd fun q hq => ?_
    rw [hrem.entry, if_neg]
    · exact hq
    · rintro rfl
      exact hnot hq

theorem openRead_eq_ok {refuses : Place → Bool} : t.openRead refuses path = .ok place ↔
    ∃ e, t.lstat path = .ok e ∧ t.locate path = .ok place ∧ refuses place = false := by
  constructor
  · intro h
    obtain ⟨e, hlstat, hrest⟩ := ok_of_bind h
    obtain ⟨place', hlocate, hlast⟩ := ok_of_bind hrest
    split_ifs at hlast with hrefuses
    obtain rfl := Except.ok.inj hlast
    exact ⟨e, hlstat, hlocate, Bool.eq_false_iff.mpr hrefuses⟩
  · rintro ⟨e, hlstat, hlocate, hrefuses⟩
    unfold openRead
    rw [hlstat, hlocate]
    exact if_neg (Bool.eq_false_iff.mp hrefuses)

/-- The path shows a place at which the system opens a file for writing. -/
structure Writable (refuses : Bool → Place → Bool) (t : FileTree) (path : Chars) (place : Place) :
    Prop where
  plain : path.getLast? ≠ some 47
  locate : t.locate path = .ok place
  not_directory : t.entry place ≠ some .directory
  allowed : refuses (t.entry place).isSome place = false

theorem openAppend_eq_ok {refuses : Bool → Place → Bool}
    (h : t.openAppend refuses path = .ok (place, t')) :
    Writable refuses t path place ∧ Sets place [] t t' := by
  unfold openAppend at h
  split_ifs at h with hlast
  split at h
  · cases h
  · rename_i place' hlocate
    split_ifs at h with hdir hrefuses
    obtain ⟨rfl, rfl⟩ := Prod.mk.inj (Except.ok.inj h)
    exact ⟨⟨hlast, hlocate, hdir, Bool.eq_false_iff.mpr hrefuses⟩, rfl, fun q => rfl⟩

theorem Writable.openAppend {refuses : Bool → Place → Bool} (h : Writable refuses t path place) :
    ∃ t', t.openAppend refuses path = .ok (place, t') ∧ Sets place [] t t' := by
  unfold FileTree.openAppend
  rw [if_neg h.plain]
  split
  · rename_i e herror
    rw [h.locate] at herror
    cases herror
  · rename_i place' hlocate
    obtain rfl := Except.ok.inj (h.locate.symm.trans hlocate)
    rw [dif_neg h.not_directory, h.allowed, if_neg (by decide)]
    exact ⟨_, rfl, rfl, fun q => rfl⟩

end opening

end FileTree

end FileSystem
