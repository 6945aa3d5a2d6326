import Nica.Pointers
import Nica.MkdirP
import Nica.FileWalk

/-! # Removing a tree

`nc_rm_rf` of `files.c`, on a tree of directories and files.  What `unlink` and `rmdir` refuse, and
which directories cannot be read, are parameters; `sync` does nothing to the tree.

The walk comes to a directory after all that is in it (`eachEntry_swept`, by induction on the names
of a directory, inside `visit_walked`, by induction on the depth).  The call returns true when every
entry at and below the place of the path can be removed, and then they are all gone; when it returns
false the entry at the path is still there.  In both cases nothing else has changed
(`rm_rf_removes`). -/

namespace Nica

open Fueled FileSystem PathName FileTree

/-- `_rm_rf`, which returns 0 or -1. -/
def rmRf (ls : DirListing) (refuses : Place → Bool) (path : Chars) (typeflag : TypeFlag)
    (t : FileTree) : ℤ × FileTree :=
  match typeflag with
  | .f | .sl | .sln =>
      match t.unlink refuses path with
      | .ok t' => (0, t')
      | .error _ => (-1, t)
  | _ =>
      match t.rmdir ls refuses path with
      | .ok t' => (0, t')
      | .error _ => (-1, t)

def ncRmRf (ls : DirListing) (refuses unreadable : Place → Bool) (fuel : ℕ) (path : Chars)
    (t : FileTree) : Except Fault (Bool × FileTree) := do
  let (r, t) ← nftw Fault.timeout ls unreadable (rmRf ls refuses) fuel path t
  .ok (decide (r = 0), t)

/-- Nothing at or below the place is refused, and only empty directories cannot be read. -/
def Clearable (refuses unreadable : Place → Bool) (t : FileTree) (place : Place) : Prop :=
  ∀ q, place <:+ q → t.entry q ≠ none → refuses q = false ∧
    (t.entry q = some .directory → unreadable q = true → ∀ name, t.entry (name :: q) = none)

/-- What the walk that starts at a place does. -/
structure Walked (refuses unreadable : Place → Bool) (place : Place) (t : FileTree) (r : ℤ)
    (t' : FileTree) : Prop where
  prunes : Prunes place t t'
  done_iff : r = 0 ↔ Clearable refuses unreadable t place
  gone : r = 0 → ∀ q, place <:+ q → t'.entry q = none
  kept : r ≠ 0 → t'.entry place = t.entry place

/-- What the walk over the names of a directory does. -/
structure Swept (refuses unreadable : Place → Bool) (place : Place) (names : List Chars)
    (t : FileTree) (r : ℤ) (t' : FileTree) : Prop where
  cwd : t'.cwd = t.cwd
  entry : ∀ q, t'.entry q = t.entry q ∨
    (∃ name ∈ names, (name :: place) <:+ q) ∧ t'.entry q = none
  done_iff : r = 0 ↔ ∀ name ∈ names, Clearable refuses unreadable t (name :: place)
  gone : r = 0 → ∀ name ∈ names, ∀ q, (name :: place) <:+ q → t'.entry q = none

/-- Where the walk stands: the path leads to an entry, and `fuel` is enough for what is below. -/
structure WalkAt (t : FileTree) (path : Chars) (place : Place) (fuel : ℕ) : Prop where
  leads : t.Leads path place
  outside : ¬ place <:+ t.cwd
  deep : ∀ q, place <:+ q → t.entry q ≠ none → q.length < place.length + fuel
  here : t.entry place ≠ none

/-! ### Places -/

theorem not_below_self (name : Chars) (place : Place) : ¬ (name :: place) <:+ place := by
  intro h
  have hlen := h.length_le
  rw [List.length_cons] at hlen
  omega

/-- A place lies below one name of a directory at most. -/
theorem name_unique {name name' : Chars} {place q : Place} (h : (name :: place) <:+ q)
    (h' : (name' :: place) <:+ q) : name = name' := by
  have hle := List.suffix_of_suffix_length_le h h' (by simp)
  exact (List.cons.inj (hle.eq_of_length (by simp))).1

/-- Below a place comes an entry in it first. -/
theorem below_cases {place q : Place} (h : place <:+ q) :
    q = place ∨ ∃ name, (name :: place) <:+ q := by
  obtain ⟨s, rfl⟩ := h
  obtain rfl | ⟨front, name, rfl⟩ := List.eq_nil_or_concat' s
  · exact .inl rfl
  · exact .inr ⟨name, front, by simp⟩

/-- Above an entry there are entries. -/
theorem entry_above {t : FileTree} {place q : Place} (h : place <:+ q) (hq : t.entry q ≠ none) :
    t.entry place ≠ none := by
  obtain ⟨s, rfl⟩ := h
  induction s with
  | nil => exact hq
  | cons name s ih =>
      apply ih
      rw [t.parent name (s ++ place) hq]
      exact Option.some_ne_none _

theorem only_leaf {t : FileTree} {place q : Place} (hleaf : ∀ name, t.entry (name :: place) = none)
    (h : place <:+ q) (hq : t.entry q ≠ none) : q = place := by
  cases below_cases h with
  | inl heq => exact heq
  | inr hin =>
      obtain ⟨name, hname⟩ := hin
      exact absurd (hleaf name) (entry_above hname hq)

section places
variable {refuses unreadable : Place → Bool} {t t' : FileTree} {path name : Chars}
  {place place' : Place} {fuel : ℕ}

theorem Clearable.mono (h : Clearable refuses unreadable t place) (hle : place <:+ place') :
    Clearable refuses unreadable t place' := fun q hq => h q (hle.trans hq)

theorem clearable_congr (h : ∀ q, place <:+ q → t'.entry q = t.entry q) :
    Clearable refuses unreadable t' place ↔ Clearable refuses unreadable t place := by
  apply forall_congr'
  intro q
  apply imp_congr_right
  intro hq
  rw [h q hq]
  simp only [h _ (hq.trans (List.suffix_cons _ q))]

theorem clearable_leaf (hleaf : ∀ name, t.entry (name :: place) = none)
    (hrefuses : refuses place = false) : Clearable refuses unreadable t place := by
  intro q hq hsome
  rw [only_leaf hleaf hq hsome]
  exact ⟨hrefuses, fun _ _ => hleaf⟩

theorem clearable_none (hnone : t.entry place = none) : Clearable refuses unreadable t place :=
  fun _ hq hsome => absurd hnone (entry_above hq hsome)

theorem clearable_directory (hdir : t.entry place = some .directory)
    (hread : unreadable place = false) :
    Clearable refuses unreadable t place ↔
      refuses place = false ∧ ∀ name, Clearable refuses unreadable t (name :: place) := by
  constructor
  · intro h
    refine ⟨(h place List.suffix_rfl ?_).1, fun name => h.mono (List.suffix_cons name place)⟩
    rw [hdir]
    exact Option.some_ne_none _
  · rintro ⟨hrefuses, hall⟩ q hq hsome
    cases below_cases hq with
    | inl heq =>
        rw [heq]
        refine ⟨hrefuses, fun _ hunreadable => ?_⟩
        rw [hread] at hunreadable
        cases hunreadable
    | inr hin =>
        obtain ⟨name, hname⟩ := hin
        exact hall name q hname hsome

theorem WalkAt.pruned (h : WalkAt t path place fuel) (hprunes : Prunes (name :: place) t t') :
    WalkAt t' path place fuel where
  leads := h.leads.pruned hprunes (List.suffix_cons name place)
  outside := by
    rw [hprunes.cwd]
    exact h.outside
  deep q hq hsome := by
    apply h.deep q hq
    rwa [← hprunes.entry_ne_none hsome]
  here := by
    rw [hprunes.outside (not_below_self name place)]
    exact h.here

theorem WalkAt.child (h : WalkAt t path place (fuel + 1))
    (hdir : t.entry place = some .directory) (hname : t.entry (name :: place) ≠ none) :
    WalkAt t (join path name) (name :: place) fuel where
  leads := by
    obtain ⟨hn, hdot, hdots⟩ := t.proper name place hname
    exact h.leads.child hdir hn hdot hdots
  outside := fun hin => h.outside ((List.suffix_cons name place).trans hin)
  deep q hq hsome := by
    have hlen := h.deep q ((List.suffix_cons name place).trans hq) hsome
    rw [List.length_cons]
    omega
  here := hname

end places

/-! ### The reports -/

section reports
variable {ls : DirListing} {refuses unreadable : Place → Bool} {t t' : FileTree} {path name : Chars}
  {place : Place} {fuel : ℕ} {flag : TypeFlag}

/-- The entry that was removed had nothing below it. -/
theorem Walked.removed (h : Removes place t t') (hleaf : ∀ name, t.entry (name :: place) = none)
    (hrefuses : refuses place = false) : Walked refuses unreadable place t 0 t' where
  prunes := h.prunes
  done_iff := ⟨fun _ => clearable_leaf hleaf hrefuses, fun _ => rfl⟩
  gone _ q hq := by
    rw [h.entry]
    split_ifs with heq
    · rfl
    · by_contra hsome
      exact heq (only_leaf hleaf hq hsome)
  kept hr := absurd rfl hr

theorem Walked.stays (hnot : ¬ Clearable refuses unreadable t place) :
    Walked refuses unreadable place t (-1) t where
  prunes := .refl place t
  done_iff := ⟨fun hr => absurd hr (by decide), fun h => absurd h hnot⟩
  gone hr := absurd hr (by decide)
  kept _ := rfl

theorem rmRf_file (h : t.Leads path place) {content : List UInt8}
    (hfile : t.entry place = some (.file content)) :
    ∃ r t', rmRf ls refuses path .f t = (r, t') ∧ Walked refuses unreadable place t r t' := by
  obtain ⟨e, hunlink, hnot⟩ | ⟨t', hunlink, -, hrefuses, hremoves⟩ := h.unlink_cases refuses
  · refine ⟨-1, t, by rw [rmRf, hunlink], .stays fun hall => hnot ⟨⟨content, hfile⟩, ?_⟩⟩
    apply (hall place List.suffix_rfl _).1
    rw [hfile]
    exact Option.some_ne_none _
  · exact ⟨0, t', by rw [rmRf, hunlink], .removed hremoves (t.file_leaf hfile) hrefuses⟩

/-- The report of a directory that is empty by now, or whose entries cannot be removed. -/
theorem rmRf_directory (ls : DirListing) (h : t.Leads path place) (hcwd : place ≠ t.cwd)
    (hdir : t.entry place = some .directory) (hflag : flag = .dp ∨ flag = .dnr)
    (hleaf : Clearable refuses unreadable t place → ∀ name, t.entry (name :: place) = none) :
    ∃ r t', rmRf ls refuses path flag t = (r, t') ∧ Walked refuses unreadable place t r t' := by
  have hcall : rmRf ls refuses path flag t =
      match t.rmdir ls refuses path with
      | .ok t' => (0, t')
      | .error _ => (-1, t) := by
    cases hflag with
    | inl heq =>
        subst heq
        rfl
    | inr heq =>
        subst heq
        rfl
  obtain ⟨e, hrmdir, hnot⟩ | ⟨t', hrmdir, -, hempty, hrefuses, hremoves⟩ :=
    h.rmdir_cases ls refuses hcwd
  · refine ⟨-1, t, by rw [hcall, hrmdir], .stays fun hall => hnot ⟨hdir, hleaf hall, ?_⟩⟩
    apply (hall place List.suffix_rfl _).1
    rw [hdir]
    exact Option.some_ne_none _
  · exact ⟨0, t', by rw [hcall, hrmdir], .removed hremoves hempty hrefuses⟩

/-! ### The entries of a directory -/

theorem Swept.nil : Swept refuses unreadable place [] t 0 t where
  cwd := rfl
  entry _ := .inl rfl
  done_iff := by simp
  gone _ _ hmem := absurd hmem List.not_mem_nil

theorem Swept.cons {names : List Chars} {t'' : FileTree} {r : ℤ}
    (hfirst : Walked refuses unreadable (name :: place) t 0 t') (hnew : name ∉ names)
    (hrest : Swept refuses unreadable place names t' r t'') :
    Swept refuses unreadable place (name :: names) t r t'' where
  cwd := hrest.cwd.trans hfirst.prunes.cwd
  entry q := by
    cases hrest.entry q with
    | inr hgone =>
        obtain ⟨⟨n, hn, hq⟩, hnone⟩ := hgone
        exact .inr ⟨⟨n, List.mem_cons_of_mem _ hn, hq⟩, hnone⟩
    | inl heq =>
        rw [heq]
        cases hfirst.prunes.entry q with
        | inl heq' => exact .inl heq'
        | inr hgone => exact .inr ⟨⟨name, List.mem_cons_self, hgone.1⟩, hgone.2⟩
  done_iff := by
    rw [hrest.done_iff, List.forall_mem_cons, and_iff_right (hfirst.done_iff.mp rfl)]
    apply forall₂_congr
    intro n hn
    apply clearable_congr
    intro q hq
    apply hfirst.prunes.outside
    intro hin
    apply hnew
    rw [name_unique hin hq]
    exact hn
  gone hr n hn q hq := by
    cases List.mem_cons.mp hn with
    | inr hin => exact hrest.gone hr n hin q hq
    | inl heq =>
        rw [heq] at hq
        have hnone := hfirst.gone rfl q hq
        cases hrest.entry q with
        | inl heq' => rw [heq', hnone]
        | inr hgone => exact hgone.2

/-- The walk ends at an entry that stays. -/
theorem Swept.ended {names : List Chars} {r : ℤ}
    (hfirst : Walked refuses unreadable (name :: place) t r t') (hr : r ≠ 0) :
    Swept refuses unreadable place (name :: names) t r t' where
  cwd := hfirst.prunes.cwd
  entry q := by
    cases hfirst.prunes.entry q with
    | inl heq => exact .inl heq
    | inr hgone => exact .inr ⟨⟨name, List.mem_cons_self, hgone.1⟩, hgone.2⟩
  done_iff := by
    constructor
    · intro heq
      exact absurd heq hr
    · intro hall
      exact hfirst.done_iff.mpr (hall name List.mem_cons_self)
  gone heq := absurd heq hr

theorem Swept.prunes {names : List Chars} {r : ℤ}
    (h : Swept refuses unreadable place names t r t') : Prunes place t t' where
  cwd := h.cwd
  entry q := by
    cases h.entry q with
    | inl heq => exact .inl heq
    | inr hgone =>
        obtain ⟨⟨n, -, hq⟩, hnone⟩ := hgone
        exact .inr ⟨(List.suffix_cons n place).trans hq, hnone⟩

theorem Swept.kept {names : List Chars} {r : ℤ}
    (h : Swept refuses unreadable place names t r t') : t'.entry place = t.entry place := by
  cases h.entry place with
  | inl heq => exact heq
  | inr hgone =>
      obtain ⟨⟨n, -, hq⟩, -⟩ := hgone
      exact absurd hq (not_below_self n place)

/-- `visit` does its work at every entry that is reached with so much fuel. -/
def Visits (ls : DirListing) (refuses unreadable : Place → Bool) (fuel : ℕ) : Prop :=
  ∀ path place t, WalkAt t path place fuel → ∃ r t',
    visit Fault.timeout ls unreadable (rmRf ls refuses) fuel path t = .ok (r, t') ∧
      Walked refuses unreadable place t r t'

/-- The names of a directory, in any order without repetition. -/
theorem eachEntry_swept (hvisit : Visits ls refuses unreadable fuel) {names : List Chars}
    (hnodup : names.Nodup) (h : WalkAt t path place (fuel + 1))
    (hdir : t.entry place = some .directory)
    (hthere : ∀ name ∈ names, t.entry (name :: place) ≠ none) :
    ∃ r t', eachEntry (visit Fault.timeout ls unreadable (rmRf ls refuses) fuel) path names t =
        .ok (r, t') ∧ Swept refuses unreadable place names t r t' := by
  induction names generalizing t with
  | nil => exact ⟨0, t, rfl, .nil⟩
  | cons name names ih =>
      obtain ⟨hnew, hnodup⟩ := List.nodup_cons.mp hnodup
      obtain ⟨r, t', hrun, hfirst⟩ :=
        hvisit _ _ _ (h.child hdir (hthere name List.mem_cons_self))
      rw [eachEntry, hrun, ok_bind]
      by_cases hr : r = 0
      · subst hr
        have hdir' : t'.entry place = some .directory := by
          rw [hfirst.prunes.outside (not_below_self name place), hdir]
        -- the other entries are as they were
        have hthere' : ∀ n ∈ names, t'.entry (n :: place) ≠ none := by
          intro n hn
          rw [hfirst.prunes.outside]
          · exact hthere n (List.mem_cons_of_mem _ hn)
          · intro hin
            rw [name_unique hin List.suffix_rfl] at hnew
            exact hnew hn
        obtain ⟨r, t'', hrest, hswept⟩ := ih hnodup (h.pruned hfirst.prunes) hdir' hthere'
        exact ⟨r, t'', hrest, hswept.cons hfirst hnew⟩
      · exact ⟨r, t', if_neg hr, .ended hfirst hr⟩

/-- The names that a directory lists are all of its entries. -/
theorem Swept.done_iff_children {r : ℤ}
    (h : Swept refuses unreadable place (ls.list t place) t r t') :
    r = 0 ↔ ∀ name, Clearable refuses unreadable t (name :: place) := by
  rw [h.done_iff]
  constructor
  · intro hall name
    by_cases hname : t.entry (name :: place) = none
    · exact clearable_none hname
    · exact hall name ((ls.mem_iff t place name).mpr hname)
  · intro hall name _
    exact hall name

/-- When all of them are gone the directory is empty. -/
theorem Swept.empty (h : Swept refuses unreadable place (ls.list t place) t 0 t') (name : Chars) :
    t'.entry (name :: place) = none := by
  by_cases hname : t.entry (name :: place) = none
  · by_contra hsome
    rw [h.prunes.entry_ne_none hsome] at hsome
    exact hsome hname
  · exact h.gone rfl name ((ls.mem_iff t place name).mpr hname) _ List.suffix_rfl

/-- The entries of a directory, which are all gone, and then the directory. -/
theorem Swept.walked (h : Swept refuses unreadable place (ls.list t place) t 0 t')
    (hdir : t.entry place = some .directory) (hread : unreadable place = false) {r : ℤ}
    {t'' : FileTree} (hlast : Walked refuses unreadable place t' r t'') :
    Walked refuses unreadable place t r t'' where
  prunes := h.prunes.trans hlast.prunes
  done_iff := by
    have hchildren := h.done_iff_children.mp rfl
    have hdir' : t'.entry place = some .directory := by rw [h.kept, hdir]
    rw [hlast.done_iff, clearable_directory hdir hread, clearable_directory hdir' hread,
      and_iff_left hchildren, and_iff_left]
    intro name
    exact clearable_none (h.empty name)
  gone := hlast.gone
  kept hr := (hlast.kept hr).trans h.kept

/-- Something in the directory stays. -/
theorem Swept.blocked {r : ℤ} (h : Swept refuses unreadable place (ls.list t place) t r t')
    (hdir : t.entry place = some .directory) (hread : unreadable place = false) (hr : r ≠ 0) :
    Walked refuses unreadable place t r t' where
  prunes := h.prunes
  done_iff := by
    rw [clearable_directory hdir hread, h.done_iff_children]
    constructor
    · intro hall
      exact absurd (h.done_iff_children.mpr hall) hr
    · intro hall
      exact hall.2
  gone heq := absurd heq hr
  kept _ := h.kept

theorem visit_walked (ls : DirListing) (refuses unreadable : Place → Bool) (fuel : ℕ) :
    Visits ls refuses unreadable fuel := by
  induction fuel with
  | zero =>
      intro path place t h
      have hlen := h.deep place List.suffix_rfl h.here
      omega
  | succ fuel ih =>
      intro path place t h
      rw [visit, h.leads.lstat]
      cases hentry : t.entry place with
      | none => exact absurd hentry h.here
      | some e =>
          cases e with
          | file content =>
              obtain ⟨r, t', hcall, hwalked⟩ := rmRf_file h.leads hentry
              exact ⟨r, t', congrArg Except.ok hcall, hwalked⟩
          | directory =>
              have hcwd : place ≠ t.cwd := fun heq => h.outside (heq ▸ List.suffix_rfl)
              simp only [h.leads.resolve hentry]
              cases hread : unreadable place with
              | true =>
                  obtain ⟨r, t', hcall, hwalked⟩ := rmRf_directory ls h.leads hcwd hentry
                    (.inr rfl) fun hall => (hall place List.suffix_rfl h.here).2 hentry hread
                  exact ⟨r, t', congrArg Except.ok hcall, hwalked⟩
              | false =>
                  rw [if_neg (by simp)]
                  obtain ⟨r, t', hrun, hswept⟩ := eachEntry_swept ih (ls.nodup t place) h hentry
                    fun name hname => (ls.mem_iff t place name).mp hname
                  rw [hrun, ok_bind]
                  by_cases hr : r = 0
                  · subst hr
                    have hcwd' : place ≠ t'.cwd := by
                      rw [hswept.cwd]
                      exact hcwd
                    obtain ⟨r, t'', hcall, hwalked⟩ := rmRf_directory ls
                      (h.leads.pruned hswept.prunes List.suffix_rfl) hcwd'
                      (by rw [hswept.kept, hentry]) (.inl rfl) fun _ => hswept.empty
                    exact ⟨r, t'', congrArg Except.ok hcall, hswept.walked hentry hread hwalked⟩
                  · exact ⟨r, t', if_neg hr, hswept.blocked hentry hread hr⟩

end reports

/-! ### The call -/

/-- A call that returns `removed`. -/
structure RmRfRun (refuses unreadable : Place → Bool) (path : Chars) (t : FileTree) (removed : Bool)
    (t' : FileTree) : Prop where
  prunes : Prunes (t.lexical path) t t'
  removed_iff : removed = true ↔ t.IsDirectory (dirname path) ∧ t.entry (t.lexical path) ≠ none ∧
    Clearable refuses unreadable t (t.lexical path)
  gone : removed = true → ∀ q, t.lexical path <:+ q → t'.entry q = none
  kept : removed = false → t'.entry (t.lexical path) = t.entry (t.lexical path)

theorem lengths_bounded (places : List Place) : ∃ depth, ∀ q ∈ places, q.length < depth := by
  induction places with
  | nil => exact ⟨0, fun _ hq => absurd hq List.not_mem_nil⟩
  | cons place places ih =>
      obtain ⟨depth, hdepth⟩ := ih
      refine ⟨max depth (place.length + 1), ?_⟩
      intro q hq
      cases List.mem_cons.mp hq with
      | inl heq =>
          rw [heq]
          omega
      | inr hin =>
          have := hdepth q hin
          omega

/-- A walk that starts at the place of the path ends. -/
theorem visit_returns (ls : DirListing) (refuses unreadable : Place → Bool) {t : FileTree}
    {path : Chars} {place : Place} (hleads : t.Leads path place)
    (hcwd : ¬ place <:+ t.cwd) (hhere : t.entry place ≠ none) : ∃ r t',
      Returns (fun fuel => visit Fault.timeout ls unreadable (rmRf ls refuses) fuel path t)
        (r, t') ∧ Walked refuses unreadable place t r t' := by
  obtain ⟨places, hplaces⟩ := t.finite
  obtain ⟨depth, hdepth⟩ := lengths_bounded places
  have hdeep : ∀ q, place <:+ q → t.entry q ≠ none → q.length < place.length + depth := by
    intro q _ hq
    have := hdepth q (hplaces q hq)
    omega
  obtain ⟨r, t', hrun, hwalked⟩ :=
    visit_walked ls refuses unreadable depth path place t ⟨hleads, hcwd, hdeep, hhere⟩
  exact ⟨r, t', (visit_steady _ ls unreadable (rmRf ls refuses) path t).returns hrun, hwalked⟩

theorem ncRmRf_missing (ls : DirListing) (refuses unreadable : Place → Bool) {t : FileTree}
    {path : Chars} (hpath : path ≠ []) {e : Errno} (h : t.lstat (stripSlashes path) = .error e) :
    Returns (fun fuel => ncRmRf ls refuses unreadable fuel path t) (false, t) := by
  apply (Returns.pure (false, t)).congr
  intro fuel
  rw [ncRmRf, nftw, if_neg hpath, h]
  rfl

theorem ncRmRf_visit (ls : DirListing) (refuses unreadable : Place → Bool) {t t' : FileTree}
    {path : Chars} (hpath : path ≠ []) {e : Entry} (h : t.lstat (stripSlashes path) = .ok e) {r : ℤ}
    (hvisit : Returns (fun fuel =>
      visit Fault.timeout ls unreadable (rmRf ls refuses) fuel (stripSlashes path) t) (r, t')) :
    Returns (fun fuel => ncRmRf ls refuses unreadable fuel path t) (decide (r = 0), t') := by
  have hlast : Returns (fun _ => (.ok (decide (r = 0), t') : Except Fault (Bool × FileTree)))
      (decide (r = 0), t') := .pure _
  apply (hvisit.bind (g := fun x _ => .ok (decide (x.1 = 0), x.2)) hlast).congr
  intro fuel
  rw [ncRmRf, nftw, if_neg hpath, h]

theorem ncRmRf_run (ls : DirListing) (refuses unreadable : Place → Bool) {t : FileTree}
    {path p : Chars} (hend : EndsIn path p) (hapart : t.Apart path) :
    ∃ removed t', Returns (fun fuel => ncRmRf ls refuses unreadable fuel path t) (removed, t') ∧
      RmRfRun refuses unreadable path t removed t' := by
  by_cases hdir : t.IsDirectory (dirname path)
  · have hleads := hapart.leads hend hdir
    cases hhere : t.entry (t.lexical path) with
    | none =>
        have hlstat : t.lstat (stripSlashes path) = .error .enoent := by rw [hleads.lstat, hhere]
        refine ⟨false, t, ncRmRf_missing ls refuses unreadable hend.ne_nil hlstat, .refl _ t,
          ⟨nofun, fun hall => absurd hhere hall.2.1⟩, nofun, fun _ => rfl⟩
    | some e =>
        have hlstat : t.lstat (stripSlashes path) = .ok e := by rw [hleads.lstat, hhere]
        have hsome : t.entry (t.lexical path) ≠ none := by
          rw [hhere]
          exact Option.some_ne_none e
        obtain ⟨r, t', hvisit, hwalked⟩ :=
          visit_returns ls refuses unreadable hleads hapart.cwd hsome
        refine ⟨_, t', ncRmRf_visit ls refuses unreadable hend.ne_nil hlstat hvisit,
          hwalked.prunes, ?_, ?_, ?_⟩
        · rw [decide_eq_true_eq, hwalked.done_iff, and_iff_right hdir, and_iff_right hsome]
        · intro hremoved
          exact hwalked.gone (of_decide_eq_true hremoved)
        · intro hremoved
          exact hwalked.kept (of_decide_eq_false hremoved)
  · obtain ⟨e, hlstat⟩ := lstat_stripSlashes_error hend hdir
    exact ⟨false, t, ncRmRf_missing ls refuses unreadable hend.ne_nil hlstat, .refl _ t,
      ⟨nofun, fun hall => absurd hall.1 hdir⟩, nofun, fun _ => rfl⟩

/-- Nothing changes but that entries at and below the place of the path are removed; the call
returns true exactly when there are some and all of them can be removed, and then none is left; when
it returns false the entry at the path stays. -/
theorem rm_rf_removes (ls : DirListing) (refuses unreadable : Place → Bool) {t : FileTree}
    {path p : Chars} (hend : EndsIn path p) (hapart : t.Apart path) :
    ∃ removed t', Returns (fun fuel => ncRmRf ls refuses unreadable fuel path t) (removed, t') ∧
      (∀ q, t'.entry q = t.entry q ∨ (t.lexical path <:+ q ∧ t'.entry q = none)) ∧
      (removed = true ↔ t.IsDirectory (dirname path) ∧ t.entry (t.lexical path) ≠ none ∧
        Clearable refuses unreadable t (t.lexical path)) ∧
      (removed = true → ∀ q, t.lexical path <:+ q → t'.entry q = none) ∧
      (removed = false → t'.entry (t.lexical path) = t.entry (t.lexical path)) := by
  obtain ⟨removed, t', hrun, R⟩ := ncRmRf_run ls refuses unreadable hend hapart
  exact ⟨removed, t', hrun, R.prunes.entry, R.removed_iff, R.gone, R.kept⟩

theorem endsIn_single {c : UInt8} (hc : c ≠ 47) : EndsIn [c] [c] :=
  .alone (p := [c]) 0 ⟨List.cons_ne_nil _ _, by simpa using Ne.symm hc⟩

/-- The root has the file `f` and the directory `d`, that one the file `a` and the directory `e`, and
that the file `g`. -/
def treeOfDirectory : FileTree :=
  .ofTable [([[102]], .file [97, 98]), ([[100]], .directory), ([[97], [100]], .file [99]),
    ([[101], [100]], .directory), ([[103], [101], [100]], .file [])] (by decide)

theorem treeOfDirectory_apart : treeOfDirectory.Apart [100] where
  cwd := by decide
  way := by
    intro q hq
    rw [List.mem_singleton.mp hq]
    decide

/-- `d` is removed with all that is in it, and stays when the file in it cannot be removed. -/
theorem rm_rf_of_directory :
    (∃ t', Returns (fun fuel => ncRmRf DirListing.ofFinite (fun _ => false) (fun _ => false) fuel
        [100] treeOfDirectory) (true, t') ∧ t'.entry [[103], [101], [100]] = none ∧
      t'.entry [[100]] = none ∧ t'.entry [[102]] = some (.file [97, 98])) ∧
    ∃ t', Returns (fun fuel => ncRmRf DirListing.ofFinite (fun q => q == [[97], [100]])
        (fun _ => false) fuel [100] treeOfDirectory) (false, t') ∧
      t'.entry [[100]] = some .directory := by
  constructor
  · obtain ⟨removed, t', hrun, hentry, hiff, hgone, -⟩ := rm_rf_removes DirListing.ofFinite
      (fun _ => false) (fun _ => false) (endsIn_single (by decide)) treeOfDirectory_apart
    have hremoved : removed = true := by
      apply hiff.mpr
      refine ⟨treeOfDirectory.isDirectory_dot, Option.some_ne_none _, fun q _ hq => ⟨rfl, ?_⟩⟩
      intro _ hunreadable
      cases hunreadable
    rw [hremoved] at hrun
    refine ⟨t', hrun, hgone hremoved _ (by decide), hgone hremoved _ (by decide), ?_⟩
    rcases hentry [[102]] with hsame | ⟨hin, -⟩
    · exact hsame
    · exact absurd hin (by decide)
  · obtain ⟨removed, t', hrun, -, hiff, -, hkept⟩ := rm_rf_removes DirListing.ofFinite
      (fun q => q == [[97], [100]]) (fun _ => false) (endsIn_single (by decide))
      treeOfDirectory_apart
    have hremoved : removed = false := by
      by_contra hne
      obtain ⟨-, -, hall⟩ := hiff.mp (Bool.eq_true_of_not_eq_false hne)
      have hrefused := (hall [[97], [100]] (by decide) (Option.some_ne_none _)).1
      cases hrefused
    rw [hremoved] at hrun
    exact ⟨t', hrun, hkept hremoved⟩

end Nica
