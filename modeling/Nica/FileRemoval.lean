import Nica.FileTree
import Nica.Fuel
import Mathlib.Data.List.Dedup

/-! # Removing entries

* `lstat`, `unlink`, `rmdir` : the system calls.  What they refuse for a reason of their own is a
  parameter, and so is the order in which a directory lists its names (`DirListing`).
* `Leads` : the way that a path shows to a place goes over directories outside it.  Such a path
  still leads there when something at or below the place is removed (`Leads.pruned`).

A tree is pruned at a place when nothing has changed but that entries at or below it are gone
(`Prunes`).  The working directory of the process is not removed here. -/

namespace FileSystem

open PathName Fueled

/-- How directories list their names. -/
structure DirListing where
  list : FileTree → Place → List Chars
  nodup : ∀ t place, (list t place).Nodup
  mem_iff : ∀ t place name, name ∈ list t place ↔ t.entry (name :: place) ≠ none

/-- The names that the places of a tree have in a directory, each once. -/
noncomputable def DirListing.ofFinite : DirListing where
  list t place :=
    (t.finite.choose.filterMap fun q =>
      match q with
      | [] => none
      | name :: dir => if dir = place ∧ t.entry q ≠ none then some name else none).dedup
  nodup _ _ := List.nodup_dedup _
  mem_iff t place name := by
    rw [List.mem_dedup, List.mem_filterMap]
    constructor
    · rintro ⟨q, -, hq⟩
      cases q with
      | nil => cases hq
      | cons n dir =>
          simp only at hq
          split_ifs at hq with hentry
          obtain rfl := Option.some.inj hq
          rw [← hentry.1]
          exact hentry.2
    · intro hentry
      exact ⟨name :: place, t.finite.choose_spec _ hentry, if_pos ⟨rfl, hentry⟩⟩

namespace FileTree
variable (t : FileTree)

/-- The place that the path names, when its directory is there. -/
def locate (path : Chars) : Except Errno Place :=
  if path = [] then .error .enoent
  else
    match (names path).getLast? with
    | none => .ok []
    | some name => do
        let place ← t.walk ⟨(route path).absolute, (names path).dropLast⟩
        .ok (further place name)

/-- `lstat(path)`; a slash at the end asks for a directory. -/
def lstat (path : Chars) : Except Errno Entry := do
  let place ← t.locate path
  match t.entry place with
  | none => .error .enoent
  | some .directory => .ok .directory
  | some (.file content) =>
      if path.getLast? = some 47 then .error .enotdir else .ok (.file content)

/-- The tree without an entry that has nothing below it. -/
def remove (place : Place) (hroot : place ≠ []) (hcwd : place ≠ t.cwd)
    (hleaf : ∀ name, t.entry (name :: place) = none) : FileTree where
  entry q := if q = place then none else t.entry q
  root := by
    rw [if_neg hroot.symm]
    exact t.root
  parent name q hq := by
    split_ifs at hq with heq
    · exact absurd rfl hq
    · rw [if_neg]
      · exact t.parent name q hq
      · rintro rfl
        exact hq (hleaf name)
  proper name q hq := by
    split_ifs at hq
    · exact absurd rfl hq
    · exact t.proper name q hq
  finite := by
    obtain ⟨places, hplaces⟩ := t.finite
    refine ⟨places, fun q hq => hplaces q ?_⟩
    split_ifs at hq
    · exact absurd rfl hq
    · exact hq
  cwd := t.cwd
  inside := by
    rw [if_neg hcwd.symm]
    exact t.inside

theorem file_ne_root {place : Place} {content : List UInt8}
    (h : t.entry place = some (.file content)) : place ≠ [] := by
  rintro rfl
  rw [t.root] at h
  cases h

theorem file_ne_cwd {place : Place} {content : List UInt8}
    (h : t.entry place = some (.file content)) : place ≠ t.cwd := by
  rintro rfl
  rw [t.inside] at h
  cases h

theorem file_leaf {place : Place} {content : List UInt8}
    (h : t.entry place = some (.file content)) (name : Chars) : t.entry (name :: place) = none := by
  by_contra hne
  rw [t.parent name place hne] at h
  cases h

/-- `unlink(path)` of what is not a directory. -/
def unlink (refuses : Place → Bool) (path : Chars) : Except Errno FileTree := do
  let place ← t.locate path
  match h : t.entry place with
  | none => .error .enoent
  | some .directory => .error .other
  | some (.file _) =>
      if path.getLast? = some 47 then .error .enotdir
      else if refuses place then .error .other
      else .ok (t.remove place (t.file_ne_root h) (t.file_ne_cwd h) (t.file_leaf h))

/-- `rmdir(path)` of an empty directory. -/
def rmdir (ls : DirListing) (refuses : Place → Bool) (path : Chars) : Except Errno FileTree := do
  let place ← t.locate path
  match t.entry place with
  | none => .error .enoent
  | some (.file _) => .error .enotdir
  | some .directory =>
      -- the root is busy, and the names of the directory itself and of the one above are refused
      if (names path).getLast? = none ∨ (names path).getLast? = some [46] ∨
          (names path).getLast? = some [46, 46] then .error .other
      else if h : place = [] ∨ place = t.cwd ∨ ls.list t place ≠ [] then .error .other
      else if refuses place then .error .other
      else
        .ok (t.remove place (fun h' => h (.inl h')) (fun h' => h (.inr (.inl h'))) (by
          intro name
          by_contra hne
          apply h
          right
          right
          exact List.ne_nil_of_mem ((ls.mem_iff t place name).mpr hne)))

/-! ### The way to a place -/

/-- The places that names lead over. -/
def way : Place → List Chars → List Place
  | place, [] => [place]
  | place, name :: rest => place :: way (further place name) rest

theorem way_concat (place : Place) (front : List Chars) (name : Chars) :
    way place (front ++ [name]) =
      way place front ++ [further (front.foldl further place) name] := by
  induction front generalizing place with
  | nil => rfl
  | cons n front ih =>
      rw [List.cons_append, way, ih, way, List.foldl_cons]
      rfl

theorem foldl_mem_way (place : Place) (front : List Chars) :
    front.foldl further place ∈ way place front := by
  induction front generalizing place with
  | nil => exact List.mem_singleton.mpr rfl
  | cons n front ih => exact List.mem_cons_of_mem _ (ih _)

theorem head_mem_way (place : Place) (front : List Chars) : place ∈ way place front := by
  cases front with
  | nil => exact List.mem_singleton.mpr rfl
  | cons n front => exact List.mem_cons_self

/-- Names that lead over directories lead somewhere. -/
theorem foldlM_way {place : Place} {front : List Chars}
    (h : ∀ q ∈ way place front, t.entry q = some .directory) :
    front.foldlM t.step place = .ok (front.foldl further place) := by
  induction front generalizing place with
  | nil => rfl
  | cons n front ih =>
      have hnext := h _ (List.mem_cons_of_mem _ (head_mem_way _ _))
      rw [List.foldlM_cons, t.step_ok_iff.mpr ⟨rfl, hnext⟩]
      exact ih fun q hq => h q (List.mem_cons_of_mem _ hq)

/-- And the other way round. -/
theorem way_of_foldlM {place place' : Place} {front : List Chars}
    (hdir : t.entry place = some .directory) (h : front.foldlM t.step place = .ok place') :
    ∀ q ∈ way place front, t.entry q = some .directory := by
  induction front generalizing place with
  | nil =>
      intro q hq
      rw [List.mem_singleton.mp hq]
      exact hdir
  | cons n front ih =>
      rw [List.foldlM_cons] at h
      cases hstep : t.step place n with
      | error e =>
          rw [hstep] at h
          cases h
      | ok next =>
          rw [hstep] at h
          obtain ⟨rfl, hnext⟩ := t.step_ok_iff.mp hstep
          intro q hq
          cases List.mem_cons.mp hq with
          | inl heq =>
              rw [heq]
              exact hdir
          | inr hin => exact ih hnext h q hin

/-- The path has no slash at its end and leads to `place`, over directories that are not in it. -/
structure Leads (path : Chars) (place : Place) : Prop where
  plain : path.getLast? ≠ some 47
  last : ∃ front p, names path = front ++ [p] ∧
    (∀ q ∈ way (t.start (route path)) front, t.entry q = some .directory ∧ ¬ place <:+ q) ∧
    place = further (front.foldl further (t.start (route path))) p

/-- Nothing has changed but that entries at or below `place` are gone. -/
structure Prunes (place : Place) (t t' : FileTree) : Prop where
  cwd : t'.cwd = t.cwd
  entry : ∀ q, t'.entry q = t.entry q ∨ (place <:+ q ∧ t'.entry q = none)

/-- Only the entry at `place` is gone. -/
structure Removes (place : Place) (t t' : FileTree) : Prop where
  cwd : t'.cwd = t.cwd
  entry : ∀ q, t'.entry q = if q = place then none else t.entry q

section leads
variable {t t' t'' : FileTree} {path : Chars} {place place' : Place}

theorem Prunes.refl (place : Place) (t : FileTree) : Prunes place t t := ⟨rfl, fun _ => .inl rfl⟩

theorem Prunes.trans (h : Prunes place t t') (h' : Prunes place t' t'') : Prunes place t t'' where
  cwd := h'.cwd.trans h.cwd
  entry q := by
    cases h'.entry q with
    | inl heq =>
        rw [heq]
        exact h.entry q
    | inr hgone => exact .inr hgone

/-- Outside the place nothing has changed. -/
theorem Prunes.outside (h : Prunes place t t') {q : Place} (hq : ¬ place <:+ q) :
    t'.entry q = t.entry q := (h.entry q).resolve_right fun hgone => hq hgone.1

theorem Prunes.entry_ne_none (h : Prunes place t t') {q : Place} (hq : t'.entry q ≠ none) :
    t'.entry q = t.entry q := (h.entry q).resolve_right fun hgone => hq hgone.2

theorem Removes.prunes (h : Removes place t t') : Prunes place t t' where
  cwd := h.cwd
  entry q := by
    rw [h.entry]
    split_ifs with heq
    · right
      rw [heq]
      exact ⟨List.suffix_rfl, rfl⟩
    · exact .inl rfl

theorem start_congr (hcwd : t'.cwd = t.cwd) (r : Route) : t'.start r = t.start r := by
  unfold start
  rw [hcwd]

/-- A name in a directory that is not the directory or the one above it. -/
theorem further_outside {dir place : Place} {p : Chars} (hplace : place = further dir p)
    (hout : ¬ place <:+ dir) : place = p :: dir ∧ p ≠ [46] ∧ p ≠ [46, 46] := by
  unfold further at hplace
  split_ifs at hplace with hdot hdots
  · rw [hplace] at hout
    exact absurd List.suffix_rfl hout
  · rw [hplace] at hout
    exact absurd (List.tail_suffix dir) hout
  · exact ⟨hplace, hdot, hdots⟩

/-- The last name of the path is that of the place, in a directory. -/
theorem Leads.split (h : t.Leads path place) :
    ∃ p dir, place = p :: dir ∧ p ≠ [46] ∧ p ≠ [46, 46] ∧ (names path).getLast? = some p ∧
      t.walk ⟨(route path).absolute, (names path).dropLast⟩ = .ok dir ∧
      t.entry dir = some .directory := by
  obtain ⟨front, p, hnames, hway, hplace⟩ := h.last
  have hdir := hway _ (foldl_mem_way _ front)
  obtain ⟨heq, hdot, hdots⟩ := further_outside hplace hdir.2
  refine ⟨p, _, heq, hdot, hdots, ?_, ?_, hdir.1⟩
  · rw [hnames, List.getLast?_concat]
  · rw [hnames, List.dropLast_concat]
    exact t.foldlM_way fun q hq => (hway q hq).1

theorem Leads.ne_nil (h : t.Leads path place) : path ≠ [] := by
  rintro rfl
  obtain ⟨front, p, hnames, -⟩ := h.last
  rw [names_nil] at hnames
  exact absurd hnames.symm (List.concat_ne_nil _ _)

theorem Leads.locate (h : t.Leads path place) : t.locate path = .ok place := by
  obtain ⟨p, dir, rfl, hdot, hdots, hlast, hwalk, -⟩ := h.split
  rw [FileTree.locate, if_neg h.ne_nil, hlast]
  simp only [hwalk]
  change Except.ok (further dir p) = _
  rw [further, if_neg hdot, if_neg hdots]

theorem Leads.lstat (h : t.Leads path place) :
    t.lstat path = match t.entry place with
      | none => .error .enoent
      | some e => .ok e := by
  rw [FileTree.lstat, h.locate]
  simp only [bind, Except.bind]
  cases t.entry place with
  | none => rfl
  | some e =>
      cases e with
      | directory => rfl
      | file content => exact if_neg h.plain

/-- A directory that the path leads to can be opened. -/
theorem Leads.resolve (h : t.Leads path place) (hdir : t.entry place = some .directory) :
    t.resolve path = .ok place := by
  obtain ⟨front, p, hnames, hway, hplace⟩ := h.last
  have hall : ∀ q ∈ way (t.start (route path)) (front ++ [p]), t.entry q = some .directory := by
    intro q hq
    rw [way_concat, List.mem_append, List.mem_singleton] at hq
    cases hq with
    | inl hq => exact (hway q hq).1
    | inr hq => rw [hq, ← hplace, hdir]
  rw [FileTree.resolve, if_neg h.ne_nil, walk]
  change (names path).foldlM t.step (t.start (route path)) = _
  rw [hnames, t.foldlM_way hall, List.foldl_concat, ← hplace]

/-- The way stays when something at or below the place is removed. -/
theorem Leads.pruned (h : t.Leads path place) (hprunes : Prunes place' t t')
    (hle : place <:+ place') : t'.Leads path place := by
  obtain ⟨front, p, hnames, hway, hplace⟩ := h.last
  refine ⟨h.plain, front, p, hnames, ?_, ?_⟩
  · rw [start_congr hprunes.cwd]
    intro q hq
    obtain ⟨hdir, hout⟩ := hway q hq
    refine ⟨?_, hout⟩
    rw [hprunes.outside fun hin => hout (hle.trans hin), hdir]
  · rw [start_congr hprunes.cwd]
    exact hplace

/-- What `lstat` finds. -/
theorem lstat_eq_ok {e : Entry} : t.lstat path = .ok e ↔ ∃ place, t.locate path = .ok place ∧
    t.entry place = some e ∧ (e = .directory ∨ path.getLast? ≠ some 47) := by
  constructor
  · intro h
    obtain ⟨place, hlocate, hlast⟩ := ok_of_bind h
    refine ⟨place, hlocate, ?_⟩
    cases hentry : t.entry place with
    | none =>
        rw [hentry] at hlast
        cases hlast
    | some e' =>
        rw [hentry] at hlast
        cases e' with
        | directory =>
            obtain rfl := Except.ok.inj hlast
            exact ⟨rfl, .inl rfl⟩
        | file content =>
            simp only at hlast
            split_ifs at hlast with hslash
            obtain rfl := Except.ok.inj hlast
            exact ⟨rfl, .inr hslash⟩
  · rintro ⟨place, hlocate, hentry, hlast⟩
    unfold lstat
    rw [hlocate]
    simp only [bind, Except.bind]
    rw [hentry]
    cases e with
    | directory => rfl
    | file content => exact if_neg (hlast.resolve_left nofun)

theorem unlink_eq_ok {refuses : Place → Bool} (h : t.unlink refuses path = .ok t') :
    ∃ place content, t.locate path = .ok place ∧ t.entry place = some (.file content) ∧
      path.getLast? ≠ some 47 ∧ refuses place = false ∧ Removes place t t' := by
  obtain ⟨place, hlocate, hrest⟩ := ok_of_bind h
  split at hrest
  · cases hrest
  · cases hrest
  · rename_i content hfile
    split_ifs at hrest with hlast hrefuses
    obtain rfl := Except.ok.inj hrest
    exact ⟨place, content, hlocate, hfile, hlast, Bool.eq_false_iff.mpr hrefuses, rfl, fun q => rfl⟩

theorem unlink_of_file {refuses : Place → Bool} {content : List UInt8}
    (h : t.locate path = .ok place) (hfile : t.entry place = some (.file content))
    (hlast : path.getLast? ≠ some 47) (hrefuses : refuses place = false) :
    ∃ t', t.unlink refuses path = .ok t' ∧ Removes place t t' := by
  unfold unlink
  rw [h]
  simp only [bind, Except.bind]
  split
  · rename_i hnone
    rw [hfile] at hnone
    cases hnone
  · rename_i hdir
    rw [hfile] at hdir
    cases hdir
  · rw [if_neg hlast, hrefuses, if_neg (by decide)]
    exact ⟨_, rfl, rfl, fun q => rfl⟩

/-- What `unlink` does. -/
theorem Leads.unlink_cases (h : t.Leads path place) (refuses : Place → Bool) :
    (∃ e, t.unlink refuses path = .error e ∧
      ¬ ((∃ content, t.entry place = some (.file content)) ∧ refuses place = false)) ∨
    ∃ t', t.unlink refuses path = .ok t' ∧ (∃ content, t.entry place = some (.file content)) ∧
      refuses place = false ∧ Removes place t t' := by
  cases hunlink : t.unlink refuses path with
  | error e =>
      refine .inl ⟨e, rfl, ?_⟩
      rintro ⟨⟨content, hfile⟩, hallowed⟩
      obtain ⟨t', ht', -⟩ := unlink_of_file h.locate hfile h.plain hallowed
      rw [hunlink] at ht'
      cases ht'
  | ok t' =>
      obtain ⟨place', content, hplace, hfile, -, hallowed, hrem⟩ := unlink_eq_ok hunlink
      obtain rfl := Except.ok.inj (h.locate.symm.trans hplace)
      exact .inr ⟨t', rfl, ⟨content, hfile⟩, hallowed, hrem⟩

/-- What `rmdir` does. -/
theorem Leads.rmdir_cases (h : t.Leads path place) (ls : DirListing) (refuses : Place → Bool)
    (hcwd : place ≠ t.cwd) :
    (∃ e, t.rmdir ls refuses path = .error e ∧
      ¬ (t.entry place = some .directory ∧ (∀ name, t.entry (name :: place) = none) ∧
        refuses place = false)) ∨
    ∃ t', t.rmdir ls refuses path = .ok t' ∧ t.entry place = some .directory ∧
      (∀ name, t.entry (name :: place) = none) ∧ refuses place = false ∧ Removes place t t' := by
  obtain ⟨p, dir, hplace, hdot, hdots, hlast, -⟩ := h.split
  have hroot : place ≠ [] := by
    rw [hplace]
    exact List.cons_ne_nil _ _
  have hempty : ls.list t place = [] ↔ ∀ name, t.entry (name :: place) = none := by
    rw [List.eq_nil_iff_forall_not_mem]
    simp only [ls.mem_iff, not_not]
  unfold FileTree.rmdir
  rw [h.locate]
  simp only [bind, Except.bind]
  split
  · rename_i hnone
    refine .inl ⟨_, rfl, ?_⟩
    rintro ⟨hdir, -⟩
    rw [hnone] at hdir
    cases hdir
  · rename_i content hfile
    refine .inl ⟨_, rfl, ?_⟩
    rintro ⟨hdir, -⟩
    rw [hfile] at hdir
    cases hdir
  · rename_i hdir
    rw [if_neg (by rw [hlast]; simp [hdot, hdots])]
    split_ifs with hbusy hrefuses
    · refine .inl ⟨_, rfl, ?_⟩
      rintro ⟨-, hleaf, -⟩
      exact hbusy.elim hroot fun hrest => hrest.elim hcwd fun hlist => hlist (hempty.mpr hleaf)
    · refine .inl ⟨_, rfl, ?_⟩
      rintro ⟨-, -, hfalse⟩
      rw [hrefuses] at hfalse
      cases hfalse
    · refine .inr ⟨_, rfl, hdir, ?_, Bool.eq_false_iff.mpr hrefuses, rfl, fun q => rfl⟩
      apply hempty.mp
      by_contra hlist
      exact hbusy (.inr (.inr hlist))

end leads
end FileTree
end FileSystem
