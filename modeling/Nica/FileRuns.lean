import Nica.CopyTree

/-! # Runs of file calls

Calls of `nc_mkdir_p`, `nc_rm_rf` and `nc_copy_file` on one tree, in any order and whatever each of
them returns (`runCalls`).  One call does what `Moves` says, and so does a run: it keeps every entry
that is not at or below a place that is removed and is no file at the place of a target, and what is
new in the end are directories along the paths that are made and files at the places of targets
(`run_moves`). -/

namespace Nica

open Fueled FileSystem PathName FileTree

/-- What the system allows to all calls. -/
structure DiskHost extends FileHost, CopyHost

/-- A call; `errno` is what the process finds there. -/
inductive FileCall where
  | mkdirP (path : Chars) (errno : Errno)
  | rmRf (path : Chars)
  | copyFile (src dst : Chars) (removeTarget : Bool)

def FileCall.call (host : DiskHost) (fuel : ℕ) (t : FileTree) :
    FileCall → Except Fault (Bool × FileTree)
  | .mkdirP path errno => do
      let (made, s) ← ncMkdirP host.refusesMkdir fuel path ⟨t, errno⟩
      .ok (made, s.tree)
  | .rmRf path => ncRmRf host.ls host.refusesRemoval host.unreadable fuel path t
  | .copyFile src dst removeTarget =>
      ncCopyFileTree fuel host.toCopyHost src dst removeTarget t

/-- The calls in order, with what they return. -/
def runCalls (host : DiskHost) (fuel : ℕ) :
    List FileCall → FileTree → Except Fault (List Bool × FileTree)
  | [], t => .ok ([], t)
  | call :: calls, t => do
      let (result, t) ← call.call host fuel t
      let (results, t) ← runCalls host fuel calls t
      .ok (result :: results, t)

/-- The paths to remove end in a name, and neither the way there nor the working directory is in
what they name. -/
def Safe (calls : List FileCall) (t : FileTree) : Prop :=
  ∀ path, .rmRf path ∈ calls → t.Apart path ∧ ∃ p, EndsIn path p

/-! ### Where a call works -/

namespace FileCall
variable (t : FileTree) (q : Place)

/-- The place is at or below one that the call removes. -/
def Clears : FileCall → Prop
  | .rmRf path => t.lexical path <:+ q
  | _ => False

/-- The call makes a directory at the place. -/
def Reaches : FileCall → Prop
  | .mkdirP path _ => ∃ r, r <+: path ∧ t.lexical r = q
  | _ => False

/-- The call writes a file at the place. -/
def Writes : FileCall → Prop
  | .copyFile _ dst _ => t.lexical dst = q
  | _ => False

variable {t q}

theorem clears_congr {t' : FileTree} (h : t'.cwd = t.cwd) (call : FileCall) :
    call.Clears t' q ↔ call.Clears t q := by
  cases call <;> simp only [Clears, lexical_congr h]

theorem reaches_congr {t' : FileTree} (h : t'.cwd = t.cwd) (call : FileCall) :
    call.Reaches t' q ↔ call.Reaches t q := by
  cases call <;> simp only [Reaches, lexical_congr h]

theorem writes_congr {t' : FileTree} (h : t'.cwd = t.cwd) (call : FileCall) :
    call.Writes t' q ↔ call.Writes t q := by
  cases call <;> simp only [Writes, lexical_congr h]

end FileCall

/-- What calls do to a tree. -/
structure Moves (calls : List FileCall) (t t' : FileTree) : Prop where
  cwd : t'.cwd = t.cwd
  kept : ∀ q e, t.entry q = some e → (∀ call ∈ calls, ¬ call.Clears t q) →
    (∀ call ∈ calls, call.Writes t q → e = .directory) → t'.entry q = some e
  fresh : ∀ q e, t'.entry q = some e → t.entry q = some e ∨
    (e = .directory ∧ ∃ call ∈ calls, call.Reaches t q) ∨
    (∃ content, e = .file content) ∧ ∃ call ∈ calls, call.Writes t q

/-! ### One call -/

section moves
variable {calls : List FileCall} {call : FileCall} {t t' t'' : FileTree} {path dst : Chars}

theorem Moves.nil (t : FileTree) : Moves [] t t :=
  ⟨rfl, fun _ _ h _ _ => h, fun _ _ h => .inl h⟩

theorem Moves.of_grows {errno : Errno} (hgrows : Grows path t t') :
    Moves [.mkdirP path errno] t t' where
  cwd := hgrows.cwd
  kept q e he _ _ := hgrows.kept q e he
  fresh q e he := by
    cases hold : t.entry q with
    | some e' =>
        left
        rw [← he, hgrows.kept q e' hold]
    | none =>
        right
        left
        have hsome : t'.entry q ≠ none := by
          rw [he]
          exact Option.some_ne_none e
        obtain ⟨hdir, r, hr, hresolve⟩ := hgrows.fresh q hold hsome
        rw [he] at hdir
        refine ⟨Option.some.inj hdir, _, List.mem_cons_self, r, hr, ?_⟩
        rw [← lexical_congr hgrows.cwd]
        exact (t'.resolve_ok hresolve).1.symm

theorem Moves.of_prunes (hprunes : Prunes (t.lexical path) t t') : Moves [.rmRf path] t t' where
  cwd := hprunes.cwd
  kept q e he hout _ := by
    rw [hprunes.outside (hout _ List.mem_cons_self), he]
  fresh q e he := by
    left
    rw [← hprunes.entry_ne_none (by rw [he]; exact Option.some_ne_none e), he]

/-- The place that a path shows is that of its names. -/
theorem locate_eq_lexical {place : Place} (h : t.locate path = .ok place) :
    place = t.lexical path := by
  obtain rfl | ⟨n, rfl⟩ | ⟨p, hend⟩ := path_ends path
  · cases h
  · have hroot := locate_directory (t.isDirectory_slashes n)
    exact Except.ok.inj (h.symm.trans hroot)
  · exact locate_lexical hend h

theorem Moves.of_touches {src : Chars} {removeTarget : Bool} (htouches : Touches dst t t') :
    Moves [.copyFile src dst removeTarget] t t' where
  cwd := htouches.cwd
  kept q e he _ hdir := by
    by_cases hq : t.locate dst = .ok q
    · cases htouches.here q hq with
      | inl hsame => rw [hsame, he]
      | inr hfile =>
          have hplace := locate_eq_lexical hq
          rw [he, hdir _ List.mem_cons_self hplace.symm] at hfile
          exact absurd rfl hfile.1
    · rw [htouches.elsewhere q hq, he]
  fresh q e he := by
    by_cases hq : t.locate dst = .ok q
    · cases htouches.here q hq with
      | inl hsame =>
          left
          rw [← hsame, he]
      | inr hfile =>
          right
          right
          exact ⟨hfile.2 e he, _, List.mem_cons_self, (locate_eq_lexical hq).symm⟩
    · left
      rw [← htouches.elsewhere q hq, he]

/-- One call, whatever it returns. -/
theorem FileCall.moves {host : DiskHost} (hwrites : ∀ n, host.write n ≠ some 0) (call : FileCall)
    (hsafe : Safe [call] t) : ∃ result t',
      Returns (fun fuel => call.call host fuel t) (result, t') ∧
        Moves [call] t t' := by
  cases call with
  | mkdirP path errno =>
      obtain ⟨made, s', hrun, R⟩ := ncMkdirP_run host.refusesMkdir path ⟨t, errno⟩
      refine ⟨made, s'.tree, ?_, .of_grows R.grows⟩
      exact hrun.bind (g := fun x _ => .ok (x.1, x.2.tree)) (.pure _)
  | rmRf path =>
      obtain ⟨hapart, p, hend⟩ := hsafe path List.mem_cons_self
      obtain ⟨removed, t', hrun, R⟩ :=
        ncRmRf_run host.ls host.refusesRemoval host.unreadable hend hapart
      exact ⟨removed, t', hrun, .of_prunes R.prunes⟩
  | copyFile src dst removeTarget =>
      have hcopy : ∀ n, host.toCopyHost.write n ≠ some 0 := hwrites
      obtain ⟨ret, t', hrun, htouches⟩ := ncCopyFileTree_ends hcopy t src dst removeTarget
      exact ⟨ret, t', hrun, .of_touches htouches⟩

/-! ### Runs -/

/-- One call and then the others. -/
theorem Moves.cons (hfirst : Moves [call] t t') (hrest : Moves calls t' t'') :
    Moves (call :: calls) t t'' where
  cwd := hrest.cwd.trans hfirst.cwd
  kept q e he hclears hwrites := by
    rw [List.forall_mem_cons] at hclears hwrites
    have hmid := hfirst.kept q e he (List.forall_mem_singleton.mpr hclears.1)
      (List.forall_mem_singleton.mpr hwrites.1)
    apply hrest.kept q e hmid
    · intro c hc
      rw [c.clears_congr hfirst.cwd]
      exact hclears.2 c hc
    · intro c hc
      rw [c.writes_congr hfirst.cwd]
      exact hwrites.2 c hc
  fresh q e he := by
    rcases hrest.fresh q e he with hmid | ⟨hdir, c, hc, hreaches⟩ | ⟨hfile, c, hc, hwrites⟩
    · rcases hfirst.fresh q e hmid with hold | ⟨hdir, c, hc, hreaches⟩ | ⟨hfile, c, hc, hwrites⟩
      · exact .inl hold
      · rw [List.mem_singleton] at hc
        exact .inr (.inl ⟨hdir, c, hc ▸ List.mem_cons_self, hreaches⟩)
      · rw [List.mem_singleton] at hc
        exact .inr (.inr ⟨hfile, c, hc ▸ List.mem_cons_self, hwrites⟩)
    · rw [c.reaches_congr hfirst.cwd] at hreaches
      exact .inr (.inl ⟨hdir, c, List.mem_cons_of_mem _ hc, hreaches⟩)
    · rw [c.writes_congr hfirst.cwd] at hwrites
      exact .inr (.inr ⟨hfile, c, List.mem_cons_of_mem _ hc, hwrites⟩)

end moves

/-- When no `write` takes nothing, every run ends.  It keeps what is outside the places that are
removed and is not written, and what is new in the end are directories along the paths that are made
and files at the places that are written. -/
theorem run_moves {host : DiskHost} (hwrites : ∀ n, host.write n ≠ some 0) (calls : List FileCall)
    {t : FileTree} (hsafe : Safe calls t) : ∃ results t',
      Returns (fun fuel => runCalls host fuel calls t) (results, t') ∧
        Moves calls t t' := by
  induction calls generalizing t with
  | nil => exact ⟨[], t, .pure _, .nil t⟩
  | cons call calls ih =>
      have hfirst : Safe [call] t := by
        intro path hmem
        rw [List.mem_singleton] at hmem
        exact hsafe path (hmem ▸ List.mem_cons_self)
      obtain ⟨result, t', hcall, hmoves⟩ := call.moves hwrites hfirst
      have hrest : Safe calls t' := by
        intro path hmem
        rw [apart_congr hmoves.cwd]
        exact hsafe path (List.mem_cons_of_mem _ hmem)
      obtain ⟨results, t'', hrun, hmoves'⟩ := ih hrest
      refine ⟨result :: results, t'', ?_, hmoves.cons hmoves'⟩
      apply hcall.bind (g := fun x fuel => do
        let (results, t) ← runCalls host fuel calls x.2
        .ok (x.1 :: results, t))
      exact hrun.bind (g := fun x _ => .ok (result :: x.1, x.2)) (.pure _)

/-- The system refuses nothing, and each call of the copy takes a whole buffer. -/
noncomputable def DiskHost.willing : DiskHost :=
  { FileHost.willing, CopyHost.willing with }

/-- `f` is copied to `d/a`, `d` is removed, and then made again. -/
theorem run_moves_directory : ∃ results t',
    Returns (fun fuel => runCalls .willing fuel
      [.copyFile [102] [100, 47, 97] false, .rmRf [100], .mkdirP [100] .other] treeOfDirectory)
        (results, t') ∧
      Moves [.copyFile [102] [100, 47, 97] false, .rmRf [100], .mkdirP [100] .other] treeOfDirectory
        t' := by
  apply run_moves fun n => by nofun
  intro path hmem
  have hpath : path = [100] := by simpa using hmem
  rw [hpath]
  exact ⟨treeOfDirectory_apart, [100], endsIn_single (by decide)⟩

end Nica
