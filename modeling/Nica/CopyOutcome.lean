import Nica.CopyTree
import Nica.CopyPadding

/-! # What a copy in a tree comes to

When the paths show two places, `nc_copy_file` does to the file at the second one what `ncCopyFile`
does to its content, and nothing to the rest of the tree (`copy_follows_contents`); each round keeps
this (`Mirrors.loop`).  When they show the same file, its content is lost: it is truncated before it
is read, or removed before it is opened (`copy_onto_itself`).  `CopyRun` is what a caller gets from a
call whose reads and writes are complete (`copy_in_tree`). -/

namespace Nica

open Fueled FileSystem PathName FileTree

/-! ### Two places -/

section mirrors
variable {host : CopyHost} {t : FileTree} {source target : Place}
  {content : Bytes} {c : Copy} {d : TreeCopy}

def CopyHost.calls (host : CopyHost) : SystemCalls := ⟨true, true, true, host.read, host.write⟩

/-- `d` does to the file at `target` what `c` does to its content. -/
structure Mirrors (t : FileTree) (target : Place) (content : Bytes) (c : Copy) (d : TreeCopy) :
    Prop where
  left : c.left = content.drop d.offset
  buffer : c.buffer = d.buffer
  reads : c.reads = d.reads
  writes : c.writes = d.writes
  target : ∃ copied, c.target = some copied ∧ Sets target copied t d.tree

theorem Mirrors.read (M : Mirrors t target content c d) (host : CopyHost)
    (hsource : t.fileAt source = some content) (hne : source ≠ target) :
    (c.read host.calls).1 = (d.read host source).1 ∧
      Mirrors t target content (c.read host.calls).2 (d.read host source).2 := by
  obtain ⟨copied, hcopied, hsets⟩ := M.target
  have hfile : d.tree.fileAt source = some content := (hsets.fileAt hne).trans hsource
  unfold Copy.read TreeCopy.read
  rw [hfile, show host.calls.read = host.read from rfl, M.reads]
  cases host.read d.reads with
  | none => exact ⟨rfl, M.left, M.buffer, rfl, M.writes, copied, hcopied, hsets⟩
  | some k =>
      simp only [M.left, List.length_drop, List.drop_drop, M.buffer]
      exact ⟨trivial, rfl, rfl, rfl, M.writes, copied, hcopied, hsets⟩

theorem Mirrors.write (M : Mirrors t target content c d) (host : CopyHost) :
    (c.write host.calls).1 = (d.write host target).1 ∧
      Mirrors t target content (c.write host.calls).2 (d.write host target).2 := by
  obtain ⟨copied, hcopied, hsets⟩ := M.target
  unfold Copy.write TreeCopy.write
  rw [show host.calls.write = host.write from rfl, M.writes]
  cases host.write d.writes with
  | none => exact ⟨rfl, M.left, M.buffer, M.reads, rfl, copied, hcopied, hsets⟩
  | some k =>
      refine ⟨rfl, M.left, M.buffer, M.reads, rfl, _, ?_, hsets.append _⟩
      simp only [hcopied, Option.map_some, M.buffer]

theorem Mirrors.loop (M : Mirrors t target content c d) (host : CopyHost)
    (hsource : t.fileAt source = some content) (hne : source ≠ target) (fuel : ℕ) :
    (copyLoop host.calls fuel c = .error .timeout ∧
      treeLoop host source target fuel d = .error .timeout) ∨
    ∃ ret c' d', copyLoop host.calls fuel c = .ok (ret, c') ∧
      treeLoop host source target fuel d = .ok (ret, d') ∧ Mirrors t target content c' d' := by
  induction fuel generalizing c d with
  | zero => exact .inl ⟨rfl, rfl⟩
  | succ fuel ih =>
      obtain ⟨hread, Mread⟩ := M.read host hsource hne
      unfold copyLoop treeLoop
      cases hc : c.read host.calls with
      | mk r c' =>
          cases hd : d.read host source with
          | mk r' d' =>
              rw [hc, hd] at hread Mread
              simp only at hread Mread
              subst hread
              cases r with
              | none => exact .inr ⟨false, c', d', rfl, rfl, Mread⟩
              | some r =>
                  obtain ⟨hwrite, Mwrite⟩ := Mread.write host
                  simp only
                  rw [hwrite]
                  split_ifs with hw
                  · exact .inr ⟨true, _, _, rfl, rfl, Mwrite⟩
                  · exact ih Mwrite

theorem ncCopyFile_eq_loop (host : CopyHost) (content : Bytes) (old : Option Bytes)
    (removeTarget : Bool) (fuel : ℕ) : ncCopyFile fuel host.calls content old removeTarget =
      copyLoop host.calls fuel (roundState host.calls content 0) :=
  ncCopyFile_opens ⟨by rw [show host.calls.unlink = true from rfl, Bool.not_true, Bool.and_false],
    rfl, rfl⟩ fuel

theorem Mirrors.start {t' : FileTree} (h : Sets target [] t t') (content : Bytes) :
    Mirrors t target content (roundState host.calls content 0) (.start t') :=
  ⟨rfl, rfl, rfl, rfl, [], rfl, h⟩

end mirrors

/-- From the file `f` to the file `d/a`, which is there. -/
theorem copyable_file :
    Copyable .willing treeOfDirectory [102] [100, 47, 97] true [[102]] [[97], [100]]
      (.file [97, 98]) where
  found := rfl
  leads := rfl
  readable := rfl
  plain := by decide
  reaches := rfl
  not_directory := by decide
  writable := rfl
  removable := fun _ _ => ⟨rfl, by decide⟩

/-- When both files can be opened and are at two places, the call returns what it returns on their
contents, and the tree has changed only in the target, which holds what is copied. -/
theorem copy_follows_contents {host : CopyHost} {t : FileTree} {src dst : Chars}
    {removeTarget : Bool} {source target : Place} {content : Bytes}
    (h : Copyable host t src dst removeTarget source target (.file content))
    (hne : source ≠ target) (fuel : ℕ) :
    (ncCopyFile fuel host.calls content (t.fileAt target) removeTarget = .error .timeout ∧
      ncCopyFileTree fuel host src dst removeTarget t = .error .timeout) ∨
    ∃ ret c copied t',
      ncCopyFile fuel host.calls content (t.fileAt target) removeTarget = .ok (ret, c) ∧
      c.target = some copied ∧
      ncCopyFileTree fuel host src dst removeTarget t = .ok (ret, t') ∧
      Sets target copied t t' := by
  rcases ncCopyFileTree_cases host t src dst removeTarget with
    ⟨source', target', e, t', hcopy, hsets, hrun⟩ | ⟨hnot, -⟩
  · obtain rfl := Except.ok.inj (h.leads.symm.trans hcopy.leads)
    obtain rfl := Except.ok.inj (h.reaches.symm.trans hcopy.reaches)
    have hsource : t.fileAt source = some content := h.fileAt
    rw [ncCopyFile_eq_loop, hrun]
    have M : Mirrors t target content (roundState host.calls content 0) (.start t') :=
      .start hsets content
    rcases M.loop host hsource hne fuel with ⟨hloop, hloop'⟩ | ⟨ret, c, d, hloop, hloop', M'⟩
    · rw [hloop, hloop']
      exact .inl ⟨rfl, rfl⟩
    · obtain ⟨copied, hcopied, hsets'⟩ := M'.target
      rw [hloop, hloop']
      exact .inr ⟨ret, c, copied, d.tree, rfl, hcopied, rfl, hsets'⟩
  · exact absurd h (hnot _ _ _)

/-- `f` is copied to `d/a` in one round. -/
theorem copy_follows_contents_file : ∃ ret c copied t',
    ncCopyFile 1 CopyHost.willing.calls [97, 98] (some [99]) true = .ok (ret, c) ∧
      c.target = some copied ∧
      ncCopyFileTree 1 .willing [102] [100, 47, 97] true treeOfDirectory = .ok (ret, t') ∧
      Sets [[97], [100]] copied treeOfDirectory t' := by
  rcases copy_follows_contents copyable_file (by decide) 1 with ⟨h, -⟩ | h
  · cases h
  · exact h

/-! ### One place -/

/-- A file that is read while it is written holds zeros in the end. -/
theorem treeLoop_same {host : CopyHost} {t : FileTree} {target : Place} {c c' : TreeCopy} {fuel : ℕ}
    {ret : Bool} (hsets : Sets target [] t c.tree)
    (hbuffer : c.buffer = List.replicate copyBufferSize 0)
    (h : treeLoop host target target fuel c = .ok (ret, c')) :
    ∃ w ≤ copyBufferSize, Sets target (List.replicate w 0) t c'.tree := by
  induction fuel generalizing c with
  | zero => cases h
  | succ fuel ih =>
      unfold treeLoop at h
      rw [read_empty hsets.here] at h
      obtain ⟨d, hd⟩ : ∃ d : TreeCopy, d = { c with reads := c.reads + 1 } := ⟨_, rfl⟩
      have htree : d.tree = c.tree := by rw [hd]
      rw [← hd] at h
      rw [← htree] at hsets
      rw [show c.buffer = d.buffer by rw [hd]] at hbuffer
      cases hread : host.read c.reads with
      | none =>
          rw [hread] at h
          obtain ⟨-, rfl⟩ := Prod.mk.inj (Except.ok.inj h)
          exact ⟨0, Nat.zero_le _, hsets⟩
      | some k =>
          rw [hread] at h
          simp only [Option.map_some] at h
          cases hwrite : host.write d.writes with
          | none =>
              rw [write_refused hwrite] at h
              obtain ⟨-, rfl⟩ := Prod.mk.inj (Except.ok.inj h)
              exact ⟨0, Nat.zero_le _, hsets⟩
          | some k =>
              have hstep := hsets.append (d.buffer.take (min k copyBufferSize))
              rw [List.nil_append, hbuffer, List.take_replicate] at hstep
              rw [write_granted hwrite, hbuffer, List.take_replicate] at h
              simp only at h
              split_ifs at h with hw
              · obtain ⟨-, rfl⟩ := Prod.mk.inj (Except.ok.inj h)
                exact ⟨_, min_le_right _ _, hstep⟩
              · -- nothing was written
                have hzero := Option.some.inj (not_not.mp hw)
                rw [hzero, Nat.zero_min, List.replicate_zero] at hstep h
                exact ih hstep rfl h

/-- A call with two paths of the same file is refused before it does anything, or the file is removed,
or what it holds in the end are zeros, whatever it held: then it has kept its content only if that was
these zeros. -/
theorem copy_onto_itself {host : CopyHost} {t t' : FileTree} {src dst : Chars} {removeTarget : Bool}
    {place : Place} {content : Bytes} (hsrc : t.locate src = .ok place)
    (hdst : t.locate dst = .ok place) (hfile : t.entry place = some (.file content)) {fuel : ℕ}
    {ret : Bool} (hrun : ncCopyFileTree fuel host src dst removeTarget t = .ok (ret, t')) :
    (ret = false ∧ t' = t) ∨
    (removeTarget = true ∧ ret = false ∧ Removes place t t') ∨
    (removeTarget = false ∧ ∃ w ≤ copyBufferSize, Sets place (List.replicate w 0) t t' ∧
      (t'.entry place = t.entry place ↔ content = List.replicate w 0)) := by
  rcases ncCopyFileTree_cases host t src dst removeTarget with
    ⟨source, target, e, t'', hcopy, hsets, hloop⟩ | ⟨-, t'', hfalse, hwhy⟩
  · obtain rfl := Except.ok.inj (hsrc.symm.trans hcopy.leads)
    obtain rfl := Except.ok.inj (hdst.symm.trans hcopy.reaches)
    have hkeep : removeTarget = false := by
      by_contra hremove
      refine (hcopy.removable (Bool.eq_true_of_not_eq_false hremove) ?_).2 rfl
      rw [hfile]
      exact Option.some_ne_none _
    rw [hloop] at hrun
    obtain ⟨⟨r, c⟩, hr, hlast⟩ := ok_of_bind hrun
    obtain ⟨-, rfl⟩ := Prod.mk.inj (Except.ok.inj hlast)
    obtain ⟨w, hw, hzeros⟩ := treeLoop_same hsets rfl hr
    refine .inr (.inr ⟨hkeep, w, hw, hzeros, ?_⟩)
    rw [hzeros.entry, if_pos rfl, hfile, Option.some.injEq, Entry.file.injEq, eq_comm]
  · obtain ⟨rfl, rfl⟩ := Prod.mk.inj (Except.ok.inj ((hfalse fuel).symm.trans hrun))
    cases hwhy with
    | inl h => exact .inl ⟨rfl, h⟩
    | inr h =>
        obtain ⟨hremove, target, _, htarget, -, hrem⟩ := h
        obtain rfl := Except.ok.inj (hdst.symm.trans htarget)
        exact .inr (.inl ⟨hremove, rfl, hrem⟩)

/-- `f` to `./f`: the file is removed first, or loses what it holds. -/
theorem copy_onto_itself_file :
    (∃ t', ncCopyFileTree 1 .willing [102] [46, 47, 102] true treeOfDirectory = .ok (false, t') ∧
      t'.entry [[102]] = none) ∧
    ∃ t' w, ncCopyFileTree 1 .willing [102] [46, 47, 102] false treeOfDirectory = .ok (true, t') ∧
      t'.entry [[102]] = some (.file (List.replicate w 0)) := by
  have hsrc : treeOfDirectory.locate [102] = .ok [[102]] := rfl
  have hdst : treeOfDirectory.locate [46, 47, 102] = .ok [[102]] := rfl
  have hfile : treeOfDirectory.entry [[102]] = some (.file [97, 98]) := rfl
  constructor
  · have hrun : ∃ t', ncCopyFileTree 1 .willing [102] [46, 47, 102] true treeOfDirectory =
        .ok (false, t') ∧ t' ≠ treeOfDirectory := by
      refine ⟨_, rfl, fun h => ?_⟩
      have hentry := congrArg (fun t => t.entry [[102]]) h
      cases hentry
    obtain ⟨t', hrun, hne⟩ := hrun
    rcases copy_onto_itself hsrc hdst hfile hrun with ⟨-, h⟩ | ⟨-, -, hrem⟩ | ⟨h, -⟩
    · exact absurd h hne
    · exact ⟨t', hrun, by rw [hrem.entry, if_pos rfl]⟩
    · cases h
  · obtain ⟨t', hrun⟩ : ∃ t', ncCopyFileTree 1 .willing [102] [46, 47, 102] false treeOfDirectory =
        .ok (true, t') := ⟨_, rfl⟩
    rcases copy_onto_itself hsrc hdst hfile hrun with ⟨h, -⟩ | ⟨h, -⟩ | ⟨-, w, -, hsets, -⟩
    · cases h
    · cases h
    · exact ⟨t', w, hrun, by rw [hsets.entry, if_pos rfl]⟩

/-! ### Complete reads and writes -/

/-- What a call does when each `read` and each `write` takes as much as it can. -/
structure CopyRun (host : CopyHost) (t : FileTree) (src dst : Chars) (removeTarget ret : Bool)
    (t' : FileTree) : Prop where
  cwd : t'.cwd = t.cwd
  elsewhere : ∀ q, t.locate dst ≠ .ok q → t'.entry q = t.entry q
  copied_iff : ret = true ↔ ∃ source target content,
    Copyable host t src dst removeTarget source target (.file content)
  copied : ∀ source target content,
    Copyable host t src dst removeTarget source target (.file content) →
      t'.entry target = some (.file (if source = target then List.replicate copyBufferSize 0
        else content ++ padding content))
  failed : ret = false → ∀ target, t.locate dst = .ok target →
    t'.entry target = t.entry target ∨ (removeTarget = true ∧ t'.entry target = none) ∨
      (∃ source, Copyable host t src dst removeTarget source target .directory) ∧
        t'.entry target = some (.file [])

section outcome
variable {host : CopyHost} {t t' : FileTree} {src dst : Chars} {removeTarget : Bool}
  {source target : Place} {e : Entry}

theorem Copyable.unique (h : Copyable host t src dst removeTarget source target e)
    {source' target' : Place} {e' : Entry}
    (h' : Copyable host t src dst removeTarget source' target' e') :
    source' = source ∧ target' = target ∧ e' = e :=
  ⟨Except.ok.inj (h'.leads.symm.trans h.leads), Except.ok.inj (h'.reaches.symm.trans h.reaches),
    Except.ok.inj (h'.found.symm.trans h.found)⟩

theorem CopyRun.of_file {content copied : Bytes}
    (h : Copyable host t src dst removeTarget source target (.file content))
    (hsets : Sets target copied t t') (hcopied : copied =
      if source = target then List.replicate copyBufferSize 0 else content ++ padding content) :
    CopyRun host t src dst removeTarget true t' where
  cwd := hsets.cwd
  elsewhere q hq := by
    rw [hsets.entry, if_neg]
    rintro rfl
    exact hq h.reaches
  copied_iff := iff_of_true rfl ⟨source, target, content, h⟩
  copied source' target' content' h' := by
    obtain ⟨rfl, rfl, hsame⟩ := h.unique h'
    obtain rfl := Entry.file.inj hsame
    rw [hsets.entry, if_pos rfl, hcopied]
  failed := nofun

/-- The source is a directory, which cannot be read. -/
theorem CopyRun.of_directory (h : Copyable host t src dst removeTarget source target .directory)
    (hsets : Sets target [] t t') : CopyRun host t src dst removeTarget false t' where
  cwd := hsets.cwd
  elsewhere q hq := by
    rw [hsets.entry, if_neg]
    rintro rfl
    exact hq h.reaches
  copied_iff := by
    refine iff_of_false Bool.false_ne_true ?_
    rintro ⟨source', target', content, h'⟩
    cases (h.unique h').2.2
  copied source' target' content h' := by cases (h.unique h').2.2
  failed _ target' htarget := by
    obtain rfl := Except.ok.inj (h.reaches.symm.trans htarget)
    refine .inr (.inr ⟨⟨source, h⟩, ?_⟩)
    rw [hsets.entry, if_pos rfl]

theorem CopyRun.of_refused
    (hnot : ∀ source target e, ¬ Copyable host t src dst removeTarget source target e)
    (hwhy : t' = t ∨ removeTarget = true ∧ ∃ target content, t.locate dst = .ok target ∧
      t.entry target = some (.file content) ∧ Removes target t t') :
    CopyRun host t src dst removeTarget false t' := by
  refine ⟨?_, fun q hq => ?_, ?_, fun _ _ _ h => absurd h (hnot _ _ _), fun _ target htarget => ?_⟩
  · rcases hwhy with rfl | ⟨-, target, content, -, -, hrem⟩
    · rfl
    · exact hrem.cwd
  · rcases hwhy with rfl | ⟨-, target, content, htarget, -, hrem⟩
    · rfl
    · rw [hrem.entry, if_neg]
      rintro rfl
      exact hq htarget
  · refine iff_of_false Bool.false_ne_true ?_
    rintro ⟨source, target, content, h⟩
    exact hnot _ _ _ h
  · rcases hwhy with rfl | ⟨hremove, target', content, htarget', -, hrem⟩
    · exact .inl rfl
    · obtain rfl := Except.ok.inj (htarget.symm.trans htarget')
      exact .inr (.inl ⟨hremove, by rw [hrem.entry, if_pos rfl]⟩)

end outcome

/-- When each `read` and each `write` takes as much as it can, a call returns true exactly when the
first path shows a file and both files can be opened.  The target then holds the source and what the
buffer still held, or zeros when it is the source; otherwise it is as it was, removed or, if the
first path shows a directory, empty.  Nothing else has changed. -/
theorem copy_in_tree {host : CopyHost} (G : Generous host.calls) (t : FileTree) (src dst : Chars)
    (removeTarget : Bool) : ∃ ret t',
      Returns (fun f => ncCopyFileTree f host src dst removeTarget t) (ret, t') ∧
        CopyRun host t src dst removeTarget ret t' := by
  rcases ncCopyFileTree_cases host t src dst removeTarget with
    ⟨source, target, e, t', hcopy, hsets, hrun⟩ | ⟨hnot, t', hfalse, hwhy⟩
  · cases e with
    | directory =>
        have hne : source ≠ target := by
          rintro rfl
          exact hcopy.not_directory hcopy.entry
        have hdir : t'.fileAt source = none := by
          rw [hsets.fileAt hne, FileTree.fileAt, hcopy.entry]
        have hloop : treeLoop host source target 1 (.start t') =
            .ok (false, { TreeCopy.start t' with reads := 1 }) := by
          rw [treeLoop, read_unreadable hdir]
          rfl
        exact ⟨false, t', returns_of_loop hrun hloop, .of_directory hcopy hsets⟩
    | file content =>
        by_cases hsame : source = target
        · subst hsame
          obtain ⟨k, hk, -⟩ := G.read 0
          obtain ⟨w, hw, hle⟩ := G.write 0
          have hfull : min w copyBufferSize = copyBufferSize := Nat.min_eq_right hle
          have hloop : treeLoop host source source 1 (.start t') = .ok (true,
              ⟨t'.append source (List.replicate copyBufferSize 0), 0,
                List.replicate copyBufferSize 0, 1, 1⟩) := by
            have hread : host.read (TreeCopy.start t').reads = some k := hk
            have hwrite : host.write { TreeCopy.start t' with reads := 1 }.writes = some w := hw
            have hne : some copyBufferSize ≠ some 0 := by decide
            rw [treeLoop, read_empty hsets.here, hread]
            simp only [Option.map_some]
            rw [show (TreeCopy.start t').reads + 1 = 1 from rfl, write_granted hwrite, hfull,
              if_pos hne]
            simp only [TreeCopy.start, List.take_replicate, min_self]
          have hsets' := hsets.append (List.replicate copyBufferSize 0)
          rw [List.nil_append] at hsets'
          refine ⟨true, _, returns_of_loop hrun hloop, .of_file hcopy hsets' ?_⟩
          rw [if_pos rfl]
        · obtain ⟨c, hc, hcopied⟩ := G.loop content
          obtain ⟨fuel, hfuel⟩ := hc.exists
          have M : Mirrors t target content (roundState host.calls content 0) (.start t') :=
            .start hsets content
          rcases M.loop host hcopy.fileAt hsame fuel with ⟨htime, -⟩ |
            ⟨ret, c', d, hc', hd, M'⟩
          · rw [hfuel] at htime
            cases htime
          · obtain ⟨rfl, rfl⟩ := Prod.mk.inj (Except.ok.inj (hfuel.symm.trans hc'))
            obtain ⟨copied, hcopied', hsets'⟩ := M'.target
            obtain rfl := Option.some.inj (hcopied'.symm.trans hcopied)
            refine ⟨true, d.tree, returns_of_loop hrun hd, .of_file hcopy hsets' ?_⟩
            rw [if_neg hsame]
  · exact ⟨false, t', Filter.Eventually.of_forall hfalse, .of_refused hnot hwhy⟩

/-- `f` is copied to `d/a`, which gets a whole buffer. -/
theorem copy_in_tree_file : ∃ t',
    Returns (fun f => ncCopyFileTree f .willing [102] [100, 47, 97] true treeOfDirectory) (true, t') ∧
      t'.entry [[97], [100]] = some (.file ([97, 98] ++ padding [97, 98])) ∧
      t'.entry [[102]] = some (.file [97, 98]) := by
  have G : Generous CopyHost.willing.calls :=
    ⟨rfl, rfl, rfl, fun _ => ⟨_, rfl, le_rfl⟩, fun _ => ⟨_, rfl, le_rfl⟩⟩
  obtain ⟨ret, t', hr, hrun⟩ := copy_in_tree G treeOfDirectory [102] [100, 47, 97] true
  obtain rfl := hrun.copied_iff.mpr ⟨_, _, _, copyable_file⟩
  refine ⟨t', hr, hrun.copied _ _ _ copyable_file, ?_⟩
  apply hrun.elsewhere
  rw [copyable_file.reaches]
  decide

end Nica
