import Nica.CopyFile
import Nica.FileParent
import Nica.FileOpening

/-! # Copying in a tree

`nc_copy_file` on a tree of directories and files, where the two paths are looked up and the source
is read while the target is written.  What the system refuses, and how much each `read` and each
`write` takes, is given (`CopyHost`).

Either both files are opened, the target being empty then, or nothing has changed but that the
target may be removed (`ncCopyFileTree_cases`).  Each round but the last one reads more of the
source, so the call ends unless some `write` takes nothing, and it touches nothing but the target
(`ncCopyFileTree_ends`). -/

namespace Nica

open Fueled FileSystem PathName FileTree

/-- What the system allows, and how much each `read` and each `write` takes; `unwritable` is asked
whether the file is there, too. -/
structure CopyHost where
  refusesRemoval : Place → Bool
  unreadable : Place → Bool
  unwritable : Bool → Place → Bool
  read : ℕ → Option ℕ
  write : ℕ → Option ℕ

/-- Nothing is refused, and each call takes a whole buffer. -/
def CopyHost.willing : CopyHost :=
  ⟨fun _ => false, fun _ => false, fun _ _ => false, fun _ => some copyBufferSize,
    fun _ => some copyBufferSize⟩

/-- The tree, how far the source was read, the buffer, and how many calls of `read` and of `write`
were made. -/
structure TreeCopy where
  tree : FileTree
  offset : ℕ
  buffer : Bytes
  reads : ℕ
  writes : ℕ

/-- `read(src_fd, &buffer, sizeof(buffer))`; a directory that is open cannot be read. -/
def TreeCopy.read (c : TreeCopy) (host : CopyHost) (source : Place) : Option ℕ × TreeCopy :=
  match host.read c.reads, c.tree.fileAt source with
  | some k, some content =>
      let r := delivered k (content.length - c.offset)
      (some r,
        { c with
          offset := c.offset + r
          buffer := (content.drop c.offset).take r ++ c.buffer.drop r
          reads := c.reads + 1 })
  | _, _ => (none, { c with reads := c.reads + 1 })

/-- `write(dest_fd, buffer, sizeof(buffer))`. -/
def TreeCopy.write (c : TreeCopy) (host : CopyHost) (target : Place) : Option ℕ × TreeCopy :=
  match host.write c.writes with
  | none => (none, { c with writes := c.writes + 1 })
  | some k =>
      let w := min k copyBufferSize
      (some w,
        { c with
          tree := c.tree.append target (c.buffer.take w)
          writes := c.writes + 1 })

/-- The loop of `nc_copy_file`. -/
def treeLoop (host : CopyHost) (source target : Place) :
    ℕ → TreeCopy → Except Fault (Bool × TreeCopy)
  | 0, _ => .error .timeout
  | fuel + 1, c =>
      match c.read host source with
      | (none, c) => .ok (false, c)
      | (some r, c) =>
          match c.write host target with
          | (w, c) => if w ≠ some r then .ok (true, c) else treeLoop host source target fuel c

/-- The state before the first round. -/
def TreeCopy.start (t : FileTree) : TreeCopy := ⟨t, 0, List.replicate copyBufferSize 0, 0, 0⟩

/-- What follows the removal of the target. -/
def openAndCopy (fuel : ℕ) (host : CopyHost) (src dst : Chars) (t : FileTree) :
    Except Fault (Bool × FileTree) :=
  match t.openRead host.unreadable src with
  | .error _ => .ok (false, t)
  | .ok source =>
      match t.openAppend host.unwritable dst with
      | .error _ => .ok (false, t)
      | .ok (target, t) => do
          let (ret, c) ← treeLoop host source target fuel (.start t)
          .ok (ret, c.tree)

/-- `nc_copy_file` on a tree. -/
def ncCopyFileTree (fuel : ℕ) (host : CopyHost) (src dst : Chars) (removeTarget : Bool)
    (t : FileTree) : Except Fault (Bool × FileTree) :=
  if removeTarget && ncFileExists dst t then
    match t.unlink host.refusesRemoval dst with
    | .error _ => .ok (false, t)
    | .ok t => openAndCopy fuel host src dst t
  else openAndCopy fuel host src dst t

/-! ### Opening the two files -/

section opening
variable {host : CopyHost} {t t' : FileTree} {src dst : Chars} {removeTarget : Bool}
  {source target : Place} {e : Entry}

/-- Both files can be opened; `e` is what the first path shows. -/
structure Openable (host : CopyHost) (t : FileTree) (src dst : Chars) (source target : Place)
    (e : Entry) : Prop where
  found : t.lstat src = .ok e
  leads : t.locate src = .ok source
  readable : host.unreadable source = false
  writable : Writable host.unwritable t dst target

/-- Either the loop starts, with an empty target, or the tree stays as it is. -/
theorem openAndCopy_cases (host : CopyHost) (t : FileTree) (src dst : Chars) :
    (∃ source target e t', Openable host t src dst source target e ∧ Sets target [] t t' ∧
      ∀ fuel, openAndCopy fuel host src dst t =
        treeLoop host source target fuel (.start t') >>= fun x => .ok (x.1, x.2.tree)) ∨
    (∀ source target e, ¬ Openable host t src dst source target e) ∧
      ∀ fuel, openAndCopy fuel host src dst t = .ok (false, t) := by
  unfold openAndCopy
  cases hread : t.openRead host.unreadable src with
  | error err =>
      refine .inr ⟨fun source target e h => ?_, fun fuel => rfl⟩
      rw [openRead_eq_ok.mpr ⟨e, h.found, h.leads, h.readable⟩] at hread
      cases hread
  | ok source =>
      obtain ⟨e, hfound, hsource, hreadable⟩ := openRead_eq_ok.mp hread
      cases hopen : t.openAppend host.unwritable dst with
      | error err =>
          refine .inr ⟨fun source target e h => ?_, fun fuel => rfl⟩
          obtain ⟨t', ht', -⟩ := h.writable.openAppend
          rw [ht'] at hopen
          cases hopen
      | ok opened =>
          obtain ⟨target, t'⟩ := opened
          obtain ⟨hwritable, hsets⟩ := openAppend_eq_ok hopen
          exact .inl ⟨source, target, e, t', ⟨hfound, hsource, hreadable, hwritable⟩, hsets,
            fun fuel => rfl⟩

/-- Both files can be opened once the second one is removed, if it has to be. -/
structure Copyable (host : CopyHost) (t : FileTree) (src dst : Chars) (removeTarget : Bool)
    (source target : Place) (e : Entry) : Prop where
  found : t.lstat src = .ok e
  leads : t.locate src = .ok source
  readable : host.unreadable source = false
  plain : dst.getLast? ≠ some 47
  reaches : t.locate dst = .ok target
  not_directory : t.entry target ≠ some .directory
  writable : host.unwritable (!removeTarget && (t.entry target).isSome) target = false
  removable : removeTarget = true → t.entry target ≠ none →
    host.refusesRemoval target = false ∧ source ≠ target

/-- The file that the first path shows. -/
theorem Copyable.entry (h : Copyable host t src dst removeTarget source target e) :
    t.entry source = some e := by
  obtain ⟨place, hplace, hentry, -⟩ := lstat_eq_ok.mp h.found
  obtain rfl := Except.ok.inj (h.leads.symm.trans hplace)
  exact hentry

theorem Copyable.fileAt {content : Bytes}
    (h : Copyable host t src dst removeTarget source target (.file content)) :
    t.fileAt source = some content := fileAt_eq_some _ |>.mpr h.entry

theorem exists_iff (hplain : dst.getLast? ≠ some 47) (htarget : t.locate dst = .ok target) :
    ncFileExists dst t = true ↔ t.entry target ≠ none := by
  rw [ncFileExists_iff]
  constructor
  · rintro ⟨e, h⟩
    obtain ⟨place, hplace, hentry, -⟩ := lstat_eq_ok.mp h
    obtain rfl := Except.ok.inj (htarget.symm.trans hplace)
    rw [hentry]
    exact Option.some_ne_none e
  · intro h
    obtain ⟨e, hentry⟩ := Option.ne_none_iff_exists'.mp h
    exact ⟨e, lstat_eq_ok.mpr ⟨target, htarget, hentry, .inr hplain⟩⟩

/-- Nothing is to be removed. -/
theorem copyable_of_stays (hstays : (removeTarget && ncFileExists dst t) = false) :
    Copyable host t src dst removeTarget source target e ↔
      Openable host t src dst source target e := by
  have hnone : removeTarget = true → dst.getLast? ≠ some 47 → t.locate dst = .ok target →
      t.entry target = none := by
    intro hremove hplain htarget
    by_contra h
    rw [hremove, (exists_iff hplain htarget).mpr h] at hstays
    cases hstays
  have hflag : dst.getLast? ≠ some 47 → t.locate dst = .ok target →
      (!removeTarget && (t.entry target).isSome) = (t.entry target).isSome := by
    intro hplain htarget
    cases hremove : removeTarget with
    | false => rfl
    | true => rw [hnone hremove hplain htarget]; rfl
  constructor
  · intro h
    refine ⟨h.found, h.leads, h.readable, h.plain, h.reaches, h.not_directory, ?_⟩
    rw [← hflag h.plain h.reaches]
    exact h.writable
  · intro h
    obtain ⟨hplain, htarget, hnot, hallowed⟩ := h.writable
    refine ⟨h.found, h.leads, h.readable, hplain, htarget, hnot, ?_, fun hremove hthere => ?_⟩
    · rw [hflag hplain htarget]
      exact hallowed
    · exact absurd (hnone hremove hplain htarget) hthere

/-- The target was removed. -/
theorem copyable_of_removed (hremove : removeTarget = true)
    (htarget : t.locate dst = .ok target) (hplain : dst.getLast? ≠ some 47)
    {content : Bytes} (hfile : t.entry target = some (.file content))
    (hallowed : host.refusesRemoval target = false) (hrem : Removes target t t') {target' : Place} :
    Copyable host t src dst removeTarget source target' e ↔
      Openable host t' src dst source target' e := by
  have hnot : t.entry target ≠ some .directory := by
    rw [hfile]
    nofun
  have hgone : t'.entry target = none := by rw [hrem.entry, if_pos rfl]
  have hlocate : ∀ {path place}, t'.locate path = .ok place ↔ t.locate path = .ok place :=
    hrem.locate_iff hnot
  subst hremove
  constructor
  · intro h
    obtain rfl := Except.ok.inj (htarget.symm.trans h.reaches)
    have hne : source ≠ target := by
      refine (h.removable rfl ?_).2
      rw [hfile]
      exact Option.some_ne_none _
    obtain ⟨place, hplace, hentry, hlast⟩ := lstat_eq_ok.mp h.found
    obtain rfl := Except.ok.inj (h.leads.symm.trans hplace)
    refine ⟨lstat_eq_ok.mpr ⟨source, hlocate.mpr h.leads, ?_, hlast⟩, hlocate.mpr h.leads,
      h.readable, hplain, hlocate.mpr htarget, ?_, ?_⟩
    · rw [hrem.entry, if_neg hne, hentry]
    · rw [hgone]
      nofun
    · rw [hgone]
      exact h.writable
  · intro h
    obtain rfl := Except.ok.inj (htarget.symm.trans (hlocate.mp h.writable.locate))
    obtain ⟨place, hplace, hentry, hlast⟩ := lstat_eq_ok.mp h.found
    obtain rfl := Except.ok.inj (h.leads.symm.trans hplace)
    have hne : source ≠ target := by
      rintro rfl
      rw [hgone] at hentry
      cases hentry
    rw [hrem.entry, if_neg hne] at hentry
    refine ⟨lstat_eq_ok.mpr ⟨source, hlocate.mp h.leads, hentry, hlast⟩, hlocate.mp h.leads,
      h.readable, hplain, htarget, hnot, ?_, fun _ _ => ⟨hallowed, hne⟩⟩
    have hopen := h.writable.allowed
    rw [hgone] at hopen
    exact hopen

/-- Either the loop starts, with an empty target, or nothing has changed but that the target may be
removed. -/
theorem ncCopyFileTree_cases (host : CopyHost) (t : FileTree) (src dst : Chars)
    (removeTarget : Bool) :
    (∃ source target e t', Copyable host t src dst removeTarget source target e ∧
      Sets target [] t t' ∧ ∀ fuel, ncCopyFileTree fuel host src dst removeTarget t =
        treeLoop host source target fuel (.start t') >>= fun x => .ok (x.1, x.2.tree)) ∨
    (∀ source target e, ¬ Copyable host t src dst removeTarget source target e) ∧
      ∃ t', (∀ fuel, ncCopyFileTree fuel host src dst removeTarget t = .ok (false, t')) ∧
        (t' = t ∨ removeTarget = true ∧ ∃ target content, t.locate dst = .ok target ∧
          t.entry target = some (.file content) ∧ Removes target t t') := by
  unfold ncCopyFileTree
  cases hboth : removeTarget && ncFileExists dst t with
  | false =>
      simp only [Bool.false_eq_true, if_false]
      cases openAndCopy_cases host t src dst with
      | inl h =>
          obtain ⟨source, target, e, t', hopen, hsets, hrun⟩ := h
          exact .inl ⟨source, target, e, t', (copyable_of_stays hboth).mpr hopen, hsets, hrun⟩
      | inr h =>
          refine .inr ⟨fun source target e hcopy => ?_, t, h.2, .inl rfl⟩
          exact h.1 source target e ((copyable_of_stays hboth).mp hcopy)
  | true =>
      obtain ⟨hremove, hexists⟩ := Bool.and_eq_true_iff.mp hboth
      simp only [if_true]
      cases hunlink : t.unlink host.refusesRemoval dst with
      | error err =>
          refine .inr ⟨fun source target e hcopy => ?_, t, fun fuel => rfl, .inl rfl⟩
          have hthere := (exists_iff hcopy.plain hcopy.reaches).mp hexists
          obtain ⟨hallowed, -⟩ := hcopy.removable hremove hthere
          cases hentry : t.entry target with
          | none => exact hthere hentry
          | some entry =>
              cases entry with
              | directory => exact hcopy.not_directory hentry
              | file content =>
                  obtain ⟨t', ht', -⟩ := unlink_of_file hcopy.reaches hentry hcopy.plain hallowed
                  rw [ht'] at hunlink
                  cases hunlink
      | ok t₁ =>
          obtain ⟨target, content, htarget, hfile, hplain, hallowed, hrem⟩ := unlink_eq_ok hunlink
          have hiff : ∀ source target' e, Copyable host t src dst removeTarget source target' e ↔
              Openable host t₁ src dst source target' e := fun source target' e =>
            copyable_of_removed hremove htarget hplain hfile hallowed hrem
          simp only
          cases openAndCopy_cases host t₁ src dst with
          | inl h =>
              obtain ⟨source, target', e, t', hopen, hsets, hrun⟩ := h
              have hcopy := (hiff source target' e).mpr hopen
              obtain rfl : target = target' := Except.ok.inj (htarget.symm.trans hcopy.reaches)
              refine .inl ⟨source, target, e, t', hcopy, ⟨?_, fun q => ?_⟩, hrun⟩
              · rw [hsets.cwd, hrem.cwd]
              · rw [hsets.entry, hrem.entry]
                split_ifs <;> rfl
          | inr h =>
              refine .inr ⟨fun source target' e hcopy => ?_, t₁, h.2,
                .inr ⟨hremove, target, content, htarget, hfile, hrem⟩⟩
              exact h.1 source target' e ((hiff source target' e).mp hcopy)

end opening

/-! ### The loop -/

section runs
variable {host : CopyHost} {t t' : FileTree} {src dst : Chars} {removeTarget : Bool}
  {source target : Place} {content : Bytes} {c c' : TreeCopy}

theorem read_unreadable (h : c.tree.fileAt source = none) :
    c.read host source = (none, { c with reads := c.reads + 1 }) := by
  unfold TreeCopy.read
  rw [h]
  cases host.read c.reads with
  | none => rfl
  | some k => rfl

theorem read_empty (h : c.tree.fileAt source = some []) :
    c.read host source =
      ((host.read c.reads).map fun _ => 0, { c with reads := c.reads + 1 }) := by
  unfold TreeCopy.read
  rw [h]
  cases host.read c.reads with
  | none => rfl
  | some k =>
      have hzero : delivered k (([] : Bytes).length - c.offset) = 0 := by
        unfold delivered
        rw [List.length_nil]
        omega
      simp only [hzero]
      simp

theorem write_granted {k : ℕ} (h : host.write c.writes = some k) :
    c.write host target = (some (min k copyBufferSize),
      { c with
        tree := c.tree.append target (c.buffer.take (min k copyBufferSize))
        writes := c.writes + 1 }) := by
  unfold TreeCopy.write
  rw [h]

theorem write_refused (h : host.write c.writes = none) :
    c.write host target = (none, { c with writes := c.writes + 1 }) := by
  unfold TreeCopy.write
  rw [h]

theorem treeLoop_steady (host : CopyHost) (source target : Place) (c : TreeCopy) :
    Steady fun fuel => treeLoop host source target fuel c := by
  intro fuel
  induction fuel generalizing c with
  | zero => exact Below.error _ _
  | succ fuel ih =>
      simp only
      rw [treeLoop, treeLoop]
      split
      · exact Below.refl _
      · split
        split_ifs
        · exact Below.refl _
        · exact ih _

/-- The result of a call that starts the loop. -/
theorem returns_of_loop (hrun : ∀ fuel, ncCopyFileTree fuel host src dst removeTarget t =
    treeLoop host source target fuel (.start t') >>= fun x => .ok (x.1, x.2.tree)) {fuel : ℕ}
    {ret : Bool} (h : treeLoop host source target fuel (.start t') = .ok (ret, c)) :
    Returns (fun f => ncCopyFileTree f host src dst removeTarget t) (ret, c.tree) :=
  (((treeLoop_steady host source target _).returns h).bind (Returns.pure _)).congr hrun

/-- What a `read` that succeeds does. -/
theorem read_some {r : ℕ} (h : (c.read host source).1 = some r) :
    ∃ contents, c.tree.fileAt source = some contents ∧ r ≤ contents.length - c.offset ∧
      (c.read host source).2.tree = c.tree ∧ (c.read host source).2.offset = c.offset + r := by
  unfold TreeCopy.read at h ⊢
  cases hread : host.read c.reads with
  | none =>
      rw [hread] at h
      cases h
  | some k =>
      cases hfile : c.tree.fileAt source with
      | none =>
          rw [hread, hfile] at h
          cases h
      | some contents =>
          rw [hread, hfile] at h
          obtain rfl := Option.some.inj h
          refine ⟨contents, rfl, ?_, rfl, rfl⟩
          unfold delivered
          omega

theorem read_tree (c : TreeCopy) (host : CopyHost) (source : Place) :
    (c.read host source).2.tree = c.tree := by
  unfold TreeCopy.read
  split <;> rfl

theorem write_offset (c : TreeCopy) (host : CopyHost) (target : Place) :
    (c.write host target).2.offset = c.offset := by
  unfold TreeCopy.write
  split <;> rfl

theorem write_sets (host : CopyHost) {copied : Bytes} (h : Sets target copied t c.tree) :
    ∃ copied', Sets target copied' t (c.write host target).2.tree := by
  cases hwrite : host.write c.writes with
  | none =>
      rw [write_refused hwrite]
      exact ⟨copied, h⟩
  | some k =>
      rw [write_granted hwrite]
      exact ⟨_, h.append _⟩

/-- The loop ends when no `write` takes nothing: each round but the last one reads more of the
source. -/
theorem treeLoop_ends (hwrites : ∀ n, host.write n ≠ some 0) (source : Place) {copied : Bytes}
    (hsets : Sets target copied t c.tree) (hempty : source = target → copied = []) :
    ∃ ret c' copied', Returns (fun f => treeLoop host source target f c) (ret, c') ∧
      Sets target copied' t c'.tree := by
  generalize hm : ((c.tree.fileAt source).getD []).length - c.offset = m
  induction m using Nat.strong_induction_on generalizing c copied with
  | _ m ih =>
      cases hr : c.read host source with
      | mk r d =>
          have htree : d.tree = c.tree := by
            have h := read_tree c host source
            rw [hr] at h
            exact h
          have hsets' := hsets
          rw [← htree] at hsets'
          cases r with
          | none =>
              refine ⟨false, d, copied, (Returns.pure (false, d)).succ fun f => ?_, hsets'⟩
              rw [treeLoop, hr]
          | some r =>
              obtain ⟨copied', hcopied'⟩ := write_sets host hsets'
              by_cases hw : (d.write host target).1 = some r
              · obtain ⟨contents, hfile, hle, -, hoffset⟩ := read_some (by rw [hr])
                rw [hr] at hoffset
                have hpos : 0 < r := by
                  cases hwrite : host.write d.writes with
                  | none =>
                      rw [write_refused hwrite] at hw
                      cases hw
                  | some k =>
                      rw [write_granted hwrite] at hw
                      have hmin := Option.some.inj hw
                      have hk : k ≠ 0 := by
                        rintro rfl
                        exact hwrites _ hwrite
                      unfold copyBufferSize at hmin
                      omega
                have hne : source ≠ target := by
                  intro heq
                  have hhere := hsets.here
                  rw [← heq, hempty heq, hfile] at hhere
                  rw [Option.some.inj hhere, List.length_nil] at hle
                  omega
                -- there is less of the source to read
                have hfile' : (d.write host target).2.tree.fileAt source = some contents := by
                  rw [hcopied'.fileAt hne, ← hsets.fileAt hne, hfile]
                obtain ⟨ret, c', copied'', hends, hsets''⟩ := ih (contents.length - d.offset)
                  (by rw [← hm, hfile, Option.getD_some, hoffset]; omega) hcopied'
                  (fun heq => absurd heq hne) (by rw [hfile', Option.getD_some, write_offset])
                refine ⟨ret, c', copied'', hends.succ fun f => ?_, hsets''⟩
                rw [treeLoop, hr]
                exact if_neg (not_not.mpr hw)
              · refine ⟨true, _, copied', (Returns.pure (true, _)).succ fun f => ?_, hcopied'⟩
                rw [treeLoop, hr]
                exact if_pos hw

end runs

/-- Nothing has changed but the target, which is as it was, gone or a file. -/
structure Touches (dst : Chars) (t t' : FileTree) : Prop where
  cwd : t'.cwd = t.cwd
  elsewhere : ∀ q, t.locate dst ≠ .ok q → t'.entry q = t.entry q
  here : ∀ q, t.locate dst = .ok q → t'.entry q = t.entry q ∨
    t.entry q ≠ some .directory ∧ ∀ e, t'.entry q = some e → ∃ content, e = .file content

theorem Touches.of_sets {t t' : FileTree} {dst : Chars} {target : Place} {content : Bytes}
    (h : Sets target content t t') (hdst : t.locate dst = .ok target)
    (hnot : t.entry target ≠ some .directory) : Touches dst t t' where
  cwd := h.cwd
  elsewhere q hq := by
    rw [h.entry, if_neg]
    rintro rfl
    exact hq hdst
  here q hq := by
    obtain rfl := Except.ok.inj (hdst.symm.trans hq)
    refine .inr ⟨hnot, fun e he => ?_⟩
    rw [h.entry, if_pos rfl] at he
    exact ⟨content, (Option.some.inj he).symm⟩

theorem Touches.of_removes {t t' : FileTree} {dst : Chars} {target : Place} {content : Bytes}
    (h : Removes target t t') (hdst : t.locate dst = .ok target)
    (hfile : t.entry target = some (.file content)) : Touches dst t t' where
  cwd := h.cwd
  elsewhere q hq := by
    rw [h.entry, if_neg]
    rintro rfl
    exact hq hdst
  here q hq := by
    obtain rfl := Except.ok.inj (hdst.symm.trans hq)
    refine .inr ⟨by rw [hfile]; nofun, fun e he => ?_⟩
    rw [h.entry, if_pos rfl] at he
    cases he

/-- When no `write` takes nothing, every call ends. -/
theorem ncCopyFileTree_ends {host : CopyHost} (hwrites : ∀ n, host.write n ≠ some 0) (t : FileTree)
    (src dst : Chars) (removeTarget : Bool) : ∃ ret t',
      Returns (fun f => ncCopyFileTree f host src dst removeTarget t) (ret, t') ∧
        Touches dst t t' := by
  rcases ncCopyFileTree_cases host t src dst removeTarget with
    ⟨source, target, e, t', hcopy, hsets, hrun⟩ | ⟨-, t', hfalse, hwhy⟩
  · have hstart : Sets target [] t (TreeCopy.start t').tree := hsets
    obtain ⟨ret, c, copied, hends, hsets'⟩ := treeLoop_ends hwrites source hstart fun _ => rfl
    refine ⟨ret, c.tree, ?_, .of_sets hsets' hcopy.reaches hcopy.not_directory⟩
    exact (hends.bind (Returns.pure _)).congr hrun
  · refine ⟨false, t', Filter.Eventually.of_forall hfalse, ?_⟩
    rcases hwhy with rfl | ⟨-, target, content, htarget, hfile, hrem⟩
    · exact ⟨rfl, fun _ _ => rfl, fun _ _ => .inl rfl⟩
    · exact .of_removes hrem htarget hfile

end Nica
