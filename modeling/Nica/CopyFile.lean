import Nica.Pointers
import Nica.Fuel

/-! # Copying a file

`nc_copy_file` of `files.c`.  What the system calls do is given: whether `unlink` and the two `open`
succeed, and for each `read` and each `write` how many bytes it takes or that it reports an error.
A `read` delivers the next bytes of the source, at least one unless it is at the end; a `write`
appends a part of the bytes it is given.  The source does not change meanwhile.

Each round reads up to 8192 bytes and hands the whole buffer to `write`, whatever `read` delivered;
the loop ends at the first `write` that does not return the count of the `read` before it, and then
`ret` is `true`.  So the rounds in which the counts agree copy the source (`copyLoop_rounds`), and
the round that ends the loop makes a right copy only by coincidence (`EndsWell`,
`copy_exact_iff`). -/

namespace Nica

open Fueled

def copyBufferSize : ℕ := 8192

/-- What the system calls do; `read n` and `write n` are `none` when the call reports an error, and
else how many bytes the system would take. -/
structure SystemCalls where
  unlink : Bool
  openSource : Bool
  openTarget : Bool
  read : ℕ → Option ℕ
  write : ℕ → Option ℕ

/-- The bytes of the source not read yet, the target file if there is one, the buffer, and how many
calls of `read` and of `write` were made. -/
structure Copy where
  left : Bytes
  target : Option Bytes
  buffer : Bytes
  reads : ℕ
  writes : ℕ

/-- How many bytes a `read` delivers when `left` bytes are left. -/
def delivered (k left : ℕ) : ℕ := min (max k 1) (min copyBufferSize left)

/-- `read(src_fd, &buffer, sizeof(buffer))`: the count, or `none` on error. -/
def Copy.read (c : Copy) (calls : SystemCalls) : Option ℕ × Copy :=
  match calls.read c.reads with
  | none => (none, { c with reads := c.reads + 1 })
  | some k =>
      let r := delivered k c.left.length
      (some r,
        { c with
          left := c.left.drop r
          buffer := c.left.take r ++ c.buffer.drop r
          reads := c.reads + 1 })

/-- `write(dest_fd, buffer, sizeof(buffer))`: the count, or `none` on error. -/
def Copy.write (c : Copy) (calls : SystemCalls) : Option ℕ × Copy :=
  match calls.write c.writes with
  | none => (none, { c with writes := c.writes + 1 })
  | some k =>
      let w := min k copyBufferSize
      (some w,
        { c with
          target := c.target.map fun t => t ++ c.buffer.take w
          writes := c.writes + 1 })

def copyLoop (calls : SystemCalls) : ℕ → Copy → Except Fault (Bool × Copy)
  | 0, _ => .error .timeout
  | fuel + 1, c =>
      match c.read calls with
      | (none, c) => .ok (false, c)
      | (some r, c) =>
          match c.write calls with
          | (w, c) => if w ≠ some r then .ok (true, c) else copyLoop calls fuel c

/-- `nc_copy_file` of the contents `src` to a target with the contents `dst`, if it exists. -/
def ncCopyFile (fuel : ℕ) (calls : SystemCalls) (src : Bytes) (dst : Option Bytes)
    (removeTarget : Bool) : Except Fault (Bool × Copy) :=
  let c : Copy := ⟨src, dst, List.replicate copyBufferSize 0, 0, 0⟩
  if removeTarget && dst.isSome && !calls.unlink then .ok (false, c)
  else
    let c := if removeTarget then { c with target := none } else c
    if !calls.openSource then .ok (false, c)
    else if !calls.openTarget then .ok (false, c)
    else copyLoop calls fuel { c with target := some [] }

/-! ### The rounds -/

section rounds
variable (calls : SystemCalls) (src : Bytes)

/-- How many bytes the call `n` of `read` delivers at the offset `o`. -/
def amount (n o : ℕ) : ℕ :=
  match calls.read n with
  | none => 0
  | some k => delivered k (src.length - o)

def offset : ℕ → ℕ
  | 0 => 0
  | n + 1 => offset n + amount calls src n (offset n)

def chunk (n : ℕ) : Bytes :=
  (src.drop (offset calls src n)).take (amount calls src n (offset calls src n))

/-- What earlier calls of `read` left in the buffer before the call `n`. -/
def stale : ℕ → Bytes
  | 0 => List.replicate copyBufferSize 0
  | n + 1 => chunk calls src n ++ (stale n).drop (chunk calls src n).length

/-- In round `n` both calls succeed and give the same count. -/
def Agree (n : ℕ) : Prop :=
  ∃ k w, calls.read n = some k ∧ calls.write n = some w ∧
    min w copyBufferSize = (chunk calls src n).length

/-- The state of the loop after `n` rounds in which the counts agree. -/
def roundState (n : ℕ) : Copy :=
  ⟨src.drop (offset calls src n), some (src.take (offset calls src n)), stale calls src n, n, n⟩

variable {calls src}

theorem amount_le (n o : ℕ) : amount calls src n o ≤ src.length - o := by
  unfold amount
  cases calls.read n with
  | none => exact Nat.zero_le _
  | some k =>
      simp only [delivered]
      omega

theorem length_chunk (n : ℕ) :
    (chunk calls src n).length = amount calls src n (offset calls src n) := by
  have hle : amount calls src n (offset calls src n) ≤ src.length - offset calls src n :=
    amount_le n _
  rw [chunk, List.length_take, List.length_drop]
  omega

theorem take_offset_succ (n : ℕ) :
    src.take (offset calls src (n + 1)) = src.take (offset calls src n) ++ chunk calls src n := by
  rw [offset, List.take_add]
  rfl

theorem length_stale (n : ℕ) : (stale calls src n).length = copyBufferSize := by
  induction n with
  | zero => exact List.length_replicate
  | succ n ih =>
      have hle : (chunk calls src n).length ≤ copyBufferSize := by
        rw [length_chunk, amount]
        cases calls.read n with
        | none => exact Nat.zero_le _
        | some k =>
            simp only [delivered]
            omega
      rw [stale, List.length_append, List.length_drop, ih]
      omega

theorem read_roundState {n k : ℕ} (hk : calls.read n = some k) :
    (roundState calls src n).read calls =
      (some (chunk calls src n).length,
        { roundState calls src n with
          left := src.drop (offset calls src (n + 1))
          buffer := stale calls src (n + 1)
          reads := n + 1 }) := by
  have hamount : delivered k (src.length - offset calls src n) =
      amount calls src n (offset calls src n) := by rw [amount, hk]
  simp only [Copy.read, roundState, hk, List.length_drop, List.drop_drop, hamount]
  rw [stale, offset, length_chunk]
  rfl

theorem copyLoop_agree {n : ℕ} (h : Agree calls src n) (fuel : ℕ) :
    copyLoop calls (fuel + 1) (roundState calls src n) =
      copyLoop calls fuel (roundState calls src (n + 1)) := by
  obtain ⟨k, w, hk, hw, hcount⟩ := h
  have htake : (stale calls src (n + 1)).take (chunk calls src n).length = chunk calls src n := by
    rw [stale, List.take_left]
  rw [copyLoop, read_roundState hk]
  simp only [Copy.write, roundState, hw, hcount, htake, Option.map_some, ← take_offset_succ]
  exact if_neg (not_not.mpr rfl)

theorem copyLoop_rounds {n : ℕ} (h : ∀ i < n, Agree calls src i) (fuel : ℕ) :
    copyLoop calls (fuel + n) (roundState calls src 0) =
      copyLoop calls fuel (roundState calls src n) := by
  induction n generalizing fuel with
  | zero => rfl
  | succ n ih =>
      rw [Nat.add_succ, ← Nat.succ_add, ih (fun i hi => h i (Nat.lt_succ_of_lt hi)) (fuel + 1),
        copyLoop_agree (h n (Nat.lt_succ_self n))]

theorem copyLoop_ends {n : ℕ} (h : ∀ i < n, Agree calls src i) {r : Bool × Copy}
    (hr : ∀ fuel, copyLoop calls (fuel + 1) (roundState calls src n) = .ok r) :
    Returns (fun f => copyLoop calls f (roundState calls src 0)) r := by
  refine returns_iff.mpr ⟨n + 1, fun m hm => ?_⟩
  obtain ⟨fuel, rfl⟩ : ∃ fuel, m = fuel + 1 + n := ⟨m - (n + 1), by omega⟩
  rw [copyLoop_rounds h]
  exact hr fuel

theorem copyLoop_timeout (h : ∀ n, Agree calls src n) (fuel : ℕ) :
    copyLoop calls fuel (roundState calls src 0) = .error .timeout := by
  have := copyLoop_rounds (fun i (_ : i < fuel) => h i) 0
  rwa [Nat.zero_add] at this

theorem copyLoop_read_error {n : ℕ} (h : ∀ i < n, Agree calls src i) (hk : calls.read n = none) :
    ∃ c, Returns (fun f => copyLoop calls f (roundState calls src 0)) (false, c) := by
  have hround : ∀ fuel, copyLoop calls (fuel + 1) (roundState calls src n) =
      .ok (false, { roundState calls src n with reads := n + 1 }) := by
    intro fuel
    simp only [copyLoop, Copy.read, roundState, hk]
  exact ⟨_, copyLoop_ends h hround⟩

theorem copyLoop_write_differs {n k : ℕ} (h : ∀ i < n, Agree calls src i)
    (hk : calls.read n = some k) (hn : ¬ Agree calls src n) :
    ∃ c, Returns (fun f => copyLoop calls f (roundState calls src 0)) (true, c) ∧
      c.reads = n + 1 ∧ c.writes = n + 1 ∧
      c.target = some (src.take (offset calls src n) ++
        match calls.write n with
        | none => []
        | some w => (stale calls src (n + 1)).take (min w copyBufferSize)) := by
  have hround : ∀ fuel, copyLoop calls (fuel + 1) (roundState calls src n) =
      .ok (true,
        { roundState calls src n with
          left := src.drop (offset calls src (n + 1))
          target := some (src.take (offset calls src n) ++
            match calls.write n with
            | none => []
            | some w => (stale calls src (n + 1)).take (min w copyBufferSize))
          buffer := stale calls src (n + 1)
          reads := n + 1
          writes := n + 1 }) := by
    intro fuel
    rw [copyLoop, read_roundState hk]
    cases hw : calls.write n with
    | none =>
        simp only [Copy.write, roundState, hw, List.append_nil]
        rfl
    | some w =>
        have hdiffers : some (min w copyBufferSize) ≠ some (chunk calls src n).length := fun he =>
          hn ⟨k, w, hk, hw, Option.some.inj he⟩
        simp only [Copy.write, roundState, hw, Option.map_some]
        exact if_pos hdiffers
  exact ⟨_, copyLoop_ends h hround, rfl, rfl, rfl⟩

end rounds

/-! ### When the copy is right -/

/-- If the function returns `true` the target is a copy of the source, and if a read or a write
reported an error it returns `false`. -/
def CopiesExactly (calls : SystemCalls) (src : Bytes) (dst : Option Bytes) (removeTarget : Bool) :
    Prop :=
  ∀ ret c, Returns (fun f => ncCopyFile f calls src dst removeTarget) (ret, c) →
    (ret = true → c.target = some src) ∧
    ((∃ n < c.reads, calls.read n = none) ∨ (∃ n < c.writes, calls.write n = none) → ret = false)

/-- At the first write whose count is not that of the read before it, both having succeeded, more
bytes are written than were read, and those that the buffer still had from earlier reads are the
rest of the source. -/
def EndsWell (calls : SystemCalls) (src : Bytes) : Prop :=
  ∀ n, (∀ i < n, Agree calls src i) → calls.read n ≠ none → ¬ Agree calls src n →
    ∃ w, calls.write n = some w ∧ (chunk calls src n).length < min w copyBufferSize ∧
      src.drop (offset calls src (n + 1)) =
        ((stale calls src n).drop (chunk calls src n).length).take
          (min w copyBufferSize - (chunk calls src n).length)

/-- The target can be removed if it has to be, and both files open. -/
def Opens (calls : SystemCalls) (dst : Option Bytes) (removeTarget : Bool) : Prop :=
  (removeTarget && dst.isSome && !calls.unlink) = false ∧ calls.openSource = true ∧
    calls.openTarget = true

section exact
variable {calls : SystemCalls} {src : Bytes} {dst : Option Bytes} {removeTarget : Bool}

theorem ncCopyFile_opens (h : Opens calls dst removeTarget) (fuel : ℕ) :
    ncCopyFile fuel calls src dst removeTarget = copyLoop calls fuel (roundState calls src 0) := by
  obtain ⟨hunlink, hsource, htarget⟩ := h
  simp only [ncCopyFile, hunlink, hsource, htarget]
  cases removeTarget <;> rfl

/-- The bytes that the last write takes are the rest of the source when they are more than those
read, and the ones behind them too. -/
theorem take_stale_eq_iff (n w : ℕ) :
    (stale calls src (n + 1)).take w = src.drop (offset calls src n) ↔
      (chunk calls src n).length ≤ w ∧ src.drop (offset calls src (n + 1)) =
        ((stale calls src n).drop (chunk calls src n).length).take
          (w - (chunk calls src n).length) := by
  have hrest : src.drop (offset calls src n) =
      chunk calls src n ++ src.drop (offset calls src (n + 1)) := by
    rw [offset, ← List.drop_drop]
    exact (List.take_append_drop _ _).symm
  rw [hrest, stale]
  constructor
  · intro h
    have hle : (chunk calls src n).length ≤ w := by
      have hlen := congrArg List.length h
      rw [List.length_take, List.length_append, List.length_append] at hlen
      omega
    rw [List.take_append, List.take_of_length_le hle] at h
    exact ⟨hle, (List.append_cancel_left h).symm⟩
  · rintro ⟨hle, h⟩
    rw [List.take_append, List.take_of_length_le hle, h]

theorem copy_exact_iff (hopen : Opens calls dst removeTarget) :
    CopiesExactly calls src dst removeTarget ↔ EndsWell calls src := by
  unfold CopiesExactly
  simp only [ncCopyFile_opens hopen]
  constructor
  · intro hexact n hagree hk hn
    obtain ⟨k, hk⟩ := Option.ne_none_iff_exists'.mp hk
    obtain ⟨c, hr, hreads, hwrites, htarget⟩ := copyLoop_write_differs hagree hk hn
    obtain ⟨hsame, herror⟩ := hexact true c hr
    obtain ⟨w, hw⟩ : ∃ w, calls.write n = some w := by
      refine Option.ne_none_iff_exists'.mp fun hnone => ?_
      cases herror (.inr ⟨n, by omega, hnone⟩)
    have hcopied := Option.some.inj (htarget.symm.trans (hsame rfl))
    rw [hw] at hcopied
    have htail : (stale calls src (n + 1)).take (min w copyBufferSize) =
        src.drop (offset calls src n) :=
      List.append_cancel_left (hcopied.trans (List.take_append_drop _ _).symm)
    obtain ⟨hle, hrest⟩ := (take_stale_eq_iff n _).mp htail
    refine ⟨w, hw, lt_of_le_of_ne hle fun he => hn ⟨k, w, hk, hw, he.symm⟩, hrest⟩
  · intro hends ret c hr
    by_cases hall : ∀ n, Agree calls src n
    · obtain ⟨f, hf⟩ := hr.exists
      rw [copyLoop_timeout hall] at hf
      cases hf
    · -- the first round in which the counts do not agree
      obtain ⟨n, hn, hagree⟩ : ∃ n, ¬ Agree calls src n ∧ ∀ i < n, Agree calls src i := by
        classical
        rw [not_forall] at hall
        exact ⟨Nat.find hall, Nat.find_spec hall, fun i hi => not_not.mp (Nat.find_min hall hi)⟩
      cases hk : calls.read n with
      | none =>
          obtain ⟨c', hr'⟩ := copyLoop_read_error hagree hk
          obtain ⟨rfl, rfl⟩ := Prod.mk.inj (hr.unique hr')
          exact ⟨fun h => absurd h Bool.false_ne_true, fun _ => rfl⟩
      | some k =>
          obtain ⟨c', hr', hreads, hwrites, htarget⟩ := copyLoop_write_differs hagree hk hn
          obtain ⟨rfl, rfl⟩ := Prod.mk.inj (hr.unique hr')
          obtain ⟨w, hw, hlt, hrest⟩ := hends n hagree (by rw [hk]; simp) hn
          refine ⟨fun _ => ?_, fun herror => ?_⟩
          · rw [htarget, hw]
            simp only
            rw [(take_stale_eq_iff n _).mpr ⟨hlt.le, hrest⟩, List.take_append_drop]
          · -- every call so far succeeded
            exfalso
            rw [hreads, hwrites] at herror
            have succeeded : ∀ i < n + 1, calls.read i ≠ none ∧ calls.write i ≠ none := by
              intro i hi
              rcases Nat.lt_succ_iff_lt_or_eq.mp hi with hi | rfl
              · obtain ⟨k, w, hk, hw, -⟩ := hagree i hi
                rw [hk, hw]
                simp
              · rw [hk, hw]
                simp
            rcases herror with ⟨i, hi, h⟩ | ⟨i, hi, h⟩
            · exact (succeeded i hi).1 h
            · exact (succeeded i hi).2 h

end exact

/-- A file of one byte, read and written as far as the system can: the copy has 8192 bytes. -/
theorem copy_pads : ∃ calls c, Opens calls none false ∧
    Returns (fun f => ncCopyFile f calls [97] none false) (true, c) ∧
    c.target.map List.length = some 8192 ∧ ¬ CopiesExactly calls [97] none false := by
  let calls : SystemCalls := ⟨true, true, true, fun _ => some 8192, fun _ => some 8192⟩
  have hopen : Opens calls none false := ⟨rfl, rfl, rfl⟩
  have hchunk : chunk calls [97] 0 = [97] := rfl
  have hdiffers : ¬ Agree calls [97] 0 := by
    rintro ⟨k, w, -, hw, hcount⟩
    obtain rfl : 8192 = w := Option.some.inj hw
    rw [hchunk] at hcount
    exact absurd hcount (by decide)
  obtain ⟨c, hr, -, -, htarget⟩ := copyLoop_write_differs (by simp) (rfl : calls.read 0 = some 8192)
    hdiffers
  have hret : Returns (fun f => ncCopyFile f calls [97] none false) (true, c) :=
    hr.congr fun f => ncCopyFile_opens hopen f
  have hlength : c.target.map List.length = some 8192 := by
    rw [htarget, Option.map_some, offset, List.take_zero, List.nil_append]
    change some (List.length (List.take (min 8192 copyBufferSize) (stale calls [97] 1))) = _
    rw [List.length_take, length_stale]
    rfl
  refine ⟨calls, c, hopen, hret, hlength, fun h => ?_⟩
  rw [(h true c hret).1 rfl] at hlength
  cases hlength

/-- A write that takes one byte more than the read before it delivered, of a source that ends in
the NUL that the buffer still holds there. -/
theorem copy_exact_nul : ∃ calls, Opens calls none false ∧ CopiesExactly calls [97, 0] none false := by
  let calls : SystemCalls := ⟨true, true, true, fun _ => some 1, fun _ => some 2⟩
  have hopen : Opens calls none false := ⟨rfl, rfl, rfl⟩
  have hchunk : chunk calls [97, 0] 0 = [97] := rfl
  have hdiffers : ¬ Agree calls [97, 0] 0 := by
    rintro ⟨k, w, -, hw, hcount⟩
    obtain rfl : 2 = w := Option.some.inj hw
    rw [hchunk] at hcount
    exact absurd hcount (by decide)
  refine ⟨calls, hopen, (copy_exact_iff hopen).mpr fun n hagree _ _ => ?_⟩
  cases n with
  | succ n => exact absurd (hagree 0 (Nat.succ_pos n)) hdiffers
  | zero =>
      refine ⟨2, rfl, ?_, ?_⟩
      · rw [hchunk]
        decide
      · rw [hchunk, stale, List.drop_replicate, List.take_replicate]
        rfl

end Nica
