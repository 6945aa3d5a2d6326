import Nica.CopyFile

/-! # Copying when every call takes what it is asked for

On a system where no call fails and each `read` and each `write` takes as many bytes as it can, the
loop of `nc_copy_file` ends at the first `read` that does not fill the buffer: its bytes are written
with the rest of the buffer, where those of the `read` before stand (`lastBuffer`).  So the copy of
every file is the file and then these bytes (`copy_pads_always`); the last block is never a part of
one. -/

namespace Nica

open Fueled

/-- No call fails, and each takes as many bytes as it can. -/
structure Generous (calls : SystemCalls) : Prop where
  unlink : calls.unlink = true
  openSource : calls.openSource = true
  openTarget : calls.openTarget = true
  read : ∀ n, ∃ k, calls.read n = some k ∧ copyBufferSize ≤ k
  write : ∀ n, ∃ k, calls.write n = some k ∧ copyBufferSize ≤ k

/-- What the buffer holds before the last `read`: the last full block of the file, or zeros. -/
def lastBuffer (src : Bytes) : Bytes :=
  if src.length < copyBufferSize then List.replicate copyBufferSize 0
  else (src.drop ((src.length / copyBufferSize - 1) * copyBufferSize)).take copyBufferSize

/-- The bytes of the buffer that the last `read` leaves as they are. -/
def padding (src : Bytes) : Bytes := (lastBuffer src).drop (src.length % copyBufferSize)

section generous
variable {calls : SystemCalls} {src : Bytes}

theorem Generous.amount (G : Generous calls) (n o : ℕ) :
    amount calls src n o = min copyBufferSize (src.length - o) := by
  obtain ⟨k, hk, hle⟩ := G.read n
  unfold Nica.amount
  rw [hk]
  simp only [delivered]
  unfold copyBufferSize at hle ⊢
  omega

theorem Generous.offset (G : Generous calls) {n : ℕ} (hn : n * copyBufferSize ≤ src.length) :
    offset calls src n = n * copyBufferSize := by
  induction n with
  | zero => rw [Nica.offset, Nat.zero_mul]
  | succ n ih =>
      rw [Nat.succ_mul] at hn ⊢
      rw [Nica.offset, ih (by omega), G.amount]
      omega

theorem Generous.length_chunk (G : Generous calls) {n : ℕ} (hn : n * copyBufferSize ≤ src.length) :
    (chunk calls src n).length = min copyBufferSize (src.length - n * copyBufferSize) := by
  rw [Nica.length_chunk, G.offset hn, G.amount]

/-- A full block is written as it was read. -/
theorem Generous.agree (G : Generous calls) {n : ℕ} (hn : (n + 1) * copyBufferSize ≤ src.length) :
    Agree calls src n := by
  obtain ⟨k, hk, -⟩ := G.read n
  obtain ⟨w, hw, hle⟩ := G.write n
  rw [Nat.succ_mul] at hn
  refine ⟨k, w, hk, hw, ?_⟩
  rw [G.length_chunk (by omega)]
  omega

theorem blocks (src : Bytes) :
    src.length / copyBufferSize * copyBufferSize + src.length % copyBufferSize = src.length ∧
      src.length % copyBufferSize < copyBufferSize :=
  ⟨Nat.div_add_mod' _ _, Nat.mod_lt _ (by decide)⟩

/-- The rest behind the full blocks is not. -/
theorem Generous.not_agree (G : Generous calls) :
    ¬ Agree calls src (src.length / copyBufferSize) := by
  obtain ⟨hblocks, hrest⟩ := blocks src
  rintro ⟨k, w, -, hw, hcount⟩
  obtain ⟨w', hw', hle⟩ := G.write (src.length / copyBufferSize)
  obtain rfl := Option.some.inj (hw.symm.trans hw')
  rw [G.length_chunk (by omega)] at hcount
  omega

theorem Generous.stale (G : Generous calls) :
    stale calls src (src.length / copyBufferSize) = lastBuffer src := by
  obtain ⟨hblocks, hrest⟩ := blocks src
  unfold lastBuffer
  cases hq : src.length / copyBufferSize with
  | zero =>
      rw [hq, Nat.zero_mul] at hblocks
      rw [if_pos (by omega), Nica.stale]
  | succ n =>
      rw [hq, Nat.succ_mul] at hblocks
      have hn : n * copyBufferSize ≤ src.length := by omega
      have hlen : (chunk calls src n).length = copyBufferSize := by
        rw [G.length_chunk hn]
        omega
      have hold : (Nica.stale calls src n).drop (chunk calls src n).length = [] := by
        apply List.drop_eq_nil_of_le
        rw [length_stale, hlen]
      rw [if_neg (by omega), Nica.stale, hold, List.append_nil, chunk, G.offset hn, G.amount,
        Nat.add_sub_cancel, Nat.min_eq_left (by omega)]

theorem length_lastBuffer (src : Bytes) : (lastBuffer src).length = copyBufferSize := by
  obtain ⟨hblocks, hrest⟩ := blocks src
  unfold lastBuffer
  split_ifs with hshort
  · exact List.length_replicate
  · have hpos : 0 < src.length / copyBufferSize := Nat.div_pos (by omega) (by decide)
    rw [List.length_take, List.length_drop, Nat.sub_mul, Nat.one_mul]
    have hle : copyBufferSize ≤ src.length / copyBufferSize * copyBufferSize :=
      Nat.le_mul_of_pos_left _ hpos
    omega

/-- The loop ends with the file and what the buffer still held in the target. -/
theorem Generous.loop (G : Generous calls) (src : Bytes) : ∃ c,
    Returns (fun f => copyLoop calls f (roundState calls src 0)) (true, c) ∧
      c.target = some (src ++ padding src) := by
  obtain ⟨hblocks, hrest⟩ := blocks src
  have hagree : ∀ i < src.length / copyBufferSize, Agree calls src i := by
    intro i hi
    apply G.agree
    have hle : (i + 1) * copyBufferSize ≤ src.length / copyBufferSize * copyBufferSize :=
      Nat.mul_le_mul_right _ hi
    omega
  obtain ⟨k, hk, -⟩ := G.read (src.length / copyBufferSize)
  obtain ⟨w, hw, hle⟩ := G.write (src.length / copyBufferSize)
  obtain ⟨c, hr, -, -, htarget⟩ := copyLoop_write_differs hagree hk G.not_agree
  refine ⟨c, hr, ?_⟩
  -- the whole buffer is written behind the full blocks
  have hfull : src.length / copyBufferSize * copyBufferSize ≤ src.length := by omega
  have hoffset := G.offset hfull
  have hchunk := G.length_chunk hfull
  have hlast : (chunk calls src (src.length / copyBufferSize)).length =
      src.length % copyBufferSize := by
    rw [hchunk]
    omega
  have hall : src.take (Nica.offset calls src (src.length / copyBufferSize + 1)) = src := by
    apply List.take_of_length_le
    rw [Nica.offset, hoffset, G.amount]
    omega
  rw [htarget, hw]
  simp only
  rw [Nat.min_eq_right hle, List.take_of_length_le (length_stale _).le, Nica.stale,
    ← List.append_assoc, ← take_offset_succ, hall, G.stale, hlast, padding]

/-- When every call takes what it is asked for, the copy of any file is the file and, up to the next
block, what the buffer still held. -/
theorem copy_pads_always (G : Generous calls) (src : Bytes) (dst : Option Bytes)
    (removeTarget : Bool) :
    ∃ c, Returns (fun f => ncCopyFile f calls src dst removeTarget) (true, c) ∧
      c.target = some (src ++ padding src) ∧
      (src ++ padding src).length = (src.length / copyBufferSize + 1) * copyBufferSize := by
  obtain ⟨hblocks, hrest⟩ := blocks src
  have hopen : Opens calls dst removeTarget := by
    refine ⟨?_, G.openSource, G.openTarget⟩
    rw [G.unlink, Bool.not_true, Bool.and_false]
  obtain ⟨c, hr, htarget⟩ := G.loop src
  refine ⟨c, hr.congr fun f => ncCopyFile_opens hopen f, htarget, ?_⟩
  rw [List.length_append, padding, List.length_drop, length_lastBuffer, Nat.succ_mul]
  omega

end generous

theorem copy_pads_always_byte : ∃ c,
    Returns (fun f => ncCopyFile f
      ⟨true, true, true, fun _ => some copyBufferSize, fun _ => some copyBufferSize⟩ [97] none false)
      (true, c) ∧ c.target.map List.length = some 8192 := by
  have G : Generous
      ⟨true, true, true, fun _ => some copyBufferSize, fun _ => some copyBufferSize⟩ :=
    ⟨rfl, rfl, rfl, fun _ => ⟨_, rfl, le_rfl⟩, fun _ => ⟨_, rfl, le_rfl⟩⟩
  obtain ⟨c, hr, htarget, hlen⟩ := copy_pads_always G [97] none false
  refine ⟨c, hr, ?_⟩
  rw [htarget, Option.map_some, hlen]
  rfl

end Nica
