import Pyuring.Native.Request

/-!
# Chunk sizes

`uring_copy_path_dynamic` and `uring_write_newfile_dynamic` cut their file into
chunks the same way.  Before the loop the size callback is probed at multiples of
the block size to find the capacity of the slot buffers, cut at 64 MiB.  In the
loop the callback is asked again, at the offset the previous chunks have led to,
and an answer of zero or above the capacity is replaced by the block size.

The two passes ask at different offsets, so what the second one may return is
bounded only by the comparison with the capacity, and the replacement value is
not compared with it at all.  `want_le_maxBufferSize_iff` says when a chunk fits
its buffer.

The offsets of the chunks depend on the callback's answers and on nothing else:
`offset` is that sequence, and both pipelines walk along it whatever order their
requests complete in.
-/

namespace Pyuring
namespace Native

/-- What decides the chunk sizes of one call: the callback, the default block
size and the number of bytes to transfer. -/
structure Sizing where
  bufferSizeCb : Option BufferSizeCb
  blockSize : ℕ
  total : ℕ

/-- The "reasonable maximum" of the probing pass, 64 MiB. -/
def bufferLimit : ℕ := 64 * 1024 * 1024

/-- The offsets `0`, `block`, `2 * block`, ... below `total`. -/
def probeOffsets (total block : ℕ) : List ℕ :=
  (List.range ((total + block - 1) / block)).map (· * block)

/-- The probing pass: the capacity found so far and the number of calls made. -/
def probe (cb : BufferSizeCb) (total block : ℕ) : List ℕ → ℕ → ℕ → ℕ × ℕ
  | [], maxBufferSize, calls => (maxBufferSize, calls)
  | testOff :: offs, maxBufferSize, calls =>
    let testSize := (cb calls testOff total block).toNat
    let maxBufferSize := if testSize > maxBufferSize then testSize else maxBufferSize
    if maxBufferSize > bufferLimit then (bufferLimit, calls + 1)
    else probe cb total block offs maxBufferSize (calls + 1)

theorem mem_probeOffsets {total block p : ℕ} (hblock : 0 < block) :
    p ∈ probeOffsets total block ↔ p < total ∧ block ∣ p := by
  simp only [probeOffsets, List.mem_map, List.mem_range, Nat.lt_div_iff_mul_lt hblock]
  constructor
  · rintro ⟨k, hk, rfl⟩
    exact ⟨by omega, Nat.dvd_mul_left block k⟩
  · rintro ⟨hp, k, rfl⟩
    exact ⟨k, by rw [Nat.mul_comm block k] at hp; omega, Nat.mul_comm k block⟩

theorem probe_cons (cb : BufferSizeCb) (total block off : ℕ) (offs : List ℕ) (m calls : ℕ) :
    probe cb total block (off :: offs) m calls =
      if bufferLimit < max m (cb calls off total block).toNat then (bufferLimit, calls + 1)
      else probe cb total block offs (max m (cb calls off total block).toNat) (calls + 1) := by
  have hmax : (if (cb calls off total block).toNat > m then (cb calls off total block).toNat
      else m) = max m (cb calls off total block).toNat := by
    split <;> omega
  simp only [probe, hmax, gt_iff_lt]

/-- A probe that starts within the limit stays within it and does not shrink. -/
theorem probe_le (cb : BufferSizeCb) (total block : ℕ) :
    ∀ (offs : List ℕ) (m calls : ℕ), m ≤ bufferLimit →
      m ≤ (probe cb total block offs m calls).1 ∧
        (probe cb total block offs m calls).1 ≤ bufferLimit
  | [], _, _, hm => ⟨Nat.le_refl _, hm⟩
  | off :: offs, m, calls, hm => by
    rw [probe_cons]
    split
    · exact ⟨hm, Nat.le_refl _⟩
    · next h =>
      have ih := probe_le cb total block offs _ (calls + 1) (Nat.not_lt.mp h)
      exact ⟨Nat.le_trans (Nat.le_max_left _ _) ih.1, ih.2⟩

/-- A probe that starts above the limit is cut at its first offset. -/
theorem probe_of_limit_lt {cb : BufferSizeCb} {total block off : ℕ} {offs : List ℕ} {m calls : ℕ}
    (hm : bufferLimit < m) :
    (probe cb total block (off :: offs) m calls).1 = bufferLimit := by
  rw [probe_cons, if_pos (Nat.lt_of_lt_of_le hm (Nat.le_max_left _ _))]

namespace Sizing

variable (z : Sizing)

/-- The capacity of each slot buffer and the number of probing calls. -/
def probed : ℕ × ℕ :=
  match z.bufferSizeCb with
  | none => (z.blockSize, 0)
  | some cb => probe cb z.total z.blockSize (probeOffsets z.total z.blockSize) z.blockSize 0

/-- The size with which each slot's buffer is allocated. -/
def maxBufferSize : ℕ := z.probed.1

/-- The callback calls made before the first chunk. -/
def probeCalls : ℕ := z.probed.2

/-- The callback's answer at `off` (the block size when there is no callback). -/
def answer (off calls : ℕ) : ℕ :=
  match z.bufferSizeCb with
  | none => z.blockSize
  | some cb => (cb calls off z.total z.blockSize).toNat

/-- The chunk size asked for at `off`, before it is cut at the end of the file. -/
def wantAt (off calls : ℕ) : ℕ :=
  match z.bufferSizeCb with
  | none => z.blockSize
  | some cb =>
    let cbSize := (cb calls off z.total z.blockSize).toNat
    if 0 < cbSize ∧ cbSize ≤ z.maxBufferSize then cbSize else z.blockSize

/-- The length of the chunk at `off`. -/
def want (off calls : ℕ) : ℕ :=
  let remain := z.total - off
  if remain < z.wantAt off calls then remain else z.wantAt off calls

/-- The calls made after one more chunk. -/
def nextCalls (calls : ℕ) : ℕ :=
  match z.bufferSizeCb with
  | none => calls
  | some _ => calls + 1

/-- The chunk at index `k`: its offset and the calls made before it. -/
def chunk : ℕ → ℕ × ℕ
  | 0 => (0, z.probeCalls)
  | k + 1 => ((chunk k).1 + z.want (chunk k).1 (chunk k).2, z.nextCalls (chunk k).2)

/-- The offset of the chunk at index `k`. -/
def offset (k : ℕ) : ℕ := (z.chunk k).1

/-- The length of the chunk at index `k`. -/
def chunkLen (k : ℕ) : ℕ := z.want (z.chunk k).1 (z.chunk k).2

/-- The offsets and lengths of the first `k` chunks. -/
def chunks (k : ℕ) : List (ℕ × ℕ) := (List.range k).map fun i => (z.offset i, z.chunkLen i)

variable {z}

theorem chunks_succ {k off calls : ℕ} (h : z.chunk k = (off, calls)) :
    z.chunks (k + 1) = z.chunks k ++ [(off, z.want off calls)] := by
  simp [chunks, List.range_succ, offset, chunkLen, h]

theorem chunk_succ {k off calls : ℕ} (h : z.chunk k = (off, calls)) :
    z.chunk (k + 1) = (off + z.want off calls, z.nextCalls calls) := by
  simp [chunk, h]

theorem offset_succ (k : ℕ) : z.offset (k + 1) = z.offset k + z.chunkLen k := rfl

theorem wantAt_of_none (h : z.bufferSizeCb = none) (off calls : ℕ) :
    z.wantAt off calls = z.blockSize := by
  simp only [wantAt, h]

theorem wantAt_of_some {cb : BufferSizeCb} (h : z.bufferSizeCb = some cb) (off calls : ℕ) :
    z.wantAt off calls =
      if 0 < z.answer off calls ∧ z.answer off calls ≤ z.maxBufferSize then z.answer off calls
      else z.blockSize := by
  simp only [wantAt, answer, h]

theorem wantAt_pos (hblock : 0 < z.blockSize) (off calls : ℕ) : 0 < z.wantAt off calls := by
  cases hcb : z.bufferSizeCb with
  | none => rwa [wantAt_of_none hcb]
  | some cb =>
    rw [wantAt_of_some hcb]
    split
    · next h => exact h.1
    · exact hblock

theorem want_le_remain (off calls : ℕ) : z.want off calls ≤ z.total - off := by
  unfold want
  simp only
  split <;> omega

theorem want_le_wantAt (off calls : ℕ) : z.want off calls ≤ z.wantAt off calls := by
  unfold want
  simp only
  split <;> omega

theorem want_pos (hblock : 0 < z.blockSize) {off : ℕ} (hoff : off < z.total) (calls : ℕ) :
    0 < z.want off calls := by
  have := wantAt_pos hblock off calls
  unfold want
  simp only
  split <;> omega

theorem offset_le_total (k : ℕ) : z.offset k ≤ z.total := by
  induction k with
  | zero => exact Nat.zero_le _
  | succ k ih =>
    have : z.chunkLen k ≤ z.total - z.offset k := want_le_remain _ _
    rw [offset_succ]
    omega

/-! ## Capacity -/

theorem maxBufferSize_of_none (h : z.bufferSizeCb = none) : z.maxBufferSize = z.blockSize := by
  simp [maxBufferSize, probed, h]

/-- Within the limit the block size fits the buffer. -/
theorem blockSize_le_maxBufferSize (h : z.bufferSizeCb = none ∨ z.blockSize ≤ bufferLimit) :
    z.blockSize ≤ z.maxBufferSize := by
  cases hcb : z.bufferSizeCb with
  | none => exact Nat.le_of_eq (maxBufferSize_of_none hcb).symm
  | some cb =>
    have hle : z.blockSize ≤ bufferLimit := by
      rcases h with h | h
      · rw [hcb] at h
        exact absurd h (by simp)
      · exact h
    rw [maxBufferSize, probed, hcb]
    exact (probe_le cb _ _ _ _ _ hle).1

/-- Above the limit the buffer is smaller than the block. -/
theorem maxBufferSize_of_limit_lt (hcb : z.bufferSizeCb ≠ none) (hblock : bufferLimit < z.blockSize)
    (htotal : 0 < z.total) : z.maxBufferSize = bufferLimit := by
  obtain ⟨cb, hcb⟩ := Option.ne_none_iff_exists'.mp hcb
  have hpos : 0 < z.blockSize := by omega
  have hmem : 0 ∈ probeOffsets z.total z.blockSize :=
    (mem_probeOffsets hpos).mpr ⟨htotal, Nat.dvd_zero _⟩
  rw [maxBufferSize, probed, hcb]
  cases hoffs : probeOffsets z.total z.blockSize with
  | nil => rw [hoffs] at hmem; exact absurd hmem List.not_mem_nil
  | cons off offs => exact probe_of_limit_lt hblock

/-- The answer at `off` is one the second pass keeps when the block is above the
limit. -/
def Answered (z : Sizing) (off calls : ℕ) : Prop :=
  0 < z.answer off calls ∧ z.answer off calls ≤ bufferLimit

/-- **When a chunk fits its buffer.**  The chunk at `off` is no longer than the
slot's buffer exactly when the block size itself is within bounds, or no more
than the limit is left, or the callback's answer is one that is kept. -/
theorem want_le_maxBufferSize_iff {off : ℕ} (hoff : off < z.total) (calls : ℕ) :
    z.want off calls ≤ z.maxBufferSize ↔
      z.bufferSizeCb = none ∨ z.blockSize ≤ bufferLimit ∨ z.total - off ≤ bufferLimit ∨
        z.Answered off calls := by
  by_cases hfit : z.bufferSizeCb = none ∨ z.blockSize ≤ bufferLimit
  · have hblock := blockSize_le_maxBufferSize hfit
    have hat : z.wantAt off calls ≤ z.maxBufferSize := by
      cases hcb : z.bufferSizeCb with
      | none => rwa [wantAt_of_none hcb]
      | some cb =>
        rw [wantAt_of_some hcb]
        split
        · next h => exact h.2
        · exact hblock
    have := want_le_wantAt (z := z) off calls
    constructor
    · intro _
      rcases hfit with h | h
      · exact Or.inl h
      · exact Or.inr (Or.inl h)
    · intro _
      omega
  · obtain ⟨hcb, hblock⟩ := not_or.mp hfit
    have hmax := maxBufferSize_of_limit_lt hcb (Nat.not_le.mp hblock) (by omega)
    obtain ⟨cb, hcb'⟩ := Option.ne_none_iff_exists'.mp hcb
    have hat := wantAt_of_some hcb' off calls
    rw [hmax] at hat ⊢
    simp only [hcb, hblock, false_or, Answered, want]
    split at hat <;> split <;> omega

/-- The chunks fit the buffers for a reason that can be read off the arguments:
there is no callback, or the block size is within the limit, or wherever more than
the limit is left the callback gives an answer that is kept. -/
def Fits (z : Sizing) : Prop :=
  z.bufferSizeCb = none ∨ z.blockSize ≤ bufferLimit ∨
    ∀ k, z.offset k < z.total →
      z.total - z.offset k ≤ bufferLimit ∨ z.Answered (z.offset k) (z.chunk k).2

theorem fits_iff : z.Fits ↔ ∀ k, z.offset k < z.total → z.chunkLen k ≤ z.maxBufferSize := by
  have hchunk : ∀ k, z.offset k < z.total → (z.chunkLen k ≤ z.maxBufferSize ↔ _) :=
    fun k hk => want_le_maxBufferSize_iff hk (z.chunk k).2
  constructor
  · rintro (hcb | hblock | hall) k hk
    · exact (hchunk k hk).mpr (Or.inl hcb)
    · exact (hchunk k hk).mpr (Or.inr (Or.inl hblock))
    · exact (hchunk k hk).mpr (Or.inr (Or.inr (hall k hk)))
  · intro hall
    by_cases hcb : z.bufferSizeCb = none
    · exact Or.inl hcb
    by_cases hblock : z.blockSize ≤ bufferLimit
    · exact Or.inr (Or.inl hblock)
    refine Or.inr (Or.inr ?_)
    intro k hk
    rcases (hchunk k hk).mp (hall k hk) with h | h | h
    · exact absurd h hcb
    · exact absurd h hblock
    · exact h

theorem offset_mono {i j : ℕ} (h : i ≤ j) : z.offset i ≤ z.offset j := by
  induction h with
  | refl => exact Nat.le_refl _
  | step _ ih => exact Nat.le_trans ih (Nat.le_add_right _ _)

/-- A chunk that starts before the offset of chunk `n` is one of the first `n`. -/
theorem mem_chunks {n k : ℕ} (h : z.offset k < z.offset n) :
    (z.offset k, z.chunkLen k) ∈ z.chunks n := by
  refine List.mem_map.mpr ⟨k, List.mem_range.mpr (Nat.lt_of_not_le ?_), rfl⟩
  intro hle
  have := offset_mono (z := z) hle
  omega

end Sizing
end Native
end Pyuring
