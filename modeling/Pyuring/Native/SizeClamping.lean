import Pyuring.Native.BufferBounds
import Pyuring.Native.WriteNewfileEnds

/-!
# How the size callback's answers are clamped

The size callback may answer anything positive, and an answer above the capacity of the slot
buffers is to be cut to the capacity.  The loop does not cut it: it takes the block size in
its place, which the probing pass has made a lower bound of the capacity.

Both pipelines walk along the same offsets, and for a callback that looks at the offset only
these do not depend on the order of the completions.  `chunks_clamped_iff` says for which
callbacks every chunk of every run is as it should be.

1. The capacity is a function of the arguments: `capacity`.
2. The offsets at which the chunks should start are `clampedOffset`; they are those of the
   program as long as its chunks are as they should be.
3. `Along` is the invariant that ties a run to the offsets.  It does not ask for room in the
   submission queue, since a callback that is asked again at the same offset says the same.
-/

namespace Pyuring
namespace Native

open CompletionRing Trace

/-- The answers of a size callback that depend on its arguments only. -/
abbrev PureSize : Type := ℕ → ℕ → ℕ → UInt32

/-- A pure size callback. -/
def pureCb (f : PureSize) : BufferSizeCb := fun _ off total default => f off total default

/-- The largest of the callback's answers at the multiples of the block size, and at least the
block size, cut at 64 MiB. -/
def capacity (f : PureSize) (total block : ℕ) : ℕ :=
  min bufferLimit (max block
    (((probeOffsets total block).map fun off => (f off total block).toNat).foldr max 0))

/-- The length that a chunk at `off` should have, with slot buffers of `cap` bytes. -/
def clampedTo (f : PureSize) (total block cap off : ℕ) : ℕ :=
  min (f off total block).toNat (min cap (total - off))

/-- The offset at which the chunk at index `k` should start. -/
def clampedOffset (f : PureSize) (total block : ℕ) : ℕ → ℕ
  | 0 => 0
  | k + 1 => clampedOffset f total block k +
      clampedTo f total block (capacity f total block) (clampedOffset f total block k)

/-- At each of these offsets the answer is within the capacity, or the block size stands for it
just as well: it is the capacity, or no more than a block is left. -/
def Honoured (f : PureSize) (total block : ℕ) : Prop :=
  ∀ k, clampedOffset f total block k < total →
    (f (clampedOffset f total block k) total block).toNat ≤ capacity f total block ∨
      capacity f total block = block ∨ total - clampedOffset f total block k ≤ block

/-! ## The capacity -/

theorem probe_pure (f : PureSize) (total block : ℕ) : ∀ (offs : List ℕ) (m calls : ℕ),
    m ≤ bufferLimit → (probe (pureCb f) total block offs m calls).1 =
      min bufferLimit (max m ((offs.map fun off => (f off total block).toNat).foldr max 0))
  | [], m, calls, hm => by
    simp only [probe, List.map_nil, List.foldr_nil]
    omega
  | off :: offs, m, calls, hm => by
    have hcall : pureCb f calls off total block = f off total block := rfl
    rw [probe_cons, hcall, List.map_cons, List.foldr_cons]
    by_cases hlt : bufferLimit < max m (f off total block).toNat
    · rw [if_pos hlt]
      simp only
      omega
    · have ih := probe_pure f total block offs (max m (f off total block).toNat) (calls + 1)
        (Nat.not_lt.mp hlt)
      rw [if_neg hlt, ih, Nat.max_assoc]

namespace Sizing

variable {z : Sizing} {f : PureSize}

theorem maxBufferSize_of_pure (hcb : z.bufferSizeCb = some (pureCb f))
    (hblock : z.blockSize ≤ bufferLimit) :
    z.maxBufferSize = Native.capacity f z.total z.blockSize := by
  rw [maxBufferSize, probed, hcb]
  exact probe_pure f z.total z.blockSize _ _ 0 hblock

theorem want_pure (hcb : z.bufferSizeCb = some (pureCb f)) (off calls calls' : ℕ) :
    z.want off calls = z.want off calls' := by
  have hat : z.wantAt off calls = z.wantAt off calls' := by
    unfold wantAt
    rw [hcb]
    rfl
  rw [want, want, hat]

/-- **When an answer is clamped.** -/
theorem want_eq_clampedTo_iff (hcb : z.bufferSizeCb = some (pureCb f))
    (hpos : ∀ off total default, 0 < (f off total default).toNat)
    (hblock : z.blockSize ≤ bufferLimit) {off : ℕ} (hoff : off < z.total) (calls : ℕ) :
    z.want off calls = clampedTo f z.total z.blockSize z.maxBufferSize off ↔
      (f off z.total z.blockSize).toNat ≤ z.maxBufferSize ∨ z.maxBufferSize = z.blockSize ∨
        z.total - off ≤ z.blockSize := by
  have hle := blockSize_le_maxBufferSize (z := z) (Or.inr hblock)
  have hfpos := hpos off z.total z.blockSize
  have hans : z.answer off calls = (f off z.total z.blockSize).toNat := by
    simp only [answer, hcb, pureCb]
  have hat := wantAt_of_some hcb off calls
  rw [hans] at hat
  simp only [want, clampedTo]
  split at hat <;> split <;> omega

/-- Past the end there is nothing to ask for. -/
theorem chunkLen_eq_clampedTo_of_end {k : ℕ} (hk : ¬ z.offset k < z.total) :
    z.chunkLen k = clampedTo f z.total z.blockSize z.maxBufferSize (z.offset k) := by
  have hlen : z.chunkLen k ≤ z.total - z.offset k := want_le_remain _ _
  simp only [clampedTo]
  omega

/-- Chunks that are as they should be, where their offsets are, keep the offsets so. -/
theorem offset_eq_clampedOffset (hcb : z.bufferSizeCb = some (pureCb f))
    (hblock : z.blockSize ≤ bufferLimit)
    (hlen : ∀ k, z.offset k = clampedOffset f z.total z.blockSize k → z.offset k < z.total →
      z.chunkLen k = clampedTo f z.total z.blockSize z.maxBufferSize (z.offset k)) (k : ℕ) :
    z.offset k = clampedOffset f z.total z.blockSize k := by
  induction k with
  | zero => rfl
  | succ k ih =>
    rw [offset_succ, clampedOffset, ← ih, ← maxBufferSize_of_pure hcb hblock]
    by_cases hk : z.offset k < z.total
    · rw [hlen k ih hk]
    · rw [chunkLen_eq_clampedTo_of_end hk]

/-- The chunks are as they should be exactly when they are so along the offsets that they
should have. -/
theorem chunkLen_eq_clampedTo_iff (hcb : z.bufferSizeCb = some (pureCb f))
    (hpos : ∀ off total default, 0 < (f off total default).toNat)
    (hblock : z.blockSize ≤ bufferLimit) :
    (∀ k, z.offset k < z.total →
        z.chunkLen k = clampedTo f z.total z.blockSize z.maxBufferSize (z.offset k)) ↔
      Honoured f z.total z.blockSize := by
  have hcap := maxBufferSize_of_pure hcb hblock
  have hiff := fun k (hk : z.offset k < z.total) =>
    want_eq_clampedTo_iff hcb hpos hblock hk (z.chunk k).2
  constructor
  · intro hall
    have hoff := offset_eq_clampedOffset hcb hblock fun k _ hk => hall k hk
    intro k hk
    rw [← hoff k] at hk ⊢
    rw [← hcap]
    exact (hiff k hk).mp (hall k hk)
  · intro hhon
    have hlen : ∀ k, z.offset k = clampedOffset f z.total z.blockSize k → z.offset k < z.total →
        z.chunkLen k = clampedTo f z.total z.blockSize z.maxBufferSize (z.offset k) := by
      intro k hoff hk
      have hkept := hhon k (hoff ▸ hk)
      rw [← hoff, ← hcap] at hkept
      exact (hiff k hk).mpr hkept
    exact fun k hk => hlen k (offset_eq_clampedOffset hcb hblock hlen k) hk

end Sizing

/-! ## Walking along the offsets -/

/-- The next chunk starts at an offset of the sequence, and every request of kind `op` prepared
so far is a chunk of it. -/
structure Along (z : Sizing) (op : Opcode) (nextOff : ℕ) (log : List Ev) : Prop where
  next : ∃ k, z.offset k = nextOff
  issued : ∀ q ∈ prepped log, q.opcode = op →
    ∃ k, z.offset k < z.total ∧ q.off = z.offset k ∧ q.len = z.chunkLen k

section Along

variable {z : Sizing} {f : PureSize} {op : Opcode} {nextOff : ℕ} {log new : List Ev}

theorem along_nil (z : Sizing) (op : Opcode) : Along z op 0 [] :=
  ⟨⟨0, rfl⟩, fun q hq => absurd hq (by simp [prepped])⟩

theorem Along.congr (h : Along z op nextOff log) (hprep : prepped new = prepped log) :
    Along z op nextOff new := ⟨h.next, by rw [hprep]; exact h.issued⟩

/-- One more chunk is prepared. -/
theorem Along.prep (h : Along z op nextOff log) (hcb : z.bufferSizeCb = some (pureCb f))
    (hlt : nextOff < z.total) {calls : ℕ} {q : Sqe} (hoff : q.off = nextOff)
    (hlen : q.len = z.want nextOff calls) :
    Along z op (nextOff + z.want nextOff calls) (.prep q :: log) := by
  obtain ⟨k, hk⟩ := h.next
  have hchunk : z.chunkLen k = z.want nextOff calls := by
    rw [← hk]
    exact Sizing.want_pure hcb _ _ _
  refine ⟨⟨k + 1, by rw [Sizing.offset_succ, hk, hchunk]⟩, ?_⟩
  intro p hp hop
  rcases List.mem_append.mp hp with hp | hp
  · exact h.issued p hp hop
  · rw [List.mem_singleton.mp hp]
    exact ⟨k, hk ▸ hlt, by rw [hoff, hk], by rw [hlen, hchunk]⟩

/-- A request of another kind is prepared. -/
theorem Along.prepOther (h : Along z op nextOff log) {q : Sqe} (hop : q.opcode ≠ op) :
    Along z op nextOff (.prep q :: log) := by
  refine ⟨h.next, ?_⟩
  intro p hp hpop
  rcases List.mem_append.mp hp with hp | hp
  · exact h.issued p hp hpop
  · rw [List.mem_singleton.mp hp] at hpop
    exact absurd hpop hop

end Along

namespace CopyPath

variable {cfg : Config} {f : PureSize} {s t : State}

/-- A copy walks along the offsets. -/
def Walks (cfg : Config) (s : State) : Prop := Along cfg.sizing .read s.nextOff s.log

theorem Walks.enqueueRead (h : Walks cfg s) (hcb : cfg.bufferSizeCb = some (pureCb f))
    (hlt : s.nextOff < cfg.fileSize) (i : ℕ) : Walks cfg (enqueueRead cfg i s) := by
  unfold CopyPath.enqueueRead
  simp only
  split
  · exact Along.congr h rfl
  · exact Along.prep h hcb hlt rfl rfl

theorem Walks.primeLoop (hcb : cfg.bufferSizeCb = some (pureCb f)) : ∀ (is : List ℕ) {s : State},
    Walks cfg s → Walks cfg (primeLoop cfg is s)
  | [], _, h => h
  | i :: is, s, h => by
    rw [CopyPath.primeLoop]
    split
    · next hcont =>
      have hactive : Walks cfg (s.setActive i true) := h
      exact Walks.primeLoop hcb is (hactive.enqueueRead hcb hcont.1 i)
    · exact h

theorem Walks.submit (h : Walks cfg s) (r : ℤ) : Walks cfg (s.submit r) := by
  unfold State.submit
  split <;> exact h

theorem Walks.andSubmit (h : Walks cfg s) (r : ℤ) : Walks cfg (s.andSubmit r) := by
  unfold State.andSubmit
  split
  · exact h
  · exact h.submit r

theorem Walks.onCqe (h : Walks cfg s) (hcb : cfg.bufferSizeCb = some (pureCb f)) (ud : UInt64)
    (res r : ℤ) : Walks cfg (onCqe cfg ud res r s) := by
  simp only [CopyPath.onCqe]
  split
  · exact h
  split
  · exact h
  split
  · rcases onRead_cases cfg (udSlot ud).toNat res r s with ⟨-, heq⟩ | ⟨-, heq⟩ | ⟨-, heq⟩ <;>
      rw [heq]
    · exact h
    · exact h
    · have hpush : Walks cfg (pushWrite (udSlot ud).toNat res s) :=
        Along.prepOther h (by simp [writeSqe])
      exact hpush.submit r
  · have hrep : Walks cfg (report cfg { s with copied := s.copied + res.toNat }).2 := by
      unfold report
      split
      · exact h
      · exact Along.congr h rfl
    unfold onWrite
    generalize report cfg { s with copied := s.copied + res.toNat } = x at hrep
    obtain ⟨cancel, u⟩ := x
    simp only
    split
    · exact hrep
    split
    · next hlt => exact (hrep.enqueueRead hcb hlt _).andSubmit r
    · exact hrep

theorem Walks.step (h : Walks cfg s) (hcb : cfg.bufferSizeCb = some (pureCb f)) {e : Event}
    (ht : step cfg s e = some t) : Walks cfg t := by
  cases step_cases ht with
  | complete _ hc =>
    obtain ⟨q, ring, -, -, hcase⟩ := complete_cases hc
    rcases hcase with ⟨-, -, rfl⟩ | ⟨-, rfl⟩ <;> exact Along.congr h rfl
  | prime => exact (Walks.primeLoop hcb _ h).andSubmit _
  | @iterate w r t _ _ hit =>
    unfold iterate at hit
    split at hit
    · rw [← Option.some.inj hit]
      exact h
    · obtain ⟨⟨⟨q, res⟩, ring⟩, -, rfl⟩ := Option.map_eq_some_iff.mp hit
      have hreap : Walks cfg { s with ring := ring, inflight := s.inflight - 1, ret := w } := h
      exact hreap.onCqe hcb _ _ _
  | @finish ok e _ _ =>
    unfold finish
    cases ok <;> cases cfg.doFsync <;> cases e <;> exact Along.congr h rfl
  | cleanup => exact h

/-- In every run of a call with these sizes and this queue depth, every chunk has the length
that it should have. -/
def ChunksClamped (cfg : Config) (f : PureSize) : Prop :=
  ∀ cfg' s, cfg'.sizing = cfg.sizing → cfg'.qd = cfg.qd →
    Reach (step cfg') AnyStep (start cfg') s → ∀ q, Ev.prep q ∈ s.log → q.opcode = .read →
      q.len = clampedTo f cfg'.fileSize cfg'.blockSize cfg'.maxBufferSize q.off

theorem chunksClamped_iff (hcb : cfg.bufferSizeCb = some (pureCb f))
    (hpos : ∀ off total default, 0 < (f off total default).toNat)
    (hlimit : cfg.blockSize ≤ bufferLimit) (hqd : 0 < cfg.qd) (hblock : 0 < cfg.blockSize) :
    ChunksClamped cfg f ↔ Honoured f cfg.fileSize cfg.blockSize := by
  have hiff := Sizing.chunkLen_eq_clampedTo_iff (z := cfg.sizing) hcb hpos hlimit
  constructor
  · intro hall
    refine hiff.mp ?_
    intro k hk
    obtain ⟨s, q, hreach, hq, hop, hoff, hlen⟩ :=
      exists_prep_chunk (undisturbed_calm hqd hblock) (k := k) hk
    have hclamped := hall (calm cfg) s rfl rfl hreach q hq hop
    rw [hoff, hlen] at hclamped
    exact hclamped
  · intro hhon cfg' s hsizing _ hreach q hq hop
    have hcb' : cfg'.bufferSizeCb = some (pureCb f) :=
      (congrArg Sizing.bufferSizeCb hsizing).trans hcb
    have hwalks : Walks cfg' s := hreach.invariant (along_nil cfg'.sizing .read)
      fun _ _ _ hs _ ht => hs.step hcb' ht
    obtain ⟨k, hk, hoff, hlen⟩ := hwalks.issued q (mem_prepped.mpr hq) hop
    have hclamped := hiff.mpr hhon
    rw [← hsizing] at hclamped
    rw [hoff, hlen]
    exact hclamped k hk

end CopyPath

namespace WriteNewfile

variable {cfg : Config} {f : PureSize} {s t : State}

/-- The writer of a new file walks along the offsets. -/
def Walks (cfg : Config) (s : State) : Prop := Along cfg.sizing .write s.nextOff s.log

theorem Walks.enqueue (hcb : cfg.bufferSizeCb = some (pureCb f)) : ∀ (n : ℕ) {s : State},
    Walks cfg s → Walks cfg (enqueue cfg n s)
  | 0, _, h => h
  | n + 1, s, h => by
    rw [WriteNewfile.enqueue]
    split
    · next hcont =>
      unfold enqueueOne
      simp only
      split
      · next hpush => exact h
      · next ring hpush => exact Walks.enqueue hcb n (Along.prep h hcb hcont.1 rfl rfl)
    · exact h

theorem Walks.fill (h : Walks cfg s) (hcb : cfg.bufferSizeCb = some (pureCb f)) (r : ℤ) :
    Walks cfg (fill cfg r s) := by
  have hqueued := Walks.enqueue hcb cfg.qd h
  unfold WriteNewfile.fill
  simp only
  split
  · exact hqueued
  split <;> exact hqueued

theorem Walks.reap (h : Walks cfg s) : Walks cfg (reap cfg s) := by
  unfold WriteNewfile.reap
  simp only
  split
  · exact h
  rcases reapBatch_cases cfg (s.ring.completed.take batchSize).length
    (s.ring.completed.take batchSize) 0 s with ⟨-, -, hkept⟩ | ⟨-, n, log, hlog, heq⟩
  · have hwalks := Along.congr h hkept.log.prepped_eq
    rw [← hkept.nextOff] at hwalks
    exact hwalks
  · rw [heq]
    exact Along.congr h hlog.prepped_eq

theorem Walks.step (h : Walks cfg s) (hcb : cfg.bufferSizeCb = some (pureCb f)) {e : Event}
    (ht : step cfg s e = some t) : Walks cfg t := by
  cases step_cases ht with
  | complete _ hc =>
    obtain ⟨q, ring, -, -, rfl⟩ := complete_cases hc
    exact Along.congr h rfl
  | fill => exact h.fill hcb _
  | waitFails => exact h
  | waits => exact h
  | reap => exact h.reap
  | @finish e _ _ =>
    unfold finish
    cases cfg.doFsync <;> cases e <;> exact Along.congr h rfl
  | cleanup => exact h

/-- In every run of a call with these sizes and this queue depth, every chunk has the length
that it should have. -/
def ChunksClamped (cfg : Config) (f : PureSize) : Prop :=
  ∀ cfg' s, cfg'.sizing = cfg.sizing → cfg'.qd = cfg.qd →
    Reach (step cfg') AnyStep (start cfg') s → ∀ q, Ev.prep q ∈ s.log → q.opcode = .write →
      q.len = clampedTo f cfg'.totalBytes cfg'.blockSize cfg'.maxBufferSize q.off

theorem chunksClamped_iff (hcb : cfg.bufferSizeCb = some (pureCb f))
    (hpos : ∀ off total default, 0 < (f off total default).toNat)
    (hlimit : cfg.blockSize ≤ bufferLimit) (htotal : 0 < cfg.totalMb) (hqd : 0 < cfg.qd)
    (hblock : 0 < cfg.blockSize) :
    ChunksClamped cfg f ↔ Honoured f cfg.totalBytes cfg.blockSize := by
  have hiff := Sizing.chunkLen_eq_clampedTo_iff (z := cfg.sizing) hcb hpos hlimit
  constructor
  · intro hall
    refine hiff.mp ?_
    intro k hk
    obtain ⟨s, q, hreach, hq, hoff, hlen⟩ :=
      exists_prep_chunk (undisturbed_calm htotal hqd hblock) (k := k) hk
    have hroom : (calm cfg).qd ≤ (calm cfg).sqEntries := Nat.le_refl _
    have hop := ((sound_reach hroom hreach).filed.file q (mem_prepped.mpr hq)).1
    have hclamped := hall (calm cfg) s rfl rfl hreach q hq hop
    rw [hoff, hlen] at hclamped
    exact hclamped
  · intro hhon cfg' s hsizing _ hreach q hq hop
    have hcb' : cfg'.bufferSizeCb = some (pureCb f) :=
      (congrArg Sizing.bufferSizeCb hsizing).trans hcb
    have hwalks : Walks cfg' s := hreach.invariant (along_nil cfg'.sizing .write)
      fun _ _ _ hs _ ht => hs.step hcb' ht
    obtain ⟨k, hk, hoff, hlen⟩ := hwalks.issued q (mem_prepped.mpr hq) hop
    have hclamped := hiff.mpr hhon
    rw [← hsizing] at hclamped
    rw [hoff, hlen]
    exact hclamped k hk

end WriteNewfile

/-- **When the size callback's answers are clamped.**  For every pure callback with positive
answers, every number of bytes, queue depth and block size up to 64 MiB, and in every order of
the completions, each chunk at an offset has the length that the callback answers there, cut
to the capacity of the slot buffers and to what is left, exactly when the answers along the
offsets are honoured. -/
theorem chunks_clamped_iff (copy : CopyPath.Config) (newfile : WriteNewfile.Config) (f : PureSize)
    (hpos : ∀ off total default, 0 < (f off total default).toNat)
    (hcopy : copy.bufferSizeCb = some (pureCb f)) (hnewfile : newfile.bufferSizeCb = some (pureCb f))
    (hlimit : copy.blockSize ≤ bufferLimit) (hlimit' : newfile.blockSize ≤ bufferLimit) :
    (0 < copy.qd → 0 < copy.blockSize →
      (CopyPath.ChunksClamped copy f ↔ Honoured f copy.fileSize copy.blockSize)) ∧
    (0 < newfile.totalMb → 0 < newfile.qd → 0 < newfile.blockSize →
      (WriteNewfile.ChunksClamped newfile f ↔ Honoured f newfile.totalBytes newfile.blockSize)) :=
  ⟨CopyPath.chunksClamped_iff hcopy hpos hlimit, WriteNewfile.chunksClamped_iff hnewfile hpos hlimit'⟩

/-- A callback that always answers 128 MiB. -/
def bigAnswer : PureSize := fun _ _ _ => 134217728

theorem bigAnswer_pos (off total default : ℕ) : 0 < (bigAnswer off total default).toNat := by
  show 0 < (134217728 : UInt32).toNat
  decide

/-- Two bytes, in blocks of one. -/
def CopyPath.twoBytes : CopyPath.Config where
  src := [1, 2]
  qd := 1
  blockSize := 1
  bufferSizeCb := some (pureCb bigAnswer)
  doFsync := false
  progressCb := none
  sqEntries := 1
  setup := .ok
  qd_lt := one_lt_uint32
  blockSize_lt := one_lt_uint32

theorem sixHundredThousand_lt : 600000 < 2 ^ 32 := by decide

/-- One MiB, in blocks of 600000 bytes. -/
def WriteNewfile.twoBlocks : WriteNewfile.Config where
  totalMb := 1
  blockSize := 600000
  qd := 1
  doFsync := false
  dsyncEachWrite := false
  bufferSizeCb := some (pureCb bigAnswer)
  progressCb := none
  sqEntries := 1
  setup := .ok
  totalMb_lt := one_lt_uint32
  blockSize_lt := sixHundredThousand_lt
  qd_lt := one_lt_uint32

theorem chunks_clamped_iff_two :
    (0 < CopyPath.twoBytes.qd → 0 < CopyPath.twoBytes.blockSize →
      (CopyPath.ChunksClamped CopyPath.twoBytes bigAnswer ↔
        Honoured bigAnswer CopyPath.twoBytes.fileSize CopyPath.twoBytes.blockSize)) ∧
    (0 < WriteNewfile.twoBlocks.totalMb → 0 < WriteNewfile.twoBlocks.qd →
      0 < WriteNewfile.twoBlocks.blockSize →
      (WriteNewfile.ChunksClamped WriteNewfile.twoBlocks bigAnswer ↔
        Honoured bigAnswer WriteNewfile.twoBlocks.totalBytes WriteNewfile.twoBlocks.blockSize)) :=
  chunks_clamped_iff CopyPath.twoBytes WriteNewfile.twoBlocks bigAnswer
    bigAnswer_pos rfl rfl (by decide) (by decide)

/-- Two bytes are copied with slot buffers of 64 MiB and a callback that asks for 128 MiB: the
first chunk is a single byte. -/
theorem answer_not_clamped : ¬ ∀ (cfg : CopyPath.Config) (f : PureSize) (s : CopyPath.State),
    (∀ off total default, 0 < (f off total default).toNat) →
    cfg.bufferSizeCb = some (pureCb f) → cfg.blockSize ≤ bufferLimit →
    Reach (CopyPath.step cfg) AnyStep (CopyPath.start cfg) s →
      ∀ q, Ev.prep q ∈ s.log → q.opcode = .read →
        q.len = clampedTo f cfg.fileSize cfg.blockSize cfg.maxBufferSize q.off := by
  intro hall
  have hexec : ((exec (CopyPath.step CopyPath.twoBytes) (CopyPath.start CopyPath.twoBytes)
      [.prime 1]).map fun s => prepped s.log) = some [CopyPath.readSqe 0 1 0] := by
    decide
  obtain ⟨s, hs, hprep⟩ := Option.map_eq_some_iff.mp hexec
  have hmem : Ev.prep (CopyPath.readSqe 0 1 0) ∈ s.log := by
    rw [← mem_prepped, hprep]
    exact List.mem_singleton_self _
  have hlen := hall CopyPath.twoBytes bigAnswer s bigAnswer_pos rfl (by decide)
    (reach_anyStep_of_exec hs) _ hmem rfl
  exact absurd hlen (by decide)

end Native
end Pyuring
