import Pyuring.Native.CopyPathRun
import Pyuring.Native.WriteNewfileRun

/-!
# Requests and the buffers they use

Both pipelines that take a size callback allocate their slot buffers before they
know the lengths of their requests.  `request_lengths_iff` says for which sizes,
block sizes and callbacks every request fits: exactly for those whose chunks fit
(`Sizing.Fits`).

That the condition is enough holds in every run.  That it is needed is shown by a
run in which the kernel moves a single byte per request: such a run ends, so it
prepares every chunk of the sequence, the one that does not fit included.
-/

namespace Pyuring
namespace Native

open Trace

/-- A size callback that has no answer. -/
def noAnswer : BufferSizeCb := fun _ _ _ _ => 0

namespace CopyPath

variable {cfg : Config} {s : State}

/-- In every run of a call with these sizes and this queue depth, every request
prepared fits its slot buffer. -/
def LengthsFit (cfg : Config) : Prop :=
  ∀ cfg' s, cfg'.sizing = cfg.sizing → cfg'.qd = cfg.qd →
    Reach (step cfg') AnyStep (start cfg') s →
      ∀ q, Ev.prep q ∈ s.log → q.len ≤ cfg'.maxBufferSize

/-- The same call, with nothing around it going wrong. -/
def calm (cfg : Config) : Config :=
  { cfg with progressCb := none, sqEntries := cfg.qd, setup := .ok }

theorem undisturbed_calm (hqd : 0 < cfg.qd) (hblock : 0 < cfg.blockSize) :
    Undisturbed (calm cfg) where
  setup := rfl
  qd_pos := hqd
  blockSize_pos := hblock
  room := Nat.le_refl _
  progress := by rintro ⟨_, _, cb, h, _⟩; exact absurd h (by simp [calm])

/-- A piece that was reserved is a read that was prepared. -/
theorem exists_prep_of_mem_spans {c : Span} : ∀ {log : List Ev}, c ∈ spans log →
    ∃ q, Ev.prep q ∈ log ∧ q.opcode = .read ∧ q.off = c.off ∧ q.len = c.len
  | [], h => absurd h List.not_mem_nil
  | .prep q :: log, h => by
    cases hop : q.opcode with
    | read =>
      simp only [spans, hop, List.mem_append, List.mem_singleton] at h
      rcases h with h | rfl
      · obtain ⟨q', hq', hlen⟩ := exists_prep_of_mem_spans h
        exact ⟨q', List.mem_cons_of_mem _ hq', hlen⟩
      · exact ⟨q, List.mem_cons_self, hop, rfl, rfl⟩
    | write =>
      simp only [spans, hop] at h
      obtain ⟨q', hq', hlen⟩ := exists_prep_of_mem_spans h
      exact ⟨q', List.mem_cons_of_mem _ hq', hlen⟩
  | .done q res :: log, h => by
    cases hop : q.opcode with
    | read =>
      rw [spans_done_read hop] at h
      obtain ⟨q', hq', hlen⟩ := exists_prep_of_mem_spans h
      exact ⟨q', List.mem_cons_of_mem _ hq', hlen⟩
    | write =>
      rw [spans_done_write hop, Span.mem_setMoved] at h
      obtain ⟨d, hd, rfl⟩ := h
      obtain ⟨q', hq', hread, hoff, hlen⟩ := exists_prep_of_mem_spans hd
      exact ⟨q', List.mem_cons_of_mem _ hq', hread, hoff.trans Span.off_of_ite.symm,
        hlen.trans Span.len_of_ite.symm⟩
  | .progress _ _ :: log, h => by
    obtain ⟨q', hq', hlen⟩ := exists_prep_of_mem_spans (show c ∈ spans log from h)
    exact ⟨q', List.mem_cons_of_mem _ hq', hlen⟩
  | .fsync _ :: log, h => by
    obtain ⟨q', hq', hlen⟩ := exists_prep_of_mem_spans (show c ∈ spans log from h)
    exact ⟨q', List.mem_cons_of_mem _ hq', hlen⟩

/-- A kernel that moves a byte at a time. -/
theorem fair_one : Fair fun _ => 1 where
  pos _ _ := Nat.one_pos
  le _ h := h

/-- An undisturbed copy prepares a read for every chunk. -/
theorem exists_prep_chunk (hcfg : Undisturbed cfg) {k : ℕ}
    (hk : cfg.sizing.offset k < cfg.fileSize) :
    ∃ s q, Reach (step cfg) AnyStep (start cfg) s ∧ Ev.prep q ∈ s.log ∧ q.opcode = .read ∧
      q.off = cfg.sizing.offset k ∧ q.len = cfg.sizing.chunkLen k := by
  obtain ⟨s, hreach, r, hret⟩ := (terminates hcfg fair_one).exists_final
  obtain ⟨hgood, hrun⟩ := running_reach hcfg fair_one hreach
  rw [hret] at hrun
  obtain ⟨hr, hres⟩ := hrun
  have hfin : Finished cfg s := by
    simp only [Good, hret] at hgood
    rcases hgood with ⟨hneg, _⟩ | ⟨_, hfin⟩
    · omega
    · exact hfin
  obtain ⟨n, hn, hasked⟩ := hfin.chunked
  have hoff : cfg.sizing.offset n = cfg.fileSize := (congrArg Prod.fst hn).trans hres.nextOff
  have hmem := Sizing.mem_chunks (hoff.symm ▸ hk)
  rw [← hasked] at hmem
  obtain ⟨c, hc, heq⟩ := List.mem_map.mp hmem
  obtain ⟨q, hq, hread, hoff, hlen⟩ := exists_prep_of_mem_spans hc
  exact ⟨s, q, hreach.mono fun s e _ => anyStep s e, hq, hread,
    hoff.trans (Prod.mk.inj heq).1, hlen.trans (Prod.mk.inj heq).2⟩

theorem lengthsFit_iff (hqd : 0 < cfg.qd) (hblock : 0 < cfg.blockSize) :
    LengthsFit cfg ↔ cfg.sizing.Fits := by
  constructor
  · intro hall
    refine Sizing.fits_iff.mpr ?_
    intro k hk
    obtain ⟨s, q, hreach, hq, -, -, hlen⟩ :=
      exists_prep_chunk (undisturbed_calm hqd hblock) (k := k) hk
    have hle := hall (calm cfg) s rfl rfl hreach q hq
    rw [hlen] at hle
    exact hle
  · intro hfits cfg' s hsizing _ hreach q hq
    obtain ⟨k, hk, hle⟩ := (good_reach hreach).prep hq
    refine Nat.le_trans hle (Sizing.fits_iff.mp (hsizing ▸ hfits) k hk)

end CopyPath

namespace WriteNewfile

variable {cfg : Config} {s : State}

/-- In every run of a call with these sizes and this queue depth, on a ring that
has room for `qd` requests, every request prepared fits its slot buffer. -/
def LengthsFit (cfg : Config) : Prop :=
  ∀ cfg' s, cfg'.sizing = cfg.sizing → cfg'.qd = cfg.qd → cfg'.qd ≤ cfg'.sqEntries →
    Reach (step cfg') AnyStep (start cfg') s →
      ∀ q, Ev.prep q ∈ s.log → q.len ≤ cfg'.maxBufferSize

/-- The same call, with nothing around it going wrong. -/
def calm (cfg : Config) : Config :=
  { cfg with progressCb := none, sqEntries := cfg.qd, setup := .ok }

theorem undisturbed_calm (htotal : 0 < cfg.totalMb) (hqd : 0 < cfg.qd)
    (hblock : 0 < cfg.blockSize) : Undisturbed (calm cfg) where
  setup := rfl
  totalMb_pos := htotal
  blockSize_pos := hblock
  qd_pos := hqd
  room := Nat.le_refl _
  progress _ _ := not_cancelsAt_of_none rfl _ _

theorem Chunked.exists_prep {n : ℕ} (h : Chunked cfg s n) {k : ℕ}
    (hk : cfg.sizing.offset k < s.nextOff) :
    ∃ q, Ev.prep q ∈ s.log ∧ q.off = cfg.sizing.offset k ∧ q.len = cfg.sizing.chunkLen k := by
  have hoff : cfg.sizing.offset n = s.nextOff := congrArg Prod.fst h.chunk
  have hmem := Sizing.mem_chunks (hoff.symm ▸ hk)
  rw [← h.prepped] at hmem
  obtain ⟨q, hq, heq⟩ := List.mem_map.mp hmem
  exact ⟨q, mem_prepped.mp hq, (Prod.mk.inj heq).1, (Prod.mk.inj heq).2⟩

theorem Chunked.len_le {n : ℕ} (h : Chunked cfg s n) {q : Sqe} (hq : Ev.prep q ∈ s.log) :
    ∃ k, cfg.sizing.offset k < cfg.totalBytes ∧ q.len = cfg.sizing.chunkLen k := by
  have hmem : (q.off, q.len) ∈ cfg.sizing.chunks n := by
    rw [← h.prepped]
    exact List.mem_map.mpr ⟨q, mem_prepped.mpr hq, rfl⟩
  obtain ⟨k, hk, heq⟩ := List.mem_map.mp hmem
  exact ⟨k, h.offset_lt k (List.mem_range.mp hk), (Prod.mk.inj heq).2.symm⟩

/-- Undisturbed writes prepare a write for every chunk. -/
theorem exists_prep_chunk (hcfg : Undisturbed cfg) {k : ℕ}
    (hk : cfg.sizing.offset k < cfg.totalBytes) :
    ∃ s q, Reach (step cfg) AnyStep (start cfg) s ∧ Ev.prep q ∈ s.log ∧
      q.off = cfg.sizing.offset k ∧ q.len = cfg.sizing.chunkLen k := by
  obtain ⟨s, hreach, r, hret⟩ :=
    (terminates hcfg (show ∀ q : Sqe, 0 < q.len → 1 ≤ q.len from fun _ hlen => hlen)).exists_final
  have hrun := running_reach hcfg hreach
  obtain ⟨n, hn⟩ := hrun.chunked
  have hoff := (hrun.returned r hret).2.nextOff
  obtain ⟨q, hq, hlen⟩ := hn.exists_prep (Nat.lt_of_lt_of_le hk hoff)
  exact ⟨s, q, hreach.mono fun s e _ => anyStep s e, hq, hlen⟩

theorem lengthsFit_iff (htotal : 0 < cfg.totalMb) (hqd : 0 < cfg.qd) (hblock : 0 < cfg.blockSize) :
    LengthsFit cfg ↔ cfg.sizing.Fits := by
  constructor
  · intro hall
    refine Sizing.fits_iff.mpr ?_
    intro k hk
    obtain ⟨s, q, hreach, hq, -, hlen⟩ :=
      exists_prep_chunk (undisturbed_calm htotal hqd hblock) (k := k) hk
    have hle := hall (calm cfg) s rfl rfl (Nat.le_refl _) hreach q hq
    rw [hlen] at hle
    exact hle
  · intro hfits cfg' s hsizing _ hroom hreach q hq
    obtain ⟨n, hn⟩ := (good_reach hreach).2 hroom
    obtain ⟨k, hk, hlen⟩ := hn.len_le hq
    rw [hlen]
    exact Sizing.fits_iff.mp (hsizing ▸ hfits) k hk

/-- One block of 128 MiB, and a size callback that has no answer. -/
def oneBigBlock : Config where
  totalMb := 128
  blockSize := 128 * 1024 * 1024
  qd := 1
  doFsync := false
  dsyncEachWrite := false
  bufferSizeCb := some noAnswer
  progressCb := none
  sqEntries := 1
  setup := .ok
  totalMb_lt := by decide
  blockSize_lt := by decide
  qd_lt := by decide

end WriteNewfile

/-- **When requests fit their buffers.**  For every source, queue depth, block size
and size callback, every request of every run of a copy fits its slot buffer
exactly when the chunks fit, and the same holds of the writer of a new file. -/
theorem request_lengths_iff (copy : CopyPath.Config) (newfile : WriteNewfile.Config) :
    (0 < copy.qd → 0 < copy.blockSize → (CopyPath.LengthsFit copy ↔ copy.sizing.Fits)) ∧
    (0 < newfile.totalMb → 0 < newfile.qd → 0 < newfile.blockSize →
      (WriteNewfile.LengthsFit newfile ↔ newfile.sizing.Fits)) :=
  ⟨CopyPath.lengthsFit_iff, WriteNewfile.lengthsFit_iff⟩

/-- A single block of 128 MiB with a callback that answers zero: the write asks for
all of it, out of a buffer of 64 MiB. -/
theorem request_lengths_exceed : ¬ ∀ (cfg : WriteNewfile.Config) (s : WriteNewfile.State),
    Reach (WriteNewfile.step cfg) AnyStep (WriteNewfile.start cfg) s →
      ∀ q, Ev.prep q ∈ s.log → q.len ≤ cfg.maxBufferSize := by
  intro hall
  have hexec : ((exec (WriteNewfile.step WriteNewfile.oneBigBlock)
      (WriteNewfile.start WriteNewfile.oneBigBlock) [.fill 1]).map fun s =>
        (prepped s.log).map Sqe.len) = some [134217728] := by
    decide
  obtain ⟨s, hs, hlens⟩ := Option.map_eq_some_iff.mp hexec
  have hmem : 134217728 ∈ (prepped s.log).map Sqe.len := by rw [hlens]; exact List.mem_cons_self
  obtain ⟨q, hq, hlen⟩ := List.mem_map.mp hmem
  have hle := hall _ s (reach_anyStep_of_exec hs) q (mem_prepped.mp hq)
  rw [hlen] at hle
  exact absurd hle (by decide)

end Native
end Pyuring
