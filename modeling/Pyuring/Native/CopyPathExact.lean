import Pyuring.Native.CopyPathRun

/-!
# What a copy leaves in the destination

The number the function returns and the file it leaves are related by what the
kernel moved of each chunk.  Chunks are reserved by the length asked for, written
at the offset reserved, and counted by the length written, so a chunk that came
back short leaves a hole in front of the chunks after it, and the final
`ftruncate` to the count cuts bytes off that were already written.

`copy_path_prefix_iff` makes this exact: the destination is the first `n` bytes
of the source, `n` being the value returned, when only the tail came back short,
and in no other case.  `copy_path_exact` is the case in which nothing comes back
short.
-/

namespace Pyuring
namespace Native
namespace CopyPath

open CompletionRing Trace

variable {cfg : Config} {s : State}

/-- The kernel gives no negative result. -/
def NonNegative (_ : State) : Event → Prop
  | .complete _ res => 0 ≤ res
  | _ => True

/-- No read returned more than a slot buffer holds, and once a chunk was moved
short, no later chunk was moved at all. -/
def InOrder (cfg : Config) (log : List Ev) : Prop :=
  (∀ q res, Ev.done q res ∈ log → q.opcode = .read → res.toNat ≤ cfg.maxBufferSize) ∧
    Span.ShortOnlyAtTail (spans log)

theorem Finished.copied_le (h : Finished cfg s) : s.copied ≤ cfg.fileSize := by
  have := h.tiles.total_le h.moved_le
  have := h.nextOff_le
  rw [h.copied]
  omega

/-- The destination covers the count exactly when only the tail is short. -/
theorem Finished.covered_iff (h : Finished cfg s) :
    (∀ p < s.copied, ∃ c ∈ spans s.log, c.Covers p) ↔ Span.ShortOnlyAtTail (spans s.log) := by
  rw [← h.tiles.covered_iff h.moved_le, h.copied]
  simp

/-- When only the tail is short, the destination is as long as the count. -/
theorem Finished.size_eq (h : Finished cfg s) (hshort : Span.ShortOnlyAtTail (spans s.log)) :
    s.dst.size = s.copied := by
  rcases h.size with heq | ⟨hle, hattained⟩
  · exact heq
  have hend := fun {c} => h.tiles.end_le_of_shortOnlyAtTail h.moved_le hshort (c := c)
  rw [h.copied]
  apply Nat.le_antisymm
  · rcases hattained with h0 | ⟨c, hc, hpos, hsize⟩
    · omega
    · have := hend hc hpos
      omega
  · rcases Nat.eq_zero_or_pos (Span.total (spans s.log)) with h0 | hpos
    · omega
    · -- the last byte counted belongs to a chunk, which ends inside the file
      obtain ⟨c, hc, hcov⟩ := (h.covered_iff.mpr hshort) (Span.total (spans s.log) - 1) (by
        rw [h.copied]
        omega)
      have h₁ := hcov.1
      have h₂ := hcov.2
      have := hle c hc (by omega)
      omega

theorem Finished.holds_iff (h : Finished cfg s) :
    s.dst.Holds (cfg.src.take s.copied) ↔ Span.ShortOnlyAtTail (spans s.log) := by
  have hle := h.copied_le
  have hlen : (cfg.src.take s.copied).length = s.copied := by
    rw [List.length_take]
    exact Nat.min_eq_left hle
  constructor
  · rintro ⟨_, hbyte⟩
    refine h.covered_iff.mp ?_
    intro p hp
    have hsrc : cfg.src[p]? ≠ none := by
      rw [Ne, List.getElem?_eq_none_iff]
      simp only [Config.fileSize] at hle
      omega
    have hp' := hbyte p (hlen.symm ▸ hp)
    rw [h.byte p hp, List.getElem?_take_of_lt hp] at hp'
    by_contra hno
    rw [if_neg hno] at hp'
    exact hsrc hp'.symm
  · intro hshort
    refine ⟨(h.size_eq hshort).trans hlen.symm, ?_⟩
    intro p hp
    rw [hlen] at hp
    rw [h.byte p hp, if_pos (h.covered_iff.mpr hshort p hp), List.getElem?_take_of_lt hp]

theorem Good.finished (h : Good cfg s) {n : ℕ} (hret : s.phase = .returned n) :
    s.copied = n ∧ Finished cfg s := by
  simp only [Good, hret] at h
  rcases h with ⟨hneg, _⟩ | ⟨heq, hfin⟩
  · omega
  · exact ⟨by omega, hfin⟩

theorem finished_of_returned {P : State → Event → Prop} (h : Reach (step cfg) P (start cfg) s)
    {n : ℕ} (hret : s.phase = .returned n) : s.copied = n ∧ Finished cfg s :=
  (good_reach h).finished hret

/-- **When a copy returns a prefix.**  In every run that returns `n`, the slot
buffers stayed intact and the destination is the first `n` bytes of the source
exactly when the kernel served the chunks in order. -/
theorem copy_path_prefix_iff {n : ℕ} (h : Reach (step cfg) AnyStep (start cfg) s)
    (hret : s.phase = .returned n) :
    (s.overrun = false ∧ s.dst.Holds (cfg.src.take n)) ↔ InOrder cfg s.log := by
  obtain ⟨hn, hfin⟩ := finished_of_returned h hret
  rw [(good_reach h).overrun, ← hn, hfin.holds_iff, InOrder]

/-- Two chunks of two bytes, one in each of two slots. -/
def twoChunks : Config where
  src := [1, 2, 3, 4]
  qd := 2
  blockSize := 2
  bufferSizeCb := none
  doFsync := false
  progressCb := none
  sqEntries := 2
  setup := .ok
  qd_lt := by decide
  blockSize_lt := by decide

/-- The read of the first chunk comes back with one byte, all else in full. -/
def shortRead : List Event :=
  [.prime 2, .complete 0 1, .iterate 0 1, .complete 1 1, .iterate 0 1, .complete 0 2,
    .iterate 0 1, .complete 0 2, .iterate 0 1, .finish true none, .cleanup]

/-- The run with the short read returns three and leaves `1, 0, 3`. -/
theorem exec_shortRead : ((exec (step twoChunks) (start twoChunks) shortRead).map fun s =>
    (s.phase, s.dst.contents)) = some (.returned 3, [1, 0, 3]) := by
  decide

theorem copy_path_prefix_iff_twoChunks : ∃ s : State, s.phase = .returned 3 ∧
    ((s.overrun = false ∧ s.dst.Holds (twoChunks.src.take 3)) ↔ InOrder twoChunks s.log) := by
  obtain ⟨s, hs, hobs⟩ := Option.map_eq_some_iff.mp exec_shortRead
  have hret : s.phase = .returned (3 : ℕ) := congrArg Prod.fst hobs
  exact ⟨s, hret, copy_path_prefix_iff (reach_anyStep_of_exec hs) hret⟩

/-- A short read in the middle of the source: three bytes are reported, and the
destination is not the first three bytes. -/
theorem copy_path_not_prefix : ¬ ∀ (cfg : Config) (s : State) (n : ℕ),
    Reach (step cfg) NonNegative (start cfg) s → s.phase = .returned n →
      s.dst.Holds (cfg.src.take n) := by
  intro hall
  obtain ⟨s, hs, hobs⟩ := Option.map_eq_some_iff.mp exec_shortRead
  have hnonneg : Meets (step twoChunks) NonNegative (start twoChunks) shortRead := by
    refine meets_of_forall ?_
    intro s e he
    simp only [shortRead, List.mem_cons, List.not_mem_nil, or_false] at he
    rcases he with rfl | rfl | rfl | rfl | rfl | rfl | rfl | rfl | rfl | rfl | rfl <;>
      simp [NonNegative]
  have hret : s.phase = .returned (3 : ℕ) := congrArg Prod.fst hobs
  have hholds := hall twoChunks s 3 (reach_of_exec hnonneg hs) hret
  have hcontents : s.dst.contents = [1, 0, 3] := congrArg Prod.snd hobs
  rw [SparseFile.contents_of_holds hholds] at hcontents
  exact absurd hcontents (by decide)

/-! ## Requests completed in full -/

theorem fair_len : Fair Sqe.len where
  pos _ h := h
  le _ _ := Nat.le_refl _

/-- A kernel that completes every request in full stays within the slot buffers
when the block size does. -/
theorem fits_len (hblock : cfg.bufferSizeCb = none ∨ cfg.blockSize ≤ bufferLimit) :
    Fits cfg Sqe.len := fun _ _ hk hlen =>
  Nat.le_trans hlen ((Sizing.want_le_maxBufferSize_iff hk _).mpr (hblock.imp_right Or.inl))

/-- **Copies are exact.**  When nothing around the copy goes wrong and the kernel
completes every request in full, in whatever order, the function terminates,
returns the size of the source and leaves its bytes in the destination. -/
theorem copy_path_exact (hcfg : Undisturbed cfg)
    (hblock : cfg.bufferSizeCb = none ∨ cfg.blockSize ≤ bufferLimit) :
    Terminates (step cfg) (Answers Sqe.len) Returned (start cfg) ∧
      ∀ s r, Reach (step cfg) (Answers Sqe.len) (start cfg) s → s.phase = .returned r →
        r = cfg.fileSize ∧ s.dst.Holds cfg.src ∧ s.overrun = false := by
  refine ⟨terminates hcfg fair_len, ?_⟩
  intro s r h hret
  obtain ⟨_, hrun⟩ := running_reach hcfg fair_len h
  rw [hret] at hrun
  obtain ⟨hr, hres⟩ := hrun
  have hcopied := hres.copied fun _ => rfl
  have hn : r = (cfg.fileSize : ℕ) := by rw [hr, hcopied]
  obtain ⟨_, hfin⟩ := finished_of_returned h (hn ▸ hret)
  refine ⟨hn, ?_, hres.overrun (fits_len hblock)⟩
  -- all bytes were counted, so every chunk was moved in full
  have htotal : 0 + Span.total (spans s.log) = s.nextOff := by
    rw [hres.nextOff, ← hfin.copied, hcopied]
    omega
  have hfull := hfin.tiles.moved_eq_of_total hfin.moved_le htotal
  have hshort : Span.ShortOnlyAtTail (spans s.log) :=
    List.pairwise_of_forall_mem_list fun c hc d _ hlt => by
      have := hfull c hc
      omega
  have hholds := hfin.holds_iff.mpr hshort
  rwa [hcopied, Config.fileSize, List.take_length] at hholds

theorem undisturbed_twoChunks : Undisturbed twoChunks where
  setup := rfl
  qd_pos := by decide
  blockSize_pos := by decide
  room := by decide
  progress := by rintro ⟨_, _, cb, h, _⟩; exact absurd h (by simp [twoChunks])

theorem copy_path_exact_twoChunks :
    Terminates (step twoChunks) (Answers Sqe.len) Returned (start twoChunks) ∧
      ∀ s r, Reach (step twoChunks) (Answers Sqe.len) (start twoChunks) s →
        s.phase = .returned r → r = 4 ∧ s.dst.Holds twoChunks.src ∧ s.overrun = false :=
  copy_path_exact undisturbed_twoChunks (Or.inl rfl)

end CopyPath
end Native
end Pyuring
