import Pyuring.Easy
import Pyuring.Native.CopyPathInvariant
import Pyuring.Native.WriteNewfileInvariant
import Pyuring.Native.WriteManyfilesInvariant

/-!
# What the helpers sync

The policy is worked out in Python, and the `fsync` happens at the end of a native
run; between them lies the choice of the native call.  `copy` loses the request on
one of its three branches, the one that calls `copy_path`, and the native copy has
nothing to sync when the source is empty.  `write` and `write_many` always do what the
policy asks for.

A destination counts as synced when the trace of the run has an `fsync` of it with no
completed write of it after.
-/

namespace Pyuring
namespace Easy

open Native Trace

/-- The policy of a copy asks for an end `fsync`: `_copy_fsync` says so. -/
def CopyAsksFsync (syncPolicy : String) (fsync : Bool) : Prop :=
  ∃ policy, CopySyncPolicy.parse syncPolicy = .ok policy ∧ copyFsync policy fsync = true

/-- The policy of a write asks for an end `fsync`: `_write_fsync_dsync` says so. -/
def WriteAsksFsync (syncPolicy : String) (fsync dsync : Bool) : Prop :=
  ∃ policy, WriteSyncPolicy.parse syncPolicy = .ok policy ∧
    (writeFsyncDsync policy fsync dsync).1 = true

/-- The arguments for which `copy` calls `copy_path`. -/
def StaticCopy (mode syncPolicy : String) (bufferSizeCb : Option PyBufferSizeCb)
    (progressCb : Option PyProgressCb) : Prop :=
  mode ≠ "auto" ∧ syncPolicy = "default" ∧ bufferSizeCb = none ∧ progressCb = none

section Dispatch

theorem validateMode_eq_auto {mode : String} : validateMode mode = .ok .auto ↔ mode = "auto" := by
  unfold validateMode
  split <;> simp_all

theorem parse_eq_default {syncPolicy : String} :
    CopySyncPolicy.parse syncPolicy = .ok .default ↔ syncPolicy = "default" := by
  unfold CopySyncPolicy.parse
  split <;> simp_all

theorem copyAsksFsync_iff {syncPolicy : String} {policy : CopySyncPolicy} {fsync : Bool}
    (h : CopySyncPolicy.parse syncPolicy = .ok policy) :
    CopyAsksFsync syncPolicy fsync ↔ copyFsync policy fsync = true := by
  unfold CopyAsksFsync
  rw [h]
  constructor
  · rintro ⟨p, hp, hfsync⟩
    rwa [Except.ok.inj hp]
  · exact fun hfsync => ⟨policy, rfl, hfsync⟩

theorem writeAsksFsync_iff {syncPolicy : String} {policy : WriteSyncPolicy} {fsync dsync : Bool}
    (h : WriteSyncPolicy.parse syncPolicy = .ok policy) :
    WriteAsksFsync syncPolicy fsync dsync ↔ (writeFsyncDsync policy fsync dsync).1 = true := by
  unfold WriteAsksFsync
  rw [h]
  constructor
  · rintro ⟨p, hp, hfsync⟩
    rwa [Except.ok.inj hp]
  · exact fun hfsync => ⟨policy, rfl, hfsync⟩

variable {mode syncPolicy : String} {qd blockSize : ℤ} {fsync dsync : Bool}
  {bufferSizeCb : Option PyBufferSizeCb} {progressCb : Option PyProgressCb}

theorem exists_of_bind_eq_ok {ε α β : Type} {x : Except ε α} {f : α → Except ε β} {b : β}
    (h : (x >>= f) = .ok b) : ∃ a, x = .ok a ∧ f a = .ok b := by
  cases x with
  | error e => exact absurd h (by simp [bind, Except.bind])
  | ok a => exact ⟨a, rfl, h⟩

/-- What the native copy is asked to do. -/
theorem copy_config {w : CopyWorld} {cfg : CopyPath.Config}
    (h : copy w mode qd blockSize fsync syncPolicy bufferSizeCb progressCb = .ok cfg) :
    cfg.src = w.src ∧ (cfg.doFsync = true ↔
      CopyAsksFsync syncPolicy fsync ∧ ¬ StaticCopy mode syncPolicy bufferSizeCb progressCb) := by
  unfold copy at h
  obtain ⟨m, hmode, h⟩ := exists_of_bind_eq_ok h
  obtain ⟨policy, hpolicy, h⟩ := exists_of_bind_eq_ok h
  simp only [pure, Except.pure] at h
  have hauto : mode = "auto" ↔ m = .auto := by
    rw [← validateMode_eq_auto, hmode, Except.ok.injEq]
  have hdefault : syncPolicy = "default" ↔ policy = .default := by
    rw [← parse_eq_default, hpolicy, Except.ok.injEq]
  rw [copyAsksFsync_iff hpolicy]
  unfold StaticCopy
  rw [Ne, hauto, hdefault]
  split at h
  · next hm =>
    rw [← Except.ok.inj h]
    exact ⟨rfl, ⟨fun hf => ⟨hf, fun hstatic => hstatic.1 hm⟩, fun hf => hf.1⟩⟩
  · next hm =>
    split at h
    · next hdyn =>
      rw [← Except.ok.inj h]
      refine ⟨rfl, ⟨fun hf => ⟨hf, ?_⟩, fun hf => hf.1⟩⟩
      rintro ⟨-, hp, hb, hpr⟩
      simp [hp, hb, hpr] at hdyn
    · next hstatic =>
      rw [← Except.ok.inj h]
      refine ⟨rfl, ⟨fun hf => absurd hf (by simp [copyPath, uringCopyPath,
        uringCopyPathDynamic]), fun hf => absurd ?_ hf.2⟩⟩
      simp only [not_or, Option.not_isSome_iff_eq_none, ne_eq, not_not] at hstatic
      exact ⟨hm, hstatic.2.1, hstatic.2.2, hstatic.1⟩

theorem write_config {w : NewfileWorld} {totalMb : ℤ} {cfg : WriteNewfile.Config}
    (h : write w totalMb mode qd blockSize fsync dsync syncPolicy bufferSizeCb progressCb =
      .ok cfg) : cfg.doFsync = true ↔ WriteAsksFsync syncPolicy fsync dsync := by
  unfold write at h
  obtain ⟨m, hmode, h⟩ := exists_of_bind_eq_ok h
  obtain ⟨policy, hpolicy, h⟩ := exists_of_bind_eq_ok h
  simp only [pure, Except.pure] at h
  rw [writeAsksFsync_iff hpolicy]
  split at h
  · rw [← Except.ok.inj h]
    rfl
  · split at h
    · rw [← Except.ok.inj h]
      rfl
    · rw [← Except.ok.inj h]
      rfl

theorem writeMany_config {w : ManyfilesWorld} {dirPath : String} {nfiles mbPerFile : ℤ}
    {cfg : WriteManyfiles.Config}
    (h : writeMany w dirPath nfiles mbPerFile mode qd blockSize fsync syncPolicy = .ok cfg) :
    cfg.doFsyncEnd = true ↔ CopyAsksFsync syncPolicy fsync := by
  unfold writeMany at h
  obtain ⟨m, hmode, h⟩ := exists_of_bind_eq_ok h
  obtain ⟨policy, hpolicy, h⟩ := exists_of_bind_eq_ok h
  simp only [pure, Except.pure] at h
  rw [copyAsksFsync_iff hpolicy, ← Except.ok.inj h]
  rfl

end Dispatch

/-! ## The native runs -/

/-- A copy that returns a size has synced its destination when it was asked to and the
source was not empty. -/
theorem copy_synced {cfg : CopyPath.Config} {s : CopyPath.State} {r : ℤ}
    (h : Reach (CopyPath.step cfg) AnyStep (CopyPath.start cfg) s) (hret : s.phase = .returned r)
    (hr : 0 ≤ r) :
    SyncedAfterWrites CopyPath.dfd s.log ↔ cfg.doFsync = true ∧ cfg.src ≠ [] := by
  have hgood := CopyPath.good_reach h
  simp only [CopyPath.Good, hret] at hgood
  rcases hgood with ⟨hneg, -⟩ | ⟨-, hfin⟩
  · omega
  have hempty : cfg.src = [] ↔ cfg.fileSize = 0 := List.length_eq_zero_iff.symm
  rw [Ne, hempty]
  obtain ⟨log, htraced, ⟨hlog, hdo⟩ | ⟨hlog, hdo⟩⟩ := hfin.traced
  · refine iff_of_true ⟨[], log, hlog, by simp⟩ ⟨hdo, fun hzero => ?_⟩
    -- with an empty source the function has returned before it did anything
    obtain ⟨r', hentry⟩ : ∃ r', CopyPath.entry cfg = .returned r' := by
      rcases CopyPath.entry_cases cfg with hpriming | ⟨r', -, hr'⟩ | ⟨hr', -⟩
      · exact absurd (CopyPath.entry_eq_priming hpriming).2.2 (by omega)
      · exact ⟨r', hr'⟩
      · exact ⟨0, hr'⟩
    rw [h.eq_of_stuck (CopyPath.step_of_returned (r := r') (by rw [CopyPath.start, hentry]; rfl))]
      at hlog
    exact absurd hlog (by simp [CopyPath.start, CopyPath.blank])
  · rw [hlog]
    refine iff_of_false ?_ ?_
    · rintro ⟨newer, older, heq, -⟩
      exact absurd (heq ▸ List.mem_append_right _ List.mem_cons_self) (htraced.unsynced _)
    · rintro ⟨hdo', hne⟩
      rcases hdo with hfalse | hzero
      · exact absurd (hdo'.symm.trans hfalse) (by simp)
      · exact hne hzero

theorem newfile_synced {cfg : WriteNewfile.Config} {s : WriteNewfile.State} {r : ℤ}
    (h : Reach (WriteNewfile.step cfg) AnyStep (WriteNewfile.start cfg) s)
    (hret : s.phase = .returned r) (hr : 0 ≤ r) :
    SyncedAfterWrites WriteNewfile.dfd s.log ↔ cfg.doFsync = true := by
  have hgood := (WriteNewfile.good_reach h).1
  simp only [WriteNewfile.Good, hret] at hgood
  rcases hgood with hneg | ⟨-, hfin⟩
  · omega
  · exact hfin.synced

theorem manyfiles_synced {cfg : WriteManyfiles.Config} {s : WriteManyfiles.State} {r : ℤ}
    (h : Reach (WriteManyfiles.step cfg) AnyStep (WriteManyfiles.start cfg) s)
    (hret : s.phase = .returned r) (hr : 0 ≤ r) {f : ℕ} (hf : f < cfg.nfiles) :
    SyncedAfterWrites f s.log ↔ cfg.doFsyncEnd = true := by
  have hgood := WriteManyfiles.good_reach h
  simp only [WriteManyfiles.Good, hret] at hgood
  rcases hgood with hneg | ⟨-, hfin⟩
  · omega
  · exact hfin.synced f hf

/-- **What the helpers sync.**  A copy does what its policy asks for exactly when the
policy asks for nothing, or the source is not empty and `copy` does not call `copy_path`;
the two writes always do. -/
theorem helpers_sync_iff (mode : String) (qd blockSize : ℤ) (syncPolicy : String) :
    (∀ (w : CopyWorld) (fsync : Bool) (bufferSizeCb : Option PyBufferSizeCb)
      (progressCb : Option PyProgressCb) (cfg : CopyPath.Config) (s : CopyPath.State) (r : ℤ),
      copy w mode qd blockSize fsync syncPolicy bufferSizeCb progressCb = .ok cfg →
      Reach (CopyPath.step cfg) AnyStep (CopyPath.start cfg) s → s.phase = .returned r → 0 ≤ r →
      ((SyncedAfterWrites CopyPath.dfd s.log ↔ CopyAsksFsync syncPolicy fsync) ↔
        (CopyAsksFsync syncPolicy fsync →
          w.src ≠ [] ∧ ¬ StaticCopy mode syncPolicy bufferSizeCb progressCb))) ∧
    (∀ (w : NewfileWorld) (totalMb : ℤ) (fsync dsync : Bool)
      (bufferSizeCb : Option PyBufferSizeCb) (progressCb : Option PyProgressCb)
      (cfg : WriteNewfile.Config) (s : WriteNewfile.State) (r : ℤ),
      write w totalMb mode qd blockSize fsync dsync syncPolicy bufferSizeCb progressCb = .ok cfg →
      Reach (WriteNewfile.step cfg) AnyStep (WriteNewfile.start cfg) s →
      s.phase = .returned r → 0 ≤ r →
      (SyncedAfterWrites WriteNewfile.dfd s.log ↔ WriteAsksFsync syncPolicy fsync dsync)) ∧
    (∀ (w : ManyfilesWorld) (dirPath : String) (nfiles mbPerFile : ℤ) (fsyncEnd : Bool)
      (cfg : WriteManyfiles.Config) (s : WriteManyfiles.State) (r : ℤ),
      writeMany w dirPath nfiles mbPerFile mode qd blockSize fsyncEnd syncPolicy = .ok cfg →
      Reach (WriteManyfiles.step cfg) AnyStep (WriteManyfiles.start cfg) s →
      s.phase = .returned r → 0 ≤ r → ∀ f < cfg.nfiles,
      (SyncedAfterWrites f s.log ↔ CopyAsksFsync syncPolicy fsyncEnd)) := by
  refine ⟨?_, ?_, ?_⟩
  · intro w fsync bufferSizeCb progressCb cfg s r hcopy h hret hr
    obtain ⟨hsrc, hdo⟩ := copy_config hcopy
    rw [copy_synced h hret hr, hdo, hsrc]
    tauto
  · intro w totalMb fsync dsync bufferSizeCb progressCb cfg s r hwrite h hret hr
    rw [newfile_synced h hret hr, write_config hwrite]
  · intro w dirPath nfiles mbPerFile fsyncEnd cfg s r hwrite h hret hr f hf
    rw [manyfiles_synced h hret hr hf, writeMany_config hwrite]

/-- The source of one byte and a ring with room for one request. -/
def oneByte : CopyWorld := ⟨[7], 1, CopyPath.Setup.ok⟩

/-- `copy(src, dst, mode="safe", qd=1, block_size=1, fsync=True)` copies the byte and syncs
nothing. -/
theorem copy_not_synced : ¬ ∀ (w : CopyWorld) (mode : String) (qd blockSize : ℤ) (fsync : Bool)
    (syncPolicy : String) (bufferSizeCb : Option PyBufferSizeCb)
    (progressCb : Option PyProgressCb) (cfg : CopyPath.Config) (s : CopyPath.State) (r : ℤ),
    copy w mode qd blockSize fsync syncPolicy bufferSizeCb progressCb = .ok cfg →
    Reach (CopyPath.step cfg) AnyStep (CopyPath.start cfg) s → s.phase = .returned r → 0 ≤ r →
    (SyncedAfterWrites CopyPath.dfd s.log ↔ CopyAsksFsync syncPolicy fsync) := by
  intro hall
  obtain ⟨s, hs, hobs⟩ : ∃ s, exec (CopyPath.step (copyPath oneByte 1 1))
      (CopyPath.start (copyPath oneByte 1 1))
      [.prime 1, .complete 0 1, .iterate 0 1, .complete 0 1, .iterate 0 1, .finish true none,
        .cleanup] = some s ∧ (s.phase, s.log.contains (.fsync CopyPath.dfd)) =
        (.returned 1, false) := ⟨_, rfl, by decide⟩
  have hsynced := (hall oneByte "safe" 1 1 true "default" none none (copyPath oneByte 1 1) s 1 rfl
    (reach_anyStep_of_exec hs) (congrArg Prod.fst hobs) (by decide)).mpr
    ⟨.default, rfl, rfl⟩
  obtain ⟨newer, older, heq, -⟩ := hsynced
  have hnot : s.log.contains (.fsync CopyPath.dfd) = false := congrArg Prod.snd hobs
  rw [heq] at hnot
  simp at hnot

end Easy
end Pyuring
