import Pyuring.Native.CopyPathEnds
import Pyuring.Native.CopyPathExact
import Pyuring.Native.WriteNewfileEnds
import Pyuring.Native.WriteNewfileExact
import Pyuring.Native.WriteManyfilesEnds

/-!
# The pipelines end

The three pipelines side by side.  The loops test byte counters that a short result never
brings to the target, so what makes them end is not what they test: each chunk is reserved
once, with a positive length, whatever the size callback answers, and each request is
completed once.
-/

namespace Pyuring
namespace Native

open CompletionRing Trace

/-- The loop of a pipeline ends: no run that meets `P` goes on for ever or gets stuck, a run
sees at most `per` completions for each chunk, and the program never waits while there is
nothing to wait for.  `Chunks k` says that the call has `k` chunks or more. -/
structure LoopEnds {σ ε : Type} (step : σ → ε → Option σ) (P : σ → ε → Prop) (start : σ)
    (Returned Waits : σ → Prop) (ring : σ → CompletionRing Sqe) (log : σ → List Ev)
    (Chunks : ℕ → Prop) (per : ℕ) : Prop where
  terminates : Terminates step P Returned start
  completions : ∀ s, Reach step AnyStep start s →
    ∃ k, Chunks k ∧ (dones (log s)).length ≤ per * k
  awaited : ∀ s, Reach step AnyStep start s → Waits s →
    (ring s).outstanding ≠ [] ∨ (ring s).completed ≠ []

/-- The copy pipeline. -/
def CopyPath.LoopEnds (cfg : CopyPath.Config) : Prop :=
  Native.LoopEnds (CopyPath.step cfg) CopyPath.Smooth (CopyPath.start cfg) CopyPath.Returned
    CopyPath.Waits CopyPath.State.ring CopyPath.State.log
    (fun k => ∀ i < k, cfg.sizing.offset i < cfg.fileSize) 2

/-- The pipeline that writes one new file. -/
def WriteNewfile.LoopEnds (cfg : WriteNewfile.Config) : Prop :=
  Native.LoopEnds (WriteNewfile.step cfg) WriteNewfile.Smooth (WriteNewfile.start cfg)
    WriteNewfile.Returned (fun s => s.phase = .wait) WriteNewfile.State.ring
    WriteNewfile.State.log (fun k => ∀ i < k, cfg.sizing.offset i < cfg.totalBytes) 1

/-- The pipeline that writes many files. -/
def WriteManyfiles.LoopEnds (cfg : WriteManyfiles.Config) : Prop :=
  Native.LoopEnds (WriteManyfiles.step cfg) (WriteManyfiles.Smooth cfg) (WriteManyfiles.start cfg)
    WriteManyfiles.Returned WriteManyfiles.Waits WriteManyfiles.State.ring
    WriteManyfiles.State.log (fun k => k = cfg.chunks) 1

theorem CopyPath.loopEnds {cfg : CopyPath.Config} (hroom : cfg.qd ≤ cfg.sqEntries) :
    CopyPath.LoopEnds cfg where
  terminates := CopyPath.ends cfg
  completions _ h := CopyPath.dones_le hroom h
  awaited _ h hs := (CopyPath.good_reach h).awaited hs

theorem WriteNewfile.loopEnds {cfg : WriteNewfile.Config} (hroom : cfg.qd ≤ cfg.sqEntries) :
    WriteNewfile.LoopEnds cfg where
  terminates := WriteNewfile.ends hroom
  completions s h := by
    obtain ⟨k, hk, hle⟩ := WriteNewfile.dones_le hroom h
    exact ⟨k, hk, by rw [Nat.one_mul]; exact hle⟩
  awaited _ h hs := (WriteNewfile.sound_reach hroom h).awaited hs

theorem WriteManyfiles.loopEnds {cfg : WriteManyfiles.Config} (hroom : cfg.qd ≤ cfg.sqEntries) :
    WriteManyfiles.LoopEnds cfg where
  terminates := WriteManyfiles.ends hroom
  completions s h :=
    ⟨_, rfl, by rw [Nat.one_mul]; exact WriteManyfiles.dones_le hroom h⟩
  awaited s h hs := by
    rcases WriteManyfiles.undisturbed_or_returned hroom with hcfg | ⟨r, -, hphase⟩
    · exact (WriteManyfiles.sound_reach hcfg h).awaited hs
    · rw [h.eq_of_stuck (WriteManyfiles.step_of_returned hphase)] at hs
      rcases hs with hp | hp <;> exact absurd (hp.symm.trans hphase) (by simp)

/-- **The pipelines end**, in every order of the completions, whatever the size callback
answers and whatever the requests move, and they never wait in vain. -/
theorem pipelines_end (copy : CopyPath.Config) (newfile : WriteNewfile.Config)
    (manyfiles : WriteManyfiles.Config) (hcopy : copy.qd ≤ copy.sqEntries)
    (hnewfile : newfile.qd ≤ newfile.sqEntries) (hmanyfiles : manyfiles.qd ≤ manyfiles.sqEntries) :
    CopyPath.LoopEnds copy ∧ WriteNewfile.LoopEnds newfile ∧ WriteManyfiles.LoopEnds manyfiles :=
  ⟨CopyPath.loopEnds hcopy, WriteNewfile.loopEnds hnewfile, WriteManyfiles.loopEnds hmanyfiles⟩

theorem pipelines_end_two : CopyPath.LoopEnds CopyPath.twoChunks ∧
    WriteNewfile.LoopEnds WriteNewfile.twoChunks ∧
    WriteManyfiles.LoopEnds WriteManyfiles.twoFiles :=
  pipelines_end CopyPath.twoChunks WriteNewfile.twoChunks WriteManyfiles.twoFiles
    (by decide) (by decide) (by decide)

end Native
end Pyuring
