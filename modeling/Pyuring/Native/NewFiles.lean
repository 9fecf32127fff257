import Pyuring.Lib.Matching
import Pyuring.Native.CopySource
import Pyuring.Native.WriteNewfileExact

/-!
# Writing a new file at a path

A call of `uring_write_newfile_dynamic` on the files of a system.  In spite of its name the
function takes a file that is there, and empties it, and it follows links.  Nothing else is
touched, whatever fails (`confined_of_reach`); and when nothing does, the path then leads to a
file of the size asked for, in which each chunk has the letters that its place says, whatever
was there before (`filled_of_returned`).
-/

namespace Pyuring
namespace Native
namespace NewFiles

open Trace WriteNewfile
open CopySource (Fs openTrunc puts_openTrunc)

/-- One call: the path, and all that does not depend on the files. -/
structure Call where
  dstPath : String
  cfg : Config

/-- `open` of the destination, which may fail for other reasons than its path. -/
def Call.openDst (c : Call) (fs : Fs) : Except Errno (ℕ × Fs) :=
  match c.cfg.setup.openDst with
  | some e => .error e
  | none => openTrunc fs c.dstPath

/-- The call when the destination was opened, or was not. -/
def Call.opened (c : Call) (openDst : Option Errno) : Config :=
  { c.cfg with setup := { c.cfg.setup with openDst := openDst } }

/-- The files, the one that the destination's descriptor stands for, and the pipeline. -/
structure State where
  fs : Fs
  dst : Option ℕ
  cfg : Config
  pipe : WriteNewfile.State

/-- The function up to its pipeline. -/
def start (c : Call) (fs : Fs) : State :=
  if c.cfg.totalMb = 0 ∨ c.cfg.blockSize = 0 ∨ c.cfg.qd = 0 then
    ⟨fs, none, c.cfg, WriteNewfile.start c.cfg⟩
  else match c.openDst fs with
    | .error e => ⟨fs, none, c.opened (some e), WriteNewfile.start (c.opened (some e))⟩
    | .ok (dfd, fs) => ⟨fs, some dfd, c.opened none, WriteNewfile.start (c.opened none)⟩

/-- A step of the pipeline; what it wrote is in the destination's file. -/
def step (s : State) (e : Event) : Option State :=
  (WriteNewfile.step s.cfg s.pipe e).map fun pipe => { s with
    pipe := pipe
    fs := match s.dst with
      | some dfd => s.fs.setData dfd pipe.dst
      | none => s.fs }

variable {c : Call} {fs fs' : Fs} {s t : State}

theorem openDst_eq_ok {dfd : ℕ} (h : c.openDst fs = .ok (dfd, fs')) :
    openTrunc fs c.dstPath = .ok (dfd, fs') := by
  unfold Call.openDst at h
  split at h
  · exact absurd h (by simp)
  · exact h

/-- Either the destination is not opened, and all files are as they were, or it is. -/
theorem start_cases (c : Call) (fs : Fs) :
    ((start c fs).dst = none ∧ (start c fs).fs = fs) ∨
      ∃ dfd fs', openTrunc fs c.dstPath = .ok (dfd, fs') ∧
        start c fs = ⟨fs', some dfd, c.opened none, WriteNewfile.start (c.opened none)⟩ := by
  unfold start
  split
  · exact Or.inl ⟨rfl, rfl⟩
  cases hopen : c.openDst fs with
  | error e => exact Or.inl ⟨rfl, rfl⟩
  | ok r =>
    obtain ⟨dfd, fs'⟩ := r
    exact Or.inr ⟨dfd, fs', openDst_eq_ok hopen, rfl⟩

theorem puts_of_reach {P : State → Event → Prop} {dfd : ℕ} (h : Reach step P s t)
    (hdst : s.dst = some dfd) (hputs : FileTree.Puts fs s.fs c.dstPath dfd s.pipe.dst) :
    FileTree.Puts fs t.fs c.dstPath dfd t.pipe.dst := by
  refine (h.invariant (I := fun u => u.dst = some dfd ∧
    FileTree.Puts fs u.fs c.dstPath dfd u.pipe.dst) ⟨hdst, hputs⟩ ?_).2
  rintro u e v ⟨hu, hputs⟩ - hv
  obtain ⟨pipe, -, rfl⟩ := Option.map_eq_some_iff.mp hv
  refine ⟨hu, ?_⟩
  simp only [hu]
  exact hputs.setData pipe.dst

theorem fs_of_unopened {P : State → Event → Prop} (h : Reach step P s t) (hdst : s.dst = none) :
    t.fs = s.fs := by
  refine (h.invariant (I := fun u => u.dst = none ∧ u.fs = s.fs) ⟨hdst, rfl⟩ ?_).2
  rintro u e v ⟨hu, hfs⟩ - hv
  obtain ⟨pipe, -, rfl⟩ := Option.map_eq_some_iff.mp hv
  exact ⟨hu, by simp only [hu]; exact hfs⟩

/-- **All that changes is at the destination's path**, in every run, whatever fails in it. -/
theorem confined_of_reach {P : State → Event → Prop} (h : Reach step P (start c fs) t) :
    FileTree.Confined fs t.fs [c.dstPath] := by
  rcases start_cases c fs with ⟨hnone, hfs⟩ | ⟨dfd, fs', hopen, heq⟩
  · rw [fs_of_unopened h hnone, hfs]
    exact FileTree.confined_refl fs _
  · rw [heq] at h
    exact (puts_of_reach h rfl (puts_openTrunc hopen)).confined

/-! ## Calls in which nothing fails -/

/-- The file has the size asked for, and each chunk has the letters that its place says. -/
structure Filled (cfg : Config) (f : SparseFile UInt8) : Prop where
  size : f.size = max (cfg.totalMb * 2 ^ 20) cfg.blockSize
  chunk : ∀ i, cfg.sizing.offset i < f.size → ∀ k < cfg.sizing.chunkLen i,
    f.byte (cfg.sizing.offset i + k) =
      some (UInt8.ofNat (65 + (cfg.sizing.offset i / cfg.blockSize % cfg.qd + k) % 26))

/-- Nothing around the writes goes wrong, and the buffers have room for the chunks. -/
structure Quiet (c : Call) : Prop where
  undisturbed : Undisturbed c.cfg
  fits : c.cfg.bufferSizeCb = none ∨ c.cfg.blockSize ≤ bufferLimit

theorem Quiet.opened (h : Quiet c) : c.opened none = c.cfg := by
  unfold Call.opened
  rw [h.undisturbed.setup]
  cases hcfg : c.cfg
  have hsetup := h.undisturbed.setup
  rw [hcfg] at hsetup
  simp only at hsetup
  subst hsetup
  rfl

theorem start_of_quiet (h : Quiet c) (hends : fs.target c.dstPath ≠ .loop) :
    ∃ dfd fs', openTrunc fs c.dstPath = .ok (dfd, fs') ∧
      start c fs = ⟨fs', some dfd, c.cfg, WriteNewfile.start c.cfg⟩ := by
  obtain ⟨dfd, fs', hopen⟩ : ∃ dfd fs', openTrunc fs c.dstPath = .ok (dfd, fs') := by
    unfold openTrunc
    cases htarget : fs.target c.dstPath with
    | file ino => exact ⟨_, _, rfl⟩
    | missing path => exact ⟨_, _, rfl⟩
    | loop => exact absurd htarget hends
  refine ⟨dfd, fs', hopen, ?_⟩
  have hmb := h.undisturbed.totalMb_pos
  have hblock := h.undisturbed.blockSize_pos
  have hqd := h.undisturbed.qd_pos
  have hopenDst : c.openDst fs = .ok (dfd, fs') := by
    unfold Call.openDst
    rw [h.undisturbed.setup]
    exact hopen
  unfold start
  rw [if_neg (by omega), hopenDst]
  simp only [h.opened]

def Returned (s : State) : Prop := WriteNewfile.Returned s.pipe

theorem matches_pipe (cfg : Config) :
    Matches (fun (t : State) u => t.cfg = cfg ∧ t.pipe = u) step (WriteNewfile.step cfg) where
  forth := by
    rintro t - e t' ⟨hcfg, rfl⟩ ht
    obtain ⟨pipe, hpipe, rfl⟩ := Option.map_eq_some_iff.mp ht
    exact ⟨pipe, hcfg ▸ hpipe, hcfg, rfl⟩
  back := by
    rintro t - e u ⟨hcfg, rfl⟩ hu
    exact ⟨_, Option.map_eq_some_iff.mpr ⟨u, hcfg.symm ▸ hu, rfl⟩, hcfg, rfl⟩

theorem terminates_of_quiet (h : Quiet c) (hends : fs.target c.dstPath ≠ .loop) :
    Terminates step (fun s => Answers Sqe.len s.pipe) Returned (start c fs) := by
  obtain ⟨dfd, fs', -, hstart⟩ := start_of_quiet h hends
  rw [hstart]
  exact (matches_pipe c.cfg).terminates (fun t u e hR => by rw [hR.2])
    (fun t u hR hu => by unfold Returned; rw [hR.2]; exact hu) ⟨rfl, rfl⟩
    (terminates h.undisturbed fun q _ => Nat.le_refl _)

/-- **The file is filled**, when the kernel completes all writes in full, in whatever order. -/
theorem filled_of_returned (h : Quiet c) (hends : fs.target c.dstPath ≠ .loop) {r : ℤ}
    (ht : Reach step (fun s => Answers Sqe.len s.pipe) (start c fs) t)
    (hret : t.pipe.phase = .returned r) :
    r = (max (c.cfg.totalMb * 2 ^ 20) c.cfg.blockSize : ℕ) ∧
      ∃ f, t.fs.read c.dstPath = some f ∧ Filled c.cfg f := by
  obtain ⟨dfd, fs', hopen, hstart⟩ := start_of_quiet h hends
  rw [hstart] at ht
  have hputs : FileTree.Puts fs t.fs c.dstPath dfd t.pipe.dst :=
    puts_of_reach ht rfl (puts_openTrunc hopen)
  obtain ⟨u, hu, -, rfl⟩ := (matches_pipe c.cfg).reach
    (fun t u e hR he => by rw [← hR.2]; exact he) ⟨rfl, rfl⟩ ht
  have hexact := exact_of_returned h.undisturbed h.fits hu hret
  have htotal := totalBytes_eq c.cfg
  refine ⟨?_, t.pipe.dst, hputs.read, hexact.size.trans htotal, fun i hi => ?_⟩
  · rw [((running_reach h.undisturbed hu).returned r hret).1, hexact.written, htotal]
  · exact hexact.chunk i (hexact.size ▸ hi)

end NewFiles
end Native
end Pyuring
