import Pyuring.Native.CopyFiles
import Pyuring.Native.NewFiles
import Pyuring.Native.WriteFiles

/-!
# Calls one after the other

Programs that call `uring_copy_path_dynamic`, `uring_write_newfile_dynamic` and
`uring_write_manyfiles` on the files of one system.  Each call may fail, be cancelled or be cut
off wherever it is, and the next one, which is made when the requests of that one are over, finds
what it has left.

Whatever happens, a program changes nothing but what its calls name as their destinations
(`others_kept`).  And what a call does in which nothing fails does not depend on the rest of the
program: as long as no call before it writes to its source, and no call after it to its
destination, the files at the end are as if it had been the only one (`does_in_program`).  So a
copy that has failed can be made again, however often and with whatever sizes.
-/

namespace Pyuring
namespace Native
namespace FileCalls

open Trace
open CopySource (Fs bytes)
open WriteManyfiles (filePath)

/-- One call. -/
inductive Call where
  | copyPath (c : CopySource.Call)
  | writeNewfile (c : NewFiles.Call)
  | writeManyfiles (cfg : WriteManyfiles.Config)

/-- The paths that a call reads from. -/
def Call.reads : Call → List String
  | .copyPath c => [c.srcPath]
  | .writeNewfile _ => []
  | .writeManyfiles _ => []

/-- The paths that a call writes to. -/
def Call.writes : Call → List String
  | .copyPath c => [c.dstPath]
  | .writeNewfile c => [c.dstPath]
  | .writeManyfiles cfg => (List.range cfg.nfiles).map (filePath cfg.dirPath)

/-! ## Runs -/

/-- A call on the first files leaves the second ones at some point where none of its requests is
outstanding, whatever has happened in it, and after it. -/
inductive Leaves : Call → Fs → Fs → Prop
  | copyPath {c : CopySource.Call} {fs : Fs} {t : CopySource.State}
      (h : Reach CopySource.stepOn AnyStep (CopySource.start c fs) t)
      (hidle : t.copy.ring.outstanding = []) : Leaves (.copyPath c) fs t.fs
  | writeNewfile {c : NewFiles.Call} {fs : Fs} {t : NewFiles.State}
      (h : Reach NewFiles.step AnyStep (NewFiles.start c fs) t)
      (hidle : t.pipe.ring.outstanding = []) : Leaves (.writeNewfile c) fs t.fs
  | writeManyfiles {cfg : WriteManyfiles.Config} {fs : Fs} {t : WriteFiles.State}
      (h : Reach WriteFiles.step AnyStep (WriteFiles.start cfg fs) t)
      (hidle : t.pipe.ring.outstanding = []) : Leaves (.writeManyfiles cfg) fs t.fs

/-- The calls are made one after the other. -/
inductive Runs : List Call → Fs → Fs → Prop
  | nil (fs : Fs) : Runs [] fs fs
  | cons {c : Call} {cs : List Call} {fs fs₁ fs₂ : Fs} (h : Leaves c fs fs₁)
      (hrest : Runs cs fs₁ fs₂) : Runs (c :: cs) fs fs₂

/-- A call returns, when the kernel completes all its requests in full and nothing else of what
goes on during the call fails. -/
inductive Returns : Call → Fs → ℤ → Fs → Prop
  | copyPath {c : CopySource.Call} {fs : Fs} {t : CopySource.State} {r : ℤ}
      (h : Reach CopySource.step (fun s => CopyPath.Answers Sqe.len s.copy)
        (CopySource.start c fs) t)
      (hret : t.copy.phase = .returned r) : Returns (.copyPath c) fs r t.fs
  | writeNewfile {c : NewFiles.Call} {fs : Fs} {t : NewFiles.State} {r : ℤ}
      (h : Reach NewFiles.step (fun s => WriteNewfile.Answers Sqe.len s.pipe)
        (NewFiles.start c fs) t)
      (hret : t.pipe.phase = .returned r) : Returns (.writeNewfile c) fs r t.fs
  | writeManyfiles {cfg : WriteManyfiles.Config} {fs : Fs} {t : WriteFiles.State} {r : ℤ}
      (h : Reach WriteFiles.step (fun s => WriteManyfiles.Answers cfg s.pipe)
        (WriteFiles.start cfg fs) t)
      (hret : t.pipe.phase = .returned r) : Returns (.writeManyfiles cfg) fs r t.fs

/-- All such runs of the call are finite, and can go on until the call returns. -/
def Call.Terminates : Call → Fs → Prop
  | .copyPath c, fs => Trace.Terminates CopySource.step
      (fun s => CopyPath.Answers Sqe.len s.copy) CopySource.Returned (CopySource.start c fs)
  | .writeNewfile c, fs => Trace.Terminates NewFiles.step
      (fun s => WriteNewfile.Answers Sqe.len s.pipe) NewFiles.Returned (NewFiles.start c fs)
  | .writeManyfiles cfg, fs => Trace.Terminates WriteFiles.step
      (fun s => WriteManyfiles.Answers cfg s.pipe) WriteFiles.Returned (WriteFiles.start cfg fs)

/-! ## What a call is for -/

/-- Nothing around the requests of the call goes wrong.  A copy has a source, which is not its
destination; the names of many files lead to different places. -/
def Call.Quiet : Call → Fs → Prop
  | .copyPath c, fs => c.Undisturbed ∧ (∃ sfd, fs.target c.srcPath = .file sfd) ∧
      fs.target c.dstPath ≠ fs.target c.srcPath ∧ fs.target c.dstPath ≠ .loop
  | .writeNewfile c, fs => NewFiles.Quiet c ∧ fs.target c.dstPath ≠ .loop
  | .writeManyfiles cfg, fs => WriteFiles.Quiet cfg fs ∧ WriteFiles.Apart cfg fs ∧
      cfg.nfiles * cfg.mbPerFile * 2 ^ 20 < 2 ^ 63 ∧ cfg.chunks < 2 ^ 32

/-- What a call on the first files returns and has at its destinations in the second ones. -/
def Call.Does : Call → Fs → ℤ → Fs → Prop
  | .copyPath c, fs, r, fs' => ∃ src, fs.read c.srcPath = some src ∧ r = src.size ∧
      bytes fs' c.dstPath = some src.contents
  | .writeNewfile c, _, r, fs' => r = (max (c.cfg.totalMb * 2 ^ 20) c.cfg.blockSize : ℕ) ∧
      ∃ f, fs'.read c.dstPath = some f ∧ NewFiles.Filled c.cfg f
  | .writeManyfiles cfg, _, r, fs' => r = (cfg.nfiles * cfg.mbPerFile * 2 ^ 20 : ℕ) ∧
      ∀ i < cfg.nfiles, ∃ f, fs'.read (filePath cfg.dirPath i) = some f ∧
        f.size = cfg.mbPerFile * 2 ^ 20 ∧ WriteFiles.Lettered cfg f

variable {c : Call} {cs : List Call} {fs fs' fs₁ fs₂ : Fs} {r : ℤ}

/-! ## One call -/

theorem Leaves.confined (h : Leaves c fs fs') : FileTree.Confined fs fs' c.writes := by
  cases h with
  | copyPath h => exact CopySource.confined_of_reach CopySource.puts_stepOn h
  | writeNewfile h => exact NewFiles.confined_of_reach h
  | writeManyfiles h => exact WriteFiles.confined_of_reach h

theorem Returns.confined (h : Returns c fs r fs') : FileTree.Confined fs fs' c.writes := by
  cases h with
  | copyPath h => exact CopySource.confined_of_reach CopySource.puts_step h
  | writeNewfile h => exact NewFiles.confined_of_reach h
  | writeManyfiles h => exact WriteFiles.confined_of_reach h

theorem Call.Quiet.terminates (h : c.Quiet fs) : c.Terminates fs := by
  cases c with
  | copyPath c =>
    obtain ⟨hcall, ⟨sfd, hsrc⟩, hne, hends⟩ := h
    exact CopySource.terminates_of_undisturbed hcall hsrc (hsrc ▸ hne) hends
  | writeNewfile c => exact NewFiles.terminates_of_quiet h.1 h.2
  | writeManyfiles cfg => exact WriteFiles.terminates_of_quiet h.1

/-- A call in which nothing fails does what it is for. -/
theorem Call.Quiet.does (h : c.Quiet fs) (hret : Returns c fs r fs') : c.Does fs r fs' := by
  cases hret with
  | copyPath hreach hret =>
    obtain ⟨hcall, ⟨sfd, hsrc⟩, hne, hends⟩ := h
    obtain ⟨hr, hbytes⟩ :=
      CopySource.copied_of_returned hcall hsrc (hsrc ▸ hne) hends hreach hret
    exact ⟨_, FileTree.read_of_target hsrc, hr,
      hbytes.trans (CopySource.bytes_of_target hsrc)⟩
  | writeNewfile hreach hret => exact NewFiles.filled_of_returned h.1 h.2 hreach hret
  | writeManyfiles hreach hret =>
    obtain ⟨hquiet, hapart, hbytes, hchunks⟩ := h
    exact WriteFiles.filled_of_returned hquiet hapart hbytes hchunks hreach hret

/-- What a call finds at its source, and what is at its destinations later, is all that counts. -/
theorem Call.Does.congr (h : c.Does fs₁ r fs₂) (hreads : ∀ p ∈ c.reads, fs₁.read p = fs.read p)
    (hwrites : ∀ p ∈ c.writes, fs'.read p = fs₂.read p) : c.Does fs r fs' := by
  cases c with
  | copyPath c =>
    obtain ⟨src, hsrc, hr, hbytes⟩ := h
    refine ⟨src, (hreads _ List.mem_cons_self).symm.trans hsrc, hr, ?_⟩
    rw [bytes, hwrites _ List.mem_cons_self]
    exact hbytes
  | writeNewfile c =>
    obtain ⟨hr, f, hf, hfilled⟩ := h
    exact ⟨hr, f, (hwrites _ List.mem_cons_self).trans hf, hfilled⟩
  | writeManyfiles cfg =>
    obtain ⟨hr, hfiles⟩ := h
    refine ⟨hr, fun i hi => ?_⟩
    obtain ⟨f, hf, hfilled⟩ := hfiles i hi
    exact ⟨f, (hwrites _ (List.mem_map_of_mem (List.mem_range.mpr hi))).trans hf, hfilled⟩

/-! ## A program -/

/-- The destinations of all calls. -/
def allWrites (cs : List Call) : List String := cs.flatMap Call.writes

/-- **A program changes nothing but its destinations.** -/
theorem Runs.confined (h : Runs cs fs fs') : FileTree.Confined fs fs' (allWrites cs) := by
  induction h with
  | nil fs => exact FileTree.confined_refl fs _
  | cons h _ ih => exact h.confined.trans ih

/-- A call can be made as well after other calls as before them. -/
theorem Call.Quiet.after (h : c.Quiet fs) {paths : List String}
    (hconfined : FileTree.Confined fs fs' paths) : c.Quiet fs' := by
  cases c with
  | copyPath c =>
    obtain ⟨hcall, ⟨sfd, hsrc⟩, hne, hends⟩ := h
    exact ⟨hcall, ⟨sfd, hconfined.keeps _ _ hsrc⟩,
      fun heq => hne ((hconfined.places _ _).mp heq), hconfined.ends _ hends⟩
  | writeNewfile c => exact ⟨h.1, hconfined.ends _ h.2⟩
  | writeManyfiles cfg =>
    obtain ⟨hquiet, hapart, hbytes, hchunks⟩ := h
    refine ⟨{ hquiet with ends := fun i hi => hconfined.ends _ (hquiet.ends i hi) }, ?_, hbytes,
      hchunks⟩
    exact fun i hi j hj hne heq => hapart i hi j hj hne ((hconfined.places _ _).mp heq)

/-- **Whatever happens in a program, it touches nothing else**: a path that leads to none of the
destinations of its calls leads where it did, and reads as it did. -/
theorem others_kept (cs : List Call) (fs : Fs) (h : Runs cs fs fs') {path : String}
    (hpath : ∀ c ∈ cs, ∀ q ∈ c.writes, fs.target path ≠ fs.target q) :
    fs'.target path = fs.target path ∧ fs'.read path = fs.read path := by
  refine h.confined.outside path fun q hq => ?_
  obtain ⟨c, hc, hq⟩ := List.mem_flatMap.mp hq
  exact hpath c hc q hq

/-- **A call does the same in every program.**  Calls are made before it and after it, and
anything may happen in these, as long as none before it writes to its source, and none after it
to its destinations.  When nothing goes wrong in the call itself, it returns, and at the end of
the program its destinations are what they would be if the call had been made at first and
alone. -/
theorem does_in_program (c : Call) (before after : List Call) (fs : Fs) (hquiet : c.Quiet fs)
    (hbefore : Runs before fs fs₁)
    (hreads : ∀ p ∈ c.reads, fs.Outside (allWrites before) p)
    (hwrites : ∀ p ∈ c.writes, fs.Outside (allWrites after) p) :
    c.Terminates fs₁ ∧
      ∀ r fs₂ fs', Returns c fs₁ r fs₂ → Runs after fs₂ fs' → c.Does fs r fs' := by
  have hconfined := hbefore.confined
  have hthere := hquiet.after hconfined
  refine ⟨hthere.terminates, fun r fs₂ fs' hret hafter => ?_⟩
  have hcall := hconfined.trans hret.confined
  refine (hthere.does hret).congr (fun p hp => (hconfined.outside p (hreads p hp)).2) ?_
  intro p hp
  exact (hafter.confined.outside p ((hcall.outside_iff _ p).mpr (hwrites p hp))).2

end FileCalls
end Native
end Pyuring
