import Pyuring.Lib.Matching
import Pyuring.Native.CopyPathExact
import Pyuring.Native.CopyPathPlaced
import Pyuring.Native.CopySource

/-!
# Copies from path to path

What a call of `uring_copy_path_dynamic` does to the files of a system.  The destination's path
leads to one file, and no path that led elsewhere reads otherwise than before.  In that file
there is no byte which the source has not at the same place, holes aside, whatever fails and
whenever the call is cancelled (`destination_within`); and when nothing fails, the destination
reads as the source did when the call was made (`copies`).

A call that fails or is cancelled frees its slot buffers while requests are outstanding.  A write
that the kernel carries out later, `late`, takes its bytes from the freed memory: it goes to the
destination, and there it can leave anything.
-/

namespace Pyuring
namespace Native
namespace CopySource

open Trace

/-- The copy goes on, and what it wrote is in the destination's file. -/
def State.put (copy : CopyPath.State) (s : State) : State :=
  { s with
    copy := copy
    fs := match s.dst with
      | some dfd => s.fs.setData dfd copy.dst
      | none => s.fs }

/-- After the call the kernel carries out a write that was outstanding, with the bytes that are in
its slot's memory by then. -/
def late (i : ℕ) (bytes : List UInt8) (s : State) : Option State :=
  match s.copy.phase, s.copy.ring.complete i bytes.length with
  | .returned _, some (q, ring) =>
    if q.opcode = .write ∧ bytes.length ≤ q.len then
      some (s.put { s.copy with ring := ring, dst := s.copy.dst.write q.off bytes })
    else none
  | _, _ => none

/-- What happens in a call, and what comes after it. -/
inductive Event where
  | call (e : CopyPath.Event)
  | late (i : ℕ) (bytes : List UInt8)

def stepOn (s : State) : Event → Option State
  | .call e => step s e
  | .late i bytes => late i bytes s

/-- Nothing that was left behind is carried out. -/
def InCall (_ : State) : Event → Prop
  | .call _ => True
  | .late _ _ => False

variable {c : Call} {fs : Fs} {s t : State} {ε : Type} {next : State → ε → Option State}

/-- The steps of `next` go on with the copy. -/
def Puts (next : State → ε → Option State) : Prop :=
  ∀ s e t, next s e = some t → ∃ copy, t = s.put copy

theorem puts_step : Puts step := by
  intro s e t ht
  obtain ⟨copy, -, rfl⟩ := Option.map_eq_some_iff.mp ht
  exact ⟨copy, rfl⟩

theorem puts_stepOn : Puts stepOn := by
  intro s e t ht
  cases e with
  | call e => exact puts_step s e t ht
  | late i bytes =>
    simp only [stepOn, late] at ht
    split at ht
    · obtain ⟨-, ht⟩ := Option.ite_none_right_eq_some.mp ht
      exact ⟨_, (Option.some.inj ht).symm⟩
    · exact absurd ht (by simp)

/-- While nothing is left behind that is carried out, a run is one of the call. -/
theorem reach_of_inCall (h : Reach stepOn InCall s t) : Reach step AnyStep s t := by
  refine h.invariant (I := fun t => Reach step AnyStep s t) (.refl s) ?_
  intro u e v hu he hv
  cases e with
  | call e => exact hu.trans (.single (e := e) trivial hv)
  | late i bytes => exact he.elim

/-- A copy on a file system takes the steps of the copy. -/
theorem matches_copy (cfg : CopyPath.Config) :
    Matches (fun (t : State) u => t.cfg = cfg ∧ t.copy = u) step (CopyPath.step cfg) where
  forth := by
    rintro t - e t' ⟨hcfg, rfl⟩ ht
    obtain ⟨copy, hcopy, rfl⟩ := Option.map_eq_some_iff.mp ht
    exact ⟨copy, hcfg ▸ hcopy, hcfg, rfl⟩
  back := by
    rintro t - e u ⟨hcfg, rfl⟩ hu
    exact ⟨_, Option.map_eq_some_iff.mpr ⟨u, hcfg.symm ▸ hu, rfl⟩, hcfg, rfl⟩

/-- What opening the destination does to the files. -/
theorem puts_openDst {dfd : ℕ} {fs' : Fs} (h : c.openDst fs = .ok (dfd, fs')) :
    FileTree.Puts fs fs' c.dstPath dfd .empty := by
  rcases openDst_eq_ok h with ⟨htarget, rfl⟩ | ⟨path, hmissing, rfl, rfl⟩
  · exact FileTree.puts_setData htarget _
  · exact FileTree.puts_create hmissing _

/-- The size that `fstat` finds is that of a file without bytes, when source and destination
are one file, and of the source otherwise. -/
theorem source_opened {sfd dfd : ℕ} {fs' : Fs} (hsrc : fs.target c.srcPath = .file sfd)
    (hopen : c.openDst fs = .ok (dfd, fs')) :
    (fs.target c.dstPath = .file sfd ∧ (fs'.data sfd).contents = []) ∨
      (fs.target c.dstPath ≠ .file sfd ∧ fs'.data sfd = fs.data sfd) := by
  have hputs := puts_openDst hopen
  by_cases hsame : fs.target c.dstPath = .file sfd
  · refine Or.inl ⟨hsame, ?_⟩
    rcases openDst_eq_ok hopen with ⟨htarget, -⟩ | ⟨path, hmissing, -⟩
    · obtain rfl : sfd = dfd := Target.file.inj (hsame.symm.trans htarget)
      rw [hputs.data, Function.update_self]
      rfl
    · exact absurd (hsame.symm.trans hmissing) (by simp)
  · refine Or.inr ⟨hsame, ?_⟩
    obtain ⟨htarget, hne⟩ := hputs.others c.srcPath (by rw [hsrc]; exact Ne.symm hsame)
    rw [hputs.data, Function.update_of_ne]
    rintro rfl
    exact hne (htarget.trans hsrc)

/-- What the call has put at the destination's path is what its copy has written. -/
theorem puts_of_reach (hnext : Puts next) {P : State → ε → Prop} {dfd : ℕ}
    (h : Reach next P s t) (hdst : s.dst = some dfd)
    (hputs : FileTree.Puts fs s.fs c.dstPath dfd s.copy.dst) :
    FileTree.Puts fs t.fs c.dstPath dfd t.copy.dst := by
  refine (h.invariant (I := fun u => u.dst = some dfd ∧
    FileTree.Puts fs u.fs c.dstPath dfd u.copy.dst) ⟨hdst, hputs⟩ ?_).2
  rintro u e v ⟨hu, hputs⟩ - hv
  obtain ⟨copy, rfl⟩ := hnext u e v hv
  refine ⟨hu, ?_⟩
  simp only [State.put, hu]
  exact hputs.setData copy.dst

/-- No file changes when the destination is not opened. -/
theorem fs_of_unopened (hnext : Puts next) {P : State → ε → Prop} (h : Reach next P s t)
    (hdst : s.dst = none) : t.fs = s.fs := by
  refine (h.invariant (I := fun u => u.dst = none ∧ u.fs = s.fs) ⟨hdst, rfl⟩ ?_).2
  rintro u e v ⟨hu, hfs⟩ - hv
  obtain ⟨copy, rfl⟩ := hnext u e v hv
  exact ⟨hu, by simp only [State.put, hu]; exact hfs⟩

/-- All that changes is at the destination's path. -/
theorem confined_of_reach (hnext : Puts next) {P : State → ε → Prop}
    (h : Reach next P (start c fs) t) : FileTree.Confined fs t.fs [c.dstPath] := by
  rcases start_cases c fs with ⟨hnone, hfs, -⟩ | ⟨sfd, dfd, fs', -, hopen, -, -, -, -, heq⟩
  · rw [fs_of_unopened hnext h hnone, hfs]
    exact FileTree.confined_refl fs _
  · rw [heq] at h
    exact (puts_of_reach hnext h rfl (puts_openDst hopen)).confined

theorem within_of_nil {β : Type*} {f : SparseFile β} (h : f.Within []) (l : List β) :
    f.Within l := by
  refine ⟨h.1.trans (Nat.zero_le _), fun p b hp => ?_⟩
  exact absurd (h.2 p b hp) (by simp)

/-- The destination during the call. -/
theorem within_of_inCall (hfit : c.bufferSizeCb = none ∨ c.blockSize ≤ bufferLimit)
    (h : Reach step AnyStep (start c fs) t) :
    t.fs = fs ∨ ∃ src dst, fs.read c.srcPath = some src ∧ t.fs.read c.dstPath = some dst ∧
      dst.Within src.contents := by
  rcases start_cases c fs with ⟨hnone, hfs, -⟩ |
    ⟨sfd, dfd, fs', hsrc, hopen, -, -, -, -, heq⟩
  · exact Or.inl ((fs_of_unopened puts_step h hnone).trans hfs)
  rw [heq] at h
  have hputs : FileTree.Puts fs t.fs c.dstPath dfd t.copy.dst :=
    puts_of_reach puts_step h rfl (puts_openDst hopen)
  refine Or.inr ⟨fs.data sfd, t.copy.dst, FileTree.read_of_target hsrc, hputs.read, ?_⟩
  obtain ⟨u, hu, -, rfl⟩ := (matches_copy _).reach (fun _ _ _ _ _ => anyStep _ _) ⟨rfl, rfl⟩ h
  have hwithin : t.copy.dst.Within (c.config (fs'.data sfd).contents none none).src :=
    (@CopyPath.within_of_reach (c.config (fs'.data sfd).contents none none) _ hfit AnyStep hu).1
  rcases source_opened hsrc hopen with ⟨-, hnil⟩ | ⟨-, hsame⟩
  · refine within_of_nil ?_ _
    rwa [show (c.config (fs'.data sfd).contents none none).src = [] from hnil] at hwithin
  · rw [← hsame]
    exact hwithin

/-- **Nothing but the destination is written to, and nothing false is written there** as long as
the slot buffers are there, whatever fails in a run and whenever it is cancelled: either no file
has changed, or the destination's path leads to a file that is no longer than the source was and
has no byte which the source had not at the same place.  Every path that led elsewhere reads as
before at any time, also when the kernel carries out writes that the call left behind. -/
theorem destination_within (c : Call) (fs : Fs)
    (hfit : c.bufferSizeCb = none ∨ c.blockSize ≤ bufferLimit) :
    (∀ t, Reach stepOn InCall (start c fs) t → t.fs = fs ∨ ∃ src dst,
      fs.read c.srcPath = some src ∧ t.fs.read c.dstPath = some dst ∧ dst.Within src.contents) ∧
    ∀ t, Reach stepOn AnyStep (start c fs) t → ∀ path,
      fs.target path ≠ fs.target c.dstPath → t.fs.read path = fs.read path := by
  refine ⟨fun t ht => within_of_inCall hfit (reach_of_inCall ht), fun t ht path hpath => ?_⟩
  exact ((confined_of_reach puts_stepOn ht).outside path (List.forall_mem_singleton.mpr hpath)).2

/-- A copy from `a` to `b` in two chunks that is cancelled after the first write. -/
def cancelling : Call :=
  ⟨"a", "b", 2, 2, none, false, some fun _ _ _ => true, 2, .ok, two_lt_uint32, two_lt_uint32⟩

/-- The second chunk is the first that is written, and the call is cancelled then. -/
def cancelled : List Event :=
  [.call (.prime 2), .call (.complete 1 1), .call (.complete 0 2), .call (.iterate 0 1),
    .call (.iterate 0 1), .call (.complete 0 1), .call (.iterate 0 0), .call .cleanup]

/-- When the call returns there is nothing false in the destination; the write of the first chunk,
carried out after that, leaves what was in the freed memory. -/
theorem destination_within_cancelling : ∃ t u : State,
    t.copy.phase = .returned (-125) ∧ bytes t.fs "b" = some [0, 0, 3] ∧
    (t.fs = twoNames (.file 1) (by simp) ∨ ∃ src dst,
      (twoNames (.file 1) (by simp)).read "a" = some src ∧ t.fs.read "b" = some dst ∧
      dst.Within src.contents) ∧
    late 0 [9, 9] t = some u ∧ bytes u.fs "b" = some [9, 9, 3] ∧
    u.fs.read "a" = (twoNames (.file 1) (by simp)).read "a" := by
  have hrun : ((exec stepOn (start cancelling (twoNames (.file 1) (by simp))) cancelled).bind
      fun t => (late 0 [9, 9] t).map fun u => ((t, u), t.copy.phase, bytes t.fs "b",
        bytes u.fs "b")).map Prod.snd =
      some (.returned (-125), some [0, 0, 3], some [9, 9, 3]) := rfl
  obtain ⟨⟨⟨t, u⟩, r⟩, htu, rfl⟩ := Option.map_eq_some_iff.mp hrun
  obtain ⟨t', ht, hmap⟩ := Option.bind_eq_some_iff.mp htu
  obtain ⟨u', hu, heq⟩ := Option.map_eq_some_iff.mp hmap
  simp only [Prod.mk.injEq] at heq
  obtain ⟨⟨rfl, rfl⟩, hphase, hb, hb'⟩ := heq
  obtain ⟨hwithin, hothers⟩ := destination_within cancelling (twoNames (.file 1) (by simp))
    (Or.inl rfl)
  have hreach : Reach stepOn InCall (start cancelling (twoNames (.file 1) (by simp))) t' :=
    reach_of_exec (meets_of_forall fun s e he => by
      simp only [cancelled, List.mem_cons, List.not_mem_nil, or_false] at he
      rcases he with rfl | rfl | rfl | rfl | rfl | rfl | rfl | rfl <;> exact trivial) ht
  refine ⟨t', u', hphase, hb, hwithin t' hreach, hu, hb', ?_⟩
  exact hothers u' ((hreach.mono fun _ _ _ => anyStep _ _).trans
    (.single (e := .late 0 [9, 9]) trivial hu)) "a" (by decide)

/-! ## Calls in which nothing fails -/

/-- All system calls succeed, the submission queue has room for the reads that prime it, the slot
buffers have room for the chunks, and the progress callback never asks to abort. -/
structure Call.Undisturbed (c : Call) : Prop where
  setup : c.setup = .ok
  qd_pos : 0 < c.qd
  blockSize_pos : 0 < c.blockSize
  room : c.qd ≤ c.sqEntries
  fits : c.bufferSizeCb = none ∨ c.blockSize ≤ bufferLimit
  progress : ∀ cb, c.progressCb = some cb → ∀ n done total, cb n done total = false

theorem Call.Undisturbed.config (h : c.Undisturbed) (src : List UInt8) :
    CopyPath.Undisturbed (c.config src none none) where
  setup := by
    unfold Call.config
    rw [h.setup]
    rfl
  qd_pos := h.qd_pos
  blockSize_pos := h.blockSize_pos
  room := h.room
  progress := by
    rintro ⟨n, done, cb, hcb, hcancel⟩
    rw [h.progress cb hcb] at hcancel
    exact absurd hcancel (by simp)

/-- A copy in which every request is completed in full leaves the source's bytes. -/
theorem holds_of_returned {cfg : CopyPath.Config} {u : CopyPath.State} {r : ℤ}
    (hcfg : CopyPath.Undisturbed cfg)
    (hu : Reach (CopyPath.step cfg) (CopyPath.Answers Sqe.len) (CopyPath.start cfg) u)
    (hret : u.phase = .returned r) : r = cfg.fileSize ∧ u.dst.Holds cfg.src := by
  obtain ⟨-, hrun⟩ := CopyPath.running_reach hcfg CopyPath.fair_len hu
  rw [hret] at hrun
  have hcopied := hrun.2.copied fun _ => rfl
  have hr : r = (cfg.fileSize : ℕ) := by rw [hrun.1, hcopied]
  obtain ⟨-, hfin⟩ := CopyPath.finished_of_returned hu (hr ▸ hret)
  have hmoved := hfin.tiles.moved_eq_of_total hfin.moved_le
    (by rw [hrun.2.nextOff, ← hfin.copied, hcopied, Nat.zero_add])
  have hshort : Span.ShortOnlyAtTail (CopyPath.spans u.log) :=
    List.pairwise_of_forall_mem_list fun d hd d' _ hlt => by
      have := hmoved d hd
      omega
  have hholds := hfin.holds_iff.mpr hshort
  rw [hcopied, CopyPath.Config.fileSize, List.take_length] at hholds
  exact ⟨hr, hholds⟩

/-- Both files are opened. -/
theorem dst_start_ne_none (hcall : c.Undisturbed) {sfd : ℕ}
    (hsrc : fs.target c.srcPath = .file sfd) (hloop : fs.target c.dstPath ≠ .loop) :
    (start c fs).dst ≠ none := by
  have hopenSrc : c.openSrc fs = .ok sfd := by
    simp [Call.openSrc, hcall.setup, CopyPath.Setup.ok, openRead, hsrc]
  have hopenDst : ∃ dfd fs', c.openDst fs = .ok (dfd, fs') := by
    simp only [Call.openDst, hcall.setup, CopyPath.Setup.ok, openTrunc]
    cases htarget : fs.target c.dstPath with
    | file ino => exact ⟨_, _, rfl⟩
    | missing path => exact ⟨_, _, rfl⟩
    | loop => exact absurd htarget hloop
  obtain ⟨dfd, fs', hopenDst⟩ := hopenDst
  have hqd := hcall.qd_pos
  have hblock := hcall.blockSize_pos
  unfold start
  rw [if_neg (by omega)]
  simp only [hopenSrc, hopenDst]
  simp

/-- The call has returned. -/
def Returned (s : State) : Prop := CopyPath.Returned s.copy

theorem start_of_undisturbed (hcall : c.Undisturbed) {sfd : ℕ}
    (hsrc : fs.target c.srcPath = .file sfd) (hdst : fs.target c.dstPath ≠ .file sfd)
    (hloop : fs.target c.dstPath ≠ .loop) :
    ∃ dfd fs', c.openDst fs = .ok (dfd, fs') ∧
      start c fs = ⟨fs', some dfd, c.config (fs.data sfd).contents none none,
        CopyPath.start (c.config (fs.data sfd).contents none none)⟩ := by
  rcases start_cases c fs with ⟨hnone, -, -⟩ | ⟨sfd', dfd, fs', hsrc', hopen, -, -, -, -, heq⟩
  · exact absurd hnone (dst_start_ne_none hcall hsrc hloop)
  obtain rfl : sfd = sfd' := Target.file.inj (hsrc.symm.trans hsrc')
  rcases source_opened hsrc hopen with ⟨hdst', -⟩ | ⟨-, hsame⟩
  · exact absurd hdst' hdst
  · exact ⟨dfd, fs', hopen, hsame ▸ heq⟩

theorem terminates_of_undisturbed (hcall : c.Undisturbed) {sfd : ℕ}
    (hsrc : fs.target c.srcPath = .file sfd) (hdst : fs.target c.dstPath ≠ .file sfd)
    (hloop : fs.target c.dstPath ≠ .loop) :
    Terminates step (fun s => CopyPath.Answers Sqe.len s.copy) Returned (start c fs) := by
  obtain ⟨dfd, fs', -, hstart⟩ := start_of_undisturbed hcall hsrc hdst hloop
  rw [hstart]
  exact (matches_copy _).terminates (fun t u e hR => by rw [hR.2])
    (fun t u hR hu => by unfold Returned; rw [hR.2]; exact hu) ⟨rfl, rfl⟩
    (CopyPath.terminates (hcall.config _) CopyPath.fair_len)

/-- The destination's path reads as the source's did, when the kernel completes all requests in
full. -/
theorem copied_of_returned (hcall : c.Undisturbed) {sfd : ℕ}
    (hsrc : fs.target c.srcPath = .file sfd) (hdst : fs.target c.dstPath ≠ .file sfd)
    (hloop : fs.target c.dstPath ≠ .loop) {r : ℤ}
    (ht : Reach step (fun s => CopyPath.Answers Sqe.len s.copy) (start c fs) t)
    (hret : t.copy.phase = .returned r) :
    r = (fs.data sfd).size ∧ bytes t.fs c.dstPath = bytes fs c.srcPath := by
  obtain ⟨dfd, fs', hopen, hstart⟩ := start_of_undisturbed hcall hsrc hdst hloop
  rw [hstart] at ht
  have hputs : FileTree.Puts fs t.fs c.dstPath dfd t.copy.dst :=
    puts_of_reach puts_step ht rfl (puts_openDst hopen)
  obtain ⟨u, hu, -, rfl⟩ := (matches_copy _).reach (fun t u e hR he => by rw [← hR.2]; exact he)
    ⟨rfl, rfl⟩ ht
  obtain ⟨hr, hholds⟩ := holds_of_returned (hcall.config _) hu hret
  refine ⟨?_, ?_⟩
  · rw [hr]
    simp [CopyPath.Config.fileSize, Call.config, SparseFile.contents]
  · unfold bytes
    rw [hputs.read, FileTree.read_of_target hsrc]
    exact congrArg some (SparseFile.contents_of_holds hholds)

/-- No slot buffer is overrun. -/
theorem overrun_of_undisturbed (hcall : c.Undisturbed) {sfd : ℕ}
    (hsrc : fs.target c.srcPath = .file sfd) (hdst : fs.target c.dstPath ≠ .file sfd)
    (hloop : fs.target c.dstPath ≠ .loop)
    (ht : Reach step (fun s => CopyPath.Answers Sqe.len s.copy) (start c fs) t) :
    t.copy.overrun = false := by
  obtain ⟨dfd, fs', -, hstart⟩ := start_of_undisturbed hcall hsrc hdst hloop
  rw [hstart] at ht
  obtain ⟨u, hu, -, rfl⟩ := (matches_copy _).reach (fun t u e hR he => by rw [← hR.2]; exact he)
    ⟨rfl, rfl⟩ ht
  exact (@CopyPath.within_of_reach (c.config (fs.data sfd).contents none none) _ hcall.fits _ hu).2

/-- **A copy from path to path.**  When nothing fails, the kernel completes all requests in
full, in whatever order, and the two paths do not lead to one file, the call returns, no slot
buffer is overrun, and at the end the size of the source is returned, the destination's path reads
as the source's did, and all paths that led elsewhere, the source's among them, read as before. -/
theorem copies (c : Call) (fs : Fs) (hcall : c.Undisturbed) {sfd : ℕ}
    (hsrc : fs.target c.srcPath = .file sfd) (hdst : fs.target c.dstPath ≠ .file sfd)
    (hloop : fs.target c.dstPath ≠ .loop) :
    Terminates step (fun s => CopyPath.Answers Sqe.len s.copy) Returned (start c fs) ∧
      ∀ t, Reach step (fun s => CopyPath.Answers Sqe.len s.copy) (start c fs) t →
        t.copy.overrun = false ∧ ∀ r, t.copy.phase = .returned r → r = (fs.data sfd).size ∧
          bytes t.fs c.dstPath = bytes fs c.srcPath ∧
          ∀ path, fs.target path ≠ fs.target c.dstPath → t.fs.read path = fs.read path := by
  refine ⟨terminates_of_undisturbed hcall hsrc hdst hloop, fun t ht =>
    ⟨overrun_of_undisturbed hcall hsrc hdst hloop ht, fun r hret => ?_⟩⟩
  obtain ⟨hr, hbytes⟩ := copied_of_returned hcall hsrc hdst hloop ht hret
  refine ⟨hr, hbytes, fun path hpath => ((confined_of_reach puts_step ht).outside path ?_).2⟩
  exact List.forall_mem_singleton.mpr hpath

/-- A symbolic link is copied to, and the file that it leads to is written. -/
theorem copies_aToB : Terminates step (fun s => CopyPath.Answers Sqe.len s.copy) Returned
      (start aToB (twoNames (.link "c") (by simp))) ∧
    ∀ t, Reach step (fun s => CopyPath.Answers Sqe.len s.copy)
      (start aToB (twoNames (.link "c") (by simp))) t →
        t.copy.overrun = false ∧ ∀ r, t.copy.phase = .returned r → r = 3 ∧
          bytes t.fs "b" = some [1, 2, 3] ∧
          ∀ path, (twoNames (.link "c") (by simp)).target path ≠ .missing "c" →
            t.fs.read path = (twoNames (.link "c") (by simp)).read path :=
  @copies aToB (twoNames (.link "c") (by simp))
    ⟨rfl, by decide, by decide, by decide, Or.inl rfl, by simp [aToB]⟩ 0 rfl (by decide) (by decide)

end CopySource
end Native
end Pyuring
