import Pyuring.Lib.Resources
import Pyuring.Native.CopyPathExact
import Pyuring.Native.WriteNewfileExact
import Pyuring.Native.WriteManyfilesExact

/-!
# What the pipelines acquire and release

The file descriptors, the ring and the memory blocks of the three pipelines.  `acquire` is the
code of each before its loop, with what it has acquired and released by the time it gets to
the loop or gives up: one branch for each of the clean-up sequences of the source, in the
order in which it releases.  `releases` is the clean-up block at `out:`.

`acquire_phase` ties this to the state machines: it is the same code that decides the phase a
machine starts in.  `free` does nothing with a null pointer, so the branch in which only one of
two blocks was allocated releases that one.
-/

namespace Pyuring
namespace Native

open Trace Resources

/-- What the pipelines acquire: descriptors, the ring, and blocks of memory under the names of
the variables that point to them. -/
inductive Resource where
  | sfd
  | dfd
  | file (i : ℕ)
  | ring
  | fds
  | slots
  | slotFile
  | buf (i : ℕ)
  | fileOff
  | fileDone
  | freeSlots
  deriving DecidableEq, Repr

/-- The buffers of the first `n` slots. -/
def bufs (n : ℕ) : List Resource := (List.range n).map .buf

/-- The descriptors of the first `n` files. -/
def files (n : ℕ) : List Resource := (List.range n).map .file

@[simp] theorem mem_bufs {r : Resource} {n : ℕ} : r ∈ bufs n ↔ ∃ i < n, .buf i = r := by
  simp [bufs]

@[simp] theorem mem_files {r : Resource} {n : ℕ} : r ∈ files n ↔ ∃ i < n, .file i = r := by
  simp [files]

@[simp] theorem nodup_bufs (n : ℕ) : (bufs n).Nodup :=
  List.nodup_range.map fun i j h => by simpa using h

@[simp] theorem nodup_files (n : ℕ) : (files n).Nodup :=
  List.nodup_range.map fun i j h => by simpa using h

theorem nodup_append_bufs (n : ℕ) {acquired : List Resource} (hnodup : acquired.Nodup)
    (hbuf : ∀ i, .buf i ∉ acquired) : (acquired ++ bufs n).Nodup := by
  refine List.nodup_append.mpr ⟨hnodup, nodup_bufs n, ?_⟩
  rintro r hr q hq rfl
  obtain ⟨i, -, rfl⟩ := mem_bufs.mp hq
  exact hbuf i hr

theorem perm_append_bufs (n : ℕ) {acquired released : List Resource}
    (hperm : released.Perm acquired) : (bufs n ++ released).Perm (acquired ++ bufs n) :=
  List.perm_append_comm.trans (hperm.append_right (bufs n))

/-- Blocks that are acquired last and released first. -/
theorem settled_bufs (n : ℕ) {acquired released : List Resource} (hnodup : acquired.Nodup)
    (hbuf : ∀ i, .buf i ∉ acquired) (hperm : released.Perm acquired) :
    Settled (openClose (acquired ++ bufs n) (bufs n ++ released)) :=
  settled_openClose (nodup_append_bufs n hnodup hbuf) (perm_append_bufs n hperm)

/-- The first of the calls `0`, ..., `n - 1` that fails. -/
def firstFailure (ok : ℕ → Bool) (n : ℕ) : Option ℕ := (List.range n).find? fun i => ¬ ok i

theorem firstFailure_eq_none {ok : ℕ → Bool} {n : ℕ} :
    firstFailure ok n = none ↔ ∀ i < n, ok i = true := by
  simp [firstFailure, List.find?_eq_none]

theorem firstFailure_isSome {ok : ℕ → Bool} {n i : ℕ} (h : firstFailure ok n = some i) :
    ¬ ∀ i < n, ok i = true := by
  rw [← firstFailure_eq_none, h]
  simp

namespace CopyPath

variable (cfg : Config)

/-- What the loop runs with, in the order of acquisition. -/
def held : List Resource := [.sfd, .dfd, .ring, .slots] ++ bufs cfg.qd

/-- The code before the queue is primed: the phase it gets to, and the resources it has
acquired and released by then. -/
def acquire : Phase × List (Use Resource) :=
  if cfg.qd = 0 ∨ cfg.blockSize = 0 then (.returned EINVAL.neg, [])
  else match cfg.setup.openSrc with
    | some e => (.returned e.neg, [])
    | none => match cfg.setup.openDst with
      | some e => (.returned e.neg, openClose [.sfd] [.sfd])
      | none => match cfg.setup.fstat with
        | some e => (.returned e.neg, openClose [.sfd, .dfd] [.dfd, .sfd])
        | none =>
          if cfg.fileSize = 0 then (.returned 0, openClose [.sfd, .dfd] [.dfd, .sfd])
          else if cfg.setup.queueInit < 0 then
            (.returned cfg.setup.queueInit, openClose [.sfd, .dfd] [.dfd, .sfd])
          else if ¬ cfg.setup.calloc then
            (.returned ENOMEM.neg, openClose [.sfd, .dfd, .ring] [.ring, .dfd, .sfd])
          else match firstFailure cfg.setup.memalign cfg.qd with
            | some i => (.returned ENOMEM.neg,
                openClose ([.sfd, .dfd, .ring, .slots] ++ bufs i)
                  (bufs i ++ [.slots, .ring, .dfd, .sfd]))
            | none => (.priming, openClose (held cfg) [])

/-- What a step releases: the block at `out:`. -/
def releases : Event → List Resource
  | .cleanup => bufs cfg.qd ++ [.slots, .ring, .dfd, .sfd]
  | _ => []

variable {cfg} {s t : State}

theorem acquire_phase : (acquire cfg).1 = entry cfg := by
  unfold acquire entry
  split
  · rfl
  cases cfg.setup.openSrc with
  | some e => rfl
  | none => cases cfg.setup.openDst with
    | some e => rfl
    | none => cases cfg.setup.fstat with
      | some e => rfl
      | none =>
        simp only
        split
        · rfl
        split
        · rfl
        cases hcalloc : cfg.setup.calloc with
        | false => simp
        | true =>
          cases hfail : firstFailure cfg.setup.memalign cfg.qd with
          | some i => simp [firstFailure_isSome hfail]
          | none =>
            have hall := firstFailure_eq_none.mp hfail
            simp only [not_true, if_false, true_and]
            rw [if_neg (not_not.mpr hall)]

/-- The code before the loop cleans up after itself, or the loop starts with all it needs. -/
theorem acquire_cases : (∃ r, (acquire cfg).1 = .returned r) ∧ Settled (acquire cfg).2 ∨
    (acquire cfg).1 = .priming ∧ 0 < cfg.blockSize ∧ (acquire cfg).2 = openClose (held cfg) [] := by
  unfold acquire
  split
  · exact Or.inl ⟨⟨_, rfl⟩, settled_nil⟩
  next hargs =>
  cases cfg.setup.openSrc with
  | some e => exact Or.inl ⟨⟨_, rfl⟩, settled_nil⟩
  | none => cases cfg.setup.openDst with
    | some e => exact Or.inl ⟨⟨_, rfl⟩, settled_openClose (by decide) (by decide)⟩
    | none => cases cfg.setup.fstat with
      | some e => exact Or.inl ⟨⟨_, rfl⟩, settled_openClose (by decide) (by decide)⟩
      | none =>
        simp only
        split
        · exact Or.inl ⟨⟨_, rfl⟩, settled_openClose (by decide) (by decide)⟩
        split
        · exact Or.inl ⟨⟨_, rfl⟩, settled_openClose (by decide) (by decide)⟩
        split
        · exact Or.inl ⟨⟨_, rfl⟩, settled_openClose (by decide) (by decide)⟩
        cases firstFailure cfg.setup.memalign cfg.qd with
        | some i => exact Or.inl ⟨⟨_, rfl⟩, settled_bufs i (by decide) (by simp) (by decide)⟩
        | none => exact Or.inr ⟨rfl, by omega, rfl⟩

/-- Only the block at `out:` returns. -/
theorem returned_of_step (hgood : Good cfg s) (hblock : 0 < cfg.blockSize) {e : Event}
    (ht : step cfg s e = some t) {r : ℤ} (hret : t.phase = .returned r) : e = .cleanup := by
  cases step_cases ht with
  | complete hrun hc =>
    rw [(complete_frame hc).1] at hret
    rcases hrun with hphase | hphase <;> rw [hphase] at hret <;> exact absurd hret (by simp)
  | @prime r hphase =>
    rw [hgood.of_priming hphase] at hret
    rcases prime_cases hblock r with ⟨hfail, -⟩ | ⟨-, hph, -⟩
    · rw [hfail.phase] at hret
      exact absurd hret (by simp)
    · rw [hph] at hret
      exact absurd hret (by simp)
  | @iterate w r t hphase _ hit =>
    rcases iterate_cases (hgood.of_loop hphase) hblock hphase hit with
      ⟨hfail, -⟩ | ⟨-, -, -, -, -, hph, -⟩
    · rw [hfail.phase] at hret
      exact absurd hret (by simp)
    · rw [hph] at hret
      exact absurd hret (by simp)
  | @finish ok e _ _ =>
    have hout : (finish cfg ok e s).phase = .out := by
      unfold finish
      cases ok <;> cases cfg.doFsync <;> cases e <;> rfl
    rw [hout] at hret
    exact absurd hret (by simp)
  | cleanup => rfl

theorem cleanUp (cfg : Config) : CleanUp (step cfg) (releases cfg)
    (fun s => Good cfg s ∧ 0 < cfg.blockSize) Returned (held cfg) := by
  refine .of_event .cleanup (nodup_append_bufs cfg.qd (by decide) (by simp))
    (fun _ _ _ hs ht => ⟨good_step hs.2 hs.1 ht, hs.2⟩) (perm_append_bufs cfg.qd (by decide)) ?_ ?_
    fun _ e hdone => step_of_returned hdone.choose_spec e
  · intro e he
    cases e <;> first | rfl | exact absurd rfl he
  · refine fun s e t hs ht => ⟨fun ⟨r, hret⟩ => returned_of_step hs.1 hs.2 ht hret, ?_⟩
    rintro rfl
    obtain ⟨-, ht⟩ := Option.ite_none_right_eq_some.mp ht
    exact ⟨_, by rw [← Option.some.inj ht]⟩

/-- **A copy cleans up after itself.** -/
theorem releasesOnce (cfg : Config) :
    ReleasesOnce (step cfg) (releases cfg) (start cfg, (acquire cfg).2) Returned := by
  have hphase : (start cfg).phase = (acquire cfg).1 := acquire_phase.symm
  refine (cleanUp cfg).releasesOnce ?_
  rcases @acquire_cases cfg with ⟨⟨r, hr⟩, hsettled⟩ | ⟨hprime, hblock, hheld⟩
  · exact Or.inl ⟨⟨r, hphase.trans hr⟩, hsettled⟩
  · refine Or.inr ⟨?_, ⟨good_start, hblock⟩, hheld⟩
    rintro ⟨r, hr⟩
    exact absurd (hr.symm.trans (hphase.trans hprime)) (by simp)

end CopyPath

namespace WriteNewfile

variable (cfg : Config)

/-- What the loop runs with, in the order of acquisition. -/
def held : List Resource := [.dfd, .ring, .slots] ++ bufs cfg.qd

/-- The code before the loop: the phase it gets to, and the resources it has acquired and
released by then. -/
def acquire : Phase × List (Use Resource) :=
  if cfg.totalMb = 0 ∨ cfg.blockSize = 0 ∨ cfg.qd = 0 then (.returned EINVAL.neg, [])
  else match cfg.setup.openDst with
    | some e => (.returned e.neg, [])
    | none =>
      if cfg.setup.queueInit < 0 then
        (.returned cfg.setup.queueInit, openClose [.dfd] [.dfd])
      else if ¬ cfg.setup.calloc then
        (.returned ENOMEM.neg, openClose [.dfd, .ring] [.ring, .dfd])
      else match firstFailure cfg.setup.memalign cfg.qd with
        | some i => (.returned ENOMEM.neg,
            openClose ([.dfd, .ring, .slots] ++ bufs i) (bufs i ++ [.slots, .ring, .dfd]))
        | none => (.head, openClose (held cfg) [])

/-- What a step releases: the block at `out:`. -/
def releases : Event → List Resource
  | .cleanup => bufs cfg.qd ++ [.slots, .ring, .dfd]
  | _ => []

variable {cfg} {s t : State}

theorem acquire_phase : (acquire cfg).1 = entry cfg := by
  unfold acquire entry
  split
  · rfl
  cases cfg.setup.openDst with
  | some e => rfl
  | none =>
    simp only
    split
    · rfl
    cases hcalloc : cfg.setup.calloc with
    | false => simp
    | true =>
      cases hfail : firstFailure cfg.setup.memalign cfg.qd with
      | some i => simp [firstFailure_isSome hfail]
      | none =>
        have hall := firstFailure_eq_none.mp hfail
        simp only [not_true, if_false, true_and]
        rw [if_neg (not_not.mpr hall)]

/-- The code before the loop cleans up after itself, or the loop starts with all it needs. -/
theorem acquire_cases : (∃ r, (acquire cfg).1 = .returned r) ∧ Settled (acquire cfg).2 ∨
    (acquire cfg).1 = .head ∧ (acquire cfg).2 = openClose (held cfg) [] := by
  unfold acquire
  split
  · exact Or.inl ⟨⟨_, rfl⟩, settled_nil⟩
  cases cfg.setup.openDst with
  | some e => exact Or.inl ⟨⟨_, rfl⟩, settled_nil⟩
  | none =>
    simp only
    split
    · exact Or.inl ⟨⟨_, rfl⟩, settled_openClose (by decide) (by decide)⟩
    split
    · exact Or.inl ⟨⟨_, rfl⟩, settled_openClose (by decide) (by decide)⟩
    cases firstFailure cfg.setup.memalign cfg.qd with
    | some i => exact Or.inl ⟨⟨_, rfl⟩, settled_bufs i (by decide) (by simp) (by decide)⟩
    | none => exact Or.inr ⟨rfl, rfl⟩

theorem fill_running (r : ℤ) (s : State) (ret : ℤ) : (fill cfg r s).phase ≠ .returned ret := by
  have hawait : ∀ u : State, u.awaitAny.phase ≠ .returned ret := by
    intro u
    rcases awaitAny_phase u with ⟨hphase, -⟩ | ⟨hphase, -⟩ <;> simp [hphase]
  unfold fill
  simp only
  split
  · exact hawait _
  split
  · simp [State.goOut]
  · exact hawait _

theorem reap_running (hphase : s.phase = .reap) (ret : ℤ) :
    (reap cfg s).phase ≠ .returned ret := by
  unfold reap
  simp only
  split
  · simp
  generalize s.ring.completed.take batchSize = batch
  rcases reapBatch_cases cfg batch.length batch 0 s with ⟨-, hfail, -⟩ | ⟨-, n, log, -, heq⟩
  · simp [hfail.phase]
  · simp [heq, hphase]

/-- Only the block at `out:` returns. -/
theorem returned_of_step {e : Event} (ht : step cfg s e = some t) {r : ℤ}
    (hret : t.phase = .returned r) : e = .cleanup := by
  cases step_cases ht with
  | complete hrun hc =>
    obtain ⟨q, ring, -, -, rfl⟩ := complete_cases hc
    exact absurd hret (hrun r)
  | fill _ _ => exact absurd hret (fill_running _ _ _)
  | waitFails _ _ => exact absurd hret (by simp [State.goOut])
  | waits _ _ => exact absurd hret (by simp)
  | reap hphase => exact absurd hret (reap_running hphase _)
  | @finish e _ _ =>
    have hout : (finish cfg e s).phase = .out := by
      unfold finish
      cases cfg.doFsync <;> cases e <;> rfl
    exact absurd (hout.symm.trans hret) (by simp)
  | cleanup => rfl

theorem cleanUp (cfg : Config) : CleanUp (step cfg) (releases cfg) (fun _ => True)
    Returned (held cfg) := by
  refine .of_event .cleanup (nodup_append_bufs cfg.qd (by decide) (by simp))
    (fun _ _ _ _ _ => trivial) (perm_append_bufs cfg.qd (by decide)) ?_ ?_
    fun _ e hdone => step_of_returned hdone.choose_spec e
  · intro e he
    cases e <;> first | rfl | exact absurd rfl he
  · refine fun s e t _ ht => ⟨fun ⟨r, hret⟩ => returned_of_step ht hret, ?_⟩
    rintro rfl
    obtain ⟨-, ht⟩ := Option.ite_none_right_eq_some.mp ht
    exact ⟨_, by rw [← Option.some.inj ht]⟩

/-- **Writing a file cleans up after itself.** -/
theorem releasesOnce (cfg : Config) :
    ReleasesOnce (step cfg) (releases cfg) (start cfg, (acquire cfg).2) Returned := by
  have hphase : (start cfg).phase = (acquire cfg).1 := acquire_phase.symm
  refine (cleanUp cfg).releasesOnce ?_
  rcases @acquire_cases cfg with ⟨⟨r, hr⟩, hsettled⟩ | ⟨hhead, hheld⟩
  · exact Or.inl ⟨⟨r, hphase.trans hr⟩, hsettled⟩
  · refine Or.inr ⟨?_, trivial, hheld⟩
    rintro ⟨r, hr⟩
    exact absurd (hr.symm.trans (hphase.trans hhead)) (by simp)

end WriteNewfile

namespace WriteManyfiles

variable (cfg : Config)

/-- Which of the two arrays of the slots were allocated. -/
structure Allocs where
  slots : Bool
  slotFile : Bool
  both : cfg.setup.callocSlots = (slots && slotFile)

/-- The path and the open of the files in turn, up to the first failure: which file failed,
and the error. -/
def openAll : Option (ℕ × ℤ) :=
  (List.range cfg.nfiles).findSome? fun i => (openOne cfg i).map fun r => (i, r)

/-- What the code has acquired when it allocates the buffers. -/
def heldInit : List Resource :=
  [Resource.fds] ++ files cfg.nfiles ++ [Resource.ring, .slots, .slotFile]

/-- What the loop runs with, in the order of acquisition. -/
def held : List Resource :=
  heldInit cfg ++ bufs cfg.qd ++ [Resource.fileOff, .fileDone, .freeSlots]

/-- What all clean-up sequences end with once the ring is initialised. -/
def exitRing : List Resource := [Resource.ring] ++ files cfg.nfiles ++ [Resource.fds]

/-- The code before the loop: the phase it gets to, and the resources it has acquired and
released by then. -/
def acquire (a : Allocs cfg) : Phase × List (Use Resource) :=
  if cfg.nfiles = 0 ∨ cfg.mbPerFile = 0 ∨ cfg.blockSize = 0 ∨ cfg.qd = 0 then
    (.returned EINVAL.neg, [])
  else if ¬ cfg.setup.callocFds then (.returned ENOMEM.neg, [])
  else match openAll cfg with
    | some (j, r) => (.returned r, openClose ([.fds] ++ files j) (files j ++ [.fds]))
    | none =>
      if cfg.setup.queueInit < 0 then
        (.returned cfg.setup.queueInit,
          openClose ([.fds] ++ files cfg.nfiles) (files cfg.nfiles ++ [.fds]))
      else if ¬ (a.slots ∧ a.slotFile) then
        (.returned ENOMEM.neg,
          openClose ([.fds] ++ files cfg.nfiles ++ [.ring] ++
              (if a.slots then [.slots] else []) ++ (if a.slotFile then [.slotFile] else []))
            ((if a.slotFile then [.slotFile] else []) ++ (if a.slots then [.slots] else []) ++
              exitRing cfg))
      else match firstFailure cfg.setup.memalign cfg.qd with
        | some i => (.returned ENOMEM.neg, openClose (heldInit cfg ++ bufs i)
            (bufs i ++ [.slotFile, .slots] ++ exitRing cfg))
        | none =>
          if ¬ cfg.setup.callocFileOff then
            (.returned ENOMEM.neg, openClose (heldInit cfg ++ bufs cfg.qd)
              (bufs cfg.qd ++ [.slotFile, .slots] ++ exitRing cfg))
          else if ¬ cfg.setup.callocFileDone then
            (.returned ENOMEM.neg, openClose (heldInit cfg ++ bufs cfg.qd ++ [.fileOff])
              ([.fileOff] ++ bufs cfg.qd ++ [.slotFile, .slots] ++ exitRing cfg))
          else if ¬ cfg.setup.mallocFreeSlots then
            (.returned ENOMEM.neg, openClose (heldInit cfg ++ bufs cfg.qd ++ [.fileOff, .fileDone])
              ([.fileDone, .fileOff] ++ bufs cfg.qd ++ [.slotFile, .slots] ++ exitRing cfg))
          else (.head, openClose (held cfg) [])

/-- What a step releases: the block at `out:`. -/
def releases : Event → List Resource
  | .cleanup => [.freeSlots, .fileDone, .fileOff] ++ bufs cfg.qd ++ [.slotFile, .slots] ++
      exitRing cfg
  | _ => []

variable {cfg} {s t : State}

theorem map_openAll :
    (openAll cfg).map Prod.snd = (List.range cfg.nfiles).findSome? (openOne cfg) := by
  rw [openAll, List.map_findSome?]
  congr 1
  funext i
  simp

theorem acquire_phase (a : Allocs cfg) : (acquire cfg a).1 = entry cfg := by
  unfold acquire entry
  split
  · rfl
  split
  · rfl
  rw [← map_openAll]
  cases openAll cfg with
  | some jr => rfl
  | none =>
    simp only [Option.map_none]
    split
    · rfl
    have hboth : cfg.setup.callocSlots = true ↔ a.slots = true ∧ a.slotFile = true := by
      rw [a.both, Bool.and_eq_true]
    by_cases hslots : a.slots = true ∧ a.slotFile = true
    · cases hfail : firstFailure cfg.setup.memalign cfg.qd with
      | some i => simp [hslots, firstFailure_isSome hfail]
      | none =>
        have hall := firstFailure_eq_none.mp hfail
        simp only [hboth, hslots]
        split_ifs <;> simp_all
    · simp [hboth, hslots]

theorem nodup_held (m : ℕ) {o : List Resource} (ho : o.Sublist [.fileOff, .fileDone, .freeSlots]) :
    (heldInit cfg ++ bufs m ++ o).Nodup := by
  refine List.Nodup.sublist (ho.append_left _) ?_
  simp only [heldInit]
  refine List.nodup_append.mpr ⟨List.nodup_append.mpr ⟨?_, nodup_bufs m, ?_⟩, by simp, ?_⟩
  · simp [List.nodup_append]
  · rintro r hr q hq rfl
    obtain ⟨i, -, rfl⟩ := mem_bufs.mp hq
    simp at hr
  · rintro r hr q hq rfl
    simp only [List.mem_cons, List.not_mem_nil, or_false] at hq
    rcases hq with rfl | rfl | rfl <;> simp at hr

theorem perm_held (m : ℕ) {c o : List Resource} (hperm : c.Perm o) :
    (c ++ bufs m ++ [Resource.slotFile, .slots] ++ exitRing cfg).Perm
      (heldInit cfg ++ bufs m ++ o) := by
  refine List.perm_iff_count.mpr fun r => ?_
  have := hperm.count_eq r
  simp only [exitRing, heldInit, List.count_append, List.count_cons, List.count_nil]
  omega

/-- The clean-up sequences from the allocation of the buffers on. -/
theorem settled_held (m : ℕ) {c o : List Resource} (hperm : c.Perm o)
    (ho : o.Sublist [.fileOff, .fileDone, .freeSlots]) :
    Settled (openClose (heldInit cfg ++ bufs m ++ o)
      (c ++ bufs m ++ [Resource.slotFile, .slots] ++ exitRing cfg)) :=
  settled_openClose (nodup_held m ho) (perm_held m hperm)

/-- The code before the loop cleans up after itself, or the loop starts with all it needs. -/
theorem acquire_cases (a : Allocs cfg) :
    (∃ r, (acquire cfg a).1 = .returned r) ∧ Settled (acquire cfg a).2 ∨
      (acquire cfg a).1 = .head ∧ (acquire cfg a).2 = openClose (held cfg) [] := by
  have hfiles : ∀ n, Settled (openClose ([.fds] ++ files n) (files n ++ [.fds])) := by
    intro n
    exact settled_openClose (by simp) List.perm_append_comm
  unfold acquire
  split
  · exact Or.inl ⟨⟨_, rfl⟩, settled_nil⟩
  split
  · exact Or.inl ⟨⟨_, rfl⟩, settled_nil⟩
  cases openAll cfg with
  | some jr => exact Or.inl ⟨⟨_, rfl⟩, hfiles jr.1⟩
  | none =>
    simp only
    split
    · exact Or.inl ⟨⟨_, rfl⟩, hfiles cfg.nfiles⟩
    split
    · refine Or.inl ⟨⟨_, rfl⟩, settled_openClose ?_ ?_⟩
      · cases a.slots <;> cases a.slotFile <;> simp [List.nodup_append]
      · refine List.perm_iff_count.mpr fun r => ?_
        simp only [exitRing, List.count_append]
        omega
    cases firstFailure cfg.setup.memalign cfg.qd with
    | some i => exact Or.inl ⟨⟨_, rfl⟩, by simpa using settled_held i (.refl []) (by simp)⟩
    | none =>
      simp only
      split
      · exact Or.inl ⟨⟨_, rfl⟩, by simpa using settled_held cfg.qd (.refl []) (by simp)⟩
      split
      · exact Or.inl ⟨⟨_, rfl⟩, settled_held cfg.qd (.refl _) (by simp)⟩
      split
      · exact Or.inl ⟨⟨_, rfl⟩, settled_held cfg.qd (by decide) (by simp)⟩
      · exact Or.inr ⟨rfl, rfl⟩

theorem fill_running (r : ℤ) (s : State) (ret : ℤ) : (fill cfg r s).phase ≠ .returned ret := by
  have hawait : ∀ u : State, u.awaitAny.phase ≠ .returned ret := by
    intro u
    rcases awaitAny_phase u with ⟨hphase, -⟩ | hphase <;> simp [hphase]
  unfold fill
  simp only
  split
  · split
    · exact hawait _
    split
    · simp [State.goOut]
    · exact hawait _
  · simp

theorem reapBatch_running (got : ℕ) (cs : List (Sqe × ℤ)) (s : State) (ret : ℤ) :
    (reapBatch cfg got 0 cs s).phase ≠ .returned ret := by
  rcases @reapBatch_cases cfg got cs 0 s with ⟨-, hfail, -⟩ | ⟨-, free, heq⟩
  · simp [hfail.phase]
  · simp [heq]

theorem finish_phase (err : ℕ → Option Errno) (s : State) : (finish cfg err s).phase = .out := by
  unfold finish
  split
  · rcases (fsyncAll_cases err (List.range cfg.nfiles) s).2 with hfail | ⟨hphase, -⟩
    · exact hfail.phase
    · exact hphase
  · rfl

/-- Only the block at `out:` returns. -/
theorem returned_of_step {e : Event} (ht : step cfg s e = some t) {r : ℤ}
    (hret : t.phase = .returned r) : e = .cleanup := by
  cases step_cases ht with
  | complete hrun hc =>
    obtain ⟨q, ring, -, -, rfl⟩ := complete_cases hc
    exact absurd hret (hrun r)
  | fill _ => exact absurd hret (fill_running _ _ _)
  | waitFails _ _ => exact absurd hret (by simp [State.goOut])
  | waits _ _ => exact absurd hret (by simp)
  | reap hphase =>
    unfold reap at hret
    simp only at hret
    split at hret
    · exact absurd hret (by simp)
    · exact absurd hret (reapBatch_running _ _ _ _)
  | waitOneFails _ _ => exact absurd hret (by simp [State.goOut])
  | waitOneReaps _ _ _ => exact absurd hret (reapBatch_running _ _ _ _)
  | finish _ => exact absurd ((finish_phase _ _).symm.trans hret) (by simp)
  | cleanup => rfl

theorem cleanUp (cfg : Config) : CleanUp (step cfg) (releases cfg) (fun _ => True)
    Returned (held cfg) := by
  have hperm : List.Perm [.freeSlots, .fileDone, .fileOff]
      [Resource.fileOff, .fileDone, .freeSlots] := by decide
  refine .of_event .cleanup (nodup_held cfg.qd (.refl _)) (fun _ _ _ _ _ => trivial)
    (perm_held cfg.qd hperm) ?_ ?_ fun _ e hdone => step_of_returned hdone.choose_spec e
  · intro e he
    cases e <;> first | rfl | exact absurd rfl he
  · refine fun s e t _ ht => ⟨fun ⟨r, hret⟩ => returned_of_step ht hret, ?_⟩
    rintro rfl
    obtain ⟨-, ht⟩ := Option.ite_none_right_eq_some.mp ht
    exact ⟨_, by rw [← Option.some.inj ht]⟩

/-- **Writing many files cleans up after itself.** -/
theorem releasesOnce (cfg : Config) (a : Allocs cfg) :
    ReleasesOnce (step cfg) (releases cfg) (start cfg, (acquire cfg a).2) Returned := by
  have hphase : (start cfg).phase = (acquire cfg a).1 := (acquire_phase a).symm
  refine (cleanUp cfg).releasesOnce ?_
  rcases acquire_cases a with ⟨⟨r, hr⟩, hsettled⟩ | ⟨hhead, hheld⟩
  · exact Or.inl ⟨⟨r, hphase.trans hr⟩, hsettled⟩
  · refine Or.inr ⟨?_, trivial, hheld⟩
    rintro ⟨r, hr⟩
    exact absurd (hr.symm.trans (hphase.trans hhead)) (by simp)

end WriteManyfiles

/-- **The pipelines release every resource once**, however far they get, whatever fails on the
way and wherever a run leaves the loop. -/
theorem pipelines_release_once :
    (∀ cfg : CopyPath.Config,
      (CopyPath.acquire cfg).1 = (CopyPath.start cfg).phase ∧
        ReleasesOnce (CopyPath.step cfg) (CopyPath.releases cfg)
          (CopyPath.start cfg, (CopyPath.acquire cfg).2) CopyPath.Returned) ∧
    (∀ cfg : WriteNewfile.Config,
      (WriteNewfile.acquire cfg).1 = (WriteNewfile.start cfg).phase ∧
        ReleasesOnce (WriteNewfile.step cfg) (WriteNewfile.releases cfg)
          (WriteNewfile.start cfg, (WriteNewfile.acquire cfg).2) WriteNewfile.Returned) ∧
    ∀ (cfg : WriteManyfiles.Config) (a : WriteManyfiles.Allocs cfg),
      (WriteManyfiles.acquire cfg a).1 = (WriteManyfiles.start cfg).phase ∧
        ReleasesOnce (WriteManyfiles.step cfg) (WriteManyfiles.releases cfg)
          (WriteManyfiles.start cfg, (WriteManyfiles.acquire cfg a).2) WriteManyfiles.Returned :=
  ⟨fun cfg => ⟨CopyPath.acquire_phase, CopyPath.releasesOnce cfg⟩,
    fun cfg => ⟨WriteNewfile.acquire_phase, WriteNewfile.releasesOnce cfg⟩,
    fun cfg a => ⟨WriteManyfiles.acquire_phase a, WriteManyfiles.releasesOnce cfg a⟩⟩

/-- The run that returns three after a short read has a trace, and it is settled. -/
theorem pipelines_release_once_shortRead : ∃ t tr, t.phase = .returned 3 ∧
    Reach (stepTraced (CopyPath.step CopyPath.twoChunks) (CopyPath.releases CopyPath.twoChunks))
      AnyStep (CopyPath.start CopyPath.twoChunks, (CopyPath.acquire CopyPath.twoChunks).2)
      (t, tr) ∧ Settled tr := by
  obtain ⟨t, ht, heq⟩ := Option.map_eq_some_iff.mp CopyPath.exec_shortRead
  have hphase : t.phase = .returned 3 := congrArg Prod.fst heq
  obtain ⟨⟨tr, htr⟩, hsettled⟩ := (pipelines_release_once.1 CopyPath.twoChunks).2 t
    (reach_anyStep_of_exec ht) ⟨3, hphase⟩
  exact ⟨t, tr, hphase, htr, hsettled tr htr⟩

end Native
end Pyuring
