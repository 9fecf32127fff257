import Pyuring.AsyncFileLedger
import Pyuring.UringAsyncReader

/-!
# The file and its reader

A step of an `AsyncFile` takes its reader through steps of `UringAsync`: a submission
through one more call of `wait_completion`, the kernel's answer through a completion
posted, and so on (`ua_reach`).  Only the call that closes the file closes the reader too,
and the context with it (`ua_of_closes`).  So what holds of a reader in every run holds of
the reader of a file.
-/

namespace Pyuring
namespace AsyncFile

open Trace

/-- The call that closes the file takes the lock. -/
def Closes (s : State) : Event → Prop
  | .acquire u _ => s.op u = .aclose ∧ s.closed = false
  | .call _ => False
  | .complete _ _ => False
  | .onReadable _ _ => False
  | .runJob _ _ => False
  | .resume _ _ => False
  | .cancel _ => False

/-- A step of the reader, as part of a step of the file that starts with the reader in
state `ua`: it does not close, and the callback does not run after anything else. -/
def Within (ua v : UringAsync.State (ℕ × ℤ)) (d : UringAsync.Event (ℕ × ℤ)) : Prop :=
  d ≠ .close ∧ d ≠ .closeCtx ∧ ∀ waitRet peeks, d = .onReadable waitRet peeks → v = ua

variable {flags : Flags} {s t : State} {u most : ℕ} {e : Event} {ua : UringAsync.State (ℕ × ℤ)}

theorem within_waitCompletion (ua v : UringAsync.State (ℕ × ℤ)) :
    Within ua v .waitCompletion := ⟨by simp, by simp, by simp⟩

/-- Where a submission goes wrong the reader is not involved. -/
theorem ua_submit (u : ℕ) (io : Io) (submitRet : ℤ) (s : State) :
    (s.submit u io submitRet).ua = s.ua ∨ (s.submit u io submitRet).ua = s.ua.waitCompletion := by
  unfold State.submit
  simp only
  split
  · exact Or.inl rfl
  · split
    · exact Or.inl rfl
    · split
      · exact Or.inr rfl
      · exact Or.inr rfl

theorem reach_submit (h : Reach UringAsync.step (Within ua) ua s.ua) (u : ℕ) (io : Io)
    (submitRet : ℤ) : Reach UringAsync.step (Within ua) ua (s.submit u io submitRet).ua := by
  rcases ua_submit u io submitRet s with heq | heq
  · rw [heq]
    exact h
  · rw [heq]
    exact h.tail (within_waitCompletion ua s.ua) rfl

theorem reach_locked (h : Reach UringAsync.step (Within ua) ua s.ua)
    (hclose : ¬ (s.op u = .aclose ∧ s.closed = false)) (submitRet : ℤ) :
    Reach UringAsync.step (Within ua) ua (s.locked u submitRet).ua := by
  unfold State.locked
  split
  · split
    · exact h
    · split
      · exact h
      · split
        · exact h
        · split
          · exact reach_submit h u _ submitRet
          · exact reach_submit h u _ submitRet
  · split
    · exact h
    · split
      · exact h
      · exact reach_submit h u _ submitRet
  · next hop =>
    have hclosed : s.closed = true := by
      cases hc : s.closed with
      | true => rfl
      | false => exact absurd ⟨hop, hc⟩ hclose
    unfold State.acloseUnlocked
    rw [if_pos hclosed]
    exact h

theorem reach_onCompletion (h : Reach UringAsync.step (Within ua) ua s.ua) (u : ℕ) (io : Io)
    (req : Request) (gotUd : ℕ) (res submitRet : ℤ) :
    Reach UringAsync.step (Within ua) ua (s.onCompletion u io req gotUd res submitRet).ua := by
  unfold State.onCompletion
  simp only
  split
  · exact h
  · split
    · exact h
    · split
      · split
        · refine reach_submit ?_ u _ submitRet
          exact h
        · exact h
      · exact h

theorem reach_resume {submitRet : ℤ} (ht : s.resume u submitRet = some t) :
    Reach UringAsync.step (Within s.ua) s.ua t.ua := by
  rcases resume_cases ht with ⟨io, req, w, ua, -, hua, hnext⟩ | ⟨o, -, rfl⟩
  · have hstep : Reach UringAsync.step (Within s.ua) s.ua ua :=
      Reach.single (e := .resume w) ⟨by simp, by simp, by simp⟩ hua
    rcases hnext with ⟨gotUd, res, rfl⟩ | ⟨exc, -, rfl⟩ | rfl
    · refine reach_onCompletion ?_ u io req _ _ submitRet
      exact hstep
    · exact hstep
    · exact hstep
  · exact Reach.refl _

theorem ua_call (s : State) (op : Op) : (s.call op).ua = s.ua := by
  unfold State.call
  simp only
  split
  · rfl
  · rfl

theorem ua_runJob (ht : s.runJob flags u most = some t) : t.ua = s.ua := by
  obtain ⟨-, file, fp, o, -, -, rfl⟩ := runJob_cases ht
  rfl

/-- **The reader of a file is a reader.**  A step that does not close the file takes it
through steps of `UringAsync` that do not close it. -/
theorem ua_reach (hclose : ¬ Closes s e) (ht : step flags s e = some t) :
    Reach UringAsync.step (Within s.ua) s.ua t.ua := by
  cases e with
  | call op =>
    rw [← Option.some.inj ht, ua_call]
    exact Reach.refl _
  | acquire u submitRet =>
    obtain ⟨-, -, rfl⟩ := acquire_cases ht
    have hlocked : ({ s with lock := some u, log := .locked u :: s.log } : State).ua = s.ua := rfl
    refine reach_locked (s := { s with lock := some u, log := .locked u :: s.log }) ?_ hclose
      submitRet
    rw [hlocked]
    exact Reach.refl _
  | complete i res =>
    obtain ⟨req, file, data, -, -, rfl⟩ := complete_cases ht
    exact Reach.single (e := .post (req.ud, res)) ⟨by simp, by simp, by simp⟩ rfl
  | onReadable waitRet peeks =>
    obtain ⟨ua, hua, rfl⟩ := Option.map_eq_some_iff.mp ht
    exact Reach.single (e := .onReadable waitRet peeks) ⟨by simp, by simp, fun _ _ _ => rfl⟩ hua
  | runJob u most =>
    rw [ua_runJob ht]
    exact Reach.refl _
  | resume u submitRet => exact reach_resume ht
  | cancel u =>
    rcases cancel_cases ht with ⟨-, rfl⟩ | ⟨io, req, w, ua, -, hua, rfl⟩
    · exact Reach.refl _
    · exact Reach.single (e := .cancel w) ⟨by simp, by simp, by simp⟩ hua

/-- The step that closes the file, on either path. -/
theorem closes_cases (hclose : Closes s e) (ht : step flags s e = some t) :
    ∃ u submitRet, e = .acquire u submitRet ∧ s.op u = .aclose ∧ s.task u = .waitingLock ∧
      s.lock = none ∧
      t = ({ s with lock := some u, log := .locked u :: s.log } : State).acloseUnlocked u := by
  cases e with
  | acquire u submitRet =>
    obtain ⟨hwait, hfree, rfl⟩ := acquire_cases ht
    refine ⟨u, submitRet, rfl, hclose.1, hwait, hfree, ?_⟩
    unfold State.locked
    simp only [hclose.1]
  | call op => exact hclose.elim
  | complete i res => exact hclose.elim
  | onReadable waitRet peeks => exact hclose.elim
  | runJob u most => exact hclose.elim
  | resume u submitRet => exact hclose.elim
  | cancel u => exact hclose.elim

/-- Closing the file closes the reader and the context, where there are any. -/
theorem ua_acloseUnlocked (u : ℕ) (s : State) : (s.acloseUnlocked u).ua = s.ua ∨
    (s.acloseUnlocked u).ua = { s.ua.close with ctxOpen := false } := by
  unfold State.acloseUnlocked
  simp only
  split
  · exact Or.inl rfl
  · split <;> split
    · exact Or.inr rfl
    · exact Or.inr rfl
    · exact Or.inl rfl
    · exact Or.inl rfl

/-! ## What holds of the reader -/

theorem good_step (h : UringAsync.Good s.ua) (ht : step flags s e = some t) :
    UringAsync.Good t.ua := by
  by_cases hclose : Closes s e
  · obtain ⟨u, submitRet, -, -, -, -, rfl⟩ := closes_cases hclose ht
    rcases ua_acloseUnlocked u { s with lock := some u, log := .locked u :: s.log } with heq | heq
    · rw [heq]
      exact h
    · rw [heq]
      exact (UringAsync.advances_close h).good.congr rfl rfl rfl rfl rfl
  · refine (ua_reach hclose ht).invariant h ?_
    intro v d w hv _ hw
    exact (UringAsync.advances_step hv hw).good

/-- In every run of a file, its reader pairs calls with completions in order. -/
theorem good_reach {P : State → Event → Prop} {uring : Bool} {content : List UInt8}
    (h : Reach (step flags) P (aenter flags uring content) s) : UringAsync.Good s.ua :=
  h.invariant (I := fun v => UringAsync.Good v.ua) UringAsync.good_init
    fun _ _ _ hgood _ ht => good_step hgood ht

/-- With one call past the lock, whoever waits for a completion is watched for. -/
theorem watched_step (h : UringAsync.Watched s.ua) (hone : s.ua.waiters.length ≤ 1)
    (hclose : ¬ Closes s e) (ht : step flags s e = some t) : UringAsync.Watched t.ua := by
  refine (ua_reach hclose ht).invariant h ?_
  intro v d w hv hd hw
  rcases hv.step hd.2.1 hw with ⟨-, hwatched⟩ | ⟨hpeek, -⟩
  · exact hwatched
  · exfalso
    cases d with
    | onReadable waitRet peeks =>
      obtain ⟨-, -, k, -, hk, -⟩ := hpeek
      rw [hd.2.2 waitRet peeks rfl] at hk
      omega
    | post c => exact hpeek
    | waitCompletion => exact hpeek
    | cancel w => exact hpeek
    | resume w => exact hpeek
    | close => exact hpeek
    | closeCtx => exact hpeek

end AsyncFile
end Pyuring
