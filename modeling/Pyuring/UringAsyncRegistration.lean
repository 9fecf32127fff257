import Pyuring.UringAsyncReader

/-!
# Registrations left behind

`_remove_reader` asks the context for the ring's descriptor, so on a closed context it
cannot unregister it; the error is swallowed and the object goes on as if the reader were
off.  From then on `_reader_active` says nothing about the loop's table: the number of the
closed descriptor stays registered, and no later call takes it out, `close` included.

`Fresh` is the other case.  A run leaves no stale registration exactly when none of its
steps takes an active reader off on a closed context (`TakesOffLate`): the reader callback,
the last waiter's `CancelledError` and `close` all do.
-/

namespace Pyuring
namespace UringAsync

open Trace

variable {κ : Type*}

/-- The loop has the reader only while the object says so, and not once it is closed. -/
structure Fresh (s : State κ) : Prop where
  inactive : s.readerActive = false → s.registered = false
  closed : s.closed = true → s.registered = false

/-- The task raises `CancelledError` when the loop runs it. -/
def Call.raisesCancelled : Call κ → Bool
  | .awaiting (.result _ _) mustCancel => mustCancel
  | .awaiting (.exception _) mustCancel => mustCancel
  | .awaiting .cancelled _ => true
  | .awaiting .pending _ => false
  | .returned _ _ => false
  | .raised _ => false
  | .cancelled => false

/-- The step takes the reader off if it is on: the callback, the handler of a waiter that
was the last, and the first call of `close`. -/
def TakesOff (s : State κ) : Event κ → Prop
  | .onReadable _ _ => True
  | .resume w => (s.call w).raisesCancelled = true ∧ s.waiters.erase w = []
  | .close => s.closed = false
  | .post _ => False
  | .waitCompletion => False
  | .cancel _ => False
  | .closeCtx => False

/-- An active reader is taken off when the context is closed. -/
def TakesOffLate (s : State κ) (e : Event κ) : Prop :=
  s.readerActive = true ∧ s.ctxOpen = false ∧ TakesOff s e

/-- The loop has the reader that the object believes in, and a closed object has none. -/
structure InStep (s : State κ) : Prop where
  registered : s.registered = s.readerActive
  closed : s.closed = true → s.readerActive = false

variable {s t : State κ}

theorem InStep.fresh (h : InStep s) : Fresh s :=
  ⟨fun hoff => h.registered.trans hoff, fun hclosed => h.registered.trans (h.closed hclosed)⟩

theorem InStep.congr (h : InStep s) (hreg : t.registered = s.registered)
    (hactive : t.readerActive = s.readerActive) (hclosed : t.closed = s.closed) : InStep t where
  registered := by rw [hreg, hactive, h.registered]
  closed := by rw [hclosed, hactive]; exact h.closed

/-- The reader is off for the object; on a closed context the loop keeps it. -/
structure Detached (late : Prop) (t : State κ) : Prop where
  active : t.readerActive = false
  registered : t.registered = true ↔ late

/-- Taking the reader off leaves a registration behind exactly when it was active and the
context is closed. -/
theorem InStep.detached_removeReader (h : InStep s) :
    Detached (s.readerActive = true ∧ s.ctxOpen = false) s.removeReader := by
  unfold State.removeReader
  split
  · next hactive =>
    refine ⟨rfl, ?_⟩
    simp [h.registered, hactive]
  · next hoff =>
    have hactive : s.readerActive = false := by simpa using hoff
    refine ⟨hactive, ?_⟩
    simp [h.registered, hactive]

theorem Detached.congr {late : Prop} (h : Detached late s) (hreg : t.registered = s.registered)
    (hactive : t.readerActive = s.readerActive) : Detached late t where
  active := by rw [hactive, h.active]
  registered := by rw [hreg]; exact h.registered

/-- A detached reader is in step, or has left a registration behind. -/
theorem Detached.outcome {late : Prop} (h : Detached late t) :
    (¬ late ∧ InStep t) ∨ (late ∧ ¬ Fresh t) := by
  by_cases hlate : late
  · refine Or.inr ⟨hlate, ?_⟩
    intro hfresh
    have hreg := hfresh.inactive h.active
    rw [h.registered.mpr hlate] at hreg
    exact absurd hreg (by simp)
  · have hreg : t.registered = false := by
      rw [← Bool.not_eq_true, h.registered]
      exact hlate
    exact Or.inl ⟨hlate, by rw [hreg, h.active], fun _ => h.active⟩

/-- With the reader off, failing all waiters changes nothing about it. -/
theorem Detached.failAll {late : Prop} (h : Detached late s) (exc : UringError) :
    Detached late (s.failAll exc) := by
  have hsettled : (s.settleAll (.exception exc)).readerActive = false := h.active
  unfold State.failAll State.removeReader
  rw [if_neg (by simp [hsettled])]
  exact h.congr rfl rfl

/-- Putting the reader on puts it on for both. -/
theorem InStep.armReader (h : InStep s) : InStep s.armReader := by
  unfold State.armReader
  split
  · exact h
  · next hon =>
    simp only [Bool.or_eq_true, not_or, Bool.not_eq_true] at hon
    exact ⟨rfl, fun hclosed => absurd hon.1.1 (by simp [show s.closed = true from hclosed])⟩

/-! ## The steps -/

theorem InStep.onReadable (h : InStep s) {waitRet : ℤ} {peeks : Option ℕ}
    (ht : s.onReadable waitRet peeks = some t) :
    (¬ (s.readerActive = true ∧ s.ctxOpen = false) ∧ InStep t) ∨
      ((s.readerActive = true ∧ s.ctxOpen = false) ∧ ¬ Fresh t) := by
  have hoff := h.detached_removeReader
  unfold State.onReadable at ht
  simp only [ensureCtxOpen_removeReader, waiters_removeReader, head_removeReader] at ht
  split at ht
  · next exc hexc =>
    rw [← Option.some.inj ht]
    exact (hoff.failAll exc).outcome
  next hok =>
  -- past the check the context is open
  have hctx : s.ctxOpen = true := by
    cases hctx : s.ctxOpen with
    | true => rfl
    | false =>
      cases hclosed : s.closed <;>
        exact absurd hok (by simp [State.ensureCtxOpen, hctx, hclosed])
  split at ht
  · rw [← Option.some.inj ht]
    exact hoff.outcome
  next w ws hws =>
  split at ht
  · rw [← Option.some.inj ht]
    exact (hoff.failAll _).outcome
  split at ht
  · exact absurd ht (by simp)
  next c hc =>
  have hle := reaped_le_deliver hc w ws
  obtain ⟨-, hreg, hactive, -⟩ := deliverPeekChain_spec ws peeks rfl hle
  generalize State.deliverPeekChain ws peeks (s.removeReader.deliver w ws c) = r at *
  obtain ⟨b, u⟩ := r
  have hu : Detached (s.readerActive = true ∧ s.ctxOpen = false) u := hoff.congr hreg hactive
  cases b with
  | false =>
    rw [← Option.some.inj ht]
    exact hu.outcome
  | true =>
    rw [← Option.some.inj ht]
    rcases hu.outcome with ⟨hlate, hstep⟩ | ⟨⟨-, hlate⟩, -⟩
    · exact Or.inl ⟨hlate, hstep.armReader⟩
    · exact absurd (hctx.symm.trans hlate) (by simp)

theorem InStep.waitCompletion (h : InStep s) : InStep s.waitCompletion := by
  unfold State.waitCompletion
  split
  · exact h.congr rfl rfl rfl
  · refine InStep.armReader ?_
    exact h.congr rfl rfl rfl

/-- A cancelled task takes the reader off when nobody else waits. -/
theorem InStep.onCancelled (h : InStep s) (w : ℕ) :
    (¬ (s.readerActive = true ∧ s.ctxOpen = false ∧ s.waiters.erase w = []) ∧
        InStep (s.onCancelled w)) ∨
      ((s.readerActive = true ∧ s.ctxOpen = false ∧ s.waiters.erase w = []) ∧
        ¬ Fresh (s.onCancelled w)) := by
  unfold State.onCancelled
  simp only
  cases hws : s.waiters.erase w with
  | nil =>
    rw [if_pos List.isEmpty_nil]
    have hleft : InStep ({ s with
        waiters := [], call := Function.update s.call w .cancelled } : State κ) :=
      h.congr rfl rfl rfl
    simpa using hleft.detached_removeReader.outcome
  | cons v vs =>
    rw [if_neg (by simp)]
    exact Or.inl ⟨by simp, h.congr rfl rfl rfl⟩

theorem raisesCancelled_of_resume {w : ℕ} (ht : s.resume w = some t) :
    ((s.call w).raisesCancelled = false ∧
        ∃ call, t = { s with call := Function.update s.call w call }) ∨
      ((s.call w).raisesCancelled = true ∧ t = s.onCancelled w) := by
  unfold State.resume at ht
  split at ht
  · next n c hc => exact Or.inl ⟨by rw [hc]; rfl, _, (Option.some.inj ht).symm⟩
  · next exc hc => exact Or.inl ⟨by rw [hc]; rfl, _, (Option.some.inj ht).symm⟩
  · next n c hc => exact Or.inr ⟨by rw [hc]; rfl, (Option.some.inj ht).symm⟩
  · next exc hc => exact Or.inr ⟨by rw [hc]; rfl, (Option.some.inj ht).symm⟩
  · next b hc => exact Or.inr ⟨by rw [hc]; rfl, (Option.some.inj ht).symm⟩
  all_goals exact absurd ht (by simp)

theorem InStep.close (h : InStep s) :
    (¬ (s.readerActive = true ∧ s.ctxOpen = false ∧ s.closed = false) ∧ InStep s.close) ∨
      ((s.readerActive = true ∧ s.ctxOpen = false ∧ s.closed = false) ∧ ¬ Fresh s.close) := by
  unfold State.close
  cases hclosed : s.closed with
  | true =>
    rw [if_pos rfl]
    exact Or.inl ⟨by simp, h⟩
  | false =>
    rw [if_neg (by simp)]
    -- the object is closed before its reader is taken off
    have hoff : Detached (s.readerActive = true ∧ s.ctxOpen = false)
        ({ s with closed := true } : State κ).removeReader := by
      have hopen := h.detached_removeReader
      refine hopen.congr ?_ ?_
      · simp only [State.removeReader]
        split <;> rfl
      · simp only [State.removeReader]
        split <;> rfl
    have hsettled := hoff.congr (t := ({ s with closed := true } : State κ).removeReader.settleAll
      .cancelled) rfl rfl
    simpa using hsettled.outcome

/-- **What a step does to the registration.** -/
theorem InStep.step (h : InStep s) {e : Event κ} (ht : step s e = some t) :
    (¬ TakesOffLate s e ∧ InStep t) ∨ (TakesOffLate s e ∧ ¬ Fresh t) := by
  cases e with
  | post c =>
    rw [← Option.some.inj ht]
    exact Or.inl ⟨fun hlate => hlate.2.2, h.congr rfl rfl rfl⟩
  | waitCompletion =>
    rw [← Option.some.inj ht]
    exact Or.inl ⟨fun hlate => hlate.2.2, h.waitCompletion⟩
  | cancel w =>
    obtain ⟨fut, b, -, -, rfl⟩ := cancel_cases ht
    exact Or.inl ⟨fun hlate => hlate.2.2, h.congr rfl rfl rfl⟩
  | resume w =>
    rcases raisesCancelled_of_resume ht with ⟨hraises, call, rfl⟩ | ⟨hraises, rfl⟩
    · exact Or.inl ⟨fun hlate => absurd hlate.2.2.1 (by simp [hraises]), h.congr rfl rfl rfl⟩
    · simpa [TakesOffLate, TakesOff, hraises] using h.onCancelled w
  | onReadable waitRet peeks =>
    obtain ⟨-, ht⟩ := Option.ite_none_right_eq_some.mp ht
    simpa [TakesOffLate, TakesOff] using h.onReadable ht
  | close =>
    rw [← Option.some.inj ht]
    simpa [TakesOffLate, TakesOff] using h.close
  | closeCtx =>
    rw [← Option.some.inj ht]
    exact Or.inl ⟨fun hlate => hlate.2.2, h.congr rfl rfl rfl⟩

theorem inStep_init : InStep (State.init : State κ) :=
  ⟨rfl, fun h => absurd h (by simp [State.init])⟩

/-! ## Runs -/

/-- **No stale registration** as long as no active reader is taken off on a closed context: in
every order of waits, cancellations, callbacks and the two `close` calls, the loop has no
reader that the object does not know of, and none once the object is closed, exactly then. -/
theorem fresh_iff_no_late_removal {κ : Type*} (es : List (Event κ)) (s : State κ)
    (hs : exec step State.init es = some s) :
    Always step Fresh State.init es ↔ Meets step (fun s e => ¬ TakesOffLate s e) State.init es :=
  always_iff_meets (A := fun _ => True) (fun _ hstep => hstep.fresh)
    (fun _ _ _ hstep _ ht => (hstep.step ht).imp id fun h => ⟨not_not_intro h.1, h.2⟩)
    inStep_init (fun _ _ => trivial) hs

/-- The object is closed first. -/
theorem fresh_iff_no_late_removal_closed :
    Always step Fresh (State.init : State ℕ) [.waitCompletion, .close, .closeCtx] ↔
      Meets step (fun s e => ¬ TakesOffLate s e) (State.init : State ℕ)
        [.waitCompletion, .close, .closeCtx] :=
  fresh_iff_no_late_removal _ _ rfl

/-- The context is closed first: `close` returns and the reader is still registered. -/
theorem registration_left_behind :
    ¬ ∀ (es : List (Event ℕ)) (s : State ℕ), exec step State.init es = some s → Fresh s := by
  intro h
  have hfresh := h [.waitCompletion, .closeCtx, .close] _ rfl
  exact absurd (hfresh.closed rfl) (by decide)

end UringAsync
end Pyuring
