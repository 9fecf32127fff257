import Pyuring.UringAsyncHandover

/-!
# The callback and calls made past it

The reader callback of a `UringAsync` waits with the blocking `wait_completion` of the
context.  It may, since the loop schedules it only when the ring's descriptor is readable,
which is when there is a completion to take.  But between the select that schedules the
callback and the callback itself the loop runs whatever else is ready, and a task can make
calls on the context of its own.

This file puts the loop around the object: `select`, the scheduled callback, and the direct
calls of tasks, which take completions out without asking the object.  `dried` records that
a direct call has left the queue empty while the callback was scheduled.  Nothing else
empties it then, so the callback waits on an empty queue, and the loop with it, exactly when
it runs with a waiter in that case (`RunsDry`).
-/

namespace Pyuring
namespace UringAsync

open Trace

variable {κ : Type*}

/-- `_on_readable` gets past its checks, to the wait. -/
def State.reachesWait (s : State κ) : Bool := !s.closed && s.ctxOpen && !s.waiters.isEmpty

/-- A call that a task makes on the context: the completions that the kernel posts while it
runs, and how many it takes out. -/
inductive DirectCall (κ : Type*) where
  | peekCompletion
  | waitCompletion (posts : List κ)
  | syncWrapper (posts : List κ) (takes : ℕ)
  deriving DecidableEq

def DirectCall.posts : DirectCall κ → List κ
  | .peekCompletion => []
  | .waitCompletion posts => posts
  | .syncWrapper posts _ => posts

/-- The completions that the call takes out, when `n` are there: a peek takes one if there
is one, the others wait until they have theirs. -/
def DirectCall.takes (n : ℕ) : DirectCall κ → ℕ
  | .peekCompletion => min 1 n
  | .waitCompletion _ => 1
  | .syncWrapper _ takes => takes

def Event.isCallback : Event κ → Bool
  | .onReadable _ _ => true
  | _ => false

def Event.isPost : Event κ → Bool
  | .post _ => true
  | _ => false

/-- An object on its loop.  `scheduled` says that the reader's callback is among those that
the loop is about to run.  The last two record what happened: a direct call has left the queue
empty while the callback was scheduled, and the callback has called `wait_completion` on an
empty queue. -/
structure Loop (κ : Type*) where
  ua : State κ
  scheduled : Bool
  dried : Bool
  dryWait : Bool

/-- What happens next.  The kernel posts, a task uses the object, the loop selects and runs
the callback, or a task makes a call on the context.  A closed ring's descriptor may be
that of another file, which is readable or not. -/
inductive LoopEvent (κ : Type*) where
  | object (e : Event κ)
  | select (other : Bool)
  | runReader (waitRet : ℤ) (peeks : Option ℕ)
  | direct (call : DirectCall κ)
  deriving DecidableEq

namespace Loop

def init : Loop κ := ⟨State.init, false, false, false⟩

/-- The loop finds the reader's descriptor readable. -/
def readable (other : Bool) (s : Loop κ) : Bool :=
  s.ua.registered && (if s.ua.ctxOpen then s.ua.head.isSome else other)

/-- A step of the object outside the callback.  Taking the reader off cancels the callback
that is scheduled. -/
def object (e : Event κ) (s : Loop κ) : Option (Loop κ) :=
  if e.isCallback then none
  else (step s.ua e).map fun ua => { s with
    ua := ua
    scheduled := s.scheduled && ua.registered
    dried := s.dried && ua.registered && !e.isPost }

/-- The callback runs.  A wait on an empty queue is where the run ends. -/
def runReader (waitRet : ℤ) (peeks : Option ℕ) (s : Loop κ) : Option (Loop κ) :=
  if s.ua.reachesWait && s.ua.head.isNone then some { s with dryWait := true }
  else (step s.ua (.onReadable waitRet peeks)).map fun ua =>
    { s with ua := ua, scheduled := false, dried := false }

/-- A direct call, on a context that is open. -/
def direct (call : DirectCall κ) (s : Loop κ) : Option (Loop κ) :=
  let posted := s.ua.posted ++ call.posts
  let takes := call.takes (posted.length - s.ua.reaped)
  if s.ua.ctxOpen && decide (s.ua.reaped + takes ≤ posted.length) then
    some { s with
      ua := { s.ua with posted := posted, reaped := s.ua.reaped + takes }
      dried := s.scheduled && decide (posted.length ≤ s.ua.reaped + takes) }
  else none

/-- The loop selects again once it has run what was ready. -/
def step (s : Loop κ) (e : LoopEvent κ) : Option (Loop κ) :=
  if s.dryWait then none
  else match e with
    | .object e => s.object e
    | .select other =>
      if s.scheduled then none else some { s with scheduled := s.readable other }
    | .runReader waitRet peeks => if s.scheduled then s.runReader waitRet peeks else none
    | .direct call => s.direct call

/-- The callback waits, after a direct call has left the queue empty. -/
def RunsDry (s : Loop κ) : LoopEvent κ → Prop
  | .runReader _ _ => s.ua.reachesWait = true ∧ s.dried = true
  | .object _ => False
  | .select _ => False
  | .direct _ => False

/-- Whenever the callback has called `wait_completion`, there was a completion. -/
def NeverDry (s : Loop κ) : Prop := s.dryWait = false

/-- While the callback is scheduled its reader is registered, and on an open context there
is a completion unless a direct call has taken the last one. -/
structure Primed (s : Loop κ) : Prop where
  dryWait : s.dryWait = false
  reaped : s.ua.reaped ≤ s.ua.posted.length
  registered : s.scheduled = true → s.ua.registered = true
  ready : s.scheduled = true → s.ua.ctxOpen = true → s.dried = false →
    s.ua.reaped < s.ua.posted.length
  dried : s.dried = true → s.scheduled = true ∧ s.ua.posted.length ≤ s.ua.reaped

variable {s t : Loop κ}

/-! ## The object's steps -/

/-- A step of the object outside the callback takes nothing out of the ring, and does not
open the context. -/
theorem frame_of_not_callback {u v : State κ} {e : Event κ} (he : e.isCallback = false)
    (h : UringAsync.step u e = some v) :
    v.reaped = u.reaped ∧ v.posted.length = u.posted.length + (if e.isPost then 1 else 0) ∧
      (v.ctxOpen = true → u.ctxOpen = true) := by
  have hreaped : v.reaped = u.reaped := by
    obtain ⟨k, htook, hk⟩ := tookOut_step h
    have hzero : k = 0 := by
      refine Nat.eq_zero_of_not_pos ?_
      intro hpos
      have htakes := (hk 0).mp hpos
      cases e with
      | onReadable waitRet peeks => exact absurd he (by simp [Event.isCallback])
      | _ => exact htakes
    rw [htook.reaped, hzero, Nat.add_zero]
  refine ⟨hreaped, ?_⟩
  cases e with
  | post c =>
    rw [← Option.some.inj h]
    exact ⟨by simp [Event.isPost], id⟩
  | waitCompletion =>
    rw [← Option.some.inj h]
    unfold State.waitCompletion
    split <;> simp [Event.isPost]
  | cancel w =>
    obtain ⟨fut, b, -, -, rfl⟩ := cancel_cases h
    exact ⟨rfl, id⟩
  | resume w =>
    rcases resume_cases h with ⟨call, -, -, rfl⟩ | rfl
    · exact ⟨rfl, id⟩
    · unfold State.onCancelled
      simp only
      split <;> simp [Event.isPost]
  | onReadable waitRet peeks => exact absurd he (by simp [Event.isCallback])
  | close =>
    rw [← Option.some.inj h]
    unfold State.close
    split <;> simp [State.settleAll, Event.isPost]
  | closeCtx =>
    rw [← Option.some.inj h]
    exact ⟨rfl, fun hopen => absurd hopen (by simp)⟩

theorem Primed.object (h : Primed s) {e : Event κ} (ht : s.object e = some t) : Primed t := by
  obtain ⟨he, ht⟩ := Option.ite_none_left_eq_some.mp ht
  obtain ⟨ua, hua, rfl⟩ := Option.map_eq_some_iff.mp ht
  obtain ⟨hreaped, hposted, hctx⟩ := frame_of_not_callback (Bool.not_eq_true _ ▸ he) hua
  have hle := h.reaped
  refine ⟨h.dryWait, ?_, ?_, ?_, ?_⟩
  · simp only [hreaped, hposted]
    omega
  · intro hscheduled
    exact (Bool.and_eq_true_iff.mp hscheduled).2
  · intro hscheduled hopen hdried
    obtain ⟨hold, hreg⟩ := Bool.and_eq_true_iff.mp hscheduled
    simp only [hreg, Bool.and_true, Bool.and_eq_false_iff, Bool.not_eq_false'] at hdried
    simp only [hreaped, hposted]
    rcases hdried with hdried | hpost
    · have := h.ready hold (hctx hopen) hdried
      omega
    · rw [if_pos hpost]
      omega
  · intro hdried
    simp only [Bool.and_eq_true, Bool.not_eq_true'] at hdried
    obtain ⟨⟨hold, hreg⟩, hpost⟩ := hdried
    obtain ⟨hscheduled, hempty⟩ := h.dried hold
    refine ⟨by simp [hscheduled, hreg], ?_⟩
    simp only [hreaped, hposted, hpost]
    exact hempty

theorem Primed.select (h : Primed s) (hidle : s.scheduled = false) (other : Bool) :
    Primed { s with scheduled := s.readable other } where
  dryWait := h.dryWait
  reaped := h.reaped
  registered hscheduled := (Bool.and_eq_true_iff.mp hscheduled).1
  ready hscheduled hopen _ := by
    have hhead := (Bool.and_eq_true_iff.mp hscheduled).2
    rw [if_pos hopen] at hhead
    obtain ⟨c, hc⟩ := Option.isSome_iff_exists.mp hhead
    exact (head_eq_some.mp hc).1
  dried hdried := absurd (h.dried hdried).1 (by simp [hidle])

theorem Primed.direct (h : Primed s) {call : DirectCall κ} (ht : s.direct call = some t) :
    Primed t := by
  obtain ⟨hok, ht⟩ := Option.ite_none_right_eq_some.mp ht
  obtain ⟨-, hle⟩ := Bool.and_eq_true_iff.mp hok
  rw [← Option.some.inj ht]
  refine ⟨h.dryWait, of_decide_eq_true hle, h.registered, ?_, ?_⟩
  · intro hscheduled hopen hdried
    have hscheduled' : s.scheduled = true := hscheduled
    simp only [hscheduled', Bool.true_and, decide_eq_false_iff_not, Nat.not_le] at hdried
    exact hdried
  · intro hdried
    obtain ⟨hscheduled, hempty⟩ := Bool.and_eq_true_iff.mp hdried
    exact ⟨hscheduled, of_decide_eq_true hempty⟩

/-- The callback takes out no more than there is. -/
theorem reaped_le_of_onReadable {u v : State κ} {waitRet : ℤ} {peeks : Option ℕ}
    (hle : u.reaped ≤ u.posted.length) (h : u.onReadable waitRet peeks = some v) :
    v.reaped ≤ v.posted.length := by
  obtain ⟨k, htook, hk⟩ := tookOut_onReadable h
  rw [htook.reaped, (calls_posted_onReadable h).2]
  cases k with
  | zero => exact hle
  | succ k =>
    have htakes := (hk k).mp (Nat.lt_succ_self k)
    have hlt : u.reaped + k < u.posted.length := htakes.2.2.2.1
    omega

/-- **The callback finds a completion** unless a direct call has taken the last one. -/
theorem Primed.runReader (h : Primed s) (hscheduled : s.scheduled = true) {waitRet : ℤ}
    {peeks : Option ℕ} (ht : s.runReader waitRet peeks = some t) :
    (¬ RunsDry s (.runReader waitRet peeks) ∧ Primed t) ∨
      (RunsDry s (.runReader waitRet peeks) ∧ ¬ NeverDry t) := by
  unfold Loop.runReader at ht
  split at ht
  · next hdry =>
    obtain ⟨hreach, hnone⟩ := Bool.and_eq_true_iff.mp hdry
    rw [← Option.some.inj ht]
    refine Or.inr ⟨⟨hreach, ?_⟩, by simp [NeverDry]⟩
    have hopen : s.ua.ctxOpen = true := by
      simp only [State.reachesWait, Bool.and_eq_true] at hreach
      exact hreach.1.2
    have hempty := List.getElem?_eq_none_iff.mp (Option.isNone_iff_eq_none.mp hnone)
    cases hdried : s.dried with
    | true => rfl
    | false => exact absurd (h.ready hscheduled hopen hdried) (Nat.not_lt.mpr hempty)
  · next hdry =>
    obtain ⟨ua, hua, rfl⟩ := Option.map_eq_some_iff.mp ht
    refine Or.inl ⟨?_, ?_⟩
    · rintro ⟨hreach, hdried⟩
      have hnone : s.ua.head = none := List.getElem?_eq_none_iff.mpr (h.dried hdried).2
      exact hdry (by simp [hreach, hnone])
    · obtain ⟨-, hua⟩ := Option.ite_none_right_eq_some.mp hua
      exact ⟨h.dryWait, reaped_le_of_onReadable h.reaped hua, fun hs => absurd hs (by simp),
        fun hs => absurd hs (by simp), fun hd => absurd hd (by simp)⟩

/-- **What a step does.** -/
theorem Primed.step (h : Primed s) {e : LoopEvent κ} (ht : step s e = some t) :
    (¬ RunsDry s e ∧ Primed t) ∨ (RunsDry s e ∧ ¬ NeverDry t) := by
  obtain ⟨-, ht⟩ := Option.ite_none_left_eq_some.mp ht
  cases e with
  | object e => exact Or.inl ⟨id, h.object ht⟩
  | select other =>
    obtain ⟨hidle, ht⟩ := Option.ite_none_left_eq_some.mp ht
    rw [← Option.some.inj ht]
    exact Or.inl ⟨id, h.select (by simpa using hidle) other⟩
  | runReader waitRet peeks =>
    obtain ⟨hscheduled, ht⟩ := Option.ite_none_right_eq_some.mp ht
    exact h.runReader hscheduled ht
  | direct call => exact Or.inl ⟨id, h.direct ht⟩

end Loop
end UringAsync
end Pyuring
