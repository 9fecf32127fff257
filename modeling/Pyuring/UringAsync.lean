import Mathlib.Data.Int.Notation
import Mathlib.Data.Nat.Notation
import Mathlib.Logic.Function.Basic

/-!
# Completions on an event loop

`UringAsync` of `aio.py`: a queue of futures, one for each call of `wait_completion` that
awaits, and a reader callback that the loop runs when the ring's descriptor is
readable.  The callback takes completions out of the ring and resolves the futures at
the front of the queue.

A task that awaits a future is not the same as the future.  Cancelling the task
cancels a future that is still pending, but the task handles that only when the loop
runs it again, and until then the cancelled future stays in the queue.  When the
future has its result already, cancelling the task leaves the future alone and marks
the task (`mustCancel`), which then raises instead of returning the result.

A call is named by the number of calls before it and a completion by the number of
completions posted before it.  What a completion carries does not matter here and is
a type parameter.
-/

namespace Pyuring

/-- `UringError`, without the fields that only make up its text. -/
structure UringError where
  errno : ℤ
  operation : String
  detail : Option String
  deriving DecidableEq, Repr

namespace UringAsync

variable {κ : Type*}

/-- The state of a future. -/
inductive Fut (κ : Type*) where
  | pending
  | result (n : ℕ) (c : κ)
  | exception (exc : UringError)
  | cancelled
  deriving DecidableEq, Repr

/-- A call of `wait_completion`: it awaits its future, or has ended. -/
inductive Call (κ : Type*) where
  | awaiting (fut : Fut κ) (mustCancel : Bool)
  | returned (n : ℕ) (c : κ)
  | raised (exc : UringError)
  | cancelled
  deriving DecidableEq, Repr

/-- The completions posted to the ring and the number of those taken out, the waiter
queue, the calls made, and the reader: `readerActive` is what the object believes,
`registered` what the loop has. -/
structure State (κ : Type*) where
  posted : List κ
  reaped : ℕ
  waiters : List ℕ
  call : ℕ → Call κ
  calls : ℕ
  readerActive : Bool
  registered : Bool
  closed : Bool
  ctxOpen : Bool

/-- What happens next.  `peeks` is the number of calls of `peek_completion` that the
callback makes before one raises, if one does. -/
inductive Event (κ : Type*) where
  | post (c : κ)
  | waitCompletion
  | cancel (w : ℕ)
  | resume (w : ℕ)
  | onReadable (waitRet : ℤ) (peeks : Option ℕ)
  | close
  | closeCtx
  deriving DecidableEq

/-- `if not fut.done()`, then settle it. -/
def Call.settle (fut : Fut κ) : Call κ → Call κ
  | .awaiting .pending mustCancel => .awaiting fut mustCancel
  | call => call

namespace State

def init : State κ := ⟨[], 0, [], fun _ => .cancelled, 0, false, false, false, true⟩

/-- The completion at the head of the ring. -/
def head (s : State κ) : Option κ := s.posted[s.reaped]?

/-- `_ensure_ctx_open`. -/
def ensureCtxOpen (s : State κ) : Except UringError Unit :=
  if s.closed then .error ⟨22, "UringAsync", some "UringAsync is closed"⟩
  else if !s.ctxOpen then .error ⟨22, "UringAsync", some "UringCtx is closed"⟩
  else .ok ()

/-- `_remove_reader`.  On a closed context the ring's descriptor is not to be had, and
the error is swallowed. -/
def removeReader (s : State κ) : State κ :=
  if s.readerActive then
    { s with readerActive := false, registered := s.registered && !s.ctxOpen }
  else s

/-- `_arm_reader`. -/
def armReader (s : State κ) : State κ :=
  if s.closed || s.waiters.isEmpty || s.readerActive then s
  else { s with readerActive := true, registered := true }

/-- Settle the futures of all waiters and empty the queue. -/
def settleAll (fut : Fut κ) (s : State κ) : State κ :=
  { s with
    waiters := []
    call := fun w => if w ∈ s.waiters then (s.call w).settle fut else s.call w }

/-- `_fail_all`. -/
def failAll (exc : UringError) (s : State κ) : State κ :=
  (s.settleAll (.exception exc)).removeReader

/-- Take the completion `c` out of the ring and give it to the first waiter. -/
def deliver (w : ℕ) (ws : List ℕ) (c : κ) (s : State κ) : State κ :=
  { s with
    reaped := s.reaped + 1
    waiters := ws
    call := Function.update s.call w ((s.call w).settle (.result s.reaped c)) }

/-- `_deliver_peek_chain`, for the waiters given; `false` when a peek raises. -/
def deliverPeekChain : List ℕ → Option ℕ → State κ → Bool × State κ
  | [], _, s => (true, s)
  | _ :: _, some 0, s => (false, s)
  | w :: ws, peeks, s => match s.head with
    | none => (true, s)
    | some c => deliverPeekChain ws (peeks.map Nat.pred) (s.deliver w ws c)

/-- `_on_readable`.  The call of the native wait blocks while the ring is empty. -/
def onReadable (waitRet : ℤ) (peeks : Option ℕ) (s : State κ) : Option (State κ) :=
  let s := s.removeReader
  match s.ensureCtxOpen with
  | .error exc => some (s.failAll exc)
  | .ok () => match s.waiters with
    | [] => some s
    | w :: ws =>
      if waitRet < 0 then some (s.failAll ⟨-waitRet, "uring_wait_completion", none⟩)
      else match s.head with
        | none => none
        | some c => match deliverPeekChain ws peeks (s.deliver w ws c) with
          | (true, s) => some s.armReader
          | (false, s) => some s

/-- A call of `wait_completion`, up to its `await`. -/
def waitCompletion (s : State κ) : State κ :=
  match s.ensureCtxOpen with
  | .error exc => { s with
      call := Function.update s.call s.calls (.raised exc), calls := s.calls + 1 }
  | .ok () => { s with
      call := Function.update s.call s.calls (.awaiting .pending false)
      calls := s.calls + 1
      waiters := s.waiters ++ [s.calls] }.armReader

/-- The handler of `CancelledError` in `wait_completion`. -/
def onCancelled (w : ℕ) (s : State κ) : State κ :=
  let s := { s with
    waiters := s.waiters.erase w, call := Function.update s.call w .cancelled }
  if s.waiters.isEmpty then s.removeReader else s

/-- The loop runs the task of a call whose future is done. -/
def resume (w : ℕ) (s : State κ) : Option (State κ) :=
  match s.call w with
  | .awaiting (.result n c) false =>
    some { s with call := Function.update s.call w (.returned n c) }
  | .awaiting (.exception exc) false =>
    some { s with call := Function.update s.call w (.raised exc) }
  | .awaiting (.result _ _) true => some (s.onCancelled w)
  | .awaiting (.exception _) true => some (s.onCancelled w)
  | .awaiting .cancelled _ => some (s.onCancelled w)
  | .awaiting .pending _ => none
  | .returned _ _ => none
  | .raised _ => none
  | .cancelled => none

/-- `task.cancel()`, for the task of a call that awaits. -/
def cancel (w : ℕ) (s : State κ) : Option (State κ) :=
  match s.call w with
  | .awaiting .pending mustCancel =>
    some { s with call := Function.update s.call w (.awaiting .cancelled mustCancel) }
  | .awaiting fut _ => some { s with call := Function.update s.call w (.awaiting fut true) }
  | .returned _ _ => none
  | .raised _ => none
  | .cancelled => none

/-- `close`. -/
def close (s : State κ) : State κ :=
  if s.closed then s else ({ s with closed := true } : State κ).removeReader.settleAll .cancelled

end State

def step (s : State κ) : Event κ → Option (State κ)
  | .post c => some { s with posted := s.posted ++ [c] }
  | .waitCompletion => some s.waitCompletion
  | .cancel w => s.cancel w
  | .resume w => s.resume w
  | .onReadable waitRet peeks => if s.registered then s.onReadable waitRet peeks else none
  | .close => some s.close
  | .closeCtx => some { s with ctxOpen := false }

end UringAsync
end Pyuring
