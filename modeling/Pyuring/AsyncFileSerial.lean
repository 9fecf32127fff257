import Pyuring.AsyncFileLedger
import Pyuring.UringAsyncDelivery

/-!
# One request at a time

As long as nobody abandons a request, the call that holds the lock is the only one with
a request: it is in flight, or its completion is in the ring, or the completion has
been taken out for the future that the call awaits (`Stage`).  With no call past the
lock the ring is empty.  `Serial` says so.

`Undisturbed` is what that takes: submissions and waits succeed, nobody closes the file,
and a call that is cancelled leaves only when its request is done with.  `serial_step`
then says once what each step does, as a `Move` between stages, and everything else about
such runs goes by cases on the move.
-/

namespace Pyuring
namespace AsyncFile

open Trace

/-! ## A reader with at most one waiter -/

/-- The reader is open, the ring holds `ring`, and the waiters are `waiters`. -/
structure Quiet (ua : UringAsync.State (ℕ × ℤ)) (ring : List (ℕ × ℤ)) (waiters : List ℕ) :
    Prop where
  closed : ua.closed = false
  ctxOpen : ua.ctxOpen = true
  ring : ua.posted.drop ua.reaped = ring
  reaped : ua.reaped ≤ ua.posted.length
  waiters : ua.waiters = waiters
  reader : ua.registered = ua.readerActive

section Quiet

variable {ua ua' : UringAsync.State (ℕ × ℤ)} {ring : List (ℕ × ℤ)} {waiters : List ℕ} {w : ℕ}

theorem Quiet.ensureCtxOpen (h : Quiet ua ring waiters) : ua.ensureCtxOpen = .ok () := by
  simp [UringAsync.State.ensureCtxOpen, h.closed, h.ctxOpen]

theorem Quiet.congr (h : Quiet ua ring waiters) (hclosed : ua'.closed = ua.closed)
    (hopen : ua'.ctxOpen = ua.ctxOpen) (hposted : ua'.posted = ua.posted)
    (hreaped : ua'.reaped = ua.reaped) {ws : List ℕ} (hws : ua'.waiters = ws)
    (hreader : ua'.registered = ua'.readerActive) : Quiet ua' ring ws :=
  ⟨hclosed.trans h.closed, hopen.trans h.ctxOpen, by rw [hposted, hreaped]; exact h.ring,
    by rw [hposted, hreaped]; exact h.reaped, hws, hreader⟩

theorem Quiet.removeReader (h : Quiet ua ring waiters) :
    ua.removeReader.registered = ua.removeReader.readerActive := by
  unfold UringAsync.State.removeReader
  split
  · simp [h.ctxOpen]
  · exact h.reader

theorem reader_armReader (h : ua.registered = ua.readerActive) :
    ua.armReader.registered = ua.armReader.readerActive := by
  unfold UringAsync.State.armReader
  split
  · exact h
  · rfl

theorem Quiet.head (h : Quiet ua ring waiters) : ua.head = ring.head? := by
  rw [UringAsync.State.head, ← h.ring, List.head?_drop]

theorem Quiet.post (h : Quiet ua [] waiters) (c : ℕ × ℤ) :
    Quiet { ua with posted := ua.posted ++ [c] } [c] waiters := by
  refine ⟨h.closed, h.ctxOpen, ?_, ?_, h.waiters, h.reader⟩
  · change (ua.posted ++ [c]).drop ua.reaped = [c]
    rw [List.drop_append_of_le_length h.reaped, h.ring, List.nil_append]
  · have := h.reaped
    change ua.reaped ≤ (ua.posted ++ [c]).length
    rw [List.length_append]
    omega

theorem Quiet.waitCompletion (h : Quiet ua ring []) :
    Quiet ua.waitCompletion ring [ua.calls] ∧
      ua.waitCompletion.call ua.calls = .awaiting .pending false := by
  unfold UringAsync.State.waitCompletion
  rw [h.ensureCtxOpen]
  refine ⟨h.congr (by simp) (by simp) (by simp) (by simp) (by simp [h.waiters]) ?_, by simp⟩
  exact reader_armReader h.reader

/-- A call that waits has the loop watch the ring. -/
theorem Quiet.registered (h : Quiet ua ring []) : ua.waitCompletion.registered = true := by
  unfold UringAsync.State.waitCompletion
  rw [h.ensureCtxOpen]
  simp only [UringAsync.State.armReader, h.closed, h.waiters, List.nil_append, List.isEmpty_cons,
    Bool.false_or]
  split
  · next hactive => exact h.reader.trans hactive
  · rfl

theorem Quiet.onReadable_idle (h : Quiet ua ring []) {waitRet : ℤ} {peeks : Option ℕ}
    (ht : ua.onReadable waitRet peeks = some ua') : Quiet ua' ring [] ∧ ua'.call = ua.call := by
  unfold UringAsync.State.onReadable at ht
  simp only [UringAsync.ensureCtxOpen_removeReader, h.ensureCtxOpen,
    UringAsync.waiters_removeReader, h.waiters, Option.some.injEq] at ht
  subst ht
  exact ⟨h.congr (by simp) (by simp) (by simp) (by simp) (by simp [h.waiters]) h.removeReader,
    by simp⟩

/-- A completion is there for the waiter, so the callback does not block. -/
theorem Quiet.exists_onReadable {c : ℕ × ℤ} (h : Quiet ua (c :: ring) [w]) :
    ∃ ua', ua.onReadable 0 none = some ua' := by
  unfold UringAsync.State.onReadable
  simp [h.ensureCtxOpen, h.waiters, h.head, UringAsync.State.deliverPeekChain]

/-- With one waiter the callback takes out one completion; it does not return before
there is one. -/
theorem Quiet.onReadable_waiter (h : Quiet ua ring [w]) {waitRet : ℤ} {peeks : Option ℕ}
    (hwait : 0 ≤ waitRet) (ht : ua.onReadable waitRet peeks = some ua') :
    ∃ c cs, ring = c :: cs ∧ Quiet ua' cs [] ∧
      ua'.call w = (ua.call w).settle (.result ua.reaped c) := by
  unfold UringAsync.State.onReadable at ht
  simp only [UringAsync.ensureCtxOpen_removeReader, h.ensureCtxOpen,
    UringAsync.waiters_removeReader, h.waiters, UringAsync.head_removeReader, h.head] at ht
  rw [if_neg (Int.not_lt.mpr hwait)] at ht
  cases ring with
  | nil => exact absurd ht (by simp)
  | cons c cs =>
    simp only [List.head?_cons, UringAsync.State.deliverPeekChain, Option.some.injEq] at ht
    subst ht
    have hlt : ua.reaped < ua.posted.length := by
      have hlen := congrArg List.length h.ring
      rw [List.length_drop, List.length_cons] at hlen
      omega
    have hrest : ua.posted.drop (ua.reaped + 1) = cs := by
      rw [← List.tail_drop, h.ring, List.tail_cons]
    refine ⟨c, cs, rfl, ⟨?_, ?_, ?_, ?_, ?_, ?_⟩, ?_⟩
    · simpa [UringAsync.State.deliver] using h.closed
    · simpa [UringAsync.State.deliver] using h.ctxOpen
    · simpa [UringAsync.State.deliver] using hrest
    · simpa [UringAsync.State.deliver] using Nat.succ_le_of_lt hlt
    · simp [UringAsync.State.deliver]
    · exact reader_armReader h.removeReader
    · simp [UringAsync.State.deliver]

/-- The call has been cancelled and does not know it yet. -/
def Cancelling : UringAsync.Call (ℕ × ℤ) → Prop
  | .awaiting .cancelled _ => True
  | .awaiting _ mustCancel => mustCancel = true
  | _ => False

theorem Quiet.resume_result (h : Quiet ua ring waiters) {n : ℕ} {c : ℕ × ℤ}
    (hc : ua.call w = .awaiting (.result n c) false) (ht : ua.resume w = some ua') :
    Quiet ua' ring waiters ∧ ua'.call w = .returned n c := by
  unfold UringAsync.State.resume at ht
  simp only [hc, Option.some.injEq] at ht
  subst ht
  exact ⟨⟨h.closed, h.ctxOpen, h.ring, h.reaped, h.waiters, h.reader⟩, Function.update_self _ _ _⟩

theorem Quiet.resume_cancelling (h : Quiet ua ring waiters) (hc : Cancelling (ua.call w))
    (ht : ua.resume w = some ua') :
    Quiet ua' ring (waiters.erase w) ∧ ua'.call w = .cancelled := by
  have heq : ua' = ua.onCancelled w := by
    unfold UringAsync.State.resume at ht
    cases hcall : ua.call w with
    | awaiting fut mustCancel =>
      rw [hcall] at hc ht
      cases fut with
      | pending => exact absurd ht (by simp)
      | result n c =>
        obtain rfl : mustCancel = true := hc
        exact (Option.some.inj ht).symm
      | exception exc =>
        obtain rfl : mustCancel = true := hc
        exact (Option.some.inj ht).symm
      | cancelled => exact (Option.some.inj ht).symm
    | returned n c => rw [hcall] at hc; exact hc.elim
    | raised exc => rw [hcall] at hc; exact hc.elim
    | cancelled => rw [hcall] at hc; exact hc.elim
  subst heq
  unfold UringAsync.State.onCancelled
  simp only
  split
  · refine ⟨h.congr (by simp) (by simp) (by simp) (by simp) (by simp [h.waiters]) ?_, by simp⟩
    unfold UringAsync.State.removeReader
    split
    · simp [h.ctxOpen]
    · exact h.reader
  · refine ⟨⟨h.closed, h.ctxOpen, h.ring, h.reaped, ?_, h.reader⟩, Function.update_self _ _ _⟩
    rw [h.waiters]

theorem Quiet.cancel (h : Quiet ua ring waiters) (ht : ua.cancel w = some ua') :
    Quiet ua' ring waiters ∧ Cancelling (ua'.call w) := by
  unfold UringAsync.State.cancel at ht
  split at ht
  · rw [← Option.some.inj ht]
    refine ⟨⟨h.closed, h.ctxOpen, h.ring, h.reaped, h.waiters, h.reader⟩, ?_⟩
    simp only [Function.update_self, Cancelling]
  · next fut b hnot hcall =>
    rw [← Option.some.inj ht]
    refine ⟨⟨h.closed, h.ctxOpen, h.ring, h.reaped, h.waiters, h.reader⟩, ?_⟩
    simp only [Function.update_self]
    cases fut <;> simp [Cancelling]
  · exact absurd ht (by simp)
  · exact absurd ht (by simp)
  · exact absurd ht (by simp)

end Quiet

/-! ## Stages of a request -/

/-- Where the request of the call past the lock is. -/
inductive Stage where
  | inFlight
  | posted (res : ℤ)
  | taken (res : ℤ)

/-- The call past the lock, its request and the call of `wait_completion` it awaits. -/
structure Busy where
  t : ℕ
  io : Io
  req : Request
  w : ℕ
  stage : Stage
  cancelled : Bool

/-- What the call awaits, unless it is cancelled. -/
def Stage.Awaits (ud : ℕ) : Stage → UringAsync.Call (ℕ × ℤ) → Prop
  | .taken res, call => ∃ n, call = .awaiting (.result n (ud, res)) false
  | _, call => call = .awaiting .pending false

def Busy.Awaits (b : Busy) (call : UringAsync.Call (ℕ × ℤ)) : Prop :=
  if b.cancelled then Cancelling call else b.stage.Awaits b.req.ud call

def inflightOf : Option Busy → List Request
  | some ⟨_, _, req, _, .inFlight, _⟩ => [req]
  | _ => []

def ringOf : Option Busy → List (ℕ × ℤ)
  | some ⟨_, _, req, _, .posted res, _⟩ => [(req.ud, res)]
  | _ => []

def waitersOf : Option Busy → List ℕ
  | some ⟨_, _, _, w, .inFlight, _⟩ => [w]
  | some ⟨_, _, _, w, .posted _, _⟩ => [w]
  | _ => []

/-- The file is open on the io_uring path, the only request is that of the call past the
lock, and nobody is about to close the file. -/
structure Serial (s : State) (p : Option Busy) : Prop where
  ledger : Ledger s
  uring : s.uring = true
  fp : s.fp = none
  closed : s.closed = false
  ops : ∀ u < s.calls, s.op u ≠ .aclose
  queued : s.queued = []
  lock : s.lock = p.map Busy.t
  inflight : s.inflight = inflightOf p
  quiet : Quiet s.ua (ringOf p) (waitersOf p)
  task : ∀ b, p = some b → s.task b.t = .awaiting b.io b.req b.w
  awaits : ∀ b, p = some b → b.Awaits (s.ua.call b.w)

/-- Between taking the lock or a completion and the next `await` or return. -/
structure Clear (s : State) (u : ℕ) : Prop where
  holding : Holding s u
  uring : s.uring = true
  fp : s.fp = none
  closed : s.closed = false
  ops : ∀ v < s.calls, s.op v ≠ .aclose
  queued : s.queued = []
  inflight : s.inflight = []
  quiet : Quiet s.ua [] []

/-- What a file is apart from its calls and its ring. -/
structure Core where
  file : List UInt8
  pos : ℕ
  ud : ℕ
  buf : ℕ → List UInt8
  op : ℕ → Op
  calls : ℕ
  log : List Ev

def State.core (s : State) : Core := ⟨s.file, s.pos, s.ud, s.buf, s.op, s.calls, s.log⟩

/-- The request is done with: the kernel has completed it, its completion was taken out
of the ring, and it wrote nothing. -/
structure Consumed (s : State) (req : Request) : Prop where
  inflight : req ∉ s.inflight
  ring : ∀ c ∈ s.ua.posted.drop s.ua.reaped, c.1 ≠ req.ud
  wrote : ∀ data res, req.op = .write data → .performed req res ∈ s.log → res ≤ 0

/-- Submissions and waits succeed, and nobody closes the file. -/
def Served : Event → Prop
  | .call op => op ≠ .aclose
  | .acquire _ submitRet => 0 ≤ submitRet
  | .complete _ _ => True
  | .onReadable waitRet _ => 0 ≤ waitRet
  | .runJob _ _ => True
  | .resume _ submitRet => 0 ≤ submitRet
  | .cancel _ => True

/-- The loop runs a cancelled call, which leaves a request behind. -/
def Abandons (s : State) : Event → Prop
  | .resume u _ => ∃ io req w, s.task u = .awaiting io req w ∧ Cancelling (s.ua.call w) ∧
      ¬ Consumed s req
  | _ => False

/-- Nobody leaves a request behind. -/
def Undisturbed (s : State) (e : Event) : Prop := Served e ∧ ¬ Abandons s e

/-- What a call does first under the lock; `none` when it returns at once. -/
def Op.start : Op → Option Io
  | .read n =>
    if n = 0 then none
    else if n < 0 then some (.read (.untilEof []))
    else some (.read (.upTo [] n.toNat))
  | .write data => some (.write data)
  | .aclose => none

/-- What a step from `s` to `t` does, and how it moves the request. -/
inductive Move (flags : Flags) (s t : State) : Event → Option Busy → Option Busy → Prop where
  | call {op : Op} {p : Option Busy} (h : t = s.call op) : Move flags s t (.call op) p p
  | unlocked {u : ℕ} {p : Option Busy} (htask : s.task u = .waitingLock)
      (h : t.core = { s.core with log := .returned u (.error .cancelledError) :: s.log }) :
      Move flags s t (.cancel u) p p
  | nothing {u : ℕ} {r : ℤ} (htask : s.task u = .waitingLock) (hop : s.op u = .read 0)
      (h : t.core = { s.core with log := .returned u (.bytes []) :: .locked u :: s.log }) :
      Move flags s t (.acquire u r) none none
  | start {u w : ℕ} {r : ℤ} {io : Io} (htask : s.task u = .waitingLock)
      (hop : (s.op u).start = some io)
      (h : t.core = { s.core with
        ud := s.ud + 1
        buf := Function.update s.buf s.ud io.buffer
        log := .submitted u ⟨s.ud, io.reqOp, s.pos⟩ :: .locked u :: s.log }) :
      Move flags s t (.acquire u r) none
        (some ⟨u, io, ⟨s.ud, io.reqOp, s.pos⟩, w, .inFlight, false⟩)
  | perform {u w i : ℕ} {io : Io} {req : Request} {c : Bool} {res : ℤ} {file data : List UInt8}
      (hreq : s.inflight[i]? = some req)
      (hperform : req.perform flags res s.file = some (file, data))
      (h : t.core = { s.core with
        file := file
        buf := Function.update s.buf req.ud (data ++ (s.buf req.ud).drop data.length)
        log := .performed req res :: s.log }) :
      Move flags s t (.complete i res) (some ⟨u, io, req, w, .inFlight, c⟩)
        (some ⟨u, io, req, w, .posted res, c⟩)
  | take {u w : ℕ} {io : Io} {req : Request} {c : Bool} {res waitRet : ℤ} {peeks : Option ℕ}
      (h : t.core = s.core) :
      Move flags s t (.onReadable waitRet peeks) (some ⟨u, io, req, w, .posted res, c⟩)
        (some ⟨u, io, req, w, .taken res, c⟩)
  | idle {p : Option Busy} {waitRet : ℤ} {peeks : Option ℕ} (h : t.core = s.core) :
      Move flags s t (.onReadable waitRet peeks) p p
  | cancel {u w : ℕ} {io : Io} {req : Request} {stage : Stage} {c : Bool} (h : t.core = s.core) :
      Move flags s t (.cancel u) (some ⟨u, io, req, w, stage, c⟩)
        (some ⟨u, io, req, w, stage, true⟩)
  | fail {u w : ℕ} {io : Io} {req : Request} {res r : ℤ} (hres : res < 0)
      (h : t.core = { s.core with
        log := .returned u (.error (.uringError ⟨-res, io.operation, none⟩)) ::
          .got u req req.ud res :: s.log }) :
      Move flags s t (.resume u r) (some ⟨u, io, req, w, .taken res, false⟩) none
  | wrote {u w : ℕ} {data : List UInt8} {req : Request} {res r : ℤ} (hres : 0 ≤ res)
      (h : t.core = { s.core with
        pos := s.pos + res.toNat
        log := .returned u (.count res.toNat) :: .got u req req.ud res :: s.log }) :
      Move flags s t (.resume u r) (some ⟨u, .write data, req, w, .taken res, false⟩) none
  | last {u w : ℕ} {loop : ReadLoop} {out : List UInt8} {req : Request} {res r : ℤ}
      (hres : 0 ≤ res) (hfeed : loop.feed ((s.buf req.ud).take res.toNat) = .inr out)
      (h : t.core = { s.core with
        pos := s.pos + res.toNat
        log := .returned u (.bytes out) :: .got u req req.ud res :: s.log }) :
      Move flags s t (.resume u r) (some ⟨u, .read loop, req, w, .taken res, false⟩) none
  | next {u w w' : ℕ} {loop loop' : ReadLoop} {req : Request} {res r : ℤ} (hres : 0 ≤ res)
      (hfeed : loop.feed ((s.buf req.ud).take res.toNat) = .inl loop')
      (h : t.core = { s.core with
        pos := s.pos + res.toNat
        ud := s.ud + 1
        buf := Function.update s.buf s.ud (Io.read loop').buffer
        log := .submitted u ⟨s.ud, (Io.read loop').reqOp, s.pos + res.toNat⟩ ::
          .got u req req.ud res :: s.log }) :
      Move flags s t (.resume u r) (some ⟨u, .read loop, req, w, .taken res, false⟩)
        (some ⟨u, .read loop', ⟨s.ud, (Io.read loop').reqOp, s.pos + res.toNat⟩, w', .inFlight,
          false⟩)
  | abandon {u w : ℕ} {io : Io} {req : Request} {res r : ℤ} (hconsumed : Consumed s req)
      (h : t.core = { s.core with log := .returned u (.error .cancelledError) :: s.log }) :
      Move flags s t (.resume u r) (some ⟨u, io, req, w, .taken res, true⟩) none

variable {flags : Flags} {s t : State} {u : ℕ} {p : Option Busy}

theorem Clear.finish (h : Clear s u) (o : Outcome) : Serial (s.finish u o) none where
  ledger := h.holding.finish o
  uring := h.uring
  fp := h.fp
  closed := h.closed
  ops := h.ops
  queued := h.queued
  lock := rfl
  inflight := h.inflight
  quiet := h.quiet
  task := by simp
  awaits := by simp

/-- What a call does first once it has the lock. -/
theorem locked_cases (huring : s.uring = true) (hfp : s.fp = none) (hop : s.op u ≠ .aclose)
    (submitRet : ℤ) :
    (s.op u = .read 0 ∧ s.locked u submitRet = s.finish u (.bytes [])) ∨
    ∃ io, (s.op u).start = some io ∧ s.locked u submitRet = s.submit u io submitRet := by
  unfold State.locked
  cases hopu : s.op u with
  | read n =>
    simp only [hfp, huring, Option.isSome_none, Bool.false_eq_true, if_false, Bool.not_true]
    by_cases hzero : n = 0
    · exact Or.inl ⟨by rw [hzero], if_pos hzero⟩
    · by_cases hneg : n < 0
      · exact Or.inr ⟨.read (.untilEof []), by simp [Op.start, hzero, hneg],
          by rw [if_neg hzero, if_pos hneg]⟩
      · exact Or.inr ⟨.read (.upTo [] n.toNat), by simp [Op.start, hzero, hneg],
          by rw [if_neg hzero, if_neg hneg]⟩
  | write data =>
    simp only [hfp, huring, Option.isSome_none, Bool.false_eq_true, if_false, Bool.not_true]
    exact Or.inr ⟨.write data, rfl, rfl⟩
  | aclose => exact absurd hopu hop

/-- A submission that succeeds. -/
theorem submit_eq (hqueued : s.queued = []) {ring : List (ℕ × ℤ)} (hquiet : Quiet s.ua ring [])
    (io : Io) {submitRet : ℤ} (hret : 0 ≤ submitRet) :
    s.submit u io submitRet = ({ s with
      ud := s.ud + 1
      buf := Function.update s.buf s.ud io.buffer
      queued := []
      inflight := s.inflight ++ [⟨s.ud, io.reqOp, s.pos⟩]
      ua := s.ua.waitCompletion
      log := .submitted u ⟨s.ud, io.reqOp, s.pos⟩ :: s.log } : State).setTask u
        (.awaiting io ⟨s.ud, io.reqOp, s.pos⟩ s.ua.calls) := by
  simp only [State.submit, hqueued, List.length_nil, List.nil_append, hquiet.waitCompletion.2,
    if_neg (show ¬ 64 ≤ 0 by omega), if_neg (Int.not_lt.mpr hret)]

/-- The next request of a call. -/
theorem Clear.submit (h : Clear s u) (io : Io) {submitRet : ℤ} (hret : 0 ≤ submitRet) :
    Serial (s.submit u io submitRet)
      (some ⟨u, io, ⟨s.ud, io.reqOp, s.pos⟩, s.ua.calls, .inFlight, false⟩) ∧
    (s.submit u io submitRet).core = { s.core with
      ud := s.ud + 1
      buf := Function.update s.buf s.ud io.buffer
      log := .submitted u ⟨s.ud, io.reqOp, s.pos⟩ :: s.log } := by
  obtain ⟨hquiet, hcall⟩ := h.quiet.waitCompletion
  have hledger := h.holding.submit io submitRet
  rw [submit_eq h.queued h.quiet io hret] at hledger ⊢
  refine ⟨⟨hledger, h.uring, h.fp, h.closed, h.ops, rfl, h.holding.1, ?_, hquiet, ?_, ?_⟩, rfl⟩
  · change s.inflight ++ [_] = _
    rw [h.inflight]
    rfl
  · intro b hb
    obtain rfl := Option.some.inj hb
    exact task_setTask_self _ _ _
  · intro b hb
    obtain rfl := Option.some.inj hb
    exact hcall

/-! ## The steps -/

/-- The call past the lock is the one whose task runs. -/
theorem Serial.of_running (h : Serial s p) (hu : (s.task u).isRunning = true) :
    ∃ b, p = some b ∧ b.t = u := by
  have hlock := (h.ledger.holder u).mp hu
  rw [h.lock] at hlock
  exact Option.map_eq_some_iff.mp hlock

theorem Serial.of_awaiting (h : Serial s p) {io : Io} {req : Request} {w : ℕ}
    (hu : s.task u = .awaiting io req w) :
    ∃ stage c, p = some ⟨u, io, req, w, stage, c⟩ := by
  obtain ⟨b, rfl, rfl⟩ := h.of_running (by rw [hu]; rfl)
  obtain ⟨hio, hreq, hw⟩ := Task.awaiting.inj (hu.symm.trans (h.task b rfl))
  exact ⟨b.stage, b.cancelled, by rw [hio, hreq, hw]⟩

/-- A call that nobody cancelled does not leave its request behind. -/
theorem Serial.not_abandons {b : Busy} (h : Serial s (some b)) (hlive : b.cancelled = false)
    (submitRet : ℤ) : ¬ Abandons s (.resume u submitRet) := by
  rintro ⟨io, req, w, hu, hcancelling, -⟩
  obtain ⟨stage, c, heq⟩ := h.of_awaiting hu
  have hawaits := h.awaits b rfl
  obtain rfl := Option.some.inj heq
  obtain rfl : c = false := hlive
  cases stage with
  | inFlight =>
    rw [show s.ua.call w = .awaiting .pending false from hawaits] at hcancelling
    exact absurd hcancelling (by simp [Cancelling])
  | posted res =>
    rw [show s.ua.call w = .awaiting .pending false from hawaits] at hcancelling
    exact absurd hcancelling (by simp [Cancelling])
  | taken res =>
    obtain ⟨n, hcall⟩ : ∃ n, s.ua.call w = .awaiting (.result n (req.ud, res)) false := hawaits
    rw [hcall] at hcancelling
    exact absurd hcancelling (by simp [Cancelling])

theorem Serial.call (h : Serial s p) {op : Op} (hop : op ≠ .aclose) : Serial (s.call op) p := by
  have hledger := h.ledger.call op
  have hops : ∀ u < s.calls + 1, Function.update s.op s.calls op u ≠ .aclose := by
    intro u hu
    by_cases hus : u = s.calls
    · rw [hus, Function.update_self]
      exact hop
    · rw [Function.update_of_ne hus]
      exact h.ops u (by omega)
  have htask : ∀ b, p = some b → ∀ task, Function.update s.task s.calls task b.t =
      .awaiting b.io b.req b.w := by
    intro b hb task
    have hlt := h.ledger.lt_calls (show s.task b.t ≠ .notCalled by rw [h.task b hb]; simp)
    rw [Function.update_of_ne (Nat.ne_of_lt hlt)]
    exact h.task b hb
  unfold State.call at hledger ⊢
  simp only at hledger ⊢
  split at hledger
  · exact ⟨hledger, h.uring, h.fp, h.closed, hops, h.queued, h.lock, h.inflight, h.quiet,
      fun b hb => htask b hb _, h.awaits⟩
  · exact ⟨hledger, h.uring, h.fp, h.closed, hops, h.queued, h.lock, h.inflight, h.quiet,
      fun b hb => htask b hb _, h.awaits⟩

/-- A step of the reader leaves the file as it is. -/
theorem Serial.withUa (h : Serial s p) {ua : UringAsync.State (ℕ × ℤ)} {q : Option Busy}
    (hlock : q.map Busy.t = p.map Busy.t) (hinflight : inflightOf q = inflightOf p)
    (htask : ∀ b, q = some b → s.task b.t = .awaiting b.io b.req b.w)
    (hquiet : Quiet ua (ringOf q) (waitersOf q))
    (hawaits : ∀ b, q = some b → b.Awaits (ua.call b.w)) : Serial { s with ua := ua } q where
  ledger := h.ledger.congr rfl
  uring := h.uring
  fp := h.fp
  closed := h.closed
  ops := h.ops
  queued := h.queued
  lock := h.lock.trans hlock.symm
  inflight := h.inflight.trans hinflight.symm
  quiet := hquiet
  task := htask
  awaits := hawaits

theorem Serial.cancel (h : Serial s p) (ht : s.cancel u = some t) :
    ∃ q, Serial t q ∧ Move flags s t (.cancel u) p q := by
  rcases cancel_cases ht with ⟨hu, rfl⟩ | ⟨io, req, w, ua, hu, hua, rfl⟩
  · refine ⟨p, ⟨h.ledger.ret (h.ledger.lt_calls (by rw [hu]; simp)) (Or.inl hu) _, h.uring, h.fp,
      h.closed, h.ops, h.queued, h.lock, h.inflight, h.quiet, ?_, h.awaits⟩, .unlocked hu rfl⟩
    intro b hb
    have hne : b.t ≠ u := fun heq => by
      have htask := h.task b hb
      rw [heq, hu] at htask
      exact absurd htask (by simp)
    exact (Function.update_of_ne hne _ _).trans (h.task b hb)
  · obtain ⟨stage, c, rfl⟩ := h.of_awaiting hu
    obtain ⟨hquiet, hcancelling⟩ := h.quiet.cancel hua
    refine ⟨some ⟨u, io, req, w, stage, true⟩, h.withUa rfl ?_ ?_ ?_ ?_, .cancel rfl⟩
    · cases stage <;> rfl
    · intro b hb
      obtain rfl := Option.some.inj hb
      exact hu
    · cases stage <;> exact hquiet
    · intro b hb
      obtain rfl := Option.some.inj hb
      exact hcancelling

theorem Serial.acquire (h : Serial s p) {submitRet : ℤ} (hret : 0 ≤ submitRet)
    (ht : s.acquire u submitRet = some t) :
    ∃ q, Serial t q ∧ Move flags s t (.acquire u submitRet) p q := by
  obtain ⟨hwait, hfree, rfl⟩ := acquire_cases ht
  obtain rfl : p = none := Option.map_eq_none_iff.mp (h.lock.symm.trans hfree)
  have hclear : Clear { s with lock := some u, log := .locked u :: s.log } u :=
    ⟨h.ledger.takeLock hwait hfree, h.uring, h.fp, h.closed, h.ops, h.queued, h.inflight, h.quiet⟩
  have hlt := h.ledger.lt_calls (show s.task u ≠ .notCalled by rw [hwait]; simp)
  rcases locked_cases hclear.uring hclear.fp (h.ops u hlt) submitRet with
    ⟨hop, heq⟩ | ⟨io, hio, heq⟩
  · rw [heq]
    exact ⟨none, hclear.finish _, .nothing hwait hop rfl⟩
  · obtain ⟨hserial, hcore⟩ := hclear.submit io hret
    rw [heq]
    exact ⟨_, hserial, .start hwait hio hcore⟩

theorem Serial.complete (h : Serial s p) {i : ℕ} {res : ℤ}
    (ht : s.complete flags i res = some t) :
    ∃ q, Serial t q ∧ Move flags s t (.complete i res) p q := by
  obtain ⟨req, file, data, hreq, hperform, rfl⟩ := complete_cases ht
  have hin := hreq
  rw [h.inflight] at hin
  match p, h, hin with
  | none, _, hin => exact absurd hin (by simp [inflightOf])
  | some ⟨u, io, req', w, .posted res', c⟩, _, hin => exact absurd hin (by simp [inflightOf])
  | some ⟨u, io, req', w, .taken res', c⟩, _, hin => exact absurd hin (by simp [inflightOf])
  | some ⟨u, io, req', w, .inFlight, c⟩, h, hin =>
    have htask := h.task _ rfl
    have hawaits := h.awaits _ rfl
    -- it is the only request
    obtain ⟨hi, hget⟩ := List.getElem?_eq_some_iff.mp hin
    have hi0 : i = 0 := Nat.lt_one_iff.mp hi
    subst hi0
    obtain rfl : req' = req := hget
    refine ⟨some ⟨u, io, req', w, .posted res, c⟩, ⟨h.ledger.congr rfl, h.uring,
      h.fp, h.closed, h.ops, h.queued, h.lock, ?_, h.quiet.post _, ?_, ?_⟩,
      .perform hreq hperform rfl⟩
    · change s.inflight.eraseIdx 0 = []
      rw [h.inflight]
      rfl
    · intro b hb
      obtain rfl := Option.some.inj hb
      exact htask
    · intro b hb
      obtain rfl := Option.some.inj hb
      exact hawaits

/-- A future that is settled stays settled for a call that is cancelled. -/
theorem cancelling_settle {call : UringAsync.Call (ℕ × ℤ)} (h : Cancelling call)
    (fut : UringAsync.Fut (ℕ × ℤ)) : Cancelling (call.settle fut) := by
  cases call with
  | awaiting f mustCancel =>
    cases f with
    | pending =>
      obtain rfl : mustCancel = true := h
      cases fut <;> simp [UringAsync.Call.settle, Cancelling]
    | result n c => exact h
    | exception exc => exact h
    | cancelled => exact h
  | returned n c => exact h
  | raised exc => exact h
  | cancelled => exact h

/-- The callback hands the completion in the ring to the waiter. -/
theorem Busy.Awaits.take {u w n : ℕ} {io : Io} {req : Request} {res : ℤ} {c : Bool}
    {call : UringAsync.Call (ℕ × ℤ)} (h : (Busy.mk u io req w (.posted res) c).Awaits call) :
    (Busy.mk u io req w (.taken res) c).Awaits (call.settle (.result n (req.ud, res))) := by
  cases c with
  | true => exact cancelling_settle h _
  | false =>
    obtain rfl : call = .awaiting .pending false := h
    exact ⟨n, rfl⟩

theorem Serial.onReadable (h : Serial s p) {waitRet : ℤ} {peeks : Option ℕ} (hwait : 0 ≤ waitRet)
    {ua : UringAsync.State (ℕ × ℤ)} (hua : s.ua.onReadable waitRet peeks = some ua) :
    ∃ q, Serial { s with ua := ua } q ∧
      Move flags s { s with ua := ua } (.onReadable waitRet peeks) p q := by
  have hidle : waitersOf p = [] → ∃ q, Serial { s with ua := ua } q ∧
      Move flags s { s with ua := ua } (.onReadable waitRet peeks) p q := by
    intro hnil
    have hquiet := h.quiet
    rw [hnil] at hquiet
    obtain ⟨hquiet', hcall⟩ := hquiet.onReadable_idle hua
    exact ⟨p, h.withUa rfl rfl h.task (hnil ▸ hquiet') (by rw [hcall]; exact h.awaits), .idle rfl⟩
  match p, h, hidle with
  | none, _, hidle => exact hidle rfl
  | some ⟨u, io, req, w, .taken res, c⟩, _, hidle => exact hidle rfl
  | some ⟨u, io, req, w, .inFlight, c⟩, h, _ =>
    obtain ⟨c, cs, hring, -⟩ := h.quiet.onReadable_waiter hwait hua
    exact absurd hring (by simp [ringOf])
  | some ⟨u, io, req, w, .posted res, c⟩, h, _ =>
    have htask := h.task _ rfl
    have hawaits := h.awaits _ rfl
    obtain ⟨d, ds, hring, hquiet, hcall⟩ := h.quiet.onReadable_waiter hwait hua
    obtain ⟨rfl, rfl⟩ := List.cons.inj hring
    refine ⟨some ⟨u, io, req, w, .taken res, c⟩, h.withUa rfl rfl ?_ hquiet ?_, .take rfl⟩
    · intro b hb
      obtain rfl := Option.some.inj hb
      exact htask
    · intro b hb
      obtain rfl := Option.some.inj hb
      change Busy.Awaits _ (ua.call w)
      rw [hcall]
      exact hawaits.take

/-- A call that awaits nothing any more is clear to go on. -/
theorem Serial.clear {b : Busy} (h : Serial s (some b)) (hinflight : inflightOf (some b) = [])
    {ua : UringAsync.State (ℕ × ℤ)} (hquiet : Quiet ua [] []) :
    Clear { s with ua := ua } b.t where
  holding := (h.ledger.holding h.lock).congr rfl
  uring := h.uring
  fp := h.fp
  closed := h.closed
  ops := h.ops
  queued := h.queued
  inflight := h.inflight.trans hinflight
  quiet := hquiet

theorem Clear.congr (h : Clear s u) (hholding : Holding t u) (huring : t.uring = s.uring)
    (hfp : t.fp = s.fp) (hclosed : t.closed = s.closed) (hop : t.op = s.op)
    (hcalls : t.calls = s.calls) (hqueued : t.queued = s.queued)
    (hinflight : t.inflight = s.inflight) (hua : t.ua = s.ua) : Clear t u where
  holding := hholding
  uring := huring.trans h.uring
  fp := hfp.trans h.fp
  closed := hclosed.trans h.closed
  ops := by rw [hop, hcalls]; exact h.ops
  queued := hqueued.trans h.queued
  inflight := hinflight.trans h.inflight
  quiet := hua ▸ h.quiet

/-- A call is handed the completion of its own request. -/
theorem Clear.onCompletion (h : Clear s u) (io : Io) {w : ℕ} {req : Request} {res submitRet : ℤ}
    (hret : 0 ≤ submitRet) :
    ∃ q, Serial (s.onCompletion u io req req.ud res submitRet) q ∧
      Move flags s (s.onCompletion u io req req.ud res submitRet) (.resume u submitRet)
        (some ⟨u, io, req, w, .taken res, false⟩) q := by
  have hgot : Clear { s with log := .got u req req.ud res :: s.log } u :=
    h.congr (h.holding.congr rfl) rfl rfl rfl rfl rfl rfl rfl rfl
  have hpos : Clear { s with
      log := .got u req req.ud res :: s.log, pos := s.pos + res.toNat } u :=
    h.congr (h.holding.congr rfl) rfl rfl rfl rfl rfl rfl rfl rfl
  unfold State.onCompletion
  simp only [ne_eq, not_true_eq_false, if_false]
  split
  · next hneg => exact ⟨none, hgot.finish _, .fail hneg rfl⟩
  · next hneg =>
    have hres : 0 ≤ res := Int.not_lt.mp hneg
    cases io with
    | read loop =>
      cases hfeed : loop.feed ((s.buf req.ud).take res.toNat) with
      | inl loop' =>
        obtain ⟨hserial, hcore⟩ := hpos.submit (.read loop') hret
        simp only [hfeed]
        exact ⟨_, hserial, .next hres hfeed hcore⟩
      | inr out =>
        simp only [hfeed]
        exact ⟨none, hpos.finish _, .last hres hfeed rfl⟩
    | write data => exact ⟨none, hpos.finish _, .wrote hres rfl⟩

/-- What a call does with its completion does not depend on the reader. -/
theorem Move.of_withUa {ua : UringAsync.State (ℕ × ℤ)} {w : ℕ} {io : Io} {req : Request}
    {res r : ℤ} {q : Option Busy}
    (h : Move flags { s with ua := ua } t (.resume u r)
      (some ⟨u, io, req, w, .taken res, false⟩) q) :
    Move flags s t (.resume u r) (some ⟨u, io, req, w, .taken res, false⟩) q := by
  cases h with
  | fail hres h => exact .fail hres h
  | wrote hres h => exact .wrote hres h
  | last hres hfeed h => exact .last hres hfeed h
  | next hres hfeed h => exact .next hres hfeed h

theorem Serial.resume (h : Serial s p) {submitRet : ℤ}
    (hP : Undisturbed s (.resume u submitRet)) (ht : s.resume u submitRet = some t) :
    ∃ q, Serial t q ∧ Move flags s t (.resume u submitRet) p q := by
  obtain ⟨hret, hkeeps⟩ := hP
  unfold State.resume at ht
  split at ht
  · next io req w hu =>
    obtain ⟨ua, hua, rfl⟩ := Option.map_eq_some_iff.mp ht
    obtain ⟨stage, c, rfl⟩ := h.of_awaiting hu
    have hawaits := h.awaits _ rfl
    cases c with
    | true =>
      have hdone : Consumed s req :=
        Classical.byContradiction fun hnot => hkeeps ⟨io, req, w, hu, hawaits, hnot⟩
      obtain ⟨hquiet, hcall⟩ := h.quiet.resume_cancelling hawaits hua
      simp only [hcall]
      cases stage with
      | inFlight =>
        exact absurd (show req ∈ s.inflight by rw [h.inflight]; simp [inflightOf]) hdone.inflight
      | posted res =>
        have hring := h.quiet.ring
        exact absurd rfl (hdone.ring (req.ud, res) (by rw [hring]; simp [ringOf]))
      | taken res => exact ⟨none, (h.clear rfl hquiet).finish _, .abandon hdone rfl⟩
    | false =>
      cases stage with
      | inFlight =>
        have hpending : s.ua.call w = .awaiting .pending false := hawaits
        exact absurd hua (by simp [UringAsync.State.resume, hpending])
      | posted res =>
        have hpending : s.ua.call w = .awaiting .pending false := hawaits
        exact absurd hua (by simp [UringAsync.State.resume, hpending])
      | taken res =>
        obtain ⟨n, hresult⟩ :
            ∃ n, s.ua.call w = .awaiting (.result n (req.ud, res)) false := hawaits
        obtain ⟨hquiet, hcall⟩ := h.quiet.resume_result hresult hua
        simp only [hcall]
        obtain ⟨q, hserial, hmove⟩ := (h.clear rfl hquiet).onCompletion io hret
        exact ⟨q, hserial, hmove.of_withUa⟩
  · next outcome hu =>
    obtain ⟨b, rfl, rfl⟩ := h.of_running (by rw [hu]; rfl)
    exact absurd ((h.task b rfl).symm.trans hu) (by simp)
  · exact absurd ht (by simp)

/-- **What a step does** while requests are served one at a time. -/
theorem serial_step (h : Serial s p) {e : Event} (hP : Undisturbed s e)
    (ht : step flags s e = some t) : ∃ q, Serial t q ∧ Move flags s t e p q := by
  cases e with
  | call op =>
    obtain rfl := Option.some.inj ht
    exact ⟨p, h.call hP.1, .call rfl⟩
  | acquire u submitRet => exact h.acquire hP.1 ht
  | complete i res => exact h.complete ht
  | onReadable waitRet peeks =>
    obtain ⟨ua, hua, rfl⟩ := Option.map_eq_some_iff.mp ht
    obtain ⟨-, hua⟩ := Option.ite_none_right_eq_some.mp hua
    exact h.onReadable hP.1 hua
  | runJob u most =>
    -- no call is in the executor
    obtain ⟨hu, -⟩ := runJob_cases ht
    obtain ⟨b, rfl, rfl⟩ := h.of_running (by rw [hu]; rfl)
    exact absurd ((h.task b rfl).symm.trans hu) (by simp)
  | resume u submitRet => exact h.resume hP ht
  | cancel u => exact h.cancel ht

theorem serial_aenter (flags : Flags) (content : List UInt8) :
    Serial (aenter flags true content) none where
  ledger := ledger_aenter flags true content
  uring := rfl
  fp := rfl
  closed := rfl
  ops u hu := absurd hu (Nat.not_lt_zero u)
  queued := rfl
  lock := rfl
  inflight := rfl
  quiet := ⟨rfl, rfl, rfl, Nat.le_refl _, rfl, rfl⟩
  task := by simp
  awaits := by simp

end AsyncFile
end Pyuring
