import Pyuring.Native.Sizing
import Pyuring.Lib.Trace
import Pyuring.Lib.SparseFile

/-!
# Writing one new file

`uring_write_newfile_dynamic` as a state machine.  The program queues writes until
`qd` of them are queued or in flight, submits them, waits for a completion, and
then reaps completions in batches until there is none left to reap; then it
starts over.  It is cut at the head of the outer loop, at the wait, and at the
head of the inner loop.  The kernel may complete any outstanding write at any
time.

The slot of a write is computed from its offset, so two writes in flight may
share a slot; the buffers are only read from, and hold the same bytes throughout.
A write that takes more bytes than its buffer holds sets `overrun`.
-/

namespace Pyuring
namespace Native
namespace WriteNewfile

/-- How the steps before the loop went: the open, `io_uring_queue_init`, the slot
array and the slot buffers. -/
structure Setup where
  openDst : Option Errno
  queueInit : ℤ
  calloc : Bool
  memalign : ℕ → Bool

/-- Every step succeeded. -/
def Setup.ok : Setup := ⟨none, 0, true, fun _ => true⟩

/-- One call: the arguments, the room of the submission queue, and how the set-up
went. -/
structure Config where
  totalMb : ℕ
  blockSize : ℕ
  qd : ℕ
  doFsync : Bool
  dsyncEachWrite : Bool
  bufferSizeCb : Option BufferSizeCb
  progressCb : Option ProgressCb
  sqEntries : ℕ
  setup : Setup
  totalMb_lt : totalMb < 2 ^ 32
  blockSize_lt : blockSize < 2 ^ 32
  qd_lt : qd < 2 ^ 32

inductive Phase where
  | head
  | wait
  | reap
  | out
  | returned (ret : ℤ)
  deriving DecidableEq, Repr

/-- The locals of the function, its slots, the ring, the file and the trace
(newest entry first). -/
structure State where
  slots : ℕ → CopySlot
  ring : CompletionRing Sqe
  nextOff : ℕ
  inflight : ℕ
  pending : ℕ
  written : ℕ
  ret : ℤ
  calls : ℕ
  reports : ℕ
  dst : SparseFile UInt8
  overrun : Bool
  log : List Ev
  phase : Phase

/-- What happens next.  `fill` is the outer loop up to the wait, `reap` one round of
the inner loop, `finish` the code after the loop. -/
inductive Event where
  | complete (i : ℕ) (res : ℤ)
  | fill (submitRet : ℤ)
  | wait (waitRet : ℤ)
  | reap
  | finish (fsyncErr : Option Errno)
  | cleanup
  deriving DecidableEq

variable (cfg : Config)

def Config.totalBytes : ℕ :=
  let total := cfg.totalMb * 1024 * 1024
  if total < cfg.blockSize then cfg.blockSize else total

def Config.sizing : Sizing := ⟨cfg.bufferSizeCb, cfg.blockSize, cfg.totalBytes⟩

def Config.maxBufferSize : ℕ := cfg.sizing.maxBufferSize

/-- The destination's descriptor, as an index. -/
def dfd : ℕ := 1

/-- The first `n` bytes of a slot's buffer. -/
def pattern (slot n : ℕ) : List UInt8 :=
  (List.range n).map fun k => UInt8.ofNat (65 + (slot + k) % 26)

def writeSqe (slot len off : ℕ) : Sqe :=
  ⟨.write, dfd, slot, len, off, cfg.dsyncEachWrite, packUd 1 (UInt32.ofNat slot)⟩

/-- `ret = r; goto out`. -/
def State.goOut (r : ℤ) (s : State) : State := { s with ret := r, phase := .out }

/-- The slot of the write at the current offset. -/
def State.slot (s : State) : ℕ := s.nextOff / cfg.blockSize % cfg.qd

/-- Queue one write; `false` when the submission queue is full. -/
def enqueueOne (s : State) : Bool × State :=
  let want := cfg.sizing.want s.nextOff s.calls
  let q := writeSqe cfg (s.slot cfg) want s.nextOff
  let s' := { s with
    calls := cfg.sizing.nextCalls s.calls
    slots := Function.update s.slots (s.slot cfg)
      { s.slots (s.slot cfg) with off := s.nextOff, len := want } }
  match s.ring.push cfg.sqEntries q with
  | none => (false, s')
  | some ring => (true, { s' with
      ring := ring
      pending := s.pending + 1
      nextOff := s.nextOff + want
      log := .prep q :: s.log })

/-- The inner loop that queues writes, for at most `n` rounds. -/
def enqueue : ℕ → State → State
  | 0, s => s
  | n + 1, s =>
    if s.nextOff < cfg.totalBytes ∧ s.inflight + s.pending < cfg.qd then
      let (ok, s) := enqueueOne cfg s
      if ok then enqueue n s else s
    else s

/-- `while (next_off < total_bytes || inflight || pending)`. -/
def State.Continues (s : State) : Prop :=
  s.nextOff < cfg.totalBytes ∨ s.inflight ≠ 0 ∨ s.pending ≠ 0

instance (s : State) : Decidable (s.Continues cfg) :=
  inferInstanceAs (Decidable (_ ∨ _ ∨ _))

/-- `if (!inflight) continue;`. -/
def State.awaitAny (s : State) : State :=
  { s with phase := if s.inflight = 0 then .head else .wait }

/-- One round of the outer loop, up to the wait.  Each round of the queueing loop
raises `pending`, so `qd` rounds are enough. -/
def fill (submitRet : ℤ) (s : State) : State :=
  let s := enqueue cfg cfg.qd s
  if s.pending = 0 then s.awaitAny
  else if submitRet < 0 then s.goOut submitRet
  else { s with
    ring := s.ring.submit
    ret := submitRet
    inflight := s.inflight + s.pending
    pending := 0 }.awaitAny

/-- Report progress; `true` when the callback asks to abort. -/
def report (s : State) : Bool × State :=
  match cfg.progressCb with
  | none => (false, s)
  | some cb =>
    (cb s.reports s.written cfg.totalBytes,
      { s with reports := s.reports + 1, log := .progress s.written cfg.totalBytes :: s.log })

/-- `io_uring_cq_advance(&ring, n)`. -/
def State.advance (n : ℕ) (s : State) : State := { s with ring := s.ring.advance n }

/-- The completions of one batch of `got`, from index `i` on. -/
def reapBatch (got : ℕ) : ℕ → List (Sqe × ℤ) → State → State
  | _, [], s => { s.advance got with inflight := s.inflight - got }
  | i, (q, res) :: cs, s =>
    if udOp q.userData ≠ 1 ∨ cfg.qd ≤ (udSlot q.userData).toNat then
      (s.advance (i + 1)).goOut EIO.neg
    else if res < 0 then (s.advance (i + 1)).goOut res
    else
      let (cancel, s) := report cfg { s with written := s.written + res.toNat }
      if cancel then { s.advance got with inflight := s.inflight - got }.goOut ECANCELED.neg
      else reapBatch got (i + 1) cs s

/-- The length of the `cqes` array. -/
def batchSize : ℕ := 256

/-- One round of the inner loop: peek a batch and handle it. -/
def reap (s : State) : State :=
  let batch := s.ring.completed.take batchSize
  if s.inflight = 0 ∨ batch = [] then { s with phase := .head }
  else reapBatch cfg batch.length 0 batch s

/-- The code between the loop and `out:`. -/
def finish (fsyncErr : Option Errno) (s : State) : State :=
  if cfg.doFsync then
    match fsyncErr with
    | some e => s.goOut e.neg
    | none => { s with log := .fsync dfd :: s.log, phase := .out }
  else { s with phase := .out }

/-- The kernel completes the write at index `i` with `res`, at most the bytes asked
for. -/
def complete (i : ℕ) (res : ℤ) (s : State) : Option State :=
  match s.ring.complete i res with
  | none => none
  | some (q, ring) =>
    if res ≤ q.len then
      some { s with
        ring := ring
        log := .done q res :: s.log
        dst := s.dst.write q.off (pattern q.buf res.toNat)
        overrun := s.overrun || decide (cfg.maxBufferSize < res.toNat) }
    else none

/-- The value the function returns from `out:`. -/
def State.result (s : State) : ℤ := if s.ret < 0 then s.ret else s.written

def step (s : State) : Event → Option State
  | .complete i res =>
    match s.phase with
    | .returned _ => none
    | _ => complete cfg i res s
  | .fill submitRet =>
    if s.phase = .head ∧ s.Continues cfg then some (fill cfg submitRet s) else none
  | .wait waitRet =>
    if s.phase = .wait then
      some (if waitRet < 0 then s.goOut waitRet else { s with ret := waitRet, phase := .reap })
    else none
  | .reap => if s.phase = .reap then some (reap cfg s) else none
  | .finish fsyncErr =>
    if s.phase = .head ∧ ¬ s.Continues cfg then some (finish cfg fsyncErr s) else none
  | .cleanup =>
    if s.phase = .out then some { s with phase := .returned s.result } else none

/-- The state in which nothing was done yet. -/
def blank (phase : Phase) : State where
  slots := fun _ => { CopySlot.zero with active := true }
  ring := .empty
  nextOff := 0
  inflight := 0
  pending := 0
  written := 0
  ret := 0
  calls := cfg.sizing.probeCalls
  reports := 0
  dst := .empty
  overrun := false
  log := []
  phase := phase

/-- What the function does before the loop: the phase it gets to. -/
def entry : Phase :=
  if cfg.totalMb = 0 ∨ cfg.blockSize = 0 ∨ cfg.qd = 0 then .returned EINVAL.neg
  else match cfg.setup.openDst with
    | some e => .returned e.neg
    | none =>
      if cfg.setup.queueInit < 0 then .returned cfg.setup.queueInit
      else if ¬ (cfg.setup.calloc ∧ ∀ i < cfg.qd, cfg.setup.memalign i) then
        .returned ENOMEM.neg
      else .head

def start : State := blank cfg (entry cfg)

end WriteNewfile
end Native
end Pyuring
