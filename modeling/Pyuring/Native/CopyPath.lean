import Pyuring.Native.Sizing
import Pyuring.Lib.Trace
import Pyuring.Lib.SparseFile
import Pyuring.Lib.Tiling
import Mathlib.Logic.Function.Basic

/-!
# The copy pipeline

`uring_copy_path_dynamic` as a state machine.  The program part is cut at the
points where it waits: priming with its submit, one iteration of the completion
loop (wait for a completion, handle it, submit what it led to), the exit through
the loop condition, and the clean-up block at `out:`.  Between these the kernel
may complete any outstanding request.  What the outside world answers is carried
by the event: the kernel's choice of request and result, and the return values of
the submits, waits, `ftruncate` and `fsync`.

The clean-up block frees the slot buffers, leaves the ring and returns, all in one step,
after which the machine stops.  What the kernel does later with requests that are
outstanding then is not a step of it (`CopySource.late`).

Source and destination are different files.  The source does not change, so it
is a list of bytes; the destination starts empty, since it was opened with
`O_TRUNC`.  A read that completes fills the buffer of its slot, a write that
completes takes its bytes from there, whatever they are at that moment.

Buffers have no bound in the model: a read that moves more bytes than the slot's
allocation holds sets `overrun`, and from then on the real program has corrupted
its memory.  All counters stay below the file size or `qd`, so natural numbers
stand for `uint64_t`, `unsigned` and `long long`.
-/

namespace Pyuring
namespace Native
namespace CopyPath

/-- How the steps before the pipeline went: the two opens, `fstat`,
`io_uring_queue_init`, the slot array and the slot buffers. -/
structure Setup where
  openSrc : Option Errno
  openDst : Option Errno
  fstat : Option Errno
  queueInit : ℤ
  calloc : Bool
  memalign : ℕ → Bool

/-- Every step succeeded. -/
def Setup.ok : Setup := ⟨none, none, none, 0, true, fun _ => true⟩

/-- One call: the arguments, the source's bytes, and the parts of the outside
world that do not depend on the moment (the room of the submission queue, how
the set-up went). -/
structure Config where
  src : List UInt8
  qd : ℕ
  blockSize : ℕ
  bufferSizeCb : Option BufferSizeCb
  doFsync : Bool
  progressCb : Option ProgressCb
  sqEntries : ℕ
  setup : Setup
  qd_lt : qd < 2 ^ 32
  blockSize_lt : blockSize < 2 ^ 32

inductive Phase where
  | priming
  | loop
  | out
  | returned (ret : ℤ)
  deriving DecidableEq, Repr

/-- The locals of the function, its slots and their buffers, the ring, the
destination file, and the trace (newest entry first). -/
structure State where
  slots : ℕ → CopySlot
  bufs : ℕ → List UInt8
  ring : CompletionRing Sqe
  nextOff : ℕ
  inflight : ℕ
  copied : ℕ
  ret : ℤ
  calls : ℕ
  reports : ℕ
  dst : SparseFile UInt8
  overrun : Bool
  log : List Ev
  phase : Phase

/-- What happens next: the kernel completes a request, or the program runs to the
next point where it waits. -/
inductive Event where
  | complete (i : ℕ) (res : ℤ)
  | prime (submitRet : ℤ)
  | iterate (waitRet submitRet : ℤ)
  | finish (ftruncateOk : Bool) (fsyncErr : Option Errno)
  | cleanup

variable (cfg : Config)

/-- `st_size` of the source. -/
def Config.fileSize : ℕ := cfg.src.length

def Config.sizing : Sizing := ⟨cfg.bufferSizeCb, cfg.blockSize, cfg.fileSize⟩

def Config.maxBufferSize : ℕ := cfg.sizing.maxBufferSize

/-- The source's descriptor, as an index. -/
def sfd : ℕ := 0

/-- The destination's descriptor, as an index. -/
def dfd : ℕ := 1

def readSqe (slot len off : ℕ) : Sqe :=
  ⟨.read, sfd, slot, len, off, false, packUd 0 (UInt32.ofNat slot)⟩

def writeSqe (slot len off : ℕ) : Sqe :=
  ⟨.write, dfd, slot, len, off, false, packUd 1 (UInt32.ofNat slot)⟩

namespace State

/-- `ret = r; goto out`. -/
def goOut (r : ℤ) (s : State) : State := { s with ret := r, phase := .out }

/-- `slots[i].active = b`. -/
def setActive (i : ℕ) (b : Bool) (s : State) : State :=
  { s with slots := Function.update s.slots i { s.slots i with active := b } }

/-- `ret = io_uring_submit(&ring)`, leaving on an error. -/
def submit (submitRet : ℤ) (s : State) : State :=
  if submitRet < 0 then s.goOut submitRet
  else { s with ring := s.ring.submit, ret := submitRet, phase := .loop }

/-- Submit, unless the program is already on its way out. -/
def andSubmit (submitRet : ℤ) (s : State) : State :=
  if s.phase = .out then s else s.submit submitRet

end State

/-- Reserve the next chunk for slot `i` and queue its read. -/
def enqueueRead (i : ℕ) (s : State) : State :=
  let want := cfg.sizing.want s.nextOff s.calls
  let s := { s with
    calls := cfg.sizing.nextCalls s.calls
    slots := Function.update s.slots i { s.slots i with off := s.nextOff, len := want } }
  match s.ring.push cfg.sqEntries (readSqe i want s.nextOff) with
  | none => s.goOut EAGAIN.neg
  | some ring => { s with
      ring := ring
      inflight := s.inflight + 1
      nextOff := s.nextOff + want
      log := .prep (readSqe i want s.nextOff) :: s.log }

/-- The priming loop over the slots `is`. -/
def primeLoop : List ℕ → State → State
  | [], s => s
  | i :: is, s =>
    if s.nextOff < cfg.fileSize ∧ s.phase = .priming then
      primeLoop is (enqueueRead cfg i (s.setActive i true))
    else s

/-- A completed read: queue the write of what was read, or retire the slot. -/
def onRead (slot : ℕ) (res submitRet : ℤ) (s : State) : State :=
  if res = 0 then s.setActive slot false
  else
    match s.ring.push cfg.sqEntries (writeSqe slot res.toNat (s.slots slot).off) with
    | none => s.goOut EAGAIN.neg
    | some ring => { s with
        ring := ring
        inflight := s.inflight + 1
        log := .prep (writeSqe slot res.toNat (s.slots slot).off) :: s.log }.submit submitRet

/-- Report progress; `true` when the callback asks to abort. -/
def report (s : State) : Bool × State :=
  match cfg.progressCb with
  | none => (false, s)
  | some cb =>
    (cb s.reports s.copied cfg.fileSize,
      { s with reports := s.reports + 1, log := .progress s.copied cfg.fileSize :: s.log })

/-- A completed write: count it, report it, and read the next chunk into the
slot or retire it. -/
def onWrite (slot : ℕ) (res submitRet : ℤ) (s : State) : State :=
  let (cancel, s) := report cfg { s with copied := s.copied + res.toNat }
  if cancel then s.goOut ECANCELED.neg
  else if s.nextOff < cfg.fileSize then (enqueueRead cfg slot s).andSubmit submitRet
  else s.setActive slot false

/-- The body of the completion loop, for one reaped completion. -/
def onCqe (ud : UInt64) (res submitRet : ℤ) (s : State) : State :=
  let op := udOp ud
  let slot := (udSlot ud).toNat
  if cfg.qd ≤ slot ∨ (s.slots slot).active = false then s.goOut EIO.neg
  else if res < 0 then s.goOut res
  else if op = 0 then onRead cfg slot res submitRet s
  else onWrite cfg slot res submitRet s

/-- One iteration of `while (inflight)`. -/
def iterate (waitRet submitRet : ℤ) (s : State) : Option State :=
  if waitRet < 0 then some (s.goOut waitRet)
  else s.ring.reap.map fun (c, ring) =>
    onCqe cfg c.1.userData c.2 submitRet
      { s with ring := ring, inflight := s.inflight - 1, ret := waitRet }

/-- The code between the loop and `out:`. -/
def finish (ftruncateOk : Bool) (fsyncErr : Option Errno) (s : State) : State :=
  let s := if ftruncateOk then { s with dst := s.dst.truncate s.copied } else s
  if cfg.doFsync then
    match fsyncErr with
    | some e => s.goOut e.neg
    | none => { s with log := .fsync dfd :: s.log, phase := .out }
  else { s with phase := .out }

/-- The bytes of the source a read at `off` yields. -/
def Config.slice (off len : ℕ) : List UInt8 := (cfg.src.drop off).take len

/-- The kernel completes the request at index `i` with `res`: at most the bytes
asked for, and for a read at most those the source has. -/
def complete (i : ℕ) (res : ℤ) (s : State) : Option State :=
  match s.ring.complete i res with
  | none => none
  | some (q, ring) =>
    let s := { s with ring := ring, log := .done q res :: s.log }
    match q.opcode with
    | .read =>
      if res ≤ q.len ∧ res ≤ (cfg.fileSize - q.off : ℕ) then
        some { s with
          bufs := Function.update s.bufs q.buf
            (cfg.slice q.off res.toNat ++ (s.bufs q.buf).drop res.toNat)
          overrun := s.overrun || decide (cfg.maxBufferSize < res.toNat) }
      else none
    | .write =>
      if res ≤ q.len then
        some { s with dst := s.dst.write q.off ((s.bufs q.buf).take res.toNat) }
      else none

/-- The value the function returns from `out:`. -/
def State.result (s : State) : ℤ := if s.ret < 0 then s.ret else s.copied

def step (s : State) : Event → Option State
  | .complete i res =>
    match s.phase with
    | .loop | .out => complete cfg i res s
    | _ => none
  | .prime submitRet =>
    if s.phase = .priming then some ((primeLoop cfg (List.range cfg.qd) s).andSubmit submitRet)
    else none
  | .iterate waitRet submitRet =>
    if s.phase = .loop ∧ s.inflight ≠ 0 then iterate cfg waitRet submitRet s else none
  | .finish ftruncateOk fsyncErr =>
    if s.phase = .loop ∧ s.inflight = 0 then some (finish cfg ftruncateOk fsyncErr s) else none
  | .cleanup =>
    if s.phase = .out then some { s with phase := .returned s.result } else none

/-- The state in which nothing was done yet. -/
def blank (phase : Phase) : State where
  slots := fun _ => .zero
  bufs := fun _ => []
  ring := .empty
  nextOff := 0
  inflight := 0
  copied := 0
  ret := 0
  calls := cfg.sizing.probeCalls
  reports := 0
  dst := .empty
  overrun := false
  log := []
  phase := phase

/-- What the function does before it primes the queue: the phase it gets to. -/
def entry : Phase :=
  if cfg.qd = 0 ∨ cfg.blockSize = 0 then .returned EINVAL.neg
  else match cfg.setup.openSrc with
    | some e => .returned e.neg
    | none => match cfg.setup.openDst with
      | some e => .returned e.neg
      | none => match cfg.setup.fstat with
        | some e => .returned e.neg
        | none =>
          if cfg.fileSize = 0 then .returned 0
          else if cfg.setup.queueInit < 0 then .returned cfg.setup.queueInit
          else if ¬ (cfg.setup.calloc ∧ ∀ i < cfg.qd, cfg.setup.memalign i) then
            .returned ENOMEM.neg
          else .priming

def start : State := blank cfg (entry cfg)

/-- The chunks reserved along a trace, and what was moved of each: a prepared
read reserves one, a completed write moves bytes of the chunk at its offset. -/
def spans : List Ev → List Span
  | [] => []
  | .prep q :: log => match q.opcode with
    | .read => spans log ++ [⟨q.off, q.len, 0⟩]
    | .write => spans log
  | .done q res :: log => match q.opcode with
    | .read => spans log
    | .write => Span.setMoved q.off res.toNat (spans log)
  | .progress _ _ :: log => spans log
  | .fsync _ :: log => spans log

end CopyPath
end Native
end Pyuring
