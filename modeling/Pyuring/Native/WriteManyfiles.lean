import Pyuring.Native.Request
import Pyuring.Lib.Trace
import Pyuring.Lib.SparseFile

/-!
# Writing many new files

`uring_write_manyfiles` as a state machine.  The program takes free slots from a
stack and gives each the next chunk of the next unfinished file, going round the
files; it submits what it queued, waits for a completion, and reaps one batch.  It
is cut at the head of the loop, at the wait, at the reap with its fallback wait,
and after the loop.  The kernel may complete any outstanding write at any time.

`written` is a natural number, so a call that writes 2^63 bytes or more, and
overflows the counter, is not described.
-/

namespace Pyuring
namespace Native
namespace WriteManyfiles

/-- How the steps before the loop went, in the order in which the function takes
them. -/
structure Setup where
  callocFds : Bool
  openFile : ℕ → Option Errno
  queueInit : ℤ
  callocSlots : Bool
  memalign : ℕ → Bool
  callocFileOff : Bool
  callocFileDone : Bool
  mallocFreeSlots : Bool

/-- Every step succeeded. -/
def Setup.ok : Setup := ⟨true, fun _ => none, 0, true, fun _ => true, true, true, true⟩

/-- One call: the arguments, the room of the submission queue, and how the set-up
went. -/
structure Config where
  dirPath : String
  nfiles : ℕ
  mbPerFile : ℕ
  blockSize : ℕ
  qd : ℕ
  doFsyncEnd : Bool
  sqEntries : ℕ
  setup : Setup
  nfiles_lt : nfiles < 2 ^ 32
  mbPerFile_lt : mbPerFile < 2 ^ 32
  blockSize_lt : blockSize < 2 ^ 32
  qd_lt : qd < 2 ^ 32

inductive Phase where
  | head
  | wait
  | reap
  | fallback
  | tail
  | out
  | returned (ret : ℤ)
  deriving DecidableEq, Repr

/-- The locals of the function, its slots, the ring, the files and the trace
(newest entry first).  `freeSlots` is the stack `free_slots[0 .. free_count)`, its
top first. -/
structure State where
  slots : ℕ → CopySlot
  slotFile : ℕ → ℕ
  ring : CompletionRing Sqe
  fileOff : ℕ → ℕ
  fileDone : ℕ → Bool
  freeSlots : List ℕ
  inflight : ℕ
  written : ℕ
  doneFiles : ℕ
  rr : ℕ
  ret : ℤ
  files : ℕ → SparseFile UInt8
  log : List Ev
  phase : Phase

/-- What happens next.  `fill` is the loop up to the wait, `waitOne` the fallback for
an empty batch, `finish` the code after the loop, with the outcome of each file's
`fsync`. -/
inductive Event where
  | complete (i : ℕ) (res : ℤ)
  | fill (submitRet : ℤ)
  | wait (waitRet : ℤ)
  | reap
  | waitOne (waitRet : ℤ)
  | finish (fsyncErr : ℕ → Option Errno)
  | cleanup

variable (cfg : Config)

def Config.perFileBytes : ℕ := cfg.mbPerFile * 1024 * 1024

/-- The product is an `uint64_t`. -/
def Config.totalBytes : ℕ := cfg.perFileBytes * cfg.nfiles % 2 ^ 64

/-- The first `n` bytes of a slot's buffer. -/
def pattern (slot n : ℕ) : List UInt8 :=
  (List.range n).map fun k => UInt8.ofNat (97 + (slot + k) % 26)

def writeSqe (slot file len off : ℕ) : Sqe :=
  ⟨.write, file, slot, len, off, false, packUd 1 (UInt32.ofNat slot)⟩

/-- `ret = r; goto out`. -/
def State.goOut (r : ℤ) (s : State) : State := { s with ret := r, phase := .out }

/-- Look for a file that is not finished, in at most `tries` steps round the files:
the file, and the offset and the length of its next chunk. -/
def pick : ℕ → State → Option (ℕ × ℕ × ℕ) × State
  | 0, s => (none, s)
  | tries + 1, s =>
    let idx := s.rr % cfg.nfiles
    let s := { s with rr := (s.rr + 1) % 2 ^ 32 }
    if s.fileDone idx then pick tries s
    else
      let off := s.fileOff idx
      if cfg.perFileBytes ≤ off then
        pick tries { s with
          fileDone := Function.update s.fileDone idx true
          doneFiles := s.doneFiles + 1 }
      else
        let remain := cfg.perFileBytes - off
        let want := if remain < cfg.blockSize then remain else cfg.blockSize
        let s := { s with fileOff := Function.update s.fileOff idx (off + want) }
        if cfg.perFileBytes ≤ off + want then
          (some (idx, off, want), { s with
            fileDone := Function.update s.fileDone idx true
            doneFiles := s.doneFiles + 1 })
        else (some (idx, off, want), s)

/-- Queue the chunk found for the slot on top of the stack; `false` when the
submission queue is full, with the slot put back. -/
def enqueueOne (slot : ℕ) (rest : List ℕ) (f off len : ℕ) (s : State) : Bool × State :=
  let q := writeSqe slot f len off
  let s := { s with
    freeSlots := rest
    slotFile := Function.update s.slotFile slot f
    slots := Function.update s.slots slot { s.slots slot with off := off, len := len } }
  match s.ring.push cfg.sqEntries q with
  | none => (false, { s with freeSlots := slot :: rest })
  | some ring => (true, { s with
      ring := ring
      inflight := s.inflight + 1
      log := .prep q :: s.log })

/-- The loop that queues writes, for at most `n` rounds; each round that goes on
takes a slot from the stack. -/
def enqueue : ℕ → State → State
  | 0, s => s
  | n + 1, s =>
    match s.freeSlots with
    | [] => s
    | slot :: rest =>
      if s.doneFiles < cfg.nfiles then
        match pick cfg cfg.nfiles s with
        | (none, s) => s
        | (some (f, off, len), s) =>
          let (ok, s) := enqueueOne cfg slot rest f off len s
          if ok then enqueue n s else s
      else s

/-- `while (written < total_bytes || inflight)`. -/
def State.Continues (s : State) : Prop := s.written < cfg.totalBytes ∨ s.inflight ≠ 0

instance (s : State) : Decidable (s.Continues cfg) :=
  inferInstanceAs (Decidable (_ ∨ _))

/-- `if (!inflight) break;`. -/
def State.awaitAny (s : State) : State :=
  { s with phase := if s.inflight = 0 then .tail else .wait }

/-- The head of the loop up to the wait.  The stack holds at most `qd` slots, so its
length bounds the rounds of the queueing loop. -/
def fill (submitRet : ℤ) (s : State) : State :=
  if s.Continues cfg then
    let s := enqueue cfg s.freeSlots.length s
    if s.ring.queued = [] then s.awaitAny
    else if submitRet < 0 then s.goOut submitRet
    else { s with ring := s.ring.submit, ret := submitRet }.awaitAny
  else { s with phase := .tail }

/-- `io_uring_cq_advance(&ring, n)`. -/
def State.advance (n : ℕ) (s : State) : State := { s with ring := s.ring.advance n }

/-- The completions of one batch of `got`, from index `i` on. -/
def reapBatch (got : ℕ) : ℕ → List (Sqe × ℤ) → State → State
  | _, [], s => { s.advance got with phase := .head }
  | i, (q, res) :: cs, s =>
    if udOp q.userData ≠ 1 ∨ cfg.qd ≤ (udSlot q.userData).toNat then
      (s.advance (i + 1)).goOut EIO.neg
    else if res < 0 then (s.advance (i + 1)).goOut res
    else reapBatch got (i + 1) cs { s with
      written := s.written + res.toNat
      inflight := s.inflight - 1
      freeSlots := (udSlot q.userData).toNat :: s.freeSlots }

/-- The length of the `cqes` array. -/
def batchSize : ℕ := 256

/-- Peek a batch and handle it, or fall back to waiting for one completion. -/
def reap (s : State) : State :=
  let batch := s.ring.completed.take batchSize
  if batch = [] then { s with phase := .fallback }
  else reapBatch cfg batch.length 0 batch s

/-- The fallback: `io_uring_wait_cqe` returns with a completion or with an error. -/
def waitOne (waitRet : ℤ) (s : State) : Option State :=
  if waitRet < 0 then some (s.goOut waitRet)
  else match s.ring.completed with
    | [] => none
    | c :: _ => some (reapBatch cfg 1 0 [c] { s with ret := waitRet })

/-- `fsync` the files `is` in turn, up to the first failure. -/
def fsyncAll (fsyncErr : ℕ → Option Errno) : List ℕ → State → State
  | [], s => { s with phase := .out }
  | i :: is, s =>
    match fsyncErr i with
    | some e => s.goOut e.neg
    | none => fsyncAll fsyncErr is { s with log := .fsync i :: s.log }

/-- The code between the loop and `out:`. -/
def finish (fsyncErr : ℕ → Option Errno) (s : State) : State :=
  if cfg.doFsyncEnd then fsyncAll fsyncErr (List.range cfg.nfiles) s
  else { s with phase := .out }

/-- The kernel completes the write at index `i` with `res`, at most the bytes asked
for. -/
def complete (i : ℕ) (res : ℤ) (s : State) : Option State :=
  match s.ring.complete i res with
  | none => none
  | some (q, ring) =>
    if res ≤ q.len then
      some { s with
        ring := ring
        log := .done q res :: s.log
        files := Function.update s.files q.file
          ((s.files q.file).write q.off (pattern q.buf res.toNat)) }
    else none

/-- The value the function returns from `out:`. -/
def State.result (s : State) : ℤ := if s.ret < 0 then s.ret else s.written

def step (s : State) : Event → Option State
  | .complete i res =>
    match s.phase with
    | .returned _ => none
    | _ => complete i res s
  | .fill submitRet => if s.phase = .head then some (fill cfg submitRet s) else none
  | .wait waitRet =>
    if s.phase = .wait then
      some (if waitRet < 0 then s.goOut waitRet else { s with ret := waitRet, phase := .reap })
    else none
  | .reap => if s.phase = .reap then some (reap cfg s) else none
  | .waitOne waitRet => if s.phase = .fallback then waitOne cfg waitRet s else none
  | .finish fsyncErr => if s.phase = .tail then some (finish cfg fsyncErr s) else none
  | .cleanup =>
    if s.phase = .out then some { s with phase := .returned s.result } else none

/-- The state in which nothing was done yet. -/
def blank (phase : Phase) : State where
  slots := fun _ => { CopySlot.zero with active := true }
  slotFile := fun _ => 0
  ring := .empty
  fileOff := fun _ => 0
  fileDone := fun _ => false
  freeSlots := (List.range cfg.qd).reverse
  inflight := 0
  written := 0
  doneFiles := 0
  rr := 0
  ret := 0
  files := fun _ => .empty
  log := []
  phase := phase

/-- `"%s/file_%06u.dat"`. -/
def filePath (dirPath : String) (i : ℕ) : String :=
  let digits := toString i
  dirPath ++ "/file_" ++ String.ofList (List.replicate (6 - digits.length) '0') ++ digits ++ ".dat"

/-- Format the path of file `i` into 512 bytes and open it. -/
def openOne (i : ℕ) : Option ℤ :=
  if 512 ≤ (filePath cfg.dirPath i).utf8ByteSize then some ENAMETOOLONG.neg
  else (cfg.setup.openFile i).map Errno.neg

/-- What the function does before the loop: the phase it gets to. -/
def entry : Phase :=
  if cfg.nfiles = 0 ∨ cfg.mbPerFile = 0 ∨ cfg.blockSize = 0 ∨ cfg.qd = 0 then
    .returned EINVAL.neg
  else if ¬ cfg.setup.callocFds then .returned ENOMEM.neg
  else match (List.range cfg.nfiles).findSome? (openOne cfg) with
    | some r => .returned r
    | none =>
      if cfg.setup.queueInit < 0 then .returned cfg.setup.queueInit
      else if ¬ (cfg.setup.callocSlots ∧ (∀ i < cfg.qd, cfg.setup.memalign i) ∧
          cfg.setup.callocFileOff ∧ cfg.setup.callocFileDone ∧ cfg.setup.mallocFreeSlots) then
        .returned ENOMEM.neg
      else .head

def start : State := blank cfg (entry cfg)

end WriteManyfiles
end Native
end Pyuring
