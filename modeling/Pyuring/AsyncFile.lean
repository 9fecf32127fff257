import Pyuring.Lib.CursorFile
import Pyuring.UringAsync
import Mathlib.Algebra.Ring.Int.Defs
import Mathlib.Algebra.Ring.Nat

/-!
# Files on an event loop

`AsyncFile` of `async_file.py`: reads and writes of one file by any number of tasks,
one at a time behind a lock, on a ring of its own or, where there is none, on a
`builtins.open` file in an executor.

A call runs from `await` to `await`.  It asks for the lock; once it has the lock it
submits a request for the next slice at the position that the object keeps, and waits
for a completion through `UringAsync`; resumed, it looks at the tag of the completion
it was handed, moves the position, and goes on with the next slice or returns.  A call
that is cancelled while it waits for its completion gives the lock back and leaves its
request with the kernel.

Which of the calls that wait for the lock gets it next is left open.  The kernel
carries a request out at the moment it posts the completion.
-/

namespace Pyuring
namespace AsyncFile

/-- `_READ_SLICE`. -/
def readSlice : ℕ := 256 * 1024

/-- `_VALID_BINARY_MODES`. -/
inductive Mode where
  | rb
  | wb
  | ab
  | rPlusB
  | rbPlus
  | wPlusB
  | wbPlus
  | aPlusB
  | abPlus
  deriving DecidableEq, Repr

/-- The flags of `os.open`. -/
structure Flags where
  read : Bool
  write : Bool
  append : Bool
  creat : Bool
  trunc : Bool
  deriving DecidableEq, Repr

/-- `_mode_to_flags`. -/
def modeToFlags : Mode → Flags
  | .rb => ⟨true, false, false, false, false⟩
  | .wb => ⟨false, true, false, true, true⟩
  | .ab => ⟨false, true, true, true, false⟩
  | .rPlusB | .rbPlus => ⟨true, true, false, false, false⟩
  | .wPlusB | .wbPlus => ⟨true, true, false, true, true⟩
  | .aPlusB | .abPlus => ⟨true, true, true, true, false⟩

/-- What a call raises. -/
inductive Exn where
  | valueError (message : String)
  | assertionError
  | overflowError
  | memoryError
  | unsupportedOperation
  | cancelledError
  | uringError (exc : UringError)
  deriving DecidableEq, Repr

/-- How a call ends. -/
inductive Outcome where
  | bytes (data : List UInt8)
  | count (n : ℕ)
  | none
  | error (exc : Exn)
  deriving DecidableEq, Repr

/-- The calls; `read()` is `read(-1)`. -/
inductive Op where
  | read (n : ℤ)
  | write (data : List UInt8)
  | aclose
  deriving DecidableEq, Repr

inductive ReqOp where
  | read (len : ℕ)
  | write (data : List UInt8)
  deriving DecidableEq, Repr

/-- A request to the kernel, with its tag. -/
structure Request where
  ud : ℕ
  op : ReqOp
  off : ℕ
  deriving DecidableEq, Repr

/-- A read between two slices: `_read_uring_until_eof` or `_read_uring_up_to`, with what
it has read so far. -/
inductive ReadLoop where
  | untilEof (chunks : List UInt8)
  | upTo (out : List UInt8) (remaining : ℕ)
  deriving DecidableEq, Repr

/-- The size of the next slice. -/
def ReadLoop.chunkSz : ReadLoop → ℕ
  | .untilEof _ => readSlice
  | .upTo _ remaining => min remaining readSlice

/-- The loop after a slice: it goes on, or returns what it has read. -/
def ReadLoop.feed (piece : List UInt8) : ReadLoop → ReadLoop ⊕ List UInt8
  | .untilEof chunks =>
    if piece = [] then .inr chunks
    else if piece.length < readSlice then .inr (chunks ++ piece)
    else .inl (.untilEof (chunks ++ piece))
  | .upTo out remaining =>
    if piece = [] then .inr out
    else if piece.length < min remaining readSlice then .inr (out ++ piece)
    else if remaining ≤ piece.length then .inr (out ++ piece)
    else .inl (.upTo (out ++ piece) (remaining - piece.length))

/-- What a call that awaits a completion is doing. -/
inductive Io where
  | read (loop : ReadLoop)
  | write (data : List UInt8)
  deriving DecidableEq, Repr

/-- The request a call makes.  The native function takes the length as a 32-bit number. -/
def Io.reqOp : Io → ReqOp
  | .read loop => .read loop.chunkSz
  | .write data => .write (data.take (data.length % 2 ^ 32))

/-- The buffer of the request. -/
def Io.buffer : Io → List UInt8
  | .read loop => List.replicate loop.chunkSz 0
  | .write data => data

/-- The native function of the request, in errors. -/
def Io.native : Io → String
  | .read _ => "uring_read_async"
  | .write _ => "uring_write_async"

/-- The method, in errors. -/
def Io.operation : Io → String
  | .read _ => "AsyncFile.read"
  | .write _ => "AsyncFile.write"

/-- What a call raises that is handed a completion with another tag than its own. -/
def mismatch (io : Io) (ud gotUd : ℕ) : Exn :=
  .uringError ⟨5, io.operation,
    some s!"completion user_data mismatch (expected {ud}, got {gotUd})"⟩

/-- Where a call is. -/
inductive Task where
  | notCalled
  | waitingLock
  | awaiting (io : Io) (req : Request) (w : ℕ)
  | inExecutor
  | executed (outcome : Outcome)
  | done (outcome : Outcome)
  deriving DecidableEq, Repr

/-- The trace of a file: a call takes the lock, a request is submitted, the kernel
carries one out, a call is handed a completion, a call returns. -/
inductive Ev where
  | locked (t : ℕ)
  | submitted (t : ℕ) (req : Request)
  | performed (req : Request) (res : ℤ)
  | got (t : ℕ) (req : Request) (gotUd : ℕ) (res : ℤ)
  | returned (t : ℕ) (outcome : Outcome)
  deriving DecidableEq, Repr

/-- The object, its file and its ring.  `uring` says that `_fd`, `_ring` and `_ua` are
set, and `fp` is the position of `_fp`.  `buf` holds the buffer of each request by tag,
`op` the arguments of each call, and the trace has its newest entry first. -/
structure State where
  file : List UInt8
  uring : Bool
  fp : Option ℕ
  pos : ℕ
  ud : ℕ
  closed : Bool
  lock : Option ℕ
  op : ℕ → Op
  task : ℕ → Task
  calls : ℕ
  ua : UringAsync.State (ℕ × ℤ)
  queued : List Request
  inflight : List Request
  buf : ℕ → List UInt8
  log : List Ev

/-- What happens next.  `submitRet` is what the native submit returns, where the step
gets to one, and `most` the largest number of bytes that the process can get at once. -/
inductive Event where
  | call (op : Op)
  | acquire (t : ℕ) (submitRet : ℤ)
  | complete (i : ℕ) (res : ℤ)
  | onReadable (waitRet : ℤ) (peeks : Option ℕ)
  | runJob (t most : ℕ)
  | resume (t : ℕ) (submitRet : ℤ)
  | cancel (t : ℕ)
  deriving DecidableEq, Repr

/-- What a call returns before it asks for the lock, if it does. -/
def Op.early (closed : Bool) : Op → Option Outcome
  | .read n =>
    if n < -1 then some (.error (.valueError "invalid read length"))
    else if closed then some (.error (.valueError "I/O operation on closed file"))
    else none
  | .write data =>
    if closed then some (.error (.valueError "I/O operation on closed file"))
    else if data = [] then some (.count 0)
    else none
  | .aclose => if closed then some .none else none

variable (flags : Flags)

/-- The kernel carries a request out with the result `res`: the file afterwards, and the
bytes it puts into the buffer.  A result is at most the length asked for, and a signed
32-bit number. -/
def Request.perform (res : ℤ) (file : List UInt8) (req : Request) :
    Option (List UInt8 × List UInt8) :=
  let f : CursorFile UInt8 := ⟨file, req.off, flags.append⟩
  if res < 0 then some (file, [])
  else match req.op with
    | .read len =>
      if flags.read ∧ res.toNat ≤ len ∧ res.toNat ≤ f.rest.length then
        some (file, (f.read res.toNat).1)
      else none
    | .write data =>
      if flags.write ∧ res.toNat ≤ data.length ∧ res < 2 ^ 31 then
        some ((f.write (data.take res.toNat)).content, [])
      else none

/-- `read` of a `builtins.open` file at position `p`: what it returns, and the position
afterwards.  It asks for `n` bytes of memory at once, whatever the file has left, and a
`bytes` object has `33` bytes more than its data. -/
def fpRead (most : ℕ) (file : List UInt8) (n : ℤ) (p : ℕ) : Outcome × ℕ :=
  if !flags.read then (.error .unsupportedOperation, p)
  else if 2 ^ 63 - 33 ≤ n then (.error .overflowError, p)
  else if most < n then (.error .memoryError, p)
  else
    let f : CursorFile UInt8 := ⟨file, p, flags.append⟩
    let r := if n < 0 then f.readAll else f.read n.toNat
    (.bytes r.1, r.2.cursor)

/-- `write` of a `builtins.open` file at position `p`: what it returns, and the file and
the position afterwards. -/
def fpWrite (file data : List UInt8) (p : ℕ) : Outcome × List UInt8 × ℕ :=
  if !flags.write then (.error .unsupportedOperation, file, p)
  else
    let f := (⟨file, p, flags.append⟩ : CursorFile UInt8).write data
    (.count data.length, f.content, f.cursor)

namespace State

/-- A call returns. -/
def ret (t : ℕ) (outcome : Outcome) (s : State) : State :=
  { s with
    task := Function.update s.task t (.done outcome)
    log := .returned t outcome :: s.log }

/-- A call that holds the lock returns. -/
def finish (t : ℕ) (outcome : Outcome) (s : State) : State := { s.ret t outcome with lock := none }

def setTask (t : ℕ) (task : Task) (s : State) : State :=
  { s with task := Function.update s.task t task }

/-- A call, up to where it asks for the lock. -/
def call (op : Op) (s : State) : State :=
  let t := s.calls
  let u := { s with calls := t + 1, op := Function.update s.op t op }
  match op.early s.closed with
  | some outcome => u.ret t outcome
  | none => u.setTask t .waitingLock

/-- Submit the next request of a call and wait for a completion.  An entry that could
not be submitted stays in the queue. -/
def submit (t : ℕ) (io : Io) (submitRet : ℤ) (s : State) : State :=
  let req : Request := ⟨s.ud, io.reqOp, s.pos⟩
  let s := { s with ud := s.ud + 1, buf := Function.update s.buf s.ud io.buffer }
  if 64 ≤ s.queued.length then s.finish t (.error (.uringError ⟨11, io.native, none⟩))
  else if submitRet < 0 then
    { s with queued := s.queued ++ [req] }.finish t
      (.error (.uringError ⟨-submitRet, io.native, none⟩))
  else
    let w := s.ua.calls
    let s := { s with
      queued := []
      inflight := s.inflight ++ (s.queued ++ [req])
      ua := s.ua.waitCompletion
      log := .submitted t req :: s.log }
    match s.ua.call w with
    | .raised exc => s.finish t (.error (.uringError exc))
    | _ => s.setTask t (.awaiting io req w)

/-- `_aclose_unlocked`. -/
def acloseUnlocked (t : ℕ) (s : State) : State :=
  if s.closed then s.finish t .none
  else
    let s := { s with closed := true }
    let s := if s.uring then
      { s with uring := false, ua := { s.ua.close with ctxOpen := false } } else s
    if s.fp.isSome then ({ s with fp := none } : State).setTask t .inExecutor
    else s.finish t .none

/-- A call goes on under the lock. -/
def locked (t : ℕ) (submitRet : ℤ) (s : State) : State :=
  match s.op t with
  | .read n =>
    if s.fp.isSome then s.setTask t .inExecutor
    else if !s.uring then s.finish t (.error .assertionError)
    else if n = 0 then s.finish t (.bytes [])
    else if n < 0 then s.submit t (.read (.untilEof [])) submitRet
    else s.submit t (.read (.upTo [] n.toNat)) submitRet
  | .write data =>
    if s.fp.isSome then s.setTask t .inExecutor
    else if !s.uring then s.finish t (.error .assertionError)
    else s.submit t (.write data) submitRet
  | .aclose => s.acloseUnlocked t

/-- A call takes the lock. -/
def acquire (t : ℕ) (submitRet : ℤ) (s : State) : Option State :=
  if s.task t = .waitingLock ∧ s.lock = none then
    some ({ s with lock := some t, log := .locked t :: s.log }.locked t submitRet)
  else none

/-- The kernel carries out the request at index `i` and posts its completion. -/
def complete (i : ℕ) (res : ℤ) (s : State) : Option State :=
  match s.inflight[i]? with
  | none => none
  | some req => (req.perform flags res s.file).map fun (file, data) => { s with
      inflight := s.inflight.eraseIdx i
      file := file
      buf := Function.update s.buf req.ud (data ++ (s.buf req.ud).drop data.length)
      ua := { s.ua with posted := s.ua.posted ++ [(req.ud, res)] }
      log := .performed req res :: s.log }

/-- The executor runs the job of a call. -/
def runJob (t most : ℕ) (s : State) : Option State :=
  match s.task t with
  | .inExecutor => match s.op t, s.fp with
    | .read n, some p =>
      let (outcome, p) := fpRead flags most s.file n p
      some ({ s with fp := some p }.setTask t (.executed outcome))
    | .write data, some p =>
      let (outcome, file, p) := fpWrite flags s.file data p
      some ({ s with file := file, fp := some p }.setTask t (.executed outcome))
    | .aclose, _ => some (s.setTask t (.executed .none))
    | _, none => none
  | _ => none

/-- A call has been handed a completion. -/
def onCompletion (t : ℕ) (io : Io) (req : Request) (gotUd : ℕ) (res submitRet : ℤ) (s : State) :
    State :=
  let s := { s with log := .got t req gotUd res :: s.log }
  if gotUd ≠ req.ud then
    s.finish t (.error (mismatch io req.ud gotUd))
  else if res < 0 then s.finish t (.error (.uringError ⟨-res, io.operation, none⟩))
  else
    let s := { s with pos := s.pos + res.toNat }
    match io with
    | .read loop => match loop.feed ((s.buf req.ud).take res.toNat) with
      | .inl loop => s.submit t (.read loop) submitRet
      | .inr out => s.finish t (.bytes out)
    | .write _ => s.finish t (.count res.toNat)

/-- The loop runs the task of a call. -/
def resume (t : ℕ) (submitRet : ℤ) (s : State) : Option State :=
  match s.task t with
  | .awaiting io req w => (s.ua.resume w).map fun ua =>
    let s := { s with ua := ua }
    match ua.call w with
    | .returned _ (gotUd, res) => s.onCompletion t io req gotUd res submitRet
    | .raised exc => s.finish t (.error (.uringError exc))
    | .cancelled => s.finish t (.error .cancelledError)
    | .awaiting _ _ => s
  | .executed outcome => some (s.finish t outcome)
  | _ => none

/-- `task.cancel()`, for a task that waits for the lock or for a completion. -/
def cancel (t : ℕ) (s : State) : Option State :=
  match s.task t with
  | .waitingLock => some (s.ret t (.error .cancelledError))
  | .awaiting _ _ w => (s.ua.cancel w).map fun ua => { s with ua := ua }
  | _ => none

/-- The calls that returned and how, in the order in which they did. -/
def returns (s : State) : List (ℕ × Outcome) :=
  (s.log.filterMap fun
    | .returned t outcome => some (t, outcome)
    | _ => none).reverse

/-- The calls that took the lock, in the order in which they did. -/
def lockOrder (s : State) : List ℕ :=
  (s.log.filterMap fun
    | .locked t => some t
    | _ => none).reverse

end State

/-- `__aenter__`, where the file can be opened.  `uring` says whether there is a ring. -/
def aenter (uring : Bool) (content : List UInt8) : State :=
  let file := if flags.trunc then [] else content
  let start := if flags.append then file.length else 0
  { file := file
    uring := uring
    fp := if uring then none else some start
    pos := if uring then start else 0
    ud := 1
    closed := false
    lock := none
    op := fun _ => .aclose
    task := fun _ => .notCalled
    calls := 0
    ua := .init
    queued := []
    inflight := []
    buf := fun _ => []
    log := [] }

def step (s : State) : Event → Option State
  | .call op => some (s.call op)
  | .acquire t submitRet => s.acquire t submitRet
  | .complete i res => s.complete flags i res
  | .onReadable waitRet peeks =>
    (UringAsync.step s.ua (.onReadable waitRet peeks)).map fun ua => { s with ua := ua }
  | .runJob t most => s.runJob flags t most
  | .resume t submitRet => s.resume t submitRet
  | .cancel t => s.cancel t

end AsyncFile
end Pyuring
