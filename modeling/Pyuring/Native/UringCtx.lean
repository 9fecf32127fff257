import Pyuring.Native.Request
import Pyuring.Native.SyncWrappers

/-!
# One ring and the calls made on it

A `UringCtx` is a native ring and a table of the buffers pinned for asynchronous
requests.  This file models every call that touches the ring: the synchronous
functions, which submit their own entries and wait; the asynchronous submissions,
which return at once; and `wait_completion` and `peek_completion`, which hand out
whatever completion is at the head of the queue.

One call runs at a time, and the kernel works whenever it likes: between the steps
of a running call and between calls.  A synchronous function is a `start` step, up to
its first wait, followed by steps that each reap what the function reaps before it
looks at the queue again.

Every submission entry carries the number of entries taken before it.  The program
never sees that number; it is there so that statements can say whose completion a
reaped one is.
-/

namespace Pyuring
namespace Native

def ETIME : Errno := ⟨62, by decide⟩

namespace UringCtx

/-- What a call prepares in a submission entry.  A buffer position is given relative
to the caller's buffer. -/
inductive SqeOp where
  | read (fd : ℤ) (dst len : ℕ) (off : ℤ)
  | write (fd : ℤ) (src len : ℕ) (off : ℤ)
  | timeout (sec nsec : ℤ)
  | timeoutRemove (target : UInt64)
  | other
  deriving DecidableEq, Repr

/-- The fields a call writes into an entry. -/
structure Prep where
  op : SqeOp
  userData : UInt64
  posts : Posts
  deriving DecidableEq, Repr

/-- A submission entry, with the number of entries taken before it, whether a
synchronous function took it, and the completions posted for it so far. -/
structure CtxSqe extends Prep where
  serial : ℕ
  sync : Bool
  posted : ℕ
  deriving DecidableEq, Repr

/-- The synchronous functions. -/
inductive SyncFn where
  | submitWaitOne (w : Wrapper)
  | readBatch (fd : ℤ) (blockSize blocks : UInt32) (offset : ℤ)
  | readOffsets (fd : ℤ) (blockSize : UInt32) (offsets : List ℤ)
  | linkReadWrite (fdIn : ℤ) (len : UInt32) (offIn fdOut offOut : ℤ)
  | timeoutArmRemovePair (sec nsec : ℤ) (timeoutUserData : UInt64)
  deriving DecidableEq, Repr

/-- How far a function that waits has got: the completions a batch still waits for,
the sum of its results and whether it is in `io_uring_wait_cqe`; and for the two
pairs, whether this is the second round of the loop. -/
inductive Reaping where
  | one
  | batch (remaining : ℕ) (total : ℤ) (waiting : Bool)
  | link (second : Bool)
  | pair (second : Bool)
  deriving DecidableEq, Repr

/-- A synchronous function that waits: the number of its first entry, and what it
reaped so far. -/
structure Running where
  fn : SyncFn
  fst : ℕ
  reaping : Reaping
  reaped : List (CtxSqe × ℤ)
  deriving DecidableEq, Repr

/-- What an asynchronous submission raises. -/
inductive SubmitError where
  | uringError (ret : ℤ)
  | overflowError
  | valueError
  deriving DecidableEq, Repr

/-- `UringError` asks for the text of its number, which `os.strerror` takes as a C `int`: for a
larger one that call raises. -/
def SubmitError.ofNegErrno (ret : ℤ) : SubmitError :=
  if -ret < 2 ^ 31 then .uringError ret else .overflowError

@[simp] theorem SubmitError.ofNegErrno_ne_valueError (ret : ℤ) : ofNegErrno ret ≠ .valueError := by
  unfold ofNegErrno
  split <;> simp

/-- The trace of the calls on a ring. -/
inductive Ev where
  | taken (q : CtxSqe)
  | posted (q : CtxSqe) (res : ℤ)
  | handed (q : CtxSqe) (userData : UInt64) (res : ℤ)
  | syncReturn (fn : SyncFn) (fst : ℕ) (reaped : List (CtxSqe × ℤ)) (value : ℤ)
  | asyncReturn (result : Except SubmitError ℤ)
  deriving DecidableEq

/-- The `entries` the ring was asked for, and the size of its submission queue.  Queue
initialisation refuses a ring of no entries and rounds their number up, but cuts it down for
`IORING_SETUP_CLAMP`, while the context goes by the number asked for. -/
structure Config where
  entries : ℕ
  sqEntries : ℕ
  entries_pos : 0 < entries
  sqEntries_pos : 0 < sqEntries

/-- The ring, the entries taken so far, the pinned buffers by tag, the synchronous
function that is waiting, and the trace (newest entry first). -/
structure State where
  ring : CompletionRing CtxSqe
  serial : ℕ
  asyncIoKeepalive : List (ℤ × ℕ)
  call : Option Running
  log : List Ev

/-- What happens next: the kernel posts a completion, a call starts, or the running
synchronous function goes on. -/
inductive Event where
  | complete (i : ℕ) (res : ℤ) (more : Bool)
  | sync (fn : SyncFn) (stale : Prep) (submitRet : ℤ)
  | peek
  | wait (waitRet : ℤ)
  | async (op : SqeOp) (posts : Posts) (userData : ℤ) (tracked : Bool) (submitRet : ℤ)
  | waitCompletion (waitRet : ℤ)
  | peekCompletion (peekRet : ℤ)
  deriving DecidableEq

variable (cfg : Config)

/-- The argument check of a synchronous function. -/
def SyncFn.valid : SyncFn → Bool
  | .submitWaitOne w => w.valid
  | .readBatch _ blockSize blocks _ =>
    blockSize != 0 && blocks != 0 && decide (blocks.toNat ≤ cfg.entries)
  | .readOffsets _ blockSize offsets =>
    blockSize != 0 && offsets.length != 0 && decide (offsets.length ≤ cfg.entries)
  | .linkReadWrite _ len _ _ _ => len != 0
  | .timeoutArmRemovePair _ _ _ => true

/-- The entry for block `i` of a batch. -/
def blockPrep (fd : ℤ) (blockSize : UInt32) (off : ℤ) (i : ℕ) : Prep :=
  ⟨.read fd (i * blockSize.toNat) blockSize.toNat off, UInt64.ofNat (i + 1), .one⟩

/-- The entries a synchronous function prepares, in order. -/
def SyncFn.preps : SyncFn → List Prep
  | .submitWaitOne w => [⟨.other, w.userData, w.posts⟩]
  | .readBatch fd blockSize blocks offset =>
    (List.range blocks.toNat).map fun i : ℕ => blockPrep fd blockSize (offset + i * blockSize.toNat) i
  | .readOffsets fd blockSize offsets =>
    offsets.mapIdx fun i off => blockPrep fd blockSize off i
  | .linkReadWrite fdIn len offIn fdOut offOut =>
    [⟨.read fdIn 0 len.toNat offIn, 301, .one⟩, ⟨.write fdOut 0 len.toNat offOut, 302, .one⟩]
  | .timeoutArmRemovePair sec nsec timeoutUserData =>
    [⟨.timeout sec nsec, timeoutUserData, .one⟩,
      ⟨.timeoutRemove timeoutUserData, timeoutUserData + 1, .one⟩]

/-- How a synchronous function waits once its entries are submitted. -/
def SyncFn.reaping : SyncFn → Reaping
  | .submitWaitOne _ => .one
  | .readBatch _ _ blocks _ => .batch blocks.toNat 0 false
  | .readOffsets _ _ offsets => .batch offsets.length 0 false
  | .linkReadWrite _ _ _ _ _ => .link false
  | .timeoutArmRemovePair _ _ _ => .pair false

/-- The number of completions a function still waits for. -/
def Reaping.left : Reaping → ℕ
  | .one => 1
  | .batch remaining _ _ => remaining
  | .link second => if second then 1 else 2
  | .pair second => if second then 1 else 2

/-- The sum of two numbers as an `int` of 32 bits, which wraps around. -/
def addInt (a b : ℤ) : ℤ := (a + b).bmod (2 ^ 32)

/-- What a function does with one completion: it goes on waiting, or returns. -/
def Reaping.feed : Reaping → CtxSqe × ℤ → Reaping ⊕ ℤ
  | .one, (_, res) => .inr res
  | .batch remaining total _, (_, res) =>
    if res < 0 then .inr res
    else if remaining ≤ 1 then .inr (addInt total res)
    else .inl (.batch (remaining - 1) (addInt total res) false)
  | .link second, (q, res) =>
    if res < 0 then .inr res
    else if second then .inr (if q.userData = 302 then res else EIO.neg)
    else .inl (.link true)
  | .pair second, (_, res) =>
    if res < 0 ∧ res ≠ ETIME.neg ∧ res ≠ ECANCELED.neg then .inr res
    else if second then .inr 0
    else .inl (.pair true)

namespace State

def init : State := ⟨.empty, 0, [], none, []⟩

/-- `io_uring_get_sqe`, and the entry filled in; `none` when the queue is full. -/
def take (sync : Bool) (p : Prep) (s : State) : Option State :=
  (s.ring.push cfg.sqEntries ⟨p, s.serial, sync, 0⟩).map fun ring => { s with
    ring := ring, serial := s.serial + 1, log := .taken ⟨p, s.serial, sync, 0⟩ :: s.log }

/-- Take one entry after the other, up to the first that is not to be had. -/
def takeAll : List Prep → State → Bool × State
  | [], s => (true, s)
  | p :: ps, s => match s.take cfg true p with
    | none => (false, s)
    | some s => takeAll ps s

/-- A synchronous function takes its entries.  The linked pair asks for both before it
prepares either, so that without room for two it leaves one that holds whatever was
in the queue's memory. -/
def takeEntries (fn : SyncFn) (stale : Prep) (s : State) : Bool × State :=
  match fn with
  | .linkReadWrite .. =>
    if s.ring.queued.length + 2 ≤ cfg.sqEntries then s.takeAll cfg fn.preps
    else (false, (s.takeAll cfg [stale]).2)
  | _ => s.takeAll cfg fn.preps

/-- A synchronous function returns. -/
def finish (fn : SyncFn) (fst : ℕ) (reaped : List (CtxSqe × ℤ)) (value : ℤ) (s : State) : State :=
  { s with call := none, log := .syncReturn fn fst reaped value :: s.log }

/-- A synchronous function, up to where it first looks at the completion queue. -/
def start (fn : SyncFn) (stale : Prep) (submitRet : ℤ) (s : State) : State :=
  if fn.valid cfg = false then s.finish fn s.serial [] EINVAL.neg
  else match s.takeEntries cfg fn stale with
    | (false, t) => t.finish fn s.serial [] EAGAIN.neg
    | (true, t) =>
      if submitRet < 0 then t.finish fn s.serial [] submitRet
      else { t with ring := t.ring.submit, call := some ⟨fn, s.serial, fn.reaping, []⟩ }

/-- The running function reaps the completion at the head of the queue. -/
def reapOne (r : Running) (c : CtxSqe × ℤ) (cs : List (CtxSqe × ℤ)) (s : State) : State :=
  let s := { s with ring := { s.ring with completed := cs } }
  match r.reaping.feed c with
  | .inl reaping => { s with call := some { r with reaping := reaping, reaped := r.reaped ++ [c] } }
  | .inr value => s.finish r.fn r.fst (r.reaped ++ [c]) value

/-- The running function goes through `n` completions, unless it returns before. -/
def drain : ℕ → State → State
  | 0, s => s
  | n + 1, s => match s.call, s.ring.completed with
    | some r, c :: cs => drain n (s.reapOne r c cs)
    | _, _ => s

/-- `io_uring_wait_cqe` of the running function, which has waited until there was a
completion, or failed. -/
def waitCqe (r : Running) (waitRet : ℤ) (s : State) : Option State :=
  if waitRet < 0 then some (s.finish r.fn r.fst r.reaped waitRet)
  else match s.ring.completed with
    | [] => none
    | c :: cs => some (s.reapOne r c cs)

/-- `io_uring_peek_batch_cqe` of a batch, for at most 256 completions, and the loop
over those it got; without any, the batch goes on to `io_uring_wait_cqe`. -/
def peekBatch (r : Running) (remaining : ℕ) (total : ℤ) (s : State) : State :=
  if s.ring.completed = [] then
    { s with call := some { r with reaping := .batch remaining total true } }
  else s.drain (min (min remaining 256) s.ring.completed.length)

/-- `_raise_for_neg_errno`. -/
def raiseForNegErrno (ret : ℤ) : Except SubmitError ℤ :=
  if ret < 0 then .error (.ofNegErrno ret) else .ok ret

/-- `_track_async_io_buffer`. -/
def trackAsyncIoBuffer (userData : ℤ) (serial : ℕ) (s : State) : Except SubmitError State :=
  if (s.asyncIoKeepalive.lookup userData).isSome then .error .valueError
  else .ok { s with asyncIoKeepalive := (userData, serial) :: s.asyncIoKeepalive }

/-- `_completion_release_async_io_buffer`. -/
def completionReleaseAsyncIoBuffer (userData : ℤ) (s : State) : State :=
  { s with asyncIoKeepalive := s.asyncIoKeepalive.filter fun p => p.1 ≠ userData }

def asyncReturn (result : Except SubmitError ℤ) (s : State) : State :=
  { s with log := .asyncReturn result :: s.log }

/-- An asynchronous submission: `read_async` and `write_async` track the buffer, their
pointer forms and `splice_submit` do not.  The native function returns the tag as a
signed number, and the tag is looked up only after the request was submitted. -/
def submitAsync (op : SqeOp) (posts : Posts) (userData : ℤ) (tracked : Bool) (submitRet : ℤ)
    (s : State) : State :=
  match s.take cfg false ⟨op, UInt64.ofInt userData, posts⟩ with
  | none => s.asyncReturn (raiseForNegErrno EAGAIN.neg)
  | some t =>
    if submitRet < 0 then t.asyncReturn (raiseForNegErrno submitRet)
    else
      let t := { t with ring := t.ring.submit }
      match raiseForNegErrno (UInt64.ofInt userData).toInt64.toInt with
      | .error e => t.asyncReturn (.error e)
      | .ok ret =>
        if tracked then match t.trackAsyncIoBuffer userData s.serial with
          | .error e => t.asyncReturn (.error e)
          | .ok t => t.asyncReturn (.ok ret)
        else t.asyncReturn (.ok ret)

/-- Hand out the completion at the head of the queue. -/
def hand (c : CtxSqe × ℤ) (cs : List (CtxSqe × ℤ)) (s : State) : State :=
  { s with
    ring := { s.ring with completed := cs }
    log := .handed c.1 c.1.userData c.2 :: s.log }.completionReleaseAsyncIoBuffer
      c.1.userData.toNat

/-- `wait_completion`, which has waited until there was a completion, or raises. -/
def waitCompletion (waitRet : ℤ) (s : State) : Option State :=
  if waitRet < 0 then some s
  else match s.ring.completed with
    | [] => none
    | c :: cs => some (s.hand c cs)

/-- `peek_completion`, which returns `None` when there is no completion. -/
def peekCompletion (peekRet : ℤ) (s : State) : State :=
  if peekRet < 0 then s
  else match s.ring.completed with
    | [] => s
    | c :: cs => s.hand c cs

/-- The kernel posts a completion of the request at index `i`. -/
def complete (i : ℕ) (res : ℤ) (more : Bool) (s : State) : Option State :=
  match s.ring.outstanding[i]? with
  | none => none
  | some q =>
    if q.posts.allows q.posted more then
      (if more then s.ring.post i res fun q => { q with posted := q.posted + 1 }
        else s.ring.complete i res).map fun (q, ring) =>
          { s with ring := ring, log := .posted q res :: s.log }
    else none

end State

/-- A state is between two calls, or in the middle of a synchronous one; `peek` and
`wait` are steps of the latter, and a batch is at one of the two. -/
def step (s : State) : Event → Option State
  | .complete i res more => s.complete i res more
  | .sync fn stale submitRet =>
    if s.call = none then some (s.start cfg fn stale submitRet) else none
  | .async op posts userData tracked submitRet =>
    if s.call = none then some (s.submitAsync cfg op posts userData tracked submitRet) else none
  | .waitCompletion waitRet => if s.call = none then s.waitCompletion waitRet else none
  | .peekCompletion peekRet => if s.call = none then some (s.peekCompletion peekRet) else none
  | .peek => match s.call with
    | some r => match r.reaping with
      | .batch remaining total false => some (s.peekBatch r remaining total)
      | _ => none
    | none => none
  | .wait waitRet => match s.call with
    | some r => match r.reaping with
      | .batch _ _ false => none
      | _ => s.waitCqe r waitRet
    | none => none

end UringCtx
end Native
end Pyuring
