import Mathlib.Data.Int.Notation
import Mathlib.Data.Nat.Notation

/-!
# The synchronous wrappers

Most of `uring_wrap.c` consists of functions of one shape: check the arguments,
take one submission entry, prepare it with the function's own operation and tag,
and hand over to `uring_submit_wait_one`, which submits, waits for one completion
and returns its result.  What tells two such functions apart on the ring is the
argument check, the tag, and how many completions the kernel posts for the
operation; a `Wrapper` is these three.

An argument check is given by what it reads: whether a pointer is there, and the
counts it compares.  The context pointer is not among them, the Python layer never
passes a null one.
-/

namespace Pyuring
namespace Native

/-- How the kernel completes an operation. -/
inductive Posts where
  /-- One completion. -/
  | one
  /-- A completion with the result, then one that releases the buffer. -/
  | resultThenNotification
  /-- One completion, and one more when the message goes to the ring it is sent from. -/
  | message
  /-- Any number of completions, of which the last one ends the operation. -/
  | multishot
  deriving DecidableEq, Repr

/-- Whether the kernel may post a completion after `posted` earlier ones of the same
request; `more` says that the request goes on after it. -/
def Posts.allows : Posts → ℕ → Bool → Bool
  | .one, _, more => !more
  | .resultThenNotification, posted, more => more == (posted == 0)
  | .message, posted, more => posted == 0 || !more
  | .multishot, _, _ => true

/-- A synchronous function with one submission entry: the outcome of its argument
check, the tag it writes and how its operation completes. -/
structure Wrapper where
  valid : Bool
  userData : UInt64
  posts : Posts
  deriving DecidableEq, Repr

def oneShot (valid : Bool) (userData : UInt64) : Wrapper := ⟨valid, userData, .one⟩

def zeroCopy (valid : Bool) (userData : UInt64) : Wrapper :=
  ⟨valid, userData, .resultThenNotification⟩

def message (valid : Bool) (userData : UInt64) : Wrapper := ⟨valid, userData, .message⟩

def multishot (valid : Bool) (userData : UInt64) : Wrapper := ⟨valid, userData, .multishot⟩

/-! ## Files and buffers -/

def readFixedSync : Wrapper := oneShot true 3

def writeFixedSync : Wrapper := oneShot true 4

def readSync : Wrapper := oneShot true 1

def writeSync : Wrapper := oneShot true 2

def nopSync : Wrapper := oneShot true 199

def readvSync (iov : Bool) (iovcnt : ℕ) : Wrapper := oneShot (iov && iovcnt != 0) 200

def writevSync (iov : Bool) (iovcnt : ℕ) : Wrapper := oneShot (iov && iovcnt != 0) 201

def openatSync (path : Bool) : Wrapper := oneShot path 202

def closeSync : Wrapper := oneShot true 203

def fsyncSync : Wrapper := oneShot true 204

def fallocateSync : Wrapper := oneShot true 205

def statxSync (path statxbuf : Bool) : Wrapper := oneShot (path && statxbuf) 206

def renameatSync (oldpath newpath : Bool) : Wrapper := oneShot (oldpath && newpath) 207

def unlinkatSync (path : Bool) : Wrapper := oneShot path 208

def mkdiratSync (path : Bool) : Wrapper := oneShot path 209

/-! ## Sockets and data movement -/

def sendSync (buf : Bool) (len : ℕ) : Wrapper := oneShot (buf || len == 0) 210

def recvSync (buf : Bool) (len : ℕ) : Wrapper := oneShot (buf || len == 0) 211

def acceptSync (addrlen : Bool) : Wrapper := oneShot addrlen 212

def connectSync (addr : Bool) : Wrapper := oneShot addr 213

def shutdownSync : Wrapper := oneShot true 214

def spliceSync : Wrapper := oneShot true 215

def teeSync : Wrapper := oneShot true 228

def pollAddSync (userData : UInt64) : Wrapper := oneShot true userData

def pollRemoveSync : Wrapper := oneShot true 229

/-! ## File system, memory and descriptors -/

def symlinkatSync (target linkpath : Bool) : Wrapper := oneShot (target && linkpath) 230

def linkatSync (oldpath newpath : Bool) : Wrapper := oneShot (oldpath && newpath) 231

def syncFileRangeSync : Wrapper := oneShot true 232

def fadviseSync : Wrapper := oneShot true 233

def madviseSync (addr : Bool) (length : ℕ) : Wrapper := oneShot (addr && length != 0) 234

def asyncCancelFdSync : Wrapper := oneShot true 235

def sendmsgIovSync (iov : Bool) (iovcnt : ℕ) : Wrapper := oneShot (iov && iovcnt != 0) 236

def recvmsgIovSync (iov : Bool) (iovcnt : ℕ) : Wrapper := oneShot (iov && iovcnt != 0) 237

def socketSync : Wrapper := oneShot true 238

def pipeSync (fds : Bool) : Wrapper := oneShot fds 239

def bindSync (addr : Bool) : Wrapper := oneShot addr 240

def listenSync : Wrapper := oneShot true 241

def openat2Sync (path how : Bool) : Wrapper := oneShot (path && how) 242

def linkTimeoutSync (ts : Bool) : Wrapper := oneShot ts 243

def getxattrSync (name value path : Bool) : Wrapper := oneShot (name && value && path) 244

def setxattrSync (name value path : Bool) : Wrapper := oneShot (name && value && path) 245

def fgetxattrSync (name value : Bool) : Wrapper := oneShot (name && value) 246

def fsetxattrSync (name value : Bool) : Wrapper := oneShot (name && value) 247

def epollCtlSync : Wrapper := oneShot true 248

def provideBuffersSync (addr : Bool) (len nr : ℤ) : Wrapper :=
  oneShot (addr && decide (0 < len) && decide (0 < nr)) 249

def removeBuffersSync (nr : ℤ) : Wrapper := oneShot (decide (0 < nr)) 250

def msgRingSync : Wrapper := message true 251

def ftruncateSync : Wrapper := oneShot true 252

/-! ## Updates, zero-copy and multishot operations -/

def nop128Sync : Wrapper := oneShot true 260

def pollUpdateSync : Wrapper := oneShot true 261

def timeoutUpdateSync (ts : Bool) : Wrapper := oneShot ts 262

def recvMultishotSync (buf : Bool) (len : ℕ) : Wrapper := multishot (buf || len == 0) 263

def sendZcSync (buf : Bool) (len : ℕ) : Wrapper := zeroCopy (buf || len == 0) 264

def sendZcFixedSync (buf : Bool) (len : ℕ) : Wrapper := zeroCopy (buf || len == 0) 265

def sendmsgZcIovSync (iov : Bool) (iovcnt : ℕ) : Wrapper := zeroCopy (iov && iovcnt != 0) 266

def sendmsgZcFixedIovSync (iov : Bool) (iovcnt : ℕ) : Wrapper := zeroCopy (iov && iovcnt != 0) 267

def recvZcSync : Wrapper := multishot true 268

def recvmsgMultishotIovSync (iov : Bool) (iovcnt : ℕ) : Wrapper :=
  multishot (iov && iovcnt != 0) 269

/-! ## Waiting, commands and direct descriptors -/

def epollWaitSync (events : Bool) (maxevents : ℤ) : Wrapper :=
  oneShot (events && decide (0 < maxevents)) 270

def waitidSync : Wrapper := oneShot true 271

def futexWakeSync (futex : Bool) : Wrapper := oneShot futex 272

def futexWaitSync (futex : Bool) : Wrapper := oneShot futex 273

def futexWaitvSync (futex : Bool) (nrFutex : ℕ) : Wrapper := oneShot (futex && nrFutex != 0) 274

def uringCmdSync : Wrapper := oneShot true 275

def uringCmd128Sync : Wrapper := oneShot true 276

def cmdSockSync : Wrapper := oneShot true 277

def cmdGetsocknameSync (addr addrlen : Bool) : Wrapper := oneShot (addr && addrlen) 278

def fixedFdInstallSync : Wrapper := oneShot true 279

def socketDirectSync : Wrapper := oneShot true 280

def socketDirectAllocSync : Wrapper := oneShot true 281

def pipeDirectSync (fds : Bool) : Wrapper := oneShot fds 282

def msgRingFdSync : Wrapper := oneShot true 283

def msgRingFdAllocSync : Wrapper := oneShot true 284

def msgRingCqeFlagsSync : Wrapper := message true 285

def filesUpdateSync (fds : Bool) (nrFds : ℕ) : Wrapper := oneShot (fds || nrFds == 0) 286

/-! ## Bundles, fixed vectors and timeouts -/

def sendBundleSync : Wrapper := multishot true 287

def readvFixedSync (iov : Bool) (iovcnt : ℕ) : Wrapper := oneShot (iov && iovcnt != 0) 288

def writevFixedSync (iov : Bool) (iovcnt : ℕ) : Wrapper := oneShot (iov && iovcnt != 0) 289

def sendtoSync (buf : Bool) (len : ℕ) : Wrapper := oneShot (buf || len == 0) 290

/-- `IORING_TIMEOUT_MULTISHOT`. -/
def timeoutMultishot : UInt32 := 64

def timeoutSync (ts : Bool) (timeoutFlags : UInt32) (userData : UInt64) : Wrapper :=
  if timeoutFlags &&& timeoutMultishot = 0 then oneShot ts userData else multishot ts userData

def timeoutRemoveSync : Wrapper := oneShot true 216

def asyncCancelSync : Wrapper := oneShot true 217

end Native
end Pyuring
