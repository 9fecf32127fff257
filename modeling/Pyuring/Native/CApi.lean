import Pyuring.Native.CopyPath
import Pyuring.Native.WriteNewfile
import Pyuring.Native.WriteManyfiles

/-!
# Calling the pipelines from Python

The functions of `c_api.py` turn Python arguments into the arguments of a native
call.  Numbers go through `c_uint`, which keeps the low 32 bits of any integer, and
callbacks are wrapped: a size callback that raises an `Exception` stands for the default
size, a progress callback that raises one asks to abort.  The wrappers let every other
exception pass (`KeyboardInterrupt`, `SystemExit`); `ctypes` reports it and drops it, and
the native loop gets zero.

What the outside world adds to a call (the source's bytes, the room of the submission
queue, how the set-up goes) is a parameter, so that each function returns the
configuration of a run.
-/

namespace Pyuring
namespace Native

/-- `c_uint(z)`. -/
def cUint (z : ℤ) : ℕ := (z % 2 ^ 32).toNat

theorem cUint_lt (z : ℤ) : cUint z < 2 ^ 32 := by
  unfold cUint
  omega

/-- What a callback raises: an `Exception`, or one of the exceptions beside that class. -/
inductive Raised where
  | exception
  | baseException
  deriving DecidableEq, Repr

/-- A Python size callback, which may depend on the number of earlier calls. -/
abbrev PyBufferSizeCb : Type := ℕ → ℕ → ℕ → ℕ → Except Raised ℤ

/-- A Python progress callback. -/
abbrev PyProgressCb : Type := ℕ → ℕ → ℕ → Except Raised Bool

/-- `_callback_wrapper`. -/
def callbackWrapper (cb : PyBufferSizeCb) : BufferSizeCb := fun n off total default =>
  match cb n off total default with
  | .ok size => UInt32.ofInt size
  | .error .exception => UInt32.ofInt default
  | .error .baseException => 0

/-- `_progress_wrapper`. -/
def progressWrapper (cb : PyProgressCb) : ProgressCb := fun n done total =>
  match cb n done total with
  | .ok stop => stop
  | .error .exception => true
  | .error .baseException => false

/-- What a copy finds. -/
structure CopyWorld where
  src : List UInt8
  sqEntries : ℕ
  setup : CopyPath.Setup

structure NewfileWorld where
  sqEntries : ℕ
  setup : WriteNewfile.Setup

structure ManyfilesWorld where
  sqEntries : ℕ
  setup : WriteManyfiles.Setup

/-- The arguments of `uring_copy_path_dynamic`. -/
def uringCopyPathDynamic (w : CopyWorld) (qd blockSize : ℤ) (bufferSizeCb : Option BufferSizeCb)
    (doFsync : Bool) (progressCb : Option ProgressCb) : CopyPath.Config :=
  ⟨w.src, cUint qd, cUint blockSize, bufferSizeCb, doFsync, progressCb, w.sqEntries, w.setup,
    cUint_lt qd, cUint_lt blockSize⟩

/-- `uring_copy_path` asks for no `fsync`. -/
def uringCopyPath (w : CopyWorld) (qd blockSize : ℤ) : CopyPath.Config :=
  uringCopyPathDynamic w qd blockSize none false none

/-- The arguments of `uring_write_newfile_dynamic`. -/
def uringWriteNewfileDynamic (w : NewfileWorld) (totalMb blockSize qd : ℤ)
    (doFsync dsyncEachWrite : Bool) (bufferSizeCb : Option BufferSizeCb)
    (progressCb : Option ProgressCb) : WriteNewfile.Config :=
  ⟨cUint totalMb, cUint blockSize, cUint qd, doFsync, dsyncEachWrite, bufferSizeCb, progressCb,
    w.sqEntries, w.setup, cUint_lt totalMb, cUint_lt blockSize, cUint_lt qd⟩

def uringWriteNewfile (w : NewfileWorld) (totalMb blockSize qd : ℤ)
    (doFsync dsyncEachWrite : Bool) : WriteNewfile.Config :=
  uringWriteNewfileDynamic w totalMb blockSize qd doFsync dsyncEachWrite none none

/-- The arguments of `uring_write_manyfiles`. -/
def uringWriteManyfiles (w : ManyfilesWorld) (dirPath : String)
    (nfiles mbPerFile blockSize qd : ℤ) (doFsyncEnd : Bool) : WriteManyfiles.Config :=
  ⟨dirPath, cUint nfiles, cUint mbPerFile, cUint blockSize, cUint qd, doFsyncEnd, w.sqEntries,
    w.setup, cUint_lt nfiles, cUint_lt mbPerFile, cUint_lt blockSize, cUint_lt qd⟩

/-! ## The Python functions -/

def copyPath (w : CopyWorld) (qd blockSize : ℤ) : CopyPath.Config :=
  uringCopyPath w qd blockSize

def copyPathDynamic (w : CopyWorld) (qd blockSize : ℤ) (bufferSizeCb : Option PyBufferSizeCb)
    (fsync : Bool) (progressCb : Option PyProgressCb) : CopyPath.Config :=
  uringCopyPathDynamic w qd blockSize (bufferSizeCb.map callbackWrapper) fsync
    (progressCb.map progressWrapper)

def writeNewfile (w : NewfileWorld) (totalMb blockSize qd : ℤ) (fsync dsync : Bool) :
    WriteNewfile.Config :=
  uringWriteNewfile w totalMb blockSize qd fsync dsync

def writeNewfileDynamic (w : NewfileWorld) (totalMb blockSize qd : ℤ) (fsync dsync : Bool)
    (bufferSizeCb : Option PyBufferSizeCb) (progressCb : Option PyProgressCb) :
    WriteNewfile.Config :=
  uringWriteNewfileDynamic w totalMb blockSize qd fsync dsync (bufferSizeCb.map callbackWrapper)
    (progressCb.map progressWrapper)

def writeManyfiles (w : ManyfilesWorld) (dirPath : String) (nfiles mbPerFile blockSize qd : ℤ)
    (fsyncEnd : Bool) : WriteManyfiles.Config :=
  uringWriteManyfiles w dirPath nfiles mbPerFile blockSize qd fsyncEnd

end Native
end Pyuring
