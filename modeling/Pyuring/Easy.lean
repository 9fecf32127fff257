import Pyuring.Lib.Rounding
import Pyuring.Native.CApi

/-!
# The high-level helpers

`copy`, `write` and `write_many` of `_easy.py`: check the mode, adjust queue depth and
block size to it, work out what to sync, and choose the native call.  Each returns
the configuration of the run it starts, or raises `ValueError`.
-/

namespace Pyuring
namespace Easy

open Native

structure ValueError where
  message : String
  deriving DecidableEq, Repr

inductive Mode where
  | safe
  | fast
  | auto
  deriving DecidableEq, Repr

inductive CopySyncPolicy where
  | default
  | none
  | atEnd
  deriving DecidableEq, Repr

inductive WriteSyncPolicy where
  | default
  | none
  | atEnd
  | data
  | endAndData
  deriving DecidableEq, Repr

/-- `_validate_mode`. -/
def validateMode : String → Except ValueError Mode
  | "safe" => .ok .safe
  | "fast" => .ok .fast
  | "auto" => .ok .auto
  | _ => .error ⟨"mode must be one of: 'safe', 'fast', 'auto'"⟩

/-- The policies `_copy_fsync` knows. -/
def CopySyncPolicy.parse : String → Except ValueError CopySyncPolicy
  | "default" => .ok .default
  | "none" => .ok .none
  | "end" => .ok .atEnd
  | _ => .error ⟨"sync_policy must be 'default', 'none', or 'end'"⟩

/-- The policies `_write_fsync_dsync` knows. -/
def WriteSyncPolicy.parse : String → Except ValueError WriteSyncPolicy
  | "default" => .ok .default
  | "none" => .ok .none
  | "end" => .ok .atEnd
  | "data" => .ok .data
  | "end_and_data" => .ok .endAndData
  | _ => .error ⟨"sync_policy must be 'default', 'none', 'end', 'data', or 'end_and_data'"⟩

/-- The quotient of two Python integers: the nearest double. -/
def trueDiv (a b : ℕ) : ℚ := Rounding.nearest 53 (a / b)

/-- `_adaptive_buffer_size`. -/
def adaptiveBufferSize : PyBufferSizeCb := fun _ offset total default =>
  if total = 0 then .ok default
  else
    let progress := trueDiv offset total
    if progress < 1 / 4 then .ok default
    else if progress < 1 / 2 then .ok (default * 2)
    else if progress < 3 / 4 then .ok (default * 4)
    else .ok (default * 8)

/-- `_fixed_block_cb`. -/
def fixedBlockCb (block : ℤ) : PyBufferSizeCb := fun _ _ _ _ => .ok block

/-- `_resolve_copy_tuning`. -/
def resolveCopyTuning : Mode → ℤ → ℤ → ℤ × ℤ
  | .safe, qd, blockSize => (min qd 16, min blockSize (2 ^ 20))
  | .fast, qd, blockSize => (max qd 64, max blockSize (2 ^ 20))
  | .auto, qd, blockSize => (qd, blockSize)

/-- `_resolve_write_tuning`. -/
def resolveWriteTuning : Mode → ℤ → ℤ → ℤ × ℤ
  | .safe, qd, blockSize => (min qd 128, min blockSize 4096)
  | .fast, qd, blockSize => (max qd 256, max blockSize (2 ^ 16))
  | .auto, qd, blockSize => (qd, blockSize)

/-- `_copy_fsync`. -/
def copyFsync : CopySyncPolicy → Bool → Bool
  | .default, fsync => fsync
  | .none, _ => false
  | .atEnd, _ => true

/-- `_write_fsync_dsync`. -/
def writeFsyncDsync : WriteSyncPolicy → Bool → Bool → Bool × Bool
  | .default, fsync, dsync => (fsync, dsync)
  | .none, _, _ => (false, false)
  | .atEnd, _, _ => (true, false)
  | .data, _, _ => (false, true)
  | .endAndData, _, _ => (true, true)

def copy (w : CopyWorld) (mode : String) (qd blockSize : ℤ) (fsync : Bool) (syncPolicy : String)
    (bufferSizeCb : Option PyBufferSizeCb) (progressCb : Option PyProgressCb) :
    Except ValueError CopyPath.Config := do
  let mode ← validateMode mode
  let (tunedQd, tunedBlock) := resolveCopyTuning mode qd blockSize
  let policy ← CopySyncPolicy.parse syncPolicy
  let fsyncEff := copyFsync policy fsync
  if mode = .auto then
    return copyPathDynamic w tunedQd tunedBlock (some (bufferSizeCb.getD adaptiveBufferSize))
      fsyncEff progressCb
  if progressCb.isSome ∨ policy ≠ .default ∨ bufferSizeCb.isSome then
    return copyPathDynamic w tunedQd tunedBlock
      (some (bufferSizeCb.getD (fixedBlockCb tunedBlock))) fsyncEff progressCb
  return copyPath w tunedQd tunedBlock

def write (w : NewfileWorld) (totalMb : ℤ) (mode : String) (qd blockSize : ℤ)
    (fsync dsync : Bool) (syncPolicy : String) (bufferSizeCb : Option PyBufferSizeCb)
    (progressCb : Option PyProgressCb) : Except ValueError WriteNewfile.Config := do
  let mode ← validateMode mode
  let (tunedQd, tunedBlock) := resolveWriteTuning mode qd blockSize
  let policy ← WriteSyncPolicy.parse syncPolicy
  let (fsyncEff, dsyncEff) := writeFsyncDsync policy fsync dsync
  if mode = .auto then
    return writeNewfileDynamic w totalMb tunedBlock tunedQd fsyncEff dsyncEff
      (some (bufferSizeCb.getD adaptiveBufferSize)) progressCb
  if progressCb.isSome ∨ policy ≠ .default ∨ bufferSizeCb.isSome then
    return writeNewfileDynamic w totalMb tunedBlock tunedQd fsyncEff dsyncEff
      (some (bufferSizeCb.getD (fixedBlockCb tunedBlock))) progressCb
  return writeNewfile w totalMb tunedBlock tunedQd fsyncEff dsyncEff

def writeMany (w : ManyfilesWorld) (dirPath : String) (nfiles mbPerFile : ℤ) (mode : String)
    (qd blockSize : ℤ) (fsyncEnd : Bool) (syncPolicy : String) :
    Except ValueError WriteManyfiles.Config := do
  let mode ← validateMode mode
  let (tunedQd, tunedBlock) := resolveWriteTuning mode qd blockSize
  let policy ← CopySyncPolicy.parse syncPolicy
  let fsyncEff := copyFsync policy fsyncEnd
  return writeManyfiles w dirPath nfiles mbPerFile tunedBlock tunedQd fsyncEff

end Easy
end Pyuring
