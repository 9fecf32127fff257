import Pyuring.Native.AsyncSession
import Pyuring.Native.BufferPool

/-!
# A read into a slot of the buffer pool

The documented way to read into a slot: `get_ptr`, `read_async` with what it returns,
`wait_completion`, and `get`.  `get_ptr` and `get` take the size that is in use, and `read_async`
asks for as many bytes as it is given, so a slot that was never sized gets none: the size of a new
slot is zero, and the block behind it is not looked at.
-/

namespace Pyuring
namespace Native
namespace BufferPool

open UringCtx AsyncSession CompletionRing

/-- `read_async` with a tuple, which is `read_async_ptr`, at the default offset and tag. -/
def readAsync (fd : ℤ) (buf : ℕ × ℕ) : Submission := .readAsyncPtr fd buf.2 0 0

/-- The bytes that a read from a regular file moves: all it asks for, up to the end. -/
def transfer (file : List UInt8) (q : CtxSqe) : List UInt8 :=
  match q.op with
  | .read _ _ len off => (file.drop off.toNat).take len
  | _ => []

/-- The result of the completion handed out last. -/
def lastResult : List UringCtx.Ev → Option ℤ
  | .handed _ _ res :: _ => some res
  | _ => none

/-- What the calls give: the result of the completion, the pool, and the bytes that `get`
returns. -/
structure Outcome where
  result : ℤ
  pool : Handle
  data : List UInt8

/-- A read of a file through a slot, on a ring on which nothing else goes on. -/
def readSlot (cfg : Config) (fd : ℤ) (file : List UInt8) (index : ℤ) (h : Handle) :
    Option Outcome := do
  let (ptr, size) ← (h.getPtr index).toOption
  let s ← AsyncSession.step cfg init (.submit (readAsync fd (ptr, size)) 1)
  let q ← s.ctx.ring.outstanding[0]?
  let bytes := transfer file q
  let s ← AsyncSession.step cfg s (.complete 0 bytes.length false)
  let s ← AsyncSession.step cfg s (.waitCompletion 0)
  let result ← lastResult s.ctx.log
  let h := h.store ptr 0 bytes
  let data ← (h.get index).toOption
  some ⟨result, h, data⟩

/-- What the documentation promises for a slot of `n` bytes. -/
def Delivers (cfg : Config) (fd : ℤ) (file : List UInt8) (n : ℕ) (index : ℤ) (h : Handle) : Prop :=
  ∃ o, readSlot cfg fd file index h = some o ∧ o.result = min n file.length ∧
    (o.pool.memory (cUint index)).take (min n file.length) = file.take n ∧ o.data = file.take n

variable {cfg : Config} {h : Handle} {pool : Pool}

/-- The entry of the read. -/
def readEntry (fd : ℤ) (size : ℕ) : CtxSqe := ⟨⟨.read fd 0 size 0, 0, .one⟩, 0, false, 0⟩

/-- The session in which the read is outstanding. -/
def submitted (fd : ℤ) (size : ℕ) : Session where
  ctx := {
    ring := ⟨[], [readEntry fd size], []⟩
    serial := 1
    asyncIoKeepalive := []
    call := none
    log := [.asyncReturn (.ok 0), .taken (readEntry fd size)] }
  requests := [⟨0, 0, false⟩]
  life := .opened

theorem step_submit (cfg : Config) (fd : ℤ) (ptr size : ℕ) :
    AsyncSession.step cfg init (.submit (readAsync fd (ptr, size)) 1) =
      some (submitted fd size) := by
  have hroom : 0 < cfg.sqEntries := cfg.sqEntries_pos
  have htag : State.raiseForNegErrno (UInt64.ofInt 0).toInt64.toInt = .ok 0 := rfl
  have hpush : CompletionRing.empty.push cfg.sqEntries (readEntry fd size) =
      some ⟨[readEntry fd size], [], []⟩ := if_pos hroom
  have htake : State.init.take cfg false ⟨.read fd 0 size 0, UInt64.ofInt 0, .one⟩ =
      some ⟨⟨[readEntry fd size], [], []⟩, 1, [], none, [.taken (readEntry fd size)]⟩ :=
    congrArg (Option.map _) hpush
  have hsub : State.init.submitAsync cfg (.read fd 0 size 0) .one 0 false 1 =
      (submitted fd size).ctx := by
    simp only [State.submitAsync, htake]
    rfl
  have hrequest : init.request cfg (readAsync fd (ptr, size)) = [⟨0, 0, false⟩] := if_pos hroom
  have hcall : init.call cfg ((readAsync fd (ptr, size)).event 1) =
      some { init with ctx := (submitted fd size).ctx } := by
    rw [← hsub]
    rfl
  simp only [AsyncSession.step, hcall, hrequest]
  rfl

/-- The read is answered and reaped. -/
theorem step_reap (cfg : Config) (fd : ℤ) (size : ℕ) (res : ℤ) : ∃ s t,
    AsyncSession.step cfg (submitted fd size) (.complete 0 res false) = some s ∧
      AsyncSession.step cfg s (.waitCompletion 0) = some t ∧ lastResult t.ctx.log = some res :=
  ⟨_, _, rfl, rfl, rfl⟩

theorem store_eq (hpool : h.pool = some pool) {i : ℕ} (hi : i < pool.count) {bytes : List UInt8}
    (hlen : bytes.length ≤ (pool.slots i).capacity) :
    h.store i 0 bytes = ⟨some (pool.setSlot i { pool.slots i with
      buffer := bytes ++ (pool.slots i).buffer.drop bytes.length })⟩ := by
  simp only [Handle.store, hpool, Nat.zero_add, hi, hlen, and_self, if_true, List.take_zero,
    List.nil_append]

theorem lookup_eq (hpool : h.pool = some pool) {index : ℤ} (hi : cUint index < pool.count) :
    h.lookup index = .ok (cUint index, (pool.slots (cUint index)).size) := by
  simp only [Handle.lookup, Handle.poolLive, hpool, uringBufferPoolGet, Nat.not_le.mpr hi,
    if_false]

theorem get_eq (hpool : h.pool = some pool) {index : ℤ} (hi : cUint index < pool.count) :
    h.get index =
      Handle.stringAt (pool.slots (cUint index)).buffer (pool.slots (cUint index)).size := by
  simp only [Handle.get, lookup_eq hpool hi, Handle.memory, hpool]

/-- **A read through a slot** moves as many bytes as the slot has in use, or as there are, and
`get` returns the bytes in use: those, and what the slot held behind them. -/
theorem readSlot_eq (cfg : Config) (hpool : h.pool = some pool) {index : ℤ}
    (hi : cUint index < pool.count)
    (hfits : (pool.slots (cUint index)).Fits pool.maxCapacity)
    (hsmall : (pool.slots (cUint index)).size < 2 ^ 31) (fd : ℤ) (file : List UInt8) :
    let slot := pool.slots (cUint index)
    let bytes := file.take slot.size
    readSlot cfg fd file index h = some ⟨bytes.length, h.store (cUint index) 0 bytes,
      (bytes ++ slot.buffer.drop bytes.length).take slot.size⟩ := by
  intro slot bytes
  have hlen : bytes.length ≤ slot.capacity :=
    Nat.le_trans (List.length_take_le _ _) hfits.size
  have htransfer : transfer file (readEntry fd slot.size) = bytes := by
    simp [transfer, readEntry, bytes]
  obtain ⟨s, t, hs, ht, hres⟩ := step_reap cfg fd slot.size bytes.length
  have hstored := store_eq hpool hi hlen
  have hget : ((h.store (cUint index) 0 bytes).get index).toOption =
      some ((bytes ++ slot.buffer.drop bytes.length).take slot.size) := by
    rw [hstored, get_eq rfl (by simpa using hi), Pool.slots_setSlot_self,
      Handle.stringAt_eq hsmall]
    rfl
  have hptr : (h.getPtr index).toOption = some (cUint index, slot.size) := by
    rw [Handle.getPtr, lookup_eq hpool hi]
    rfl
  have hout : (submitted fd slot.size).ctx.ring.outstanding[0]? = some (readEntry fd slot.size) :=
    rfl
  simp only [readSlot, hptr, step_submit, hout, htransfer, hs, ht, hres, hget,
    Option.bind_eq_bind, Option.bind_some]

/-- The bytes that were read are in the slot. -/
theorem memory_store (hpool : h.pool = some pool) {i : ℕ} (hi : i < pool.count)
    {bytes : List UInt8} (hlen : bytes.length ≤ (pool.slots i).capacity) :
    ((h.store i 0 bytes).memory i).take bytes.length = bytes := by
  rw [store_eq hpool hi hlen]
  simp [Handle.memory]

/-- **The documented read delivers** exactly when there is nothing to read: on a new pool it
moves no byte, and `get` returns none. -/
theorem delivers_iff {callocs : Bool} {memalign : ℕ → Memalign} {errno : ℕ} {count size : ℤ}
    (hcreate : create callocs memalign errno count size = .ok h) (hsize : 0 < cUint size)
    (cfg : Config) (fd : ℤ) (file : List UInt8) {index : ℤ} (hi : cUint index < cUint count) :
    Delivers cfg fd file (cUint size) index h ↔ file = [] := by
  obtain ⟨pool, hpool, hsound, hcount, hslots⟩ := sound_create hcreate
  have hi' : cUint index < pool.count := hcount ▸ hi
  have heq := readSlot_eq cfg hpool hi' (hsound _ hi')
    (by rw [(hslots _).1]; decide) fd file
  simp only [(hslots _).1, List.take_zero, List.length_nil, Int.ofNat_zero] at heq
  unfold Delivers
  rw [heq]
  constructor
  · rintro ⟨o, ho, hresult, -⟩
    obtain rfl := Option.some.inj ho
    have hmin : ((min (cUint size) file.length : ℕ) : ℤ) = 0 := hresult.symm
    exact List.length_eq_zero_iff.mp (by omega)
  · rintro rfl
    exact ⟨_, rfl, by simp, by simp, by simp⟩

/-- A new pool of one slot of one byte. -/
def oneSlot : Handle := ⟨some ⟨fun _ => ⟨0, 1, [0]⟩, 1, 1⟩⟩

theorem create_oneSlot : create true (fun _ => some fun _ => 0) 0 1 1 = .ok oneSlot := rfl

theorem delivers_iff_oneSlot : Delivers defaultEntries 3 [] 1 0 oneSlot :=
  (delivers_iff create_oneSlot (by decide) defaultEntries 3 [] (by decide)).mpr rfl

/-- The slot gets nothing from a file of one byte. -/
theorem read_delivers_nothing : ¬ ∀ (callocs : Bool) (memalign : ℕ → Memalign) (errno : ℕ)
    (count size : ℤ) (h : Handle), create callocs memalign errno count size = .ok h →
    0 < cUint size → ∀ (cfg : Config) (fd : ℤ) (file : List UInt8) (index : ℤ),
      cUint index < cUint count → Delivers cfg fd file (cUint size) index h := by
  intro hall
  obtain ⟨o, ho, hresult, -⟩ := hall true (fun _ => some fun _ => 0) 0 1 1 oneSlot create_oneSlot
    (by decide) defaultEntries 3 [7] 0 (by decide)
  have hzero : (readSlot defaultEntries 3 [7] 0 oneSlot).map Outcome.result = some 0 := rfl
  rw [ho] at hzero
  have hone : (some o.result) = some 1 := congrArg some hresult
  exact absurd (hone.symm.trans hzero) (by decide)

/-- With a slot that was sized to its block the read delivers from a file that fills the block;
from a shorter one `get` also returns what the slot held behind the bytes read. -/
theorem delivers_iff_of_sized (hpool : h.pool = some pool) {index : ℤ}
    (hi : cUint index < pool.count) {n : ℕ}
    (hfits : (pool.slots (cUint index)).Fits pool.maxCapacity)
    (hcap : (pool.slots (cUint index)).capacity = n) (hsize : (pool.slots (cUint index)).size = n)
    (hn : n < 2 ^ 31) (cfg : Config) (fd : ℤ) (file : List UInt8) :
    Delivers cfg fd file n index h ↔ n ≤ file.length := by
  have heq := readSlot_eq cfg hpool hi hfits (hsize ▸ hn) fd file
  have hbuffer := hfits.buffer
  simp only [hsize] at heq
  unfold Delivers
  rw [heq]
  constructor
  · rintro ⟨o, ho, -, -, hdata⟩
    obtain rfl := Option.some.inj ho
    have hlen := congrArg List.length hdata
    simp only [List.length_take, List.length_append, List.length_drop] at hlen
    omega
  · intro hle
    have hbytes : (file.take n).length = n := List.length_take_of_le hle
    refine ⟨_, rfl, ?_, ?_, ?_⟩
    · simp
    · have hmem : ((h.store (cUint index) 0 (file.take n)).memory (cUint index)).take
          (file.take n).length = file.take n := memory_store hpool hi (by omega)
      rw [hbytes] at hmem
      rw [Nat.min_eq_left hle]
      exact hmem
    · exact List.take_left' hbytes

end BufferPool
end Native
end Pyuring
