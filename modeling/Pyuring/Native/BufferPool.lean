import Pyuring.Lib.Trace
import Pyuring.Native.CApi
import Pyuring.UringAsync

/-!
# The buffer pool

`uring_buffer_pool_*` and the class `BufferPool` over them.  A slot has a block of memory, the
size of the block and the number of its bytes that are in use; `resize` moves the slot to a new
block when the old one is too small.

An allocation is answered by the outside world: it fails, or gives a block that holds whatever
bytes it holds.  One that succeeds gives an address, also for no bytes.  The address that
`get_ptr` hands out stands for the block the slot has at that moment, and is written as the index
of the slot.

`pool_keeps_data` says for every run of a pool what its operations keep.
-/

namespace Pyuring
namespace Native
namespace BufferPool

open Trace

/-- The answer of `posix_memalign`. -/
abbrev Memalign : Type := Option (ℕ → UInt8)

structure Slot where
  size : ℕ
  capacity : ℕ
  buffer : List UInt8
  deriving DecidableEq, Repr

structure Pool where
  slots : ℕ → Slot
  count : ℕ
  maxCapacity : ℕ

/-- A new block. -/
def newBlock (fresh : ℕ → UInt8) (n : ℕ) : List UInt8 := (List.range n).map fresh

@[simp] theorem length_newBlock (fresh : ℕ → UInt8) (n : ℕ) : (newBlock fresh n).length = n := by
  simp [newBlock]

namespace Pool

def setSlot (i : ℕ) (s : Slot) (pool : Pool) : Pool :=
  { pool with slots := Function.update pool.slots i s }

@[simp] theorem count_setSlot (i : ℕ) (s : Slot) (pool : Pool) :
    (pool.setSlot i s).count = pool.count := rfl

@[simp] theorem maxCapacity_setSlot (i : ℕ) (s : Slot) (pool : Pool) :
    (pool.setSlot i s).maxCapacity = pool.maxCapacity := rfl

@[simp] theorem slots_setSlot_self (i : ℕ) (s : Slot) (pool : Pool) :
    (pool.setSlot i s).slots i = s := Function.update_self ..

theorem slots_setSlot_of_ne {i j : ℕ} (h : j ≠ i) (s : Slot) (pool : Pool) :
    (pool.setSlot i s).slots j = pool.slots j := Function.update_of_ne h ..

end Pool

/-! ## The native functions -/

/-- `none` for the null pointer.  The four blocks of the pool itself are one answer, and any
failure frees what was allocated before it. -/
def uringBufferPoolCreate (callocs : Bool) (memalign : ℕ → Memalign)
    (initialCount initialSize : ℕ) : Option Pool :=
  if callocs = true ∧ ∀ i < initialCount, (memalign i).isSome then
    some {
      slots := fun i => ⟨0, initialSize, newBlock ((memalign i).getD fun _ => 0) initialSize⟩
      count := initialCount
      maxCapacity := initialSize }
  else none

def uringBufferPoolResize (memalign : Memalign) (index newSize : ℕ) (pool : Pool) : ℤ × Pool :=
  if pool.count ≤ index then (EINVAL.neg, pool)
  else
    let slot := pool.slots index
    if newSize ≤ slot.capacity then (0, pool.setSlot index { slot with size := newSize })
    else match memalign with
      | none => (ENOMEM.neg, pool)
      | some fresh =>
        let copySize := if newSize < slot.size then newSize else slot.size
        let newBuf := slot.buffer.take copySize ++ (newBlock fresh newSize).drop copySize
        (0, { pool.setSlot index ⟨newSize, newSize, newBuf⟩ with
          maxCapacity := if pool.maxCapacity < newSize then newSize else pool.maxCapacity })

/-- The address of the block, `none` for the null pointer, and the size. -/
def uringBufferPoolGet (index : ℕ) (pool : Pool) : Option ℕ × ℕ :=
  if pool.count ≤ index then (none, 0) else (some index, (pool.slots index).size)

def uringBufferPoolSetSize (index size : ℕ) (pool : Pool) : ℤ × Pool :=
  if pool.count ≤ index ∨ (pool.slots index).capacity < size then (EINVAL.neg, pool)
  else (0, pool.setSlot index { pool.slots index with size := size })

/-! ## The class -/

/-- What a method raises: the error of this library, or one of `ctypes`. -/
inductive Error where
  | uringError (exc : UringError)
  | systemError
  deriving DecidableEq, Repr

/-- `_raise_for_neg_errno`. -/
def raiseForNegErrno (ret : ℤ) (operation : String) : Except UringError Unit :=
  if 0 ≤ ret then .ok () else .error ⟨-ret, operation, none⟩

/-- An object of the class: its native pool, until it is closed. -/
structure Handle where
  pool : Option Pool

/-- `BufferPool.create`, when `errno` is what a failure leaves. -/
def create (callocs : Bool) (memalign : ℕ → Memalign) (errno : ℕ)
    (initialCount initialSize : ℤ) : Except UringError Handle :=
  match uringBufferPoolCreate callocs memalign (cUint initialCount) (cUint initialSize) with
  | some pool => .ok ⟨some pool⟩
  | none => .error ⟨if errno = 0 then ENOMEM.1 else errno, "uring_buffer_pool_create", none⟩

namespace Handle

/-- `_pool_live`. -/
def poolLive (h : Handle) : Except UringError Pool :=
  match h.pool with
  | some pool => .ok pool
  | none => .error ⟨EINVAL.1, "BufferPool",
      some "This BufferPool is closed; create a new pool or avoid using it after close()."⟩

/-- A method that calls a native function which changes the pool and returns an error code. -/
def change (operation : String) (f : Pool → ℤ × Pool) (h : Handle) :
    Except UringError Unit × Handle :=
  match h.poolLive with
  | .error exc => (.error exc, h)
  | .ok pool => (raiseForNegErrno (f pool).1 operation, ⟨some (f pool).2⟩)

def resize (memalign : Memalign) (index newSize : ℤ) : Handle → Except UringError Unit × Handle :=
  change "uring_buffer_pool_resize"
    (uringBufferPoolResize memalign (cUint index) (cUint newSize))

def setSize (index size : ℤ) : Handle → Except UringError Unit × Handle :=
  change "uring_buffer_pool_set_size" (uringBufferPoolSetSize (cUint index) (cUint size))

/-- What `get` and `get_ptr` ask for: the slot and its size. -/
def lookup (index : ℤ) (h : Handle) : Except UringError (ℕ × ℕ) :=
  match h.poolLive with
  | .error exc => .error exc
  | .ok pool => match uringBufferPoolGet (cUint index) pool with
    | (none, _) => .error ⟨EINVAL.1, "uring_buffer_pool_get",
        some ("invalid buffer index: " ++ toString index)⟩
    | (some ptr, size) => .ok (ptr, size)

def getPtr (index : ℤ) (h : Handle) : Except UringError (ℕ × ℕ) := h.lookup index

/-- The bytes of the block at an address. -/
def memory (h : Handle) (ptr : ℕ) : List UInt8 :=
  match h.pool with
  | some pool => (pool.slots ptr).buffer
  | none => []

/-- `ctypes.string_at` on a block.  It takes the size as a C `int`: a negative one is refused, and
`-1` asks for the bytes before the first zero, which is to be in the block. -/
def stringAt (block : List UInt8) (size : ℕ) : Except Error (List UInt8) :=
  if size < 2 ^ 31 then .ok (block.take size)
  else if size = 2 ^ 32 - 1 then .ok (block.takeWhile (· ≠ 0))
  else .error .systemError

theorem stringAt_eq {n : ℕ} (hn : n < 2 ^ 31) (block : List UInt8) :
    stringAt block n = .ok (block.take n) := if_pos hn

def get (index : ℤ) (h : Handle) : Except Error (List UInt8) :=
  match h.lookup index with
  | .error exc => .error (.uringError exc)
  | .ok (ptr, size) => stringAt (h.memory ptr) size

def close (_ : Handle) : Handle := ⟨none⟩

/-- Somebody who has the address writes to the block, and stays inside it. -/
def store (ptr off : ℕ) (bytes : List UInt8) (h : Handle) : Handle :=
  match h.pool with
  | none => h
  | some pool =>
    let slot := pool.slots ptr
    if ptr < pool.count ∧ off + bytes.length ≤ slot.capacity then
      ⟨some (pool.setSlot ptr { slot with
        buffer := slot.buffer.take off ++ bytes ++ slot.buffer.drop (off + bytes.length) })⟩
    else h

end Handle

/-- What is done with a pool. -/
inductive Op where
  | resize (memalign : Memalign) (index newSize : ℤ)
  | setSize (index size : ℤ)
  | get (index : ℤ)
  | getPtr (index : ℤ)
  | store (ptr off : ℕ) (bytes : List UInt8)
  | close

/-- An operation: whether it raises, and the pool after it. -/
def Op.run (h : Handle) : Op → Except Error Unit × Handle
  | .resize memalign index newSize =>
    ((h.resize memalign index newSize).1.mapError .uringError,
      (h.resize memalign index newSize).2)
  | .setSize index size => ((h.setSize index size).1.mapError .uringError, (h.setSize index size).2)
  | .get index => ((h.get index).map fun _ => (), h)
  | .getPtr index => (((h.getPtr index).map fun _ => ()).mapError .uringError, h)
  | .store ptr off bytes => (.ok (), h.store ptr off bytes)
  | .close => (.ok (), h.close)

def step (h : Handle) (op : Op) : Option Handle := some (op.run h).2

/-! ## What a pool keeps -/

/-- The bytes of a slot that are in use. -/
def Slot.data (s : Slot) : List UInt8 := s.buffer.take s.size

/-- A slot whose sizes fit its block and the pool. -/
structure Slot.Fits (maxCapacity : ℕ) (s : Slot) : Prop where
  size : s.size ≤ s.capacity
  capacity : s.capacity ≤ maxCapacity
  buffer : s.buffer.length = s.capacity

/-- All slots of a pool are as they should be. -/
def Pool.Sound (pool : Pool) : Prop := ∀ i < pool.count, (pool.slots i).Fits pool.maxCapacity

/-- No slot is gone, and none has become smaller. -/
structure Pool.GrownTo (pool pool' : Pool) : Prop where
  count : pool'.count = pool.count
  capacity : ∀ i, (pool.slots i).capacity ≤ (pool'.slots i).capacity
  maxCapacity : pool.maxCapacity ≤ pool'.maxCapacity

/-- One slot has a new size and kept the bytes that are in use before and after; the other slots
are as they were. -/
structure Pool.Resized (i newSize : ℕ) (pool pool' : Pool) : Prop where
  size : (pool'.slots i).size = newSize
  data : (pool'.slots i).data.take (min (pool.slots i).size newSize) =
    (pool.slots i).data.take (min (pool.slots i).size newSize)
  others : ∀ j ≠ i, pool'.slots j = pool.slots j

/-! ## One operation -/

variable {pool pool' : Pool}

/-- What an operation can do to the pool. -/
inductive Changes (pool : Pool) : Pool → Prop where
  | same : Changes pool pool
  | size {i n : ℕ} (hi : i < pool.count) (hn : n ≤ (pool.slots i).capacity) :
      Changes pool (pool.setSlot i { pool.slots i with size := n })
  | move {i n m : ℕ} {newBuf : List UInt8} (hi : i < pool.count)
      (hn : (pool.slots i).capacity < n) (hlen : newBuf.length = n)
      (hbuf : newBuf.take (pool.slots i).size = (pool.slots i).buffer.take (pool.slots i).size)
      (hm : m = max pool.maxCapacity n) :
      Changes pool { pool.setSlot i ⟨n, n, newBuf⟩ with maxCapacity := m }
  | store {i : ℕ} {buffer : List UInt8} (hi : i < pool.count)
      (hlen : (pool.slots i).buffer.length = (pool.slots i).capacity →
        buffer.length = (pool.slots i).capacity) :
      Changes pool (pool.setSlot i { pool.slots i with buffer := buffer })

/-- A resize is refused, or the slot has its new size: in place, or in a new block with the old
bytes in front. -/
theorem resize_cases (hsound : pool.Sound) (memalign : Memalign) (i n : ℕ) :
    (∃ e : Errno, uringBufferPoolResize memalign i n pool = (e.neg, pool)) ∨
    (i < pool.count ∧ n ≤ (pool.slots i).capacity ∧ uringBufferPoolResize memalign i n pool =
      (0, pool.setSlot i { pool.slots i with size := n })) ∨
    (i < pool.count ∧ (pool.slots i).capacity < n ∧ ∃ newBuf : List UInt8, newBuf.length = n ∧
      newBuf.take (pool.slots i).size = (pool.slots i).buffer.take (pool.slots i).size ∧
      uringBufferPoolResize memalign i n pool = (0, { pool.setSlot i ⟨n, n, newBuf⟩ with
        maxCapacity := max pool.maxCapacity n })) := by
  unfold uringBufferPoolResize
  by_cases hi : pool.count ≤ i
  · exact Or.inl ⟨EINVAL, by rw [if_pos hi]⟩
  rw [if_neg hi]
  simp only
  have hslot := hsound i (Nat.lt_of_not_le hi)
  by_cases hn : n ≤ (pool.slots i).capacity
  · exact Or.inr (Or.inl ⟨Nat.lt_of_not_le hi, hn, by rw [if_pos hn]⟩)
  rw [if_neg hn]
  cases memalign with
  | none => exact Or.inl ⟨ENOMEM, rfl⟩
  | some fresh =>
    -- the new block is larger than the old one, so all bytes in use are copied
    have hsize := hslot.size
    have hbuffer := hslot.buffer
    have hcopy : ¬ n < (pool.slots i).size := by omega
    simp only [if_neg hcopy]
    refine Or.inr (Or.inr ⟨Nat.lt_of_not_le hi, Nat.lt_of_not_le hn,
      (pool.slots i).buffer.take (pool.slots i).size ++
        (newBlock fresh n).drop (pool.slots i).size, ?_, ?_, ?_⟩)
    · simp only [List.length_append, List.length_take, List.length_drop, length_newBlock]
      omega
    · rw [List.take_append_of_le_length (by rw [List.length_take]; omega), List.take_take,
        Nat.min_self]
    · congr 2
      rw [Nat.max_def]
      split <;> split <;> omega

theorem setSize_cases (i n : ℕ) :
    uringBufferPoolSetSize i n pool = (EINVAL.neg, pool) ∨
    (i < pool.count ∧ n ≤ (pool.slots i).capacity ∧ uringBufferPoolSetSize i n pool =
      (0, pool.setSlot i { pool.slots i with size := n })) := by
  unfold uringBufferPoolSetSize
  split
  · exact Or.inl rfl
  · next h =>
    obtain ⟨hi, hn⟩ := not_or.mp h
    exact Or.inr ⟨Nat.lt_of_not_le hi, Nat.le_of_not_lt hn, rfl⟩

theorem Pool.Sound.setSlot (h : pool.Sound) {m : ℕ} (hm : pool.maxCapacity ≤ m) (i : ℕ) {s : Slot}
    (hs : s.Fits m) : Pool.Sound { pool.setSlot i s with maxCapacity := m } := by
  intro j hj
  by_cases hji : j = i
  · rw [hji]
    simpa using hs
  · have hslot := h j hj
    simp only [Pool.slots_setSlot_of_ne hji]
    exact ⟨hslot.size, Nat.le_trans hslot.capacity hm, hslot.buffer⟩

theorem Pool.GrownTo.setSlot {m : ℕ} (hm : pool.maxCapacity ≤ m) {i : ℕ} {s : Slot}
    (hs : (pool.slots i).capacity ≤ s.capacity) :
    pool.GrownTo { pool.setSlot i s with maxCapacity := m } := by
  refine ⟨rfl, fun j => ?_, hm⟩
  by_cases hji : j = i
  · rw [hji]
    simpa using hs
  · simp [Pool.slots_setSlot_of_ne hji]

theorem Pool.GrownTo.refl (pool : Pool) : pool.GrownTo pool := ⟨rfl, fun _ => le_rfl, le_rfl⟩

theorem Pool.GrownTo.trans {pool'' : Pool} (h : pool.GrownTo pool') (h' : pool'.GrownTo pool'') :
    pool.GrownTo pool'' :=
  ⟨h'.count.trans h.count, fun i => Nat.le_trans (h.capacity i) (h'.capacity i),
    Nat.le_trans h.maxCapacity h'.maxCapacity⟩

theorem Changes.sound (hc : Changes pool pool') (h : pool.Sound) : pool'.Sound := by
  cases hc with
  | same => exact h
  | @size i n hi hn => exact h.setSlot le_rfl i ⟨hn, (h i hi).capacity, (h i hi).buffer⟩
  | @move i n m newBuf _ _ hlen _ hm =>
    exact h.setSlot (hm ▸ Nat.le_max_left _ _) i ⟨le_rfl, hm ▸ Nat.le_max_right _ _, hlen⟩
  | @store i buffer hi hlen =>
    exact h.setSlot le_rfl i ⟨(h i hi).size, (h i hi).capacity, hlen (h i hi).buffer⟩

theorem Changes.grownTo (hc : Changes pool pool') : pool.GrownTo pool' := by
  cases hc with
  | same => exact .refl pool
  | size => exact .setSlot le_rfl le_rfl
  | move _ hn _ _ hm => exact .setSlot (hm ▸ Nat.le_max_left _ _) hn.le
  | store => exact .setSlot le_rfl le_rfl

theorem changes_resize (hsound : pool.Sound) (memalign : Memalign) (i n : ℕ) :
    Changes pool (uringBufferPoolResize memalign i n pool).2 := by
  rcases resize_cases hsound memalign i n with ⟨e, heq⟩ | ⟨hi, hn, heq⟩ |
    ⟨hi, hn, newBuf, hlen, hbuf, heq⟩ <;> rw [heq]
  · exact .same
  · exact .size hi hn
  · exact .move hi hn hlen hbuf rfl

theorem changes_setSize (i n : ℕ) : Changes pool (uringBufferPoolSetSize i n pool).2 := by
  rcases @setSize_cases pool i n with heq | ⟨hi, hn, heq⟩ <;> rw [heq]
  · exact .same
  · exact .size hi hn

variable {h h' : Handle}

theorem change_eq (hpool : h.pool = some pool) (operation : String) (f : Pool → ℤ × Pool) :
    h.change operation f = (raiseForNegErrno (f pool).1 operation, ⟨some (f pool).2⟩) := by
  simp only [Handle.change, Handle.poolLive, hpool]

theorem change_closed (hpool : h.pool = none) (operation : String) (f : Pool → ℤ × Pool) :
    (h.change operation f).2 = h := by
  simp only [Handle.change, Handle.poolLive, hpool]

/-- An operation closes the pool, or changes it in one of the ways there are. -/
theorem run_cases (hpool : h.pool = some pool) (hsound : pool.Sound) (op : Op) :
    (op.run h).2.pool = none ∨ ∃ pool', (op.run h).2.pool = some pool' ∧ Changes pool pool' := by
  cases op with
  | resize memalign index newSize =>
    refine Or.inr ⟨_, ?_, changes_resize hsound memalign (cUint index) (cUint newSize)⟩
    simp only [Op.run, Handle.resize, change_eq hpool]
  | setSize index size =>
    refine Or.inr ⟨_, ?_, changes_setSize (cUint index) (cUint size)⟩
    simp only [Op.run, Handle.setSize, change_eq hpool]
  | get index => exact Or.inr ⟨pool, hpool, .same⟩
  | getPtr index => exact Or.inr ⟨pool, hpool, .same⟩
  | store ptr off bytes =>
    simp only [Op.run, Handle.store, hpool]
    split
    · next hroom =>
      refine Or.inr ⟨_, rfl, .store hroom.1 fun hlen => ?_⟩
      simp only [List.length_append, List.length_take, List.length_drop]
      omega
    · exact Or.inr ⟨pool, hpool, .same⟩
  | close => exact Or.inl rfl

theorem run_closed (hpool : h.pool = none) (op : Op) : (op.run h).2.pool = none := by
  cases op with
  | resize memalign index newSize =>
    exact (congrArg Handle.pool (change_closed hpool _ _)).trans hpool
  | setSize index size => exact (congrArg Handle.pool (change_closed hpool _ _)).trans hpool
  | get index => exact hpool
  | getPtr index => exact hpool
  | store ptr off bytes => simp only [Op.run, Handle.store, hpool]
  | close => rfl

/-- **An operation that raises leaves the pool as it was.** -/
theorem run_error (hsound : ∀ pool, h.pool = some pool → pool.Sound) {op : Op} {exc : Error}
    (hexc : (op.run h).1 = .error exc) : (op.run h).2 = h := by
  have hchange : ∀ (operation : String) (f : Pool → ℤ × Pool),
      (∀ pool, h.pool = some pool → (f pool).1 = 0 ∨ (f pool).2 = pool) →
      (h.change operation f).1.mapError .uringError = .error exc →
      (h.change operation f).2 = h := by
    intro operation f hf herr
    cases hpool : h.pool with
    | none => exact change_closed hpool operation f
    | some pool =>
      rw [change_eq hpool] at herr ⊢
      rcases hf pool hpool with h0 | hsame
      · rw [h0] at herr
        exact absurd herr (by simp [raiseForNegErrno, Except.mapError])
      · simp only [hsame, ← hpool]
  cases op with
  | resize memalign index newSize =>
    refine hchange _ _ (fun pool hpool => ?_) hexc
    rcases resize_cases (hsound pool hpool) memalign (cUint index) (cUint newSize) with
      ⟨e, heq⟩ | ⟨-, -, heq⟩ | ⟨-, -, _, -, -, heq⟩ <;> rw [heq]
    · exact Or.inr rfl
    · exact Or.inl rfl
    · exact Or.inl rfl
  | setSize index size =>
    refine hchange _ _ (fun pool _ => ?_) hexc
    rcases @setSize_cases pool (cUint index) (cUint size) with heq | ⟨-, -, heq⟩ <;> rw [heq]
    · exact Or.inr rfl
    · exact Or.inl rfl
  | get index => rfl
  | getPtr index => rfl
  | store ptr off bytes => exact absurd hexc (by simp [Op.run])
  | close => exact absurd hexc (by simp [Op.run])

/-- **A resize that does not raise** keeps what it says. -/
theorem run_resize (hsound : ∀ pool, h.pool = some pool → pool.Sound) {memalign : Memalign}
    {index newSize : ℤ} (hok : (h.resize memalign index newSize).1 = .ok ()) :
    ∃ pool pool', h.pool = some pool ∧ (h.resize memalign index newSize).2.pool = some pool' ∧
      pool.Resized (cUint index) (cUint newSize) pool' := by
  cases hpool : h.pool with
  | none => exact absurd hok (by simp [Handle.resize, Handle.change, Handle.poolLive, hpool])
  | some pool =>
    simp only [Handle.resize, change_eq hpool] at hok ⊢
    refine ⟨pool, _, rfl, rfl, ?_⟩
    rcases resize_cases (hsound pool hpool) memalign (cUint index) (cUint newSize) with
      ⟨e, heq⟩ | ⟨-, -, heq⟩ | ⟨hi, hlt, newBuf, -, hbuf, heq⟩
    · rw [heq] at hok
      have hneg := e.neg_lt
      simp only [raiseForNegErrno] at hok
      rw [if_neg (by omega)] at hok
      exact absurd hok (by simp)
    · rw [heq]
      refine ⟨by simp, ?_, fun j hj => Pool.slots_setSlot_of_ne hj _ _⟩
      simp only [Slot.data, Pool.slots_setSlot_self, List.take_take]
      congr 1
      omega
    · rw [heq]
      refine ⟨by simp, ?_, fun j hj => Pool.slots_setSlot_of_ne hj _ _⟩
      have hle : (pool.slots (cUint index)).size ≤ cUint newSize :=
        Nat.le_trans (hsound pool hpool _ hi).size hlt.le
      simp only [Slot.data, Pool.slots_setSlot_self, List.take_take, Nat.min_eq_left hle,
        Nat.min_self]
      exact hbuf

/-! ## Runs -/

/-- What a run from `h` keeps. -/
def Keeps (h s : Handle) : Prop := ∀ pool', s.pool = some pool' →
  pool'.Sound ∧ ∃ pool, h.pool = some pool ∧ pool.GrownTo pool'

theorem Keeps.run {s : Handle} (hs : Keeps h s) (op : Op) : Keeps h (op.run s).2 := by
  intro pool' hpool'
  cases hpool : s.pool with
  | none => exact absurd (hpool'.symm.trans (run_closed hpool op)) (by simp)
  | some pool =>
    obtain ⟨hsound, pool₀, hpool₀, hgrown⟩ := hs pool hpool
    rcases run_cases hpool hsound op with hclosed | ⟨pool'', heq, hc⟩
    · exact absurd (hpool'.symm.trans hclosed) (by simp)
    · obtain rfl := Option.some.inj (hpool'.symm.trans heq)
      exact ⟨hc.sound hsound, pool₀, hpool₀, hgrown.trans hc.grownTo⟩

theorem keeps_reach (hsound : ∀ pool, h.pool = some pool → pool.Sound) {s : Handle}
    (hs : Reach step AnyStep h s) : Keeps h s := by
  refine hs.invariant (fun pool hpool => ⟨hsound pool hpool, pool, hpool, .refl pool⟩) ?_
  intro t op u ht _ hu
  rw [← Option.some.inj hu]
  exact ht.run op

theorem sound_create {callocs : Bool} {memalign : ℕ → Memalign} {errno : ℕ} {count size : ℤ}
    (hcreate : create callocs memalign errno count size = .ok h) :
    ∃ pool, h.pool = some pool ∧ pool.Sound ∧ pool.count = cUint count ∧
      ∀ i, (pool.slots i).size = 0 ∧ (pool.slots i).capacity = cUint size := by
  unfold create uringBufferPoolCreate at hcreate
  by_cases hok : callocs = true ∧ ∀ i < cUint count, (memalign i).isSome
  · rw [if_pos hok] at hcreate
    obtain rfl := Except.ok.inj hcreate
    exact ⟨_, rfl, fun i _ => ⟨Nat.zero_le _, le_rfl, by simp⟩, rfl, fun i => ⟨rfl, rfl⟩⟩
  · rw [if_neg hok] at hcreate
    exact absurd hcreate (by simp)

/-- **A pool keeps its data.**  In every run from a new pool the slots stay within their blocks
and these within the largest size asked for, no slot gets lost and no block smaller, a resize
keeps the bytes in use and the other slots, and an operation that raises does nothing. -/
theorem pool_keeps_data {callocs : Bool} {memalign : ℕ → Memalign} {errno : ℕ} {count size : ℤ}
    {h s : Handle} (hcreate : create callocs memalign errno count size = .ok h)
    (hs : Reach step AnyStep h s) :
    (∀ pool, s.pool = some pool → pool.Sound ∧ pool.count = cUint count) ∧
    (∀ t pool pool', Reach step AnyStep s t → s.pool = some pool → t.pool = some pool' →
      pool.GrownTo pool') ∧
    (∀ fresh index newSize, (s.resize fresh index newSize).1 = .ok () →
      ∃ pool pool', s.pool = some pool ∧ (s.resize fresh index newSize).2.pool = some pool' ∧
        pool.Resized (cUint index) (cUint newSize) pool') ∧
    ∀ op exc, (Op.run s op).1 = .error exc → (Op.run s op).2 = s := by
  obtain ⟨pool₀, hpool₀, hsound₀, hcount, -⟩ := sound_create hcreate
  have hkeeps := keeps_reach (fun pool hpool =>
    Option.some.inj (hpool₀.symm.trans hpool) ▸ hsound₀) hs
  have hsound : ∀ pool, s.pool = some pool → pool.Sound := fun pool hpool => (hkeeps pool hpool).1
  refine ⟨fun pool hpool => ⟨hsound pool hpool, ?_⟩, ?_, fun _ _ _ => run_resize hsound,
    fun _ _ => run_error hsound⟩
  · obtain ⟨-, pool', hpool', hgrown⟩ := hkeeps pool hpool
    rw [hgrown.count, ← Option.some.inj (hpool₀.symm.trans hpool'), hcount]
  · intro t pool pool' ht hpool hpool'
    obtain ⟨-, pool'', hpool'', hgrown⟩ := keeps_reach hsound ht pool' hpool'
    exact Option.some.inj (hpool''.symm.trans hpool) ▸ hgrown

/-- A pool of two slots of four bytes, and what fills its blocks. -/
def twoSlots : Handle := ⟨some ⟨fun _ => ⟨0, 4, [65, 65, 65, 65]⟩, 2, 4⟩⟩

/-- Growing a slot with three bytes in use keeps the three. -/
theorem pool_keeps_data_twoSlots : ∃ pool pool' : Pool, pool.Resized 0 6 pool' ∧
    (pool.slots 0).data = [65, 65, 65] ∧ (pool'.slots 0).capacity = 6 := by
  have hcreate : create true (fun _ => some fun _ => 65) 0 2 4 = .ok twoSlots := rfl
  have hreach : Reach step AnyStep twoSlots (twoSlots.setSize 0 3).2 :=
    .single (e := .setSize 0 3) trivial rfl
  obtain ⟨pool, pool', hpool, hpool', hresized⟩ :=
    (pool_keeps_data hcreate hreach).2.2.1 (some fun _ => 0) 0 6 rfl
  refine ⟨pool, pool', hresized, ?_, ?_⟩
  · rw [← Option.some.inj hpool]
    rfl
  · rw [← Option.some.inj hpool']
    rfl

end BufferPool
end Native
end Pyuring
