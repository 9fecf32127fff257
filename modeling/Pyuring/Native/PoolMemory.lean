import Pyuring.Lib.Heap
import Pyuring.Native.BufferPool

/-!
# The memory of a buffer pool

`BufferPool` describes a pool by its slots, and a slot by the bytes in its block.  Here the same
functions are programs over a heap: the structure, its three arrays and the blocks of the slots
are allocated and freed, and every access goes through their addresses.

The answer of an allocation is the address that it gives, one that is not in use, or the null
pointer.  Functions and methods have the names they have in `BufferPool`.

1. `cells` is what the heap holds for a pool.  `runs_create`, `runs_resize` and so on say what a
   native function does there: it never goes wrong, and it does what the function of `BufferPool`
   does.
2. `serves_of_reach` is about runs, in which the rest of the process allocates, writes and frees
   what it likes, and requests to the kernel are under way that write to blocks of slots.
-/

namespace Pyuring
namespace Native
namespace BufferPool
namespace Memory

open Heap

/-- `struct uring_buffer_pool`. -/
structure Record where
  buffers : Option ℕ
  bufferSizes : Option ℕ
  bufferCapacities : Option ℕ
  count : ℕ
  maxCapacity : ℕ
  deriving DecidableEq

/-- What a block holds. -/
inductive Cell where
  | pool (p : Record)
  | pointers (ps : List (Option ℕ))
  | numbers (ns : List ℕ)
  | bytes (bs : List UInt8)
  deriving DecidableEq

abbrev Program : Type → Type := Prog ℕ Cell

/-- The answer of `posix_memalign`: the address, and the bytes that are there. -/
abbrev Block : Type := Option (ℕ × (ℕ → UInt8))

/-- The answers to the allocations of the structure and of its arrays. -/
structure Callocs where
  pool : Option ℕ
  buffers : Option ℕ
  bufferSizes : Option ℕ
  bufferCapacities : Option ℕ
  deriving DecidableEq

/-! ## Access -/

def loadPool (pool : ℕ) : Program Record := do
  match ← load pool with
  | .pool p => pure p
  | _ => wrong

/-- `a[i]`, of an array of pointers. -/
def loadPointer (a : Option ℕ) (i : ℕ) : Program (Option ℕ) :=
  match a with
  | none => wrong
  | some a => do
    match ← load a with
    | .pointers ps => match ps[i]? with
      | some p => pure p
      | none => wrong
    | _ => wrong

/-- `a[i] = p`. -/
def storePointer (a : Option ℕ) (i : ℕ) (p : Option ℕ) : Program Unit :=
  match a with
  | none => wrong
  | some a => do
    match ← load a with
    | .pointers ps => if i < ps.length then store a (.pointers (ps.set i p)) else wrong
    | _ => wrong

def loadNumber (a : Option ℕ) (i : ℕ) : Program ℕ :=
  match a with
  | none => wrong
  | some a => do
    match ← load a with
    | .numbers ns => match ns[i]? with
      | some n => pure n
      | none => wrong
    | _ => wrong

def storeNumber (a : Option ℕ) (i n : ℕ) : Program Unit :=
  match a with
  | none => wrong
  | some a => do
    match ← load a with
    | .numbers ns => if i < ns.length then store a (.numbers (ns.set i n)) else wrong
    | _ => wrong

/-- The first `n` bytes of a block, which has as many. -/
def loadBytes (a n : ℕ) : Program (List UInt8) := do
  match ← load a with
  | .bytes bs => if n ≤ bs.length then pure (bs.take n) else wrong
  | _ => wrong

/-- The bytes of a block before the first zero, which it has. -/
def loadString (a : ℕ) : Program (List UInt8) := do
  match ← load a with
  | .bytes bs => if 0 ∈ bs then pure (bs.takeWhile (· ≠ 0)) else wrong
  | _ => wrong

/-- Bytes at the beginning of a block, which has room for them. -/
def storeBytes (a : ℕ) (bytes : List UInt8) : Program Unit := do
  match ← load a with
  | .bytes bs =>
    if bytes.length ≤ bs.length then store a (.bytes (bytes ++ bs.drop bytes.length)) else wrong
  | _ => wrong

def calloc (answer : Option ℕ) (c : Cell) : Program (Option ℕ) := malloc (answer.map (·, c))

def posixMemalign (answer : Block) (size : ℕ) : Program (Option ℕ) :=
  malloc (answer.map fun (a, fresh) => (a, .bytes (newBlock fresh size)))

def memcpy (dst src n : ℕ) : Program Unit := do
  let bytes ← loadBytes src n
  storeBytes dst bytes

/-! ## The native functions -/

/-- `free(pool->buffers[i])` for each `i` below `n`. -/
def freeBuffers (pool n : ℕ) : Program Unit := (List.range n).forM fun i => do
  let p ← loadPool pool
  let buf ← loadPointer p.buffers i
  free buf

/-- The arrays and the structure are freed. -/
def freePool (pool : ℕ) : Program Unit := do
  let p ← loadPool pool
  free p.buffers
  free p.bufferSizes
  free p.bufferCapacities
  free (some pool)

/-- The loop that allocates the slots, from the slot `i` on; a failure frees everything. -/
def allocBuffers (memalign : ℕ → Block) (pool size : ℕ) : (i n : ℕ) → Program (Option ℕ)
  | _, 0 => pure (some pool)
  | i, n + 1 => do
    match ← posixMemalign (memalign i) size with
    | none => do
      freeBuffers pool i
      freePool pool
      pure none
    | some buf => do
      let p ← loadPool pool
      storePointer p.buffers i (some buf)
      storeNumber p.bufferSizes i 0
      storeNumber p.bufferCapacities i size
      allocBuffers memalign pool size (i + 1) n

def uringBufferPoolCreate (callocs : Callocs) (memalign : ℕ → Block)
    (initialCount initialSize : ℕ) : Program (Option ℕ) := do
  match ← calloc callocs.pool (.pool ⟨none, none, none, 0, 0⟩) with
  | none => pure none
  | some pool => do
    let buffers ← calloc callocs.buffers (.pointers (List.replicate initialCount none))
    let sizes ← calloc callocs.bufferSizes (.numbers (List.replicate initialCount 0))
    let capacities ← calloc callocs.bufferCapacities (.numbers (List.replicate initialCount 0))
    store pool (.pool ⟨buffers, sizes, capacities, initialCount, initialSize⟩)
    if buffers.isSome ∧ sizes.isSome ∧ capacities.isSome then
      allocBuffers memalign pool initialSize 0 initialCount
    else do
      freePool pool
      pure none

/-- The bytes in use are copied to the new block. -/
def copyData (newBuf : ℕ) (buf : Option ℕ) (size newSize : ℕ) : Program Unit :=
  match buf with
  | some buf =>
    if 0 < size then memcpy newBuf buf (if newSize < size then newSize else size) else pure ()
  | none => pure ()

def raiseMaxCapacity (pool newSize : ℕ) : Program Unit := do
  let p ← loadPool pool
  if p.maxCapacity < newSize then store pool (.pool { p with maxCapacity := newSize }) else pure ()

def uringBufferPoolResize (memalign : Block) (pool index newSize : ℕ) : Program ℤ := do
  let p ← loadPool pool
  if p.count ≤ index then pure EINVAL.neg
  else do
    let capacity ← loadNumber p.bufferCapacities index
    if newSize ≤ capacity then do
      storeNumber p.bufferSizes index newSize
      pure 0
    else do
      match ← posixMemalign memalign newSize with
      | none => pure ENOMEM.neg
      | some newBuf => do
        let buf ← loadPointer p.buffers index
        let size ← loadNumber p.bufferSizes index
        copyData newBuf buf size newSize
        free buf
        storePointer p.buffers index (some newBuf)
        storeNumber p.bufferSizes index newSize
        storeNumber p.bufferCapacities index newSize
        raiseMaxCapacity pool newSize
        pure 0

/-- The pointer, and the size. -/
def uringBufferPoolGet (pool index : ℕ) : Program (Option ℕ × ℕ) := do
  let p ← loadPool pool
  if p.count ≤ index then pure (none, 0)
  else do
    let size ← loadNumber p.bufferSizes index
    let buf ← loadPointer p.buffers index
    pure (buf, size)

def uringBufferPoolSetSize (pool index size : ℕ) : Program ℤ := do
  let p ← loadPool pool
  if p.count ≤ index then pure EINVAL.neg
  else do
    let capacity ← loadNumber p.bufferCapacities index
    if capacity < size then pure EINVAL.neg
    else do
      storeNumber p.bufferSizes index size
      pure 0

def uringBufferPoolDestroy (pool : ℕ) : Program Unit := do
  let p ← loadPool pool
  if p.buffers.isSome then do
    freeBuffers pool p.count
    freePool pool
  else freePool pool

/-! ## The class -/

/-- `BufferPool.create`: the address of the pool, which the object keeps in `_pool`. -/
def create (callocs : Callocs) (memalign : ℕ → Block) (errno : ℕ) (initialCount initialSize : ℤ) :
    Program (Except UringError ℕ) := do
  match ← uringBufferPoolCreate callocs memalign (cUint initialCount) (cUint initialSize) with
  | some pool => pure (.ok pool)
  | none =>
    let err := if errno = 0 then ENOMEM.1 else errno
    pure (.error ⟨err, "uring_buffer_pool_create", none⟩)

/-- `_pool_live`. -/
def poolLive (object : Option ℕ) : Except UringError ℕ :=
  match object with
  | some pool => .ok pool
  | none => .error ⟨EINVAL.1, "BufferPool",
      some "This BufferPool is closed; create a new pool or avoid using it after close()."⟩

/-- A method that calls a native function which changes the pool and returns an error code. -/
def change (operation : String) (f : ℕ → Program ℤ) (object : Option ℕ) :
    Program (Except UringError Unit) :=
  match poolLive object with
  | .error exc => pure (.error exc)
  | .ok pool => do
    let ret ← f pool
    pure (raiseForNegErrno ret operation)

def resize (memalign : Block) (index newSize : ℤ) : Option ℕ → Program (Except UringError Unit) :=
  change "uring_buffer_pool_resize" fun pool =>
    uringBufferPoolResize memalign pool (cUint index) (cUint newSize)

def setSize (index size : ℤ) : Option ℕ → Program (Except UringError Unit) :=
  change "uring_buffer_pool_set_size" fun pool =>
    uringBufferPoolSetSize pool (cUint index) (cUint size)

def getPtr (index : ℤ) (object : Option ℕ) : Program (Except UringError (ℕ × ℕ)) :=
  match poolLive object with
  | .error exc => pure (.error exc)
  | .ok pool => do
    match ← uringBufferPoolGet pool (cUint index) with
    | (none, _) =>
      let detail := "invalid buffer index: " ++ toString index
      pure (.error ⟨EINVAL.1, "uring_buffer_pool_get", some detail⟩)
    | (some ptr, size) => pure (.ok (ptr, size))

/-- `ctypes.string_at`. -/
def stringAt (ptr size : ℕ) : Program (Except Error (List UInt8)) :=
  if size < 2 ^ 31 then do
    let bytes ← loadBytes ptr size
    pure (.ok bytes)
  else if size = 2 ^ 32 - 1 then do
    let bytes ← loadString ptr
    pure (.ok bytes)
  else pure (.error .systemError)

def get (index : ℤ) (object : Option ℕ) : Program (Except Error (List UInt8)) := do
  match ← getPtr index object with
  | .error exc => pure (.error (.uringError exc))
  | .ok (ptr, size) => stringAt ptr size

def close (object : Option ℕ) : Program Unit :=
  match object with
  | some pool => uringBufferPoolDestroy pool
  | none => pure ()

/-! ## Rules of access -/

section Access

variable {a i n : ℕ} {p : Record} {ns : List ℕ} {ps : List (Option ℕ)} {bs bytes : List UInt8}
  {v : Option ℕ} {l₂ : List (ℕ × Option Cell)}

theorem runs_loadPool (l₁ : List (ℕ × Option Cell)) :
    Runs (l₁ ++ (a, some (.pool p)) :: l₂) (loadPool a) p (l₁ ++ (a, some (.pool p)) :: l₂) :=
  (Runs.load l₁).bind (.pure _ _)

theorem runs_loadPointer (l₁ : List (ℕ × Option Cell)) (hi : ps[i]? = some v) :
    Runs (l₁ ++ (a, some (.pointers ps)) :: l₂) (loadPointer (some a) i) v
      (l₁ ++ (a, some (.pointers ps)) :: l₂) := by
  refine (Runs.load l₁).bind ?_
  simp only [hi]
  exact .pure _ _

theorem runs_storePointer (l₁ : List (ℕ × Option Cell)) (hi : i < ps.length) :
    Runs (l₁ ++ (a, some (.pointers ps)) :: l₂) (storePointer (some a) i v) ()
      (l₁ ++ (a, some (.pointers (ps.set i v))) :: l₂) := by
  refine (Runs.load l₁).bind ?_
  simp only [hi, if_true]
  exact .store l₁

theorem runs_loadNumber (l₁ : List (ℕ × Option Cell)) (hi : ns[i]? = some n) :
    Runs (l₁ ++ (a, some (.numbers ns)) :: l₂) (loadNumber (some a) i) n
      (l₁ ++ (a, some (.numbers ns)) :: l₂) := by
  refine (Runs.load l₁).bind ?_
  simp only [hi]
  exact .pure _ _

theorem runs_storeNumber (l₁ : List (ℕ × Option Cell)) (hi : i < ns.length) :
    Runs (l₁ ++ (a, some (.numbers ns)) :: l₂) (storeNumber (some a) i n) ()
      (l₁ ++ (a, some (.numbers (ns.set i n))) :: l₂) := by
  refine (Runs.load l₁).bind ?_
  simp only [hi, if_true]
  exact .store l₁

theorem runs_loadBytes (l₁ : List (ℕ × Option Cell)) (hn : n ≤ bs.length) :
    Runs (l₁ ++ (a, some (.bytes bs)) :: l₂) (loadBytes a n) (bs.take n)
      (l₁ ++ (a, some (.bytes bs)) :: l₂) := by
  refine (Runs.load l₁).bind ?_
  simp only [hn, if_true]
  exact .pure _ _

theorem runs_storeBytes (l₁ : List (ℕ × Option Cell)) (hn : bytes.length ≤ bs.length) :
    Runs (l₁ ++ (a, some (.bytes bs)) :: l₂) (storeBytes a bytes) ()
      (l₁ ++ (a, some (.bytes (bytes ++ bs.drop bytes.length))) :: l₂) := by
  refine (Runs.load l₁).bind ?_
  simp only [hn, if_true]
  exact .store l₁

end Access

/-! ## Programs that read -/

theorem reads_loadPool (pool : ℕ) : Reads (loadPool pool) :=
  (reads_load pool).bind fun c => by
    cases c with
    | pool p => exact reads_pure p
    | _ => exact reads_wrong

theorem reads_loadPointer (a : Option ℕ) (i : ℕ) : Reads (loadPointer a i) := by
  cases a with
  | none => exact reads_wrong
  | some a =>
    refine (reads_load a).bind fun c => ?_
    cases c with
    | pointers ps =>
      simp only
      cases ps[i]? with
      | none => exact reads_wrong
      | some p => exact reads_pure p
    | _ => exact reads_wrong

theorem reads_loadNumber (a : Option ℕ) (i : ℕ) : Reads (loadNumber a i) := by
  cases a with
  | none => exact reads_wrong
  | some a =>
    refine (reads_load a).bind fun c => ?_
    cases c with
    | numbers ns =>
      simp only
      cases ns[i]? with
      | none => exact reads_wrong
      | some n => exact reads_pure n
    | _ => exact reads_wrong

theorem reads_loadBytes (a n : ℕ) : Reads (loadBytes a n) := by
  refine (reads_load a).bind fun c => ?_
  cases c with
  | bytes bs =>
    simp only
    split
    · exact reads_pure _
    · exact reads_wrong
  | _ => exact reads_wrong

theorem reads_loadString (a : ℕ) : Reads (loadString a) := by
  refine (reads_load a).bind fun c => ?_
  cases c with
  | bytes bs =>
    simp only
    split
    · exact reads_pure _
    · exact reads_wrong
  | _ => exact reads_wrong

theorem reads_stringAt (ptr size : ℕ) : Reads (stringAt ptr size) := by
  unfold stringAt
  split
  · exact (reads_loadBytes ptr size).bind fun _ => reads_pure _
  split
  · exact (reads_loadString ptr).bind fun _ => reads_pure _
  · exact reads_pure _

theorem reads_uringBufferPoolGet (pool index : ℕ) : Reads (uringBufferPoolGet pool index) := by
  refine (reads_loadPool pool).bind fun p => ?_
  split
  · exact reads_pure _
  · exact (reads_loadNumber _ _).bind fun _ => (reads_loadPointer _ _).bind fun _ => reads_pure _

theorem reads_getPtr (index : ℤ) (object : Option ℕ) : Reads (getPtr index object) := by
  unfold getPtr
  cases poolLive object with
  | error exc => exact reads_pure _
  | ok pool =>
    refine (reads_uringBufferPoolGet pool _).bind fun r => ?_
    obtain ⟨ptr, size⟩ := r
    cases ptr <;> exact reads_pure _

theorem reads_get (index : ℤ) (object : Option ℕ) : Reads (get index object) := by
  refine (reads_getPtr index object).bind fun r => ?_
  cases r with
  | error exc => exact reads_pure _
  | ok r => exact reads_stringAt r.1 r.2

/-! ## A pool in memory -/

/-- Where the parts of a pool are. -/
structure Layout where
  pool : ℕ
  buffers : ℕ
  bufferSizes : ℕ
  bufferCapacities : ℕ
  block : ℕ → ℕ

def Layout.record (l : Layout) (pool : Pool) : Record :=
  ⟨some l.buffers, some l.bufferSizes, some l.bufferCapacities, pool.count, pool.maxCapacity⟩

/-- The block of a slot. -/
def slotCell (l : Layout) (pool : Pool) (i : ℕ) : ℕ × Option Cell :=
  (l.block i, some (.bytes (pool.slots i).buffer))

/-- What the heap holds for a pool. -/
def cells (l : Layout) (pool : Pool) : List (ℕ × Option Cell) :=
  (l.pool, some (.pool (l.record pool))) ::
  (l.buffers, some (.pointers ((List.range pool.count).map fun i => some (l.block i)))) ::
  (l.bufferSizes, some (.numbers ((List.range pool.count).map fun i => (pool.slots i).size))) ::
  (l.bufferCapacities,
    some (.numbers ((List.range pool.count).map fun i => (pool.slots i).capacity))) ::
  (List.range pool.count).map (slotCell l pool)

/-- The layout after a resize: a slot that has to grow is at the new address. -/
def Layout.resized (memalign : Block) (index newSize : ℕ) (pool : Pool) (l : Layout) : Layout :=
  match memalign with
  | none => l
  | some (a, _) => if index < pool.count ∧ (pool.slots index).capacity < newSize then
      { l with block := Function.update l.block index a } else l

section Lists

variable {β δ : Type*} {n i : ℕ}

theorem getElem?_map_range (f : ℕ → β) (hi : i < n) : ((List.range n).map f)[i]? = some (f i) := by
  rw [List.getElem?_map, List.getElem?_range hi, Option.map_some]

theorem map_range_set (g : β → δ) (f : ℕ → β) (i : ℕ) (v : β) :
    ((List.range n).map fun j => g (f j)).set i (g v) =
      (List.range n).map fun j => g (Function.update f i v j) := by
  refine List.ext_getElem (by simp) fun k _ _ => ?_
  rw [List.getElem_set]
  by_cases hik : i = k
  · subst hik
    simp
  · simp [hik, Function.update_of_ne (Ne.symm hik)]

/-- A change at one index. -/
theorem exists_map_range_split (F F' : ℕ → β) (hi : i < n) (hF : ∀ j, j ≠ i → F' j = F j) :
    ∃ m₁ m₂, (List.range n).map F = m₁ ++ F i :: m₂ ∧
      (List.range n).map F' = m₁ ++ F' i :: m₂ := by
  obtain ⟨r₁, r₂, hr⟩ := List.append_of_mem (List.mem_range.mpr hi)
  have hnodup := List.nodup_range (n := n)
  rw [hr, List.nodup_middle, List.nodup_cons, List.mem_append, not_or] at hnodup
  obtain ⟨⟨h₁, h₂⟩, -⟩ := hnodup
  refine ⟨r₁.map F, r₂.map F, by rw [hr]; simp, ?_⟩
  rw [hr, List.map_append, List.map_cons]
  congr 1
  · exact List.map_congr_left fun j hj => hF j fun heq => h₁ (heq ▸ hj)
  · congr 1
    exact List.map_congr_left fun j hj => hF j fun heq => h₂ (heq ▸ hj)

/-- Two entries change places. -/
theorem perm_swap_ends (m₁ m₂ : List β) (x y : β) :
    (x :: (m₁ ++ y :: m₂)).Perm ((m₁ ++ x :: m₂) ++ [y]) := by
  refine (List.perm_middle.cons x).trans ((List.Perm.swap y x _).trans ?_)
  refine (List.perm_middle.symm.cons y).trans ?_
  exact (List.perm_append_singleton y _).symm

end Lists

variable {l : Layout} {pool : Pool} {i n : ℕ}

/-- A slot gets another size. -/
theorem cells_size (l : Layout) (pool : Pool) (i n : ℕ) :
    cells l (pool.setSlot i { pool.slots i with size := n }) =
      (l.pool, some (.pool (l.record pool))) ::
      (l.buffers, some (.pointers ((List.range pool.count).map fun i => some (l.block i)))) ::
      (l.bufferSizes,
        some (.numbers (((List.range pool.count).map fun i => (pool.slots i).size).set i n))) ::
      (l.bufferCapacities,
        some (.numbers ((List.range pool.count).map fun i => (pool.slots i).capacity))) ::
      (List.range pool.count).map (slotCell l pool) := by
  have hother : ∀ j, ((pool.setSlot i { pool.slots i with size := n }).slots j).capacity =
      (pool.slots j).capacity ∧ ((pool.setSlot i { pool.slots i with size := n }).slots j).buffer =
      (pool.slots j).buffer := by
    intro j
    by_cases hj : j = i
    · subst hj
      simp
    · simp [Pool.slots_setSlot_of_ne hj]
  have hcell : slotCell l (pool.setSlot i { pool.slots i with size := n }) = slotCell l pool :=
    funext fun j => by simp only [slotCell, hother]
  rw [map_range_set Slot.size pool.slots i { pool.slots i with size := n }]
  simp only [cells, Pool.count_setSlot, hother, hcell, Layout.record, Pool.maxCapacity_setSlot]
  rfl

/-- A slot is moved to another block. -/
theorem cells_move (l : Layout) (pool : Pool) (i a m : ℕ) (s : Slot) :
    cells { l with block := Function.update l.block i a }
        { pool.setSlot i s with maxCapacity := m } =
      (l.pool, some (.pool { l.record pool with maxCapacity := m })) ::
      (l.buffers,
        some (.pointers (((List.range pool.count).map fun i => some (l.block i)).set i (some a)))) ::
      (l.bufferSizes,
        some (.numbers (((List.range pool.count).map fun i => (pool.slots i).size).set i s.size))) ::
      (l.bufferCapacities, some (.numbers
        (((List.range pool.count).map fun i => (pool.slots i).capacity).set i s.capacity))) ::
      (List.range pool.count).map (slotCell { l with block := Function.update l.block i a }
        { pool.setSlot i s with maxCapacity := m }) := by
  rw [map_range_set Option.some l.block i a, map_range_set Slot.size pool.slots i s,
    map_range_set Slot.capacity pool.slots i s]
  rfl

theorem runs_setSize (l : Layout) (pool : Pool) (i n : ℕ) :
    Runs (cells l pool) (uringBufferPoolSetSize l.pool i n)
      (BufferPool.uringBufferPoolSetSize i n pool).1
      (cells l (BufferPool.uringBufferPoolSetSize i n pool).2) := by
  unfold uringBufferPoolSetSize BufferPool.uringBufferPoolSetSize
  refine (runs_loadPool []).bind ?_
  by_cases hi : pool.count ≤ i
  · rw [if_pos (Or.inl hi)]
    simp only [Layout.record, hi, if_true]
    exact .pure _ _
  simp only [Layout.record, hi, if_false, false_or]
  have hi' := Nat.lt_of_not_le hi
  refine (runs_loadNumber [_, _, _] (getElem?_map_range _ hi')).bind ?_
  split
  · exact .pure _ _
  refine (runs_storeNumber [_, _] (by simpa using hi')).bind ?_
  rw [cells_size]
  exact .pure _ _

theorem runs_get (l : Layout) (pool : Pool) (i : ℕ) :
    Runs (cells l pool) (uringBufferPoolGet l.pool i)
      ((BufferPool.uringBufferPoolGet i pool).1.map l.block, (BufferPool.uringBufferPoolGet i pool).2)
      (cells l pool) := by
  unfold uringBufferPoolGet BufferPool.uringBufferPoolGet
  refine (runs_loadPool []).bind ?_
  by_cases hi : pool.count ≤ i
  · simp only [Layout.record, hi, if_true]
    exact .pure _ _
  simp only [Layout.record, hi, if_false]
  have hi' := Nat.lt_of_not_le hi
  refine (runs_loadNumber [_, _] (getElem?_map_range _ hi')).bind ?_
  refine (runs_loadPointer [_] (getElem?_map_range _ hi')).bind ?_
  exact .pure _ _

/-- The bytes of a block. -/
theorem runs_loadBlock (l : Layout) (pool : Pool) (hi : i < pool.count)
    (hn : n ≤ (pool.slots i).buffer.length) :
    Runs (cells l pool) (loadBytes (l.block i) n) ((pool.slots i).buffer.take n)
      (cells l pool) := by
  obtain ⟨m₁, m₂, hcells, -⟩ := exists_map_range_split (slotCell l pool)
    (slotCell l pool) hi fun _ _ => rfl
  rw [cells, hcells]
  exact runs_loadBytes (_ :: _ :: _ :: _ :: m₁) hn

/-- The slot is large enough. -/
theorem runs_resize_inPlace (memalign : Block) (hi : i < pool.count)
    (hn : n ≤ (pool.slots i).capacity) :
    Runs (cells l pool) (uringBufferPoolResize memalign l.pool i n) 0
      (cells l (pool.setSlot i { pool.slots i with size := n })) := by
  unfold uringBufferPoolResize
  refine (runs_loadPool []).bind ?_
  simp only [Layout.record, Nat.not_le.mpr hi, if_false]
  refine (runs_loadNumber [_, _, _] (getElem?_map_range _ hi)).bind ?_
  rw [if_pos hn]
  refine (runs_storeNumber [_, _] (by simpa using hi)).bind ?_
  rw [cells_size]
  exact .pure _ _

/-- The bytes in use come to the new block. -/
theorem runs_copyData {a old size k : ℕ} {new bs : List UInt8} (l₁ l₂ : List (ℕ × Option Cell))
    (hk : k = if n < size then n else size) (hold : k ≤ bs.length) (hnew : k ≤ new.length) :
    Runs ((a, some (.bytes new)) :: (l₁ ++ (old, some (.bytes bs)) :: l₂))
      (copyData a (some old) size n) ()
      ((a, some (.bytes (bs.take k ++ new.drop k))) :: (l₁ ++ (old, some (.bytes bs)) :: l₂)) := by
  have hlen : (bs.take k).length = k := by rw [List.length_take]; omega
  unfold copyData
  by_cases hsize : 0 < size
  · simp only [hsize, if_true, ← hk]
    refine (runs_loadBytes (_ :: l₁) hold).bind ?_
    have hstore : Runs ((a, some (.bytes new)) :: (l₁ ++ (old, some (.bytes bs)) :: l₂))
        (storeBytes a (bs.take k)) () _ := runs_storeBytes [] (by omega)
    rw [hlen] at hstore
    exact hstore
  · have hzero : k = 0 := by
      rw [hk]
      split <;> omega
    simp only [hsize, if_false, hzero, List.take_zero, List.nil_append, List.drop_zero]
    exact .pure _ _

theorem runs_raiseMaxCapacity {a m : ℕ} {p : Record} (l₁ : List (ℕ × Option Cell))
    {l₂ : List (ℕ × Option Cell)} (hm : m = if p.maxCapacity < n then n else p.maxCapacity) :
    Runs (l₁ ++ (a, some (.pool p)) :: l₂) (raiseMaxCapacity a n) ()
      (l₁ ++ (a, some (.pool { p with maxCapacity := m })) :: l₂) := by
  unfold raiseMaxCapacity
  refine (runs_loadPool l₁).bind ?_
  split at hm
  · next hlt =>
    rw [if_pos hlt, hm]
    exact .store l₁
  · next hlt =>
    rw [if_neg hlt, hm]
    exact .pure _ _

/-- The slot grows, and moves. -/
theorem runs_resize_move {a : ℕ} {fresh : ℕ → UInt8} (hi : i < pool.count)
    (hn : (pool.slots i).capacity < n) (hfits : (pool.slots i).Fits pool.maxCapacity) :
    Runs ((a, none) :: cells l pool) (uringBufferPoolResize (some (a, fresh)) l.pool i n) 0
      (cells { l with block := Function.update l.block i a }
        (BufferPool.uringBufferPoolResize (some fresh) i n pool).2 ++ [(l.block i, none)]) := by
  have hsize := hfits.size
  have hbuffer := hfits.buffer
  unfold uringBufferPoolResize BufferPool.uringBufferPoolResize
  simp only [Nat.not_le.mpr hi, Nat.not_le.mpr hn, if_false]
  set k := if n < (pool.slots i).size then n else (pool.slots i).size with hk
  set m := if pool.maxCapacity < n then n else pool.maxCapacity with hm
  have hkle : k ≤ (pool.slots i).buffer.length ∧ k ≤ n := by
    rw [hk]
    split <;> omega
  -- the blocks before and behind the one of the slot
  obtain ⟨m₁, m₂, hcells, hcells'⟩ := exists_map_range_split (slotCell l pool)
    (slotCell { l with block := Function.update l.block i a }
      { pool.setSlot i ⟨n, n, (pool.slots i).buffer.take k ++ (newBlock fresh n).drop k⟩ with
        maxCapacity := m }) hi fun j hj => by
      simp only [slotCell, Function.update_of_ne hj, Pool.slots_setSlot_of_ne hj]
  rw [cells_move, hcells', cells, hcells]
  refine (runs_loadPool [_]).bind ?_
  simp only [Layout.record, Nat.not_le.mpr hi, if_false]
  refine (runs_loadNumber [_, _, _, _] (getElem?_map_range _ hi)).bind ?_
  rw [if_neg (Nat.not_le.mpr hn)]
  refine (Runs.malloc []).bind ?_
  refine (runs_loadPointer [_, _] (getElem?_map_range _ hi)).bind ?_
  refine (runs_loadNumber [_, _, _] (getElem?_map_range _ hi)).bind ?_
  refine (runs_copyData (_ :: _ :: _ :: _ :: m₁) _ hk hkle.1 (by simpa using hkle.2)).bind ?_
  refine (Runs.free (_ :: _ :: _ :: _ :: _ :: m₁)).bind ?_
  refine (runs_storePointer [_, _] (by simpa using hi)).bind ?_
  refine (runs_storeNumber [_, _, _] (by simpa using hi)).bind ?_
  refine (runs_storeNumber [_, _, _, _] (by simpa using hi)).bind ?_
  refine (runs_raiseMaxCapacity [_] hm).bind ?_
  refine (Runs.pure _ _).perm (List.Perm.refl _) ?_
  simp only [slotCell, Function.update_self, Pool.slots_setSlot_self]
  exact perm_swap_ends (_ :: _ :: _ :: _ :: m₁) m₂ _ _

/-- The address that an allocation gives, as it is before. -/
def reserved (answer : Block) : List (ℕ × Option Cell) := answer.toList.map fun b => (b.1, none)

/-- None of the addresses has a block. -/
def Unused (own : List (ℕ × Option Cell)) : Prop := ∀ a v, (a, v) ∈ own → v = none

theorem unused_reserved (answer : Block) : Unused (reserved answer) := by
  intro a v hmem
  obtain ⟨b, -, heq⟩ := List.mem_map.mp hmem
  exact (Prod.mk.inj heq).2.symm

theorem unused_nil : Unused [] := fun _ _ hmem => absurd hmem List.not_mem_nil

/-- **A resize in memory** does what a resize does. -/
theorem runs_resize (hsound : pool.Sound) (memalign : Block) (l : Layout) (i n : ℕ) :
    ∃ left, Unused left ∧ Runs (reserved memalign ++ cells l pool)
      (uringBufferPoolResize memalign l.pool i n)
      (BufferPool.uringBufferPoolResize (memalign.map Prod.snd) i n pool).1
      (cells (l.resized memalign i n pool)
        (BufferPool.uringBufferPoolResize (memalign.map Prod.snd) i n pool).2 ++ left) := by
  have hunused := unused_reserved memalign
  by_cases hi : pool.count ≤ i
  · have hl : l.resized memalign i n pool = l := by
      unfold Layout.resized
      split
      · rfl
      · rw [if_neg fun hand => absurd hand.1 (Nat.not_lt.mpr hi)]
    refine ⟨[], unused_nil, Runs.of_reserved ?_ hunused⟩
    rw [hl, List.append_nil, BufferPool.uringBufferPoolResize, if_pos hi]
    unfold uringBufferPoolResize
    refine (runs_loadPool []).bind ?_
    simp only [Layout.record, hi, if_true]
    exact .pure _ _
  have hi' := Nat.lt_of_not_le hi
  by_cases hn : n ≤ (pool.slots i).capacity
  · have hl : l.resized memalign i n pool = l := by
      unfold Layout.resized
      split
      · rfl
      · rw [if_neg fun hand => absurd hand.2 (Nat.not_lt.mpr hn)]
    refine ⟨[], unused_nil, Runs.of_reserved ?_ hunused⟩
    rw [hl, List.append_nil]
    simp only [BufferPool.uringBufferPoolResize, hi, hn, if_false, if_true]
    exact runs_resize_inPlace memalign hi' hn
  cases memalign with
  | none =>
    refine ⟨[], unused_nil, ?_⟩
    rw [List.append_nil]
    simp only [BufferPool.uringBufferPoolResize, hi, hn, if_false, Option.map_none]
    unfold uringBufferPoolResize
    refine (runs_loadPool []).bind ?_
    simp only [Layout.record, hi, if_false]
    refine (runs_loadNumber [_, _, _] (getElem?_map_range _ hi')).bind ?_
    rw [if_neg hn]
    exact Runs.malloc_none.bind (.pure _ _)
  | some b =>
    obtain ⟨a, fresh⟩ := b
    refine ⟨[(l.block i, none)], fun c v hmem => ?_, ?_⟩
    · exact (Prod.mk.inj (List.mem_singleton.mp hmem)).2
    have hresult : (BufferPool.uringBufferPoolResize (some fresh) i n pool).1 = 0 := by
      simp only [BufferPool.uringBufferPoolResize, hi, hn, if_false]
    have hl : l.resized (some (a, fresh)) i n pool =
        { l with block := Function.update l.block i a } :=
      if_pos ⟨hi', Nat.lt_of_not_le hn⟩
    rw [Option.map_some, hresult, hl]
    exact runs_resize_move hi' (Nat.lt_of_not_le hn) (hsound i hi')

/-! ## Freeing a pool -/

/-- The address of a block, when there is one, and what is there. -/
def blockAt (a : Option ℕ) (v : Option Cell) : List (ℕ × Option Cell) :=
  a.toList.map fun a => (a, v)

theorem runs_free (l₁ l₂ : List (ℕ × Option Cell)) (c : Cell) (a : Option ℕ) :
    Runs (l₁ ++ (blockAt a (some c) ++ l₂)) (free a) () (l₁ ++ (blockAt a none ++ l₂)) := by
  cases a with
  | none => exact .pure _ _
  | some a => exact .free l₁

theorem runs_calloc (l₁ l₂ : List (ℕ × Option Cell)) (a : Option ℕ) (c : Cell) :
    Runs (l₁ ++ (blockAt a none ++ l₂)) (calloc a c) a (l₁ ++ (blockAt a (some c) ++ l₂)) := by
  cases a with
  | none => exact .malloc_none
  | some a => exact .malloc l₁

theorem runs_freePool {a : ℕ} {p : Record} {c₁ c₂ c₃ : Cell} {l₂ : List (ℕ × Option Cell)} :
    Runs ((a, some (.pool p)) :: (blockAt p.buffers (some c₁) ++ (blockAt p.bufferSizes (some c₂) ++
        (blockAt p.bufferCapacities (some c₃) ++ l₂)))) (freePool a) ()
      ((a, none) :: (blockAt p.buffers none ++ (blockAt p.bufferSizes none ++
        (blockAt p.bufferCapacities none ++ l₂)))) := by
  unfold freePool
  refine (runs_loadPool []).bind ?_
  refine (runs_free [_] _ _ p.buffers).bind ?_
  have hsizes := runs_free ((a, some (.pool p)) :: blockAt p.buffers none)
    (blockAt p.bufferCapacities (some c₃) ++ l₂) c₂ p.bufferSizes
  refine hsizes.bind ?_
  have hcapacities := runs_free
    ((a, some (.pool p)) :: (blockAt p.buffers none ++ blockAt p.bufferSizes none)) l₂ c₃
    p.bufferCapacities
  simp only [List.cons_append, List.append_assoc] at hcapacities
  exact hcapacities.bind (.free [])

theorem runs_freeBuffers {a b n : ℕ} {p : Record} {ps : List (Option ℕ)} {block : ℕ → ℕ}
    {c : ℕ → Cell} {s s' : ℕ × Option Cell} {l₂ : List (ℕ × Option Cell)}
    (hb : p.buffers = some b) (hps : ∀ i < n, ps[i]? = some (some (block i))) :
    Runs ((a, some (.pool p)) :: (b, some (.pointers ps)) :: s :: s' ::
        ((List.range n).map (fun i => (block i, some (c i))) ++ l₂)) (freeBuffers a n) ()
      ((a, some (.pool p)) :: (b, some (.pointers ps)) :: s :: s' ::
        ((List.range n).map (fun i => (block i, none)) ++ l₂)) := by
  have hloop := Runs.forM (fun i => do
      let p ← loadPool a
      let buf ← loadPointer p.buffers i
      free buf)
    (fun done todo => (a, some (.pool p)) :: (b, some (.pointers ps)) :: s :: s' ::
      (done.map (fun i => (block i, none)) ++ (todo.map (fun i => (block i, some (c i))) ++ l₂)))
    (List.range n) fun done i todo hsplit => by
      have hi : i < n := List.mem_range.mp (by rw [hsplit]; simp)
      refine (runs_loadPool []).bind ?_
      rw [hb]
      refine (runs_loadPointer [_] (hps i hi)).bind ?_
      have hfree := runs_free ((a, some (.pool p)) :: (b, some (.pointers ps)) :: s :: s' ::
          done.map (fun i => (block i, none)))
        (todo.map (fun i => (block i, some (c i))) ++ l₂) (c i) (some (block i))
      simpa [blockAt] using hfree
  simp only [List.map_nil, List.nil_append] at hloop
  exact hloop

theorem runs_destroy (l : Layout) (pool : Pool) :
    ∃ left, Unused left ∧ Runs (cells l pool) (uringBufferPoolDestroy l.pool) () left := by
  refine ⟨(l.pool, none) :: (l.buffers, none) :: (l.bufferSizes, none) ::
    (l.bufferCapacities, none) :: ((List.range pool.count).map (fun i => (l.block i, none)) ++ []),
    ?_, ?_⟩
  · intro a v hmem
    simp only [List.append_nil, List.mem_cons, List.mem_map, Prod.mk.injEq] at hmem
    rcases hmem with h | h | h | h | ⟨-, -, -, h⟩
    · exact h.2
    · exact h.2
    · exact h.2
    · exact h.2
    · exact h.symm
  · unfold uringBufferPoolDestroy
    refine (runs_loadPool []).bind ?_
    simp only [Layout.record, Option.isSome_some, if_true]
    have hbuffers := @runs_freeBuffers l.pool l.buffers pool.count (l.record pool)
      ((List.range pool.count).map fun i => some (l.block i)) l.block
      (fun i => .bytes (pool.slots i).buffer)
      (l.bufferSizes, some (.numbers ((List.range pool.count).map fun i => (pool.slots i).size)))
      (l.bufferCapacities, some (.numbers ((List.range pool.count).map fun i =>
        (pool.slots i).capacity))) [] rfl fun i hi => getElem?_map_range _ hi
    rw [List.append_nil] at hbuffers
    exact hbuffers.bind runs_freePool

/-! ## A new pool -/

/-- The address of the block of a new slot, and its bytes. -/
def newAddress (memalign : ℕ → Block) (i : ℕ) : ℕ := ((memalign i).map Prod.fst).getD 0

def newBytes (memalign : ℕ → Block) (size i : ℕ) : List UInt8 :=
  newBlock (((memalign i).map Prod.snd).getD fun _ => 0) size

/-- Where a new pool is. -/
def Callocs.layout (memalign : ℕ → Block) (callocs : Callocs) : Option Layout :=
  match callocs with
  | ⟨some pool, some buffers, some bufferSizes, some bufferCapacities⟩ =>
    some ⟨pool, buffers, bufferSizes, bufferCapacities, newAddress memalign⟩
  | _ => none

/-- The addresses that the allocations of a new pool give. -/
def reservedAll (callocs : Callocs) (memalign : ℕ → Block) (count : ℕ) :
    List (ℕ × Option Cell) :=
  blockAt callocs.pool none ++ (blockAt callocs.buffers none ++ (blockAt callocs.bufferSizes none ++
    (blockAt callocs.bufferCapacities none ++
      (List.range' 0 count).flatMap fun i => reserved (memalign i))))

variable {callocs : Callocs} {memalign : ℕ → Block} {count size : ℕ}

theorem unused_blockAt (a : Option ℕ) : Unused (blockAt a none) := by
  intro b v hmem
  obtain ⟨c, -, heq⟩ := List.mem_map.mp hmem
  exact (Prod.mk.inj heq).2.symm

theorem Unused.append {own own' : List (ℕ × Option Cell)} (h : Unused own) (h' : Unused own') :
    Unused (own ++ own') := fun a v hmem =>
  (List.mem_append.mp hmem).elim (h a v) (h' a v)

theorem Unused.cons {own : List (ℕ × Option Cell)} (h : Unused own) (a : ℕ) :
    Unused ((a, none) :: own) := by
  intro b v hmem
  rcases List.mem_cons.mp hmem with heq | hmem
  · exact (Prod.mk.inj heq).2
  · exact h b v hmem

theorem unused_flatMap (memalign : ℕ → Block) (is : List ℕ) :
    Unused (is.flatMap fun i => reserved (memalign i)) := by
  intro a v hmem
  obtain ⟨i, -, hi⟩ := List.mem_flatMap.mp hmem
  exact unused_reserved (memalign i) a v hi

theorem unused_map (n : ℕ) (block : ℕ → ℕ) :
    Unused ((List.range n).map fun i => (block i, (none : Option Cell))) := by
  intro a v hmem
  obtain ⟨i, -, heq⟩ := List.mem_map.mp hmem
  exact (Prod.mk.inj heq).2.symm

/-- A new pool of which `i` slots have their blocks. -/
def partCells (memalign : ℕ → Block) (l : Layout) (count size i : ℕ) : List (ℕ × Option Cell) :=
  (l.pool, some (.pool ⟨some l.buffers, some l.bufferSizes, some l.bufferCapacities, count, size⟩)) ::
  (l.buffers, some (.pointers ((List.range count).map fun j =>
    if j < i then some (newAddress memalign j) else none))) ::
  (l.bufferSizes, some (.numbers ((List.range count).map fun _ => 0))) ::
  (l.bufferCapacities, some (.numbers ((List.range count).map fun j => if j < i then size else 0))) ::
  ((List.range i).map fun j => (newAddress memalign j, some (.bytes (newBytes memalign size j))))

/-- The next slot gets its block. -/
theorem update_below {β : Type*} (f : ℕ → β) (d : β) (i : ℕ) :
    Function.update (fun j => if j < i then f j else d) i (f i) =
      fun j => if j < i + 1 then f j else d := by
  funext j
  by_cases hj : j = i
  · subst hj
    simp
  · rw [Function.update_of_ne hj]
    have hiff : j < i + 1 ↔ j < i := by omega
    simp only [hiff]

theorem update_const {β : Type*} (d : β) (i : ℕ) :
    Function.update (fun _ : ℕ => d) i d = fun _ => d := by
  funext j
  by_cases hj : j = i
  · rw [hj, Function.update_self]
  · rw [Function.update_of_ne hj]

/-- A failure frees the blocks that the first slots have, and the pool. -/
theorem runs_allocFails (memalign : ℕ → Block) (l : Layout) (size : ℕ) {count i : ℕ}
    (hi : i < count)
    {rest : List (ℕ × Option Cell)} (hrest : Unused rest) : ∃ left, Unused left ∧
      Runs (partCells memalign l count size i ++ rest) (do
        freeBuffers l.pool i
        freePool l.pool
        pure none : Program (Option ℕ)) none left := by
  refine ⟨(l.pool, none) :: (l.buffers, none) :: (l.bufferSizes, none) ::
    (l.bufferCapacities, none) ::
      ((List.range i).map (fun j => (newAddress memalign j, none)) ++ rest), ?_, ?_⟩
  · exact ((((((unused_map i _).append hrest).cons _).cons _).cons _).cons _)
  · refine Runs.bind (@runs_freeBuffers _ _ _ _ _ (newAddress memalign)
      (fun j => .bytes (newBytes memalign size j)) _ _ _ rfl fun j hj => ?_) ?_
    · rw [getElem?_map_range _ (Nat.lt_trans hj hi), if_pos hj]
    · exact runs_freePool.bind (.pure _ _)

/-- The next slot gets its block. -/
theorem partCells_succ (l : Layout) {count size i : ℕ} {rest : List (ℕ × Option Cell)} :
    (l.pool, some (.pool ⟨some l.buffers, some l.bufferSizes, some l.bufferCapacities, count,
      size⟩)) ::
    (l.buffers, some (.pointers (((List.range count).map fun j =>
      if j < i then some (newAddress memalign j) else none).set i
        (some (newAddress memalign i))))) ::
    (l.bufferSizes, some (.numbers (((List.range count).map fun _ => 0).set i 0))) ::
    (l.bufferCapacities,
      some (.numbers (((List.range count).map fun j => if j < i then size else 0).set i size))) ::
    ((List.range i).map (fun j => (newAddress memalign j,
        some (Cell.bytes (newBytes memalign size j)))) ++
      (newAddress memalign i, some (.bytes (newBytes memalign size i))) :: rest) =
    partCells memalign l count size (i + 1) ++ rest := by
  have hptrs := map_range_set (n := count) id
    (fun j => if j < i then some (newAddress memalign j) else none) i (some (newAddress memalign i))
  have hsizes := map_range_set (n := count) id (fun _ => 0) i 0
  have hcapacities := map_range_set (n := count) id (fun j => if j < i then size else 0) i size
  rw [update_below (fun j => some (newAddress memalign j))] at hptrs
  rw [update_const] at hsizes
  rw [update_below (fun _ => size)] at hcapacities
  simp only [id_eq] at hptrs hsizes hcapacities
  rw [hptrs, hsizes, hcapacities, partCells, List.range_succ]
  simp

theorem runs_allocBuffers (memalign : ℕ → Block) (l : Layout) (count size : ℕ) :
    ∀ n i, i + n = count →
    ((∀ j, i ≤ j → j < count → (memalign j).isSome) →
      Runs (partCells memalign l count size i ++
          (List.range' i n).flatMap fun i => reserved (memalign i))
        (allocBuffers memalign l.pool size i n) (some l.pool)
        (partCells memalign l count size count)) ∧
    ((∃ j, i ≤ j ∧ j < count ∧ memalign j = none) → ∃ left, Unused left ∧
      Runs (partCells memalign l count size i ++
          (List.range' i n).flatMap fun i => reserved (memalign i))
        (allocBuffers memalign l.pool size i n) none left) := by
  intro n
  induction n with
  | zero =>
    intro i hi
    rw [Nat.add_zero] at hi
    subst hi
    constructor
    · intro _
      simp only [List.range'_zero, List.flatMap_nil, List.append_nil]
      exact .pure _ _
    · rintro ⟨j, hij, hj, -⟩
      omega
  | succ n ih =>
    intro i hi
    have hlt : i < count := by omega
    obtain ⟨hall, hfail⟩ := ih (i + 1) (by omega)
    rw [List.range'_succ, List.flatMap_cons]
    cases hb : memalign i with
    | none =>
      constructor
      · intro hsome
        have := hsome i le_rfl hlt
        rw [hb] at this
        exact absurd this (by simp)
      · intro _
        obtain ⟨left, hunused, hruns⟩ := runs_allocFails memalign l size hlt
          (unused_flatMap memalign (List.range' (i + 1) n))
        refine ⟨left, hunused, ?_⟩
        unfold allocBuffers
        rw [hb]
        exact Runs.malloc_none.bind hruns
    | some b =>
      obtain ⟨a, fresh⟩ := b
      have haddress : newAddress memalign i = a := by rw [newAddress, hb]; rfl
      have hbytes : newBytes memalign size i = newBlock fresh size := by rw [newBytes, hb]; rfl
      -- one round of the loop
      have hround : ∀ {x left}, Runs (partCells memalign l count size (i + 1) ++
            (List.range' (i + 1) n).flatMap fun i => reserved (memalign i))
            (allocBuffers memalign l.pool size (i + 1) n) x left →
          Runs (partCells memalign l count size i ++ (reserved (some (a, fresh)) ++
            (List.range' (i + 1) n).flatMap fun i => reserved (memalign i)))
            (allocBuffers memalign l.pool size i (n + 1)) x left := by
        intro x left hrest
        rw [← partCells_succ, haddress, hbytes] at hrest
        rw [allocBuffers, hb]
        refine (Runs.malloc (_ :: _ :: _ :: _ :: (List.range i).map _)).bind ?_
        refine (runs_loadPool []).bind ?_
        refine (runs_storePointer [_] (by simpa using hlt)).bind ?_
        refine (runs_storeNumber [_, _] (by simpa using hlt)).bind ?_
        exact (runs_storeNumber [_, _, _] (by simpa using hlt)).bind hrest
      constructor
      · exact fun hsome => hround (hall fun j hj => hsome j (by omega))
      · rintro ⟨j, hij, hj, hnone⟩
        have hne : j ≠ i := by
          rintro rfl
          exact absurd (hb.symm.trans hnone) (by simp)
        obtain ⟨left, hunused, hruns⟩ := hfail ⟨j, by omega, hj, hnone⟩
        exact ⟨left, hunused, hround hruns⟩

/-- What `BufferPool` knows of the answers. -/
def plainMemalign (memalign : ℕ → Block) (i : ℕ) : Memalign := (memalign i).map Prod.snd

/-- The structure and the arrays as `calloc` leaves them. -/
theorem partCells_zero (l : Layout) : partCells memalign l count size 0 =
    (l.pool, some (.pool
      ⟨some l.buffers, some l.bufferSizes, some l.bufferCapacities, count, size⟩)) ::
    (l.buffers, some (.pointers (List.replicate count none))) ::
    (l.bufferSizes, some (.numbers (List.replicate count 0))) ::
    (l.bufferCapacities, some (.numbers (List.replicate count 0))) :: [] := by
  simp [partCells]

theorem partCells_all (l : Layout) (hl : l.block = newAddress memalign) :
    partCells memalign l count size count = cells l {
      slots := fun i => ⟨0, size, newBlock ((plainMemalign memalign i).getD fun _ => 0) size⟩
      count := count
      maxCapacity := size } := by
  have hptrs : ((List.range count).map fun j =>
      if j < count then some (newAddress memalign j) else none) =
      (List.range count).map fun j => some (newAddress memalign j) :=
    List.map_congr_left fun j hj => if_pos (List.mem_range.mp hj)
  have hcapacities : ((List.range count).map fun j => if j < count then size else 0) =
      (List.range count).map fun _ => size :=
    List.map_congr_left fun j hj => if_pos (List.mem_range.mp hj)
  simp only [partCells, cells, hptrs, hcapacities, Layout.record, hl]
  congr 4
  refine List.map_congr_left fun j _ => ?_
  rw [slotCell, hl]
  rfl

/-- The four allocations that come first. -/
theorem runs_arrays {pool : ℕ} {buffers sizes capacities x : Option ℕ}
    {left : List (ℕ × Option Cell)}
    (hrest : Runs ((pool, some (.pool ⟨buffers, sizes, capacities, count, size⟩)) ::
        (blockAt buffers (some (.pointers (List.replicate count none))) ++
        (blockAt sizes (some (.numbers (List.replicate count 0))) ++
        (blockAt capacities (some (.numbers (List.replicate count 0))) ++
          (List.range' 0 count).flatMap fun i => reserved (memalign i)))))
      (if buffers.isSome ∧ sizes.isSome ∧ capacities.isSome then
        allocBuffers memalign pool size 0 count
      else do
        freePool pool
        pure none) x left) :
    Runs (reservedAll ⟨some pool, buffers, sizes, capacities⟩ memalign count)
      (uringBufferPoolCreate ⟨some pool, buffers, sizes, capacities⟩ memalign count size) x
      left := by
  refine (Runs.malloc []).bind ?_
  refine (runs_calloc [_] _ buffers _).bind ?_
  refine (runs_calloc (_ :: blockAt buffers _) _ sizes _).bind ?_
  have hcapacities := runs_calloc ((pool, some (.pool ⟨none, none, none, 0, 0⟩)) ::
      (blockAt buffers (some (.pointers (List.replicate count none))) ++
        blockAt sizes (some (.numbers (List.replicate count 0)))))
    ((List.range' 0 count).flatMap fun i => reserved (memalign i)) capacities
    (.numbers (List.replicate count 0))
  simp only [List.cons_append, List.append_assoc] at hcapacities
  exact hcapacities.bind ((Runs.store []).bind hrest)

/-- One of the arrays is missing. -/
theorem runs_create_null {pool : ℕ} {buffers sizes capacities : Option ℕ}
    (hnull : ¬ (buffers.isSome ∧ sizes.isSome ∧ capacities.isSome)) : ∃ left, Unused left ∧
      Runs (reservedAll ⟨some pool, buffers, sizes, capacities⟩ memalign count)
        (uringBufferPoolCreate ⟨some pool, buffers, sizes, capacities⟩ memalign count size)
        none left := by
  have hslots := unused_flatMap memalign (List.range' 0 count)
  have hfree := @runs_freePool pool ⟨buffers, sizes, capacities, count, size⟩
    (.pointers (List.replicate count none)) (.numbers (List.replicate count 0))
    (.numbers (List.replicate count 0))
    ((List.range' 0 count).flatMap fun i => reserved (memalign i))
  refine ⟨_, ?_, runs_arrays (by rw [if_neg hnull]; exact hfree.bind (.pure _ none))⟩
  exact ((unused_blockAt _).append
    ((unused_blockAt _).append ((unused_blockAt _).append hslots))).cons _

/-- **A new pool in memory**: there is one when `BufferPool` has one, and otherwise nothing is
left of what was allocated. -/
theorem runs_create (callocs : Callocs) (memalign : ℕ → Block) (count size : ℕ) :
    (∃ l pool, callocs.layout memalign = some l ∧
      BufferPool.uringBufferPoolCreate (callocs.layout memalign).isSome (plainMemalign memalign)
        count size = some pool ∧
      Runs (reservedAll callocs memalign count) (uringBufferPoolCreate callocs memalign count size)
        (some l.pool) (cells l pool)) ∨
    (BufferPool.uringBufferPoolCreate (callocs.layout memalign).isSome (plainMemalign memalign)
        count size = none ∧ ∃ left, Unused left ∧
      Runs (reservedAll callocs memalign count) (uringBufferPoolCreate callocs memalign count size)
        none left) := by
  have hslots := unused_flatMap memalign (List.range' 0 count)
  match callocs with
  | ⟨none, buffers, sizes, capacities⟩ =>
    refine Or.inr ⟨by simp [BufferPool.uringBufferPoolCreate, Callocs.layout], _, ?_,
      Runs.malloc_none.bind (.pure _ _)⟩
    exact (unused_blockAt _).append
      ((unused_blockAt _).append ((unused_blockAt _).append ((unused_blockAt _).append hslots)))
  | ⟨some pool, none, sizes, capacities⟩ =>
    exact Or.inr ⟨by simp [BufferPool.uringBufferPoolCreate, Callocs.layout],
      runs_create_null (by simp)⟩
  | ⟨some pool, some buffers, none, capacities⟩ =>
    exact Or.inr ⟨by simp [BufferPool.uringBufferPoolCreate, Callocs.layout],
      runs_create_null (by simp)⟩
  | ⟨some pool, some buffers, some sizes, none⟩ =>
    exact Or.inr ⟨by simp [BufferPool.uringBufferPoolCreate, Callocs.layout],
      runs_create_null (by simp)⟩
  | ⟨some pool, some buffers, some sizes, some capacities⟩ =>
    let l : Layout := ⟨pool, buffers, sizes, capacities, newAddress memalign⟩
    obtain ⟨hall, hfail⟩ := runs_allocBuffers memalign l count size count 0
      (Nat.zero_add count)
    rw [partCells_zero] at hall hfail
    by_cases hsome : ∀ i < count, (memalign i).isSome
    · have hplain : ∀ i < count, (plainMemalign memalign i).isSome := fun i hi => by
        simpa [plainMemalign] using hsome i hi
      have hloop := hall fun j _ hj => hsome j hj
      rw [partCells_all l rfl] at hloop
      exact Or.inl ⟨l, _, rfl, if_pos ⟨rfl, hplain⟩, runs_arrays hloop⟩
    · obtain ⟨i, hi⟩ := not_forall.mp hsome
      obtain ⟨hlt, hnone⟩ := Classical.not_imp.mp hi
      have hnone' : memalign i = none := by simpa using hnone
      refine Or.inr ⟨if_neg fun hand => ?_, ?_⟩
      · have := hand.2 i hlt
        rw [plainMemalign, hnone'] at this
        exact absurd this (by simp)
      · obtain ⟨left, hunused, hloop⟩ := hfail ⟨i, Nat.zero_le i, hlt, hnone'⟩
        exact ⟨left, hunused, runs_arrays hloop⟩

end Memory
end BufferPool
end Native
end Pyuring
