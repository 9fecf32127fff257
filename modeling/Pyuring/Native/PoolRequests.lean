import Pyuring.Lib.Expansion
import Pyuring.Native.PoolMemory
import Pyuring.Native.PoolReads

/-!
# Requests on the blocks of a pool

A process with one `BufferPool`.  The methods of the pool run over the heap of the process, the
rest of which allocates, writes and frees its own blocks, and requests are under way for which
`get_ptr` gave the address: the kernel writes there when it completes them, whatever has become
of the address by then.

1. `serves_of_reach`: while the kernel writes within blocks of bytes that are in use, whosever they
   are by then, and `get` need not look for the end of a slot (`Described`), no method touches
   memory that is not in use, all do what they do to the slots of `BufferPool`, and a pool that is
   closed has left nothing behind.
2. `placed_iff_tidy`: the requests write to the slots that they were made for as long as no slot
   with a request grows and no pool with requests is closed, and no longer.
3. `exec_plain_of_tidy`: in such a run a completion is a write to its slot, and nothing else.
-/

namespace Pyuring
namespace Native
namespace BufferPool
namespace Memory

open Trace Heap

/-- What a method returns. -/
inductive Reply where
  | done
  | bytes (bs : List UInt8)
  | pointer (ptr size : ℕ)
  deriving DecidableEq

inductive Op where
  | resize (memalign : Block) (index newSize : ℤ)
  | setSize (index size : ℤ)
  | get (index : ℤ)
  | getPtr (index : ℤ)
  | close

namespace Op

/-- A method of the object, which may clear `_pool`. -/
def run (object : Option ℕ) : Op → Program (Except Error Reply × Option ℕ)
  | .resize memalign index newSize => do
    let r ← Memory.resize memalign index newSize object
    pure ((r.map fun _ => .done).mapError .uringError, object)
  | .setSize index size => do
    let r ← Memory.setSize index size object
    pure ((r.map fun _ => .done).mapError .uringError, object)
  | .get index => do
    let r ← Memory.get index object
    pure (r.map .bytes, object)
  | .getPtr index => do
    let r ← Memory.getPtr index object
    pure ((r.map fun (ptr, size) => .pointer ptr size).mapError .uringError, object)
  | .close => do
    Memory.close object
    pure (.ok .done, none)

/-- The operation on the slots. -/
def plain : Op → BufferPool.Op
  | .resize memalign index newSize => .resize (memalign.map Prod.snd) index newSize
  | .setSize index size => .setSize index size
  | .get index => .get index
  | .getPtr index => .getPtr index
  | .close => .close

/-- What it returns, when `block` says where the blocks of the slots are. -/
def reply (block : ℕ → ℕ) (h : Handle) : Op → Except Error Reply
  | .resize memalign index newSize =>
    ((h.resize (memalign.map Prod.snd) index newSize).1.map fun _ => .done).mapError .uringError
  | .setSize index size => ((h.setSize index size).1.map fun _ => .done).mapError .uringError
  | .get index => (h.get index).map .bytes
  | .getPtr index =>
    ((h.getPtr index).map fun (i, size) => .pointer (block i) size).mapError .uringError
  | .close => .ok .done

/-- An allocation gives an address that is not in use. -/
def Fresh (heap : Heap ℕ Cell) : Op → Prop
  | .resize (some (a, _)) _ _ => heap a = none
  | _ => True

instance (heap : Heap ℕ Cell) : (o : Op) → Decidable (o.Fresh heap)
  | .resize (some (a, _)) _ _ => inferInstanceAs (Decidable (heap a = none))
  | .resize none _ _ => isTrue trivial
  | .setSize _ _ => isTrue trivial
  | .get _ => isTrue trivial
  | .getPtr _ => isTrue trivial
  | .close => isTrue trivial

end Op

/-- A request that is under way: the slot it was made for, the address that `get_ptr` gave, and
the number of bytes. -/
structure Request where
  slot : ℕ
  addr : ℕ
  len : ℕ
  deriving DecidableEq, Repr

/-- The heap of the process, what of it is not the pool's, and the object. -/
structure State where
  heap : Heap ℕ Cell
  others : Heap ℕ Cell
  object : Option ℕ
  inFlight : List Request

/-- A method is called, `get_ptr` is called and its address given to the kernel, which completes a
request, or the rest of the process does something. -/
inductive Event where
  | op (o : Op)
  | submit (index : ℤ) (n : ℕ)
  | complete (k : ℕ) (bytes : List UInt8)
  | allocate (a : ℕ) (c : Cell)
  | write (a : ℕ) (c : Cell)
  | release (a : ℕ)

/-- The kernel writes to a block.  `Described` leaves out the writes that do more than this: beyond
the end of the block, to the arrays and the structure of a pool, and where no block is. -/
def Cell.overwrite (bytes : List UInt8) : Cell → Cell
  | .bytes bs => .bytes (bytes.take bs.length ++ bs.drop bytes.length)
  | c => c

/-- A block of bytes with room for `n`. -/
def Cell.HasRoom (n : ℕ) : Cell → Prop
  | .bytes bs => n ≤ bs.length
  | _ => False

instance (n : ℕ) : (c : Cell) → Decidable (c.HasRoom n)
  | .bytes bs => inferInstanceAs (Decidable (n ≤ bs.length))
  | .pool _ => isFalse id
  | .pointers _ => isFalse id
  | .numbers _ => isFalse id

def overwrite (a : ℕ) (bytes : List UInt8) (heap : Heap ℕ Cell) : Heap ℕ Cell :=
  Function.update heap a ((heap a).map (Cell.overwrite bytes))

namespace State

/-- What happens at an address of the rest of the process. -/
def elsewhere (a : ℕ) (v : Option Cell) (s : State) : State :=
  { s with heap := Function.update s.heap a v, others := Function.update s.others a v }

/-- The address that `get_ptr` gives for a slot. -/
def blockOf (s : State) (i : ℕ) : Option ℕ :=
  s.object.bind fun pool => (uringBufferPoolGet pool i s.heap).bind fun r => r.1.1

/-- The size that it gives. -/
def usedOf (s : State) (i : ℕ) : Option ℕ :=
  s.object.bind fun pool => (uringBufferPoolGet pool i s.heap).map fun r => r.1.2

/-- The size of its block. -/
def capacityOf (s : State) (i : ℕ) : Option ℕ :=
  s.object.bind fun pool => ((do
    let p ← loadPool pool
    loadNumber p.bufferCapacities i : Program ℕ) s.heap).map Prod.fst

end State

def step (s : State) : Event → Option State
  | .op o =>
    if o.Fresh s.heap then
      (o.run s.object s.heap).map fun (r, heap) => { s with heap := heap, object := r.2 }
    else none
  | .submit index n => (getPtr index s.object s.heap).map fun (r, heap) => match r with
    | .error _ => { s with heap := heap }
    | .ok (ptr, _) =>
      { s with heap := heap, inFlight := s.inFlight ++ [⟨cUint index, ptr, n⟩] }
  | .complete k bytes => match s.inFlight[k]? with
    | none => none
    | some r =>
      if bytes.length ≤ r.len then
        some { s with
          heap := overwrite r.addr bytes s.heap
          others := overwrite r.addr bytes s.others
          inFlight := s.inFlight.eraseIdx k }
      else none
  | .allocate a c => if s.heap a = none then some (s.elsewhere a (some c)) else none
  | .write a c => if (s.others a).isSome then some (s.elsewhere a (some c)) else none
  | .release a => if (s.others a).isSome then some (s.elsewhere a none) else none

/-- A completion writes within a block of bytes that is in use, and `get` is not called for a slot
of `2 ^ 32 - 1` bytes, of which `string_at` reads those before a zero. -/
def Described (s : State) : Event → Prop
  | .complete k bytes => ∀ r ∈ s.inFlight[k]?, ∃ c ∈ s.heap r.addr, c.HasRoom bytes.length
  | .op (.get index) => s.usedOf (cUint index) ≠ some (2 ^ 32 - 1)
  | _ => True

instance (s : State) : (e : Event) → Decidable (Described s e)
  | .complete k bytes => inferInstanceAs (Decidable
      (∀ r ∈ s.inFlight[k]?, ∃ c ∈ s.heap r.addr, c.HasRoom bytes.length))
  | .op (.get index) =>
    inferInstanceAs (Decidable (s.usedOf (cUint index) ≠ some (2 ^ 32 - 1)))
  | .op (.resize _ _ _) => isTrue trivial
  | .op (.setSize _ _) => isTrue trivial
  | .op (.getPtr _) => isTrue trivial
  | .op .close => isTrue trivial
  | .submit _ _ => isTrue trivial
  | .allocate _ _ => isTrue trivial
  | .write _ _ => isTrue trivial
  | .release _ => isTrue trivial

/-- A process in which a pool was created. -/
def start (others heap : Heap ℕ Cell) (pool : ℕ) : State := ⟨heap, others, some pool, []⟩

/-! ## The pool of a process -/

/-- The heap is the pool `h` at `l`, and what is not its own. -/
def Stored (h : Handle) (l : Layout) (s : State) : Prop :=
  match h.pool with
  | none => s.object = none ∧ s.heap = s.others
  | some pool => s.object = some l.pool ∧ Owns s.heap (cells l pool) s.others ∧ pool.Sound

variable {h h' : Handle} {l : Layout} {pool : Pool} {s t : State}

theorem stored_some (hpool : h.pool = some pool) : Stored h l s ↔
    s.object = some l.pool ∧ Owns s.heap (cells l pool) s.others ∧ pool.Sound := by
  rw [Stored, hpool]

theorem stored_none (hpool : h.pool = none) :
    Stored h l s ↔ s.object = none ∧ s.heap = s.others := by
  rw [Stored, hpool]

theorem isSome_of_mem_cells {a : ℕ} {v : Option Cell} (hmem : (a, v) ∈ cells l pool) :
    v.isSome := by
  simp only [cells, slotCell, List.mem_cons, List.mem_map, Prod.mk.injEq] at hmem
  rcases hmem with h | h | h | h | ⟨i, -, -, h⟩
  · rw [h.2]; rfl
  · rw [h.2]; rfl
  · rw [h.2]; rfl
  · rw [h.2]; rfl
  · rw [← h]; rfl

/-- The layout after an operation. -/
def Op.layout (pool : Pool) (l : Layout) : Op → Layout
  | .resize memalign index newSize => l.resized memalign (cUint index) (cUint newSize) pool
  | _ => l

/-! ## Methods -/

theorem runs_change (operation : String) {f : ℕ → Program ℤ} {ret : ℤ} {a : ℕ}
    {pre post : List (ℕ × Option Cell)} (hf : Runs pre (f a) ret post) :
    Runs pre (change operation f (some a)) (raiseForNegErrno ret operation) post :=
  hf.bind (.pure _ _)

theorem runs_getPtr (l : Layout) (pool : Pool) (index : ℤ) :
    Runs (cells l pool) (getPtr index (some l.pool))
      ((Handle.getPtr index ⟨some pool⟩).map fun (i, size) => (l.block i, size))
      (cells l pool) := by
  refine (runs_get l pool (cUint index)).bind ?_
  unfold Handle.getPtr Handle.lookup BufferPool.uringBufferPoolGet
  by_cases hi : pool.count ≤ cUint index
  · simp only [Handle.poolLive, hi, if_true]
    exact .pure _ _
  · simp only [Handle.poolLive, hi, if_false]
    exact .pure _ _

theorem runs_getBytes (l : Layout) (hsound : pool.Sound) {index : ℤ}
    (hend : (BufferPool.uringBufferPoolGet (cUint index) pool).2 ≠ 2 ^ 32 - 1) :
    Runs (cells l pool) (get index (some l.pool)) (Handle.get index ⟨some pool⟩)
      (cells l pool) := by
  refine (runs_getPtr l pool index).bind ?_
  unfold BufferPool.uringBufferPoolGet at hend
  unfold Handle.get Handle.getPtr Handle.lookup BufferPool.uringBufferPoolGet
  by_cases hi : pool.count ≤ cUint index
  · simp only [Handle.poolLive, hi, if_true]
    exact .pure _ _
  · simp only [hi, if_false] at hend
    simp only [Handle.poolLive, hi, if_false, Except.map]
    have hi' := Nat.lt_of_not_le hi
    have hfits := hsound _ hi'
    have hsize : (pool.slots (cUint index)).size ≤ (pool.slots (cUint index)).buffer.length := by
      rw [hfits.buffer]
      exact hfits.size
    unfold stringAt Handle.stringAt
    split
    · exact (runs_loadBlock l pool hi' hsize).bind (.pure _ _)
    · exact .pure _ _

theorem owns_reserved {heap others : Heap ℕ Cell} (hown : Owns heap (cells l pool) others)
    {memalign : Block} {index newSize : ℤ}
    (hfresh : (Op.resize memalign index newSize).Fresh heap) :
    Owns heap (reserved memalign ++ cells l pool) others := by
  cases memalign with
  | none => exact hown
  | some b =>
    exact hown.reserve hfresh (hown.notMem_of_free (fun _ _ => isSome_of_mem_cells) hfresh)

/-- A method that leaves a pool of the object in memory. -/
theorem stored_of_runs {τ : Type} {p : Program τ} {x : τ} {l' : Layout} {pool' : Pool}
    {pre left : List (ℕ × Option Cell)} (f : τ → Except Error Reply)
    (hp : Runs pre p x (cells l' pool' ++ left)) (hown : Owns s.heap pre s.others)
    (hunused : Unused left) (hsound : pool'.Sound) (hl : l'.pool = l.pool) : ∃ heap,
      (p >>= fun r => pure (f r, some l.pool)) s.heap = some ((f x, some l.pool), heap) ∧
      Stored ⟨some pool'⟩ l' { s with heap := heap, object := some l.pool } := by
  obtain ⟨heap, heq, hown'⟩ := hp s.heap s.others hown
  refine ⟨heap, ?_, (stored_some rfl).mpr ⟨congrArg some hl.symm, hown'.release hunused, hsound⟩⟩
  rw [bind_apply, heq]
  rfl

theorem resized_pool (memalign : Block) (i n : ℕ) (pool : Pool) (l : Layout) :
    (l.resized memalign i n pool).pool = l.pool := by
  unfold Layout.resized
  split
  · rfl
  · split <;> rfl

theorem usedOf_eq (hpool : h.pool = some pool) (hst : Stored h l s) (i : ℕ) :
    s.usedOf i = some (BufferPool.uringBufferPoolGet i pool).2 := by
  obtain ⟨hobject, hown, -⟩ := (stored_some hpool).mp hst
  obtain ⟨heap, heq, -⟩ := runs_get l pool i s.heap s.others hown
  simp only [State.usedOf, hobject, Option.bind_some, heq, Option.map_some]

/-- **A method in memory** returns what it returns for the slots, and the memory holds the pool
after it. -/
theorem run_op (hst : Stored h l s) {o : Op} (hfresh : o.Fresh s.heap)
    (hdescribed : Described s (.op o)) : ∃ heap object l',
    o.run s.object s.heap = some ((o.reply l.block h, object), heap) ∧
    (∀ pool, h.pool = some pool → l' = o.layout pool l) ∧
    Stored (o.plain.run h).2 l' { s with heap := heap, object := object } := by
  obtain ⟨pool?⟩ := h
  cases pool? with
  | none =>
    obtain ⟨hobject, hheap⟩ := (stored_none rfl).mp hst
    refine ⟨s.heap, none, l, ?_, fun pool hpool => absurd hpool (by simp), ?_⟩
    · rw [hobject]
      cases o <;> rfl
    · cases o <;> exact (stored_none rfl).mpr ⟨rfl, hheap⟩
  | some pool =>
    obtain ⟨hobject, hown, hsound⟩ := (stored_some rfl).mp hst
    have hown' : Owns s.heap (cells l pool ++ []) s.others := by rwa [List.append_nil]
    rw [hobject]
    cases o with
    | resize memalign index newSize =>
      obtain ⟨left, hunused, hruns⟩ := runs_resize hsound memalign l (cUint index) (cUint newSize)
      have hsound' := (changes_resize hsound (memalign.map Prod.snd) (cUint index)
        (cUint newSize)).sound hsound
      obtain ⟨heap, heq, hst'⟩ := stored_of_runs
        (fun r => (r.map fun _ => Reply.done).mapError .uringError)
        (runs_change "uring_buffer_pool_resize" hruns) (owns_reserved hown hfresh)
        hunused hsound' (resized_pool memalign _ _ pool l)
      refine ⟨heap, some l.pool, _, heq, fun pool' hpool' => ?_, hst'⟩
      rw [← Option.some.inj hpool']
      rfl
    | setSize index size =>
      have hruns := runs_setSize l pool (cUint index) (cUint size)
      rw [← List.append_nil (cells l (BufferPool.uringBufferPoolSetSize _ _ pool).2)] at hruns
      obtain ⟨heap, heq, hst'⟩ := stored_of_runs
        (fun r => (r.map fun _ => Reply.done).mapError .uringError)
        (runs_change "uring_buffer_pool_set_size" hruns) hown unused_nil
        ((changes_setSize (cUint index) (cUint size)).sound hsound) rfl
      exact ⟨heap, some l.pool, l, heq, fun _ _ => rfl, hst'⟩
    | get index =>
      have hused := usedOf_eq rfl hst (cUint index)
      have hruns := runs_getBytes l hsound fun hend => hdescribed (by rw [hused, hend])
      rw [← List.append_nil (cells l pool)] at hruns
      obtain ⟨heap, heq, hst'⟩ := stored_of_runs (fun r => r.map Reply.bytes) hruns hown'
        unused_nil hsound rfl
      exact ⟨heap, some l.pool, l, heq, fun _ _ => rfl, hst'⟩
    | getPtr index =>
      have hruns := runs_getPtr l pool index
      rw [← List.append_nil (cells l pool)] at hruns
      obtain ⟨heap, heq, hst'⟩ := stored_of_runs
        (fun r => (r.map fun (ptr, size) => Reply.pointer ptr size).mapError .uringError) hruns
        hown' unused_nil hsound rfl
      refine ⟨heap, some l.pool, l, ?_, fun _ _ => rfl, hst'⟩
      rw [Op.run, heq, Op.reply]
      cases Handle.getPtr index ⟨some pool⟩ <;> rfl
    | close =>
      obtain ⟨left, hunused, hruns⟩ := runs_destroy l pool
      obtain ⟨heap, heq, hown'⟩ := hruns s.heap s.others hown
      refine ⟨heap, none, l, ?_, fun _ _ => rfl,
        (stored_none rfl).mpr ⟨rfl, hown'.eq_others hunused⟩⟩
      rw [Op.run, bind_apply, Memory.close, heq]
      rfl

/-! ## Completions -/

variable {heap others : Heap ℕ Cell} {a i n : ℕ} {bytes : List UInt8}

theorem overwrite_none (ha : heap a = none) (bytes : List UInt8) :
    overwrite a bytes heap = heap := by
  rw [overwrite, ha, Option.map_none, ← ha, Function.update_eq_self]

theorem cells_buffer (l : Layout) (pool : Pool) (i : ℕ) (buffer : List UInt8) :
    cells l (pool.setSlot i { pool.slots i with buffer := buffer }) =
      (l.pool, some (.pool (l.record pool))) ::
      (l.buffers, some (.pointers ((List.range pool.count).map fun i => some (l.block i)))) ::
      (l.bufferSizes, some (.numbers ((List.range pool.count).map fun i => (pool.slots i).size))) ::
      (l.bufferCapacities,
        some (.numbers ((List.range pool.count).map fun i => (pool.slots i).capacity))) ::
      (List.range pool.count).map
        (slotCell l (pool.setSlot i { pool.slots i with buffer := buffer })) := by
  have hother : ∀ j, ((pool.setSlot i { pool.slots i with buffer := buffer }).slots j).size =
      (pool.slots j).size ∧
        ((pool.setSlot i { pool.slots i with buffer := buffer }).slots j).capacity =
          (pool.slots j).capacity := by
    intro j
    by_cases hj : j = i
    · subst hj
      simp
    · simp [Pool.slots_setSlot_of_ne hj]
  simp only [cells, Pool.count_setSlot, hother, Layout.record, Pool.maxCapacity_setSlot]

theorem blockCell_eq (hown : Owns heap (cells l pool) others) (hi : i < pool.count) :
    heap (l.block i) = some (.bytes (pool.slots i).buffer) := by
  have hmem := List.mem_map_of_mem (f := slotCell l pool) (List.mem_range.mpr hi)
  refine hown.mine _ _ ?_
  simp only [cells, List.mem_cons]
  exact Or.inr (Or.inr (Or.inr (Or.inr hmem)))

/-- A completion writes to the block of a slot. -/
theorem stored_overwrite_slot (hpool : h.pool = some pool) (hst : Stored h l s)
    (hi : i < pool.count) (hlen : bytes.length ≤ (pool.slots i).capacity) :
    Stored (h.store i 0 bytes) l { s with
      heap := overwrite (l.block i) bytes s.heap
      others := overwrite (l.block i) bytes s.others } := by
  obtain ⟨hobject, hown, hsound⟩ := (stored_some hpool).mp hst
  have hfits := hsound i hi
  have hmem := List.mem_map_of_mem (f := slotCell l pool) (List.mem_range.mpr hi)
  have hother := hown.theirs (l.block i) (some (.bytes (pool.slots i).buffer)) (by
    simp only [cells, List.mem_cons]
    exact Or.inr (Or.inr (Or.inr (Or.inr hmem))))
  have hblock := blockCell_eq hown hi
  rw [overwrite_none hother]
  rw [store_eq hpool hi hlen]
  have hbuffer : (bytes ++ (pool.slots i).buffer.drop bytes.length).length =
      (pool.slots i).capacity := by
    rw [List.length_append, List.length_drop, hfits.buffer]
    omega
  refine (stored_some rfl).mpr ⟨hobject, ?_, (Changes.store hi fun _ => hbuffer).sound hsound⟩
  obtain ⟨m₁, m₂, hcells, hcells'⟩ := exists_map_range_split (slotCell l pool)
    (slotCell l (pool.setSlot i { pool.slots i with
      buffer := bytes ++ (pool.slots i).buffer.drop bytes.length })) hi fun j hj => by
      simp only [slotCell, Pool.slots_setSlot_of_ne hj]
  rw [cells_buffer, hcells', slotCell, Pool.slots_setSlot_self]
  rw [cells, hcells] at hown
  have hset := hown.set (_ :: _ :: _ :: _ :: m₁)
    (some (.bytes (bytes ++ (pool.slots i).buffer.drop bytes.length)))
  rw [overwrite, hblock, Option.map_some, Cell.overwrite,
    List.take_of_length_le (by rw [hfits.buffer]; exact hlen)]
  exact hset

/-- **A completion** within a block of bytes writes to one slot or to none. -/
theorem stored_overwrite (hst : Stored h l s) {c : Cell} (ha : s.heap a = some c)
    (hroom : c.HasRoom bytes.length) :
    ∃ i, Stored h l
        { s with heap := overwrite a bytes s.heap, others := overwrite a bytes s.others } ∨
      Stored (h.store i 0 bytes) l
        { s with heap := overwrite a bytes s.heap, others := overwrite a bytes s.others } := by
  cases hpool : h.pool with
  | none =>
    obtain ⟨hobject, hheap⟩ := (stored_none hpool).mp hst
    refine ⟨0, Or.inl ((stored_none hpool).mpr ⟨hobject, ?_⟩)⟩
    simp only [hheap]
  | some pool =>
    obtain ⟨hobject, hown, hsound⟩ := (stored_some hpool).mp hst
    by_cases hmem : a ∈ (cells l pool).map Prod.fst
    · obtain ⟨⟨b, v⟩, hv, rfl⟩ := List.mem_map.mp hmem
      by_cases hslot : ∃ i < pool.count, l.block i = b
      · obtain ⟨i, hi, rfl⟩ := hslot
        have hbuffer := (hsound i hi).buffer
        obtain rfl := Option.some.inj ((blockCell_eq hown hi).symm.trans ha)
        exact ⟨i, Or.inr (stored_overwrite_slot hpool hst hi (hbuffer ▸ hroom))⟩
      · -- the arrays and the structure are no bytes
        obtain rfl := (hown.mine _ _ hv).symm.trans ha
        simp only [cells, slotCell, List.mem_cons, List.mem_map, List.mem_range,
          Prod.mk.injEq, Option.some.injEq] at hv
        rcases hv with ⟨-, rfl⟩ | ⟨-, rfl⟩ | ⟨-, rfl⟩ | ⟨-, rfl⟩ | ⟨i, hi, h, -⟩
        · exact hroom.elim
        · exact hroom.elim
        · exact hroom.elim
        · exact hroom.elim
        · exact absurd ⟨i, hi, h⟩ hslot
    · refine ⟨0, Or.inl ((stored_some hpool).mpr ⟨hobject, ?_, hsound⟩)⟩
      have hupdate := hown.update_others hmem ((s.heap a).map (Cell.overwrite bytes))
      have hothers : s.others a = s.heap a := (hown.rest a hmem).symm
      simp only [overwrite, hothers]
      exact hupdate

/-! ## Where the blocks are -/

theorem blockOf_eq (hpool : h.pool = some pool) (hst : Stored h l s) (i : ℕ) :
    s.blockOf i = if i < pool.count then some (l.block i) else none := by
  obtain ⟨hobject, hown, -⟩ := (stored_some hpool).mp hst
  obtain ⟨heap, heq, -⟩ := runs_get l pool i s.heap s.others hown
  simp only [State.blockOf, hobject, Option.bind_some, heq, BufferPool.uringBufferPoolGet]
  by_cases hi : i < pool.count
  · rw [if_neg (Nat.not_le.mpr hi), if_pos hi]
    rfl
  · rw [if_pos (Nat.le_of_not_lt hi), if_neg hi]
    rfl

theorem capacityOf_eq (hpool : h.pool = some pool) (hst : Stored h l s) (i : ℕ) :
    s.capacityOf i = if i < pool.count then some (pool.slots i).capacity else none := by
  obtain ⟨hobject, hown, -⟩ := (stored_some hpool).mp hst
  have hrecord := hown.mine l.pool (some (.pool (l.record pool))) (by simp [cells])
  have hcapacities := hown.mine l.bufferCapacities _ (by simp only [cells, List.mem_cons]; tauto)
  have hload : loadPool l.pool s.heap = some (l.record pool, s.heap) := by
    simp only [loadPool, bind_apply, Heap.load, hrecord, Option.map_some, Option.bind_some]
    rfl
  have hnumber : loadNumber (some l.bufferCapacities) i s.heap =
      if i < pool.count then some ((pool.slots i).capacity, s.heap) else none := by
    simp only [loadNumber, bind_apply, Heap.load, hcapacities, Option.map_some, Option.bind_some]
    by_cases hi : i < pool.count
    · rw [if_pos hi, getElem?_map_range _ hi]
      rfl
    · rw [if_neg hi, List.getElem?_eq_none (by simpa using hi)]
      rfl
  simp only [State.capacityOf, hobject, Option.bind_some, bind_apply, hload, Layout.record, hnumber]
  split <;> rfl

/-! ## Steps -/

theorem getPtr_stored (hst : Stored h l s) (index : ℤ) : ∃ heap,
    getPtr index s.object s.heap =
      some ((h.getPtr index).map (fun (i, size) => (l.block i, size)), heap) ∧
    Stored h l { s with heap := heap } := by
  obtain ⟨pool?⟩ := h
  cases pool? with
  | none =>
    obtain ⟨hobject, hheap⟩ := (stored_none rfl).mp hst
    refine ⟨s.heap, ?_, hst⟩
    rw [hobject]
    rfl
  | some pool =>
    obtain ⟨hobject, hown, hsound⟩ := (stored_some rfl).mp hst
    obtain ⟨heap, heq, hown'⟩ := runs_getPtr l pool index s.heap s.others hown
    rw [hobject]
    exact ⟨heap, heq, (stored_some rfl).mpr ⟨rfl, hown', hsound⟩⟩

/-- The rest of the process keeps away from the pool. -/
theorem stored_elsewhere (hst : Stored h l s)
    (ha : ∀ pool, h.pool = some pool → a ∉ (cells l pool).map Prod.fst) (v : Option Cell) :
    Stored h l (s.elsewhere a v) := by
  cases hpool : h.pool with
  | none =>
    obtain ⟨hobject, hheap⟩ := (stored_none hpool).mp hst
    refine (stored_none hpool).mpr ⟨hobject, ?_⟩
    simp only [State.elsewhere, hheap]
  | some pool =>
    obtain ⟨hobject, hown, hsound⟩ := (stored_some hpool).mp hst
    exact (stored_some hpool).mpr ⟨hobject, hown.update_others (ha pool hpool) v, hsound⟩

theorem Stored.notMem_of_free (hst : Stored h l s) (ha : s.heap a = none) (pool : Pool)
    (hpool : h.pool = some pool) : a ∉ (cells l pool).map Prod.fst :=
  ((stored_some hpool).mp hst).2.1.notMem_of_free (fun _ _ => isSome_of_mem_cells) ha

theorem Stored.notMem_of_others (hst : Stored h l s) (ha : (s.others a).isSome) (pool : Pool)
    (hpool : h.pool = some pool) : a ∉ (cells l pool).map Prod.fst :=
  ((stored_some hpool).mp hst).2.1.notMem_of_others ha

/-- A `get` changes nothing, whatever it returns. -/
theorem run_get {index : ℤ} {object : Option ℕ} {r : (Except Error Reply × Option ℕ) × Heap ℕ Cell}
    (hrun : (Op.get index).run object heap = some r) : r.1.2 = object ∧ r.2 = heap := by
  obtain ⟨x, hget, hpure⟩ := Option.bind_eq_some_iff.mp hrun
  rw [← Option.some.inj hpure]
  exact ⟨rfl, reads_get index object heap x hget⟩

theorem stored_op (hst : Stored h l s) {o : Op} (ht : step s (.op o) = some t) :
    o.Fresh s.heap ∧ t.inFlight = s.inFlight ∧ ∃ l', (∀ pool, h.pool = some pool →
      l' = o.layout pool l) ∧ Stored (o.plain.run h).2 l' t := by
  obtain ⟨hfresh, ht⟩ := Option.ite_none_right_eq_some.mp ht
  refine ⟨hfresh, ?_⟩
  by_cases hdescribed : Described s (.op o)
  · obtain ⟨heap, object, l', heq, hl', hst'⟩ := run_op hst hfresh hdescribed
    rw [heq] at ht
    obtain rfl := Option.some.inj ht
    exact ⟨rfl, l', hl', hst'⟩
  · cases o with
    | get index =>
      obtain ⟨⟨⟨reply, object⟩, heap⟩, hrun, rfl⟩ := Option.map_eq_some_iff.mp ht
      obtain ⟨rfl, rfl⟩ := run_get hrun
      exact ⟨rfl, l, fun _ _ => rfl, hst⟩
    | _ => exact absurd trivial hdescribed

/-- **What a step is to the slots**: an operation, a write to one slot, or nothing. -/
theorem stored_step (hst : Stored h l s) {e : Event} (hdescribed : Described s e)
    (ht : step s e = some t) : ∃ h' l', Reach BufferPool.step AnyStep h h' ∧ Stored h' l' t := by
  cases e with
  | op o =>
    obtain ⟨-, -, l', -, hst'⟩ := stored_op hst ht
    exact ⟨_, l', .single (e := o.plain) trivial rfl, hst'⟩
  | submit index n =>
    obtain ⟨heap, heq, hst'⟩ := getPtr_stored hst index
    simp only [step, heq, Option.map_some, Option.some.injEq] at ht
    subst ht
    refine ⟨h, l, .refl h, ?_⟩
    split <;> exact hst'
  | complete k bytes =>
    simp only [step] at ht
    split at ht
    · exact absurd ht (by simp)
    · next r hr =>
      obtain ⟨-, ht⟩ := Option.ite_none_right_eq_some.mp ht
      obtain rfl := Option.some.inj ht
      obtain ⟨c, hc, hroom⟩ := hdescribed r hr
      obtain ⟨i, hsame | hstore⟩ := stored_overwrite hst hc hroom
      · exact ⟨h, l, .refl h, hsame⟩
      · exact ⟨_, l, .single (e := .store i 0 bytes) trivial rfl, hstore⟩
  | allocate b c =>
    obtain ⟨hfree, ht⟩ := Option.ite_none_right_eq_some.mp ht
    obtain rfl := Option.some.inj ht
    exact ⟨h, l, .refl h, stored_elsewhere hst (hst.notMem_of_free hfree) _⟩
  | write b c =>
    obtain ⟨hother, ht⟩ := Option.ite_none_right_eq_some.mp ht
    obtain rfl := Option.some.inj ht
    exact ⟨h, l, .refl h, stored_elsewhere hst (hst.notMem_of_others hother) _⟩
  | release b =>
    obtain ⟨hother, ht⟩ := Option.ite_none_right_eq_some.mp ht
    obtain rfl := Option.some.inj ht
    exact ⟨h, l, .refl h, stored_elsewhere hst (hst.notMem_of_others hother) _⟩

/-! ## Runs -/

/-- The allocations of a new pool give different addresses, which are not in use. -/
structure FreshAll (callocs : Callocs) (memalign : ℕ → Block) (n : ℕ) (heap : Heap ℕ Cell) :
    Prop where
  nodup : ((reservedAll callocs memalign n).map Prod.fst).Nodup
  unused : ∀ a ∈ (reservedAll callocs memalign n).map Prod.fst, heap a = none

/-- What the memory of a process is to a pool that began as `h₀`: it holds the pool, each method
returns what it returns for the slots, and a closed pool has left nothing behind. -/
structure Serves (h₀ : Handle) (s : State) : Prop where
  stored : ∃ h l, Reach BufferPool.step AnyStep h₀ h ∧ Stored h l s ∧
    ∀ o : Op, o.Fresh s.heap → Described s (.op o) → ∃ heap object l',
      o.run s.object s.heap = some ((o.reply l.block h, object), heap) ∧
      Stored (o.plain.run h).2 l' { s with heap := heap, object := object }
  closed : s.object = none → s.heap = s.others

theorem unused_reservedAll (callocs : Callocs) (memalign : ℕ → Block) (n : ℕ) :
    Unused (reservedAll callocs memalign n) :=
  (unused_blockAt _).append ((unused_blockAt _).append ((unused_blockAt _).append
    ((unused_blockAt _).append (unused_flatMap memalign _))))

theorem FreshAll.owns {callocs : Callocs} {memalign : ℕ → Block} {heap : Heap ℕ Cell}
    (hfresh : FreshAll callocs memalign n heap) :
    Owns heap (reservedAll callocs memalign n) heap where
  nodup := hfresh.nodup
  mine a v hmem := by
    rw [unused_reservedAll callocs memalign n a v hmem]
    exact hfresh.unused a (List.mem_map.mpr ⟨(a, v), hmem, rfl⟩)
  theirs a v hmem := hfresh.unused a (List.mem_map.mpr ⟨(a, v), hmem, rfl⟩)
  rest _ _ := rfl

/-- **Creating a pool**: it succeeds when the pool of slots is created, and otherwise leaves the
heap as it was. -/
theorem create_cases {callocs : Callocs} {memalign : ℕ → Block} (errno : ℕ) (count size : ℤ)
    (hfresh : FreshAll callocs memalign (cUint count) others) :
    (∃ l h₀ heap, create callocs memalign errno count size others = some (.ok l.pool, heap) ∧
      BufferPool.create (callocs.layout memalign).isSome (plainMemalign memalign) errno count size =
        .ok h₀ ∧ Stored h₀ l (start others heap l.pool)) ∨
    ∃ exc, create callocs memalign errno count size others = some (.error exc, others) ∧
      BufferPool.create (callocs.layout memalign).isSome (plainMemalign memalign) errno count size =
        .error exc := by
  rcases runs_create callocs memalign (cUint count) (cUint size) with
    ⟨l, pool, hl, hcreate, hruns⟩ | ⟨hcreate, left, hunused, hruns⟩
  · obtain ⟨heap, heq, hown⟩ := hruns others others hfresh.owns
    have hslots : BufferPool.create (callocs.layout memalign).isSome (plainMemalign memalign) errno
        count size = .ok ⟨some pool⟩ := by rw [BufferPool.create, hcreate]
    refine Or.inl ⟨l, ⟨some pool⟩, heap, ?_, hslots, ?_⟩
    · rw [create, bind_apply, heq]
      rfl
    · obtain ⟨pool', hpool', hsound, -⟩ := sound_create hslots
      obtain rfl := Option.some.inj hpool'
      exact (stored_some rfl).mpr ⟨rfl, hown, hsound⟩
  · obtain ⟨heap, heq, hown⟩ := hruns others others hfresh.owns
    obtain rfl := hown.eq_others hunused
    refine Or.inr ⟨⟨((if errno = 0 then ENOMEM.1 else errno : ℕ) : ℤ),
      "uring_buffer_pool_create", none⟩, ?_, ?_⟩
    · rw [create, bind_apply, heq]
      rfl
    · rw [BufferPool.create, hcreate]
      simp only [Nat.cast_ite]

theorem stored_reach {h₀ : Handle} (hst : Stored h₀ l s) (ht : Reach step Described s t) :
    ∃ h' l', Reach BufferPool.step AnyStep h₀ h' ∧ Stored h' l' t := by
  refine ht.invariant (I := fun t => ∃ h' l', Reach BufferPool.step AnyStep h₀ h' ∧ Stored h' l' t)
    ⟨h₀, l, .refl h₀, hst⟩ ?_
  rintro u e v ⟨h', l', hreach, hst'⟩ hdescribed hv
  obtain ⟨h'', l'', hreach', hst''⟩ := stored_step hst' hdescribed hv
  exact ⟨h'', l'', hreach.trans hreach', hst''⟩

/-- **A pool in memory is the pool of slots**, and safe: whatever the allocations answer, the
rest of the process does and the kernel writes to blocks in use, creation and methods touch no
memory that is not in use, return what they return for the slots, and leave nothing behind. -/
theorem serves_of_reach {callocs : Callocs} {memalign : ℕ → Block} (errno : ℕ) (count size : ℤ)
    (hfresh : FreshAll callocs memalign (cUint count) others) :
    ∃ r heap, create callocs memalign errno count size others = some (r, heap) ∧
      (∀ exc, r = .error exc → heap = others ∧
        BufferPool.create (callocs.layout memalign).isSome (plainMemalign memalign) errno count
          size = .error exc) ∧
      ∀ pool s, r = .ok pool → Reach step Described (start others heap pool) s →
        ∃ h₀, BufferPool.create (callocs.layout memalign).isSome (plainMemalign memalign) errno
          count size = .ok h₀ ∧ Serves h₀ s := by
  rcases create_cases errno count size hfresh with
    ⟨l, h₀, heap, heq, hcreate, hst⟩ | ⟨exc, heq, hcreate⟩
  · refine ⟨.ok l.pool, heap, heq, fun exc hexc => absurd hexc (by simp), ?_⟩
    intro pool s hpool hreach
    obtain rfl := Except.ok.inj hpool
    obtain ⟨h', l', hslots, hst'⟩ := stored_reach hst hreach
    refine ⟨h₀, hcreate, ⟨h', l', hslots, hst', fun o ho hdescribed => ?_⟩,
      fun hclosed => ?_⟩
    · obtain ⟨heap', object, l'', heq', -, hst''⟩ := run_op hst' ho hdescribed
      exact ⟨heap', object, l'', heq', hst''⟩
    · cases hpool' : h'.pool with
      | none => exact ((stored_none hpool').mp hst').2
      | some pool' =>
        rw [((stored_some hpool').mp hst').1] at hclosed
        exact absurd hclosed (by simp)
  · exact ⟨.error exc, others, heq, fun exc' hexc => ⟨rfl, Except.error.inj hexc ▸ hcreate⟩,
      fun pool s hpool => absurd hpool (by simp)⟩

/-! ## Requests and their slots -/

/-- Each request writes to the block of the slot it was made for, and not beyond it. -/
def Placed (s : State) : Prop := ∀ r ∈ s.inFlight,
  s.blockOf r.slot = some r.addr ∧ ∃ c ∈ s.capacityOf r.slot, r.len ≤ c

/-- No slot with a request grows, no pool with requests is closed, and no request asks for more
than its slot has room for. -/
def Tidy (s : State) : Event → Prop
  | .op (.resize (some _) index newSize) =>
    ∀ r ∈ s.inFlight, r.slot = cUint index → ∀ c ∈ s.capacityOf r.slot, cUint newSize ≤ c
  | .op .close => s.inFlight = []
  | .submit index n => ∀ c ∈ s.capacityOf (cUint index), n ≤ c
  | _ => True

instance (s : State) : (e : Event) → Decidable (Tidy s e)
  | .op (.resize (some _) index newSize) => inferInstanceAs (Decidable
      (∀ r ∈ s.inFlight, r.slot = cUint index → ∀ c ∈ s.capacityOf r.slot, cUint newSize ≤ c))
  | .op .close => inferInstanceAs (Decidable (s.inFlight = []))
  | .submit index n => inferInstanceAs (Decidable (∀ c ∈ s.capacityOf (cUint index), n ≤ c))
  | .op (.resize none _ _) => isTrue trivial
  | .op (.setSize _ _) => isTrue trivial
  | .op (.get _) => isTrue trivial
  | .op (.getPtr _) => isTrue trivial
  | .complete _ _ => isTrue trivial
  | .allocate _ _ => isTrue trivial
  | .write _ _ => isTrue trivial
  | .release _ => isTrue trivial

/-- The same of the slots of a pool. -/
def PlacedIn (h : Handle) (l : Layout) (rs : List Request) : Prop := ∀ r ∈ rs, ∃ pool,
  h.pool = some pool ∧ r.slot < pool.count ∧ l.block r.slot = r.addr ∧
    r.len ≤ (pool.slots r.slot).capacity

theorem placed_iff (hst : Stored h l s) : Placed s ↔ PlacedIn h l s.inFlight := by
  refine forall_congr' fun r => forall_congr' fun _ => ?_
  cases hpool : h.pool with
  | none =>
    obtain ⟨hobject, -⟩ := (stored_none hpool).mp hst
    simp [State.blockOf, hobject]
  | some pool =>
    rw [blockOf_eq hpool hst, capacityOf_eq hpool hst]
    by_cases hi : r.slot < pool.count
    · simp [hi]
    · simp [hi]

/-- The blocks stay where they are, and have the size they have. -/
def SameBlocks (h h' : Handle) : Prop := ∀ pool, h.pool = some pool → ∃ pool',
  h'.pool = some pool' ∧ pool'.count = pool.count ∧
    ∀ j, (pool'.slots j).capacity = (pool.slots j).capacity

theorem SameBlocks.refl (h : Handle) : SameBlocks h h :=
  fun pool hpool => ⟨pool, hpool, rfl, fun _ => rfl⟩

theorem PlacedIn.of_sameBlocks {rs : List Request} (hplaced : PlacedIn h l rs)
    (hsame : SameBlocks h h') : PlacedIn h' l rs := by
  intro r hr
  obtain ⟨pool, hpool, hi, hblock, hlen⟩ := hplaced r hr
  obtain ⟨pool', hpool', hcount, hcapacity⟩ := hsame pool hpool
  exact ⟨pool', hpool', by omega, hblock, by rw [hcapacity]; exact hlen⟩

theorem sameBlocks_setSlot {s : Slot} (hs : s.capacity = (pool.slots i).capacity) :
    SameBlocks ⟨some pool⟩ ⟨some (pool.setSlot i s)⟩ := by
  intro pool' hpool'
  obtain rfl := Option.some.inj hpool'
  refine ⟨_, rfl, rfl, fun j => ?_⟩
  by_cases hj : j = i
  · rw [hj, Pool.slots_setSlot_self, hs]
  · rw [Pool.slots_setSlot_of_ne hj]

theorem sameBlocks_setSize (h : Handle) (index size : ℤ) :
    SameBlocks h (h.setSize index size).2 := by
  obtain ⟨pool?⟩ := h
  cases pool? with
  | none => exact fun _ hpool => absurd hpool (by simp)
  | some pool =>
    simp only [Handle.setSize, change_eq (h := ⟨some pool⟩) rfl]
    rcases @setSize_cases pool (cUint index) (cUint size) with heq | ⟨-, -, heq⟩ <;> rw [heq]
    · exact .refl _
    · exact sameBlocks_setSlot rfl

theorem sameBlocks_store (h : Handle) (ptr off : ℕ) (bytes : List UInt8) :
    SameBlocks h (h.store ptr off bytes) := by
  obtain ⟨pool?⟩ := h
  cases pool? with
  | none => exact fun _ hpool => absurd hpool (by simp)
  | some pool =>
    simp only [Handle.store]
    split
    · exact sameBlocks_setSlot rfl
    · exact .refl _

/-- A resize that does not move the slot. -/
theorem sameBlocks_resize (memalign : Memalign) {index newSize : ℤ} (hsound : pool.Sound)
    (hstay : memalign = none ∨
      ¬ (cUint index < pool.count ∧ (pool.slots (cUint index)).capacity < cUint newSize)) :
    SameBlocks ⟨some pool⟩ (Handle.resize memalign index newSize ⟨some pool⟩).2 := by
  simp only [Handle.resize, change_eq (h := ⟨some pool⟩) rfl]
  rcases resize_cases hsound memalign (cUint index) (cUint newSize) with ⟨e, heq⟩ |
    ⟨-, -, heq⟩ | ⟨hi, hn, newBuf, -, -, heq⟩
  · rw [heq]
    exact .refl _
  · rw [heq]
    exact sameBlocks_setSlot rfl
  · rcases hstay with rfl | hstay
    · have hnone : (BufferPool.uringBufferPoolResize none (cUint index) (cUint newSize) pool).1 =
          ENOMEM.neg := by
        simp only [BufferPool.uringBufferPoolResize, Nat.not_le.mpr hi, Nat.not_le.mpr hn, if_false]
      rw [heq] at hnone
      exact absurd (show (0 : ℤ) = ENOMEM.neg from hnone) (by decide)
    · exact absurd ⟨hi, hn⟩ hstay

/-- What a step does to the slots, when its requests write to theirs. -/
def plainCalls (s : State) : Event → List BufferPool.Op
  | .op o => [o.plain]
  | .complete k bytes => match s.inFlight[k]? with
    | some r => [.store r.slot 0 bytes]
    | none => []
  | _ => []

/-- The memory holds the pool, and the requests write to their slots. -/
def Follows (h : Handle) (s : State) : Prop := ∃ l, Stored h l s ∧ PlacedIn h l s.inFlight

/-- What is to be shown of a step: after a tidy one the requests write to their slots, which are
those of the pool of slots, and after another they do not. -/
structure Decides (h : Handle) (s : State) (e : Event) (t : State) : Prop where
  tidy : Tidy s e → ∃ h', exec BufferPool.step h (plainCalls s e) = some h' ∧ Follows h' t
  untidy : ¬ Tidy s e → ¬ Placed t

theorem decides_of_tidy {e : Event} (htidy : Tidy s e)
    (hnext : ∃ h', exec BufferPool.step h (plainCalls s e) = some h' ∧ Follows h' t) :
    Decides h s e t := ⟨fun _ => hnext, fun hnot => absurd htidy hnot⟩

/-- A resize with an address: the slot moves when it has to grow. -/
theorem decides_resize {b : ℕ × (ℕ → UInt8)} {index newSize : ℤ} (hst : Stored h l s)
    (hplaced : PlacedIn h l s.inFlight)
    (ht : step s (.op (.resize (some b) index newSize)) = some t) :
    Decides h s (.op (.resize (some b) index newSize)) t := by
  obtain ⟨a, fresh⟩ := b
  obtain ⟨hfresh, hflight, l', hl', hst'⟩ := stored_op hst ht
  obtain ⟨pool?⟩ := h
  cases pool? with
  | none =>
    have hnil : ∀ r ∈ s.inFlight, False := fun r hr => by
      obtain ⟨pool, hpool, -⟩ := hplaced r hr
      exact absurd hpool (by simp)
    refine decides_of_tidy (fun r hr => (hnil r hr).elim) ⟨_, rfl, l', hst', fun r hr => ?_⟩
    exact (hnil r (hflight ▸ hr)).elim
  | some pool =>
    obtain ⟨hobject, hown, hsound⟩ := (stored_some rfl).mp hst
    have hlayout := hl' pool rfl
    by_cases hmove : cUint index < pool.count ∧ (pool.slots (cUint index)).capacity < cUint newSize
    · -- the slot is at `a` from now on
      have hl : l' = { l with block := Function.update l.block (cUint index) a } :=
        hlayout.trans (if_pos hmove)
      have hresult : (BufferPool.uringBufferPoolResize (some fresh) (cUint index) (cUint newSize)
          pool).2.count = pool.count ∧ ∀ j ≠ cUint index, (BufferPool.uringBufferPoolResize
            (some fresh) (cUint index) (cUint newSize) pool).2.slots j = pool.slots j := by
        simp only [BufferPool.uringBufferPoolResize, Nat.not_le.mpr hmove.1,
          Nat.not_le.mpr hmove.2, if_false]
        exact ⟨rfl, fun j hj => Pool.slots_setSlot_of_ne hj _ _⟩
      constructor
      · intro htidy
        refine ⟨_, rfl, l', hst', fun r hr => ?_⟩
        rw [hflight] at hr
        obtain ⟨pool', hpool', hi, hblock, hlen⟩ := hplaced r hr
        obtain rfl := Option.some.inj hpool'
        have hne : r.slot ≠ cUint index := fun hslot => by
          have hle := htidy r hr hslot _ (by rw [capacityOf_eq rfl hst, if_pos hi]; rfl)
          rw [hslot] at hle
          omega
        refine ⟨_, rfl, ?_, ?_, ?_⟩
        · exact hresult.1.symm ▸ hi
        · rw [hl]
          simpa [Function.update_of_ne hne] using hblock
        · have hslot := congrArg Slot.capacity (hresult.2 r.slot hne)
          exact Nat.le_trans hlen (Nat.le_of_eq hslot.symm)
      · intro huntidy hplaced'
        unfold Tidy at huntidy
        push Not at huntidy
        obtain ⟨r, hr, hslot, -⟩ := huntidy
        obtain ⟨pool', -, -, hblock', -⟩ := (placed_iff hst').mp hplaced' r (hflight ▸ hr)
        obtain ⟨pool'', hpool'', hi, hblock, -⟩ := hplaced r hr
        obtain rfl := Option.some.inj hpool''
        -- the new block is at an address that was not in use
        have haddr : a = l.block r.slot := by
          rw [hblock, ← hblock', hl, hslot]
          exact (Function.update_self (cUint index) a l.block).symm
        have hlive := (blockCell_eq hown hi).symm.trans (haddr ▸ hfresh)
        exact absurd hlive (by simp)
    · have hl : l' = l := hlayout.trans (if_neg hmove)
      refine decides_of_tidy (fun r hr hslot c hc => ?_) ⟨_, rfl, l', hst', ?_⟩
      · rw [capacityOf_eq rfl hst] at hc
        obtain ⟨hi, hc⟩ := Option.ite_none_right_eq_some.mp hc
        rw [hslot] at hi hc
        have hle := not_and.mp hmove hi
        rw [Option.some.inj hc] at hle
        exact Nat.le_of_not_lt hle
      · rw [hl, hflight]
        exact hplaced.of_sameBlocks (sameBlocks_resize (some fresh) hsound (Or.inr hmove))

/-- Any other method but `close` leaves the blocks where they are. -/
theorem decides_op {o : Op} (hst : Stored h l s) (hplaced : PlacedIn h l s.inFlight)
    (ht : step s (.op o) = some t) : Decides h s (.op o) t := by
  have hstay : ∀ {o : Op}, step s (.op o) = some t → Tidy s (.op o) →
      (∀ pool, o.layout pool l = l) → SameBlocks h (o.plain.run h).2 → Decides h s (.op o) t := by
    intro o ht htidy hlayout hsame
    obtain ⟨-, hflight, l', hl', hst'⟩ := stored_op hst ht
    refine decides_of_tidy htidy ⟨_, rfl, l', hst', fun r hr => ?_⟩
    rw [hflight] at hr
    obtain ⟨pool, hpool, -⟩ := hplaced r hr
    rw [hl' pool hpool, hlayout]
    exact hplaced.of_sameBlocks hsame r hr
  cases o with
  | resize memalign index newSize =>
    cases memalign with
    | some b => exact decides_resize hst hplaced ht
    | none =>
      refine hstay ht trivial (fun _ => rfl) ?_
      obtain ⟨pool?⟩ := h
      cases pool? with
      | none => exact fun _ hpool => absurd hpool (by simp)
      | some pool => exact sameBlocks_resize none ((stored_some rfl).mp hst).2.2 (Or.inl rfl)
  | setSize index size => exact hstay ht trivial (fun _ => rfl) (sameBlocks_setSize h index size)
  | get index => exact hstay ht trivial (fun _ => rfl) (.refl h)
  | getPtr index => exact hstay ht trivial (fun _ => rfl) (.refl h)
  | close =>
    obtain ⟨-, hflight, l', -, hst'⟩ := stored_op hst ht
    constructor
    · intro htidy
      refine ⟨_, rfl, l', hst', fun r hr => ?_⟩
      rw [hflight, show s.inFlight = [] from htidy] at hr
      exact absurd hr List.not_mem_nil
    · intro huntidy hplaced'
      obtain ⟨r, hr⟩ := List.exists_mem_of_ne_nil _ huntidy
      obtain ⟨pool, hpool, -⟩ := (placed_iff hst').mp hplaced' r (hflight ▸ hr)
      exact absurd hpool (by simp [Op.plain, BufferPool.Op.run, Handle.close])

/-- A request may be made with as many bytes as its slot has room for. -/
theorem decides_submit {index : ℤ} (hst : Stored h l s) (hplaced : PlacedIn h l s.inFlight)
    (ht : step s (.submit index n) = some t) : Decides h s (.submit index n) t := by
  obtain ⟨heap, heq, hst'⟩ := getPtr_stored hst index
  simp only [step, heq, Option.map_some, Option.some.injEq] at ht
  by_cases hslot : ∃ pool, h.pool = some pool ∧ cUint index < pool.count
  · obtain ⟨pool, hpool, hi⟩ := hslot
    rw [Handle.getPtr, lookup_eq hpool hi] at ht
    subst ht
    have hcapacity := capacityOf_eq hpool hst (cUint index)
    rw [if_pos hi] at hcapacity
    constructor
    · intro htidy
      have hn := htidy _ (Option.mem_def.mpr hcapacity)
      refine ⟨h, rfl, l, hst', fun r hr => ?_⟩
      rcases List.mem_append.mp hr with hr | hr
      · exact hplaced r hr
      · rw [List.mem_singleton.mp hr]
        exact ⟨pool, hpool, hi, rfl, hn⟩
    · intro huntidy hplaced'
      refine huntidy fun c hc => ?_
      obtain rfl := Option.some.inj (hcapacity.symm.trans hc)
      obtain ⟨pool', hpool', -, -, hlen⟩ := (placed_iff (s := { s with
        heap := heap, inFlight := s.inFlight ++ [⟨cUint index, l.block (cUint index), n⟩] })
        hst').mp hplaced' ⟨cUint index, l.block (cUint index), n⟩ (by simp)
      obtain rfl := Option.some.inj (hpool.symm.trans hpool')
      exact hlen
  · -- the call raises, and nothing is submitted
    have hcapacity : s.capacityOf (cUint index) = none := by
      cases hpool : h.pool with
      | none => simp [State.capacityOf, ((stored_none hpool).mp hst).1]
      | some pool =>
        rw [capacityOf_eq hpool hst, if_neg fun hi => hslot ⟨pool, hpool, hi⟩]
    have herror : ∃ exc, h.getPtr index = .error exc := by
      cases hpool : h.pool with
      | none => simp [Handle.getPtr, Handle.lookup, Handle.poolLive, hpool]
      | some pool =>
        have hi : pool.count ≤ cUint index :=
          Nat.le_of_not_lt fun hi => hslot ⟨pool, hpool, hi⟩
        simp [Handle.getPtr, Handle.lookup, Handle.poolLive, hpool,
          BufferPool.uringBufferPoolGet, hi]
    obtain ⟨exc, hexc⟩ := herror
    rw [hexc] at ht
    subst ht
    refine decides_of_tidy (fun c hc => ?_) ⟨h, rfl, l, hst', hplaced⟩
    exact absurd (hcapacity.symm.trans hc) (by simp)

/-- A completion writes to the slot of its request. -/
theorem decides_complete {k : ℕ} (hst : Stored h l s) (hplaced : PlacedIn h l s.inFlight)
    (ht : step s (.complete k bytes) = some t) : Decides h s (.complete k bytes) t := by
  simp only [step] at ht
  cases hr : s.inFlight[k]? with
  | none =>
    rw [hr] at ht
    exact absurd ht (by simp)
  | some r =>
    rw [hr] at ht
    obtain ⟨hbytes, ht⟩ := Option.ite_none_right_eq_some.mp ht
    obtain rfl := Option.some.inj ht
    obtain ⟨pool, hpool, hi, hblock, hlen⟩ := hplaced r (List.mem_of_getElem? hr)
    refine decides_of_tidy trivial ⟨h.store r.slot 0 bytes, ?_, l, ?_, ?_⟩
    · simp only [plainCalls, hr]
      rfl
    · rw [← hblock]
      exact stored_overwrite_slot hpool hst hi (Nat.le_trans hbytes hlen)
    · exact PlacedIn.of_sameBlocks (fun q hq => hplaced q (List.mem_of_mem_eraseIdx hq))
        (sameBlocks_store h r.slot 0 bytes)

/-- **One step** decides. -/
theorem decides_step {e : Event} (hfollows : Follows h s) (ht : step s e = some t) :
    Decides h s e t := by
  obtain ⟨l, hst, hplaced⟩ := hfollows
  have helsewhere : ∀ {e : Event} {b : ℕ} {v : Option Cell}, plainCalls s e = [] → Tidy s e →
      (∀ pool, h.pool = some pool → b ∉ (cells l pool).map Prod.fst) →
      s.elsewhere b v = t → Decides h s e t := by
    rintro e b v hcalls htidy hb rfl
    refine decides_of_tidy htidy ⟨h, by rw [hcalls]; rfl, l, stored_elsewhere hst hb v, hplaced⟩
  cases e with
  | op o => exact decides_op hst hplaced ht
  | submit index n => exact decides_submit hst hplaced ht
  | complete k bytes => exact decides_complete hst hplaced ht
  | allocate b c =>
    obtain ⟨hfree, ht⟩ := Option.ite_none_right_eq_some.mp ht
    exact helsewhere rfl trivial (hst.notMem_of_free hfree) (Option.some.inj ht)
  | write b c =>
    obtain ⟨hother, ht⟩ := Option.ite_none_right_eq_some.mp ht
    exact helsewhere rfl trivial (hst.notMem_of_others hother) (Option.some.inj ht)
  | release b =>
    obtain ⟨hother, ht⟩ := Option.ite_none_right_eq_some.mp ht
    exact helsewhere rfl trivial (hst.notMem_of_others hother) (Option.some.inj ht)

theorem Follows.placed (hfollows : Follows h s) : Placed s := by
  obtain ⟨l, hst, hplaced⟩ := hfollows
  exact (placed_iff hst).mpr hplaced

theorem follows_start (hst : Stored h l (start others heap l.pool)) :
    Follows h (start others heap l.pool) :=
  ⟨l, hst, fun _ hr => absurd hr List.not_mem_nil⟩

/-- Addresses for a pool of one slot, and the heap before it. -/
def callocsAt : Callocs := ⟨some 1, some 2, some 3, some 4⟩

def blocksAt (i : ℕ) : Block := some (10 + i, fun _ => 65)

def emptyHeap : Heap ℕ Cell := fun _ => none

theorem freshAll_emptyHeap : FreshAll callocsAt blocksAt 1 emptyHeap :=
  ⟨by decide, fun _ _ => rfl⟩

/-- A slot grows while a request points to it, its block goes to the rest of the process, the
request completes there, and the pool is closed. -/
def lateWrite : List Event :=
  [.submit 0 1, .op (.resize (some (20, fun _ => 66)) 0 2), .allocate 10 (.bytes [9]),
    .complete 0 [7], .op (.get 0), .op .close]

theorem serves_of_reach_oneSlot : ∃ heap s h₀,
    create callocsAt blocksAt 0 1 1 emptyHeap = some (.ok 1, heap) ∧
    exec step (start emptyHeap heap 1) lateWrite = some s ∧ Serves h₀ s ∧
    s.heap 10 = some (.bytes [7]) ∧ s.object = none := by
  obtain ⟨r, heap, hcreate, -, hserves⟩ := serves_of_reach 0 1 1 freshAll_emptyHeap
  obtain ⟨hr, hheap⟩ := Prod.mk.inj (Option.some.inj (hcreate.symm.trans rfl))
  subst hr hheap
  obtain ⟨h₀, -, hs⟩ := hserves _ _ rfl (@reach_of_exec _ _ step _ lateWrite _ _ (by decide) rfl)
  exact ⟨_, _, h₀, rfl, rfl, hs, rfl, rfl⟩

section Requests

variable {callocs : Callocs} {memalign : ℕ → Block} (errno : ℕ) (count size : ℤ) {addr : ℕ}
  {es : List Event}

/-- A pool that was created is the new pool of slots. -/
theorem follows_create (hfresh : FreshAll callocs memalign (cUint count) others)
    (hcreate : create callocs memalign errno count size others = some (.ok addr, heap)) :
    ∃ h₀, BufferPool.create (callocs.layout memalign).isSome (plainMemalign memalign) errno count
      size = .ok h₀ ∧ Follows h₀ (start others heap addr) := by
  rcases create_cases errno count size hfresh with
    ⟨l, h₀, heap', heq, hslots, hst⟩ | ⟨exc, heq, -⟩
  · obtain ⟨hok, rfl⟩ := Prod.mk.inj (Option.some.inj (hcreate.symm.trans heq))
    obtain rfl := Except.ok.inj hok
    exact ⟨h₀, hslots, follows_start hst⟩
  · obtain ⟨hok, -⟩ := Prod.mk.inj (Option.some.inj (hcreate.symm.trans heq))
    exact absurd hok (by simp)

/-- **Exactly when requests write to their slots**: in a run from a new pool, all of them do at
every moment, if and only if no slot with a request grows, no pool with requests is closed and no
request asks for more than its slot has room for. -/
theorem placed_iff_tidy (hfresh : FreshAll callocs memalign (cUint count) others)
    (hcreate : create callocs memalign errno count size others = some (.ok addr, heap))
    (ht : exec step (start others heap addr) es = some t) :
    Always step Placed (start others heap addr) es ↔
      Meets step Tidy (start others heap addr) es := by
  obtain ⟨h₀, -, hstart⟩ := follows_create errno count size hfresh hcreate
  refine always_iff_meets (I := fun s => ∃ h, Follows h s) (A := fun _ => True)
    (fun s ⟨h, hs⟩ => hs.placed) ?_ ⟨h₀, hstart⟩ (fun _ _ => trivial) ht
  rintro s e u ⟨h, hs⟩ - hu
  have hdecides := decides_step hs hu
  by_cases htidy : Tidy s e
  · obtain ⟨h', -, hu'⟩ := hdecides.tidy htidy
    exact Or.inl ⟨htidy, h', hu'⟩
  · exact Or.inr ⟨htidy, hdecides.untidy htidy⟩

/-- A slot grows under a request. -/
theorem placed_iff_tidy_oneSlot : ∃ heap t,
    create callocsAt blocksAt 0 1 1 emptyHeap = some (.ok 1, heap) ∧
    exec step (start emptyHeap heap 1)
      [.submit 0 1, .op (.resize (some (20, fun _ => 66)) 0 2)] = some t ∧
    (Always step Placed (start emptyHeap heap 1)
        [.submit 0 1, .op (.resize (some (20, fun _ => 66)) 0 2)] ↔
      Meets step Tidy (start emptyHeap heap 1)
        [.submit 0 1, .op (.resize (some (20, fun _ => 66)) 0 2)]) ∧
    t.inFlight = [⟨0, 10, 1⟩] ∧ t.blockOf 0 = some 20 :=
  ⟨_, _, rfl, rfl, placed_iff_tidy 0 1 1 freshAll_emptyHeap rfl rfl, rfl, rfl⟩

/-- **Completions are writes to slots**: a run in which the requests write to their slots is a
run of the pool of slots, in which each completion is a write to its slot. -/
theorem exec_plain_of_tidy (hfresh : FreshAll callocs memalign (cUint count) others)
    (hcreate : create callocs memalign errno count size others = some (.ok addr, heap))
    (ht : exec step (start others heap addr) es = some t)
    (htidy : Meets step Tidy (start others heap addr) es) :
    ∃ h₀ h l, BufferPool.create (callocs.layout memalign).isSome (plainMemalign memalign) errno
        count size = .ok h₀ ∧
      exec BufferPool.step h₀ (expand step plainCalls (start others heap addr) es) = some h ∧
      Stored h l t := by
  obtain ⟨h₀, hslots, hstart⟩ := follows_create errno count size hfresh hcreate
  obtain ⟨h, hexec, l, hst, -⟩ := exec_expand (R := fun s h => Follows h s) (C := Tidy)
    (fun s e u h hs hC hu => (decides_step hs hu).tidy hC) hstart htidy ht
  exact ⟨h₀, h, l, hslots, hexec, hst⟩

/-- A byte is read into the slot. -/
theorem exec_plain_of_tidy_oneSlot : ∃ heap t h₀ h l,
    create callocsAt blocksAt 0 1 1 emptyHeap = some (.ok 1, heap) ∧
    exec step (start emptyHeap heap 1) [.submit 0 1, .complete 0 [7]] = some t ∧
    exec BufferPool.step h₀ [.store 0 0 [7]] = some h ∧ Stored h l t := by
  obtain ⟨h₀, h, l, -, hexec, hst⟩ := @exec_plain_of_tidy _ _ _ callocsAt blocksAt 0 1 1 1
    [.submit 0 1, .complete 0 [7]] freshAll_emptyHeap rfl rfl
    ⟨by decide, fun _ _ => ⟨trivial, fun _ _ => trivial⟩⟩
  exact ⟨_, _, h₀, h, l, rfl, rfl, hexec, hst⟩

end Requests

end Memory
end BufferPool
end Native
end Pyuring
