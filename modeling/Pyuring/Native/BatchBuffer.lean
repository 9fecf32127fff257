import Pyuring.Lib.PaddedBlocks
import Pyuring.Native.BatchReap

/-!
# What a batch of reads returns

`read_batch` and `read_offsets` of a `UringCtx`: a zeroed buffer with room for all blocks,
the native batch reading each block to its own place in it, and at the end as many bytes
from the front of the buffer as the native function says were read.  This file puts the
buffer beside the ring.  The kernel answers a read with bytes, which go to the place that
the entry names, and the ring is told how many they are.

`returns_iff` says what such a call returns for a regular file: the front of the padded
blocks, as many bytes as the blocks have.  Where a block comes back short the padding
stays in, so this is not always the blocks one after the other.
-/

namespace Pyuring
namespace Native
namespace ReadBlocks

open Trace UringCtx

/-- The bytes of a regular file, whose size is a `loff_t`. -/
abbrev Content : Type := {l : List UInt8 // l.length < 2 ^ 63}

/-- `content[o : o + n]`. -/
def Content.slice (content : Content) (n o : ℕ) : List UInt8 := (content.1.drop o).take n

/-- What a `c_longlong` makes of a number: it keeps the lower 64 bits. -/
def cLonglong (o : ℤ) : ℤ := o.bmod (2 ^ 64)

/-- A native batch and the size of the buffer that it fills. -/
structure Call where
  fn : SyncFn
  totalLen : ℕ
  deriving DecidableEq

/-- `read_batch`. -/
def readBatch (fd : ℤ) (blockSize blocks : ℕ) (offset : ℤ) : Call where
  fn := .readBatch fd (UInt32.ofNat blockSize) (UInt32.ofNat blocks) (cLonglong offset)
  totalLen := blockSize * blocks

/-- `read_offsets`. -/
def readOffsets (fd : ℤ) (blockSize : ℕ) (offsets : List ℤ) (offsetBytes : Bool) : Call where
  fn := .readOffsets fd (UInt32.ofNat blockSize) (offsets.map fun o =>
    if offsetBytes then cLonglong o else cLonglong (o * blockSize))
  totalLen := blockSize * offsets.length

/-- The kernel's answer to a read: an error, or the bytes that it read. -/
abbrev Answer : Type := Except Errno (List UInt8)

/-- The result in the completion. -/
def Answer.result : Answer → ℤ
  | .error e => e.neg
  | .ok bytes => bytes.length

/-- The ring and the buffer. -/
structure State where
  ctx : UringCtx.State
  buf : SparseFile UInt8

inductive Event where
  | complete (i : ℕ) (answer : Answer)
  | peek
  | wait (waitRet : ℤ)

/-- What the ring sees of an event. -/
def Event.toCtx : Event → UringCtx.Event
  | .complete i answer => .complete i answer.result false
  | .peek => .peek
  | .wait waitRet => .wait waitRet

/-- The bytes read go to where the entry asked for them. -/
def put (q : CtxSqe) (answer : Answer) (buf : SparseFile UInt8) : SparseFile UInt8 :=
  match q.op, answer with
  | .read _ dst _ _, .ok bytes => buf.write dst bytes
  | _, _ => buf

/-- What an event does to the buffer. -/
def State.store (s : State) : Event → SparseFile UInt8
  | .complete i answer => match s.ctx.ring.outstanding[i]? with
    | some q => put q answer s.buf
    | none => s.buf
  | .peek => s.buf
  | .wait _ => s.buf

/-- The call up to where the native function first looks at the completion queue. -/
def Call.start (cfg : Config) (call : Call) (stale : Prep) (submitRet : ℤ) (s : UringCtx.State) :
    State where
  ctx := s.start cfg call.fn stale submitRet
  buf := SparseFile.empty.truncate call.totalLen

def step (cfg : Config) (s : State) (e : Event) : Option State :=
  (UringCtx.step cfg s.ctx e.toCtx).map fun ctx => ⟨ctx, s.store e⟩

/-- What the call returns once the native function has: it raises for a negative value,
and else cuts the buffer. -/
def State.returned (s : State) : Option (Except SubmitError (List UInt8)) :=
  if s.ctx.call = none then
    (s.ctx.log.findSome? Ev.returned?).map fun p =>
      (UringCtx.State.raiseForNegErrno p.2).map fun ret => s.buf.contents.take ret.toNat
  else none

/-- The steps of a call whose reads are answered as `A` allows. -/
def Answered (A : CtxSqe → Answer → Prop) (s : State) : Event → Prop
  | .complete i answer => ∀ q, s.ctx.ring.outstanding[i]? = some q → A q answer
  | .peek => True
  | .wait waitRet => 0 ≤ waitRet

/-- A kernel that reads a regular file and comes back short only at the end of it.  What
it makes of a negative offset is left open. -/
def FromFile (content : Content) (q : CtxSqe) (answer : Answer) : Prop :=
  ∀ fd dst len off, q.op = .read fd dst len off →
    (0 ≤ off → answer = .ok (content.slice len off.toNat)) ∧
      ∀ bytes, answer = .ok bytes → bytes.length ≤ len

/-- The call comes back, and with `bytes`, for every kernel that answers as `A` allows. -/
structure Returns (cfg : Config) (A : CtxSqe → Answer → Prop) (s : State) (bytes : List UInt8) :
    Prop where
  terminates : Terminates (step cfg) (Answered A) (fun t => t.ctx.call = none) s
  returned : ∀ t, Reach (step cfg) (Answered A) s t → t.ctx.call = none →
    t.returned = some (.ok bytes)

variable {cfg : Config} {A : CtxSqe → Answer → Prop} {fn : SyncFn} {n k : ℕ} {s t : State}
  {content : Content}

/-! ## The ring under the buffer -/

/-- The results of the answers that `A` allows. -/
def resultOf (A : CtxSqe → Answer → Prop) (q : CtxSqe) (res : ℤ) : Prop :=
  ∃ answer, A q answer ∧ answer.result = res

theorem step_eq_some {e : Event} (h : step cfg s e = some t) :
    UringCtx.step cfg s.ctx e.toCtx = some t.ctx ∧ t.buf = s.store e := by
  obtain ⟨ctx, hctx, rfl⟩ := Option.map_eq_some_iff.mp h
  exact ⟨hctx, rfl⟩

theorem answered_toCtx {e : Event} (h : Answered A s e) :
    UringCtx.Answered (resultOf A) s.ctx e.toCtx := by
  cases e with
  | complete i answer => exact ⟨rfl, fun q hq => ⟨answer, h q hq, rfl⟩⟩
  | peek => trivial
  | wait waitRet => exact h

/-- What the ring can do, the ring with its buffer can. -/
theorem exists_step {e : UringCtx.Event} {ctx : UringCtx.State}
    (he : UringCtx.Answered (resultOf A) s.ctx e) (h : UringCtx.step cfg s.ctx e = some ctx) :
    ∃ e' t, Answered A s e' ∧ step cfg s e' = some t := by
  cases e with
  | complete i res more =>
    obtain ⟨rfl, hok⟩ := he
    obtain ⟨q, hq, rfl⟩ := complete_false (h : s.ctx.complete i res false = some ctx)
    obtain ⟨answer, hanswer, rfl⟩ := hok q hq
    refine ⟨.complete i answer, _, ?_, by simp only [step, Event.toCtx]; rw [h]; rfl⟩
    intro q' hq'
    rw [← Option.some.inj (hq.symm.trans hq')]
    exact hanswer
  | peek => exact ⟨.peek, _, trivial, by simp only [step, Event.toCtx]; rw [h]; rfl⟩
  | wait waitRet => exact ⟨.wait waitRet, _, he, by simp only [step, Event.toCtx]; rw [h]; rfl⟩
  | sync fn stale submitRet => exact he.elim
  | async op posts userData tracked submitRet => exact he.elim
  | waitCompletion waitRet => exact he.elim
  | peekCompletion peekRet => exact he.elim

/-- A call comes back, whatever the kernel's order, if there is an answer to each read. -/
theorem call_terminates {u : UringCtx.State} {call : Call} (hfn : call.fn.batch? = some (n, k))
    (hvalid : call.fn.valid cfg = true) (hroom : k ≤ cfg.sqEntries) (hidle : u.ring.Idle)
    (stale : Prep) {submitRet : ℤ} (hret : 0 ≤ submitRet)
    (hA : ∀ q ∈ entries u.serial call.fn.preps, ∃ answer, A q answer) :
    Terminates (step cfg) (Answered A) (fun t => t.ctx.call = none)
      (call.start cfg stale submitRet u) := by
  have hok : ∀ q ∈ entries u.serial call.fn.preps, ∃ res, resultOf A q res := by
    intro q hq
    obtain ⟨answer, hanswer⟩ := hA q hq
    exact ⟨answer.result, answer, hanswer, rfl⟩
  refine terminates_of_measure (I := fun t => BatchAt (resultOf A) call.fn u.serial
    (entries u.serial call.fn.preps) t.ctx) (fun t => batchWork t.ctx) ?_ ?_ ?_ ?_
  · exact batchAt_start hfn hvalid hroom hidle stale hret
  · intro t e v h he hv
    exact (batchAt_step h (answered_toCtx he) (step_eq_some hv).1).1
  · intro t e v h he hv
    exact (batchAt_step h (answered_toCtx he) (step_eq_some hv).1).2
  · intro t h hcall
    obtain ⟨e, ctx, he, hctx⟩ :=
      batchAt_moves (fun q hq => posts_of_batch hfn hvalid hq) hok h hcall
    exact exists_step he hctx

theorem batchAt_of_reach_call {u : UringCtx.State} {call : Call}
    (hfn : call.fn.batch? = some (n, k)) (hvalid : call.fn.valid cfg = true)
    (hroom : k ≤ cfg.sqEntries) (hidle : u.ring.Idle) {stale : Prep} {submitRet : ℤ}
    (hret : 0 ≤ submitRet)
    (hreach : Reach (step cfg) (Answered A) (call.start cfg stale submitRet u) t) :
    BatchAt (resultOf A) call.fn u.serial (entries u.serial call.fn.preps) t.ctx := by
  refine hreach.invariant (I := fun t => BatchAt (resultOf A) call.fn u.serial
    (entries u.serial call.fn.preps) t.ctx) ?_ ?_
  · exact batchAt_start hfn hvalid hroom hidle stale hret
  · intro t e v h he hv
    exact (batchAt_step h (answered_toCtx he) (step_eq_some hv).1).1

/-! ## The buffer -/

/-- The block that an entry reads, and its place. -/
def place (content : Content) (q : CtxSqe) : ℕ × List UInt8 :=
  match q.op with
  | .read _ dst len off => (dst, content.slice len off.toNat)
  | _ => (0, [])

/-- The kernel reads the file, where the file is. -/
def Placed (content : Content) (A : CtxSqe → Answer → Prop) (q : CtxSqe) : Prop :=
  ∀ answer, A q answer → answer = .ok (place content q).2 ∧
    ∀ buf, put q answer buf = buf.write (place content q).1 (place content q).2

/-- The buffer of `total` bytes has the blocks of the entries completed, and only
these. -/
def Filled (content : Content) (qs : List CtxSqe) (total : ℕ) (s : State) : Prop :=
  ∃ ws, (ws ++ s.ctx.ring.outstanding.map (place content)).Perm (qs.map (place content)) ∧
    s.buf.size = total ∧ ∀ p, s.buf.byte p = (SparseFile.ofWrites ws).byte p

theorem outstanding_drain : ∀ (m : ℕ) (u : UringCtx.State),
    (u.drain m).ring.outstanding = u.ring.outstanding
  | 0, u => rfl
  | m + 1, u => by
    unfold UringCtx.State.drain
    split
    · next r c cs hr hcs =>
      rw [outstanding_drain m, (reapOne_frame r c cs).1]
    · rfl

/-- A call that looks at the completions leaves what is outstanding alone. -/
theorem outstanding_of_reap {u v : UringCtx.State} {e : UringCtx.Event}
    (he : e = .peek ∨ ∃ waitRet, e = .wait waitRet) (h : UringCtx.step cfg u e = some v) :
    v.ring.outstanding = u.ring.outstanding := by
  rcases he with rfl | ⟨waitRet, rfl⟩
  · cases step_cases h with
    | batchWaits hr hreap hnil => rfl
    | batchDrains hr hreap hne => exact outstanding_drain _ u
  · cases step_cases h with
    | waitFails hr hfails => rfl
    | waitReaps hr hok hcs => rw [(reapOne_frame _ _ _).1]

variable {qs : List CtxSqe} {total : ℕ}

theorem filled_step {e : Event} (hplaced : ∀ q ∈ qs, Placed content A q)
    (hroom : ∀ q ∈ qs, (place content q).1 + (place content q).2.length ≤ total)
    (hqs : ∀ q ∈ s.ctx.ring.outstanding, q ∈ qs) (h : Filled content qs total s)
    (he : Answered A s e) (ht : step cfg s e = some t) : Filled content qs total t := by
  obtain ⟨hctx, hbuf⟩ := step_eq_some ht
  obtain ⟨ws, hperm, hsize, hbyte⟩ := h
  cases e with
  | complete i answer =>
    obtain ⟨q, hq, heq⟩ := complete_false
      (h := (hctx : s.ctx.complete i answer.result false = some t.ctx))
    have hmem := hqs q (List.mem_of_getElem? hq)
    have hwrite : t.buf = s.buf.write (place content q).1 (place content q).2 := by
      rw [hbuf]
      simp only [State.store, hq]
      exact (hplaced q hmem answer (he q hq)).2 s.buf
    refine ⟨place content q :: ws, ?_, ?_, ?_⟩
    · obtain ⟨hi, rfl⟩ := List.getElem?_eq_some_iff.mp hq
      have herase := (List.getElem_cons_eraseIdx_perm hi).map (place content)
      rw [List.map_cons] at herase
      rw [heq, List.cons_append]
      exact (List.perm_middle.symm.trans (herase.append_left ws)).trans hperm
    · have hle := hroom q hmem
      rw [hwrite, SparseFile.write, hsize]
      simp only
      split
      · rfl
      · omega
    · intro p
      rw [hwrite, SparseFile.ofWrites]
      simp only [SparseFile.write, hbyte]
  | peek =>
    refine ⟨ws, ?_, ?_, ?_⟩
    · rw [outstanding_of_reap (Or.inl rfl) hctx]
      exact hperm
    · rw [hbuf]
      exact hsize
    · rw [hbuf]
      exact hbyte
  | wait waitRet =>
    refine ⟨ws, ?_, ?_, ?_⟩
    · rw [outstanding_of_reap (Or.inr ⟨waitRet, rfl⟩) hctx]
      exact hperm
    · rw [hbuf]
      exact hsize
    · rw [hbuf]
      exact hbyte

theorem filled_started {u : UringCtx.State} (hidle : u.ring.Idle) (fn : SyncFn) (total : ℕ) :
    Filled content (entries u.serial fn.preps) total
      ⟨u.started fn, SparseFile.empty.truncate total⟩ := by
  refine ⟨[], ?_, rfl, ?_⟩
  · simp [UringCtx.State.started, UringCtx.State.withTaken, hidle.1, hidle.2.1]
  · intro p
    simp [SparseFile.truncate, SparseFile.empty, SparseFile.ofWrites]

/-! ## What the call returns -/

/-- A batch reads a block of `blockSize` bytes at each of the offsets `offs`. -/
structure ReadsAt (fn : SyncFn) (fd : ℤ) (blockSize : UInt32) (offs : List ℤ) : Prop where
  batch : fn.batch? = some (blockSize.toNat, offs.length)
  preps : fn.preps = offs.mapIdx fun i off => blockPrep fd blockSize off i

/-- The blocks at the offsets. -/
def blocksAt (content : Content) (n : ℕ) (offs : List ℤ) : List (List UInt8) :=
  offs.map fun off => content.slice n off.toNat

variable {fd : ℤ} {blockSize : UInt32} {offs : List ℤ} {u : UringCtx.State}

theorem length_slice (content : Content) (n o : ℕ) :
    (content.slice n o).length = min n (content.1.length - o) := by
  rw [Content.slice, List.length_take, List.length_drop]

theorem length_le_of_mem_blocksAt : ∀ b ∈ blocksAt content n offs, b.length ≤ n := by
  intro b hb
  obtain ⟨off, -, rfl⟩ := List.mem_map.mp hb
  rw [length_slice]
  exact Nat.min_le_left _ _

theorem map_entries {β : Type*} {f : CtxSqe → β} {g : Prep → β} (h : ∀ q, f q = g q.toPrep)
    (m : ℕ) (ps : List Prep) : (entries m ps).map f = ps.map g := by
  induction ps generalizing m with
  | nil => rfl
  | cons p ps ih => rw [entries, List.map_cons, List.map_cons, ih, h]

/-- The entries of a batch put its blocks at strides of the block size. -/
theorem ReadsAt.map_place (h : ReadsAt fn fd blockSize offs) (content : Content) (m : ℕ) :
    (entries m fn.preps).map (place content) =
      PaddedBlocks.strided blockSize.toNat (blocksAt content blockSize.toNat offs) := by
  have hmap := map_entries (f := place content) (g := fun p => place content ⟨p, 0, true, 0⟩)
    (fun q => rfl) m fn.preps
  rw [hmap, h.preps]
  apply List.ext_getElem?
  intro i
  rw [PaddedBlocks.strided, blocksAt, List.getElem?_map, List.getElem?_mapIdx,
    List.getElem?_mapIdx, List.getElem?_map, Option.map_map, Option.map_map]
  rfl

/-- Every entry of a batch reads one of the blocks. -/
theorem ReadsAt.op_of_mem (h : ReadsAt fn fd blockSize offs) {m : ℕ} {q : CtxSqe}
    (hq : q ∈ entries m fn.preps) :
    ∃ i off, i < offs.length ∧ off ∈ offs ∧
      q.op = .read fd (i * blockSize.toNat) blockSize.toNat off := by
  obtain ⟨-, -, -, hmem, -⟩ := mem_entries hq
  rw [h.preps] at hmem
  obtain ⟨i, hi, heq⟩ := List.mem_mapIdx.mp hmem
  refine ⟨i, offs[i], hi, List.getElem_mem hi, ?_⟩
  rw [← heq]
  rfl

/-- At offsets that are not negative there is one answer to each read. -/
theorem ReadsAt.placed (h : ReadsAt fn fd blockSize offs) (hnonneg : ∀ off ∈ offs, 0 ≤ off) {m : ℕ}
    {q : CtxSqe} (hq : q ∈ entries m fn.preps) : Placed content (FromFile content) q := by
  obtain ⟨i, off, -, hoff, hop⟩ := h.op_of_mem hq
  intro answer hanswer
  have hplace : place content q =
      (i * blockSize.toNat, content.slice blockSize.toNat off.toNat) := by
    simp only [place, hop]
  obtain rfl := (hanswer fd _ _ off hop).1 (hnonneg off hoff)
  refine ⟨by rw [hplace], ?_⟩
  intro buf
  rw [hplace]
  simp only [put, hop]

theorem ReadsAt.exists_answer (h : ReadsAt fn fd blockSize offs) {m : ℕ} {q : CtxSqe}
    (hq : q ∈ entries m fn.preps) : ∃ answer, FromFile content q answer ∧
      ∀ fd dst len off, q.op = .read fd dst len off → off < 0 → answer = .error EINVAL := by
  obtain ⟨i, off, -, hoff, hop⟩ := h.op_of_mem hq
  rcases Int.lt_or_le off 0 with hneg | hnonneg
  · refine ⟨.error EINVAL, ?_, fun _ _ _ _ _ _ => rfl⟩
    intro fd' dst len off' hop'
    obtain ⟨-, -, -, rfl⟩ := SqeOp.read.inj (hop.symm.trans hop')
    exact ⟨fun h0 => absurd h0 (Int.not_le.mpr hneg), fun bytes hbytes => by simp at hbytes⟩
  · refine ⟨.ok (content.slice blockSize.toNat off.toNat), ?_, ?_⟩
    · intro fd' dst len off' hop'
      obtain ⟨-, -, rfl, rfl⟩ := SqeOp.read.inj (hop.symm.trans hop')
      refine ⟨fun _ => rfl, ?_⟩
      intro bytes hbytes
      rw [← Except.ok.inj hbytes, length_slice]
      exact Nat.min_le_left _ _
    · intro fd' dst len off' hop' hneg
      obtain ⟨-, -, -, rfl⟩ := SqeOp.read.inj (hop.symm.trans hop')
      exact absurd hneg (Int.not_lt.mpr hnonneg)

/-- The results of all entries add up to the length of the blocks. -/
theorem exactSum_eq_length {qs : List CtxSqe} {reaped : List (CtxSqe × ℤ)} {ctx : UringCtx.State}
    (hbatch : Batching (resultOf A) qs reaped ctx) (hidle : ctx.ring.Idle)
    (hplaced : ∀ q ∈ qs, Placed content A q) :
    exactSum reaped = ((qs.map fun q => (place content q).2.length).sum : ℕ) := by
  have hperm : (reaped.map Prod.fst).Perm qs := by
    have hpending := hbatch.pending
    rw [CompletionRing.pending_eq_zero.mpr hidle, zero_add] at hpending
    exact Multiset.coe_eq_coe.mp hpending
  have hres : ∀ c ∈ reaped, c.2 = ((place content c.1).2.length : ℤ) := by
    intro c hc
    obtain ⟨answer, hanswer, heq⟩ := hbatch.good c (List.mem_append_right _ hc)
    have hmem : c.1 ∈ qs := hperm.mem_iff.mp (List.mem_map_of_mem hc)
    obtain ⟨rfl, -⟩ := hplaced c.1 hmem answer hanswer
    exact heq.symm
  rw [exactSum, List.map_congr_left hres, ← (hperm.map _).sum_eq, List.map_map]
  simp [Function.comp_def]

/-- The bytes that a call returns: as many from the front of the padded blocks as there
are in the blocks. -/
def front (content : Content) (n : ℕ) (offs : List ℤ) : List UInt8 :=
  (PaddedBlocks.padAll n 0 (blocksAt content n offs)).take (blocksAt content n offs).flatten.length

section Call

variable {call : Call} {stale : Prep} {submitRet : ℤ}

theorem filled_of_reach (h : ReadsAt call.fn fd blockSize offs)
    (hvalid : call.fn.valid cfg = true) (hroom : offs.length ≤ cfg.sqEntries)
    (hidle : u.ring.Idle) (hret : 0 ≤ submitRet)
    (htotal : call.totalLen = offs.length * blockSize.toNat) (hnonneg : ∀ off ∈ offs, 0 ≤ off)
    (hreach : Reach (step cfg) (Answered (FromFile content)) (call.start cfg stale submitRet u) t) :
    Filled content (entries u.serial call.fn.preps) call.totalLen t := by
  have hfits : ∀ q ∈ entries u.serial call.fn.preps,
      (place content q).1 + (place content q).2.length ≤ call.totalLen := by
    intro q hq
    obtain ⟨i, off, hi, -, hop⟩ := h.op_of_mem hq
    have hle : (content.slice blockSize.toNat off.toNat).length ≤ blockSize.toNat := by
      rw [length_slice]
      exact Nat.min_le_left _ _
    have hmul := Nat.mul_le_mul_right blockSize.toNat (Nat.succ_le_of_lt hi)
    rw [Nat.succ_mul] at hmul
    simp only [place, hop, htotal]
    omega
  have hboth := hreach.invariant (I := fun t =>
    BatchAt (resultOf (FromFile content)) call.fn u.serial (entries u.serial call.fn.preps) t.ctx ∧
      Filled content (entries u.serial call.fn.preps) call.totalLen t) ?_ ?_
  · exact hboth.2
  · rw [Call.start, start_batch h.batch hvalid hroom hidle stale hret]
    exact ⟨batchAt_started h.batch hvalid hidle, filled_started hidle call.fn call.totalLen⟩
  · rintro t e v ⟨hat, hfilled⟩ he hv
    refine ⟨(batchAt_step hat (answered_toCtx he) (step_eq_some hv).1).1, ?_⟩
    refine filled_step (fun q hq => h.placed hnonneg hq) hfits ?_ hfilled he hv
    intro q hq
    cases hat with
    | waits hbatch hcall hleft hpos hok => exact hbatch.mem_of_outstanding hq
    | returns hbatch hcall hrest hreturn hok => exact hbatch.mem_of_outstanding hq
    | fails hbatch hcall hreturn hneg hfailed => exact hbatch.mem_of_outstanding hq

/-- A buffer with all blocks in it reads as the padded blocks. -/
theorem contents_of_filled (h : ReadsAt call.fn fd blockSize offs) {m : ℕ}
    (htotal : call.totalLen = offs.length * blockSize.toNat)
    (hfilled : Filled content (entries m call.fn.preps) call.totalLen t)
    (hout : t.ctx.ring.outstanding = []) :
    t.buf.contents =
      PaddedBlocks.padAll blockSize.toNat 0 (blocksAt content blockSize.toNat offs) := by
  obtain ⟨ws, hperm, hsize, hbyte⟩ := hfilled
  rw [hout, List.map_nil, List.append_nil, h.map_place] at hperm
  have hlen : (blocksAt content blockSize.toNat offs).length = offs.length := List.length_map _
  rw [SparseFile.contents, hsize, htotal, ← hlen]
  refine PaddedBlocks.map_range_eq_padAll length_le_of_mem_blocksAt ?_
  intro i b hb k hk
  rw [hbyte]
  exact PaddedBlocks.byte_of_perm_strided hperm length_le_of_mem_blocksAt hb hk

/-- A call whose offsets are not negative returns the front of the padded blocks. -/
theorem returned_of_nonneg (h : ReadsAt call.fn fd blockSize offs)
    (hvalid : call.fn.valid cfg = true) (hroom : offs.length ≤ cfg.sqEntries)
    (hidle : u.ring.Idle) (hret : 0 ≤ submitRet)
    (htotal : call.totalLen = offs.length * blockSize.toNat) (hnonneg : ∀ off ∈ offs, 0 ≤ off)
    (hfit : offs.length * blockSize.toNat < 2 ^ 31)
    (hreach : Reach (step cfg) (Answered (FromFile content)) (call.start cfg stale submitRet u) t)
    (hcall : t.ctx.call = none) :
    t.returned = some (.ok (front content blockSize.toNat offs)) := by
  have hat := batchAt_of_reach_call h.batch hvalid hroom hidle hret hreach
  have hplaced : ∀ q ∈ entries u.serial call.fn.preps, Placed content (FromFile content) q :=
    fun q hq => h.placed hnonneg hq
  cases hat with
  | waits hbatch hrunning hleft hpos hok => exact absurd (hcall.symm.trans hrunning) (by simp)
  | @returns reaped hbatch hnone hrest hreturn hok =>
    have hcontents := contents_of_filled h htotal
      (filled_of_reach h hvalid hroom hidle hret htotal hnonneg hreach) hrest.2.1
    have hsum : exactSum reaped =
        ((blocksAt content blockSize.toNat offs).flatten.length : ℕ) := by
      have hlens := congrArg (fun ws => (ws.map fun w => w.2.length).sum)
        (h.map_place content u.serial)
      rw [exactSum_eq_length hbatch hrest hplaced]
      simp only [List.map_map, Function.comp_def] at hlens
      rw [hlens, List.length_flatten, PaddedBlocks.strided]
      congr 2
      apply List.ext_getElem?
      intro i
      simp [Function.comp_def]
    have hfits : (blocksAt content blockSize.toNat offs).flatten.length < 2 ^ 31 := by
      have hblocks : ∀ b ∈ blocksAt content blockSize.toNat offs, b.length ≤ blockSize.toNat :=
        length_le_of_mem_blocksAt
      have hle := PaddedBlocks.length_flatten_le hblocks
      rw [blocksAt, List.length_map] at hle
      rw [blocksAt]
      omega
    have hint : intSum reaped = ((blocksAt content blockSize.toNat offs).flatten.length : ℕ) := by
      rw [intSum_eq hok (by rw [hsum]; exact_mod_cast hfits), hsum]
    rw [State.returned, if_pos hcall, hreturn, Option.map_some, hint,
      UringCtx.State.raiseForNegErrno,
      if_neg (Int.not_lt.mpr (Int.natCast_nonneg _)), hcontents]
    rfl
  | fails hbatch hnone hreturn hneg hfailed =>
    obtain ⟨c, hc, hlt⟩ := hfailed
    obtain ⟨answer, hanswer, heq⟩ := hbatch.good c (List.mem_append_right _ hc)
    have hmem : c.1 ∈ entries u.serial call.fn.preps := by
      rw [← Multiset.mem_coe, ← hbatch.pending]
      exact Multiset.mem_add.mpr (Or.inr (List.mem_map_of_mem hc))
    obtain ⟨rfl, -⟩ := hplaced c.1 hmem answer hanswer
    rw [← heq] at hlt
    exact absurd hlt (Int.not_lt.mpr (Int.natCast_nonneg _))

/-- A kernel that refuses negative offsets. -/
def Refusing (content : Content) (q : CtxSqe) (answer : Answer) : Prop :=
  FromFile content q answer ∧
    ∀ fd dst len off, q.op = .read fd dst len off → off < 0 → answer = .error EINVAL

theorem Answered.mono {B : CtxSqe → Answer → Prop} {e : Event} (h : Answered A s e)
    (hAB : ∀ q answer, A q answer → B q answer) : Answered B s e := by
  cases e with
  | complete i answer => exact fun q hq => hAB q answer (h q hq)
  | peek => trivial
  | wait waitRet => exact h

/-- A call with a negative offset raises when the kernel refuses it. -/
theorem raises_of_negative (h : ReadsAt call.fn fd blockSize offs)
    (hvalid : call.fn.valid cfg = true) (hroom : offs.length ≤ cfg.sqEntries)
    (hidle : u.ring.Idle) (hret : 0 ≤ submitRet) {off : ℤ} (hoff : off ∈ offs) (hneg : off < 0)
    (hreach : Reach (step cfg) (Answered (Refusing content)) (call.start cfg stale submitRet u) t)
    (hcall : t.ctx.call = none) : ∃ e, t.returned = some (.error e) := by
  have hat := batchAt_of_reach_call h.batch hvalid hroom hidle hret hreach
  cases hat with
  | waits hbatch hrunning hleft hpos hok => exact absurd (hcall.symm.trans hrunning) (by simp)
  | @returns reaped hbatch hnone hrest hreturn hok =>
    -- the entry with that offset was reaped, with a negative result
    obtain ⟨i, hi, rfl⟩ := List.mem_iff_getElem.mp hoff
    have hprep : blockPrep fd blockSize offs[i] i ∈ call.fn.preps := by
      rw [h.preps]
      exact List.mem_mapIdx.mpr ⟨i, hi, rfl⟩
    have hmem : blockPrep fd blockSize offs[i] i ∈
        (entries u.serial call.fn.preps).map CtxSqe.toPrep := by
      rw [map_entries (f := CtxSqe.toPrep) (g := id) (fun q => rfl), List.map_id]
      exact hprep
    obtain ⟨q, hq, hqprep⟩ := List.mem_map.mp hmem
    have hop : q.op = .read fd (i * blockSize.toNat) blockSize.toNat offs[i] := by
      rw [hqprep]
      rfl
    rw [← Multiset.mem_coe, ← hbatch.pending, CompletionRing.pending_eq_zero.mpr hrest,
      zero_add] at hq
    obtain ⟨c, hc, rfl⟩ := List.mem_map.mp (Multiset.mem_coe.mp hq)
    obtain ⟨answer, hanswer, heq⟩ := hbatch.good c (List.mem_append_right _ hc)
    obtain rfl := hanswer.2 fd _ _ _ hop hneg
    have hlt : c.2 < 0 := heq ▸ EINVAL.neg_lt
    exact absurd (hok c hc) (Int.not_le.mpr hlt)
  | @fails reaped value hbatch hnone hreturn hvalue hfailed =>
    refine ⟨.ofNegErrno value, ?_⟩
    rw [State.returned, if_pos hcall, hreturn, Option.map_some, UringCtx.State.raiseForNegErrno,
      if_pos hvalue]
    rfl

/-- A call whose entries do not fit into the queue raises, and leaves a queue full of them. -/
theorem raises_of_no_room (h : ReadsAt call.fn fd blockSize offs)
    (hvalid : call.fn.valid cfg = true) (hidle : u.ring.Idle) (hroom : cfg.sqEntries < offs.length)
    (stale : Prep) (submitRet : ℤ) : (call.start cfg stale submitRet u).ctx.call = none ∧
      (call.start cfg stale submitRet u).returned = some (.error (.uringError EAGAIN.neg)) := by
  obtain ⟨hlen, -⟩ := batch_spec h.batch hvalid
  have hempty : room cfg u = cfg.sqEntries := by
    rw [room, hidle.1, List.length_nil, Nat.sub_zero]
  rcases start_cases (s := u) hvalid stale submitRet with ⟨-, ps, -, heq⟩ | ⟨hle, -⟩ | ⟨hle, -⟩
  · have hcall : (call.start cfg stale submitRet u).ctx.call = none := by
      rw [Call.start, heq]
      rfl
    refine ⟨hcall, ?_⟩
    rw [State.returned, if_pos hcall, Call.start, heq]
    rfl
  · omega
  · omega

/-- **What a call returns.**  Every run of it returns `bytes` exactly when its entries fit into
the queue, no offset is negative and `bytes` is the front of the padded blocks. -/
theorem returns_iff (h : ReadsAt call.fn fd blockSize offs)
    (hvalid : call.fn.valid cfg = true) (hidle : u.ring.Idle) (hret : 0 ≤ submitRet)
    (htotal : call.totalLen = offs.length * blockSize.toNat)
    (hfit : offs.length * blockSize.toNat < 2 ^ 31) (bytes : List UInt8) :
    Returns cfg (FromFile content) (call.start cfg stale submitRet u) bytes ↔
      offs.length ≤ cfg.sqEntries ∧ (∀ off ∈ offs, 0 ≤ off) ∧
        bytes = front content blockSize.toNat offs := by
  have hterm : offs.length ≤ cfg.sqEntries → Terminates (step cfg) (Answered (FromFile content))
      (fun t => t.ctx.call = none) (call.start cfg stale submitRet u) := by
    intro hroom
    refine call_terminates h.batch hvalid hroom hidle stale hret ?_
    intro q hq
    obtain ⟨answer, hanswer, -⟩ := h.exists_answer hq
    exact ⟨answer, hanswer⟩
  constructor
  · intro hreturns
    have hroom : offs.length ≤ cfg.sqEntries := by
      refine Nat.not_lt.mp ?_
      intro hlt
      obtain ⟨hcall, hraise⟩ := raises_of_no_room h hvalid hidle hlt stale submitRet
      have hbytes := hreturns.returned _ (.refl _) hcall
      exact absurd (hraise.symm.trans hbytes) (by simp)
    have hnonneg : ∀ off ∈ offs, 0 ≤ off := by
      intro off hoff
      refine Int.not_lt.mp ?_
      intro hneg
      obtain ⟨t, ht, hcall⟩ := (call_terminates (A := Refusing content) h.batch hvalid hroom hidle
        stale hret fun q hq => h.exists_answer hq).exists_final
      obtain ⟨e, hraise⟩ := raises_of_negative h hvalid hroom hidle hret hoff hneg ht hcall
      have hbytes := hreturns.returned t
        (ht.mono fun v e he => he.mono fun q answer hanswer => hanswer.1) hcall
      exact absurd (hraise.symm.trans hbytes) (by simp)
    obtain ⟨t, ht, hcall⟩ := (hterm hroom).exists_final
    have hbytes := hreturns.returned t ht hcall
    rw [returned_of_nonneg h hvalid hroom hidle hret htotal hnonneg hfit ht hcall] at hbytes
    exact ⟨hroom, hnonneg, (Except.ok.inj (Option.some.inj hbytes)).symm⟩
  · rintro ⟨hroom, hnonneg, rfl⟩
    exact ⟨hterm hroom, fun t ht hcall =>
      returned_of_nonneg h hvalid hroom hidle hret htotal hnonneg hfit ht hcall⟩

end Call

end ReadBlocks
end Native
end Pyuring
