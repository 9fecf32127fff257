import Pyuring.Lib.CompletionRing

/-!
# Requests of the file pipelines

What the three C pipelines of `uring_wrap.c` (copy a file, write one new file,
write many new files) put into a submission entry, and the trace of what they
asked of the outside world.

A pipeline owns `qd` slots, each with a buffer of its own, and tags every entry
with the operation and the slot packed into one 64-bit word.  The word is all
the program gets back with a completion, so `udOp` and `udSlot` have to undo
`packUd`; that they do is proved here once.
-/

namespace Pyuring
namespace Native

/-- An errno value is positive; the C code returns its negation. -/
abbrev Errno : Type := {n : ℕ // 0 < n}

/-- The return value `-errno`. -/
def Errno.neg (e : Errno) : ℤ := -(e.1 : ℤ)

theorem Errno.neg_lt (e : Errno) : e.neg < 0 := by
  have := e.2
  unfold Errno.neg
  omega

def EIO : Errno := ⟨5, by decide⟩
def EAGAIN : Errno := ⟨11, by decide⟩
def ENOMEM : Errno := ⟨12, by decide⟩
def EINVAL : Errno := ⟨22, by decide⟩
def ENAMETOOLONG : Errno := ⟨36, by decide⟩
def ECANCELED : Errno := ⟨125, by decide⟩

/-- One is a number of 32 bits. -/
theorem one_lt_uint32 : 1 < 2 ^ 32 := by decide

/-- Two is a number of 32 bits. -/
theorem two_lt_uint32 : 2 < 2 ^ 32 := by decide

/-! ## Tags -/

/-- Operation in the upper half, slot in the lower half. -/
def packUd (op slot : UInt32) : UInt64 := (op.toUInt64 <<< 32) ||| slot.toUInt64

def udOp (ud : UInt64) : UInt32 := (ud >>> 32).toUInt32

def udSlot (ud : UInt64) : UInt32 := (ud &&& 0xffffffff).toUInt32

theorem toNat_packUd (op slot : UInt32) :
    (packUd op slot).toNat = 2 ^ 32 * op.toNat + slot.toNat := by
  have hop := op.toNat_lt
  have hslot := slot.toNat_lt
  rw [packUd, UInt64.toNat_or, UInt64.toNat_shiftLeft, UInt32.toNat_toUInt64,
    UInt32.toNat_toUInt64, show UInt64.toNat 32 % 64 = 32 from rfl, Nat.shiftLeft_eq,
    Nat.mod_eq_of_lt (by omega), Nat.mul_comm op.toNat, Nat.two_pow_add_eq_or_of_lt hslot]

@[simp] theorem udOp_packUd (op slot : UInt32) : udOp (packUd op slot) = op := by
  have hop := op.toNat_lt
  have hslot := slot.toNat_lt
  rw [← UInt32.toNat_inj, udOp, UInt64.toNat_toUInt32, UInt64.toNat_shiftRight, toNat_packUd,
    show UInt64.toNat 32 % 64 = 32 from rfl, Nat.shiftRight_eq_div_pow]
  omega

@[simp] theorem udSlot_packUd (op slot : UInt32) : udSlot (packUd op slot) = slot := by
  have hop := op.toNat_lt
  have hslot := slot.toNat_lt
  rw [← UInt32.toNat_inj, udSlot, UInt64.toNat_toUInt32, UInt64.toNat_and, toNat_packUd,
    show UInt64.toNat 0xffffffff = 2 ^ 32 - 1 from rfl, Nat.and_two_pow_sub_one_eq_mod]
  omega

/-- The slot a program reads back from a tag it wrote, as an index. -/
theorem toNat_udSlot_packUd (op : UInt32) {slot : ℕ} (h : slot < 2 ^ 32) :
    (udSlot (packUd op (UInt32.ofNat slot))).toNat = slot := by
  rw [udSlot_packUd, UInt32.toNat_ofNat']
  exact Nat.mod_eq_of_lt h

/-! ## Submission entries -/

/-- The two operations the pipelines prepare. -/
inductive Opcode where
  | read
  | write
  deriving DecidableEq, Repr

/-- The number the code packs into the tag for an operation. -/
def Opcode.code : Opcode → UInt32
  | .read => 0
  | .write => 1

/-- A prepared submission entry.  The buffer address is given by the slot whose
buffer it is, the file descriptor by the index of the file the function
opened. -/
structure Sqe where
  opcode : Opcode
  file : ℕ
  buf : ℕ
  len : ℕ
  off : ℕ
  dsync : Bool
  userData : UInt64
  deriving DecidableEq, Repr

/-- Bookkeeping of one slot (`copy_slot`), apart from the buffer's bytes. -/
structure CopySlot where
  off : ℕ
  len : ℕ
  active : Bool
  deriving DecidableEq, Repr

/-- A slot as `calloc` leaves it. -/
def CopySlot.zero : CopySlot := ⟨0, 0, false⟩

/-! ## Traces -/

/-- What a pipeline asked of the outside world and what the kernel did, one entry
for each prepared request, completed request, progress report and `fsync`. -/
inductive Ev where
  | prep (q : Sqe)
  | done (q : Sqe) (res : ℤ)
  | progress (doneBytes total : ℕ)
  | fsync (file : ℕ)
  deriving DecidableEq, Repr

/-- The requests prepared along a trace, in the order in which they were. -/
def prepped : List Ev → List Sqe
  | [] => []
  | .prep q :: log => prepped log ++ [q]
  | .done _ _ :: log => prepped log
  | .progress _ _ :: log => prepped log
  | .fsync _ :: log => prepped log

theorem mem_prepped {q : Sqe} {log : List Ev} : q ∈ prepped log ↔ Ev.prep q ∈ log := by
  induction log with
  | nil => simp [prepped]
  | cons e log ih =>
    cases e with
    | prep q' =>
      simp only [prepped, List.mem_append, ih, List.mem_cons, List.not_mem_nil, or_false,
        Ev.prep.injEq]
      exact or_comm
    | done q' res => simpa [prepped] using ih
    | progress n total => simpa [prepped] using ih
    | fsync f => simpa [prepped] using ih

/-- The trace `new` has grown out of `old` by progress reports. -/
def ReportsOnly (old new : List Ev) : Prop :=
  ∃ l, new = l ++ old ∧ ∀ e ∈ l, ∃ n total, e = .progress n total

theorem ReportsOnly.refl (log : List Ev) : ReportsOnly log log := ⟨[], rfl, by simp⟩

theorem ReportsOnly.cons {old new : List Ev} {n total : ℕ}
    (h : ReportsOnly (.progress n total :: old) new) : ReportsOnly old new := by
  obtain ⟨l, rfl, hl⟩ := h
  refine ⟨l ++ [.progress n total], by simp, ?_⟩
  intro e he
  rcases List.mem_append.mp he with he | he
  · exact hl e he
  · exact ⟨n, total, List.mem_singleton.mp he⟩

theorem ReportsOnly.trans {log₁ log₂ log₃ : List Ev} (h₁ : ReportsOnly log₁ log₂)
    (h₂ : ReportsOnly log₂ log₃) : ReportsOnly log₁ log₃ := by
  obtain ⟨l₁, rfl, hl₁⟩ := h₁
  obtain ⟨l₂, rfl, hl₂⟩ := h₂
  exact ⟨l₂ ++ l₁, by rw [List.append_assoc],
    fun e he => (List.mem_append.mp he).elim (hl₂ e) (hl₁ e)⟩

/-- Every other entry is where it was. -/
theorem ReportsOnly.mem_iff {old new : List Ev} (h : ReportsOnly old new) {e : Ev}
    (he : ∀ n total, e ≠ .progress n total) : e ∈ new ↔ e ∈ old := by
  obtain ⟨l, rfl, hl⟩ := h
  rw [List.mem_append]
  refine or_iff_right ?_
  intro hmem
  obtain ⟨n, total, heq⟩ := hl e hmem
  exact he n total heq

theorem ReportsOnly.prepped_eq {old new : List Ev} (h : ReportsOnly old new) :
    prepped new = prepped old := by
  obtain ⟨l, rfl, hl⟩ := h
  induction l with
  | nil => rfl
  | cons e l ih =>
    obtain ⟨n, total, rfl⟩ := hl e List.mem_cons_self
    exact ih fun e he => hl e (List.mem_cons_of_mem _ he)

/-- A trace that ends with the newest entry first synced `file` after the last of
its writes: a sync is there and no write of the file completed since. -/
def SyncedAfterWrites (file : ℕ) (log : List Ev) : Prop :=
  ∃ newer older, log = newer ++ Ev.fsync file :: older ∧
    ∀ q res, Ev.done q res ∈ newer → q.opcode = .write → q.file ≠ file

/-- The user's callback for chunk sizes: the number of calls made before this one,
the current offset, the total and the default block size.  Depending on the
number of earlier calls, it can be any function of its arguments or of state of
its own. -/
abbrev BufferSizeCb : Type := ℕ → ℕ → ℕ → ℕ → UInt32

/-- The user's progress callback: the number of calls made before this one, the
bytes done and the total.  `true` stands for a non-zero return value, which asks
to abort. -/
abbrev ProgressCb : Type := ℕ → ℕ → ℕ → Bool

end Native
end Pyuring
