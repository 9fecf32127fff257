import Pyuring.Lib.Trace
import Mathlib.Algebra.Ring.Int.Defs
import Mathlib.Data.List.Basic

/-!
# Registered and provided buffers

The kernel writes to memory that the program hands over in two ways: a table of
registered buffers, which is set up and torn down as a whole, and groups of provided
buffers, which grow and shrink.  `UringCtx` keeps the Python objects behind both alive in
one list, `_buffer_keepalive`.  Registering replaces the list, unregistering clears it,
providing appends to it, and removing leaves it alone.

What the kernel did with provided buffers is not tied to what the call returns: the
synchronous wrapper may come back with an error after its request went through.
-/

namespace Pyuring
namespace Native
namespace RegisteredBuffers

open Trace

/-- What a Python caller passes as a buffer; `region` is its memory. -/
structure Buffer where
  region : ℕ
  isBytes : Bool
  readonly : Bool
  contiguous : Bool
  cContiguous : Bool
  nbytes : ℕ
  deriving DecidableEq, Repr

/-- A provided buffer: its group, its number in the group, and its memory. -/
structure Provided where
  bgid : ℤ
  bid : ℤ
  region : ℕ
  deriving DecidableEq, Repr

/-- What a call raises. -/
inductive Exn where
  | valueError (message : String)
  | typeError (message : String)
  | uringError (errno : ℤ) (operation : String)
  deriving DecidableEq, Repr

/-- `_buffer_keepalive`, and what the kernel has: the table of registered buffers and the
provided buffers, oldest first. -/
structure State where
  keepalive : List ℕ
  registered : List ℕ
  provided : List Provided
  deriving DecidableEq, Repr

/-- The four calls.  `ret` is what the native function returns; `added` and `removed` are
the numbers of buffers that the kernel took in and gave up. -/
inductive Event where
  | registerBuffers (buffers : List Buffer) (ret : ℤ)
  | unregisterBuffers (ret : ℤ)
  | provideBuffers (buf : Buffer) (bufLenEach nr bgid bid : ℤ) (added : ℕ) (ret : ℤ)
  | removeBuffers (nr bgid : ℤ) (removed : ℕ) (ret : ℤ)
  deriving DecidableEq, Repr

/-- `c_int(z)`. -/
def cInt (z : ℤ) : ℤ := (z + 2 ^ 31) % 2 ^ 32 - 2 ^ 31

/-- A buffer group's number, as the submission entry has it. -/
def bufGroup (bgid : ℤ) : ℤ := bgid % 2 ^ 16

/-- `_raise_for_neg_errno`. -/
def raiseForNegErrno (ret : ℤ) (operation : String) : Option Exn :=
  if ret < 0 then some (.uringError (-ret) operation) else none

/-- The memory of an element of the argument of `register_buffers`. -/
def pin (b : Buffer) : Except Exn ℕ :=
  if b.isBytes then .error (.typeError "buffers must be mutable (e.g. bytearray), not bytes")
  else if b.readonly then .error (.typeError "buffer must be writable")
  else if !b.contiguous then .error (.valueError "buffer must be contiguous")
  else if !b.cContiguous then .error (.typeError "underlying buffer is not C contiguous")
  else .ok b.region

/-- The loop of `register_buffers`. -/
def pinAll : List Buffer → Except Exn (List ℕ)
  | [] => .ok []
  | b :: bs => do
    let region ← pin b
    let regions ← pinAll bs
    return region :: regions

/-- Give up the oldest buffer of a group, `k` times. -/
def dropGroup (bgid : ℤ) : ℕ → List Provided → List Provided
  | 0, provided => provided
  | k + 1, provided => dropGroup bgid k (provided.eraseP fun p => p.bgid = bgid)

namespace State

def init : State := ⟨[], [], []⟩

def registerBuffers (s : State) (buffers : List Buffer) (ret : ℤ) : Option Exn × State :=
  if buffers.isEmpty then (some (.valueError "buffers must be non-empty"), s)
  else match pinAll buffers with
    | .error exc => (some exc, s)
    | .ok keep => match raiseForNegErrno ret "uring_register_buffers" with
      | some exc => (some exc, s)
      | none => (none, { s with registered := keep, keepalive := keep })

def unregisterBuffers (s : State) (ret : ℤ) : Option Exn × State :=
  match raiseForNegErrno ret "uring_unregister_buffers" with
  | some exc => (some exc, s)
  | none => (none, { s with registered := [], keepalive := [] })

/-- `uring_provide_buffers_sync`, for memory that was just pinned. -/
def uringProvideBuffersSync (s : State) (region : ℕ) (len nr bgid bid : ℤ) (added : ℕ)
    (ret : ℤ) : ℤ × State :=
  if cInt len ≤ 0 ∨ cInt nr ≤ 0 then (-22, s)
  else (ret, { s with provided := s.provided ++
    (List.range (min added (cInt nr).toNat)).map fun i => ⟨bufGroup bgid, bid + i, region⟩ })

def provideBuffers (s : State) (buf : Buffer) (bufLenEach nr bgid bid : ℤ) (added : ℕ)
    (ret : ℤ) : Option Exn × State :=
  let need := bufLenEach * nr
  if buf.nbytes < need then
    (some (.valueError "buffer too small for nr buffers of buf_len_each"), s)
  else if buf.readonly then (some (.typeError "buffer must be writable"), s)
  else if need < 0 then (some (.valueError ("Array length must be >= 0, not " ++ toString need)), s)
  else if !buf.cContiguous then (some (.typeError "underlying buffer is not C contiguous"), s)
  else
    let s := { s with keepalive := s.keepalive ++ [buf.region] }
    let (ret, s) := s.uringProvideBuffersSync buf.region bufLenEach nr bgid bid added ret
    (raiseForNegErrno ret "uring_provide_buffers_sync", s)

/-- `uring_remove_buffers_sync`. -/
def uringRemoveBuffersSync (s : State) (nr bgid : ℤ) (removed : ℕ) (ret : ℤ) : ℤ × State :=
  if cInt nr ≤ 0 then (-22, s)
  else (ret, { s with
    provided := dropGroup (bufGroup bgid) (min removed (cInt nr).toNat) s.provided })

def removeBuffers (s : State) (nr bgid : ℤ) (removed : ℕ) (ret : ℤ) : Option Exn × State :=
  let (ret, s) := s.uringRemoveBuffersSync nr bgid removed ret
  (raiseForNegErrno ret "uring_remove_buffers_sync", s)

end State

/-- The kernel registers buffers only while none are registered, and unregisters them only
while some are. -/
def step (s : State) : Event → Option State
  | .registerBuffers buffers ret =>
    if 0 ≤ ret ∧ s.registered ≠ [] then none else some (s.registerBuffers buffers ret).2
  | .unregisterBuffers ret =>
    if 0 ≤ ret ∧ s.registered = [] then none else some (s.unregisterBuffers ret).2
  | .provideBuffers buf bufLenEach nr bgid bid added ret =>
    some (s.provideBuffers buf bufLenEach nr bgid bid added ret).2
  | .removeBuffers nr bgid removed ret => some (s.removeBuffers nr bgid removed ret).2

/-- All memory that the kernel has is pinned. -/
def Pinned (s : State) : Prop :=
  (∀ region ∈ s.registered, region ∈ s.keepalive) ∧
    ∀ p ∈ s.provided, p.region ∈ s.keepalive

/-- Registering succeeds with these buffers as far as Python is concerned. -/
def Accepted (buffers : List Buffer) : Prop :=
  buffers ≠ [] ∧ ∀ b ∈ buffers, pin b = .ok b.region

/-- Buffers are registered only when what is provided is among them, and unregistered only
when nothing is provided. -/
def Keeps (s : State) : Event → Prop
  | .registerBuffers buffers ret => 0 ≤ ret → Accepted buffers →
      ∀ p ∈ s.provided, ∃ b ∈ buffers, b.region = p.region
  | .unregisterBuffers ret => 0 ≤ ret → s.provided = []
  | .provideBuffers _ _ _ _ _ _ _ => True
  | .removeBuffers _ _ _ _ => True

variable {s t : State}

theorem pin_eq_ok {b : Buffer} {region : ℕ} (h : pin b = .ok region) : region = b.region := by
  unfold pin at h
  split at h
  · exact absurd h (by simp)
  split at h
  · exact absurd h (by simp)
  split at h
  · exact absurd h (by simp)
  split at h
  · exact absurd h (by simp)
  exact (Except.ok.inj h).symm

/-- The loop pins the memory of all buffers, or stops at one it does not accept. -/
theorem pinAll_eq_ok : ∀ {buffers : List Buffer} {keep : List ℕ}, pinAll buffers = .ok keep ↔
    (∀ b ∈ buffers, pin b = .ok b.region) ∧ keep = buffers.map Buffer.region
  | [], keep => by
    rw [pinAll]
    simp [eq_comm]
  | b :: bs, keep => by
    rw [pinAll, List.forall_mem_cons, List.map_cons]
    cases hb : pin b with
    | error exc =>
      refine iff_of_false ?_ ?_
      · intro h
        exact absurd h (by simp [bind, Except.bind])
      · intro h
        exact absurd h.1.1 (by simp)
    | ok region =>
      obtain rfl := pin_eq_ok hb
      cases hbs : pinAll bs with
      | error exc =>
        refine iff_of_false ?_ ?_
        · intro h
          exact absurd h (by simp [bind, Except.bind])
        · intro h
          exact absurd (pinAll_eq_ok.mpr ⟨h.1.2, rfl⟩) (by simp [hbs])
      | ok regions =>
        obtain ⟨hall, rfl⟩ := pinAll_eq_ok.mp hbs
        constructor
        · intro h
          exact ⟨⟨rfl, hall⟩, (Except.ok.inj h).symm⟩
        · rintro ⟨-, rfl⟩
          rfl

theorem raiseForNegErrno_of_nonneg {ret : ℤ} (h : 0 ≤ ret) (operation : String) :
    raiseForNegErrno ret operation = none :=
  if_neg (Int.not_lt.mpr h)

theorem raiseForNegErrno_of_neg {ret : ℤ} (h : ¬ 0 ≤ ret) (operation : String) :
    raiseForNegErrno ret operation = some (.uringError (-ret) operation) :=
  if_pos (Int.not_le.mp h)

/-- What the kernel keeps of the provided buffers was provided. -/
theorem mem_of_mem_dropGroup {bgid : ℤ} {p : Provided} : ∀ {k : ℕ} {provided : List Provided},
    p ∈ dropGroup bgid k provided → p ∈ provided
  | 0, _, h => h
  | _ + 1, _, h => List.mem_of_mem_eraseP (mem_of_mem_dropGroup h)

theorem Pinned.registerBuffers (h : Pinned s) (buffers : List Buffer) (ret : ℤ) :
    Pinned (s.registerBuffers buffers ret).2 ↔ Keeps s (.registerBuffers buffers ret) := by
  unfold State.registerBuffers Keeps
  by_cases hempty : buffers = []
  · subst hempty
    exact iff_of_true h fun _ hacc => absurd rfl hacc.1
  rw [if_neg (by simpa using hempty)]
  cases hpin : pinAll buffers with
  | error exc =>
    refine iff_of_true h ?_
    intro _ hacc
    exact absurd (pinAll_eq_ok.mpr ⟨hacc.2, rfl⟩) (by simp [hpin])
  | ok keep =>
    obtain ⟨hall, rfl⟩ := pinAll_eq_ok.mp hpin
    by_cases hret : 0 ≤ ret
    · rw [raiseForNegErrno_of_nonneg hret]
      constructor
      · intro hp _ _ p hmem
        exact List.mem_map.mp (hp.2 p hmem)
      · intro hkeeps
        exact ⟨fun region => id, fun p hmem => List.mem_map.mpr (hkeeps hret ⟨hempty, hall⟩ p hmem)⟩
    · rw [raiseForNegErrno_of_neg hret]
      exact iff_of_true h fun hnonneg => absurd hnonneg hret

theorem Pinned.unregisterBuffers (h : Pinned s) (ret : ℤ) :
    Pinned (s.unregisterBuffers ret).2 ↔ Keeps s (.unregisterBuffers ret) := by
  unfold State.unregisterBuffers Keeps
  by_cases hret : 0 ≤ ret
  · rw [raiseForNegErrno_of_nonneg hret]
    constructor
    · intro hp _
      exact List.eq_nil_iff_forall_not_mem.mpr fun p hmem =>
        absurd (hp.2 p hmem) List.not_mem_nil
    · intro hkeeps
      exact ⟨fun region => id, fun p hmem => absurd hmem (by simp [hkeeps hret])⟩
  · rw [raiseForNegErrno_of_neg hret]
    exact iff_of_true h fun hnonneg => absurd hnonneg hret

theorem Pinned.provideBuffers (h : Pinned s) (buf : Buffer) (bufLenEach nr bgid bid : ℤ)
    (added : ℕ) (ret : ℤ) :
    Pinned (s.provideBuffers buf bufLenEach nr bgid bid added ret).2 := by
  have hpinned : Pinned { s with keepalive := s.keepalive ++ [buf.region] } :=
    ⟨fun region hmem => List.mem_append_left _ (h.1 region hmem),
      fun p hmem => List.mem_append_left _ (h.2 p hmem)⟩
  unfold State.provideBuffers
  simp only
  split
  · exact h
  split
  · exact h
  split
  · exact h
  split
  · exact h
  unfold State.uringProvideBuffersSync
  split
  · exact hpinned
  · refine ⟨hpinned.1, ?_⟩
    intro p hmem
    rcases List.mem_append.mp hmem with hmem | hmem
    · exact hpinned.2 p hmem
    · obtain ⟨i, -, rfl⟩ := List.mem_map.mp hmem
      exact List.mem_append_right _ (List.mem_singleton.mpr rfl)

theorem Pinned.removeBuffers (h : Pinned s) (nr bgid : ℤ) (removed : ℕ) (ret : ℤ) :
    Pinned (s.removeBuffers nr bgid removed ret).2 := by
  unfold State.removeBuffers State.uringRemoveBuffersSync
  by_cases hnr : cInt nr ≤ 0
  · rw [if_pos hnr]
    exact h
  · rw [if_neg hnr]
    exact ⟨h.1, fun p hmem => h.2 p (mem_of_mem_dropGroup hmem)⟩

end RegisteredBuffers
end Native
end Pyuring
