import Pyuring.Lib.ScatterGather
import Pyuring.Lib.SparseFile
import Pyuring.Native.BatchReads
import Pyuring.Native.RegisteredBuffers

/-!
# Vectored calls

The calls of `UringCtx` that take a list of parts: those that gather what they write or send
from them, and those that scatter what they read or receive into them.  Each has a loop of its
own over the parts, which is one of two: the gathering ones measure a part with `len`, the
scattering ones with `nbytes`.

`len` counts the entries along the first dimension and `nbytes` the bytes, so the two differ
for a part with longer entries, and of such a part only the front is written
(`vectored_covers_iff`).

The ring is open, the parts of a list do not overlap in memory, and the file is a regular one
that takes all it is given.
-/

namespace Pyuring
namespace Native
namespace VectoredCalls

open ScatterGather
open RegisteredBuffers (Exn raiseForNegErrno cInt)
open ReadBlocks (cLonglong cLonglong_of_lt)

/-- What `memoryview` says about an object, the bytes behind it, and what `len` gives for the
object: the length of the first dimension, one for a `memoryview` without dimensions, or the
text of a `TypeError`. -/
structure View where
  itemsize : ℕ
  shape : List ℕ
  data : List UInt8
  len : Except String ℕ
  readonly : Bool
  contiguous : Bool
  cContiguous : Bool
  nbytes_eq : data.length = itemsize * shape.prod
  len_eq : ∀ n, len = .ok n → n = shape.headD 1

/-- An element of the list: a `bytes`, another object with a buffer, or one without, of which
an error gives the type. -/
inductive Part where
  | bytes (data : List UInt8)
  | buffer (v : View)
  | other (typeName : String)

/-- What `memoryview` raises for an object without a buffer. -/
def notBytesLike (typeName : String) : Exn :=
  .typeError ("memoryview: a bytes-like object is required, not '" ++ typeName ++ "'")

/-- The bytes of the part. -/
def Part.raw : Part → List UInt8
  | .bytes data => data
  | .buffer v => v.data
  | .other _ => []

def Part.nbytes (p : Part) : ℕ := p.raw.length

/-- What the native function is called with. -/
structure Call where
  function : String
  fd : ℤ
  iov : List (Segment UInt8)
  args : List ℤ

/-! ## The two loops -/

/-- `(ctypes.c_char * n).from_buffer(p)`. -/
def fromBuffer (n : ℕ) (v : View) : Except Exn (Segment UInt8) :=
  if v.readonly then .error (.typeError "underlying buffer is not writable")
  else if !v.cContiguous then .error (.typeError "underlying buffer is not C contiguous")
  else if h : n ≤ v.data.length then .ok ⟨v.data, n, h⟩
  else .error (.valueError ("Buffer size too small (" ++ toString v.data.length ++
    " instead of at least " ++ toString n ++ " bytes)"))

/-- `(ctypes.c_char * len(ba)).from_buffer_copy(ba)`. -/
def fromBufferCopy (data : List UInt8) : Segment UInt8 := ⟨data, data.length, Nat.le_refl _⟩

/-- The body of the gathering loop. -/
def gatherPart : Part → Except Exn (Segment UInt8)
  | .bytes data => .ok (fromBufferCopy data)
  | .buffer v =>
    if !v.contiguous then .error (.valueError "each part must be contiguous")
    else match v.len with
      | .error message => .error (.typeError message)
      | .ok n => fromBuffer n v
  | .other typeName => .error (notBytesLike typeName)

/-- The body of the scattering loop; the view of a `bytes` is read-only. -/
def scatterPart : Part → Except Exn (Segment UInt8)
  | .bytes _ => .error (.typeError "each part must be writable")
  | .buffer v =>
    if v.readonly then .error (.typeError "each part must be writable")
    else fromBuffer v.data.length v
  | .other typeName => .error (notBytesLike typeName)

/-- The loop over the parts. -/
def iovOf (body : Part → Except Exn (Segment UInt8)) : List Part → Except Exn (List (Segment UInt8))
  | [] => .ok []
  | p :: parts => do
    let v ← body p
    let iov ← iovOf body parts
    return v :: iov

/-- A vectored call, up to the native function. -/
def prepare (body : Part → Except Exn (Segment UInt8)) (function : String) (fd : ℤ)
    (parts : List Part) (args : List ℤ) : Except Exn Call :=
  if parts.isEmpty then .error (.valueError "parts must be non-empty")
  else do
    let iov ← iovOf body parts
    return ⟨function, cInt fd, iov, args⟩

/-- What the call returns or raises once the native function has returned. -/
def Call.finish (call : Call) (ret : ℤ) : Except Exn ℤ :=
  match raiseForNegErrno ret call.function with
  | some exc => .error exc
  | none => .ok ret

/-! ## The calls -/

section Calls

variable (fd : ℤ) (parts : List Part)

def readv (offset : ℤ) : Except Exn Call :=
  prepare scatterPart "uring_readv_sync" fd parts [cLonglong offset]

def writev (offset : ℤ) : Except Exn Call :=
  prepare gatherPart "uring_writev_sync" fd parts [cLonglong offset]

def sendmsgIov (flags : ℤ) : Except Exn Call :=
  prepare gatherPart "uring_sendmsg_iov_sync" fd parts [flags % 2 ^ 32]

def recvmsgIov (flags : ℤ) : Except Exn Call :=
  prepare scatterPart "uring_recvmsg_iov_sync" fd parts [flags % 2 ^ 32]

def sendmsgZcIov (flags : ℤ) : Except Exn Call :=
  prepare gatherPart "uring_sendmsg_zc_iov_sync" fd parts [flags % 2 ^ 32]

def readvFixed (offset rwFlags bufIndex : ℤ) : Except Exn Call :=
  prepare scatterPart "uring_readv_fixed_sync" fd parts
    [offset % 2 ^ 64, cInt rwFlags, cInt bufIndex]

def writevFixed (offset rwFlags bufIndex : ℤ) : Except Exn Call :=
  prepare gatherPart "uring_writev_fixed_sync" fd parts
    [offset % 2 ^ 64, cInt rwFlags, cInt bufIndex]

end Calls

/-- The position in the file of a call that has one. -/
def Call.position (call : Call) : ℕ := (call.args.headD 0).toNat

/-- What a `writev` writes at a position of a file, a `readv` from there into parts of the same
lengths brings back.  A negative offset would be the position of the descriptor. -/
def RoundTrips (parts : List Part) : Prop :=
  ∀ fd offset targets w r, 0 ≤ cLonglong offset → writev fd parts offset = .ok w →
    readv fd targets offset = .ok r → targets.map Part.nbytes = parts.map Part.nbytes →
    ∀ file : SparseFile UInt8, scatter r.iov
      ((file.write w.position (gather w.iov)).read r.position (room r.iov)) = parts.map Part.raw

/-- The part is a `bytes`, or empty, or each entry along its first dimension is one byte. -/
def Part.ByteEntries : Part → Prop
  | .bytes _ => True
  | .buffer v => v.data = [] ∨ v.itemsize * v.shape.tail.prod = 1
  | .other _ => True

instance : DecidablePred Part.ByteEntries
  | .bytes _ => inferInstanceAs (Decidable True)
  | .buffer _ => inferInstanceAs (Decidable (_ ∨ _))
  | .other _ => inferInstanceAs (Decidable True)

variable {body : Part → Except Exn (Segment UInt8)} {parts : List Part} {p : Part}
  {v : Segment UInt8} {iov : List (Segment UInt8)}

/-! ## One part -/

theorem fromBuffer_ok {n : ℕ} {b : View} (h : fromBuffer n b = .ok v) :
    v.mem = b.data ∧ v.len = n := by
  unfold fromBuffer at h
  split at h
  · exact absurd h (by simp)
  split at h
  · exact absurd h (by simp)
  split at h
  · rw [← Except.ok.inj h]
    exact ⟨rfl, rfl⟩
  · exact absurd h (by simp)

/-- As long as its memory the entries of a buffer are bytes, unless there are none. -/
theorem View.len_eq_nbytes_iff (b : View) {n : ℕ} (hn : b.len = .ok n) (hle : n ≤ b.data.length) :
    n = b.data.length ↔ b.data = [] ∨ b.itemsize * b.shape.tail.prod = 1 := by
  have hshape := b.len_eq n hn
  have hbytes := b.nbytes_eq
  rw [← List.length_eq_zero_iff]
  cases hs : b.shape with
  | nil =>
    rw [hs] at hshape hbytes
    simp only [List.headD_nil, List.prod_nil, Nat.mul_one] at hshape hbytes
    simp only [List.tail_nil, List.prod_nil, Nat.mul_one]
    omega
  | cons d ds =>
    rw [hs] at hshape hbytes
    simp only [List.headD_cons] at hshape
    rw [List.prod_cons, Nat.mul_left_comm, ← hshape] at hbytes
    rw [List.tail_cons]
    rw [hbytes] at hle ⊢
    rcases Nat.eq_zero_or_pos n with rfl | hpos
    · exact iff_of_true (Nat.zero_mul _).symm (Or.inl (Nat.zero_mul _))
    · have hone := Nat.mul_eq_left (b := b.itemsize * ds.prod) (Nat.ne_of_gt hpos)
      have hzero := Nat.le_trans hpos hle
      rw [eq_comm, hone, or_iff_right (Nat.ne_of_gt hzero)]

/-- A part that is gathered is all there exactly when its entries are bytes. -/
theorem gatherPart_ok (h : gatherPart p = .ok v) :
    v.mem = p.raw ∧ (v.Full ↔ p.ByteEntries) := by
  cases p with
  | bytes data =>
    rw [← Except.ok.inj h]
    exact ⟨rfl, iff_of_true rfl trivial⟩
  | other typeName => exact absurd h (by simp [gatherPart])
  | buffer b =>
    rw [gatherPart] at h
    split at h
    · exact absurd h (by simp)
    split at h
    · exact absurd h (by simp)
    next n hn =>
    obtain ⟨hmem, hlen⟩ := fromBuffer_ok h
    refine ⟨hmem, ?_⟩
    have hle := v.le
    rw [Segment.Full, hmem, hlen]
    rw [hmem, hlen] at hle
    exact b.len_eq_nbytes_iff hn hle

/-- A part that is scattered into is all there. -/
theorem scatterPart_ok (h : scatterPart p = .ok v) : v.mem = p.raw ∧ v.len = p.nbytes := by
  cases p with
  | bytes data => exact absurd h (by simp [scatterPart])
  | other => exact absurd h (by simp [scatterPart])
  | buffer b =>
    rw [scatterPart] at h
    split at h
    · exact absurd h (by simp)
    · exact fromBuffer_ok h

/-! ## All parts -/

/-- The loop has gone through all parts. -/
theorem forall₂_of_iovOf (h : iovOf body parts = .ok iov) :
    List.Forall₂ (fun p v => body p = .ok v) parts iov := by
  induction parts generalizing iov with
  | nil =>
    rw [← Except.ok.inj h]
    exact List.Forall₂.nil
  | cons p parts ih =>
    unfold iovOf at h
    cases hp : body p with
    | error exc =>
      rw [hp] at h
      exact absurd h (by simp [bind, Except.bind])
    | ok v =>
      cases hrest : iovOf body parts with
      | error exc =>
        rw [hp, hrest] at h
        exact absurd h (by simp [bind, Except.bind])
      | ok vs =>
        rw [hp, hrest] at h
        rw [← Except.ok.inj h]
        exact List.Forall₂.cons hp (ih hrest)

theorem prepare_ok {function : String} {fd : ℤ} {args : List ℤ} {call : Call}
    (h : prepare body function fd parts args = .ok call) :
    List.Forall₂ (fun p v => body p = .ok v) parts call.iov ∧ call.args = args := by
  unfold prepare at h
  split at h
  · exact absurd h (by simp)
  cases hiov : iovOf body parts with
  | error exc =>
    rw [hiov] at h
    exact absurd h (by simp [bind, Except.bind])
  | ok iov =>
    rw [hiov] at h
    rw [← Except.ok.inj h]
    exact ⟨forall₂_of_iovOf hiov, rfl⟩

/-- What is gathered from the parts is all of them exactly when their entries are bytes. -/
theorem gather_eq_raw_iff (h : List.Forall₂ (fun p v => gatherPart p = .ok v) parts iov) :
    gather iov = parts.flatMap Part.raw ↔ ∀ p ∈ parts, p.ByteEntries := by
  have hraw : iov.flatMap Segment.mem = parts.flatMap Part.raw := by
    induction h with
    | nil => rfl
    | cons hp _ ih => rw [List.flatMap_cons, List.flatMap_cons, (gatherPart_ok hp).1, ih]
  rw [← hraw, gather_eq_iff]
  clear hraw
  induction h with
  | nil => simp
  | cons hp _ ih =>
    rw [List.forall_mem_cons, List.forall_mem_cons]
    exact and_congr (gatherPart_ok hp).2 ih

/-- The parts that are scattered into have room for all that is in them. -/
theorem full_of_scatterPart (h : List.Forall₂ (fun p v => scatterPart p = .ok v) parts iov) :
    (∀ v ∈ iov, v.Full) ∧ iov.map Segment.len = parts.map Part.nbytes := by
  induction h with
  | nil => simp
  | cons hp _ ih =>
    obtain ⟨hmem, hlen⟩ := scatterPart_ok hp
    rw [List.forall_mem_cons, List.map_cons, List.map_cons, hlen, ih.2]
    refine ⟨⟨?_, ih.1⟩, rfl⟩
    rw [Segment.Full, hlen, hmem, Part.nbytes]

/-! ## The calls -/

/-- Where all parts are written they are read back. -/
theorem roundTrips_of_byteEntries (h : ∀ p ∈ parts, p.ByteEntries) : RoundTrips parts := by
  intro fd offset targets w r hoffset hw hr hlen file
  obtain ⟨hwritten, hwargs⟩ := prepare_ok hw
  obtain ⟨hread, hrargs⟩ := prepare_ok hr
  obtain ⟨hfull, hlens⟩ := full_of_scatterPart hread
  have hbytes : gather w.iov = (parts.map Part.raw).flatten :=
    ((gather_eq_raw_iff hwritten).mpr h).trans List.flatMap_def
  have hblocks : (parts.map Part.raw).map List.length = r.iov.map Segment.len := by
    rw [hlens, hlen, List.map_map]
    rfl
  have hroom : room r.iov = (parts.map Part.raw).flatten.length := by
    rw [room, ← hblocks, List.length_flatten]
  have hposition : w.position = r.position := by rw [Call.position, Call.position, hwargs, hrargs]
  rw [hposition, hbytes, hroom, SparseFile.read_write, scatter_flatten hfull hblocks]

/-- **The gathering calls cover all bytes of their parts** exactly when each part that is not a
`bytes`, and not empty, has an entry for each byte along its first dimension.  For other parts the
kernel is told of less, by each of the four calls. -/
theorem vectored_covers_iff (fd : ℤ) (parts : List Part) (offset flags rwFlags bufIndex : ℤ)
    (call : Call) (h : writev fd parts offset = .ok call ∨ sendmsgIov fd parts flags = .ok call ∨
      sendmsgZcIov fd parts flags = .ok call ∨
      writevFixed fd parts offset rwFlags bufIndex = .ok call) :
    (gather call.iov = parts.flatMap Part.raw ∧ RoundTrips parts) ↔
      ∀ p ∈ parts, p.ByteEntries := by
  have hiov : List.Forall₂ (fun p v => gatherPart p = .ok v) parts call.iov := by
    rcases h with h | h | h | h <;> exact (prepare_ok h).1
  rw [gather_eq_raw_iff hiov]
  exact ⟨And.left, fun hbytes => ⟨hbytes, roundTrips_of_byteEntries hbytes⟩⟩

/-- `array.array('I', [1, 2])`. -/
def words : View where
  itemsize := 4
  shape := [2]
  data := [1, 0, 0, 0, 2, 0, 0, 0]
  len := .ok 2
  readonly := false
  contiguous := true
  cContiguous := true
  nbytes_eq := rfl
  len_eq _ h := (Except.ok.inj h).symm

/-- What becomes of a `bytes` and two words. -/
def wordsCall : Call :=
  ⟨"uring_writev_sync", 3, [⟨[7], 1, by decide⟩, ⟨words.data, 2, by decide⟩], [0]⟩

theorem vectored_covers_iff_words :
    (gather wordsCall.iov = [.bytes [7], .buffer words].flatMap Part.raw ∧
      RoundTrips [.bytes [7], .buffer words]) ↔
      ∀ p ∈ [Part.bytes [7], .buffer words], p.ByteEntries :=
  vectored_covers_iff 3 [.bytes [7], .buffer words] 0 0 0 0 wordsCall (Or.inl rfl)

/-- Two of the eight bytes of the words are written. -/
theorem words_cut : writev 3 [.bytes [7], .buffer words] 0 = .ok wordsCall ∧
    gather wordsCall.iov = [7, 1, 0] ∧
    gather wordsCall.iov ≠ [.bytes [7], .buffer words].flatMap Part.raw :=
  ⟨rfl, by decide, by decide⟩

end VectoredCalls
end Native
end Pyuring
