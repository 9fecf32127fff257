import Pyuring.AsyncFileLoop
import Pyuring.AsyncFilePlain
import Pyuring.AsyncFileSerial

/-!
# Reading to the end of the file

`read()` reads slice after slice up to the end of the file, and takes a slice that comes
back short for the end.  The kernel may well come back short before it.  Then the call
returns what it has, with the position where the short slice ended (`Cut`), and what comes
behind is not read.

A kernel that answers every slice, and a slice before the end of the file with at least one
byte, brings the call to its return in any case.
-/

namespace Pyuring
namespace AsyncFile

open Trace

/-! ## The position is in the file -/

/-- The position, with what the kernel has done for the call past the lock, is not behind
the end of the file. -/
def InFile (s : State) : Option Busy → Prop
  | none => s.pos ≤ s.file.length
  | some ⟨_, _, req, _, .inFlight, _⟩ => req.off = s.pos ∧ s.pos ≤ s.file.length
  | some ⟨_, _, _, _, .posted res, _⟩ => s.pos + res.toNat ≤ s.file.length
  | some ⟨_, _, _, _, .taken res, _⟩ => s.pos + res.toNat ≤ s.file.length

variable {flags : Flags} {s t : State} {p q : Option Busy} {u : ℕ} {e : Event}

/-- The bytes of a request end in the file. -/
theorem end_le_of_perform {req : Request} {res : ℤ} {file file' data : List UInt8}
    (hoff : req.off ≤ file.length) (h : req.perform flags res file = some (file', data)) :
    req.off + res.toNat ≤ file'.length := by
  unfold Request.perform at h
  simp only at h
  split at h
  · next hneg =>
    obtain ⟨rfl, -⟩ := Prod.mk.inj (Option.some.inj h)
    rw [Int.toNat_of_nonpos (Int.le_of_lt hneg)]
    exact hoff
  · split at h
    · split at h
      · next hcond =>
        obtain ⟨rfl, -⟩ := Prod.mk.inj (Option.some.inj h)
        have hrest : res.toNat ≤ file.length - req.off := by
          simpa [CursorFile.rest] using hcond.2.2
        omega
      · exact absurd h (by simp)
    · next block hop =>
      split at h
      · next hcond =>
        obtain ⟨rfl, -⟩ := Prod.mk.inj (Option.some.inj h)
        have hlen : (block.take res.toNat).length = res.toNat := by
          rw [List.length_take]
          exact Nat.min_eq_left hcond.2.1
        unfold CursorFile.write
        split
        · next hnil =>
          rw [hnil] at hlen
          have hzero : res.toNat = 0 := hlen.symm
          simpa only [hzero, Nat.add_zero] using hoff
        · simp only [length_overwrite, hlen, CursorFile.writeOffset]
          split <;> omega
      · exact absurd h (by simp)

theorem InFile.pos_le (h : InFile s p) : s.pos ≤ s.file.length := by
  match p, h with
  | none, h => exact h
  | some ⟨_, _, _, _, .inFlight, _⟩, h => exact h.2
  | some ⟨_, _, _, _, .posted res, _⟩, h => exact Nat.le_trans (Nat.le_add_right _ _) h
  | some ⟨_, _, _, _, .taken res, _⟩, h => exact Nat.le_trans (Nat.le_add_right _ _) h

theorem InFile.congr (h : InFile s p) (hfile : t.file = s.file) (hpos : t.pos = s.pos) :
    InFile t p := by
  unfold InFile at h ⊢
  rw [hfile, hpos]
  exact h

theorem inFile_step (h : InFile s p) (hmove : Move flags s t e p q) : InFile t q := by
  cases hmove with
  | @call op p ht =>
    subst ht
    refine h.congr ?_ ?_
    · unfold State.call
      simp only
      split <;> rfl
    · unfold State.call
      simp only
      split <;> rfl
  | unlocked _ hcore => exact h.congr (congrArg Core.file hcore) (congrArg Core.pos hcore)
  | nothing _ _ hcore => exact h.congr (congrArg Core.file hcore) (congrArg Core.pos hcore)
  | start _ _ hcore =>
    have hfile : t.file = s.file := congrArg Core.file hcore
    have hpos : t.pos = s.pos := congrArg Core.pos hcore
    refine ⟨hpos.symm, ?_⟩
    rw [hfile, hpos]
    exact h
  | @perform u w i io req c res file data _ hperform hcore =>
    have hfile : t.file = file := congrArg Core.file hcore
    have hpos : t.pos = s.pos := congrArg Core.pos hcore
    obtain ⟨hoff, hle⟩ := h
    show t.pos + res.toNat ≤ t.file.length
    rw [hfile, hpos, ← hoff]
    exact end_le_of_perform (hoff ▸ hle) hperform
  | take hcore =>
    exact InFile.congr (p := some ⟨_, _, _, _, .taken _, _⟩) h (congrArg Core.file hcore)
      (congrArg Core.pos hcore)
  | idle hcore => exact h.congr (congrArg Core.file hcore) (congrArg Core.pos hcore)
  | @cancel u w io req stage c hcore =>
    have hkeep := h.congr (t := t) (congrArg Core.file hcore) (congrArg Core.pos hcore)
    cases stage <;> exact hkeep
  | @fail u w io req res r hres hcore =>
    show t.pos ≤ t.file.length
    rw [show t.file = s.file from congrArg Core.file hcore,
      show t.pos = s.pos from congrArg Core.pos hcore]
    exact h.pos_le
  | @wrote u w data req res r _ hcore =>
    show t.pos ≤ t.file.length
    rw [show t.file = s.file from congrArg Core.file hcore,
      show t.pos = s.pos + res.toNat from congrArg Core.pos hcore]
    exact h
  | @last u w loop out req res r _ _ hcore =>
    show t.pos ≤ t.file.length
    rw [show t.file = s.file from congrArg Core.file hcore,
      show t.pos = s.pos + res.toNat from congrArg Core.pos hcore]
    exact h
  | @next u w w' loop loop' req res r _ _ hcore =>
    have hpos : t.pos = s.pos + res.toNat := congrArg Core.pos hcore
    refine ⟨hpos.symm, ?_⟩
    rw [show t.file = s.file from congrArg Core.file hcore, hpos]
    exact h
  | @abandon u w io req res r _ hcore =>
    show t.pos ≤ t.file.length
    rw [show t.file = s.file from congrArg Core.file hcore,
      show t.pos = s.pos from congrArg Core.pos hcore]
    exact h.pos_le

/-- A file that serves one request at a time, with its reader watching and its position in
the file. -/
structure Orderly (s : State) (p : Option Busy) : Prop where
  serial : Serial s p
  watched : UringAsync.Watched s.ua
  inFile : InFile s p

theorem Serial.not_closes (h : Serial s p) (ht : step flags s e = some t) :
    ¬ Closes s e := fun hclose => by
  obtain ⟨u, r, -, hop, hwait, -⟩ := closes_cases hclose ht
  exact h.ops u (h.ledger.lt_calls (by rw [hwait]; simp)) hop

theorem length_waitersOf (p : Option Busy) : (waitersOf p).length ≤ 1 := by
  match p with
  | none => exact Nat.zero_le 1
  | some ⟨_, _, _, _, .inFlight, _⟩ => exact Nat.le_refl 1
  | some ⟨_, _, _, _, .posted _, _⟩ => exact Nat.le_refl 1
  | some ⟨_, _, _, _, .taken _, _⟩ => exact Nat.zero_le 1

theorem orderly_step (h : Orderly s p) (hP : Undisturbed s e) (ht : step flags s e = some t) :
    ∃ q, Orderly t q ∧ Move flags s t e p q := by
  obtain ⟨q, hserial, hmove⟩ := serial_step h.serial hP ht
  have hone : s.ua.waiters.length ≤ 1 := by
    rw [h.serial.quiet.waiters]
    exact length_waitersOf p
  exact ⟨q, ⟨hserial, watched_step h.watched hone (h.serial.not_closes ht) ht,
    inFile_step h.inFile hmove⟩, hmove⟩

theorem orderly_aenter (flags : Flags) (content : List UInt8) :
    Orderly (aenter flags true content) none := by
  refine ⟨serial_aenter flags content, UringAsync.watched_init, ?_⟩
  show (aenter flags true content).pos ≤ (aenter flags true content).file.length
  simp only [aenter, if_true]
  split
  · exact Nat.le_refl _
  · exact Nat.zero_le _

theorem orderly_reach {content : List UInt8}
    (h : Reach (step flags) Undisturbed (aenter flags true content) s) : ∃ p, Orderly s p := by
  refine h.invariant (I := fun v => ∃ p, Orderly v p) ⟨none, orderly_aenter flags content⟩ ?_
  rintro v e w ⟨p, hp⟩ hP hw
  obtain ⟨q, hq, -⟩ := orderly_step hp hP hw
  exact ⟨q, hq⟩

/-! ## Serving a request -/

/-- The kernel can read as many bytes as are asked for and there. -/
theorem perform_of_read (hread : flags.read = true) {req : Request} {len n : ℕ} {file : List UInt8}
    (hop : req.op = .read len) (hlen : n ≤ len) (hrest : n ≤ (file.drop req.off).length) :
    req.perform flags n file = some (file, (file.drop req.off).take n) := by
  have hneg : ¬ (n : ℤ) < 0 := by omega
  unfold Request.perform
  simp only [if_neg hneg, hop, Int.toNat_natCast]
  exact if_pos ⟨hread, hlen, hrest⟩

/-- Any request can fail. -/
theorem perform_of_error (flags : Flags) (req : Request) {res : ℤ} (hres : res < 0)
    (file : List UInt8) : req.perform flags res file = some (file, []) := by
  unfold Request.perform
  exact if_pos hres

/-- The callback runs only for a call that waits, and takes its completion out. -/
theorem Orderly.not_idle (h : Orderly s p) (hq : Orderly t p) {waitRet : ℤ} {peeks : Option ℕ}
    (hwait : 0 ≤ waitRet) : step flags s (.onReadable waitRet peeks) ≠ some t := by
  intro ht
  obtain ⟨ua, hua, rfl⟩ := Option.map_eq_some_iff.mp ht
  obtain ⟨hreg, hua⟩ := Option.ite_none_right_eq_some.mp hua
  have hwaits := (h.watched.attended h.serial.quiet.closed).mp hreg
  have hquiet := h.serial.quiet
  rw [hquiet.waiters] at hwaits
  match p, hq, hquiet, hwaits with
  | none, _, _, hwaits => exact hwaits rfl
  | some ⟨_, _, _, _, .taken _, _⟩, _, _, hwaits => exact hwaits rfl
  | some ⟨_, _, _, _, .inFlight, _⟩, _, hquiet, _ =>
    obtain ⟨c, cs, hring, -⟩ := hquiet.onReadable_waiter hwait hua
    exact absurd hring (by simp [ringOf])
  | some ⟨_, _, _, _, .posted _, _⟩, hq, hquiet, _ =>
    obtain ⟨c, cs, hring, hquiet', -⟩ := hquiet.onReadable_waiter hwait hua
    obtain ⟨rfl, rfl⟩ := List.cons.inj hring
    exact absurd (hquiet'.ring.symm.trans hq.serial.quiet.ring) (by simp [ringOf])

variable {w : ℕ} {io : Io} {req : Request} {res : ℤ}

/-- A completion in the ring can be handed to the call that waits for it. -/
theorem Orderly.delivers (flags : Flags)
    (h : Orderly s (some ⟨u, io, req, w, .posted res, false⟩)) :
    ∃ t, step flags s (.onReadable 0 none) = some t ∧
      Orderly t (some ⟨u, io, req, w, .taken res, false⟩) ∧ t.core = s.core := by
  have hquiet := h.serial.quiet
  have hreg : s.ua.registered = true := by
    refine (h.watched.attended hquiet.closed).mpr ?_
    rw [hquiet.waiters]
    simp [waitersOf]
  obtain ⟨ua, hua⟩ := hquiet.exists_onReadable
  have ht : step flags s (.onReadable 0 none) = some { s with ua := ua } := by
    simp only [step, UringAsync.step, hreg, if_true, hua, Option.map_some]
  have hundisturbed : Undisturbed s (.onReadable 0 none) := ⟨Int.le_refl 0, id⟩
  obtain ⟨q, hq, hmove⟩ := orderly_step h hundisturbed ht
  cases hmove with
  | take hcore => exact ⟨_, ht, hq, hcore⟩
  | idle _ => exact absurd ht (h.not_idle hq (Int.le_refl 0))

/-- The call that was handed its completion can run. -/
theorem Orderly.resumes (flags : Flags) (h : Orderly s (some ⟨u, io, req, w, .taken res, false⟩)) :
    ∃ t, step flags s (.resume u 0) = some t := by
  obtain ⟨n, hcall⟩ : ∃ n, s.ua.call w = .awaiting (.result n (req.ud, res)) false :=
    h.serial.awaits _ rfl
  have htask : s.task u = .awaiting io req w := h.serial.task _ rfl
  show ∃ t, s.resume u 0 = some t
  unfold State.resume
  simp [htask, UringAsync.State.resume, hcall]

/-- **A request can be served** with any result that the kernel can give it. -/
theorem Orderly.serve {file data : List UInt8}
    (h : Orderly s (some ⟨u, io, req, w, .inFlight, false⟩))
    (hperform : req.perform flags res s.file = some (file, data)) :
    ∃ v, Reach (step flags) (fun _ e => e = .complete 0 res ∨ e = .onReadable 0 none) s v ∧
      Orderly v (some ⟨u, io, req, w, .taken res, false⟩) ∧
      v.core = { s.core with
        file := file
        buf := Function.update s.buf req.ud (data ++ (s.buf req.ud).drop data.length)
        log := .performed req res :: s.log } := by
  have hreq : s.inflight[0]? = some req := by
    rw [h.serial.inflight]
    rfl
  have hv : step flags s (.complete 0 res) = some _ := complete_of_perform hreq hperform
  have hundisturbed : Undisturbed s (.complete 0 res) := ⟨trivial, id⟩
  obtain ⟨q, hq, hmove⟩ := orderly_step h hundisturbed hv
  cases hmove with
  | perform _ _ _ =>
    obtain ⟨v, hv', hfinal, hsame⟩ := hq.delivers flags
    exact ⟨v, ((Reach.refl s).tail (Or.inl rfl) hv).tail (Or.inr rfl) hv', hfinal, hsame⟩

/-! ## One call -/

/-- Submissions and waits succeed, nobody is cancelled, and a slice before the end of the
file is answered with at least one byte.  The next call has to wait until this one is
looked at. -/
def Answered (s : State) : Event → Prop
  | .call op => op ≠ .aclose
  | .acquire _ _ => False
  | .complete i res => ∀ req, s.inflight[i]? = some req →
      0 ≤ res ∧ (req.off < s.file.length → 0 < res)
  | .onReadable waitRet _ => 0 ≤ waitRet
  | .runJob _ _ => True
  | .resume _ submitRet => 0 ≤ submitRet
  | .cancel _ => False

/-- A slice that comes back short ends at the end of the file. -/
def ShortAtEof (s : State) : Event → Prop
  | .complete i res => ∀ req, s.inflight[i]? = some req →
      res.toNat < readSlice → s.file.length ≤ req.off + res.toNat
  | .call _ => True
  | .acquire _ _ => True
  | .onReadable _ _ => True
  | .runJob _ _ => True
  | .resume _ _ => True
  | .cancel _ => True

/-- The answer to a slice when `rest` stands in the file from the position on. -/
def Slice (rest buf : List UInt8) (res : ℤ) : Prop :=
  ∃ n : ℕ, res = n ∧ n ≤ readSlice ∧ n ≤ rest.length ∧ (rest ≠ [] → 0 < n) ∧
    buf.take n = rest.take n

def Stage.Sliced (rest buf : List UInt8) : Stage → Prop
  | .inFlight => True
  | .posted res => Slice rest buf res
  | .taken res => Slice rest buf res

/-- The bytes from the start of a call up to the position. -/
def bytesTo (s₀ s : State) : List UInt8 := (s₀.file.drop s₀.pos).take (s.pos - s₀.pos)

/-- Call `u`, which took the lock in `s₀`, is reading to the end of the file, or has
returned. -/
inductive Reading (s₀ : State) (u : ℕ) (s : State) : Option Busy → Prop where
  | slice {w : ℕ} {req : Request} {stage : Stage} (hop : req.op = .read readSlice)
      (hoff : req.off = s.pos) (hstage : stage.Sliced (s.file.drop s.pos) (s.buf req.ud)) :
      Reading s₀ u s (some ⟨u, .read (.untilEof (bytesTo s₀ s)), req, w, stage, false⟩)
  | returned (hlog : .returned u (.bytes (bytesTo s₀ s)) ∈ s.log) : Reading s₀ u s none

/-- A slice came back short before the end of the file. -/
def Cut (s : State) : Option Busy → Prop
  | none => s.pos < s.file.length
  | some ⟨_, _, _, _, .inFlight, _⟩ => False
  | some ⟨_, _, _, _, .posted res, _⟩ =>
    res.toNat < readSlice ∧ s.pos + res.toNat < s.file.length
  | some ⟨_, _, _, _, .taken res, _⟩ =>
    res.toNat < readSlice ∧ s.pos + res.toNat < s.file.length

/-- The file is as it was, and the position not before where the call started. -/
structure Since (s₀ s : State) : Prop where
  file : s.file = s₀.file
  pos : s₀.pos ≤ s.pos

variable {s₀ : State}

/-- A step that leaves the file and the position alone. -/
theorem Since.congr (h : Since s₀ s) (hfile : t.file = s.file) (hpos : t.pos = s.pos) :
    Since s₀ t ∧ bytesTo s₀ t = bytesTo s₀ s := by
  refine ⟨⟨hfile.trans h.file, by rw [hpos]; exact h.pos⟩, ?_⟩
  simp only [bytesTo, hpos]

/-- A slice that is in the file prolongs what was read by its bytes. -/
theorem Since.advance (h : Since s₀ s) (hfile : t.file = s.file) {n : ℕ}
    (hpos : t.pos = s.pos + n) :
    Since s₀ t ∧ bytesTo s₀ t = bytesTo s₀ s ++ (s.file.drop s.pos).take n := by
  have hle := h.pos
  refine ⟨⟨hfile.trans h.file, by omega⟩, ?_⟩
  have hsum : t.pos - s₀.pos = (s.pos - s₀.pos) + n := by omega
  have hback : s₀.pos + (s.pos - s₀.pos) = s.pos := by omega
  simp only [bytesTo]
  rw [hsum, List.take_add, List.drop_drop, hback, h.file]

theorem bytesTo_self (s : State) : bytesTo s s = [] := by
  simp only [bytesTo, Nat.sub_self, List.take_zero]

/-- Everything from the start on has been read when the position is at the end. -/
theorem bytesTo_eq_drop_iff (h : Since s₀ s) (hle : s.pos ≤ s.file.length) :
    (bytesTo s₀ s = s₀.file.drop s₀.pos ∧ s.pos = s.file.length) ↔ ¬ s.pos < s.file.length := by
  have hpos := h.pos
  constructor
  · rintro ⟨-, heq⟩
    omega
  · intro hend
    refine ⟨List.take_of_length_le ?_, by omega⟩
    rw [List.length_drop, ← h.file]
    omega

/-- What the kernel leaves in the buffer of a slice. -/
theorem slice_of_perform {req : Request} {res : ℤ} {file data : List UInt8} (buf : List UInt8)
    (hop : req.op = .read readSlice) (hres : 0 ≤ res)
    (hsome : req.off < s.file.length → 0 < res)
    (h : req.perform flags res s.file = some (file, data)) :
    file = s.file ∧ Slice (s.file.drop req.off) (data ++ buf.drop data.length) res := by
  unfold Request.perform at h
  simp only [if_neg (Int.not_lt.mpr hres), hop] at h
  split at h
  · next hcond =>
    obtain ⟨rfl, rfl⟩ := Prod.mk.inj (Option.some.inj h)
    refine ⟨rfl, res.toNat, (Int.toNat_of_nonneg hres).symm, hcond.2.1, hcond.2.2, ?_, ?_⟩
    · intro hne
      have hlt : 0 < (s.file.drop req.off).length := List.length_pos_iff.mpr hne
      rw [List.length_drop] at hlt
      have := hsome (by omega)
      omega
    · have hlen : ((s.file.drop req.off).take res.toNat).length = res.toNat := by
        rw [List.length_take]
        exact Nat.min_eq_left hcond.2.2
      exact List.take_left' hlen
  · exact absurd h (by simp)

/-- The loop goes on after a full slice only. -/
theorem feed_untilEof (chunks piece : List UInt8) :
    (piece.length < readSlice ∧ (ReadLoop.untilEof chunks).feed piece = .inr (chunks ++ piece)) ∨
    (readSlice ≤ piece.length ∧
      (ReadLoop.untilEof chunks).feed piece = .inl (.untilEof (chunks ++ piece))) := by
  unfold ReadLoop.feed
  simp only
  by_cases hnil : piece = []
  · refine Or.inl ⟨by rw [hnil]; exact readSlice_pos, ?_⟩
    rw [if_pos hnil, hnil, List.append_nil]
  · rw [if_neg hnil]
    by_cases hshort : piece.length < readSlice
    · exact Or.inl ⟨hshort, if_pos hshort⟩
    · exact Or.inr ⟨Nat.le_of_not_lt hshort, if_neg hshort⟩

/-- What the loop does with the answer to a slice. -/
theorem feed_of_slice {rest buf : List UInt8} {res : ℤ} (h : Slice rest buf res)
    (chunks : List UInt8) :
    (res.toNat < readSlice ∧ (ReadLoop.untilEof chunks).feed (buf.take res.toNat) =
      .inr (chunks ++ rest.take res.toNat)) ∨
    (readSlice ≤ res.toNat ∧ (ReadLoop.untilEof chunks).feed (buf.take res.toNat) =
      .inl (.untilEof (chunks ++ rest.take res.toNat))) := by
  obtain ⟨n, rfl, -, hrest, -, htake⟩ := h
  have hfeed := feed_untilEof chunks (rest.take n)
  rw [List.length_take, Nat.min_eq_left hrest] at hfeed
  rw [Int.toNat_natCast, htake]
  exact hfeed

/-- The answer to a slice comes back short before the end of the file. -/
theorem not_shortAtEof_iff {i : ℕ} {res : ℤ} {req : Request} (hreq : s.inflight[i]? = some req) :
    ¬ ShortAtEof s (.complete i res) ↔
      res.toNat < readSlice ∧ req.off + res.toNat < s.file.length := by
  constructor
  · intro hnot
    refine Classical.byContradiction fun hno => hnot ?_
    intro req' hreq' hshort
    obtain rfl := Option.some.inj (hreq'.symm.trans hreq)
    omega
  · rintro ⟨hshort, hlt⟩ hat
    have := hat req hreq hshort
    omega

/-- A step after which the call is at the same point. -/
theorem reading_keep (hsince : Since s₀ s) (h : Reading s₀ u s p) (hfile : t.file = s.file)
    (hpos : t.pos = s.pos) (hbuf : t.buf = s.buf) (hlog : ∀ x ∈ s.log, x ∈ t.log)
    (hat : ¬ ¬ ShortAtEof s e) :
    Since s₀ t ∧ Reading s₀ u t p ∧ (Cut t p ↔ Cut s p ∨ ¬ ShortAtEof s e) := by
  obtain ⟨hsince', hbytes⟩ := hsince.congr hfile hpos
  refine ⟨hsince', ?_, ?_⟩
  · cases h with
    | slice hop hoff hstage =>
      rw [← hbytes]
      refine .slice hop (hoff.trans hpos.symm) ?_
      rw [hfile, hpos, hbuf]
      exact hstage
    | returned hmem =>
      refine .returned ?_
      rw [hbytes]
      exact hlog _ hmem
  · rw [or_iff_left hat]
    unfold Cut
    rw [hfile, hpos]

theorem call_keeps (s : State) (op : Op) : (s.call op).file = s.file ∧ (s.call op).pos = s.pos ∧
    (s.call op).buf = s.buf ∧ ∀ x ∈ s.log, x ∈ (s.call op).log := by
  unfold State.call
  simp only
  split
  · exact ⟨rfl, rfl, rfl, fun x hx => List.mem_cons_of_mem _ hx⟩
  · exact ⟨rfl, rfl, rfl, fun x hx => hx⟩

/-- **What a step does to a call that reads to the end of the file.** -/
theorem reading_step (hsince : Since s₀ s) (h : Reading s₀ u s p) (hans : Answered s e)
    (hmove : Move flags s t e p q) :
    Since s₀ t ∧ Reading s₀ u t q ∧ (Cut t q ↔ Cut s p ∨ ¬ ShortAtEof s e) := by
  cases hmove with
  | @call op p ht =>
    subst ht
    obtain ⟨hfile, hpos, hbuf, hlog⟩ := call_keeps s op
    exact reading_keep hsince h hfile hpos hbuf hlog (not_not_intro trivial)
  | unlocked _ _ => exact hans.elim
  | nothing _ _ _ => exact hans.elim
  | start _ _ _ => exact hans.elim
  | @perform v w i io req c res file data hreq hperform hcore =>
    have hpos : t.pos = s.pos := congrArg Core.pos hcore
    have hbuf : t.buf = Function.update s.buf req.ud (data ++ (s.buf req.ud).drop data.length) :=
      congrArg Core.buf hcore
    obtain ⟨hres, hsome⟩ := hans req hreq
    cases h with
    | slice hop hoff _ =>
      obtain ⟨rfl, hslice⟩ := slice_of_perform (s.buf req.ud) hop hres hsome hperform
      have hfile : t.file = s.file := congrArg Core.file hcore
      obtain ⟨hsince', hbytes⟩ := hsince.congr hfile hpos
      refine ⟨hsince', ?_, ?_⟩
      · rw [← hbytes]
        refine .slice hop (hoff.trans hpos.symm) ?_
        rw [hfile, hpos, ← hoff, hbuf, Function.update_self]
        exact hslice
      · rw [not_shortAtEof_iff hreq, hoff]
        show (res.toNat < readSlice ∧ t.pos + res.toNat < t.file.length) ↔ _
        rw [hfile, hpos]
        exact (or_iff_right id).symm
  | @take v w io req c res waitRet peeks hcore =>
    have hfile : t.file = s.file := congrArg Core.file hcore
    have hpos : t.pos = s.pos := congrArg Core.pos hcore
    obtain ⟨hsince', hbytes⟩ := hsince.congr hfile hpos
    cases h with
    | slice hop hoff hstage =>
      refine ⟨hsince', ?_, ?_⟩
      · rw [← hbytes]
        refine .slice hop (hoff.trans hpos.symm) ?_
        rw [hfile, hpos, show t.buf = s.buf from congrArg Core.buf hcore]
        exact hstage
      · show (_ ∧ t.pos + _ < t.file.length) ↔ _
        rw [hfile, hpos]
        exact (or_iff_left (not_not_intro trivial)).symm
  | idle hcore =>
    have hlog : t.log = s.log := congrArg Core.log hcore
    refine reading_keep hsince h (congrArg Core.file hcore) (congrArg Core.pos hcore)
      (congrArg Core.buf hcore) ?_ (not_not_intro trivial)
    rw [hlog]
    exact fun _ hmem => hmem
  | cancel _ => exact hans.elim
  | @fail v w io req res r hres hcore =>
    cases h with
    | slice hop hoff hstage =>
      obtain ⟨n, rfl, -⟩ := hstage
      exact absurd hres (by omega)
  | wrote _ _ => cases h
  | @last v w loop out req res r _ hfeed hcore =>
    cases h with
    | slice hop hoff hstage =>
      have hfile : t.file = s.file := congrArg Core.file hcore
      have hpos : t.pos = s.pos + res.toNat := congrArg Core.pos hcore
      obtain ⟨hsince', hbytes⟩ := hsince.advance hfile hpos
      rcases feed_of_slice hstage (bytesTo s₀ s) with ⟨hshort, heq⟩ | ⟨-, heq⟩
      · obtain rfl := Sum.inr.inj (heq.symm.trans hfeed)
        refine ⟨hsince', .returned ?_, ?_⟩
        · rw [hbytes, show t.log = _ from congrArg Core.log hcore]
          exact List.mem_cons_self
        · show t.pos < t.file.length ↔ (_ ∧ _) ∨ ¬ True
          rw [hfile, hpos, or_iff_left (not_not_intro trivial)]
          exact (and_iff_right hshort).symm
      · exact absurd (heq.symm.trans hfeed) (by simp)
  | @next v w w' loop loop' req res r _ hfeed hcore =>
    cases h with
    | slice hop hoff hstage =>
      have hfile : t.file = s.file := congrArg Core.file hcore
      have hpos : t.pos = s.pos + res.toNat := congrArg Core.pos hcore
      obtain ⟨hsince', hbytes⟩ := hsince.advance hfile hpos
      rcases feed_of_slice hstage (bytesTo s₀ s) with ⟨-, heq⟩ | ⟨hfull, heq⟩
      · exact absurd (heq.symm.trans hfeed) (by simp)
      · obtain rfl := Sum.inl.inj (heq.symm.trans hfeed)
        refine ⟨hsince', ?_, ?_⟩
        · rw [← hbytes]
          exact .slice rfl hpos.symm trivial
        · refine iff_of_false id ?_
          rintro (⟨hshort, -⟩ | hnot)
          · exact absurd hshort (Nat.not_lt.mpr hfull)
          · exact hnot trivial
  | abandon _ _ => cases h

/-! ## Runs -/

/-- Call `u` of a file that serves one request at a time reads to the end of the file. -/
structure Reads (s₀ : State) (u : ℕ) (s : State) (p : Option Busy) : Prop where
  orderly : Orderly s p
  since : Since s₀ s
  reading : Reading s₀ u s p

/-- Nobody is cancelled, so no request is left behind. -/
theorem Reads.undisturbed (h : Reads s₀ u s p) (hans : Answered s e) : Undisturbed s e := by
  cases e with
  | call op => exact ⟨hans, id⟩
  | acquire v submitRet => exact hans.elim
  | complete i res => exact ⟨trivial, id⟩
  | onReadable waitRet peeks => exact ⟨hans, id⟩
  | runJob v most => exact ⟨trivial, id⟩
  | cancel v => exact hans.elim
  | resume v submitRet =>
    obtain ⟨horderly, -, hreading⟩ := h
    cases hreading with
    | slice => exact ⟨hans, horderly.serial.not_abandons rfl submitRet⟩
    | returned =>
      refine ⟨hans, ?_⟩
      rintro ⟨io, req, w, hv, -⟩
      obtain ⟨stage, c, heq⟩ := horderly.serial.of_awaiting hv
      exact absurd heq (by simp)

theorem reads_step (h : Reads s₀ u s p) (hans : Answered s e) (ht : step flags s e = some t) :
    ∃ q, Reads s₀ u t q ∧ Move flags s t e p q ∧ (Cut t q ↔ Cut s p ∨ ¬ ShortAtEof s e) := by
  obtain ⟨q, horderly, hmove⟩ := orderly_step h.orderly (h.undisturbed hans) ht
  obtain ⟨hsince, hreading, hcut⟩ := reading_step h.since h.reading hans hmove
  exact ⟨q, ⟨horderly, hsince, hreading⟩, hmove, hcut⟩

/-- The call has taken the lock. -/
theorem reads_acquire (h : Orderly s₀ none) (hop : s₀.op u = .read (-1)) {submitRet : ℤ}
    (hret : 0 ≤ submitRet) (ht : step flags s₀ (.acquire u submitRet) = some t) :
    ∃ b, Reads s₀ u t (some b) ∧ ¬ Cut t (some b) := by
  have hundisturbed : Undisturbed s₀ (.acquire u submitRet) := ⟨hret, id⟩
  obtain ⟨q, horderly, hmove⟩ := orderly_step h hundisturbed ht
  cases hmove with
  | nothing _ hzero _ =>
    rw [hop] at hzero
    exact absurd hzero (by decide)
  | @start _ w _ io _ hstart hcore =>
    rw [hop] at hstart
    obtain rfl : Io.read (.untilEof []) = io := Option.some.inj hstart
    have hstart : Since s₀ s₀ := ⟨rfl, Nat.le_refl _⟩
    obtain ⟨hsince, hbytes⟩ := hstart.congr
      (show t.file = s₀.file from congrArg Core.file hcore)
      (show t.pos = s₀.pos from congrArg Core.pos hcore)
    rw [bytesTo_self] at hbytes
    refine ⟨_, ⟨horderly, hsince, ?_⟩, id⟩
    rw [← hbytes]
    exact .slice rfl (show s₀.pos = t.pos from (congrArg Core.pos hcore).symm) trivial

/-- The call ends cut short exactly when a slice did. -/
theorem reads_run : ∀ {es : List Event} {s t : State} {p : Option Busy}, Reads s₀ u s p →
    Meets (step flags) Answered s es → exec (step flags) s es = some t →
    ∃ q, Reads s₀ u t q ∧ (¬ Cut t q ↔ ¬ Cut s p ∧ Meets (step flags) ShortAtEof s es)
  | [], s, t, p, h, _, ht => by
    rw [exec_nil] at ht
    obtain rfl := Option.some.inj ht
    exact ⟨p, h, (and_iff_left trivial).symm⟩
  | e :: es, s, t, p, h, hans, ht => by
    rw [exec_cons] at ht
    obtain ⟨v, hv, ht⟩ := Option.bind_eq_some_iff.mp ht
    obtain ⟨r, hr, -, hcut⟩ := reads_step h hans.1 hv
    obtain ⟨q, hq, hiff⟩ := reads_run hr (hans.2 v hv) ht
    refine ⟨q, hq, ?_⟩
    rw [hiff, hcut, not_or, not_not, and_assoc]
    refine and_congr_right fun _ => and_congr_right fun _ => ?_
    exact ⟨fun hm w hw => Option.some.inj (hv.symm.trans hw) ▸ hm, fun hm => hm v hv⟩

theorem mem_returns {o : Outcome} (h : .returned u o ∈ s.log) : (u, o) ∈ s.returns := by
  unfold State.returns
  exact List.mem_reverse.mpr (List.mem_filterMap.mpr ⟨_, h, rfl⟩)

/-- Once the call has returned, it has returned the bytes up to the position. -/
theorem Reads.of_done (h : Reads s₀ u s p) {o : Outcome} (hdone : s.task u = .done o) :
    p = none ∧ o = .bytes (bytesTo s₀ s) := by
  obtain ⟨⟨hserial, -, -⟩, -, hreading⟩ := h
  cases hreading with
  | slice =>
    have htask := hserial.task _ rfl
    exact absurd (htask.symm.trans hdone) (by simp)
  | returned hmem =>
    refine ⟨rfl, ?_⟩
    exact Task.done.inj (hdone.symm.trans ((hserial.ledger.done _ _).mpr (mem_returns hmem)))

/-! ## The call returns -/

/-- Answered, and nobody else calls. -/
def Alone (s : State) (e : Event) : Prop := Answered s e ∧ ∀ op, e ≠ .call op

/-- What is left of the slice under way. -/
def slicesLeft : Option Busy → ℕ
  | none => 0
  | some ⟨_, _, _, _, .taken _, _⟩ => 1
  | some ⟨_, _, _, _, .posted _, _⟩ => 2
  | some ⟨_, _, _, _, .inFlight, _⟩ => 3

/-- What is left of the file, and then of the slice. -/
def State.left (s : State) : ℕ :=
  4 * (s.file.length - s.pos) + s.lock.toList.length + (s.ua.posted.length - s.ua.reaped) +
    2 * s.inflight.length

theorem Orderly.left (h : Orderly s p) :
    s.left = 4 * (s.file.length - s.pos) + slicesLeft p := by
  have hring := congrArg List.length h.serial.quiet.ring
  rw [List.length_drop] at hring
  simp only [State.left, hring, h.serial.lock, h.serial.inflight, Nat.add_assoc]
  match p with
  | none => rfl
  | some ⟨_, _, _, _, .inFlight, _⟩ => rfl
  | some ⟨_, _, _, _, .posted _, _⟩ => rfl
  | some ⟨_, _, _, _, .taken _, _⟩ => rfl

/-- Every step brings the call nearer to its return. -/
theorem left_lt (h : Reads s₀ u s p) (halone : Alone s e) (ht : step flags s e = some t) :
    t.left < s.left := by
  obtain ⟨q, hq, hmove, -⟩ := reads_step h halone.1 ht
  obtain ⟨-, hreading⟩ := And.intro h.since h.reading
  rw [hq.orderly.left, h.orderly.left]
  cases hmove with
  | call _ => exact absurd rfl (halone.2 _)
  | unlocked _ _ => exact halone.1.elim
  | nothing _ _ _ => exact halone.1.elim
  | start _ _ _ => exact halone.1.elim
  | @perform v w i io req c res file data hreq hperform hcore =>
    cases hreading with
    | slice hop _ _ =>
      obtain ⟨hres, hsome⟩ := halone.1 req hreq
      obtain ⟨rfl, -⟩ := slice_of_perform [] hop hres hsome hperform
      rw [show t.file = s.file from congrArg Core.file hcore,
        show t.pos = s.pos from congrArg Core.pos hcore]
      exact Nat.lt_succ_self _
  | take hcore =>
    rw [show t.file = s.file from congrArg Core.file hcore,
      show t.pos = s.pos from congrArg Core.pos hcore]
    exact Nat.lt_succ_self _
  | idle _ => exact absurd ht (h.orderly.not_idle hq.orderly halone.1)
  | cancel _ => exact halone.1.elim
  | @fail v w io req res r hres hcore =>
    cases hreading with
    | slice hop hoff hstage =>
      obtain ⟨n, rfl, -⟩ := hstage
      exact absurd hres (by omega)
  | wrote _ _ => cases hreading
  | @last v w loop out req res r _ _ hcore =>
    rw [show t.file = s.file from congrArg Core.file hcore,
      show t.pos = s.pos + res.toNat from congrArg Core.pos hcore]
    show _ + 0 < _ + 1
    omega
  | @next v w w' loop loop' req res r _ hfeed hcore =>
    cases hreading with
    | slice hop hoff hstage =>
      rw [show t.file = s.file from congrArg Core.file hcore,
        show t.pos = s.pos + res.toNat from congrArg Core.pos hcore]
      rcases feed_of_slice hstage (bytesTo s₀ s) with ⟨-, heq⟩ | ⟨hfull, -⟩
      · exact absurd (heq.symm.trans hfeed) (by simp)
      · obtain ⟨n, rfl, -, hrest, -⟩ := hstage
        have hpositive := readSlice_pos
        rw [List.length_drop] at hrest
        rw [Int.toNat_natCast] at hfull ⊢
        show _ + 3 < _ + 1
        omega
  | abandon _ _ => cases hreading

/-- As long as the call has not returned something can happen. -/
theorem Reads.moves (h : Reads s₀ u s p) (hread : flags.read = true)
    (hnot : ¬ ∃ o, s.task u = .done o) : ∃ e t, Alone s e ∧ step flags s e = some t := by
  obtain ⟨horderly, -, hreading⟩ := h
  cases hreading with
  | returned hmem =>
    exact absurd ⟨_, (horderly.serial.ledger.done _ _).mpr (mem_returns hmem)⟩ hnot
  | @slice w req stage hop hoff hstage =>
    cases stage with
    | inFlight =>
      -- the kernel reads as much as there is
      have hreq : s.inflight[0]? = some req := by
        rw [horderly.serial.inflight]
        rfl
      obtain ⟨n, hn⟩ : ∃ n : ℕ, n = min readSlice (s.file.length - req.off) := ⟨_, rfl⟩
      have hrest : n ≤ (s.file.drop req.off).length := by
        rw [List.length_drop]
        omega
      have hperform := perform_of_read hread hop (by omega) hrest
      refine ⟨.complete 0 n, _, ⟨?_, by simp⟩, complete_of_perform hreq hperform⟩
      intro req' hreq'
      obtain rfl := Option.some.inj (hreq'.symm.trans hreq)
      have hpositive := readSlice_pos
      omega
    | posted res =>
      obtain ⟨t, ht, -⟩ := horderly.delivers flags
      exact ⟨.onReadable 0 none, t, ⟨Int.le_refl 0, by simp⟩, ht⟩
    | taken res =>
      obtain ⟨t, ht⟩ := horderly.resumes flags
      exact ⟨.resume u 0, t, ⟨Int.le_refl 0, by simp⟩, ht⟩

/-- A read to the end of the file returns, whatever the kernel answers. -/
theorem Reads.terminates (h : Reads s₀ u s p) (hread : flags.read = true) :
    Terminates (step flags) Alone (fun t => ∃ o, t.task u = .done o) s := by
  refine terminates_of_measure (I := fun v => ∃ p, Reads s₀ u v p) State.left ⟨p, h⟩ ?_ ?_ ?_
  · rintro v e w ⟨p, hv⟩ halone hw
    obtain ⟨q, hq, -⟩ := reads_step hv halone.1 hw
    exact ⟨q, hq⟩
  · rintro v e w ⟨p, hv⟩ halone hw
    exact left_lt hv halone hw
  · rintro v ⟨p, hv⟩ hnot
    exact hv.moves hread hnot

/-- In the executor, `read()` reads to the end of the file. -/
theorem fpRead_all (hread : flags.read = true) (hle : s.pos ≤ s.file.length) (most : ℕ) :
    fpRead flags most s.file (-1) s.pos = (.bytes (s.file.drop s.pos), s.file.length) := by
  unfold fpRead
  simp only [hread, Bool.not_true, Bool.false_eq_true, if_false, CursorFile.readAll,
    CursorFile.rest, CursorFile.advance, List.length_drop]
  rw [if_neg (by decide), if_neg (by omega), if_pos (by decide), Nat.add_sub_cancel' hle]

/-- **`read()` reads to the end of the file exactly when no slice comes back short before
it.**  The call takes the lock at any position that calls before it led to.  It returns
whatever the kernel answers to its slices; and what it returns is the rest of the file, as it
is in the executor, with the position at the end, exactly when every slice that comes back
short ends at the end of the file. -/
theorem reads_to_eof_iff {content : List UInt8} {s s' : State} {u : ℕ} {submitRet : ℤ}
    (hread : flags.read = true)
    (hs : Reach (step flags) Undisturbed (aenter flags true content) s)
    (hop : s.op u = .read (-1)) (hret : 0 ≤ submitRet)
    (hs' : step flags s (.acquire u submitRet) = some s') :
    Terminates (step flags) Alone (fun t => ∃ o, t.task u = .done o) s' ∧
    (∀ es t o, Meets (step flags) Answered s' es → exec (step flags) s' es = some t →
      t.task u = .done o →
      (o = .bytes (s.file.drop s.pos) ∧ t.pos = t.file.length ↔
        Meets (step flags) ShortAtEof s' es)) ∧
    ∀ most, fpRead flags most s.file (-1) s.pos =
      (.bytes (s.file.drop s.pos), s.file.length) := by
  obtain ⟨p, horderly⟩ := orderly_reach hs
  obtain ⟨-, hfree, -⟩ := acquire_cases hs'
  obtain rfl : p = none := Option.map_eq_none_iff.mp (horderly.serial.lock.symm.trans hfree)
  obtain ⟨b, hreads, hcut⟩ := reads_acquire horderly hop hret hs'
  refine ⟨hreads.terminates hread, ?_, fpRead_all hread horderly.inFile.pos_le⟩
  intro es t o hans ht hdone
  obtain ⟨q, hq, hiff⟩ := reads_run hreads hans ht
  obtain ⟨rfl, rfl⟩ := hq.of_done hdone
  have hend := bytesTo_eq_drop_iff hq.since hq.orderly.inFile.pos_le
  rw [Outcome.bytes.injEq, hend, ← and_iff_right (b := Meets (step flags) ShortAtEof s' es) hcut]
  exact hiff

/-- A file of three bytes that is read from the start. -/
theorem reads_to_eof_iff_three :
    ∃ s s', exec (step ⟨true, false, false, false, false⟩)
        (aenter ⟨true, false, false, false, false⟩ true [1, 2, 3]) [.call (.read (-1))] = some s ∧
      step ⟨true, false, false, false, false⟩ s (.acquire 0 0) = some s' ∧
      (∀ es t o, Meets (step ⟨true, false, false, false, false⟩) Answered s' es →
        exec (step ⟨true, false, false, false, false⟩) s' es = some t → t.task 0 = .done o →
        (o = .bytes (s.file.drop s.pos) ∧ t.pos = t.file.length ↔
          Meets (step ⟨true, false, false, false, false⟩) ShortAtEof s' es)) := by
  have hreach : Reach (step ⟨true, false, false, false, false⟩) Undisturbed
      (aenter ⟨true, false, false, false, false⟩ true [1, 2, 3])
      ((aenter ⟨true, false, false, false, false⟩ true [1, 2, 3]).call (.read (-1))) :=
    Reach.single (e := .call (.read (-1))) ⟨by simp [Served], id⟩ rfl
  exact ⟨_, _, rfl, rfl, (reads_to_eof_iff rfl hreach rfl (Int.le_refl 0) rfl).2.1⟩

/-- The kernel answers the slice with the first of three bytes: `read()` returns that byte,
and the cursor stays behind it. -/
theorem short_slice_ends_read :
    ¬ ∀ (flags : Flags) (content : List UInt8) (s s' : State) (u : ℕ) (submitRet : ℤ),
      flags.read = true → Reach (step flags) Undisturbed (aenter flags true content) s →
      s.op u = .read (-1) → 0 ≤ submitRet → step flags s (.acquire u submitRet) = some s' →
      ∀ es t o, Meets (step flags) Answered s' es → exec (step flags) s' es = some t →
        t.task u = .done o → o = .bytes (s.file.drop s.pos) ∧ t.pos = t.file.length := by
  intro h
  have hreach : Reach (step ⟨true, false, false, false, false⟩) Undisturbed
      (aenter ⟨true, false, false, false, false⟩ true [1, 2, 3])
      ((aenter ⟨true, false, false, false, false⟩ true [1, 2, 3]).call (.read (-1))) :=
    Reach.single (e := .call (.read (-1))) ⟨by simp [Served], id⟩ rfl
  have hend := h _ _ _ _ 0 0 rfl hreach rfl (Int.le_refl 0) rfl
    [.complete 0 1, .onReadable 0 none, .resume 0 0] _ _ ?_ rfl rfl
  · exact absurd hend.2 (by decide)
  · refine meets_of_forall ?_
    intro s e he
    simp only [List.mem_cons, List.not_mem_nil, or_false] at he
    rcases he with rfl | rfl | rfl
    · exact fun _ _ => ⟨by decide, fun _ => by decide⟩
    · exact Int.le_refl 0
    · exact Int.le_refl 0

end AsyncFile
end Pyuring
