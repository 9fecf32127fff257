import Pyuring.AsyncFileSerial
import Pyuring.Native.BatchReads
import Pyuring.Native.TagFidelity

/-!
# Streaming a file with splices

`sendfile_splice` of `aio.py`, on a `UringAsync` that nobody else uses: it submits one splice
after the other, awaits the completion of each, and goes on behind what that one moved.

The kernel answers a splice with the number of bytes it moved, which were those of the file from
the offset of the entry on.  A negative offset, which names the position of the descriptor
instead, is not described.

1. `Stage` is where the request is: not submitted, with the kernel, in the ring, or taken out for
   the call that waits.  `stage_step` is what a step does to it.
2. `Streams` is what the call promises, and `streams_of_lt` that it keeps it as long as the
   offset is one that the entry can hold.
-/

namespace Pyuring
namespace SendfileSplice

open Trace
open AsyncFile (Quiet)
open Native.ReadBlocks (Content cLonglong)

/-- The file and the arguments of a call.  `userData` is one that the submission accepts, and the
length of a chunk is a number that the entry can hold. -/
structure Config where
  content : Content
  offset : ℕ
  count : Option ℕ
  chunk : ℕ
  userData : ℕ
  chunk_pos : 0 < chunk
  chunk_lt : chunk < 2 ^ 32
  userData_lt : userData < 2 ^ 63

/-- A splice, as it is in the entry. -/
structure Splice where
  offIn : ℤ
  len : ℕ
  userData : ℕ
  deriving DecidableEq, Repr

/-- How a call ends. -/
inductive Outcome where
  | returned (total : ℕ)
  | raised (exc : UringError)
  | cancelled
  deriving DecidableEq, Repr

inductive Phase where
  | created
  | awaiting (w : ℕ)
  | ended (o : Outcome)
  deriving DecidableEq, Repr

/-- The `UringAsync`, the locals of the call, the splice with the kernel, those submitted so far,
newest first, and what has come out at the other end. -/
structure State where
  ua : UringAsync.State (ℕ × ℤ)
  phase : Phase
  total : ℕ
  off : ℕ
  inFlight : Option Splice
  asked : List Splice
  out : List UInt8

/-- What happens next: the task runs for the first time, the kernel completes the splice, the
loop calls the reader, or it runs the task again. -/
inductive Event where
  | start (submitRet : ℤ)
  | complete (res : ℤ)
  | onReadable (waitRet : ℤ) (peeks : Option ℕ)
  | resume (submitRet : ℤ)
  deriving DecidableEq

variable (cfg : Config)

/-- `count is None or total < count`. -/
def Config.GoesOn (total : ℕ) : Prop := ∀ count ∈ cfg.count, total < count

instance (total : ℕ) : Decidable (cfg.GoesOn total) :=
  inferInstanceAs (Decidable (∀ count ∈ cfg.count, total < count))

/-- The bytes that the next splice asks for. -/
def Config.nbytes (total : ℕ) : ℕ :=
  match cfg.count with
  | none => cfg.chunk
  | some count => min cfg.chunk (count - total)

namespace State

/-- `splice_submit`: the numbers go through `c_longlong` and masks of 32 and 64 bits, and the
native function returns the tag as a signed number. -/
def spliceSubmit (off n userData : ℕ) (submitRet : ℤ) (s : State) : Except UringError State :=
  if submitRet < 0 then .error ⟨-submitRet, "uring_splice_submit", none⟩
  else
    let q : Splice := ⟨cLonglong off, n % 2 ^ 32, userData % 2 ^ 64⟩
    let ret := Native.UringCtx.signedTag q.userData
    if ret < 0 then .error ⟨-ret, "uring_splice_submit", none⟩
    else .ok { s with inFlight := some q, asked := q :: s.asked }

/-- The call ends. -/
def finish (o : Outcome) (s : State) : State := { s with phase := .ended o }

/-- `await ua.wait_completion()`, up to the `await`. -/
def wait (s : State) : State :=
  let ua := s.ua.waitCompletion
  { s with
    ua := ua
    phase := match ua.call s.ua.calls with
      | .awaiting _ _ => .awaiting s.ua.calls
      | .raised exc => .ended (.raised exc)
      | _ => .ended .cancelled }

/-- The head of the loop, up to the `await` in its body. -/
def head (submitRet : ℤ) (s : State) : State :=
  if cfg.GoesOn s.total then
    match s.spliceSubmit s.off (cfg.nbytes s.total) cfg.userData submitRet with
    | .error exc => s.finish (.raised exc)
    | .ok s => s.wait
  else s.finish (.returned s.total)

/-- The rest of the body, for the call `w` that has ended, and the head of the loop again. -/
def resumed (w : ℕ) (submitRet : ℤ) (s : State) : State :=
  match s.ua.call w with
  | .returned _ (ud, res) =>
    if ud ≠ cfg.userData then
      s.finish (.raised ⟨22, "sendfile_splice", some ("unexpected user_data " ++ toString ud ++
        ", expected " ++ toString cfg.userData)⟩)
    else if res ≤ 0 then s.finish (.returned s.total)
    else { s with total := s.total + res.toNat, off := s.off + res.toNat }.head cfg submitRet
  | .raised exc => s.finish (.raised exc)
  | _ => s.finish .cancelled

/-- The kernel moves `res` bytes, at most those asked for and those there are, or fails. -/
def complete (res : ℤ) (s : State) : Option State :=
  match s.inFlight with
  | none => none
  | some q =>
    if 0 ≤ q.offIn ∧ res ≤ min q.len (cfg.content.1.length - q.offIn.toNat) then
      some { s with
        ua := { s.ua with posted := s.ua.posted ++ [(q.userData, res)] }
        inFlight := none
        out := s.out ++ cfg.content.slice res.toNat q.offIn.toNat }
    else none

end State

def step (s : State) : Event → Option State
  | .start submitRet => if s.phase = .created then some (s.head cfg submitRet) else none
  | .complete res => s.complete cfg res
  | .onReadable waitRet peeks =>
    (UringAsync.step s.ua (.onReadable waitRet peeks)).map fun ua => { s with ua := ua }
  | .resume submitRet => match s.phase with
    | .awaiting w => (s.ua.resume w).map fun ua => ({ s with ua := ua }).resumed cfg w submitRet
    | _ => none

def start (ua : UringAsync.State (ℕ × ℤ)) : State := ⟨ua, .created, 0, cfg.offset, none, [], []⟩

/-! ## What the call promises -/

/-- The bytes there are from the offset on. -/
def Config.available : ℕ := cfg.content.1.length - cfg.offset

/-- The bytes to be moved. -/
def Config.target : ℕ :=
  match cfg.count with
  | none => cfg.available
  | some count => min count cfg.available

/-- Submissions and waits succeed, and the kernel moves one byte or more as long as there are
any, and none at the end of the file. -/
def Answers (s : State) : Event → Prop
  | .start submitRet => 0 ≤ submitRet
  | .complete res => ∀ q ∈ s.inFlight, if q.offIn < cfg.content.1.length then 0 < res else res = 0
  | .onReadable waitRet _ => 0 ≤ waitRet
  | .resume submitRet => 0 ≤ submitRet

instance (s : State) : (e : Event) → Decidable (Answers cfg s e)
  | .start submitRet => inferInstanceAs (Decidable (0 ≤ submitRet))
  | .complete res => inferInstanceAs (Decidable
      (∀ q ∈ s.inFlight, if q.offIn < cfg.content.1.length then 0 < res else res = 0))
  | .onReadable waitRet _ => inferInstanceAs (Decidable (0 ≤ waitRet))
  | .resume submitRet => inferInstanceAs (Decidable (0 ≤ submitRet))

def Ended (s : State) : Prop := ∃ o, s.phase = .ended o

/-- The call ends, what comes out is the file from the offset on, as far as it has come, no splice
asks for a byte behind the count, and the call returns how many bytes it moved: all there are, up
to the count. -/
structure Streams (ua : UringAsync.State (ℕ × ℤ)) : Prop where
  terminates : Terminates (step cfg) (Answers cfg) Ended (start cfg ua)
  delivers : ∀ s, Reach (step cfg) (Answers cfg) (start cfg ua) s →
    s.out = cfg.content.slice s.out.length cfg.offset
  asks : ∀ s, Reach (step cfg) (Answers cfg) (start cfg ua) s → ∀ q ∈ s.asked,
    ∀ count ∈ cfg.count, q.offIn + q.len ≤ cfg.offset + count
  returns : ∀ s o, Reach (step cfg) (Answers cfg) (start cfg ua) s → s.phase = .ended o →
    o = .returned cfg.target ∧ s.out = cfg.content.slice cfg.target cfg.offset

/-! ## The bytes to be moved -/

variable {cfg} {s t : State} {total res : ℕ}

theorem nbytes_pos (h : cfg.GoesOn total) : 0 < cfg.nbytes total := by
  have hchunk := cfg.chunk_pos
  unfold Config.nbytes
  cases hcount : cfg.count with
  | none => exact hchunk
  | some count =>
    have hlt := h count hcount
    simp only
    omega

theorem nbytes_le (cfg : Config) (total : ℕ) : cfg.nbytes total ≤ cfg.chunk := by
  unfold Config.nbytes
  cases cfg.count with
  | none => exact le_rfl
  | some count => exact Nat.min_le_left _ _

theorem nbytes_le_count (h : cfg.GoesOn total) {count : ℕ} (hcount : count ∈ cfg.count) :
    total + cfg.nbytes total ≤ count := by
  have hlt := h count hcount
  rw [Config.nbytes, Option.mem_def.mp hcount]
  simp only
  omega

theorem target_le_available (cfg : Config) : cfg.target ≤ cfg.available := by
  unfold Config.target
  cases cfg.count with
  | none => exact le_rfl
  | some count => exact Nat.min_le_right _ _

/-- With the target reached the loop ends. -/
theorem target_of_not_goesOn (hle : total ≤ cfg.target) (h : ¬ cfg.GoesOn total) :
    total = cfg.target := by
  unfold Config.GoesOn at h
  unfold Config.target at hle ⊢
  cases hcount : cfg.count with
  | none => exact absurd (by simp [hcount]) h
  | some count =>
    rw [hcount] at h hle
    simp only [Option.mem_some_iff, forall_eq'] at h hle ⊢
    omega

/-- What the kernel may answer to the splice that is submitted after `total` bytes. -/
structure Legal (cfg : Config) (total res : ℕ) : Prop where
  asked : res ≤ cfg.nbytes total
  there : res ≤ cfg.available - total
  moves : total < cfg.available → 0 < res

/-- **Towards the target** and not behind it. -/
theorem Legal.le_target (h : Legal cfg total res) (hgo : cfg.GoesOn total)
    (hle : total ≤ cfg.target) : total + res ≤ cfg.target := by
  have hasked := h.asked
  have hthere := h.there
  have havailable := target_le_available cfg
  cases hcount : cfg.count with
  | none =>
    simp only [Config.target, hcount] at hle ⊢
    omega
  | some count =>
    have hbound := nbytes_le_count hgo hcount
    simp only [Config.target, hcount] at hle ⊢
    omega

/-- A splice that moves nothing was submitted at the end of the file. -/
theorem Legal.target_of_zero (h : Legal cfg total 0) (hle : total ≤ cfg.target) :
    total = cfg.target := by
  have hend : cfg.available ≤ total := by
    by_contra hlt
    exact absurd (h.moves (Nat.lt_of_not_le hlt)) (Nat.lt_irrefl 0)
  have havailable := target_le_available cfg
  omega

theorem slice_add (content : Content) (n k o : ℕ) :
    content.slice (n + k) o = content.slice n o ++ content.slice k (o + n) := by
  simp only [Content.slice, List.take_add, List.drop_drop]

/-! ## Stages of the request -/

/-- The locals of the call. -/
structure Books (cfg : Config) (s : State) : Prop where
  off : s.off = cfg.offset + s.total
  le_target : s.total ≤ cfg.target
  asked : ∀ q ∈ s.asked, ∀ count ∈ cfg.count, q.offIn + q.len ≤ cfg.offset + count

/-- Where the request of the call is, and what has come out so far. -/
inductive Stage (cfg : Config) (s : State) : Prop where
  | created (phase : s.phase = .created) (quiet : Quiet s.ua [] []) (total : s.total = 0)
      (inFlight : s.inFlight = none) (out : s.out = [])
  | flying {w : ℕ} (phase : s.phase = .awaiting w) (quiet : Quiet s.ua [] [w])
      (call : s.ua.call w = .awaiting .pending false) (registered : s.ua.registered = true)
      (goesOn : cfg.GoesOn s.total)
      (inFlight : s.inFlight = some ⟨s.off, cfg.nbytes s.total, cfg.userData⟩)
      (out : s.out = cfg.content.slice s.total cfg.offset)
  | landed {w res : ℕ} (phase : s.phase = .awaiting w)
      (quiet : Quiet s.ua [(cfg.userData, res)] [w])
      (call : s.ua.call w = .awaiting .pending false) (registered : s.ua.registered = true)
      (goesOn : cfg.GoesOn s.total) (inFlight : s.inFlight = none)
      (legal : Legal cfg s.total res)
      (out : s.out = cfg.content.slice (s.total + res) cfg.offset)
  | woken {w n res : ℕ} (phase : s.phase = .awaiting w) (quiet : Quiet s.ua [] [])
      (call : s.ua.call w = .awaiting (.result n (cfg.userData, res)) false)
      (goesOn : cfg.GoesOn s.total) (inFlight : s.inFlight = none)
      (legal : Legal cfg s.total res)
      (out : s.out = cfg.content.slice (s.total + res) cfg.offset)
  | ended (phase : s.phase = .ended (.returned cfg.target)) (quiet : Quiet s.ua [] [])
      (inFlight : s.inFlight = none) (out : s.out = cfg.content.slice cfg.target cfg.offset)

/-- The steps until the next splice is submitted. -/
def rank (s : State) : ℕ :=
  match s.phase with
  | .created => 4
  | .awaiting _ => if s.inFlight.isSome then 3 else if s.ua.waiters = [] then 1 else 2
  | .ended _ => 0

/-- What every step lowers: the bytes still to be moved, how far the request is, and whether the
loop still calls the reader. -/
def work (cfg : Config) (s : State) : ℕ :=
  8 * (cfg.target - s.total) + 2 * rank s + if s.ua.registered then 1 else 0

/-- A callback without a waiter only removes the reader. -/
theorem onReadable_idle {ua ua' : UringAsync.State (ℕ × ℤ)} {ring : List (ℕ × ℤ)}
    (h : Quiet ua ring []) {waitRet : ℤ} {peeks : Option ℕ}
    (ht : UringAsync.step ua (.onReadable waitRet peeks) = some ua') :
    ua.registered = true ∧ Quiet ua' ring [] ∧ ua'.call = ua.call ∧ ua'.registered = false := by
  obtain ⟨hreg, hread⟩ := Option.ite_none_right_eq_some.mp ht
  obtain ⟨hquiet, hcall⟩ := h.onReadable_idle hread
  refine ⟨hreg, hquiet, hcall, ?_⟩
  unfold UringAsync.State.onReadable at hread
  simp only [UringAsync.ensureCtxOpen_removeReader, h.ensureCtxOpen,
    UringAsync.waiters_removeReader, h.waiters, Option.some.injEq] at hread
  rw [← hread, UringAsync.State.removeReader]
  split
  · simp [h.ctxOpen]
  · next hactive => rw [h.reader]; simpa using hactive

/-- The splice of the head of the loop is the one that the source means. -/
theorem spliceSubmit_eq (hoff : cfg.offset < 2 ^ 63) (hbooks : Books cfg s) {submitRet : ℤ}
    (hret : 0 ≤ submitRet) :
    s.spliceSubmit s.off (cfg.nbytes s.total) cfg.userData submitRet =
      .ok { s with
        inFlight := some ⟨s.off, cfg.nbytes s.total, cfg.userData⟩
        asked := ⟨s.off, cfg.nbytes s.total, cfg.userData⟩ :: s.asked } := by
  have hcontent := cfg.content.2
  have hchunk := cfg.chunk_lt
  have huser := cfg.userData_lt
  have hn := nbytes_le cfg s.total
  have hle := hbooks.le_target
  have havailable := target_le_available cfg
  unfold Config.available at havailable
  have hoffIn : cLonglong s.off = s.off := by
    refine Native.ReadBlocks.cLonglong_of_lt (by omega) ?_
    have := hbooks.off
    omega
  have htag : Native.UringCtx.signedTag cfg.userData = cfg.userData :=
    Native.AsyncSession.signedTag_of_lt (by omega) (by omega)
  unfold State.spliceSubmit
  rw [if_neg (Int.not_lt.mpr hret)]
  simp only [hoffIn, Nat.mod_eq_of_lt (show cfg.nbytes s.total < 2 ^ 32 by omega),
    Nat.mod_eq_of_lt (show cfg.userData < 2 ^ 64 by omega), htag]
  rw [if_neg (by omega)]

/-! ## The steps -/

/-- A step keeps the locals and the stage in order and gets on. -/
structure Proceeds (cfg : Config) (s t : State) : Prop where
  books : Books cfg t
  stage : Stage cfg t
  work_lt : work cfg t < work cfg s

theorem work_le (cfg : Config) (s : State) :
    work cfg s ≤ 8 * (cfg.target - s.total) + 2 * rank s + 1 := by
  unfold work
  split <;> omega

theorem le_work (cfg : Config) (s : State) :
    8 * (cfg.target - s.total) + 2 * rank s ≤ work cfg s := Nat.le_add_right _ _

/-- The head of the loop submits a splice and waits, or the call returns. -/
theorem head_spec (hoff : cfg.offset < 2 ^ 63) (hbooks : Books cfg s) (hquiet : Quiet s.ua [] [])
    (hflight : s.inFlight = none) (hout : s.out = cfg.content.slice s.total cfg.offset)
    {submitRet : ℤ} (hret : 0 ≤ submitRet) : Books cfg (s.head cfg submitRet) ∧
      Stage cfg (s.head cfg submitRet) ∧
      work cfg (s.head cfg submitRet) ≤ 8 * (cfg.target - s.total) + 7 := by
  by_cases hgo : cfg.GoesOn s.total
  · obtain ⟨hwait, hcall⟩ := hquiet.waitCompletion
    have heq : s.head cfg submitRet = { s with
        ua := s.ua.waitCompletion
        phase := .awaiting s.ua.calls
        inFlight := some ⟨s.off, cfg.nbytes s.total, cfg.userData⟩
        asked := ⟨s.off, cfg.nbytes s.total, cfg.userData⟩ :: s.asked } := by
      rw [State.head, if_pos hgo, spliceSubmit_eq hoff hbooks hret]
      simp only [State.wait, hcall]
    rw [heq]
    refine ⟨⟨hbooks.off, hbooks.le_target, ?_⟩, ?_, ?_⟩
    · intro q hq count hcount
      rcases List.mem_cons.mp hq with rfl | hq
      · have hbound := nbytes_le_count hgo hcount
        have hoffs := hbooks.off
        simp only
        omega
      · exact hbooks.asked q hq count hcount
    · exact .flying rfl hwait hcall hquiet.registered hgo rfl hout
    · exact work_le cfg _
  · have heq : s.head cfg submitRet = s.finish (.returned s.total) := if_neg hgo
    have htarget := target_of_not_goesOn hbooks.le_target hgo
    rw [heq]
    refine ⟨⟨hbooks.off, hbooks.le_target, hbooks.asked⟩, ?_, ?_⟩
    · exact .ended (by rw [State.finish, htarget]) hquiet hflight (htarget ▸ hout)
    · refine Nat.le_trans (work_le cfg _) ?_
      simp only [State.finish, rank]
      omega

theorem proceeds_start (hoff : cfg.offset < 2 ^ 63) (hbooks : Books cfg s) (hstage : Stage cfg s)
    {submitRet : ℤ} (hret : 0 ≤ submitRet) (ht : step cfg s (.start submitRet) = some t) :
    Proceeds cfg s t := by
  obtain ⟨hphase, ht⟩ := Option.ite_none_right_eq_some.mp ht
  obtain rfl := Option.some.inj ht
  cases hstage with
  | created _ hquiet htotal hflight hout =>
    have hslice : s.out = cfg.content.slice s.total cfg.offset := by
      rw [hout, htotal]
      simp [Content.slice]
    obtain ⟨hbooks', hstage', hwork⟩ := head_spec hoff hbooks hquiet hflight hslice hret
    refine ⟨hbooks', hstage', ?_⟩
    have hle := le_work cfg s
    have hrank : rank s = 4 := by simp only [rank, hphase]
    omega
  | flying phase => exact absurd (hphase.symm.trans phase) (by simp)
  | landed phase => exact absurd (hphase.symm.trans phase) (by simp)
  | woken phase => exact absurd (hphase.symm.trans phase) (by simp)
  | ended phase => exact absurd (hphase.symm.trans phase) (by simp)

/-- The kernel answers. -/
theorem proceeds_complete (hbooks : Books cfg s) (hstage : Stage cfg s) {res : ℤ}
    (hans : Answers cfg s (.complete res)) (ht : step cfg s (.complete res) = some t) :
    Proceeds cfg s t := by
  cases hstage with
  | @flying w phase quiet call registered goesOn inFlight out =>
    have hoffs := hbooks.off
    have hmoves := hans _ inFlight
    simp only [step, State.complete, inFlight] at ht
    obtain ⟨⟨-, hle⟩, ht⟩ := Option.ite_none_right_eq_some.mp ht
    obtain rfl := Option.some.inj ht
    simp only [Int.toNat_natCast] at hle hmoves
    have hnonneg : 0 ≤ res := by
      split at hmoves <;> omega
    obtain ⟨k, rfl⟩ := Int.eq_ofNat_of_zero_le hnonneg
    have hlegal : Legal cfg s.total k := by
      refine ⟨by omega, by unfold Config.available; omega, fun hlt => ?_⟩
      unfold Config.available at hlt
      rw [if_pos (by omega)] at hmoves
      omega
    refine ⟨⟨hbooks.off, hbooks.le_target, hbooks.asked⟩, ?_, ?_⟩
    · refine .landed phase (quiet.post (cfg.userData, k)) call registered goesOn rfl hlegal ?_
      simp only [out, hoffs, slice_add, Int.toNat_natCast]
    · have hw : s.ua.waiters ≠ [] := by rw [quiet.waiters]; simp
      simp only [work, rank, phase, inFlight, Option.isSome_some, Option.isSome_none, if_true, hw,
        Bool.false_eq_true, if_false]
      omega
  | created _ _ _ inFlight => exact absurd ht (by simp [step, State.complete, inFlight])
  | landed _ _ _ _ _ inFlight => exact absurd ht (by simp [step, State.complete, inFlight])
  | woken _ _ _ _ inFlight => exact absurd ht (by simp [step, State.complete, inFlight])
  | ended _ _ inFlight => exact absurd ht (by simp [step, State.complete, inFlight])

/-- The reader hands the completion to the call that waits, or finds that nobody waits. -/
theorem proceeds_onReadable (hbooks : Books cfg s) (hstage : Stage cfg s) {waitRet : ℤ}
    {peeks : Option ℕ} (hret : 0 ≤ waitRet)
    (ht : step cfg s (.onReadable waitRet peeks) = some t) : Proceeds cfg s t := by
  obtain ⟨ua, hua, rfl⟩ := Option.map_eq_some_iff.mp ht
  have hbooks' : Books cfg { s with ua := ua } := ⟨hbooks.off, hbooks.le_target, hbooks.asked⟩
  cases hstage with
  | created phase quiet total inFlight out =>
    obtain ⟨hreg, hquiet, -, hreg'⟩ := onReadable_idle quiet hua
    refine ⟨hbooks', .created phase hquiet total inFlight out, ?_⟩
    simp [work, rank, phase, hreg, hreg']
  | flying phase quiet =>
    obtain ⟨-, hread⟩ := Option.ite_none_right_eq_some.mp hua
    obtain ⟨c, cs, hring, -⟩ := quiet.onReadable_waiter hret hread
    exact absurd hring (by simp)
  | landed phase quiet call registered goesOn inFlight legal out =>
    obtain ⟨-, hread⟩ := Option.ite_none_right_eq_some.mp hua
    obtain ⟨c, cs, hring, hquiet, hcall⟩ := quiet.onReadable_waiter hret hread
    obtain ⟨rfl, rfl⟩ := List.cons.inj hring
    rw [call] at hcall
    refine ⟨hbooks', .woken phase hquiet hcall goesOn inFlight legal out, ?_⟩
    refine Nat.lt_of_le_of_lt (work_le cfg _) (Nat.lt_of_lt_of_le ?_ (le_work cfg s))
    have hrank : rank s = 2 := by simp [rank, phase, inFlight, quiet.waiters]
    have hrank' : rank { s with ua := ua } = 1 := by simp [rank, phase, inFlight, hquiet.waiters]
    simp only [hrank, hrank']
    omega
  | woken phase quiet call goesOn inFlight legal out =>
    obtain ⟨hreg, hquiet, hcall, hreg'⟩ := onReadable_idle quiet hua
    refine ⟨hbooks', .woken phase hquiet (by rw [hcall]; exact call) goesOn inFlight legal out, ?_⟩
    simp [work, rank, phase, inFlight, quiet.waiters, hquiet.waiters, hreg, hreg']
  | ended phase quiet inFlight out =>
    obtain ⟨hreg, hquiet, -, hreg'⟩ := onReadable_idle quiet hua
    refine ⟨hbooks', .ended phase hquiet inFlight out, ?_⟩
    simp [work, rank, phase, hreg, hreg']

/-- The call takes its completion and goes round the loop, or returns. -/
theorem proceeds_resume (hoff : cfg.offset < 2 ^ 63) (hbooks : Books cfg s) (hstage : Stage cfg s)
    {submitRet : ℤ} (hret : 0 ≤ submitRet) (ht : step cfg s (.resume submitRet) = some t) :
    Proceeds cfg s t := by
  cases hstage with
  | created phase => exact absurd ht (by simp [step, phase])
  | flying phase _ call => exact absurd ht (by simp [step, phase, UringAsync.State.resume, call])
  | landed phase _ call => exact absurd ht (by simp [step, phase, UringAsync.State.resume, call])
  | ended phase => exact absurd ht (by simp [step, phase])
  | @woken w n res phase quiet call goesOn inFlight legal out =>
    simp only [step, phase] at ht
    rw [← phase] at ht
    obtain ⟨ua, hua, rfl⟩ := Option.map_eq_some_iff.mp ht
    obtain ⟨hquiet, hcall⟩ := quiet.resume_result call hua
    have hle := le_work cfg s
    have hrank : rank s = 1 := by simp [rank, phase, inFlight, quiet.waiters]
    rcases Nat.eq_zero_or_pos res with rfl | hpos
    · have htarget := legal.target_of_zero hbooks.le_target
      have heq : ({ s with ua := ua } : State).resumed cfg w submitRet =
          ({ s with ua := ua } : State).finish (.returned s.total) := by
        simp [State.resumed, hcall]
      rw [heq]
      refine ⟨⟨hbooks.off, hbooks.le_target, hbooks.asked⟩, ?_, ?_⟩
      · exact .ended (by rw [State.finish, htarget]) hquiet inFlight (htarget ▸ out)
      · refine Nat.lt_of_le_of_lt (work_le cfg _) (Nat.lt_of_lt_of_le ?_ hle)
        change 8 * (cfg.target - s.total) + 2 * 0 + 1 < 8 * (cfg.target - s.total) + 2 * rank s
        omega
    · have htarget := legal.le_target goesOn hbooks.le_target
      have heq : ({ s with ua := ua } : State).resumed cfg w submitRet =
          ({ s with ua := ua, total := s.total + res, off := s.off + res } : State).head cfg
            submitRet := by
        have hne : res ≠ 0 := by omega
        simp [State.resumed, hcall, hne]
      rw [heq]
      have hbooks' : Books cfg { s with ua := ua, total := s.total + res, off := s.off + res } := by
        refine ⟨?_, htarget, hbooks.asked⟩
        have hoffs := hbooks.off
        simp only
        omega
      obtain ⟨hbooks'', hstage, hwork⟩ := head_spec hoff hbooks' hquiet inFlight out hret
      refine ⟨hbooks'', hstage, ?_⟩
      simp only at hwork
      omega

/-- **One step** of a call that is answered as a file answers. -/
theorem proceeds_step (hoff : cfg.offset < 2 ^ 63) (hbooks : Books cfg s) (hstage : Stage cfg s)
    {e : Event} (hans : Answers cfg s e) (ht : step cfg s e = some t) : Proceeds cfg s t := by
  cases e with
  | start submitRet => exact proceeds_start hoff hbooks hstage hans ht
  | complete res => exact proceeds_complete hbooks hstage hans ht
  | onReadable waitRet peeks => exact proceeds_onReadable hbooks hstage hans ht
  | resume submitRet => exact proceeds_resume hoff hbooks hstage hans ht

/-- A call that has not ended goes on. -/
theorem moves_of_stage (hstage : Stage cfg s) (hs : ¬ Ended s) :
    ∃ e t, Answers cfg s e ∧ step cfg s e = some t := by
  cases hstage with
  | created phase => exact ⟨.start 0, _, Int.le_refl 0, if_pos phase⟩
  | @flying w phase quiet call registered goesOn inFlight out =>
    have hn := nbytes_pos goesOn
    -- one byte while there are any, and none at the end of the file
    obtain ⟨k, hk, hmoves⟩ : ∃ k : ℕ, k ≤ min (cfg.nbytes s.total) (cfg.content.1.length - s.off) ∧
        if (s.off : ℤ) < cfg.content.1.length then 0 < (k : ℤ) else (k : ℤ) = 0 := by
      rcases Nat.lt_or_ge s.off cfg.content.1.length with hlt | hge
      · exact ⟨1, by omega, by rw [if_pos (by omega)]; omega⟩
      · exact ⟨0, by omega, by rw [if_neg (by omega)]; rfl⟩
    obtain ⟨t, ht⟩ : ∃ t, step cfg s (.complete k) = some t := by
      simp only [step, State.complete, inFlight]
      rw [if_pos ⟨by omega, by simp only [Int.toNat_natCast]; omega⟩]
      exact ⟨_, rfl⟩
    refine ⟨.complete k, t, fun q hq => ?_, ht⟩
    obtain rfl := Option.some.inj (inFlight.symm.trans hq)
    exact hmoves
  | landed phase quiet call registered =>
    obtain ⟨ua, hua⟩ := quiet.exists_onReadable
    refine ⟨.onReadable 0 none, { s with ua := ua }, Int.le_refl 0, ?_⟩
    simp only [step, UringAsync.step, registered, if_true, hua, Option.map_some]
  | woken phase quiet call =>
    obtain ⟨t, ht⟩ : ∃ t, step cfg s (.resume 0) = some t := by
      simp only [step, phase, UringAsync.State.resume, call, Option.map_some]
      exact ⟨_, rfl⟩
    exact ⟨.resume 0, t, Int.le_refl 0, ht⟩
  | ended phase => exact absurd ⟨_, phase⟩ hs

/-! ## Runs -/

theorem books_start (cfg : Config) (ua : UringAsync.State (ℕ × ℤ)) : Books cfg (start cfg ua) :=
  ⟨rfl, Nat.zero_le _, fun _ hq => absurd hq List.not_mem_nil⟩

theorem stage_start {ua : UringAsync.State (ℕ × ℤ)} (hquiet : Quiet ua [] []) :
    Stage cfg (start cfg ua) := .created rfl hquiet rfl rfl rfl

theorem stage_reach (hoff : cfg.offset < 2 ^ 63) {ua : UringAsync.State (ℕ × ℤ)}
    (hquiet : Quiet ua [] []) (h : Reach (step cfg) (Answers cfg) (start cfg ua) s) :
    Books cfg s ∧ Stage cfg s := by
  refine h.invariant (I := fun s => Books cfg s ∧ Stage cfg s)
    ⟨books_start cfg ua, stage_start hquiet⟩ fun u e v hI hP hv => ?_
  have hproceeds := proceeds_step hoff hI.1 hI.2 hP hv
  exact ⟨hproceeds.books, hproceeds.stage⟩

/-- What has come out is the file from the offset on. -/
theorem Stage.delivered (h : Stage cfg s) (hbooks : Books cfg s) :
    ∃ k, k ≤ cfg.target ∧ s.out = cfg.content.slice k cfg.offset := by
  have hle := hbooks.le_target
  cases h with
  | created _ _ _ _ out => exact ⟨0, Nat.zero_le _, by rw [out]; simp [Content.slice]⟩
  | flying _ _ _ _ _ _ out => exact ⟨_, hle, out⟩
  | landed _ _ _ _ goesOn _ legal out => exact ⟨_, legal.le_target goesOn hle, out⟩
  | woken _ _ _ goesOn _ legal out => exact ⟨_, legal.le_target goesOn hle, out⟩
  | ended _ _ _ out => exact ⟨_, le_rfl, out⟩

/-- **A splice loop streams**, whatever the kernel moves at a time, from any offset that the
entry can hold. -/
theorem streams_of_lt (cfg : Config) {ua : UringAsync.State (ℕ × ℤ)} (hquiet : Quiet ua [] [])
    (hoff : cfg.offset < 2 ^ 63) : Streams cfg ua where
  terminates := by
    refine terminates_of_measure (I := fun s => Books cfg s ∧ Stage cfg s) (work cfg)
      ⟨books_start cfg ua, stage_start hquiet⟩ ?_ ?_ ?_
    · intro u e v hI hP hv
      have hproceeds := proceeds_step hoff hI.1 hI.2 hP hv
      exact ⟨hproceeds.books, hproceeds.stage⟩
    · exact fun u e v hI hP hv => (proceeds_step hoff hI.1 hI.2 hP hv).work_lt
    · exact fun u hI hu => moves_of_stage hI.2 hu
  delivers s h := by
    obtain ⟨hbooks, hstage⟩ := stage_reach hoff hquiet h
    obtain ⟨k, hk, hout⟩ := hstage.delivered hbooks
    have hlen : s.out.length = k := by
      have havailable := target_le_available cfg
      unfold Config.available at havailable
      rw [hout, Native.ReadBlocks.length_slice]
      omega
    rw [hlen, hout]
  asks s h := (stage_reach hoff hquiet h).1.asked
  returns s o h ho := by
    cases (stage_reach hoff hquiet h).2 with
    | ended phase quiet inFlight out =>
      exact ⟨Phase.ended.inj (ho.symm.trans phase), out⟩
    | created phase => exact absurd (ho.symm.trans phase) (by simp)
    | flying phase => exact absurd (ho.symm.trans phase) (by simp)
    | landed phase => exact absurd (ho.symm.trans phase) (by simp)
    | woken phase => exact absurd (ho.symm.trans phase) (by simp)

/-- Two bytes from the second on, of a file of four, on a new `UringAsync`. -/
def fourBytes : Config :=
  ⟨⟨[7, 8, 9, 10], by decide⟩, 1, some 2, 262144, 9100, by decide, by decide, by decide⟩

theorem quiet_init : Quiet (.init : UringAsync.State (ℕ × ℤ)) [] [] :=
  ⟨rfl, rfl, rfl, Nat.le_refl 0, rfl, rfl⟩

theorem streams_of_lt_fourBytes : Streams fourBytes .init :=
  streams_of_lt fourBytes quiet_init (by decide)

/-- A file of one byte, from an offset of which the entry holds the lower 64 bits. -/
def wrapped : Config :=
  ⟨⟨[7], by decide⟩, 2 ^ 64, none, 1, 9100, Nat.one_pos, Native.one_lt_uint32, by decide⟩

/-- The first entry names the first byte of the file, which comes out although the offset is
behind the end. -/
theorem wrapped_moves : ¬ ∀ (cfg : Config) (ua : UringAsync.State (ℕ × ℤ)), Quiet ua [] [] →
    Streams cfg ua := by
  intro hall
  have hstreams := hall wrapped .init quiet_init
  have hmeets : Meets (step wrapped) (Answers wrapped) (start wrapped .init)
      [.start 0, .complete 1] := by
    decide
  obtain ⟨s, hs, hout⟩ : ∃ s, exec (step wrapped) (start wrapped .init)
      [.start 0, .complete 1] = some s ∧ s.out = [7] := ⟨_, rfl, rfl⟩
  have hslice := hstreams.delivers s (reach_of_exec hmeets hs)
  rw [hout] at hslice
  exact absurd hslice (by decide)

end SendfileSplice
end Pyuring
