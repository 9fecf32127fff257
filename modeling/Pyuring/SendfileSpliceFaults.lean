import Pyuring.SendfileSplice

/-!
# Streaming a file when things fail

`SendfileSplice` says what a call of `sendfile_splice` promises when the kernel answers as a file
does.  Here nothing is asked of the answers: a submission or a wait may fail, and a splice may
end with an error, move nothing although there is more, or move less than was asked.

A splice that ends with an error ends the call like the end of the file does, without a word
about it, and a wait that fails leaves a splice behind.

1. `Splicing` is where the splice of the call is, and `Station` what the call knows of it.
2. `Stops` is what is left of the promise, and `stops_of_lt` that the call keeps it.
-/

namespace Pyuring
namespace SendfileSplice

open Trace
open AsyncFile (Quiet)

variable {cfg : Config} {s t : State}

/-! ## A wait that fails -/

/-- The reader hands the error to the call that waits; a completion that is there stays there. -/
theorem onReadable_fails {ua ua' : UringAsync.State (ℕ × ℤ)} {ring : List (ℕ × ℤ)} {w : ℕ}
    (h : Quiet ua ring [w]) {waitRet : ℤ} (hwait : waitRet < 0) {peeks : Option ℕ}
    (ht : ua.onReadable waitRet peeks = some ua') :
    Quiet ua' ring [] ∧ ua'.call w =
      (ua.call w).settle (.exception ⟨-waitRet, "uring_wait_completion", none⟩) := by
  unfold UringAsync.State.onReadable at ht
  simp only [UringAsync.ensureCtxOpen_removeReader, h.ensureCtxOpen,
    UringAsync.waiters_removeReader, h.waiters, if_pos hwait, Option.some.injEq] at ht
  subst ht
  have hsettled : Quiet (ua.removeReader.settleAll
      (.exception ⟨-waitRet, "uring_wait_completion", none⟩)) ring [] := by
    refine h.congr ?_ ?_ ?_ ?_ rfl h.removeReader
    · exact UringAsync.closed_removeReader ua
    · exact UringAsync.ctxOpen_removeReader ua
    · exact UringAsync.posted_removeReader ua
    · exact UringAsync.reaped_removeReader ua
  refine ⟨hsettled.congr ?_ ?_ ?_ ?_ ?_ hsettled.removeReader, ?_⟩
  · exact UringAsync.closed_removeReader _
  · exact UringAsync.ctxOpen_removeReader _
  · exact UringAsync.posted_removeReader _
  · exact UringAsync.reaped_removeReader _
  · exact UringAsync.waiters_removeReader _
  · simp [UringAsync.State.failAll, UringAsync.State.settleAll, h.waiters]

/-! ## Where the splice is -/

/-- The splice that was submitted after `total` bytes, while nobody has taken its completion:
with the kernel, or in the ring with some result. -/
inductive Splicing (cfg : Config) (s : State) : List (ℕ × ℤ) → Prop where
  | flying (goesOn : cfg.GoesOn s.total)
      (inFlight : s.inFlight = some ⟨s.off, cfg.nbytes s.total, cfg.userData⟩)
      (out : s.out = cfg.content.slice s.total cfg.offset) : Splicing cfg s []
  | landed {res : ℤ} (goesOn : cfg.GoesOn s.total) (inFlight : s.inFlight = none)
      (asked : res.toNat ≤ cfg.nbytes s.total) (there : res.toNat ≤ cfg.available - s.total)
      (out : s.out = cfg.content.slice (s.total + res.toNat) cfg.offset) :
      Splicing cfg s [(cfg.userData, res)]

/-- Nothing is under way. -/
structure Idle (cfg : Config) (s : State) : Prop where
  quiet : Quiet s.ua [] []
  inFlight : s.inFlight = none
  out : s.out = cfg.content.slice s.total cfg.offset

/-- What the call knows of its splice. -/
inductive Station (cfg : Config) (s : State) : Prop where
  | created (phase : s.phase = .created) (idle : Idle cfg s)
  | waiting {w : ℕ} {ring : List (ℕ × ℤ)} (phase : s.phase = .awaiting w)
      (quiet : Quiet s.ua ring [w]) (call : s.ua.call w = .awaiting .pending false)
      (registered : s.ua.registered = true) (splicing : Splicing cfg s ring)
  | woken {w n : ℕ} {res : ℤ} (phase : s.phase = .awaiting w) (quiet : Quiet s.ua [] [])
      (call : s.ua.call w = .awaiting (.result n (cfg.userData, res)) false)
      (goesOn : cfg.GoesOn s.total) (inFlight : s.inFlight = none)
      (asked : res.toNat ≤ cfg.nbytes s.total) (there : res.toNat ≤ cfg.available - s.total)
      (out : s.out = cfg.content.slice (s.total + res.toNat) cfg.offset)
  | failed {w : ℕ} {ring : List (ℕ × ℤ)} {errno : ℤ} (phase : s.phase = .awaiting w)
      (quiet : Quiet s.ua ring [])
      (call : s.ua.call w = .awaiting (.exception ⟨errno, "uring_wait_completion", none⟩) false)
      (splicing : Splicing cfg s ring)
  | returned (phase : s.phase = .ended (.returned s.total)) (idle : Idle cfg s)
  | refused {errno : ℤ} (phase : s.phase = .ended (.raised ⟨errno, "uring_splice_submit", none⟩))
      (idle : Idle cfg s)
  | abandoned {ring : List (ℕ × ℤ)} {errno : ℤ}
      (phase : s.phase = .ended (.raised ⟨errno, "uring_wait_completion", none⟩))
      (quiet : Quiet s.ua ring []) (splicing : Splicing cfg s ring)

/-- The steps until the next splice is submitted, and whether the loop calls the reader. -/
def toGo (s : State) : ℕ :=
  (match s.phase with
    | .created => 5
    | .awaiting _ => 1
    | .ended _ => 0) +
  (if s.inFlight.isSome then 1 else 0) + s.ua.waiters.length +
  if s.ua.registered then 1 else 0

/-- What every step lowers: the bytes still to be moved, and the steps until the next splice. -/
def effort (cfg : Config) (s : State) : ℕ := 8 * (cfg.target - s.total) + toGo s

/-- A step keeps the locals and the station in order and gets on. -/
structure Advances (cfg : Config) (s t : State) : Prop where
  books : Books cfg t
  station : Station cfg t
  effort_lt : effort cfg t < effort cfg s

/-! ## Steps -/

/-- The head of the loop submits a splice and waits, or the call ends. -/
theorem head_station (hoff : cfg.offset < 2 ^ 63) (hbooks : Books cfg s) (hidle : Idle cfg s)
    (submitRet : ℤ) : Books cfg (s.head cfg submitRet) ∧ Station cfg (s.head cfg submitRet) ∧
      effort cfg (s.head cfg submitRet) ≤ 8 * (cfg.target - s.total) + 4 := by
  have hreg : ∀ b : Bool, (if b then 1 else 0) ≤ 1 := fun b => by cases b <;> simp
  by_cases hgo : cfg.GoesOn s.total
  · by_cases hret : submitRet < 0
    · have heq : s.head cfg submitRet =
          s.finish (.raised ⟨-submitRet, "uring_splice_submit", none⟩) := by
        rw [State.head, if_pos hgo, State.spliceSubmit, if_pos hret]
      rw [heq]
      refine ⟨⟨hbooks.off, hbooks.le_target, hbooks.asked⟩,
        .refused rfl ⟨hidle.quiet, hidle.inFlight, hidle.out⟩, ?_⟩
      have := hreg s.ua.registered
      simp only [effort, toGo, State.finish, hidle.inFlight, hidle.quiet.waiters,
        Option.isSome_none, List.length_nil, Bool.false_eq_true, if_false]
      omega
    · have hret := Int.not_lt.mp hret
      obtain ⟨hwait, hcall⟩ := hidle.quiet.waitCompletion
      have heq : s.head cfg submitRet = { s with
          ua := s.ua.waitCompletion
          phase := .awaiting s.ua.calls
          inFlight := some ⟨s.off, cfg.nbytes s.total, cfg.userData⟩
          asked := ⟨s.off, cfg.nbytes s.total, cfg.userData⟩ :: s.asked } := by
        rw [State.head, if_pos hgo, spliceSubmit_eq hoff hbooks hret]
        simp only [State.wait, hcall]
      rw [heq]
      refine ⟨⟨hbooks.off, hbooks.le_target, ?_⟩, ?_, ?_⟩
      · intro q hq count hcount
        rcases List.mem_cons.mp hq with rfl | hq
        · have hbound := nbytes_le_count hgo hcount
          have hoffs := hbooks.off
          simp only
          omega
        · exact hbooks.asked q hq count hcount
      · exact .waiting rfl hwait hcall hidle.quiet.registered (.flying hgo rfl hidle.out)
      · have := hreg s.ua.waitCompletion.registered
        simp only [effort, toGo, hwait.waiters, Option.isSome_some, List.length_singleton, if_true]
        omega
  · have heq : s.head cfg submitRet = s.finish (.returned s.total) := if_neg hgo
    rw [heq]
    refine ⟨⟨hbooks.off, hbooks.le_target, hbooks.asked⟩,
      .returned rfl ⟨hidle.quiet, hidle.inFlight, hidle.out⟩, ?_⟩
    have := hreg s.ua.registered
    simp only [effort, toGo, State.finish, hidle.inFlight, hidle.quiet.waiters,
      Option.isSome_none, List.length_nil, Bool.false_eq_true, if_false]
    omega

/-- The kernel answers, whatever it answers and whether or not somebody waits. -/
theorem splicing_complete (hbooks : Books cfg s) {ring : List (ℕ × ℤ)} {waiters : List ℕ}
    (hquiet : Quiet s.ua ring waiters) (hsplicing : Splicing cfg s ring) {res : ℤ}
    (ht : s.complete cfg res = some t) :
    ∃ ring', Quiet t.ua ring' waiters ∧ Splicing cfg t ring' ∧ t.phase = s.phase ∧
      t.ua.call = s.ua.call ∧ t.ua.registered = s.ua.registered ∧ t.total = s.total ∧
      t.off = s.off ∧ t.asked = s.asked ∧ s.inFlight.isSome ∧ t.inFlight = none := by
  cases hsplicing with
  | flying goesOn inFlight out =>
    have hoffs := hbooks.off
    simp only [State.complete, inFlight] at ht
    obtain ⟨⟨-, hle⟩, ht⟩ := Option.ite_none_right_eq_some.mp ht
    simp only [Int.toNat_natCast] at hle
    have hasked : res.toNat ≤ cfg.nbytes s.total := by omega
    have hthere : res.toNat ≤ cfg.available - s.total := by
      unfold Config.available
      omega
    obtain rfl := Option.some.inj ht
    refine ⟨[(cfg.userData, res)], hquiet.post (cfg.userData, res), ?_, rfl, rfl, rfl, rfl, rfl,
      rfl,
      by rw [inFlight]; rfl, rfl⟩
    refine .landed goesOn rfl hasked hthere ?_
    simp only [out, hoffs, slice_add, Int.toNat_natCast]
  | landed _ inFlight => exact absurd ht (by simp [State.complete, inFlight])

/-- What the kernel may move does not go behind the target. -/
theorem add_le_target {total k : ℕ} (hgo : cfg.GoesOn total) (hle : total ≤ cfg.target)
    (hasked : k ≤ cfg.nbytes total) (hthere : k ≤ cfg.available - total) :
    total + k ≤ cfg.target := by
  have havailable := target_le_available cfg
  cases hcount : cfg.count with
  | none =>
    simp only [Config.target, hcount] at hle ⊢
    omega
  | some count =>
    have hbound := nbytes_le_count hgo hcount
    simp only [Config.target, hcount] at hle ⊢
    omega

/-- What has come out of a splice is behind what the call counts, by a chunk at most, and not
behind the target. -/
theorem Splicing.bounds {ring : List (ℕ × ℤ)} (h : Splicing cfg s ring) (hbooks : Books cfg s) :
    ∃ k, s.out = cfg.content.slice (s.total + k) cfg.offset ∧ k ≤ cfg.nbytes s.total ∧
      s.total + k ≤ cfg.target := by
  have hle := hbooks.le_target
  cases h with
  | flying _ _ out => exact ⟨0, out, Nat.zero_le _, hle⟩
  | @landed res goesOn _ asked there out =>
    exact ⟨res.toNat, out, asked, add_le_target goesOn hle asked there⟩

theorem advances_start (hoff : cfg.offset < 2 ^ 63) (hbooks : Books cfg s)
    (hstation : Station cfg s) {submitRet : ℤ} (ht : step cfg s (.start submitRet) = some t) :
    Advances cfg s t := by
  obtain ⟨hphase, ht⟩ := Option.ite_none_right_eq_some.mp ht
  obtain rfl := Option.some.inj ht
  cases hstation with
  | created _ idle =>
    obtain ⟨hbooks', hstation, hle⟩ := head_station hoff hbooks idle submitRet
    refine ⟨hbooks', hstation, Nat.lt_of_le_of_lt hle ?_⟩
    simp only [effort, toGo, hphase]
    omega
  | waiting phase => exact absurd (hphase.symm.trans phase) (by simp)
  | woken phase => exact absurd (hphase.symm.trans phase) (by simp)
  | failed phase => exact absurd (hphase.symm.trans phase) (by simp)
  | returned phase => exact absurd (hphase.symm.trans phase) (by simp)
  | refused phase => exact absurd (hphase.symm.trans phase) (by simp)
  | abandoned phase => exact absurd (hphase.symm.trans phase) (by simp)

theorem advances_complete (hbooks : Books cfg s) (hstation : Station cfg s) {res : ℤ}
    (ht : step cfg s (.complete res) = some t) : Advances cfg s t := by
  -- nothing but the splice changes
  have hgo : ∀ {ring : List (ℕ × ℤ)} {waiters : List ℕ}, Quiet s.ua ring waiters →
      Splicing cfg s ring → (∀ ring', Quiet t.ua ring' waiters → Splicing cfg t ring' →
        t.phase = s.phase → t.ua.call = s.ua.call → t.ua.registered = s.ua.registered →
        Station cfg t) → Advances cfg s t := by
    intro ring waiters hquiet hsplicing hnext
    obtain ⟨ring', hquiet', hsplicing', hphase, hcall, hreg, htotal, hoffs, hasked, hsome, hnone⟩ :=
      splicing_complete hbooks hquiet hsplicing ht
    refine ⟨⟨by rw [hoffs, htotal]; exact hbooks.off, by rw [htotal]; exact hbooks.le_target,
      by rw [hasked]; exact hbooks.asked⟩, hnext ring' hquiet' hsplicing' hphase hcall hreg, ?_⟩
    simp only [effort, toGo, hphase, htotal, hquiet.waiters, hquiet'.waiters, hreg, hnone, hsome,
      Option.isSome_none, Bool.false_eq_true, if_false, if_true]
    omega
  cases hstation with
  | created _ idle => exact absurd ht (by simp [step, State.complete, idle.inFlight])
  | waiting phase quiet call registered splicing =>
    refine hgo quiet splicing fun ring' hquiet hsplicing hphase hcall hreg => ?_
    exact .waiting (hphase.trans phase) hquiet (by rw [hcall]; exact call) (hreg.trans registered)
      hsplicing
  | woken _ _ _ _ inFlight => exact absurd ht (by simp [step, State.complete, inFlight])
  | failed phase quiet call splicing =>
    refine hgo quiet splicing fun ring' hquiet hsplicing hphase hcall _ => ?_
    exact .failed (hphase.trans phase) hquiet (by rw [hcall]; exact call) hsplicing
  | returned _ idle => exact absurd ht (by simp [step, State.complete, idle.inFlight])
  | refused _ idle => exact absurd ht (by simp [step, State.complete, idle.inFlight])
  | abandoned phase quiet splicing =>
    refine hgo quiet splicing fun ring' hquiet hsplicing hphase _ _ => ?_
    exact .abandoned (hphase.trans phase) hquiet hsplicing

theorem Splicing.withUa {ring : List (ℕ × ℤ)} (h : Splicing cfg s ring)
    (ua : UringAsync.State (ℕ × ℤ)) : Splicing cfg { s with ua := ua } ring := by
  cases h with
  | flying goesOn inFlight out => exact .flying goesOn inFlight out
  | landed goesOn inFlight asked there out => exact .landed goesOn inFlight asked there out

/-- The reader hands a completion or an error to the call that waits, or finds that nobody
waits. -/
theorem advances_onReadable (hbooks : Books cfg s) (hstation : Station cfg s) {waitRet : ℤ}
    {peeks : Option ℕ} (ht : step cfg s (.onReadable waitRet peeks) = some t) :
    Advances cfg s t := by
  obtain ⟨ua, hua, rfl⟩ := Option.map_eq_some_iff.mp ht
  obtain ⟨hreg, hread⟩ := Option.ite_none_right_eq_some.mp hua
  have hbooks' : Books cfg { s with ua := ua } := ⟨hbooks.off, hbooks.le_target, hbooks.asked⟩
  have hidle : ∀ {ring : List (ℕ × ℤ)}, Quiet s.ua ring [] → (Quiet ua ring [] →
      ua.call = s.ua.call → Station cfg { s with ua := ua }) →
    Advances cfg s { s with ua := ua } := by
    intro ring hquiet hnext
    obtain ⟨-, hquiet', hcall, hreg'⟩ := onReadable_idle hquiet hua
    refine ⟨hbooks', hnext hquiet' hcall, ?_⟩
    simp only [effort, toGo, hquiet.waiters, hquiet'.waiters, hreg, hreg', Bool.false_eq_true,
      if_false, if_true]
    omega
  cases hstation with
  | created phase idle =>
    exact hidle idle.quiet fun hquiet _ => .created phase ⟨hquiet, idle.inFlight, idle.out⟩
  | @waiting w ring phase quiet call registered splicing =>
    have hlt : Quiet ua ring [] ∨ (∃ ring', Quiet ua ring' []) →
        effort cfg { s with ua := ua } < effort cfg s := by
      intro hor
      have hws : ua.waiters = [] := hor.elim (·.waiters) fun ⟨_, h⟩ => h.waiters
      have hle : (if ua.registered then 1 else 0) ≤ 1 := by cases ua.registered <;> simp
      simp only [effort, toGo, hws, quiet.waiters, hreg, if_true, List.length_nil,
        List.length_singleton]
      omega
    rcases lt_or_ge waitRet 0 with hneg | hpos
    · obtain ⟨hquiet, hcall⟩ := onReadable_fails quiet hneg hread
      rw [call] at hcall
      exact ⟨hbooks', .failed phase hquiet hcall (splicing.withUa ua), hlt (Or.inl hquiet)⟩
    · obtain ⟨c, cs, hring, hquiet, hcall⟩ := quiet.onReadable_waiter hpos hread
      rw [call] at hcall
      cases splicing with
      | flying => exact absurd hring (by simp)
      | landed goesOn inFlight asked there out =>
        obtain ⟨rfl, rfl⟩ := List.cons.inj hring
        exact ⟨hbooks', .woken phase hquiet hcall goesOn inFlight asked there out,
          hlt (Or.inr ⟨_, hquiet⟩)⟩
  | woken phase quiet call goesOn inFlight asked there out =>
    exact hidle quiet fun hquiet hcall =>
      .woken phase hquiet (by rw [hcall]; exact call) goesOn inFlight asked there out
  | failed phase quiet call splicing =>
    exact hidle quiet fun hquiet hcall =>
      .failed phase hquiet (by rw [hcall]; exact call) (splicing.withUa ua)
  | returned phase idle =>
    exact hidle idle.quiet fun hquiet _ => .returned phase ⟨hquiet, idle.inFlight, idle.out⟩
  | refused phase idle =>
    exact hidle idle.quiet fun hquiet _ => .refused phase ⟨hquiet, idle.inFlight, idle.out⟩
  | abandoned phase quiet splicing =>
    exact hidle quiet fun hquiet _ => .abandoned phase hquiet (splicing.withUa ua)

/-- The future of a wait that failed. -/
theorem resume_exception {ua ua' : UringAsync.State (ℕ × ℤ)} {ring : List (ℕ × ℤ)}
    {waiters : List ℕ} {w : ℕ} (h : Quiet ua ring waiters) {exc : UringError}
    (hc : ua.call w = .awaiting (.exception exc) false) (ht : ua.resume w = some ua') :
    Quiet ua' ring waiters ∧ ua'.call w = .raised exc ∧ ua'.registered = ua.registered := by
  unfold UringAsync.State.resume at ht
  simp only [hc, Option.some.injEq] at ht
  subst ht
  exact ⟨⟨h.closed, h.ctxOpen, h.ring, h.reaped, h.waiters, h.reader⟩, Function.update_self _ _ _,
    rfl⟩

theorem effort_finish {ua : UringAsync.State (ℕ × ℤ)} {w : ℕ} (hphase : s.phase = .awaiting w)
    (hws : ua.waiters = s.ua.waiters) (hreg : ua.registered = s.ua.registered) (o : Outcome) :
    effort cfg (({ s with ua := ua } : State).finish o) < effort cfg s := by
  have hlt : toGo (({ s with ua := ua } : State).finish o) < toGo s := by
    unfold toGo State.finish
    rw [hphase, hws, hreg]
    simp only [Nat.zero_add, Nat.add_assoc]
    exact Nat.lt_add_of_pos_left Nat.one_pos
  exact Nat.add_lt_add_left hlt _

/-- The call takes its completion and goes round the loop, or ends. -/
theorem advances_resume (hoff : cfg.offset < 2 ^ 63) (hbooks : Books cfg s)
    (hstation : Station cfg s) {submitRet : ℤ} (ht : step cfg s (.resume submitRet) = some t) :
    Advances cfg s t := by
  cases hstation with
  | created phase => exact absurd ht (by simp [step, phase])
  | waiting phase _ call =>
    exact absurd ht (by simp [step, phase, UringAsync.State.resume, call])
  | returned phase => exact absurd ht (by simp [step, phase])
  | refused phase => exact absurd ht (by simp [step, phase])
  | abandoned phase => exact absurd ht (by simp [step, phase])
  | @failed w ring errno phase quiet call splicing =>
    simp only [step, phase] at ht
    rw [← phase] at ht
    obtain ⟨ua, hua, rfl⟩ := Option.map_eq_some_iff.mp ht
    obtain ⟨hquiet, hcall, hreg⟩ := resume_exception quiet call hua
    have heq : ({ s with ua := ua } : State).resumed cfg w submitRet =
        ({ s with ua := ua } : State).finish
          (.raised ⟨errno, "uring_wait_completion", none⟩) := by
      simp [State.resumed, hcall]
    rw [heq]
    refine ⟨⟨hbooks.off, hbooks.le_target, hbooks.asked⟩, .abandoned rfl hquiet ?_, ?_⟩
    · cases splicing with
      | flying goesOn inFlight out => exact .flying goesOn inFlight out
      | landed goesOn inFlight asked there out => exact .landed goesOn inFlight asked there out
    · exact effort_finish phase (hquiet.waiters.trans quiet.waiters.symm) hreg _
  | @woken w n res phase quiet call goesOn inFlight asked there out =>
    simp only [step, phase] at ht
    rw [← phase] at ht
    obtain ⟨ua, hua, rfl⟩ := Option.map_eq_some_iff.mp ht
    obtain ⟨hquiet, hcall⟩ := quiet.resume_result call hua
    rcases lt_or_ge 0 res with hpos | hneg
    · -- more bytes have come out
      have htarget := add_le_target goesOn hbooks.le_target asked there
      have heq : ({ s with ua := ua } : State).resumed cfg w submitRet = ({ s with
          ua := ua, total := s.total + res.toNat, off := s.off + res.toNat } : State).head cfg
            submitRet := by
        simp [State.resumed, hcall, Int.not_le.mpr hpos]
      rw [heq]
      have hbooks' : Books cfg { s with
          ua := ua, total := s.total + res.toNat, off := s.off + res.toNat } := by
        refine ⟨?_, htarget, hbooks.asked⟩
        have hoffs := hbooks.off
        simp only
        omega
      obtain ⟨hbooks'', hstation, hle⟩ :=
        head_station hoff hbooks' ⟨hquiet, inFlight, out⟩ submitRet
      refine ⟨hbooks'', hstation, Nat.lt_of_le_of_lt hle ?_⟩
      simp only [effort]
      omega
    · have heq : ({ s with ua := ua } : State).resumed cfg w submitRet =
          ({ s with ua := ua } : State).finish (.returned s.total) := by
        simp [State.resumed, hcall, hneg]
      have hzero : res.toNat = 0 := Int.toNat_of_nonpos hneg
      rw [heq]
      refine ⟨⟨hbooks.off, hbooks.le_target, hbooks.asked⟩,
        .returned rfl ⟨hquiet, inFlight, ?_⟩, ?_⟩
      · rw [hzero, Nat.add_zero] at out
        exact out
      · have hreg : ua.registered = s.ua.registered := by
          unfold UringAsync.State.resume at hua
          simp only [call, Option.some.injEq] at hua
          rw [← hua]
        exact effort_finish phase (hquiet.waiters.trans quiet.waiters.symm) hreg _

/-- **One step**, whatever is answered. -/
theorem advances_step (hoff : cfg.offset < 2 ^ 63) (hbooks : Books cfg s)
    (hstation : Station cfg s) {e : Event} (ht : step cfg s e = some t) : Advances cfg s t := by
  cases e with
  | start submitRet => exact advances_start hoff hbooks hstation ht
  | complete res => exact advances_complete hbooks hstation ht
  | onReadable waitRet peeks => exact advances_onReadable hbooks hstation ht
  | resume submitRet => exact advances_resume hoff hbooks hstation ht

/-- A call that has not ended goes on. -/
theorem moves_of_station (hstation : Station cfg s) (hs : ¬ Ended s) :
    ∃ e t, AnyStep s e ∧ step cfg s e = some t := by
  have hresume : ∀ {w : ℕ} {fut : UringAsync.Fut (ℕ × ℤ)}, s.phase = .awaiting w →
      s.ua.call w = .awaiting fut false → fut ≠ .pending →
      ∃ e t, AnyStep s e ∧ step cfg s e = some t := by
    intro w fut phase call hfut
    obtain ⟨t, ht⟩ : ∃ t, step cfg s (.resume 0) = some t := by
      simp only [step, phase, UringAsync.State.resume, call]
      cases fut with
      | pending => exact absurd rfl hfut
      | result n c => exact ⟨_, rfl⟩
      | exception exc => exact ⟨_, rfl⟩
      | cancelled => exact ⟨_, rfl⟩
    exact ⟨.resume 0, t, trivial, ht⟩
  cases hstation with
  | created phase => exact ⟨.start 0, _, trivial, if_pos phase⟩
  | waiting phase quiet call registered splicing =>
    cases splicing with
    | flying goesOn inFlight out =>
      obtain ⟨t, ht⟩ : ∃ t, step cfg s (.complete (-5)) = some t := by
        simp only [step, State.complete, inFlight]
        rw [if_pos ⟨by omega, by omega⟩]
        exact ⟨_, rfl⟩
      exact ⟨.complete (-5), t, trivial, ht⟩
    | landed =>
      obtain ⟨ua, hua⟩ := quiet.exists_onReadable
      refine ⟨.onReadable 0 none, { s with ua := ua }, trivial, ?_⟩
      simp only [step, UringAsync.step, registered, if_true, hua, Option.map_some]
  | woken phase _ call => exact hresume phase call (by simp)
  | failed phase _ call => exact hresume phase call (by simp)
  | returned phase => exact absurd ⟨_, phase⟩ hs
  | refused phase => exact absurd ⟨_, phase⟩ hs
  | abandoned phase => exact absurd ⟨_, phase⟩ hs

/-! ## Runs -/

/-- What came out when the call ended: as much as it returns, and when it raises as much as it
had counted, and after a wait that failed one more splice at most. -/
def Accounts (cfg : Config) (s : State) : Outcome → Prop
  | .returned total => s.out.length = total ∧ s.inFlight = none ∧ Quiet s.ua [] []
  | .raised exc =>
    exc.operation = "uring_splice_submit" ∧ s.out.length = s.total ∧ s.inFlight = none ∧
      Quiet s.ua [] [] ∨
    exc.operation = "uring_wait_completion" ∧ s.total ≤ s.out.length ∧
      s.out.length ≤ s.total + cfg.nbytes s.total
  | .cancelled => False

/-- The call ends, what comes out is the file from the offset on and stops at the end of the file
and at the count, no splice asks for a byte behind the count, and the call accounts for what came
out. -/
structure Stops (cfg : Config) (ua : UringAsync.State (ℕ × ℤ)) : Prop where
  terminates : Terminates (step cfg) AnyStep Ended (start cfg ua)
  delivers : ∀ s, Reach (step cfg) AnyStep (start cfg ua) s →
    s.out = cfg.content.slice s.out.length cfg.offset ∧ s.out.length ≤ cfg.target
  asks : ∀ s, Reach (step cfg) AnyStep (start cfg ua) s → ∀ q ∈ s.asked, ∀ count ∈ cfg.count,
    q.offIn + q.len ≤ cfg.offset + count
  accounts : ∀ s o, Reach (step cfg) AnyStep (start cfg ua) s → s.phase = .ended o →
    Accounts cfg s o

theorem length_of_slice {k : ℕ} (hk : k ≤ cfg.target) (h : s.out = cfg.content.slice k cfg.offset) :
    s.out.length = k := by
  have havailable := target_le_available cfg
  unfold Config.available at havailable
  rw [h, Native.ReadBlocks.length_slice]
  omega

theorem station_reach (hoff : cfg.offset < 2 ^ 63) {ua : UringAsync.State (ℕ × ℤ)}
    (hquiet : Quiet ua [] []) (h : Reach (step cfg) AnyStep (start cfg ua) s) :
    Books cfg s ∧ Station cfg s := by
  refine h.invariant (I := fun s => Books cfg s ∧ Station cfg s)
    ⟨books_start cfg ua, .created rfl ⟨hquiet, rfl, rfl⟩⟩ fun u e v hI _ hv => ?_
  have hadvances := advances_step hoff hI.1 hI.2 hv
  exact ⟨hadvances.books, hadvances.station⟩

/-- What has come out at a station. -/
theorem Station.delivered (h : Station cfg s) (hbooks : Books cfg s) :
    ∃ k ≤ cfg.target, s.out = cfg.content.slice k cfg.offset := by
  have hle := hbooks.le_target
  cases h with
  | created _ idle => exact ⟨_, hle, idle.out⟩
  | waiting _ _ _ _ splicing =>
    obtain ⟨k, hout, -, hk⟩ := splicing.bounds hbooks
    exact ⟨_, hk, hout⟩
  | woken _ _ _ goesOn _ asked there out => exact ⟨_, add_le_target goesOn hle asked there, out⟩
  | failed _ _ _ splicing =>
    obtain ⟨k, hout, -, hk⟩ := splicing.bounds hbooks
    exact ⟨_, hk, hout⟩
  | returned _ idle => exact ⟨_, hle, idle.out⟩
  | refused _ idle => exact ⟨_, hle, idle.out⟩
  | abandoned _ _ splicing =>
    obtain ⟨k, hout, -, hk⟩ := splicing.bounds hbooks
    exact ⟨_, hk, hout⟩

theorem Station.accounts (h : Station cfg s) (hbooks : Books cfg s) {o : Outcome}
    (ho : s.phase = .ended o) : Accounts cfg s o := by
  have hle := hbooks.le_target
  cases h with
  | created phase => exact absurd (ho.symm.trans phase) (by simp)
  | waiting phase => exact absurd (ho.symm.trans phase) (by simp)
  | woken phase => exact absurd (ho.symm.trans phase) (by simp)
  | failed phase => exact absurd (ho.symm.trans phase) (by simp)
  | returned phase idle =>
    obtain rfl := Phase.ended.inj (ho.symm.trans phase)
    exact ⟨length_of_slice hle idle.out, idle.inFlight, idle.quiet⟩
  | refused phase idle =>
    obtain rfl := Phase.ended.inj (ho.symm.trans phase)
    exact Or.inl ⟨rfl, length_of_slice hle idle.out, idle.inFlight, idle.quiet⟩
  | abandoned phase quiet splicing =>
    obtain rfl := Phase.ended.inj (ho.symm.trans phase)
    obtain ⟨k, hout, hk, htarget⟩ := splicing.bounds hbooks
    have hlen := length_of_slice htarget hout
    exact Or.inr ⟨rfl, by omega, by omega⟩

/-- **A splice loop stops and accounts for what it did**, whatever fails and whatever the kernel
answers, from any offset that the entry can hold. -/
theorem stops_of_lt (cfg : Config) {ua : UringAsync.State (ℕ × ℤ)} (hquiet : Quiet ua [] [])
    (hoff : cfg.offset < 2 ^ 63) : Stops cfg ua where
  terminates := by
    refine terminates_of_measure (I := fun s => Books cfg s ∧ Station cfg s) (effort cfg)
      ⟨books_start cfg ua, .created rfl ⟨hquiet, rfl, rfl⟩⟩ ?_ ?_ ?_
    · intro u e v hI _ hv
      have hadvances := advances_step hoff hI.1 hI.2 hv
      exact ⟨hadvances.books, hadvances.station⟩
    · exact fun u e v hI _ hv => (advances_step hoff hI.1 hI.2 hv).effort_lt
    · exact fun u hI hu => moves_of_station hI.2 hu
  delivers s h := by
    obtain ⟨hbooks, hstation⟩ := station_reach hoff hquiet h
    obtain ⟨k, hk, hout⟩ := hstation.delivered hbooks
    have hlen := length_of_slice hk hout
    exact ⟨by rw [hlen, hout], hlen ▸ hk⟩
  asks s h := (station_reach hoff hquiet h).1.asked
  accounts s o h ho := by
    obtain ⟨hbooks, hstation⟩ := station_reach hoff hquiet h
    exact hstation.accounts hbooks ho

/-- A splice ends with an error after one byte has been moved, and the call returns one. -/
theorem stops_of_lt_fourBytes : Stops fourBytes .init ∧
    (exec (step fourBytes) (start fourBytes .init)
      [.start 0, .complete 1, .onReadable 0 none, .resume 0, .complete (-5), .onReadable 0 none,
        .resume 0]).map (fun s => (s.phase, s.out)) = some (.ended (.returned 1), [8]) :=
  ⟨stops_of_lt fourBytes quiet_init (by decide), rfl⟩

end SendfileSplice
end Pyuring
