import Pyuring.AsyncFileSerial

/-!
# Cancellation

A call that is cancelled while it waits leaves its request with the kernel.  The
completion comes later, to a ring that the next call waits on, and the position does
not count what an abandoned write has written.  So what cancellation must not disturb
is this (`Survives`): whoever is handed a completion is handed that of its own
request, and the offset of every request is the start plus all that was read and
written before it.

The trace has both sides: the kernel's, in `performed`, and the calls', in `got`.
-/

namespace Pyuring
namespace AsyncFile

open Trace

/-- By how much an entry moves the cursor: a write moves it when the kernel carries it
out, a read when its call is handed the completion. -/
def Ev.moved : Ev → ℕ
  | .performed ⟨_, .write _, _⟩ res => res.toNat
  | .got _ ⟨_, .read _, _⟩ _ res => res.toNat
  | _ => 0

/-- Where the cursor is after a trace. -/
def cursor (start : ℕ) : List Ev → ℕ
  | [] => start
  | e :: log => cursor start log + e.moved

/-- Completions go to the calls that submitted the requests, and every request is made
at the cursor. -/
structure Kept (start : ℕ) (log : List Ev) : Prop where
  own : ∀ u req gotUd res, .got u req gotUd res ∈ log →
    gotUd = req.ud ∧ .submitted u req ∈ log ∧ .performed req res ∈ log
  matching : ∀ u io ud gotUd, .returned u (.error (mismatch io ud gotUd)) ∉ log
  tags : ∀ newer u req older, log = newer ++ .submitted u req :: older →
    ∀ v req', .submitted v req' ∈ older → req'.ud < req.ud
  offset : ∀ newer u req older, log = newer ++ .submitted u req :: older →
    req.off = cursor start older

/-- The file is not out of step with its calls. -/
structure Survives (start : ℕ) (s : State) : Prop where
  kept : Kept start s.log
  pos : s.lock = none → s.pos = cursor start s.log

/-- What the kernel has written for the call past the lock, and the position does not
count yet. -/
def ahead : Option Busy → ℕ
  | some ⟨_, _, ⟨_, .write _, _⟩, _, .posted res, _⟩ => res.toNat
  | some ⟨_, _, ⟨_, .write _, _⟩, _, .taken res, _⟩ => res.toNat
  | _ => 0

/-- The trace is in step with the request that is under way. -/
structure Tracked (start : ℕ) (s : State) (p : Option Busy) : Prop where
  kept : Kept start s.log
  pos : s.pos + ahead p = cursor start s.log
  tags : ∀ v req, .submitted v req ∈ s.log → req.ud < s.ud
  used : ∀ req res, .performed req res ∈ s.log → req.ud < s.ud
  submitted : ∀ b, p = some b → .submitted b.t b.req ∈ s.log
  performed : ∀ b res, p = some b →
    (b.stage = .posted res ∨ b.stage = .taken res ↔ .performed b.req res ∈ s.log)

variable {start : ℕ} {log : List Ev} {s t : State} {p q : Option Busy} {u : ℕ} {flags : Flags}

/-! ## One more entry -/

theorem eq_cons_of_split {e : Ev} {log newer older : List Ev} {u : ℕ} {req : Request}
    (he : e ≠ .submitted u req) (h : e :: log = newer ++ .submitted u req :: older) :
    ∃ newer', log = newer' ++ .submitted u req :: older := by
  cases newer with
  | nil => exact absurd (List.cons.inj h).1 he
  | cons d newer' => exact ⟨newer', (List.cons.inj h).2⟩

/-- An entry that is neither a submission nor a completion handed out. -/
theorem Kept.cons (h : Kept start log) {e : Ev} (hsubmitted : ∀ u req, e ≠ .submitted u req)
    (hgot : ∀ u req gotUd res, e ≠ .got u req gotUd res)
    (hreturned : ∀ u io ud gotUd, e ≠ .returned u (.error (mismatch io ud gotUd))) :
    Kept start (e :: log) where
  own u req gotUd res hmem := by
    obtain ⟨htag, hsub, hper⟩ := h.own u req gotUd res
      ((List.mem_cons.mp hmem).resolve_left fun heq => hgot u req gotUd res heq.symm)
    exact ⟨htag, List.mem_cons_of_mem _ hsub, List.mem_cons_of_mem _ hper⟩
  matching u io ud gotUd hmem := h.matching u io ud gotUd
    ((List.mem_cons.mp hmem).resolve_left fun heq => hreturned u io ud gotUd heq.symm)
  tags newer u req older heq := by
    obtain ⟨newer', hlog⟩ := eq_cons_of_split (hsubmitted u req) heq
    exact h.tags newer' u req older hlog
  offset newer u req older heq := by
    obtain ⟨newer', hlog⟩ := eq_cons_of_split (hsubmitted u req) heq
    exact h.offset newer' u req older hlog

theorem Kept.returned (h : Kept start log) (u : ℕ) {o : Outcome}
    (ho : ∀ io ud gotUd, o ≠ .error (mismatch io ud gotUd)) :
    Kept start (.returned u o :: log) :=
  h.cons (by simp) (by simp) fun v io ud gotUd heq => ho io ud gotUd (Ev.returned.inj heq).2

/-- A call is handed the completion of its request. -/
theorem Kept.got (h : Kept start log) {u : ℕ} {req : Request} {res : ℤ}
    (hsub : .submitted u req ∈ log) (hper : .performed req res ∈ log) :
    Kept start (.got u req req.ud res :: log) where
  own v req' gotUd res' hmem := by
    rcases List.mem_cons.mp hmem with heq | hmem
    · obtain ⟨rfl, rfl, rfl, rfl⟩ := Ev.got.inj heq
      exact ⟨rfl, List.mem_cons_of_mem _ hsub, List.mem_cons_of_mem _ hper⟩
    · obtain ⟨htag, hsub', hper'⟩ := h.own v req' gotUd res' hmem
      exact ⟨htag, List.mem_cons_of_mem _ hsub', List.mem_cons_of_mem _ hper'⟩
  matching v io ud gotUd hmem := h.matching v io ud gotUd
    ((List.mem_cons.mp hmem).resolve_left (by simp))
  tags newer v req' older heq := by
    obtain ⟨newer', hlog⟩ := eq_cons_of_split (by simp) heq
    exact h.tags newer' v req' older hlog
  offset newer v req' older heq := by
    obtain ⟨newer', hlog⟩ := eq_cons_of_split (by simp) heq
    exact h.offset newer' v req' older hlog

/-- A request with a fresh tag is submitted at the cursor. -/
theorem Kept.submitted (h : Kept start log) (u : ℕ) {req : Request}
    (hoff : req.off = cursor start log)
    (htags : ∀ v req', .submitted v req' ∈ log → req'.ud < req.ud) :
    Kept start (.submitted u req :: log) where
  own v req' gotUd res hmem := by
    obtain ⟨htag, hsub, hper⟩ := h.own v req' gotUd res
      ((List.mem_cons.mp hmem).resolve_left (by simp))
    exact ⟨htag, List.mem_cons_of_mem _ hsub, List.mem_cons_of_mem _ hper⟩
  matching v io ud gotUd hmem := h.matching v io ud gotUd
    ((List.mem_cons.mp hmem).resolve_left (by simp))
  tags newer v req' older heq := by
    cases newer with
    | nil =>
      obtain ⟨hev, hlog⟩ := List.cons.inj heq
      obtain ⟨-, rfl⟩ := Ev.submitted.inj hev
      exact hlog ▸ htags
    | cons d newer' => exact h.tags newer' v req' older (List.cons.inj heq).2
  offset newer v req' older heq := by
    cases newer with
    | nil =>
      obtain ⟨hev, hlog⟩ := List.cons.inj heq
      obtain ⟨-, rfl⟩ := Ev.submitted.inj hev
      exact hlog ▸ hoff
    | cons d newer' => exact h.offset newer' v req' older (List.cons.inj heq).2

/-! ## One more step -/

theorem core_eq (h : t.core = s.core) : t.pos = s.pos ∧ t.ud = s.ud ∧ t.log = s.log :=
  ⟨congrArg Core.pos h, congrArg Core.ud h, congrArg Core.log h⟩

/-- An entry that does not concern the request under way. -/
theorem Tracked.cons (h : Tracked start s p) {e : Ev} (hlog : t.log = e :: s.log)
    (hpos : t.pos = s.pos) (hud : t.ud = s.ud) (hkept : Kept start (e :: s.log))
    (hmoved : e.moved = 0) (hsubmitted : ∀ u req, e ≠ .submitted u req)
    (hperformed : ∀ req res, e ≠ .performed req res) : Tracked start t p where
  kept := hlog ▸ hkept
  pos := by rw [hlog, cursor, hmoved, hpos]; exact h.pos
  tags v req hmem := by
    rw [hlog] at hmem
    rw [hud]
    exact h.tags v req ((List.mem_cons.mp hmem).resolve_left fun heq => hsubmitted v req heq.symm)
  used req res hmem := by
    rw [hlog] at hmem
    rw [hud]
    exact h.used req res
      ((List.mem_cons.mp hmem).resolve_left fun heq => hperformed req res heq.symm)
  submitted b hb := hlog ▸ List.mem_cons_of_mem _ (h.submitted b hb)
  performed b res hb := by
    rw [h.performed b res hb, hlog, List.mem_cons]
    exact ⟨Or.inr, fun hmem => hmem.resolve_left fun heq => hperformed _ _ heq.symm⟩

/-- The call past the lock returns. -/
theorem Tracked.release (h : Tracked start s p) (hahead : ahead p = 0) : Tracked start s none where
  kept := h.kept
  pos := by
    have := h.pos
    rw [hahead] at this
    exact this
  tags := h.tags
  used := h.used
  submitted := by simp
  performed := by simp

theorem Op.early_ne_mismatch {op : Op} {closed : Bool} {o : Outcome}
    (h : op.early closed = some o) (io : Io) (ud gotUd : ℕ) :
    o ≠ .error (mismatch io ud gotUd) := by
  cases op with
  | read n =>
    simp only [Op.early] at h
    split_ifs at h <;> rw [← Option.some.inj h] <;> simp [mismatch]
  | write data =>
    simp only [Op.early] at h
    split_ifs at h <;> rw [← Option.some.inj h] <;> simp [mismatch]
  | aclose =>
    simp only [Op.early] at h
    split_ifs at h
    rw [← Option.some.inj h]
    simp

theorem Tracked.call (h : Tracked start s p) (op : Op) : Tracked start (s.call op) p := by
  unfold State.call
  simp only
  split
  · next o hearly =>
    have hreturned := Op.early_ne_mismatch hearly
    exact h.cons rfl rfl rfl (h.kept.returned _ hreturned) rfl (by simp) (by simp)
  · exact ⟨h.kept, h.pos, h.tags, h.used, h.submitted, h.performed⟩

/-- The kernel carries out the request that is under way. -/
theorem Tracked.perform (h : Tracked start s p) {w : ℕ} {io : Io} {req : Request} {c : Bool}
    {res : ℤ} (hp : p = some ⟨u, io, req, w, .inFlight, c⟩)
    (hlog : t.log = .performed req res :: s.log) (hpos : t.pos = s.pos) (hud : t.ud = s.ud) :
    Tracked start t (some ⟨u, io, req, w, .posted res, c⟩) where
  kept := by
    rw [hlog]
    exact h.kept.cons (by simp) (by simp) (by simp)
  pos := by
    have hold := h.pos
    subst hp
    rw [hlog, hpos, cursor, ← hold]
    obtain ⟨ud, op, off⟩ := req
    cases op <;> simp [ahead, Ev.moved]
  tags v req' hmem := by
    rw [hlog] at hmem
    rw [hud]
    exact h.tags v req' ((List.mem_cons.mp hmem).resolve_left (by simp))
  used req' res' hmem := by
    rw [hlog] at hmem
    rw [hud]
    rcases List.mem_cons.mp hmem with heq | hmem
    · rw [(Ev.performed.inj heq).1]
      exact h.tags u req (h.submitted _ hp)
    · exact h.used req' res' hmem
  submitted b hb := by
    have hsub := h.submitted _ hp
    obtain rfl := Option.some.inj hb
    rw [hlog]
    exact List.mem_cons_of_mem _ hsub
  performed b res' hb := by
    have hnot : .performed req res' ∉ s.log := fun hmem => by
      rcases (h.performed _ res' hp).mpr hmem with hstage | hstage <;>
        exact absurd hstage (by simp)
    obtain rfl := Option.some.inj hb
    rw [hlog, List.mem_cons, or_iff_left hnot]
    simp only [Stage.posted.injEq, reduceCtorEq, or_false, Ev.performed.injEq, true_and]
    exact eq_comm

/-- A stage further on, or cancelled: the same request and the same bytes. -/
theorem Tracked.relabel (h : Tracked start s p) (hcore : t.core = s.core)
    (hahead : ahead q = ahead p)
    (hb : ∀ b, q = some b → ∃ b', p = some b' ∧ b'.t = b.t ∧ b'.req = b.req ∧
      ∀ res, (b.stage = .posted res ∨ b.stage = .taken res ↔
        b'.stage = .posted res ∨ b'.stage = .taken res)) : Tracked start t q := by
  obtain ⟨hpos, hud, hlog⟩ := core_eq hcore
  refine ⟨hlog ▸ h.kept, by rw [hpos, hlog, hahead]; exact h.pos, by rw [hlog, hud]; exact h.tags,
    by rw [hlog, hud]; exact h.used, fun b hq => ?_, fun b res hq => ?_⟩
  · obtain ⟨b', hp, ht, hreq, -⟩ := hb b hq
    rw [hlog, ← ht, ← hreq]
    exact h.submitted b' hp
  · obtain ⟨b', hp, -, hreq, hstage⟩ := hb b hq
    rw [hlog, ← hreq, hstage res]
    exact h.performed b' res hp

/-- A call is handed its completion, and moves the position by its result. -/
theorem Tracked.got (h : Tracked start s p) {w : ℕ} {io : Io} {req : Request} {c : Bool} {res : ℤ}
    (hp : p = some ⟨u, io, req, w, .taken res, c⟩) {log : List Ev}
    (hlog : log = .got u req req.ud res :: s.log) :
    Kept start log ∧ s.pos + res.toNat = cursor start log ∧
      (∀ v req', .submitted v req' ∈ log → req'.ud < s.ud) ∧
      ∀ req' res', .performed req' res' ∈ log → req'.ud < s.ud := by
  subst hlog
  refine ⟨h.kept.got (h.submitted _ hp) ((h.performed _ res hp).mp (Or.inr rfl)), ?_,
    fun v req' hmem => h.tags v req' ((List.mem_cons.mp hmem).resolve_left (by simp)),
    fun req' res' hmem => h.used req' res' ((List.mem_cons.mp hmem).resolve_left (by simp))⟩
  have hold := h.pos
  subst hp
  rw [cursor, ← hold]
  obtain ⟨ud, op, off⟩ := req
  cases op <;> simp [ahead, Ev.moved]

/-- A call that was handed its completion returns. -/
theorem Tracked.gotReturned (h : Tracked start s p) {w : ℕ} {io : Io} {req : Request} {c : Bool}
    {res : ℤ} (hp : p = some ⟨u, io, req, w, .taken res, c⟩) {o : Outcome}
    (ho : ∀ io ud gotUd, o ≠ .error (mismatch io ud gotUd))
    (hlog : t.log = .returned u o :: .got u req req.ud res :: s.log)
    (hpos : t.pos = s.pos + res.toNat) (hud : t.ud = s.ud) : Tracked start t none := by
  obtain ⟨hkept, hcursor, htags, hused⟩ := h.got hp rfl
  refine ⟨by rw [hlog]; exact hkept.returned u ho, ?_, fun v req' hmem => ?_,
    fun req' res' hmem => ?_, by simp, by simp⟩
  · rw [hlog, hpos, hcursor]
    rfl
  · rw [hlog] at hmem
    rw [hud]
    exact htags v req' ((List.mem_cons.mp hmem).resolve_left (by simp))
  · rw [hlog] at hmem
    rw [hud]
    exact hused req' res' ((List.mem_cons.mp hmem).resolve_left (by simp))

/-- A call submits a request with the next tag at the position. -/
theorem tracked_submitted {pos ud : ℕ} {io : Io} {w : ℕ} (hkept : Kept start log)
    (hpos : pos = cursor start log) (htags : ∀ v req, .submitted v req ∈ log → req.ud < ud)
    (hused : ∀ req res, .performed req res ∈ log → req.ud < ud)
    (hlog : t.log = .submitted u ⟨ud, io.reqOp, pos⟩ :: log) (htpos : t.pos = pos)
    (htud : t.ud = ud + 1) :
    Tracked start t (some ⟨u, io, ⟨ud, io.reqOp, pos⟩, w, .inFlight, false⟩) where
  kept := by
    rw [hlog]
    exact hkept.submitted u hpos htags
  pos := by
    rw [hlog, htpos, hpos]
    cases io <;> rfl
  tags v req hmem := by
    rw [hlog] at hmem
    rw [htud]
    rcases List.mem_cons.mp hmem with heq | hmem
    · rw [(Ev.submitted.inj heq).2]
      exact Nat.lt_succ_self ud
    · exact Nat.lt_succ_of_lt (htags v req hmem)
  used req res hmem := by
    rw [hlog] at hmem
    rw [htud]
    exact Nat.lt_succ_of_lt (hused req res ((List.mem_cons.mp hmem).resolve_left (by simp)))
  submitted b hb := by
    obtain rfl := Option.some.inj hb
    rw [hlog]
    exact List.mem_cons_self
  performed b res hb := by
    obtain rfl := Option.some.inj hb
    refine iff_of_false (by simp) fun hmem => ?_
    rw [hlog] at hmem
    exact absurd (hused _ res ((List.mem_cons.mp hmem).resolve_left (by simp))) (Nat.lt_irrefl ud)

theorem tracked_step (h : Tracked start s p) {e : Event} (hmove : Move flags s t e p q) :
    Tracked start t q := by
  cases hmove with
  | call ht =>
    subst ht
    exact h.call _
  | unlocked _ hcore =>
    exact h.cons (congrArg Core.log hcore) (congrArg Core.pos hcore) (congrArg Core.ud hcore)
      (h.kept.returned _ (by simp [mismatch])) rfl (by simp) (by simp)
  | @nothing u r _ _ hcore =>
    have hlocked : Kept start (.locked u :: s.log) := h.kept.cons (by simp) (by simp) (by simp)
    refine ⟨?_, ?_, fun v req hmem => ?_, fun req res hmem => ?_, by simp, by simp⟩
    · rw [show t.log = _ from congrArg Core.log hcore]
      exact hlocked.returned _ (by simp)
    · rw [show t.log = _ from congrArg Core.log hcore,
        show t.pos = s.pos from congrArg Core.pos hcore]
      exact h.pos
    · rw [show t.log = _ from congrArg Core.log hcore] at hmem
      rw [show t.ud = s.ud from congrArg Core.ud hcore]
      simp only [List.mem_cons, reduceCtorEq, false_or] at hmem
      exact h.tags v req hmem
    · rw [show t.log = _ from congrArg Core.log hcore] at hmem
      rw [show t.ud = s.ud from congrArg Core.ud hcore]
      simp only [List.mem_cons, reduceCtorEq, false_or] at hmem
      exact h.used req res hmem
  | @start u w r io _ _ hcore =>
    have hlocked : Kept start (.locked u :: s.log) := h.kept.cons (by simp) (by simp) (by simp)
    refine tracked_submitted hlocked h.pos (fun v req hmem => h.tags v req ?_)
      (fun req res hmem => h.used req res ?_) (congrArg Core.log hcore) (congrArg Core.pos hcore)
      (congrArg Core.ud hcore)
    · exact (List.mem_cons.mp hmem).resolve_left (by simp)
    · exact (List.mem_cons.mp hmem).resolve_left (by simp)
  | perform _ _ hcore =>
    exact h.perform rfl (congrArg Core.log hcore) (congrArg Core.pos hcore)
      (congrArg Core.ud hcore)
  | @take u w io req c res _ _ hcore =>
    refine h.relabel hcore ?_ fun b hb => ?_
    · obtain ⟨ud, op, off⟩ := req
      cases op <;> rfl
    · obtain rfl := Option.some.inj hb
      exact ⟨_, rfl, rfl, rfl, fun res' => by simp⟩
  | idle hcore => exact h.relabel hcore rfl fun b hb => ⟨b, hb, rfl, rfl, fun _ => Iff.rfl⟩
  | @cancel u w io req stage c hcore =>
    refine h.relabel hcore ?_ fun b hb => ?_
    · obtain ⟨ud, op, off⟩ := req
      cases op <;> cases stage <;> rfl
    · obtain rfl := Option.some.inj hb
      exact ⟨_, rfl, rfl, rfl, fun _ => Iff.rfl⟩
  | fail hres hcore =>
    refine h.gotReturned rfl (by simp [mismatch]) (congrArg Core.log hcore) ?_
      (congrArg Core.ud hcore)
    rw [Int.toNat_of_nonpos (Int.le_of_lt hres)]
    exact congrArg Core.pos hcore
  | wrote _ hcore =>
    exact h.gotReturned rfl (by simp) (congrArg Core.log hcore) (congrArg Core.pos hcore)
      (congrArg Core.ud hcore)
  | last _ _ hcore =>
    exact h.gotReturned rfl (by simp) (congrArg Core.log hcore) (congrArg Core.pos hcore)
      (congrArg Core.ud hcore)
  | next _ _ hcore =>
    obtain ⟨hkept, hcursor, htags, hused⟩ := h.got rfl rfl
    exact tracked_submitted hkept hcursor htags hused (congrArg Core.log hcore)
      (congrArg Core.pos hcore) (congrArg Core.ud hcore)
  | @abandon u w io req res r hconsumed hcore =>
    -- what is left behind has written nothing
    have hahead : ahead (some ⟨u, io, req, w, .taken res, true⟩) = 0 := by
      have hper := (h.performed _ res rfl).mp (Or.inr rfl)
      obtain ⟨ud, op, off⟩ := req
      cases op with
      | read len => rfl
      | write data => exact Int.toNat_of_nonpos (hconsumed.wrote data res rfl hper)
    exact (h.release hahead).cons (congrArg Core.log hcore) (congrArg Core.pos hcore)
      (congrArg Core.ud hcore) (h.kept.returned _ (by simp [mismatch])) rfl (by simp) (by simp)

theorem tracked_aenter (flags : Flags) (content : List UInt8) :
    Tracked (aenter flags true content).pos (aenter flags true content) none where
  kept := ⟨by simp [aenter], by simp [aenter], by simp [aenter], by simp [aenter]⟩
  pos := rfl
  tags := by simp [aenter]
  used := by simp [aenter]
  submitted := by simp
  performed := by simp

theorem Tracked.survives (h : Tracked start s p) (hserial : Serial s p) : Survives start s where
  kept := h.kept
  pos hlock := by
    obtain rfl : p = none := Option.map_eq_none_iff.mp (hserial.lock.symm.trans hlock)
    exact h.pos

/-- Runs in which every cancelled call leaves its request done with. -/
theorem tracked_reach {content : List UInt8}
    (h : Reach (step flags) Undisturbed (aenter flags true content) s) :
    ∃ p, Serial s p ∧ Tracked (aenter flags true content).pos s p :=
  h.invariant (I := fun v => ∃ p, Serial v p ∧ Tracked (aenter flags true content).pos v p)
    ⟨none, serial_aenter flags content, tracked_aenter flags content⟩
    fun v e x ⟨_, hserial, htracked⟩ hP hx => by
      obtain ⟨q, hserial', hmove⟩ := serial_step hserial hP hx
      exact ⟨q, hserial', tracked_step htracked hmove⟩

/-! ## A request that is left behind -/

/-- The next call after an abandoned request is handed the completion of that request. -/
theorem mismatch_of_stale (flags : Flags) {ud : ℕ} {res : ℤ} (huring : s.uring = true)
    (hfp : s.fp = none)
    (hclosed : s.closed = false) (hqueued : s.queued = []) (hlock : s.lock = none)
    (hquiet : Quiet s.ua [(ud, res)] []) (hud : ud ≠ s.ud) {op : Op} {io : Io}
    (hearly : op.early false = none) (hstart : op.start = some io) :
    ∃ v, exec (step flags) s
        [.call op, .acquire s.calls 0, .onReadable 0 none, .resume s.calls 0] = some v ∧
      .returned s.calls (.error (mismatch io s.ud ud)) ∈ v.log := by
  have hop : op ≠ .aclose := fun heq => by
    rw [heq] at hstart
    exact absurd hstart (by simp [Op.start])
  -- the call waits for the lock
  obtain ⟨s₁, hs₁, h₁⟩ : ∃ s₁, s₁ = ({ s with
      calls := s.calls + 1, op := Function.update s.op s.calls op } : State).setTask s.calls
        .waitingLock ∧ step flags s (.call op) = some s₁ :=
    ⟨_, rfl, by simp [step, State.call, hclosed, hearly]⟩
  have hop₁ : s₁.op s.calls = op := by rw [hs₁]; exact Function.update_self _ _ _
  -- it takes it, and submits a request
  obtain ⟨s₂, hs₂, h₂⟩ : ∃ s₂, s₂ = ({ s₁ with
      lock := some s.calls, log := .locked s.calls :: s₁.log } : State).submit s.calls io 0 ∧
      step flags s₁ (.acquire s.calls 0) = some s₂ := by
    have hwait : s₁.task s.calls = .waitingLock ∧ s₁.lock = none := by
      rw [hs₁]
      exact ⟨task_setTask_self _ _ _, hlock⟩
    refine ⟨_, rfl, (if_pos hwait).trans (congrArg some ?_)⟩
    have hcases := locked_cases (s := { s₁ with
      lock := some s.calls, log := .locked s.calls :: s₁.log }) (u := s.calls)
      (by rw [hs₁]; exact huring) (by rw [hs₁]; exact hfp) (by rw [hop₁]; exact hop) 0
    rw [hop₁] at hcases
    rcases hcases with ⟨hzero, -⟩ | ⟨io', hio', heq⟩
    · rw [hzero] at hstart
      exact absurd hstart (by simp [Op.start])
    · rw [heq, Option.some.inj (hio'.symm.trans hstart)]
  rw [submit_eq (by rw [hs₁]; exact hqueued)
    (show Quiet _ [(ud, res)] [] by rw [hs₁]; exact hquiet) io
    (Int.le_refl 0), hs₁] at hs₂
  obtain ⟨hquiet₂, hcall₂⟩ := hquiet.waitCompletion
  have hua₂ : s₂.ua = s.ua.waitCompletion := by rw [hs₂]; rfl
  -- the callback hands it the stale completion
  obtain ⟨ua, hua⟩ : ∃ ua, s.ua.waitCompletion.onReadable 0 none = some ua := by
    unfold UringAsync.State.onReadable
    simp [hquiet₂.ensureCtxOpen, hquiet₂.waiters, hquiet₂.head, UringAsync.State.deliverPeekChain]
  obtain ⟨c, cs, hring, -, hcall⟩ := hquiet₂.onReadable_waiter (Int.le_refl 0) hua
  obtain ⟨rfl, -⟩ := List.cons.inj hring
  rw [hcall₂] at hcall
  have h₃ : step flags s₂ (.onReadable 0 none) = some { s₂ with ua := ua } := by
    simp only [step, UringAsync.step, hua₂, hquiet.registered, if_true, hua, Option.map_some]
  -- and it raises
  obtain ⟨v, hv, h₄⟩ : ∃ v, .returned s.calls (.error (mismatch io s.ud ud)) ∈ v.log ∧
      step flags { s₂ with ua := ua } (.resume s.calls 0) = some v := by
    have htask : s₂.task s.calls = .awaiting io ⟨s.ud, io.reqOp, s.pos⟩ s.ua.calls := by
      rw [hs₂]
      exact task_setTask_self _ _ _
    simp only [step, State.resume, htask, UringAsync.State.resume, hcall, UringAsync.Call.settle,
      Option.map_some, Function.update_self]
    refine ⟨_, ?_, rfl⟩
    simp [State.onCompletion, hud, State.finish, State.ret]
  exact ⟨v, by simp only [exec_cons, exec_nil, h₁, h₂, h₃, h₄, Option.bind_some], hv⟩

/-- A file that raises a mismatch has not survived. -/
theorem not_survives_of_mismatch {v : State} {io : Io} {ud gotUd : ℕ}
    (h : .returned u (.error (mismatch io ud gotUd)) ∈ v.log) : ¬ Survives start v :=
  fun hsurvives => hsurvives.kept.matching u io ud gotUd h

/-- Whenever a cancelled call leaves a request behind, the file is out of step: at once
when the request has written, and otherwise at the next call. -/
theorem not_survives_of_abandons {content : List UInt8}
    (h : Reach (step flags) Undisturbed (aenter flags true content) s) {e : Event}
    (habandons : Abandons s e) (ht : step flags s e = some t) {op : Op} {io : Io}
    (hearly : op.early false = none) (hstart : op.start = some io) :
    ∃ es v, (∀ d ∈ es, Served d ∧ ∀ w, d ≠ .cancel w) ∧ exec (step flags) t es = some v ∧
      ¬ Survives (aenter flags true content).pos v := by
  obtain ⟨p, hserial, htracked⟩ := tracked_reach h
  have hop : op ≠ .aclose := fun heq => by
    rw [heq] at hstart
    exact absurd hstart (by simp [Op.start])
  have hserved : ∀ v, ∀ d ∈ [Event.call op, .acquire v 0, .onReadable 0 none, .resume v 0],
      Served d ∧ ∀ w, d ≠ .cancel w := by
    intro v d hd
    simp only [List.mem_cons, List.not_mem_nil, or_false] at hd
    rcases hd with rfl | rfl | rfl | rfl
    · exact ⟨hop, by simp⟩
    all_goals exact ⟨Int.le_refl 0, by simp⟩
  cases e with
  | resume u submitRet =>
    obtain ⟨io', req, w, hu, hcancelling, hnot⟩ := habandons
    obtain ⟨stage, c, rfl⟩ := hserial.of_awaiting hu
    have hud : req.ud < s.ud := htracked.tags u req (htracked.submitted _ rfl)
    -- the call leaves, and the request stays
    change s.resume u submitRet = some t at ht
    unfold State.resume at ht
    rw [hu] at ht
    obtain ⟨ua, hua, rfl⟩ := Option.map_eq_some_iff.mp ht
    obtain ⟨hquiet, hcall⟩ := hserial.quiet.resume_cancelling hcancelling hua
    simp only [hcall]
    cases stage with
    | taken res =>
      refine ⟨[], _, by simp, rfl, fun hsurvives => hnot ⟨?_, ?_, fun data res' hwrite hper => ?_⟩⟩
      · rw [hserial.inflight]
        simp [inflightOf]
      · rw [hserial.quiet.ring]
        simp [ringOf]
      · have hres : res' = res := by
          rcases (htracked.performed _ res' rfl).mpr hper with hstage | hstage
          · exact absurd hstage (by simp)
          · exact (Stage.taken.inj hstage).symm
        have hpos : s.pos = cursor _ s.log := hsurvives.pos rfl
        have hcursor := htracked.pos
        obtain ⟨ud, op', off⟩ := req
        obtain rfl : op' = .write data := hwrite
        simp only [ahead] at hcursor
        omega
    | posted res =>
      have hquiet' : Quiet ua [(req.ud, res)] [] := by simpa [ringOf, waitersOf] using hquiet
      obtain ⟨v, hv, hmem⟩ := mismatch_of_stale flags
        (s := ({ s with ua := ua } : State).finish u (.error .cancelledError)) hserial.uring
        hserial.fp hserial.closed hserial.queued rfl hquiet' (Nat.ne_of_lt hud) hearly hstart
      exact ⟨_, v, hserved s.calls, hv, not_survives_of_mismatch hmem⟩
    | inFlight =>
      have hquiet' : Quiet ua [] [] := by simpa [ringOf, waitersOf] using hquiet
      -- the kernel completes the request with some error
      have hinflight : s.inflight[0]? = some req := by
        rw [hserial.inflight]
        rfl
      have hcomplete := complete_of_perform (i := 0)
        (s := ({ s with ua := ua } : State).finish u (.error .cancelledError)) hinflight
        (show req.perform flags (-1) s.file = some (s.file, []) from rfl)
      obtain ⟨v, hv, hmem⟩ := mismatch_of_stale flags (s := { ({ s with
          ua := ua } : State).finish u (.error .cancelledError) with
        inflight := s.inflight.eraseIdx 0
        file := s.file
        buf := Function.update s.buf req.ud ([] ++ (s.buf req.ud).drop 0)
        ua := { ua with posted := ua.posted ++ [(req.ud, -1)] }
        log := .performed req (-1) :: .returned u (.error .cancelledError) :: s.log })
        hserial.uring hserial.fp hserial.closed hserial.queued rfl (hquiet'.post (req.ud, -1))
        (Nat.ne_of_lt hud) hearly hstart
      refine ⟨[.complete 0 (-1), .call op, .acquire s.calls 0, .onReadable 0 none,
        .resume s.calls 0], v, fun d hd => ?_, ?_, not_survives_of_mismatch hmem⟩
      · rcases List.mem_cons.mp hd with rfl | hd
        · exact ⟨trivial, by simp⟩
        · exact hserved s.calls d hd
      · rw [exec_cons]
        exact (congrArg (Option.bind · _) hcomplete).trans hv
  | call op => exact habandons.elim
  | acquire u submitRet => exact habandons.elim
  | complete i res => exact habandons.elim
  | onReadable waitRet peeks => exact habandons.elim
  | runJob u most => exact habandons.elim
  | cancel u => exact habandons.elim

/-- **Cancellation does no harm** as long as no cancelled call leaves a request behind,
and it does as soon as one does: some continuation without any further cancellation
takes the file out of step, whatever is called next. -/
theorem survives_unless_abandoned (mode : Mode) (content : List UInt8) :
    (∀ s, Reach (step (modeToFlags mode)) Undisturbed (aenter (modeToFlags mode) true content) s →
      Survives (aenter (modeToFlags mode) true content).pos s) ∧
    ∀ (s t : State) (e : Event) (op : Op) (io : Io),
      Reach (step (modeToFlags mode)) Undisturbed (aenter (modeToFlags mode) true content) s →
      Abandons s e → step (modeToFlags mode) s e = some t → op.early false = none →
      op.start = some io →
      ∃ es v, (∀ d ∈ es, Served d ∧ ∀ w, d ≠ .cancel w) ∧
        exec (step (modeToFlags mode)) t es = some v ∧
        ¬ Survives (aenter (modeToFlags mode) true content).pos v := by
  refine ⟨fun s hs => ?_, fun s t e op io hs habandons ht hearly hstart =>
    not_survives_of_abandons hs habandons ht hearly hstart⟩
  obtain ⟨p, hserial, htracked⟩ := tracked_reach hs
  exact htracked.survives hserial

/-- A read is cancelled while its request is in flight; the next read is handed the
completion of that request, and raises. -/
theorem not_survives_cancellation :
    ¬ ∀ (mode : Mode) (content : List UInt8) (es : List Event) (s : State),
      (∀ e ∈ es, Served e) →
      exec (step (modeToFlags mode)) (aenter (modeToFlags mode) true content) es = some s →
      Survives (aenter (modeToFlags mode) true content).pos s := by
  intro h
  have hsurvives := h .rb [1, 2, 3] [.call (.read 1), .acquire 0 0, .cancel 0, .resume 0 0,
    .call (.read 1), .acquire 1 0, .complete 0 1, .onReadable 0 none, .resume 1 0] _
    (by simp [Served]) rfl
  exact hsurvives.kept.matching 1 (.read (.upTo [] 1)) 2 1 List.mem_cons_self

end AsyncFile
end Pyuring
