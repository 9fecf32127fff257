import Pyuring.AsyncFileSession

/-!
# Every call returns

A file waits for the lock, for the kernel, for the reader callback, for the executor and for
its own tasks to be run.  None of this can go on for ever and none of it can get stuck: from
whatever state a file has got to, with whatever has failed and whoever was cancelled on the
way, once nothing new is called and nobody is cancelled any more, all calls return after a
bounded number of steps, in every order of these steps and with every answer of the kernel
(`calls_return`).

Two things are behind it.  A call that waits for a completion is never forgotten: the loop
watches the ring for it, and its request, or one that was left behind, is still with the
kernel or its completion in the ring (`Live`).  And a read to the end of the file makes an
end: the file grows only by what is still to be written, of which every slice leaves less
than before (`State.lag`).

## The measure

An entry that is queued or with the kernel counts two, since it becomes a completion, which
counts one; a reader that is registered counts one.  A call counts what it may still do, a
read four for each slice that there may be.
-/

namespace Pyuring
namespace AsyncFile

open Trace

/-- The step is none by which calls are added or cancelled. -/
def Event.GoesOn : Event → Prop
  | .call _ => False
  | .acquire _ _ => True
  | .complete _ _ => True
  | .onReadable _ _ => True
  | .runJob _ _ => True
  | .resume _ _ => True
  | .cancel _ => False

/-- Every call has returned. -/
def AllReturned (s : State) : Prop := ∀ u < s.calls, ∃ o, s.task u = .done o

/-! ## What keeps a file alive -/

/-- Requests and position are within the file, and the next tag is new. -/
structure Sized (s : State) : Prop where
  pos : s.pos ≤ s.file.length
  requests : ∀ r ∈ s.queued ++ s.inflight, r.off ≤ s.file.length ∧ r.ud < s.ud
  posted : ∀ c ∈ s.ua.posted, c.1 < s.ud
  reaped : s.ua.reaped ≤ s.ua.posted.length

/-- A call that waits for call `w` of the reader: its request is at the position, and what is
posted for it is within the file. -/
structure Waits (s : State) (req : Request) (w : ℕ) : Prop where
  uring : s.uring = true
  call : (s.ua.call w).isAwaiting = true
  offset : req.off = s.pos
  only : ∀ r ∈ s.queued ++ s.inflight, r.ud = req.ud → r = req
  within : ∀ res, (req.ud, res) ∈ s.ua.posted → 0 ≤ res → s.pos + res.toNat ≤ s.file.length

/-- Whoever waits is waited for. -/
structure Live (s : State) : Prop where
  ledger : Ledger s
  good : UringAsync.Good s.ua
  sized : Sized s
  called : ∀ v < s.calls, s.task v ≠ .notCalled
  path : s.uring = true → s.fp = none ∧ UringAsync.Watched s.ua ∧ s.ua.closed = false
  off : s.uring = false → s.ua.registered = false ∧ s.ua.waiters = []
  job : ∀ v, s.task v = .inExecutor → s.op v = .aclose ∨ s.fp.isSome = true
  waits : ∀ v io req w, s.task v = .awaiting io req w → Waits s req w
  waiters : ∀ w ∈ s.ua.waiters, ∃ v io req, s.task v = .awaiting io req w
  enough : s.ua.waiters ≠ [] → s.inflight ≠ [] ∨ s.ua.reaped < s.ua.posted.length

/-- The call `u` has the lock of an open file and goes on. -/
structure Free (s : State) (u : ℕ) : Prop where
  sized : Sized s
  uring : s.uring = true
  fp : s.fp = none
  watched : UringAsync.Watched s.ua
  closed : s.ua.closed = false
  waiters : s.ua.waiters = []
  called : ∀ v < s.calls, v ≠ u → s.task v ≠ .notCalled
  idle : ∀ v, v ≠ u → (s.task v).isRunning = false

variable {flags : Flags} {s t : State} {u most : ℕ} {e : Event}

theorem Sized.congr (h : Sized s) (hpos : t.pos = s.pos) (hfile : s.file.length ≤ t.file.length)
    (hqueue : t.queued ++ t.inflight = s.queued ++ s.inflight) (hud : t.ud = s.ud)
    (hposted : t.ua.posted = s.ua.posted) (hreaped : t.ua.reaped ≤ t.ua.posted.length) :
    Sized t where
  pos := by rw [hpos]; exact h.pos.trans hfile
  requests r hr := by
    obtain ⟨hoff, hlt⟩ := h.requests r (hqueue ▸ hr)
    exact ⟨hoff.trans hfile, hud ▸ hlt⟩
  posted c hc := hud ▸ h.posted c (hposted ▸ hc)
  reaped := hreaped

theorem Waits.congr {req : Request} {w : ℕ} (h : Waits s req w) (huring : t.uring = s.uring)
    (hcall : (t.ua.call w).isAwaiting = (s.ua.call w).isAwaiting) (hpos : t.pos = s.pos)
    (hfile : s.file.length ≤ t.file.length)
    (hqueue : t.queued ++ t.inflight = s.queued ++ s.inflight)
    (hposted : t.ua.posted = s.ua.posted) : Waits t req w where
  uring := huring.trans h.uring
  call := hcall.trans h.call
  offset := h.offset.trans hpos.symm
  only := hqueue ▸ h.only
  within res hres hle := by
    rw [hpos]
    exact (h.within res (hposted ▸ hres) hle).trans hfile

/-- One call at a time waits. -/
theorem Live.waiters_le (h : Live s) : s.ua.waiters.length ≤ 1 := by
  match hws : s.ua.waiters with
  | [] => exact Nat.zero_le _
  | [w] => exact Nat.le_refl _
  | w :: w' :: ws =>
    obtain ⟨v, io, req, hv⟩ := h.waiters w (by rw [hws]; exact List.mem_cons_self)
    obtain ⟨v', io', req', hv'⟩ := h.waiters w' (by rw [hws]; simp)
    have hlock := (h.ledger.holder v).mp (by rw [hv]; rfl)
    have hlock' := (h.ledger.holder v').mp (by rw [hv']; rfl)
    obtain rfl := Option.some.inj (hlock.symm.trans hlock')
    obtain ⟨-, -, rfl⟩ := Task.awaiting.inj (hv.symm.trans hv')
    have hsorted := h.good.sorted
    rw [hws] at hsorted
    exact absurd ((List.pairwise_cons.mp hsorted).1 w List.mem_cons_self) (Nat.lt_irrefl _)

/-! ## A call that has the lock -/

theorem Free.ensureCtxOpen (h : Free s u) : s.ua.ensureCtxOpen = .ok () := by
  simp [UringAsync.State.ensureCtxOpen, h.closed, h.watched.ctxOpen]

theorem Free.waitCompletion (h : Free s u) :
    s.ua.waitCompletion.call s.ua.calls = .awaiting .pending false ∧
      s.ua.waitCompletion.waiters = [s.ua.calls] := by
  unfold UringAsync.State.waitCompletion
  rw [h.ensureCtxOpen]
  simp [h.waiters]

/-- Nobody runs beside the call. -/
theorem Free.not_running (h : Free s u) {x : Task} (hx : x.isRunning = false) (v : ℕ) :
    (Function.update s.task u x v).isRunning = false := by
  by_cases hvu : v = u
  · rw [hvu, Function.update_self, hx]
  · rw [Function.update_of_ne hvu]
    exact h.idle v hvu

theorem Free.called_update (h : Free s u) {x : Task} (hx : x ≠ .notCalled) (v : ℕ)
    (hv : v < s.calls) : Function.update s.task u x v ≠ .notCalled := by
  by_cases hvu : v = u
  · rw [hvu, Function.update_self]
    exact hx
  · rw [Function.update_of_ne hvu]
    exact h.called v hv hvu

theorem Free.finish (h : Free s u) {o : Outcome} (hledger : Ledger (s.finish u o))
    (hgood : UringAsync.Good s.ua) : Live (s.finish u o) := by
  have hidle : ∀ v, ((s.finish u o).task v).isRunning = false := h.not_running rfl
  refine ⟨hledger, hgood, ⟨h.sized.pos, h.sized.requests, h.sized.posted, h.sized.reaped⟩,
    h.called_update (by simp), fun _ => ⟨h.fp, h.watched, h.closed⟩,
    fun hoff => absurd (h.uring.symm.trans hoff) (by simp), ?_, ?_, ?_,
    fun hne => absurd h.waiters hne⟩
  · intro v hv
    exact absurd (hidle v) (by rw [hv]; simp [Task.isRunning])
  · intro v io req w hv
    exact absurd (hidle v) (by rw [hv]; simp [Task.isRunning])
  · intro w hw
    change w ∈ s.ua.waiters at hw
    rw [h.waiters] at hw
    exact absurd hw List.not_mem_nil

/-- A tag is taken. -/
theorem Free.nextTag (h : Free s u) (buf : ℕ → List UInt8) :
    Free { s with ud := s.ud + 1, buf := buf } u :=
  ⟨⟨h.sized.pos, fun r hr => (h.sized.requests r hr).imp_right Nat.lt_succ_of_lt,
    fun c hc => Nat.lt_succ_of_lt (h.sized.posted c hc), h.sized.reaped⟩, h.uring, h.fp, h.watched,
    h.closed, h.waiters, h.called, h.idle⟩

/-- The request of a call joins those that are there. -/
theorem Sized.join (h : Sized s) (op : ReqOp) {queue : List Request}
    (hqueue : ∀ r ∈ queue, r ∈ s.queued ++ s.inflight ∨ r = ⟨s.ud, op, s.pos⟩) :
    ∀ r ∈ queue, r.off ≤ s.file.length ∧ r.ud < s.ud + 1 := by
  intro r hr
  rcases hqueue r hr with hr | rfl
  · exact (h.requests r hr).imp_right Nat.lt_succ_of_lt
  · exact ⟨h.pos, Nat.lt_succ_self _⟩

/-- A new request is at the position and has a tag of its own. -/
theorem Free.submit (h : Free s u) {io : Io} {submitRet : ℤ}
    (hledger : Ledger (s.submit u io submitRet))
    (hgood : UringAsync.Good (s.submit u io submitRet).ua) : Live (s.submit u io submitRet) := by
  obtain ⟨hcall, hwaiters⟩ := h.waitCompletion
  obtain ⟨hposted, hreaped, hclosed, -⟩ := posted_waitCompletion s.ua
  have hnext := h.nextTag (Function.update s.buf s.ud io.buffer)
  unfold State.submit at hledger hgood ⊢
  simp only at hledger hgood ⊢
  split at hledger
  · next hfull =>
    rw [if_pos hfull] at hgood ⊢
    exact hnext.finish hledger hgood
  next hroom =>
  rw [if_neg hroom] at hgood ⊢
  split at hledger
  · next hneg =>
    rw [if_pos hneg] at hgood ⊢
    refine Free.finish (u := u) ?_ hledger hgood
    refine ⟨⟨h.sized.pos, h.sized.join io.reqOp ?_, hnext.sized.posted, h.sized.reaped⟩,
      h.uring, h.fp, h.watched, h.closed, h.waiters, h.called, h.idle⟩
    intro r hr
    simp only [List.mem_append, List.mem_singleton] at hr ⊢
    rcases hr with (hr | hr) | hr
    · exact Or.inl (Or.inl hr)
    · exact Or.inr hr
    · exact Or.inl (Or.inr hr)
  next hret =>
  rw [if_neg hret] at hgood ⊢
  simp only [hcall] at hledger hgood ⊢
  have hmem : ∀ r ∈ ([] : List Request) ++ (s.inflight ++ (s.queued ++ [⟨s.ud, io.reqOp, s.pos⟩])),
      r ∈ s.queued ++ s.inflight ∨ r = ⟨s.ud, io.reqOp, s.pos⟩ := by
    intro r hr
    simp only [List.nil_append, List.mem_append, List.mem_singleton] at hr ⊢
    rcases hr with hr | hr | hr
    · exact Or.inl (Or.inr hr)
    · exact Or.inl (Or.inl hr)
    · exact Or.inr hr
  have hself : ∀ v io' req w, Function.update s.task u
      (.awaiting io ⟨s.ud, io.reqOp, s.pos⟩ s.ua.calls) v = .awaiting io' req w →
      v = u ∧ req = ⟨s.ud, io.reqOp, s.pos⟩ ∧ w = s.ua.calls := by
    intro v io' req w hv
    by_cases hvu : v = u
    · rw [hvu, Function.update_self] at hv
      obtain ⟨-, rfl, rfl⟩ := Task.awaiting.inj hv
      exact ⟨hvu, rfl, rfl⟩
    · rw [Function.update_of_ne hvu] at hv
      exact absurd (h.idle v hvu) (by rw [hv]; simp [Task.isRunning])
  refine ⟨hledger, hgood, ⟨h.sized.pos, h.sized.join _ hmem, ?_, ?_⟩, h.called_update (by simp),
    fun _ => ⟨h.fp, h.watched.waitCompletion, hclosed.trans h.closed⟩,
    fun hoff => absurd (h.uring.symm.trans hoff) (by simp), ?_, ?_, ?_, ?_⟩
  · intro c hc
    exact hnext.sized.posted c (hposted ▸ hc)
  · change s.ua.waitCompletion.reaped ≤ s.ua.waitCompletion.posted.length
    rw [hposted, hreaped]
    exact h.sized.reaped
  · intro v hv
    by_cases hvu : v = u
    · rw [hvu] at hv
      exact absurd ((task_setTask_self _ _ _).symm.trans hv) (by simp)
    · have hidle := h.idle v hvu
      rw [(task_setTask_of_ne hvu _ _).symm.trans hv] at hidle
      exact absurd hidle (by simp [Task.isRunning])
  · intro v io' req w hv
    obtain ⟨-, rfl, rfl⟩ := hself v io' req w hv
    refine ⟨h.uring, by rw [State.setTask]; simp only [hcall]; rfl, rfl, ?_, ?_⟩
    · intro r hr hud
      rcases hmem r hr with hr | hr
      · exact absurd hud (Nat.ne_of_lt (h.sized.requests r hr).2)
      · exact hr
    · intro res hres
      exact absurd rfl (Nat.ne_of_lt (h.sized.posted _ (hposted ▸ hres)))
  · intro w hw
    change w ∈ s.ua.waitCompletion.waiters at hw
    rw [hwaiters, List.mem_singleton] at hw
    exact ⟨u, io, ⟨s.ud, io.reqOp, s.pos⟩, by rw [task_setTask_self, hw]⟩
  · intro _
    refine Or.inl ?_
    change s.inflight ++ (s.queued ++ [_]) ≠ []
    simp

/-! ## The steps -/

/-- What waits in the reader is what the call that has the lock waits for. -/
theorem Live.waiters_sub (h : Live s) {io : Io} {req : Request} {w : ℕ}
    (hu : s.task u = .awaiting io req w) : s.ua.waiters = [] ∨ s.ua.waiters = [w] := by
  have hle := h.waiters_le
  match hws : s.ua.waiters with
  | [] => exact Or.inl rfl
  | [w'] =>
    obtain ⟨v, io', req', hv⟩ := h.waiters w' (by rw [hws]; exact List.mem_cons_self)
    have hlock := (h.ledger.holder u).mp (by rw [hu]; rfl)
    obtain rfl := Option.some.inj (((h.ledger.holder v).mp (by rw [hv]; rfl)).symm.trans hlock)
    obtain ⟨-, -, rfl⟩ := Task.awaiting.inj (hv.symm.trans hu)
    exact Or.inr rfl
  | _ :: _ :: _ =>
    rw [hws] at hle
    exact absurd hle (by simp)

theorem Live.waiters_free (h : Live s) (hfree : s.lock = none) : s.ua.waiters = [] := by
  refine List.eq_nil_iff_forall_not_mem.mpr ?_
  intro w hw
  obtain ⟨v, io, req, hv⟩ := h.waiters w hw
  exact h.ledger.not_running hfree v (by rw [hv]; rfl)

/-- When the task of a call is run again, nobody waits any more. -/
theorem Live.waiters_resume (h : Live s) {io : Io} {req : Request} {w : ℕ}
    (hu : s.task u = .awaiting io req w) {ua : UringAsync.State (ℕ × ℤ)}
    (hua : s.ua.resume w = some ua) : ua.waiters = [] := by
  have hcancelled : (s.ua.onCancelled w).waiters = [] := by
    have herase : s.ua.waiters.erase w = [] := by
      rcases h.waiters_sub hu with hws | hws <;> simp [hws]
    unfold UringAsync.State.onCancelled
    simp only [herase, List.isEmpty_nil, if_true, UringAsync.waiters_removeReader]
  rcases h.waiters_sub hu with hws | hws
  · rcases UringAsync.resume_cases hua with ⟨call, -, -, rfl⟩ | rfl
    · exact hws
    · exact hcancelled
  · obtain ⟨b, hcall⟩ := h.good.waiting w (by rw [hws]; exact List.mem_cons_self)
    unfold UringAsync.State.resume at hua
    rcases hcall with hcall | hcall
    · rw [hcall] at hua
      exact absurd hua (by simp)
    · rw [hcall] at hua
      rw [← Option.some.inj hua]
      exact hcancelled

/-- A call that takes the lock of an open file. -/
theorem Live.free_acquire (h : Live s) (hfree : s.lock = none) (huring : s.uring = true) :
    Free { s with lock := some u, log := .locked u :: s.log } u := by
  obtain ⟨hfp, hwatched, hclosed⟩ := h.path huring
  exact ⟨⟨h.sized.pos, h.sized.requests, h.sized.posted, h.sized.reaped⟩, huring, hfp, hwatched,
    hclosed, h.waiters_free hfree, fun v hv _ => h.called v hv,
    fun v _ => Bool.eq_false_iff.mpr (h.ledger.not_running hfree v)⟩

/-- A call that is run again, and moves the position within the file. -/
theorem Live.free_resume (h : Live s) {io : Io} {req : Request} {w : ℕ}
    (hu : s.task u = .awaiting io req w) {ua : UringAsync.State (ℕ × ℤ)}
    (hua : s.ua.resume w = some ua) {pos : ℕ} (hpos : pos ≤ s.file.length) (log : List Ev) :
    Free { s with ua := ua, pos := pos, log := log } u := by
  have huring := (h.waits u io req w hu).uring
  obtain ⟨hfp, hwatched, hclosed⟩ := h.path huring
  obtain ⟨hsame, -, hposted, hreaped⟩ := frame_resume hua
  have hlock := (h.ledger.holder u).mp (by rw [hu]; rfl)
  refine ⟨⟨hpos, h.sized.requests, ?_, ?_⟩, huring, hfp, hwatched.resume hua, hsame.trans hclosed,
    h.waiters_resume hu hua, fun v hv _ => h.called v hv, fun v hvu => ?_⟩
  · intro c hc
    exact h.sized.posted c (hposted ▸ hc)
  · change ua.reaped ≤ ua.posted.length
    rw [hposted, hreaped]
    exact h.sized.reaped
  · refine Bool.eq_false_iff.mpr fun hrun => hvu ?_
    exact Option.some.inj (((h.ledger.holder v).mp hrun).symm.trans hlock)

/-- A step after which the reader, the ring and the position are as they were. -/
theorem Live.frame (h : Live s) (hledger : Ledger t) (huring : t.uring = s.uring)
    (hfp : t.fp.isSome = s.fp.isSome) (hop : ∀ v < s.calls, t.op v = s.op v) (hua : t.ua = s.ua)
    (hpos : t.pos = s.pos) (hfile : s.file.length ≤ t.file.length) (hud : t.ud = s.ud)
    (hqueued : t.queued = s.queued) (hinflight : t.inflight = s.inflight)
    (hcalled : ∀ v < t.calls, t.task v ≠ .notCalled)
    (hjob : ∀ v, t.task v = .inExecutor → s.task v = .inExecutor ∨ t.op v = .aclose ∨
      s.fp.isSome = true)
    (htask : ∀ v io req w, t.task v = .awaiting io req w ↔ s.task v = .awaiting io req w) :
    Live t := by
  have hqueue : t.queued ++ t.inflight = s.queued ++ s.inflight := by rw [hqueued, hinflight]
  refine ⟨hledger, hua ▸ h.good, h.sized.congr hpos hfile hqueue hud (by rw [hua]) ?_, hcalled,
    fun hon => ?_, fun hoff => ?_, fun v hv => ?_, fun v io req w hv => ?_, fun w hw => ?_, ?_⟩
  · rw [hua]
    exact h.sized.reaped
  · obtain ⟨hnone, hrest⟩ := h.path (huring ▸ hon)
    rw [hua]
    refine ⟨?_, hrest⟩
    rw [hnone] at hfp
    exact Option.isNone_iff_eq_none.mp (by simpa using hfp)
  · rw [hua]
    exact h.off (huring ▸ hoff)
  · rcases hjob v hv with hv | hv | hv
    · rw [hfp, hop v (h.ledger.lt_calls (by rw [hv]; simp))]
      exact h.job v hv
    · exact Or.inl hv
    · exact Or.inr (hfp.trans hv)
  · exact (h.waits v io req w ((htask v io req w).mp hv)).congr huring (by rw [hua]) hpos hfile
      hqueue (by rw [hua])
  · rw [hua] at hw
    obtain ⟨v, io, req, hv⟩ := h.waiters w hw
    exact ⟨v, io, req, (htask v io req w).mpr hv⟩
  · rw [hua, hinflight]
    exact h.enough

/-- An update of a call that neither waits for a completion nor comes to. -/
theorem awaiting_update_iff {task : ℕ → Task} {x : Task} {v : ℕ}
    (hold : ∀ io req w, task u ≠ .awaiting io req w) (hnew : ∀ io req w, x ≠ .awaiting io req w)
    (io : Io) (req : Request) (w : ℕ) :
    Function.update task u x v = .awaiting io req w ↔ task v = .awaiting io req w := by
  by_cases hvu : v = u
  · rw [hvu, Function.update_self]
    exact iff_of_false (hnew io req w) (hold io req w)
  · rw [Function.update_of_ne hvu]

theorem Live.called_update (h : Live s) {x : Task} (hx : x ≠ .notCalled) (v : ℕ)
    (hv : v < s.calls) : Function.update s.task u x v ≠ .notCalled := by
  by_cases hvu : v = u
  · rw [hvu, Function.update_self]
    exact hx
  · rw [Function.update_of_ne hvu]
    exact h.called v hv

theorem Live.call (h : Live s) (op : Op) : Live (s.call op) := by
  have hledger := h.ledger.call op
  have hop : ∀ v < s.calls, Function.update s.op s.calls op v = s.op v := fun v hv =>
    Function.update_of_ne (Nat.ne_of_lt hv) _ _
  have hold : ∀ io req w, s.task s.calls ≠ .awaiting io req w := by
    intro io req w
    rw [h.ledger.fresh s.calls (Nat.le_refl _)]
    exact Task.noConfusion
  have hcalled : ∀ x : Task, x ≠ .notCalled → ∀ v < s.calls + 1,
      Function.update s.task s.calls x v ≠ .notCalled := by
    intro x hx v hv
    by_cases hvs : v = s.calls
    · rw [hvs, Function.update_self]
      exact hx
    · rw [Function.update_of_ne hvs]
      exact h.called v (by omega)
  have hjob : ∀ (x : Task), x ≠ .inExecutor → ∀ v, Function.update s.task s.calls x v =
      .inExecutor → s.task v = .inExecutor := by
    intro x hx v hv
    by_cases hvs : v = s.calls
    · rw [hvs, Function.update_self] at hv
      exact absurd hv hx
    · rw [Function.update_of_ne hvs] at hv
      exact hv
  unfold State.call at hledger ⊢
  simp only at hledger ⊢
  split at hledger
  · exact h.frame hledger rfl rfl hop rfl rfl (Nat.le_refl _) rfl rfl rfl (hcalled _ (by simp))
      (fun v hv => Or.inl (hjob _ (by simp) v hv))
      fun v io req w => awaiting_update_iff hold (by simp) io req w
  · exact h.frame hledger rfl rfl hop rfl rfl (Nat.le_refl _) rfl rfl rfl (hcalled _ (by simp))
      (fun v hv => Or.inl (hjob _ (by simp) v hv))
      fun v io req w => awaiting_update_iff hold (by simp) io req w

/-- What a write request has to write. -/
def ReqOp.payload : ReqOp → ℕ
  | .read _ => 0
  | .write data => data.length

theorem length_write (f : CursorFile UInt8) (data : List UInt8) :
    f.content.length ≤ (f.write data).content.length ∧
      (f.cursor ≤ f.content.length → f.cursor + data.length ≤ (f.write data).content.length ∧
        (f.write data).content.length ≤ f.content.length + data.length) := by
  unfold CursorFile.write
  split
  · next hnil =>
    rw [hnil]
    exact ⟨Nat.le_refl _, fun hle => ⟨hle, Nat.le_refl _⟩⟩
  · simp only [length_overwrite, CursorFile.writeOffset]
    split
    · exact ⟨Nat.le_max_left _ _, fun hle => ⟨by omega, by omega⟩⟩
    · exact ⟨Nat.le_max_left _ _, fun hle => ⟨by omega, by omega⟩⟩

/-- A request that is carried out leaves the file at least as long, no longer than by what it
writes, and reaching to where the request ends. -/
theorem length_perform {req : Request} {res : ℤ} {file file' data : List UInt8}
    (h : req.perform flags res file = some (file', data)) :
    file.length ≤ file'.length ∧ (req.off ≤ file.length →
      file'.length ≤ file.length + req.op.payload ∧
        (0 ≤ res → req.off + res.toNat ≤ file'.length)) := by
  unfold Request.perform at h
  simp only at h
  split at h
  · next hneg =>
    obtain ⟨rfl, -⟩ := Prod.mk.inj (Option.some.inj h)
    exact ⟨Nat.le_refl _,
      fun _ => ⟨Nat.le_add_right _ _, fun hle => absurd hneg (Int.not_lt.mpr hle)⟩⟩
  · split at h
    · obtain ⟨hcond, h⟩ := Option.ite_none_right_eq_some.mp h
      obtain ⟨rfl, -⟩ := Prod.mk.inj (Option.some.inj h)
      rw [CursorFile.length_rest] at hcond
      refine ⟨Nat.le_refl _, fun hoff => ⟨Nat.le_add_right _ _, fun _ => ?_⟩⟩
      have := hcond.2.2
      simp only at this
      omega
    · next data' hop =>
      obtain ⟨hcond, h⟩ := Option.ite_none_right_eq_some.mp h
      obtain ⟨rfl, -⟩ := Prod.mk.inj (Option.some.inj h)
      obtain ⟨hle, hoff⟩ := length_write ⟨file, req.off, flags.append⟩ (data'.take res.toNat)
      refine ⟨hle, fun hin => ?_⟩
      obtain ⟨hend, hmax⟩ := hoff hin
      rw [List.length_take, Nat.min_eq_left hcond.2.1] at hend hmax
      rw [hop]
      refine ⟨hmax.trans (Nat.add_le_add_left hcond.2.1 _), fun _ => hend⟩

theorem Live.complete (h : Live s) {i : ℕ} {res : ℤ} (ht : s.complete flags i res = some t)
    (hgood : UringAsync.Good t.ua) : Live t := by
  obtain ⟨req, file, data, hreq, hperform, rfl⟩ := complete_cases ht
  have hmem : req ∈ s.queued ++ s.inflight :=
    List.mem_append_right _ (List.mem_of_getElem? hreq)
  obtain ⟨hoff, hud⟩ := h.sized.requests req hmem
  obtain ⟨hfile, hrest⟩ := length_perform hperform
  have hend := (hrest hoff).2
  have hsub : ∀ r ∈ s.queued ++ s.inflight.eraseIdx i, r ∈ s.queued ++ s.inflight := by
    intro r hr
    rcases List.mem_append.mp hr with hr | hr
    · exact List.mem_append_left _ hr
    · exact List.mem_append_right _ (List.mem_of_mem_eraseIdx hr)
  have hreaped := h.sized.reaped
  have hlt : s.ua.reaped < (s.ua.posted ++ [(req.ud, res)]).length := by
    rw [List.length_append, List.length_singleton]
    omega
  refine ⟨h.ledger.congr rfl, hgood, ⟨h.sized.pos.trans hfile, ?_, ?_, hlt.le⟩, h.called, ?_, h.off,
    h.job, ?_, h.waiters, fun _ => Or.inr hlt⟩
  · intro r hr
    obtain ⟨hroff, hrud⟩ := h.sized.requests r (hsub r hr)
    exact ⟨hroff.trans hfile, hrud⟩
  · intro c hc
    rcases List.mem_append.mp hc with hc | hc
    · exact h.sized.posted c hc
    · rw [List.mem_singleton.mp hc]
      exact hud
  · intro hon
    obtain ⟨hfp, hwatched, hclosed⟩ := h.path hon
    exact ⟨hfp, hwatched.congr rfl rfl rfl rfl rfl, hclosed⟩
  · intro v io own w hv
    have hwaits := h.waits v io own w hv
    refine ⟨hwaits.uring, hwaits.call, hwaits.offset, fun r hr => hwaits.only r (hsub r hr), ?_⟩
    intro res' hres hle
    rcases List.mem_append.mp hres with hres | hres
    · exact (hwaits.within res' hres hle).trans hfile
    · obtain ⟨htag, rfl⟩ := Prod.mk.inj (List.mem_singleton.mp hres)
      -- the tag is that of the call's own request
      rw [← hwaits.offset, ← hwaits.only req hmem htag.symm]
      exact hend hle

/-- With at most one waiter the callback leaves nobody waiting, and no reader. -/
theorem onReadable_settles {ua ua' : UringAsync.State (ℕ × ℤ)} (h : UringAsync.Watched ua)
    (hclosed : ua.closed = false) (hone : ua.waiters.length ≤ 1) {waitRet : ℤ} {peeks : Option ℕ}
    (ht : ua.onReadable waitRet peeks = some ua') :
    ua'.waiters = [] ∧ ua'.registered = false ∧ UringAsync.Watched ua' ∧
      ua'.posted = ua.posted ∧ ua.reaped ≤ ua'.reaped ∧
      (ua.reaped ≤ ua.posted.length → ua'.reaped ≤ ua'.posted.length) := by
  have hwatched : UringAsync.Watched ua' := by
    rcases h.onReadable ht with ⟨-, hw⟩ | ⟨⟨-, -, k, -, hk, -⟩, -⟩
    · exact hw
    · omega
  have hnone : ua'.waiters = [] ∧ ua'.posted = ua.posted ∧ ua.reaped ≤ ua'.reaped ∧
      (ua.reaped ≤ ua.posted.length → ua'.reaped ≤ ua'.posted.length) := by
    unfold UringAsync.State.onReadable at ht
    have hok : ua.ensureCtxOpen = .ok () := by
      simp [UringAsync.State.ensureCtxOpen, hclosed, h.ctxOpen]
    simp only [UringAsync.ensureCtxOpen_removeReader, hok, UringAsync.waiters_removeReader,
      UringAsync.head_removeReader] at ht
    split at ht
    · next hws =>
      rw [← Option.some.inj ht]
      simp [hws]
    next w ws hws =>
    obtain rfl : ws = [] :=
      List.length_eq_zero_iff.mp (by rw [hws, List.length_cons] at hone; omega)
    split at ht
    · rw [← Option.some.inj ht]
      simp [UringAsync.State.failAll, UringAsync.State.settleAll]
    split at ht
    · exact absurd ht (by simp)
    next c hc =>
    simp only [UringAsync.State.deliverPeekChain] at ht
    rw [← Option.some.inj ht]
    have hlt := (UringAsync.head_eq_some.mp hc).1
    simp [UringAsync.State.deliver, hlt]
  refine ⟨hnone.1, ?_, hwatched, hnone.2⟩
  rw [hwatched.registered]
  have hopen : ua'.closed = false := (UringAsync.sameOpen_onReadable ht).1.trans hclosed
  refine Bool.eq_false_iff.mpr fun hactive => ?_
  exact absurd hnone.1 ((hwatched.active hopen).mp hactive)

theorem Live.onReadable (h : Live s) {ua : UringAsync.State (ℕ × ℤ)} {waitRet : ℤ}
    {peeks : Option ℕ} (hon : s.ua.registered = true)
    (hua : s.ua.onReadable waitRet peeks = some ua) (hgood : UringAsync.Good ua) :
    Live { s with ua := ua } := by
  have huring : s.uring = true := by
    rcases s.uring.eq_false_or_eq_true with hs | hs
    · exact hs
    · exact absurd hon (by simp [(h.off hs).1])
  obtain ⟨hfp, hwatched, hclosed⟩ := h.path huring
  obtain ⟨hnone, hoff, hwatched', hposted, -, hreaped⟩ :=
    onReadable_settles hwatched hclosed h.waiters_le hua
  refine ⟨h.ledger.congr rfl, hgood, h.sized.congr rfl (Nat.le_refl _) rfl rfl hposted
    (hreaped h.sized.reaped), h.called, fun _ => ⟨hfp, hwatched',
      (UringAsync.sameOpen_onReadable hua).1.trans hclosed⟩, fun _ => ⟨hoff, hnone⟩, h.job, ?_, ?_,
    fun hne => absurd hnone hne⟩
  · intro v io req w hv
    exact (h.waits v io req w hv).congr rfl (UringAsync.stays_onReadable hua w).isAwaiting rfl
      (Nat.le_refl _) rfl hposted
  · intro w hw
    rw [show ua.waiters = [] from hnone] at hw
    exact absurd hw List.not_mem_nil

/-- A job of the executor leaves the file at least as long, and without a file object it
leaves it as it is. -/
theorem runJob_length (ht : s.runJob flags u most = some t) : s.file.length ≤ t.file.length ∧
    (s.fp = none → t.file = s.file) := by
  unfold State.runJob at ht
  split at ht
  · split at ht
    · rw [← Option.some.inj ht]
      exact ⟨Nat.le_refl _, fun _ => rfl⟩
    · next data p _ hfp =>
      rw [← Option.some.inj ht]
      refine ⟨?_, fun hnone => absurd (hfp.symm.trans hnone) (by simp)⟩
      change s.file.length ≤ (fpWrite flags s.file data p).2.1.length
      unfold fpWrite
      split
      · exact Nat.le_refl _
      · exact (length_write ⟨s.file, p, flags.append⟩ data).1
    · rw [← Option.some.inj ht]
      exact ⟨Nat.le_refl _, fun _ => rfl⟩
    · exact absurd ht (by simp)
  · exact absurd ht (by simp)

theorem Live.runJob (h : Live s) (ht : s.runJob flags u most = some t) : Live t := by
  have hledger := h.ledger.runJob ht
  obtain ⟨hfile, -⟩ := runJob_length ht
  obtain ⟨hu, file, fp, o, hfp, -, rfl⟩ := runJob_cases ht
  refine h.frame hledger rfl hfp (fun _ _ => rfl) rfl rfl hfile rfl rfl rfl
    (h.called_update (by simp)) (fun v hv => Or.inl ?_) fun v io req w =>
      awaiting_update_iff (by rw [hu]; simp) (by simp) io req w
  by_cases hvu : v = u
  · rw [hvu]
    exact hu
  · exact (task_setTask_of_ne hvu _ _).symm.trans hv

theorem Live.cancel (h : Live s) (hledger : Ledger t) (ht : s.cancel u = some t) : Live t := by
  rcases cancel_cases ht with ⟨hu, rfl⟩ | ⟨io, req, w, ua, hu, hua, rfl⟩
  · refine h.frame hledger rfl rfl (fun _ _ => rfl) rfl rfl (Nat.le_refl _) rfl rfl rfl
      (h.called_update (by simp)) (fun v hv => Or.inl ?_) fun v io req w =>
        awaiting_update_iff (by rw [hu]; simp) (by simp) io req w
    by_cases hvu : v = u
    · rw [hvu] at hv
      exact absurd ((task_setTask_self u _ s).symm.trans hv) (by simp)
    · exact (task_setTask_of_ne hvu _ _).symm.trans hv
  · have hstays := UringAsync.stays_cancel hua
    have hgood := (UringAsync.advances_cancel h.good hua).good
    obtain ⟨fut, b, -, -, rfl⟩ := UringAsync.cancel_cases hua
    refine ⟨hledger, hgood, h.sized.congr rfl (Nat.le_refl _) rfl rfl rfl h.sized.reaped, h.called,
      fun hon => ?_, h.off, h.job, fun v io' req' w' hv => ?_, h.waiters, h.enough⟩
    · obtain ⟨hfp, hwatched, hclosed⟩ := h.path hon
      exact ⟨hfp, hwatched.congr rfl rfl rfl rfl rfl, hclosed⟩
    · exact (h.waits v io' req' w' hv).congr rfl (hstays w').isAwaiting rfl (Nat.le_refl _) rfl rfl

/-- A call takes the lock, and waits for no completion. -/
theorem Live.offline (h : Live s) (hfree : s.lock = none) (hledger : Ledger t)
    (hgood : UringAsync.Good t.ua) (hcalls : t.calls = s.calls) (hfile : t.file = s.file)
    (hpos : t.pos = s.pos) (hud : t.ud = s.ud) (hqueued : t.queued = s.queued)
    (hinflight : t.inflight = s.inflight) (hposted : t.ua.posted = s.ua.posted)
    (hreaped : t.ua.reaped = s.ua.reaped) (hwaiters : t.ua.waiters = [])
    (hpath : t.uring = true → t.fp = none ∧ UringAsync.Watched t.ua ∧ t.ua.closed = false)
    (hoff : t.uring = false → t.ua.registered = false) {x : Task}
    (hx : ∀ io req w, x ≠ .awaiting io req w) (hcalled : x ≠ .notCalled)
    (hjob : x = .inExecutor → t.op u = .aclose ∨ t.fp.isSome = true)
    (htask : t.task = Function.update s.task u x) : Live t := by
  have hidle : ∀ v, v ≠ u → (t.task v).isRunning = false := by
    intro v hvu
    rw [htask, Function.update_of_ne hvu]
    exact Bool.eq_false_iff.mpr (h.ledger.not_running hfree v)
  have hqueue : t.queued ++ t.inflight = s.queued ++ s.inflight := by rw [hqueued, hinflight]
  refine ⟨hledger, hgood, h.sized.congr hpos (by rw [hfile]) hqueue hud hposted ?_, ?_, hpath,
    fun hs => ⟨hoff hs, hwaiters⟩, fun v hv => ?_, fun v io req w hv => ?_, ?_,
    fun hne => absurd hwaiters hne⟩
  · rw [hposted, hreaped]
    exact h.sized.reaped
  · intro v hv
    rw [htask]
    exact h.called_update hcalled v (hcalls ▸ hv)
  · by_cases hvu : v = u
    · rw [hvu, htask, Function.update_self] at hv
      rw [hvu]
      exact hjob hv
    · exact absurd (hidle v hvu) (by rw [hv]; simp [Task.isRunning])
  · by_cases hvu : v = u
    · rw [hvu, htask, Function.update_self] at hv
      exact absurd hv (hx io req w)
    · exact absurd (hidle v hvu) (by rw [hv]; simp [Task.isRunning])
  · intro w hw
    rw [hwaiters] at hw
    exact absurd hw List.not_mem_nil

/-- Closing a watched reader takes it off. -/
theorem close_off {ua : UringAsync.State (ℕ × ℤ)} (h : UringAsync.Watched ua)
    (hclosed : ua.closed = false) : ua.close.registered = false ∧ ua.close.waiters = [] ∧
      ua.close.posted = ua.posted ∧ ua.close.reaped = ua.reaped := by
  have hoff : UringAsync.Off ({ ua with closed := true } : UringAsync.State _).removeReader :=
    UringAsync.off_removeReader h.ctxOpen h.registered
  unfold UringAsync.State.close
  rw [if_neg (by simp [hclosed])]
  exact ⟨hoff.registered, rfl, UringAsync.posted_removeReader _, UringAsync.reaped_removeReader _⟩

/-- What closing comes to on a ring, on nothing, and on a file object. -/
theorem acloseUnlocked_ring (hclosed : s.closed = false) (huring : s.uring = true)
    (hfp : s.fp = none) : s.acloseUnlocked u = ({ s with
      closed := true, uring := false, ua := { s.ua.close with ctxOpen := false } } : State).finish u
        .none := by
  simp [State.acloseUnlocked, hclosed, huring, hfp]

theorem acloseUnlocked_none (hclosed : s.closed = false) (huring : s.uring = false)
    (hfp : s.fp = none) :
    s.acloseUnlocked u = ({ s with closed := true } : State).finish u .none := by
  simp [State.acloseUnlocked, hclosed, huring, hfp]

theorem acloseUnlocked_file (hclosed : s.closed = false) (huring : s.uring = false) {p : ℕ}
    (hfp : s.fp = some p) : s.acloseUnlocked u =
      ({ s with closed := true, fp := none } : State).setTask u .inExecutor := by
  simp [State.acloseUnlocked, hclosed, huring, hfp]

theorem acloseUnlocked_closed (hclosed : s.closed = true) :
    s.acloseUnlocked u = s.finish u .none := if_pos hclosed

theorem Live.aclose (h : Live s) (hfree : s.lock = none) (hop : s.op u = .aclose) {log : List Ev}
    (hlocked : t = { s with lock := some u, log := log }) (hledger : Ledger (t.acloseUnlocked u))
    (hgood : UringAsync.Good (t.acloseUnlocked u).ua) : Live (t.acloseUnlocked u) := by
  have hnone := h.waiters_free hfree
  have htclosed : t.closed = s.closed := by rw [hlocked]
  have hturing : t.uring = s.uring := by rw [hlocked]
  have htfp : t.fp = s.fp := by rw [hlocked]
  rcases s.closed.eq_false_or_eq_true with hclosed | hclosed
  · rw [acloseUnlocked_closed (htclosed.trans hclosed)] at hledger hgood ⊢
    subst hlocked
    exact h.offline hfree hledger hgood rfl rfl rfl rfl rfl rfl rfl rfl hnone h.path
      (fun hs => (h.off hs).1) (x := .done .none) (by simp) (by simp) (by simp) rfl
  rcases s.uring.eq_false_or_eq_true with huring | huring
  · obtain ⟨hfp, hwatched, huaClosed⟩ := h.path huring
    obtain ⟨hreg, hws, hposted, hreaped⟩ := close_off hwatched huaClosed
    have hring := acloseUnlocked_ring (u := u) (htclosed.trans hclosed) (hturing.trans huring)
      (htfp.trans hfp)
    rw [hring] at hledger hgood ⊢
    subst hlocked
    exact h.offline hfree hledger hgood rfl rfl rfl rfl rfl rfl hposted hreaped hws
      (fun hs => absurd hs (by simp [State.finish, State.ret])) (fun _ => hreg)
      (x := .done .none) (by simp) (by simp) (by simp) rfl
  have hoff := (h.off huring).1
  obtain hfp | ⟨p, hfp⟩ := Option.eq_none_or_eq_some s.fp
  · have hempty := acloseUnlocked_none (u := u) (htclosed.trans hclosed) (hturing.trans huring)
      (htfp.trans hfp)
    rw [hempty] at hledger hgood ⊢
    subst hlocked
    exact h.offline hfree hledger hgood rfl rfl rfl rfl rfl rfl rfl rfl hnone h.path
      (fun _ => hoff) (x := .done .none) (by simp) (by simp) (by simp) rfl
  · have hfile := acloseUnlocked_file (u := u) (htclosed.trans hclosed) (hturing.trans huring)
      (htfp.trans hfp)
    rw [hfile] at hledger hgood ⊢
    subst hlocked
    exact h.offline hfree hledger hgood rfl rfl rfl rfl rfl rfl rfl rfl hnone
      (fun hs => absurd (huring.symm.trans hs) (by simp)) (fun _ => hoff) (x := .inExecutor)
      (by simp) (by simp) (fun _ => Or.inl hop) rfl

theorem Live.acquire (h : Live s) {submitRet : ℤ} (ht : s.acquire u submitRet = some t)
    (hgood : UringAsync.Good t.ua) : Live t := by
  have hledger := h.ledger.acquire ht
  obtain ⟨-, hfree, rfl⟩ := acquire_cases ht
  have hnone := h.waiters_free hfree
  by_cases hop : s.op u = .aclose
  · have hlocked :
        ({ s with lock := some u, log := .locked u :: s.log } : State).locked u submitRet =
        ({ s with lock := some u, log := .locked u :: s.log } : State).acloseUnlocked u := by
      simp only [State.locked, hop]
    rw [hlocked] at hledger hgood ⊢
    exact h.aclose hfree hop rfl hledger hgood
  obtain hfp | ⟨p, hfp⟩ := Option.eq_none_or_eq_some s.fp
  swap
  · have hlocked :
        ({ s with lock := some u, log := .locked u :: s.log } : State).locked u submitRet =
        ({ s with lock := some u, log := .locked u :: s.log } : State).setTask u .inExecutor := by
      cases hopu : s.op u <;> simp_all [State.locked]
    rw [hlocked] at hledger hgood ⊢
    exact h.offline hfree hledger hgood rfl rfl rfl rfl rfl rfl rfl rfl hnone h.path
      (fun hs => (h.off hs).1) (by simp) (by simp)
      (fun _ => Or.inr (by simp [State.setTask, hfp])) rfl
  · rcases s.uring.eq_false_or_eq_true with huring | huring
    · have hready := h.free_acquire (u := u) hfree huring
      rcases locked_cases (s := { s with lock := some u, log := .locked u :: s.log }) huring hfp hop
        submitRet with ⟨-, heq⟩ | ⟨io, -, heq⟩
      · rw [heq] at hledger hgood ⊢
        exact hready.finish hledger hgood
      · rw [heq] at hledger hgood ⊢
        exact hready.submit hledger hgood
    · have hlocked : ({ s with lock := some u, log := .locked u :: s.log } : State).locked u
          submitRet = ({ s with lock := some u, log := .locked u :: s.log } : State).finish u
            (.error .assertionError) := by
        cases hopu : s.op u <;> simp_all [State.locked]
      rw [hlocked] at hledger hgood ⊢
      exact h.offline hfree hledger hgood rfl rfl rfl rfl rfl rfl rfl rfl hnone h.path
        (fun hs => (h.off hs).1) (x := .done (.error .assertionError)) (by simp) (by simp) (by simp)
        rfl

/-- What a call is handed as its own is in the ring's history. -/
theorem Live.posted_of_result (h : Live s) {w n : ℕ} {c : ℕ × ℤ}
    (hc : s.ua.call w = .awaiting (.result n c) false) : c ∈ s.ua.posted :=
  List.mem_of_getElem? (h.good.given w n c (by rw [hc]; rfl)).1

theorem Live.resume (h : Live s) {submitRet : ℤ} (ht : s.resume u submitRet = some t)
    (hgood : UringAsync.Good t.ua) : Live t := by
  have hledger := h.ledger.resume ht
  unfold State.resume at ht
  split at ht
  · next io req w hu =>
    obtain ⟨ua, hua, rfl⟩ := Option.map_eq_some_iff.mp ht
    have hstay : Free { s with ua := ua } u :=
      h.free_resume hu hua h.sized.pos s.log
    rcases resume_ends hua with ⟨n, ⟨gotUd, res⟩, hc, hret⟩ | ⟨-, ⟨exc, hraise⟩ | hcancel⟩
    · simp only [hret] at hledger hgood ⊢
      have hgot : Free { s with ua := ua, log := .got u req gotUd res :: s.log } u :=
        h.free_resume hu hua h.sized.pos _
      unfold State.onCompletion at hledger hgood ⊢
      simp only at hledger hgood ⊢
      split at hledger
      · next hne =>
        rw [if_pos hne] at hgood ⊢
        exact hgot.finish hledger hgood
      next heq =>
      rw [if_neg heq] at hgood ⊢
      split at hledger
      · next hneg =>
        rw [if_pos hneg] at hgood ⊢
        exact hgot.finish hledger hgood
      next hneg =>
      rw [if_neg hneg] at hgood ⊢
      obtain rfl : gotUd = req.ud := not_ne_iff.mp heq
      have hmoved : Free { s with
          ua := ua, pos := s.pos + res.toNat, log := .got u req req.ud res :: s.log } u :=
        h.free_resume hu hua ((h.waits u io req w hu).within res (h.posted_of_result hc)
          (Int.not_lt.mp hneg)) _
      cases io with
      | read loop =>
        simp only at hledger hgood ⊢
        cases hfeed : loop.feed ((s.buf req.ud).take res.toNat) with
        | inl loop' =>
          simp only [hfeed] at hledger hgood ⊢
          exact hmoved.submit hledger hgood
        | inr out =>
          simp only [hfeed] at hledger hgood ⊢
          exact hmoved.finish hledger hgood
      | write data => exact hmoved.finish hledger hgood
    · simp only [hraise] at hledger hgood ⊢
      exact hstay.finish hledger hgood
    · simp only [hcancel] at hledger hgood ⊢
      exact hstay.finish hledger hgood
  · next o hu =>
    obtain rfl := Option.some.inj ht
    refine h.frame hledger rfl rfl (fun _ _ => rfl) rfl rfl (Nat.le_refl _) rfl rfl rfl
      (h.called_update (by simp)) (fun v hv => Or.inl ?_) fun v io req w =>
        awaiting_update_iff (by rw [hu]; simp) (by simp) io req w
    by_cases hvu : v = u
    · rw [hvu] at hv
      exact absurd ((task_setTask_self u _ s).symm.trans hv) (by simp)
    · exact (task_setTask_of_ne hvu _ _).symm.trans hv
  · exact absurd ht (by simp)

/-- **Whoever waits is waited for**, in every run. -/
theorem live_step (h : Live s) (ht : step flags s e = some t) : Live t := by
  have hgood := good_step h.good ht
  cases e with
  | call op =>
    rw [← Option.some.inj ht]
    exact h.call op
  | acquire u submitRet => exact h.acquire ht hgood
  | complete i res => exact h.complete ht hgood
  | onReadable waitRet peeks =>
    obtain ⟨ua, hua, rfl⟩ := Option.map_eq_some_iff.mp ht
    obtain ⟨hon, hua⟩ := Option.ite_none_right_eq_some.mp hua
    exact h.onReadable hon hua hgood
  | runJob u most => exact h.runJob ht
  | resume u submitRet => exact h.resume ht hgood
  | cancel u => exact h.cancel (ledger_step h.ledger ht) ht

theorem live_aenter (flags : Flags) (uring : Bool) (content : List UInt8) :
    Live (aenter flags uring content) where
  ledger := ledger_aenter flags uring content
  good := UringAsync.good_init
  sized := by
    refine ⟨?_, by simp [aenter], by simp [aenter, UringAsync.State.init], Nat.le_refl _⟩
    unfold aenter
    simp only
    split
    · split
      · exact Nat.le_refl _
      · exact Nat.zero_le _
    · exact Nat.zero_le _
  called v hv := absurd hv (Nat.not_lt_zero v)
  path hon := ⟨by simp [aenter, show uring = true from hon], UringAsync.watched_init, rfl⟩
  off _ := ⟨rfl, rfl⟩
  job v hv := absurd hv (by simp [aenter])
  waits v io req w hv := absurd hv (by simp [aenter])
  waiters w hw := absurd hw List.not_mem_nil
  enough hne := absurd rfl hne

theorem live_reach {P : State → Event → Prop} {uring : Bool} {content : List UInt8}
    (h : Reach (step flags) P (aenter flags uring content) s) : Live s :=
  h.invariant (live_aenter flags uring content) fun _ _ _ hl _ ht => live_step hl ht

/-! ## Something can happen -/

theorem exists_resume {ua : UringAsync.State (ℕ × ℤ)} {w : ℕ} {fut : UringAsync.Fut (ℕ × ℤ)}
    {b : Bool} (hcall : ua.call w = .awaiting fut b) (hdone : fut ≠ .pending) :
    ∃ ua', ua.resume w = some ua' := by
  unfold UringAsync.State.resume
  rw [hcall]
  cases fut with
  | pending => exact absurd rfl hdone
  | result n c => cases b <;> exact ⟨_, rfl⟩
  | exception exc => cases b <;> exact ⟨_, rfl⟩
  | cancelled => exact ⟨_, rfl⟩

/-- A call that waits for a completion is handed one, or the kernel has a request to
complete. -/
theorem Live.moves_awaiting (h : Live s) {io : Io} {req : Request} {w : ℕ}
    (hu : s.task u = .awaiting io req w) : ∃ e t, e.GoesOn ∧ step flags s e = some t := by
  have hwaits := h.waits u io req w hu
  obtain ⟨-, hwatched, hclosed⟩ := h.path hwaits.uring
  have hisAwaiting := hwaits.call
  cases hcall : s.ua.call w with
  | awaiting fut b =>
    by_cases hpending : fut = .pending
    · subst hpending
      have hmem := (h.good.pending w b hcall).1
      have hone : s.ua.waiters = [w] :=
        (h.waiters_sub hu).resolve_left fun hnil => by
          rw [hnil] at hmem
          exact absurd hmem (by simp)
      have hon : s.ua.registered = true := by
        rw [hwatched.registered]
        exact (hwatched.active hclosed).mpr (by simp [hone])
      rcases h.enough (by simp [hone]) with hinflight | hring
      · obtain ⟨r, rs, hr⟩ := List.exists_cons_of_ne_nil hinflight
        have hperform : r.perform flags (-1) s.file = some (s.file, []) := by
          rw [Request.perform, if_pos (by decide)]
        exact ⟨.complete 0 (-1), _, trivial, complete_of_perform (by rw [hr]; rfl) hperform⟩
      · have hhead : s.ua.head = some s.ua.posted[s.ua.reaped] := List.getElem?_eq_getElem hring
        have hsome : ∃ ua, s.ua.onReadable 0 none = some ua := by
          unfold UringAsync.State.onReadable
          simp [UringAsync.State.ensureCtxOpen, hclosed, hwatched.ctxOpen, hone, hhead,
            UringAsync.State.deliverPeekChain]
        obtain ⟨ua, hua⟩ := hsome
        exact ⟨.onReadable 0 none, { s with ua := ua }, trivial,
          by simp [step, UringAsync.step, hon, hua]⟩
    · obtain ⟨ua, hua⟩ := exists_resume hcall hpending
      obtain ⟨t, ht⟩ : ∃ t, s.resume u 0 = some t := by
        simp only [State.resume, hu, hua, Option.map_some]
        exact ⟨_, rfl⟩
      exact ⟨.resume u 0, t, trivial, ht⟩
  | returned n c =>
    rw [hcall] at hisAwaiting
    exact absurd hisAwaiting (by simp [UringAsync.Call.isAwaiting])
  | raised exc =>
    rw [hcall] at hisAwaiting
    exact absurd hisAwaiting (by simp [UringAsync.Call.isAwaiting])
  | cancelled =>
    rw [hcall] at hisAwaiting
    exact absurd hisAwaiting (by simp [UringAsync.Call.isAwaiting])

/-- **No deadlock**: as long as a call has not returned there is a step. -/
theorem Live.moves (h : Live s) (hnot : ¬ AllReturned s) :
    ∃ e t, e.GoesOn ∧ step flags s e = some t := by
  unfold AllReturned at hnot
  push Not at hnot
  obtain ⟨u, hu, hopen⟩ := hnot
  obtain hfree | ⟨v, hlock⟩ := Option.eq_none_or_eq_some s.lock
  · have hwait : s.task u = .waitingLock := by
      have hidle := h.ledger.not_running hfree u
      cases htask : s.task u with
      | notCalled => exact absurd htask (h.called u hu)
      | waitingLock => rfl
      | awaiting io req w => exact absurd (by rw [htask]; rfl) hidle
      | inExecutor => exact absurd (by rw [htask]; rfl) hidle
      | executed o => exact absurd (by rw [htask]; rfl) hidle
      | done o => exact absurd htask (hopen o)
    exact ⟨.acquire u 0, _, trivial, if_pos ⟨hwait, hfree⟩⟩
  · have hrun := h.ledger.running_of_lock hlock
    cases htask : s.task v with
    | notCalled => exact absurd hrun (by rw [htask]; simp [Task.isRunning])
    | waitingLock => exact absurd hrun (by rw [htask]; simp [Task.isRunning])
    | done o => exact absurd hrun (by rw [htask]; simp [Task.isRunning])
    | awaiting io req w => exact h.moves_awaiting htask
    | executed o =>
      have hresume : s.resume v 0 = some (s.finish v o) := by simp only [State.resume, htask]
      exact ⟨.resume v 0, _, trivial, hresume⟩
    | inExecutor =>
      have hjob : ∃ t, s.runJob flags v 0 = some t := by
        unfold State.runJob
        rw [htask]
        rcases h.job v htask with hop | hfp
        · rw [hop]
          exact ⟨_, rfl⟩
        · obtain ⟨p, hp⟩ := Option.isSome_iff_exists.mp hfp
          rw [hp]
          cases s.op v with
          | read n => exact ⟨_, rfl⟩
          | write data => exact ⟨_, rfl⟩
          | aclose => exact ⟨_, rfl⟩
      obtain ⟨t, ht⟩ := hjob
      exact ⟨.runJob v 0, t, trivial, ht⟩

/-! ## The measure -/

/-- The most slices a read may still take, when at most `lag` bytes are ahead of it. -/
def Io.slices (lag : ℕ) : Io → ℕ
  | .read (.untilEof _) => lag + 1
  | .read (.upTo _ remaining) => remaining + 1
  | .write _ => 1

/-- What a call has to write. -/
def Op.payload : Op → ℕ
  | .write data => data.length
  | _ => 0

namespace State

/-- What a call that waits for the lock has to write. -/
def unwritten (s : State) (v : ℕ) : ℕ := if s.task v = .waitingLock then (s.op v).payload else 0

/-- What there is still to be written. -/
def toWrite (s : State) : ℕ :=
  ((s.queued ++ s.inflight).map fun r => r.op.payload).sum +
    ∑ v ∈ Finset.range s.calls, s.unwritten v

/-- How far the end of the file can ever be ahead of the position, which only a file on a ring
has. -/
def lag (s : State) : ℕ := if s.uring then s.file.length + s.toWrite - s.pos else 0

/-- What a call may still do. -/
def effort (s : State) (v : ℕ) : ℕ :=
  match s.task v with
  | .waitingLock =>
    4 + match (s.op v).start with
      | some io => 4 * io.slices s.lag
      | none => 0
  | .awaiting io _ _ => 4 * io.slices s.lag
  | .inExecutor => 2
  | .executed _ => 1
  | .notCalled => 0
  | .done _ => 0

/-- What the kernel and the loop may still do. -/
def ringEffort (s : State) : ℕ :=
  2 * (s.queued.length + s.inflight.length) + (s.ua.posted.length - s.ua.reaped) +
    s.ua.registered.toNat

def totalEffort (s : State) : ℕ := s.ringEffort + ∑ v ∈ Finset.range s.calls, s.effort v

end State

/-- A sum of which one summand changes. -/
theorem sum_change {n : ℕ} (hu : u < n) {f g : ℕ → ℕ} (hle : ∀ v, v ≠ u → g v ≤ f v) :
    ∑ v ∈ Finset.range n, g v + f u ≤ ∑ v ∈ Finset.range n, f v + g u := by
  have hmem : u ∈ Finset.range n := Finset.mem_range.mpr hu
  rw [← Finset.add_sum_erase _ f hmem, ← Finset.add_sum_erase _ g hmem]
  have hrest : ∑ v ∈ (Finset.range n).erase u, g v ≤ ∑ v ∈ (Finset.range n).erase u, f v :=
    Finset.sum_le_sum fun v hv => hle v (Finset.ne_of_mem_erase hv)
  omega

theorem Io.slices_mono {lag lag' : ℕ} (h : lag ≤ lag') (io : Io) :
    io.slices lag ≤ io.slices lag' := by
  cases io with
  | read loop =>
    cases loop with
    | untilEof chunks => exact Nat.succ_le_succ h
    | upTo out remaining => exact Nat.le_refl _
  | write data => exact Nat.le_refl _

/-- The file can only get nearer to its end when what there is to write only gets less. -/
theorem lag_le (huring : t.uring = true → s.uring = true ∧ s.pos ≤ t.pos ∧
      t.file.length + t.toWrite ≤ s.file.length + s.toWrite) : t.lag ≤ s.lag := by
  unfold State.lag
  split
  · next hon =>
    obtain ⟨hon', hpos, hbytes⟩ := huring hon
    rw [if_pos hon']
    omega
  · exact Nat.zero_le _

/-- A call that does what it did has no more to do than it had. -/
theorem effort_le {v : ℕ} (htask : t.task v = s.task v) (hop : t.op v = s.op v)
    (hlag : t.lag ≤ s.lag) : t.effort v ≤ s.effort v := by
  unfold State.effort
  rw [htask, hop]
  split
  · refine Nat.add_le_add_left ?_ 4
    split
    · exact Nat.mul_le_mul_left 4 (Io.slices_mono hlag _)
    · exact Nat.le_refl _
  · exact Nat.mul_le_mul_left 4 (Io.slices_mono hlag _)
  · exact Nat.le_refl _
  · exact Nat.le_refl _
  · exact Nat.le_refl _
  · exact Nat.le_refl _

/-- What a step has to pay for: its own call and the ring. -/
theorem totalEffort_lt (hu : u < s.calls) (hcalls : t.calls = s.calls) (hop : t.op = s.op)
    (htask : ∀ v, v ≠ u → t.task v = s.task v) (hlag : t.lag ≤ s.lag)
    (hpay : t.ringEffort + t.effort u < s.ringEffort + s.effort u) :
    t.totalEffort < s.totalEffort := by
  have hsum := sum_change hu (f := s.effort) (g := t.effort) fun v hv =>
    effort_le (htask v hv) (by rw [hop]) hlag
  unfold State.totalEffort
  rw [hcalls]
  omega

/-- A step that no call takes. -/
theorem totalEffort_lt_of_ring (hcalls : t.calls = s.calls) (hop : t.op = s.op)
    (htask : t.task = s.task) (hlag : t.lag ≤ s.lag)
    (hpay : t.ringEffort < s.ringEffort) : t.totalEffort < s.totalEffort := by
  have hsum : ∑ v ∈ Finset.range s.calls, t.effort v ≤ ∑ v ∈ Finset.range s.calls, s.effort v :=
    Finset.sum_le_sum fun v _ => effort_le (by rw [htask]) (by rw [hop]) hlag
  unfold State.totalEffort
  rw [hcalls]
  omega

/-- What there is to write, when one call moves. -/
theorem toWrite_le (hu : u < s.calls) (hcalls : t.calls = s.calls) (hop : t.op = s.op)
    (htask : ∀ v, v ≠ u → t.task v = s.task v)
    {k : ℕ} (hk : ((t.queued ++ t.inflight).map fun r => r.op.payload).sum + t.unwritten u + k ≤
      ((s.queued ++ s.inflight).map fun r => r.op.payload).sum + s.unwritten u) :
    t.toWrite + k ≤ s.toWrite := by
  have hsum := sum_change hu (f := s.unwritten) (g := t.unwritten) fun v hv => by
    unfold State.unwritten
    rw [htask v hv, hop]
  unfold State.toWrite
  rw [hcalls]
  omega

theorem effort_of_task {v : ℕ} : (∀ o, s.task v = .done o → s.effort v = 0) ∧
    (∀ o, s.task v = .executed o → s.effort v = 1) ∧ (s.task v = .inExecutor → s.effort v = 2) ∧
    (s.task v = .waitingLock → 4 ≤ s.effort v) ∧
    ∀ io req w, s.task v = .awaiting io req w → s.effort v = 4 * io.slices s.lag := by
  unfold State.effort
  refine ⟨fun o h => by rw [h], fun o h => by rw [h], fun h => by rw [h], fun h => ?_,
    fun io req w h => by rw [h]⟩
  rw [h]
  exact Nat.le_add_right _ _

theorem Live.lowers_complete (h : Live s) {i : ℕ} {res : ℤ} (ht : s.complete flags i res = some t) :
    t.totalEffort < s.totalEffort := by
  obtain ⟨req, file, data, hreq, hperform, rfl⟩ := complete_cases ht
  have hmem : req ∈ s.queued ++ s.inflight :=
    List.mem_append_right _ (List.mem_of_getElem? hreq)
  obtain ⟨-, hrest⟩ := length_perform hperform
  have hgrow := (hrest (h.sized.requests req hmem).1).1
  have hsum := CompletionRing.sum_map_eraseIdx hreq fun r => r.op.payload
  have hlen : (s.inflight.eraseIdx i).length + 1 = s.inflight.length := by
    obtain ⟨hi, -⟩ := List.getElem?_eq_some_iff.mp hreq
    rw [List.length_eraseIdx_of_lt hi]
    omega
  have hreaped := h.sized.reaped
  refine totalEffort_lt_of_ring rfl rfl rfl (lag_le fun hon => ⟨hon, Nat.le_refl _, ?_⟩) ?_
  · unfold State.toWrite
    simp only [List.map_append, List.sum_append, State.unwritten]
    omega
  · unfold State.ringEffort
    simp only [List.length_append, List.length_singleton]
    omega

theorem Live.lowers_onReadable (h : Live s) {ua : UringAsync.State (ℕ × ℤ)} {waitRet : ℤ}
    {peeks : Option ℕ} (hon : s.ua.registered = true)
    (hua : s.ua.onReadable waitRet peeks = some ua) :
    ({ s with ua := ua } : State).totalEffort < s.totalEffort := by
  have huring : s.uring = true := by
    rcases s.uring.eq_false_or_eq_true with hs | hs
    · exact hs
    · exact absurd hon (by simp [(h.off hs).1])
  obtain ⟨-, hwatched, hclosed⟩ := h.path huring
  obtain ⟨-, hoff, -, hposted, hreaped, -⟩ := onReadable_settles hwatched hclosed h.waiters_le hua
  refine totalEffort_lt_of_ring rfl rfl rfl
    (lag_le fun hon => ⟨hon, Nat.le_refl _, Nat.le_refl _⟩) ?_
  unfold State.ringEffort
  simp only [hoff, hon, hposted, Bool.toNat_false, Bool.toNat_true]
  omega

theorem Live.lowers_runJob (h : Live s) (ht : s.runJob flags u most = some t) :
    t.totalEffort < s.totalEffort := by
  obtain ⟨-, hsame⟩ := runJob_length ht
  obtain ⟨hu, file, fp, o, -, -, rfl⟩ := runJob_cases ht
  have hlt := h.ledger.lt_calls (by rw [hu]; simp)
  refine totalEffort_lt hlt rfl rfl (fun v hv => task_setTask_of_ne hv _ _)
    (lag_le fun hon => ⟨hon, Nat.le_refl _, ?_⟩) ?_
  · have hfile := hsame (h.path hon).1
    have hwrite := toWrite_le (s := s)
      (t := ({ s with file := file, fp := fp } : State).setTask u (.executed o)) hlt rfl rfl
      (fun v hv => task_setTask_of_ne hv _ _) (k := 0) (by
        simp only [State.unwritten, State.setTask, Function.update_self, hu]
        simp)
    rw [hfile]
    omega
  · rw [effort_of_task.2.1 o (task_setTask_self _ _ _), effort_of_task.2.2.1 hu]
    exact Nat.lt_succ_self _

/-- A call that waited for the lock and makes no request. -/
theorem Live.lowers_offline (h : Live s) (hu : s.task u = .waitingLock) (hcalls : t.calls = s.calls)
    (hop : t.op = s.op) (hfile : t.file = s.file) (hpos : t.pos = s.pos)
    (hqueued : t.queued = s.queued) (hinflight : t.inflight = s.inflight)
    (huring : t.uring = true → s.uring = true) (hring : t.ringEffort ≤ s.ringEffort) {x : Task}
    (hx : x = .inExecutor ∨ ∃ o, x = .done o) (htask : t.task = Function.update s.task u x) :
    t.totalEffort < s.totalEffort := by
  have hlt := h.ledger.lt_calls (by rw [hu]; simp)
  have hself : t.task u = x := by rw [htask, Function.update_self]
  have hothers : ∀ v, v ≠ u → t.task v = s.task v := fun v hv => by
    rw [htask, Function.update_of_ne hv]
  have hidle : t.unwritten u = 0 := by
    unfold State.unwritten
    rw [hself]
    rcases hx with rfl | ⟨o, rfl⟩ <;> exact if_neg (by simp)
  have hwrite := toWrite_le hlt hcalls hop hothers (k := 0) (by
    rw [hqueued, hinflight, hidle]
    omega)
  refine totalEffort_lt hlt hcalls hop hothers
    (lag_le fun hon => ⟨huring hon, hpos.ge, by rw [hfile]; omega⟩) ?_
  have hfour := effort_of_task.2.2.2.1 hu
  have hle : t.effort u ≤ 2 := by
    rcases hx with rfl | ⟨o, rfl⟩
    · exact (effort_of_task.2.2.1 hself).le
    · rw [effort_of_task.1 o hself]
      exact Nat.zero_le _
  omega

/-- What a submission spends: an entry, and a reader that is put on. -/
structure Spends (s t : State) (u : ℕ) (io : Io) : Prop where
  calls : t.calls = s.calls
  op : t.op = s.op
  file : t.file = s.file
  pos : t.pos = s.pos
  uring : t.uring = s.uring
  others : ∀ v, v ≠ u → t.task v = s.task v
  ring : t.ringEffort ≤ s.ringEffort + 3
  bytes : ((t.queued ++ t.inflight).map fun r => r.op.payload).sum ≤
    ((s.queued ++ s.inflight).map fun r => r.op.payload).sum + io.reqOp.payload
  unwritten : t.unwritten u = 0
  effort : t.effort u ≤ 4 * io.slices t.lag

theorem spends_submit (u : ℕ) (io : Io) (submitRet : ℤ) (s : State) :
    Spends s (s.submit u io submitRet) u io := by
  obtain ⟨hposted, hreaped, -, -⟩ := posted_waitCompletion s.ua
  have hon : s.ua.waitCompletion.registered.toNat ≤ 1 := Bool.toNat_le _
  have hdone : ∀ {v : State} {o : Outcome}, (v.finish u o).unwritten u = 0 ∧
      (v.finish u o).effort u ≤ 4 * io.slices (v.finish u o).lag := by
    intro v o
    have htask : (v.finish u o).task u = .done o := Function.update_self _ _ _
    refine ⟨?_, ?_⟩
    · unfold State.unwritten
      rw [htask]
      exact if_neg (by simp)
    · rw [effort_of_task.1 o htask]
      exact Nat.zero_le _
  have hothers : ∀ {v : State} {o : Outcome}, v.task = s.task →
      ∀ w, w ≠ u → (v.finish u o).task w = s.task w := fun htask w hw =>
    (Function.update_of_ne hw _ _).trans (congrFun htask w)
  unfold State.submit
  simp only
  split
  · exact ⟨rfl, rfl, rfl, rfl, rfl, hothers rfl, Nat.le_add_right _ _, Nat.le_add_right _ _,
      hdone.1, hdone.2⟩
  split
  · refine ⟨rfl, rfl, rfl, rfl, rfl, hothers rfl, ?_, ?_, hdone.1, hdone.2⟩
    · change 2 * ((s.queued ++ [_]).length + s.inflight.length) +
        (s.ua.posted.length - s.ua.reaped) +
        s.ua.registered.toNat ≤ _
      unfold State.ringEffort
      simp only [List.length_append, List.length_singleton]
      omega
    · change (((s.queued ++ [_]) ++ s.inflight).map fun r : Request => r.op.payload).sum ≤ _
      simp only [List.map_append, List.sum_append, List.map_cons, List.map_nil, List.sum_cons,
        List.sum_nil]
      omega
  · have hring : 2 * (([] : List Request).length + (s.inflight ++ (s.queued ++
        [(⟨s.ud, io.reqOp, s.pos⟩ : Request)])).length) + (s.ua.waitCompletion.posted.length -
          s.ua.waitCompletion.reaped) + s.ua.waitCompletion.registered.toNat ≤
            s.ringEffort + 3 := by
      rw [hposted, hreaped]
      unfold State.ringEffort
      simp only [List.length_append, List.length_singleton, List.length_nil]
      omega
    have hbytes : ((([] : List Request) ++ (s.inflight ++ (s.queued ++
        [(⟨s.ud, io.reqOp, s.pos⟩ : Request)]))).map fun r => r.op.payload).sum ≤
          ((s.queued ++ s.inflight).map fun r => r.op.payload).sum + io.reqOp.payload := by
      simp only [List.nil_append, List.map_append, List.sum_append, List.map_cons, List.map_nil,
        List.sum_cons, List.sum_nil]
      omega
    split
    · exact ⟨rfl, rfl, rfl, rfl, rfl, hothers rfl, hring, hbytes, hdone.1, hdone.2⟩
    · refine ⟨rfl, rfl, rfl, rfl, rfl, fun w hw => Function.update_of_ne hw _ _, hring, hbytes,
        ?_, ?_⟩
      · unfold State.unwritten
        rw [task_setTask_self]
        exact if_neg (by simp)
      · exact (effort_of_task.2.2.2.2 io _ _ (task_setTask_self u _ _)).le

/-- A call that makes a request has enough left for it. -/
theorem Spends.lowers {s₁ : State} {io : Io} (h : Spends s₁ t u io) (hu : u < s.calls)
    (hcalls : s₁.calls = s.calls) (hop : s₁.op = s.op) (hfile : s₁.file = s.file)
    (hpos : s.pos ≤ s₁.pos) (hwithin : s₁.pos ≤ s.file.length) (hon : s.uring = true)
    (huring : s₁.uring = s.uring) (htask : s₁.task = s.task)
    (hqueued : s₁.queued = s.queued) (hinflight : s₁.inflight = s.inflight)
    (hring : s₁.ringEffort ≤ s.ringEffort) (hbytes : io.reqOp.payload ≤ s.unwritten u)
    (heffort : t.lag + (s₁.pos - s.pos) ≤ s.lag → 4 * io.slices t.lag + 3 < s.effort u) :
    t.totalEffort < s.totalEffort := by
  have hothers : ∀ v, v ≠ u → t.task v = s.task v := fun v hv =>
    (h.others v hv).trans (congrFun htask v)
  have hsum := h.bytes
  rw [hqueued, hinflight] at hsum
  have hwrite := toWrite_le hu (h.calls.trans hcalls) (h.op.trans hop) hothers (k := 0) (by
    rw [h.unwritten]
    omega)
  have hlag : t.lag + (s₁.pos - s.pos) ≤ s.lag := by
    unfold State.lag
    rw [h.uring, huring, if_pos hon, if_pos hon, h.pos, h.file, hfile]
    omega
  have hleft := heffort hlag
  have hcost := h.ring
  have hself := h.effort
  exact totalEffort_lt hu (h.calls.trans hcalls) (h.op.trans hop) hothers
    ((Nat.le_add_right _ _).trans hlag) (by omega)

/-- What a write asks the kernel to write is not more than what it was given. -/
theorem payload_start {op : Op} {io : Io} (h : op.start = some io) :
    io.reqOp.payload ≤ op.payload := by
  cases op with
  | read n =>
    simp only [Op.start] at h
    split_ifs at h <;> rw [← Option.some.inj h] <;> exact Nat.zero_le _
  | write data =>
    rw [← Option.some.inj h]
    change (data.take _).length ≤ data.length
    rw [List.length_take]
    exact Nat.min_le_right _ _
  | aclose => exact absurd h (by simp [Op.start])

theorem Live.lowers_acquire (h : Live s) {submitRet : ℤ} (ht : s.acquire u submitRet = some t) :
    t.totalEffort < s.totalEffort := by
  obtain ⟨hu, hfree, rfl⟩ := acquire_cases ht
  have hlt := h.ledger.lt_calls (by rw [hu]; simp)
  have hdone : ∀ {o : Outcome}, Task.done o = .inExecutor ∨ ∃ o', Task.done o = .done o' :=
    Or.inr ⟨_, rfl⟩
  by_cases hop : s.op u = .aclose
  · have hlocked :
        ({ s with lock := some u, log := .locked u :: s.log } : State).locked u submitRet =
        ({ s with lock := some u, log := .locked u :: s.log } : State).acloseUnlocked u := by
      simp only [State.locked, hop]
    rw [hlocked]
    rcases s.closed.eq_false_or_eq_true with hclosed | hclosed
    · rw [acloseUnlocked_closed (s := { s with lock := some u, log := .locked u :: s.log }) hclosed]
      exact h.lowers_offline hu rfl rfl rfl rfl rfl rfl id (Nat.le_refl _) hdone rfl
    rcases s.uring.eq_false_or_eq_true with huring | huring
    · obtain ⟨hfp, hwatched, huaClosed⟩ := h.path huring
      obtain ⟨hreg, -, hposted, hreaped⟩ := close_off hwatched huaClosed
      rw [acloseUnlocked_ring (s := { s with lock := some u, log := .locked u :: s.log }) hclosed
        huring hfp]
      refine h.lowers_offline hu rfl rfl rfl rfl rfl rfl (fun _ => huring) ?_ hdone rfl
      change 2 * (s.queued.length + s.inflight.length) + (s.ua.close.posted.length -
        s.ua.close.reaped) + s.ua.close.registered.toNat ≤ _
      rw [hreg, hposted, hreaped]
      exact Nat.le_add_right _ _
    obtain hfp | ⟨p, hfp⟩ := Option.eq_none_or_eq_some s.fp
    · rw [acloseUnlocked_none (s := { s with lock := some u, log := .locked u :: s.log }) hclosed
        huring hfp]
      exact h.lowers_offline hu rfl rfl rfl rfl rfl rfl id (Nat.le_refl _) hdone rfl
    · rw [acloseUnlocked_file (s := { s with lock := some u, log := .locked u :: s.log }) hclosed
        huring hfp]
      exact h.lowers_offline hu rfl rfl rfl rfl rfl rfl id (Nat.le_refl _) (Or.inl rfl) rfl
  obtain hfp | ⟨p, hfp⟩ := Option.eq_none_or_eq_some s.fp
  swap
  · have hlocked :
        ({ s with lock := some u, log := .locked u :: s.log } : State).locked u submitRet =
        ({ s with lock := some u, log := .locked u :: s.log } : State).setTask u .inExecutor := by
      cases hopu : s.op u <;> simp_all [State.locked]
    rw [hlocked]
    exact h.lowers_offline hu rfl rfl rfl rfl rfl rfl id (Nat.le_refl _) (Or.inl rfl) rfl
  rcases s.uring.eq_false_or_eq_true with huring | huring
  · rcases locked_cases (s := { s with lock := some u, log := .locked u :: s.log }) huring hfp hop
      submitRet with ⟨-, heq⟩ | ⟨io, hio, heq⟩
    · rw [heq]
      exact h.lowers_offline hu rfl rfl rfl rfl rfl rfl id (Nat.le_refl _) hdone rfl
    · rw [heq]
      have hwaits : s.unwritten u = (s.op u).payload := if_pos hu
      refine (spends_submit u io submitRet _).lowers hlt rfl rfl rfl (Nat.le_refl _) h.sized.pos
        huring
        rfl rfl rfl rfl (Nat.le_refl _) (hwaits ▸ payload_start hio) fun hlag => ?_
      have hmono := Io.slices_mono ((Nat.le_add_right _ _).trans hlag) io
      have heffort : s.effort u = 4 + 4 * io.slices s.lag := by
        unfold State.effort
        rw [hu]
        simp only [show (s.op u).start = some io from hio]
      omega
  · have hlocked : ({ s with lock := some u, log := .locked u :: s.log } : State).locked u
        submitRet = ({ s with lock := some u, log := .locked u :: s.log } : State).finish u
          (.error .assertionError) := by
      cases hopu : s.op u <;> simp_all [State.locked]
    rw [hlocked]
    exact h.lowers_offline hu rfl rfl rfl rfl rfl rfl id (Nat.le_refl _) hdone rfl

/-- A call that ends has done what it had to do. -/
theorem Live.lowers_finish (h : Live s) (hrun : (s.task u).isRunning = true) {s₁ : State}
    {o : Outcome} (hcalls : s₁.calls = s.calls) (hop : s₁.op = s.op) (hfile : s₁.file = s.file)
    (hpos : s.pos ≤ s₁.pos) (huring : s₁.uring = s.uring) (htask : s₁.task = s.task)
    (hqueued : s₁.queued = s.queued) (hinflight : s₁.inflight = s.inflight)
    (hring : s₁.ringEffort ≤ s.ringEffort) :
    (s₁.finish u o).totalEffort < s.totalEffort := by
  have hlt := h.ledger.lt_calls (ne_notCalled_of_running hrun)
  have hself : (s₁.finish u o).task u = .done o := Function.update_self _ _ _
  have hothers : ∀ v, v ≠ u → (s₁.finish u o).task v = s.task v := fun v hv =>
    (Function.update_of_ne hv _ _).trans (congrFun htask v)
  have hnone : s.unwritten u = 0 := if_neg (ne_waitingLock_of_running hrun)
  have hidle : (s₁.finish u o).unwritten u = 0 := by
    unfold State.unwritten
    rw [hself]
    exact if_neg (by simp)
  have hwrite := toWrite_le (t := s₁.finish u o) hlt hcalls hop hothers (k := 0) (by
    rw [hidle, hnone]
    change ((s₁.queued ++ s₁.inflight).map _).sum + 0 + 0 ≤ _
    rw [hqueued, hinflight])
  refine totalEffort_lt hlt hcalls hop hothers (lag_le fun hon => ⟨huring ▸ hon, hpos, ?_⟩) ?_
  · change s₁.file.length + _ ≤ _
    rw [hfile]
    omega
  · have hpositive : 0 < s.effort u := by
      cases hu : s.task u with
      | awaiting io req w =>
        rw [effort_of_task.2.2.2.2 io req w hu]
        cases io with
        | read loop => cases loop <;> simp [Io.slices]
        | write data => simp [Io.slices]
      | inExecutor => rw [effort_of_task.2.2.1 hu]; simp
      | executed o => rw [effort_of_task.2.1 o hu]; simp
      | notCalled => exact absurd hu (ne_notCalled_of_running hrun)
      | waitingLock => exact absurd hu (ne_waitingLock_of_running hrun)
      | done o => exact absurd hu (ne_done_of_running hrun o)
    rw [effort_of_task.1 o hself]
    change s₁.ringEffort + 0 < _
    omega

/-- A read that goes on has a slice less before it. -/
theorem slices_feed {loop loop' : ReadLoop} {piece : List UInt8}
    (h : loop.feed piece = .inl loop') {lag lag' : ℕ} (hlag : lag' + piece.length ≤ lag) :
    (Io.read loop').slices lag' + 1 ≤ (Io.read loop).slices lag := by
  cases loop with
  | untilEof chunks =>
    simp only [ReadLoop.feed] at h
    split_ifs at h with hnil hshort
    obtain rfl := Sum.inl.inj h
    have hpos : 0 < piece.length := List.length_pos_iff.mpr hnil
    simp only [Io.slices]
    omega
  | upTo out remaining =>
    simp only [ReadLoop.feed] at h
    split_ifs at h with hnil hshort hall
    obtain rfl := Sum.inl.inj h
    have hpos : 0 < piece.length := List.length_pos_iff.mpr hnil
    simp only [Io.slices]
    omega

/-- A call that is run again leaves the ring as it is, and the reader off. -/
theorem Free.ringEffort_le {ua : UringAsync.State (ℕ × ℤ)} {pos : ℕ} {log : List Ev}
    (h : Free { s with ua := ua, pos := pos, log := log } u) (hposted : ua.posted = s.ua.posted)
    (hreaped : ua.reaped = s.ua.reaped) :
    ({ s with ua := ua, pos := pos, log := log } : State).ringEffort ≤ s.ringEffort := by
  have hoff : ua.registered = false := by
    rw [h.watched.registered]
    exact Bool.eq_false_iff.mpr fun hon => (h.watched.active h.closed).mp hon h.waiters
  unfold State.ringEffort
  simp only [hoff, hposted, hreaped, Bool.toNat_false]
  omega

theorem length_take_toNat (buf : List UInt8) (res : ℤ) :
    (buf.take res.toNat).length ≤ res.toNat := by
  rw [List.length_take]
  exact Nat.min_le_left _ _

theorem Live.lowers_resume (h : Live s) {submitRet : ℤ} (ht : s.resume u submitRet = some t) :
    t.totalEffort < s.totalEffort := by
  unfold State.resume at ht
  split at ht
  · next io req w hu =>
    obtain ⟨ua, hua, rfl⟩ := Option.map_eq_some_iff.mp ht
    have hrun : (s.task u).isRunning = true := by rw [hu]; rfl
    obtain ⟨-, -, hposted, hreaped⟩ := frame_resume hua
    -- a call that ends may have moved the position before it does
    have hends : ∀ {pos log o}, s.pos ≤ pos → pos ≤ s.file.length →
        (({ s with ua := ua, pos := pos, log := log } : State).finish u o).totalEffort <
          s.totalEffort := fun hle hpos =>
      h.lowers_finish hrun rfl rfl rfl hle rfl rfl rfl rfl
        ((h.free_resume hu hua hpos _).ringEffort_le hposted hreaped)
    rcases resume_ends hua with ⟨n, ⟨gotUd, res⟩, hc, hret⟩ | ⟨-, ⟨exc, hraise⟩ | hcancel⟩
    · simp only [hret]
      unfold State.onCompletion
      simp only
      split
      · exact hends (Nat.le_refl _) h.sized.pos
      next heq =>
      split
      · exact hends (Nat.le_refl _) h.sized.pos
      next hneg =>
      obtain rfl : gotUd = req.ud := not_ne_iff.mp heq
      have hwithin :=
        (h.waits u io req w hu).within res (h.posted_of_result hc) (Int.not_lt.mp hneg)
      cases io with
      | write data => exact hends (Nat.le_add_right _ _) hwithin
      | read loop =>
        simp only
        cases hfeed : loop.feed ((s.buf req.ud).take res.toNat) with
        | inr out => exact hends (Nat.le_add_right _ _) hwithin
        | inl loop' =>
          simp only
          refine (spends_submit u (.read loop') submitRet _).lowers
            (h.ledger.lt_calls (by rw [hu]; simp)) rfl rfl rfl (Nat.le_add_right _ _) hwithin
            (h.waits u _ req w hu).uring rfl rfl rfl rfl
            ((h.free_resume hu hua hwithin _).ringEffort_le hposted hreaped) (Nat.zero_le _)
            fun hlag => ?_
          have hpiece := length_take_toNat (s.buf req.ud) res
          rw [Nat.add_sub_cancel_left] at hlag
          have hless := slices_feed hfeed ((Nat.add_le_add_left hpiece _).trans hlag)
          rw [effort_of_task.2.2.2.2 _ req w hu]
          omega
    · simp only [hraise]
      exact hends (Nat.le_refl _) h.sized.pos
    · simp only [hcancel]
      exact hends (Nat.le_refl _) h.sized.pos
  · next o hu =>
    obtain rfl := Option.some.inj ht
    exact h.lowers_finish (by rw [hu]; rfl) rfl rfl rfl (Nat.le_refl _) rfl rfl rfl rfl
      (Nat.le_refl _)
  · exact absurd ht (by simp)

/-- **Every step leaves less to do.** -/
theorem Live.lowers (h : Live s) (hon : e.GoesOn) (ht : step flags s e = some t) :
    t.totalEffort < s.totalEffort := by
  cases e with
  | call op => exact hon.elim
  | acquire u submitRet => exact h.lowers_acquire ht
  | complete i res => exact h.lowers_complete ht
  | onReadable waitRet peeks =>
    obtain ⟨ua, hua, rfl⟩ := Option.map_eq_some_iff.mp ht
    obtain ⟨hregistered, hua⟩ := Option.ite_none_right_eq_some.mp hua
    exact h.lowers_onReadable hregistered hua
  | runJob u most => exact h.lowers_runJob ht
  | resume u submitRet => exact h.lowers_resume ht
  | cancel u => exact hon.elim

/-- **Every call returns**: from whatever state a file has got to, when nothing new is called
and nobody is cancelled any more, the calls that are open return after a bounded number of
steps, whatever their order and whatever the kernel answers, and there is always a next
step. -/
theorem calls_return (flags : Flags) (uring : Bool) (content : List UInt8) {s : State}
    (h : Reach (step flags) AnyStep (aenter flags uring content) s) :
    Terminates (step flags) (fun _ e => e.GoesOn) AllReturned s :=
  terminates_of_measure State.totalEffort (live_reach h) (fun _ _ _ hl _ ht => live_step hl ht)
    (fun _ _ _ hl hon ht => hl.lowers hon ht) fun _ hl hnot => hl.moves hnot

/-- A read that was cancelled has left its request with the kernel, and a second read to the
end of the file waits behind a write. -/
def readLeft : List Event :=
  [.call (.read 2), .acquire 0 1, .cancel 0, .resume 0 0, .call (.write [4]), .acquire 1 1,
    .call (.read (-1))]

theorem calls_return_readLeft : ∃ s, exec (step ⟨true, true, false, false, false⟩)
      (aenter ⟨true, true, false, false, false⟩ true [1, 2, 3]) readLeft = some s ∧
    s.inflight = [⟨1, .read 2, 0⟩, ⟨2, .write [4], 0⟩] ∧
    Terminates (step ⟨true, true, false, false, false⟩) (fun _ e => e.GoesOn) AllReturned s :=
  ⟨_, rfl, rfl, calls_return ⟨true, true, false, false, false⟩ true [1, 2, 3]
    (reach_anyStep_of_exec (show exec _ _ readLeft = _ from rfl))⟩

end AsyncFile
end Pyuring
