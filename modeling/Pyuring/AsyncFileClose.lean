import Pyuring.AsyncFileLoop

/-!
# Closing a file that others wait for

A call looks whether the file is open before it asks for the lock, and the file is closed
by a call that has the lock.  A read or a write that waited meanwhile finds nothing it
could use: it raises `AssertionError`, on either path.  It does no harm.  Whatever the
calls and their order, a call past the lock has what it uses (`Custody`), and the file is
released once (`Custody.released_once`).
-/

namespace Pyuring
namespace AsyncFile

open Trace

/-- `ValueError("I/O operation on closed file")`. -/
def closedFile : Exn := .valueError "I/O operation on closed file"

/-- A read or a write takes the lock of a file that has been closed. -/
def LocksLate (s : State) : Event → Prop
  | .acquire u _ => s.task u = .waitingLock ∧ s.lock = none ∧ s.op u ≠ .aclose ∧ s.closed = true
  | .call _ => False
  | .complete _ _ => False
  | .onReadable _ _ => False
  | .runJob _ _ => False
  | .resume _ _ => False
  | .cancel _ => False

/-- The step closes the descriptor, the reader and the ring, or the file object. -/
def releases (s : State) : Event → Bool
  | .acquire u _ => decide (s.op u = .aclose) && !s.closed && s.uring
  | .runJob u _ => decide (s.op u = .aclose)
  | .call _ => false
  | .complete _ _ => false
  | .onReadable _ _ => false
  | .resume _ _ => false
  | .cancel _ => false

/-- How often a run releases what the file holds. -/
def releaseCount (flags : Flags) : State → List Event → ℕ
  | _, [] => 0
  | s, e :: es => match step flags s e with
    | none => 0
    | some t => (releases s e).toNat + releaseCount flags t es

/-- The file object is about to be closed in the executor. -/
def State.closing (s : State) : Bool :=
  s.lock.any fun u => decide (s.task u = .inExecutor) && decide (s.op u = .aclose)

/-- What a call past the lock uses has not been released. -/
structure InUse (s : State) : Prop where
  ring : ∀ u io req w, s.task u = .awaiting io req w →
    s.uring = true ∧ s.ua.closed = false ∧ s.ua.ctxOpen = true
  fp : ∀ u, s.task u = .inExecutor → s.op u ≠ .aclose → s.fp.isSome = true

/-- A read or a write that takes the lock after the file was closed raises `ValueError`. -/
def RefusedLate (s : State) (e : Event) : Prop :=
  ∀ u submitRet t, e = .acquire u submitRet → s.acquire u submitRet = some t → s.op u ≠ .aclose →
    s.closed = true → t.task u = .done (.error closedFile)

/-- A run in which a file is closed safely: who comes late is told so, nobody uses what has
been released, no `AssertionError` gets out, and what the file held is released once when it
is closed. -/
structure ClosesSafely (flags : Flags) (s : State) (es : List Event) (t : State) : Prop where
  late : Meets (step flags) RefusedLate s es
  inUse : Always (step flags) InUse s es
  escapes : ∀ u, (u, .error .assertionError) ∉ t.returns
  once : releaseCount flags s es + t.closing.toNat = t.closed.toNat

/-! ## What holds in every run -/

/-- An open file has a ring or a file object, a closed file has neither, and the calls past
the lock have what they use. -/
structure Custody (s : State) : Prop where
  held : s.closed = false → s.uring = true ∧ s.fp = none ∧ s.ua.closed = false ∧
      s.ua.ctxOpen = true ∨ s.uring = false ∧ s.fp.isSome = true
  released : s.closed = true → s.uring = false ∧ s.fp = none
  ring : ∀ u io req w, s.task u = .awaiting io req w → s.closed = false ∧ s.uring = true ∧
    s.op u ≠ .aclose
  fp : ∀ u, s.task u = .inExecutor → s.op u ≠ .aclose → s.closed = false ∧ s.uring = false
  closer : ∀ u, s.task u = .inExecutor → s.op u = .aclose → s.closed = true
  executed : ∀ u o, s.task u = .executed o → o ≠ .error .assertionError

variable {flags : Flags} {s t : State} {u most : ℕ} {e : Event}

theorem Custody.inUse (h : Custody s) : InUse s where
  ring u io req w hu := by
    obtain ⟨hclosed, huring, -⟩ := h.ring u io req w hu
    rcases h.held hclosed with ⟨-, -, hua⟩ | ⟨hno, -⟩
    · exact ⟨huring, hua⟩
    · exact absurd (huring.symm.trans hno) (by simp)
  fp u hu hop := by
    obtain ⟨hclosed, huring⟩ := h.fp u hu hop
    rcases h.held hclosed with ⟨hyes, -⟩ | ⟨-, hfp⟩
    · exact absurd (hyes.symm.trans huring) (by simp)
    · exact hfp

/-- A step that keeps what the file holds, and in which no call comes past the lock. -/
theorem Custody.frame (h : Custody s) (huring : t.uring = s.uring)
    (hfp : t.fp.isSome = s.fp.isSome) (hclosed : t.closed = s.closed)
    (hua : UringAsync.SameOpen s.ua t.ua)
    (htask : ∀ u, (t.task u).isRunning = true → t.task u = s.task u ∧ t.op u = s.op u) :
    Custody t where
  held hopen := by
    rw [hclosed] at hopen
    rw [huring, hua.1, hua.2, hfp]
    refine (h.held hopen).imp_left ?_
    rintro ⟨hring, hnone, hopen⟩
    refine ⟨hring, ?_, hopen⟩
    rw [hnone] at hfp
    simpa using hfp
  released hshut := by
    rw [hclosed] at hshut
    obtain ⟨hring, hnone⟩ := h.released hshut
    refine ⟨huring.trans hring, ?_⟩
    rw [hnone] at hfp
    simpa using hfp
  ring u io req w hu := by
    obtain ⟨hsame, hop⟩ := htask u (by rw [hu]; rfl)
    rw [hclosed, huring, hop]
    exact h.ring u io req w (hsame.symm.trans hu)
  fp u hu hne := by
    obtain ⟨hsame, hop⟩ := htask u (by rw [hu]; rfl)
    rw [hop] at hne
    rw [hclosed, huring]
    exact h.fp u (hsame.symm.trans hu) hne
  closer u hu heq := by
    obtain ⟨hsame, hop⟩ := htask u (by rw [hu]; rfl)
    rw [hop] at heq
    rw [hclosed]
    exact h.closer u (hsame.symm.trans hu) heq
  executed u o hu := by
    obtain ⟨hsame, -⟩ := htask u (by rw [hu]; rfl)
    exact h.executed u o (hsame.symm.trans hu)

/-- What a call may do next. -/
def Custody.Allows (s : State) (u : ℕ) : Task → Prop
  | .awaiting _ _ _ => s.closed = false ∧ s.uring = true ∧ s.op u ≠ .aclose
  | .inExecutor => (s.op u ≠ .aclose → s.closed = false ∧ s.uring = false) ∧
      (s.op u = .aclose → s.closed = true)
  | .executed o => o ≠ .error .assertionError
  | .notCalled => True
  | .waitingLock => True
  | .done _ => True

theorem Custody.setTask (h : Custody s) {task : Task} (htask : Allows s u task) :
    Custody (s.setTask u task) where
  held := h.held
  released := h.released
  ring v io req w hv := by
    by_cases hvu : v = u
    · subst hvu
      rw [task_setTask_self] at hv
      subst hv
      exact htask
    · rw [task_setTask_of_ne hvu] at hv
      exact h.ring v io req w hv
  fp v hv := by
    by_cases hvu : v = u
    · subst hvu
      rw [task_setTask_self] at hv
      subst hv
      exact htask.1
    · rw [task_setTask_of_ne hvu] at hv
      exact h.fp v hv
  closer v hv := by
    by_cases hvu : v = u
    · subst hvu
      rw [task_setTask_self] at hv
      subst hv
      exact htask.2
    · rw [task_setTask_of_ne hvu] at hv
      exact h.closer v hv
  executed v o hv := by
    by_cases hvu : v = u
    · subst hvu
      rw [task_setTask_self] at hv
      subst hv
      exact htask
    · rw [task_setTask_of_ne hvu] at hv
      exact h.executed v o hv

theorem Custody.finish (h : Custody s) (u : ℕ) (o : Outcome) : Custody (s.finish u o) :=
  h.frame rfl rfl rfl ⟨rfl, rfl⟩ fun _ hv => ⟨(task_of_running_update rfl hv).2, rfl⟩

theorem Custody.submit (h : Custody s)
    (hring : s.closed = false ∧ s.uring = true ∧ s.op u ≠ .aclose) (io : Io) (submitRet : ℤ) :
    Custody (s.submit u io submitRet) := by
  unfold State.submit
  simp only
  split
  · refine Custody.finish ?_ u _
    exact h.frame rfl rfl rfl ⟨rfl, rfl⟩ fun _ _ => ⟨rfl, rfl⟩
  · split
    · refine Custody.finish ?_ u _
      exact h.frame rfl rfl rfl ⟨rfl, rfl⟩ fun _ _ => ⟨rfl, rfl⟩
    · split
      · refine Custody.finish ?_ u _
        exact h.frame rfl rfl rfl (UringAsync.sameOpen_waitCompletion s.ua) fun _ _ => ⟨rfl, rfl⟩
      · refine Custody.setTask ?_ hring
        exact h.frame rfl rfl rfl (UringAsync.sameOpen_waitCompletion s.ua) fun _ _ => ⟨rfl, rfl⟩

/-- The file is closed by a call that has the lock, so nobody else uses what it releases. -/
theorem Custody.acloseUnlocked (h : Custody s) (hop : s.op u = .aclose)
    (hidle : ∀ v, (s.task v).isRunning = false) : Custody (s.acloseUnlocked u) := by
  have hnone : ∀ {v : ℕ} {task : Task}, s.task v = task → task.isRunning = false := by
    rintro v task rfl
    exact hidle v
  have hshut : ∀ (ring : Bool) (ua : UringAsync.State (ℕ × ℤ)), ring = false →
      Custody { s with closed := true, uring := ring, ua := ua, fp := none } := by
    rintro ring ua rfl
    refine ⟨fun hopen => absurd hopen (by simp), fun _ => ⟨rfl, rfl⟩, ?_, ?_, ?_, ?_⟩
    · exact fun v io req w hv => absurd (hnone hv) (by simp [Task.isRunning])
    · exact fun v hv => absurd (hnone hv) (by simp [Task.isRunning])
    · exact fun v hv => absurd (hnone hv) (by simp [Task.isRunning])
    · exact fun v o hv => absurd (hnone hv) (by simp [Task.isRunning])
  unfold State.acloseUnlocked
  simp only
  split
  · exact h.finish u .none
  · next hopen =>
    rcases h.held (by simpa using hopen) with ⟨huring, hfp, -⟩ | ⟨huring, hfp⟩
    · simp only [huring, if_true, hfp, Option.isSome_none, Bool.false_eq_true, if_false]
      refine Custody.finish ?_ u .none
      exact (hshut false { s.ua.close with ctxOpen := false } rfl).frame rfl rfl rfl ⟨rfl, rfl⟩
        fun _ _ => ⟨rfl, rfl⟩
    · simp only [huring, Bool.false_eq_true, if_false, hfp, if_true]
      exact (hshut false s.ua rfl).setTask ⟨fun hne => absurd hop hne, fun _ => rfl⟩

/-- Where there is a file object the file is open, and has no ring. -/
theorem Custody.of_fp (h : Custody s) (hfp : s.fp.isSome = true) :
    s.closed = false ∧ s.uring = false := by
  have hopen : s.closed = false := by
    cases hclosed : s.closed with
    | false => rfl
    | true =>
      rw [(h.released hclosed).2] at hfp
      exact absurd hfp (by simp)
  rcases h.held hopen with ⟨-, hnone, -⟩ | ⟨huring, -⟩
  · rw [hnone] at hfp
    exact absurd hfp (by simp)
  · exact ⟨hopen, huring⟩

/-- Where there is a ring the file is open. -/
theorem Custody.of_uring (h : Custody s) (huring : s.uring = true) : s.closed = false := by
  cases hclosed : s.closed with
  | false => rfl
  | true => exact absurd (huring.symm.trans (h.released hclosed).1) (by simp)

theorem Custody.locked (h : Custody s) (hidle : ∀ v, (s.task v).isRunning = false)
    (submitRet : ℤ) : Custody (s.locked u submitRet) := by
  unfold State.locked
  split
  · next n hop =>
    split
    · next hfp =>
      exact h.setTask ⟨fun _ => h.of_fp hfp, fun heq => absurd (hop.symm.trans heq) (by simp)⟩
    · split
      · exact h.finish u _
      · next huring =>
        have hring : s.closed = false ∧ s.uring = true ∧ s.op u ≠ .aclose := by
          have hyes : s.uring = true := by simpa using huring
          exact ⟨h.of_uring hyes, hyes, by rw [hop]; simp⟩
        split
        · exact h.finish u _
        · split
          · exact h.submit hring _ submitRet
          · exact h.submit hring _ submitRet
  · next data hop =>
    split
    · next hfp =>
      exact h.setTask ⟨fun _ => h.of_fp hfp, fun heq => absurd (hop.symm.trans heq) (by simp)⟩
    · split
      · exact h.finish u _
      · next huring =>
        have hyes : s.uring = true := by simpa using huring
        exact h.submit ⟨h.of_uring hyes, hyes, by rw [hop]; simp⟩ _ submitRet
  · next hop => exact h.acloseUnlocked hop hidle

theorem Custody.onCompletion (h : Custody s)
    (hring : s.closed = false ∧ s.uring = true ∧ s.op u ≠ .aclose) (io : Io) (req : Request)
    (gotUd : ℕ) (res submitRet : ℤ) : Custody (s.onCompletion u io req gotUd res submitRet) := by
  have hsame : ∀ (pos : ℕ) (log : List Ev), Custody { s with pos := pos, log := log } :=
    fun pos log => h.frame rfl rfl rfl ⟨rfl, rfl⟩ fun _ _ => ⟨rfl, rfl⟩
  unfold State.onCompletion
  simp only
  split
  · exact (hsame s.pos _).finish u _
  · split
    · exact (hsame s.pos _).finish u _
    · split
      · split
        · refine Custody.submit (hsame _ _) ?_ _ submitRet
          exact hring
        · exact (hsame _ _).finish u _
      · exact (hsame _ _).finish u _

theorem Custody.resume (h : Custody s) {submitRet : ℤ} (ht : s.resume u submitRet = some t) :
    Custody t := by
  rcases resume_cases ht with ⟨io, req, w, ua, hu, hua, hnext⟩ | ⟨o, -, rfl⟩
  · have hstep : UringAsync.step s.ua (.resume w) = some ua := hua
    have hkept : Custody { s with ua := ua } :=
      h.frame rfl rfl rfl (UringAsync.sameOpen_step (by simp) (by simp) hstep) fun _ _ => ⟨rfl, rfl⟩
    rcases hnext with ⟨gotUd, res, rfl⟩ | ⟨exc, -, rfl⟩ | rfl
    · exact hkept.onCompletion (h.ring u io req w hu) io req gotUd res submitRet
    · exact hkept.finish u _
    · exact hkept
  · exact h.finish u o

theorem Custody.runJob (h : Custody s) (ht : s.runJob flags u most = some t) : Custody t := by
  obtain ⟨-, file, fp, o, hfp, ho, rfl⟩ := runJob_cases ht
  refine Custody.setTask ?_ ho
  exact h.frame rfl hfp rfl ⟨rfl, rfl⟩ fun _ _ => ⟨rfl, rfl⟩

/-- **A step keeps the file in custody**, whatever it is. -/
theorem custody_step (hledger : Ledger s) (h : Custody s) (ht : step flags s e = some t) :
    Custody t := by
  cases e with
  | call op =>
    obtain rfl := Option.some.inj ht
    have hnew : ∀ v, v ≠ s.calls → Function.update s.op s.calls op v = s.op v :=
      fun v hv => Function.update_of_ne hv _ _
    unfold State.call
    simp only
    split
    · refine h.frame rfl rfl rfl ⟨rfl, rfl⟩ ?_
      intro v hv
      obtain ⟨hne, hsame⟩ := task_of_running_update rfl hv
      exact ⟨hsame, hnew v hne⟩
    · refine h.frame rfl rfl rfl ⟨rfl, rfl⟩ ?_
      intro v hv
      obtain ⟨hne, hsame⟩ := task_of_running_update rfl hv
      exact ⟨hsame, hnew v hne⟩
  | acquire u submitRet =>
    obtain ⟨hwait, hfree, rfl⟩ := acquire_cases ht
    refine Custody.locked ?_ ?_ submitRet
    · exact h.frame rfl rfl rfl ⟨rfl, rfl⟩ fun _ _ => ⟨rfl, rfl⟩
    · exact fun v => by simpa using hledger.not_running hfree v
  | complete i res =>
    obtain ⟨req, file, data, -, -, rfl⟩ := complete_cases ht
    exact h.frame rfl rfl rfl ⟨rfl, rfl⟩ fun _ _ => ⟨rfl, rfl⟩
  | onReadable waitRet peeks =>
    obtain ⟨ua, hua, rfl⟩ := Option.map_eq_some_iff.mp ht
    exact h.frame rfl rfl rfl (UringAsync.sameOpen_step (by simp) (by simp) hua)
      fun _ _ => ⟨rfl, rfl⟩
  | runJob u most => exact h.runJob ht
  | resume u submitRet => exact h.resume ht
  | cancel u =>
    rcases cancel_cases ht with ⟨-, rfl⟩ | ⟨io, req, w, ua, -, hua, rfl⟩
    · exact h.frame rfl rfl rfl ⟨rfl, rfl⟩ fun _ hv => ⟨(task_of_running_update rfl hv).2, rfl⟩
    · have hstep : UringAsync.step s.ua (.cancel w) = some ua := hua
      exact h.frame rfl rfl rfl (UringAsync.sameOpen_step (by simp) (by simp) hstep)
        fun _ _ => ⟨rfl, rfl⟩

theorem custody_aenter (flags : Flags) (uring : Bool) (content : List UInt8) :
    Custody (aenter flags uring content) where
  held _ := by
    cases uring with
    | true => exact Or.inl ⟨rfl, rfl, rfl, rfl⟩
    | false => exact Or.inr ⟨rfl, rfl⟩
  released hclosed := absurd hclosed (by simp [aenter])
  ring u io req w hu := absurd hu (by simp [aenter])
  fp u hu := absurd hu (by simp [aenter])
  closer u hu := absurd hu (by simp [aenter])
  executed u o hu := absurd hu (by simp [aenter])

/-! ## Released once -/

theorem closing_of_lock (h : s.lock = some u) : s.closing =
    (decide (s.task u = .inExecutor) && decide (s.op u = .aclose)) := by
  simp only [State.closing, h, Option.any_some]

theorem closing_of_free (h : s.lock = none) : s.closing = false := by
  simp only [State.closing, h, Option.any_none]

/-- Nothing is being closed where the call past the lock is not in the executor. -/
theorem closing_of_task {task : Task} (hlock : s.lock = some u) (hu : s.task u = task)
    (htask : task ≠ .inExecutor) : s.closing = false := by
  rw [closing_of_lock hlock, hu, decide_eq_false htask, Bool.false_and]

theorem closing_congr (hlock : t.lock = s.lock)
    (hsame : ∀ v, s.lock = some v → t.task v = s.task v ∧ t.op v = s.op v) :
    t.closing = s.closing := by
  cases hv : s.lock with
  | none => rw [closing_of_free hv, closing_of_free (hlock.trans hv)]
  | some v =>
    obtain ⟨htask, hop⟩ := hsame v hv
    rw [closing_of_lock hv, closing_of_lock (hlock.trans hv), htask, hop]

/-- A call goes to the executor: it closes the file object if that is what it is for. -/
theorem closing_setTask (hlock : s.lock = some u) :
    (s.setTask u .inExecutor).closing = decide (s.op u = .aclose) := by
  have hlocked : (s.setTask u .inExecutor).lock = some u := hlock
  rw [closing_of_lock hlocked, task_setTask_self, decide_eq_true rfl, Bool.true_and]
  rfl

theorem closing_submit (hlock : s.lock = some u) (io : Io) (submitRet : ℤ) :
    (s.submit u io submitRet).closing = false ∧ (s.submit u io submitRet).closed = s.closed := by
  unfold State.submit
  simp only
  split
  · exact ⟨closing_of_free rfl, rfl⟩
  · split
    · exact ⟨closing_of_free rfl, rfl⟩
    · split
      · exact ⟨closing_of_free rfl, rfl⟩
      · exact ⟨closing_of_task hlock (task_setTask_self _ _ _) (by simp), rfl⟩

/-- A read or a write closes nothing. -/
theorem closing_locked (hlock : s.lock = some u) (hop : s.op u ≠ .aclose) (submitRet : ℤ) :
    (s.locked u submitRet).closing = false ∧ (s.locked u submitRet).closed = s.closed := by
  have hjob : (s.setTask u .inExecutor).closing = false := by
    rw [closing_setTask hlock, decide_eq_false hop]
  unfold State.locked
  split
  · split
    · exact ⟨hjob, rfl⟩
    · split
      · exact ⟨closing_of_free rfl, rfl⟩
      · split
        · exact ⟨closing_of_free rfl, rfl⟩
        · split
          · exact closing_submit hlock _ submitRet
          · exact closing_submit hlock _ submitRet
  · split
    · exact ⟨hjob, rfl⟩
    · split
      · exact ⟨closing_of_free rfl, rfl⟩
      · exact closing_submit hlock _ submitRet
  · next heq => exact absurd heq hop

/-- The call that closes the file releases the ring at once, and the file object in the
executor. -/
theorem Custody.closing_acloseUnlocked (h : Custody s) (hlock : s.lock = some u)
    (hop : s.op u = .aclose) :
    (!s.closed && s.uring).toNat + (s.acloseUnlocked u).closing.toNat + s.closed.toNat =
      (s.acloseUnlocked u).closed.toNat := by
  unfold State.acloseUnlocked
  simp only
  cases hclosed : s.closed with
  | true =>
    rw [if_pos rfl, closing_of_free rfl]
    show _ = s.closed.toNat
    rw [hclosed]
    rfl
  | false =>
    rw [if_neg (by simp)]
    rcases h.held hclosed with ⟨huring, hfp, -⟩ | ⟨huring, hfp⟩
    · simp only [huring, if_true, hfp, Option.isSome_none, Bool.false_eq_true, if_false]
      rw [closing_of_free rfl]
      rfl
    · simp only [huring, Bool.false_eq_true, if_false, hfp, if_true]
      rw [closing_setTask (by exact hlock)]
      simp only [hop, decide_true]
      rfl

theorem closing_onCompletion (hlock : s.lock = some u) (io : Io) (req : Request) (gotUd : ℕ)
    (res submitRet : ℤ) : (s.onCompletion u io req gotUd res submitRet).closing = false ∧
      (s.onCompletion u io req gotUd res submitRet).closed = s.closed := by
  unfold State.onCompletion
  simp only
  split
  · exact ⟨closing_of_free rfl, rfl⟩
  · split
    · exact ⟨closing_of_free rfl, rfl⟩
    · split
      · split
        · exact closing_submit (by exact hlock) _ submitRet
        · exact ⟨closing_of_free rfl, rfl⟩
      · exact ⟨closing_of_free rfl, rfl⟩

/-- The loop runs no call that closes the file object. -/
theorem closing_resume (hledger : Ledger s) {submitRet : ℤ} (ht : s.resume u submitRet = some t) :
    s.closing = false ∧ t.closing = false ∧ t.closed = s.closed := by
  rcases resume_cases ht with ⟨io, req, w, ua, hu, -, hnext⟩ | ⟨o, hu, rfl⟩
  · have hlock : s.lock = some u := (hledger.holder u).mp (by rw [hu]; rfl)
    have hnone := closing_of_task hlock hu (by simp)
    refine ⟨hnone, ?_⟩
    rcases hnext with ⟨gotUd, res, rfl⟩ | ⟨exc, -, rfl⟩ | rfl
    · exact closing_onCompletion (by exact hlock) io req gotUd res submitRet
    · exact ⟨closing_of_free rfl, rfl⟩
    · exact ⟨hnone, rfl⟩
  · have hlock : s.lock = some u := (hledger.holder u).mp (by rw [hu]; rfl)
    exact ⟨closing_of_task hlock hu (by simp), closing_of_free rfl, rfl⟩

/-- A job of the executor closes the file object, or reads or writes it. -/
theorem closing_runJob (hledger : Ledger s) (ht : s.runJob flags u most = some t) :
    s.closing = releases s (.runJob u most) ∧ t.closing = false ∧ t.closed = s.closed := by
  obtain ⟨hu, file, fp, o, -, -, rfl⟩ := runJob_cases ht
  have hlock : s.lock = some u := (hledger.holder u).mp (by rw [hu]; rfl)
  refine ⟨?_, closing_of_task hlock (task_setTask_self _ _ _) (by simp), rfl⟩
  rw [closing_of_lock hlock, hu, decide_eq_true rfl, Bool.true_and]
  rfl

/-- A call that asks for the lock is not the one that holds it. -/
theorem closing_call (hledger : Ledger s) (op : Op) :
    (s.call op).closing = s.closing ∧ (s.call op).closed = s.closed := by
  have hother : ∀ v, s.lock = some v → v ≠ s.calls := by
    intro v hv
    exact Nat.ne_of_lt (hledger.lt_calls (ne_notCalled_of_running (hledger.running_of_lock hv)))
  unfold State.call
  simp only
  split
  · refine ⟨closing_congr rfl ?_, rfl⟩
    intro v hv
    exact ⟨Function.update_of_ne (hother v hv) _ _, Function.update_of_ne (hother v hv) _ _⟩
  · refine ⟨closing_congr rfl ?_, rfl⟩
    intro v hv
    exact ⟨Function.update_of_ne (hother v hv) _ _, Function.update_of_ne (hother v hv) _ _⟩

/-- **What a step releases**, and what is left to release. -/
theorem released_step (hledger : Ledger s) (h : Custody s) (ht : step flags s e = some t) :
    (releases s e).toNat + t.closing.toNat + s.closed.toNat =
      s.closing.toNat + t.closed.toNat := by
  have hkeep : releases s e = false → t.closing = s.closing → t.closed = s.closed →
      (releases s e).toNat + t.closing.toNat + s.closed.toNat =
        s.closing.toNat + t.closed.toNat := by
    intro hnone hclosing hclosed
    rw [hnone, hclosing, hclosed, Bool.toNat_false, Nat.zero_add]
  cases e with
  | call op =>
    obtain rfl := Option.some.inj ht
    obtain ⟨hclosing, hclosed⟩ := closing_call hledger op
    exact hkeep rfl hclosing hclosed
  | acquire u submitRet =>
    obtain ⟨hwait, hfree, rfl⟩ := acquire_cases ht
    have hlocked : Custody { s with lock := some u, log := .locked u :: s.log } :=
      h.frame rfl rfl rfl ⟨rfl, rfl⟩ fun _ _ => ⟨rfl, rfl⟩
    rw [closing_of_free hfree, Bool.toNat_false, Nat.zero_add]
    by_cases hop : s.op u = .aclose
    · have hcount : releases s (.acquire u submitRet) = (!s.closed && s.uring) := by
        simp only [releases, hop, decide_true, Bool.true_and]
      have haclose : State.locked u submitRet { s with lock := some u, log := .locked u :: s.log } =
          State.acloseUnlocked u { s with lock := some u, log := .locked u :: s.log } := by
        simp only [State.locked, hop]
      rw [hcount, haclose]
      exact hlocked.closing_acloseUnlocked rfl hop
    · have hcount : releases s (.acquire u submitRet) = false := by
        simp only [releases, hop, decide_false, Bool.false_and]
      obtain ⟨hclosing, hclosed⟩ := closing_locked
        (s := { s with lock := some u, log := .locked u :: s.log }) rfl hop submitRet
      rw [hcount, hclosing, hclosed, Bool.toNat_false, Nat.zero_add]
  | complete i res =>
    obtain ⟨req, file, data, -, -, rfl⟩ := complete_cases ht
    exact hkeep rfl rfl rfl
  | onReadable waitRet peeks =>
    obtain ⟨ua, hua, rfl⟩ := Option.map_eq_some_iff.mp ht
    exact hkeep rfl rfl rfl
  | runJob u most =>
    obtain ⟨hclosing, hdone, hclosed⟩ := closing_runJob hledger ht
    rw [hclosing, hdone, hclosed, Bool.toNat_false, Nat.add_zero]
  | resume u submitRet =>
    obtain ⟨hnone, hdone, hclosed⟩ := closing_resume hledger ht
    exact hkeep rfl (hdone.trans hnone.symm) hclosed
  | cancel u =>
    rcases cancel_cases ht with ⟨hu, rfl⟩ | ⟨io, req, w, ua, -, -, rfl⟩
    · refine hkeep rfl (closing_congr rfl ?_) rfl
      intro v hv
      have hne : v ≠ u := fun heq =>
        ne_waitingLock_of_running (hledger.running_of_lock hv) (heq ▸ hu)
      exact ⟨Function.update_of_ne hne _ _, rfl⟩
    · exact hkeep rfl rfl rfl

/-- **A run releases the file once**, at the time it closes it or a job later. -/
theorem released_once : ∀ {es : List Event} {s t : State}, Ledger s → Custody s →
    exec (step flags) s es = some t →
    releaseCount flags s es + t.closing.toNat + s.closed.toNat = s.closing.toNat + t.closed.toNat
  | [], s, t, _, _, ht => by
    rw [exec_nil] at ht
    obtain rfl := Option.some.inj ht
    simp only [releaseCount, Nat.zero_add]
  | e :: es, s, t, hledger, h, ht => by
    rw [exec_cons] at ht
    obtain ⟨v, hv, ht⟩ := Option.bind_eq_some_iff.mp ht
    have hhead := released_step hledger h hv
    have htail := released_once (ledger_step hledger hv) (custody_step hledger h hv) ht
    simp only [releaseCount, hv]
    omega

/-! ## Who comes late -/

/-- A read or a write that finds neither ring nor file object. -/
theorem locked_of_released (hop : s.op u ≠ .aclose) (hring : s.uring = false) (hfp : s.fp = none)
    (submitRet : ℤ) : s.locked u submitRet = s.finish u (.error .assertionError) := by
  have hno : ¬ s.fp.isSome = true := by
    rw [hfp]
    simp
  have hnone : (!s.uring) = true := by
    rw [hring]
    rfl
  unfold State.locked
  split
  · rw [if_neg hno, if_pos hnone]
  · rw [if_neg hno, if_pos hnone]
  · next heq => exact absurd heq hop

/-- Whoever comes late is not told that the file is closed. -/
theorem Custody.refusedLate_iff (h : Custody s) (e : Event) :
    RefusedLate s e ↔ ¬ LocksLate s e := by
  cases e with
  | acquire u submitRet =>
    constructor
    · rintro hrefused ⟨hwait, hfree, hop, hclosed⟩
      have hdone := hrefused u submitRet _ rfl (if_pos ⟨hwait, hfree⟩) hop hclosed
      obtain ⟨hring, hfp⟩ := h.released hclosed
      rw [locked_of_released (by exact hop) (by exact hring) (by exact hfp)] at hdone
      have hself := task_setTask_self u (.done (.error .assertionError)) s
      exact absurd (hself.symm.trans hdone) (by decide)
    · intro hlate v submitRet t heq ht hop hclosed
      obtain ⟨rfl, rfl⟩ := Event.acquire.inj heq
      obtain ⟨hwait, hfree, -⟩ := acquire_cases ht
      exact absurd ⟨hwait, hfree, hop, hclosed⟩ hlate
  | call op => exact iff_of_true (fun _ _ _ heq => absurd heq (by simp)) id
  | complete i res => exact iff_of_true (fun _ _ _ heq => absurd heq (by simp)) id
  | onReadable waitRet peeks => exact iff_of_true (fun _ _ _ heq => absurd heq (by simp)) id
  | runJob u most => exact iff_of_true (fun _ _ _ heq => absurd heq (by simp)) id
  | resume u submitRet => exact iff_of_true (fun _ _ _ heq => absurd heq (by simp)) id
  | cancel u => exact iff_of_true (fun _ _ _ heq => absurd heq (by simp)) id

/-- No call has raised `AssertionError`. -/
def NoAssertion (s : State) : Prop := ∀ u, s.task u ≠ .done (.error .assertionError)

theorem NoAssertion.setTask (h : NoAssertion s) {task : Task}
    (htask : task ≠ .done (.error .assertionError)) : NoAssertion (s.setTask u task) := by
  intro v
  by_cases hvu : v = u
  · rw [hvu, task_setTask_self]
    exact htask
  · rw [task_setTask_of_ne hvu]
    exact h v

theorem NoAssertion.finish (h : NoAssertion s) {o : Outcome} (ho : o ≠ .error .assertionError) :
    NoAssertion (s.finish u o) :=
  h.setTask (u := u) (fun heq => ho (Task.done.inj heq))

theorem NoAssertion.submit (h : NoAssertion s) (io : Io) (submitRet : ℤ) :
    NoAssertion (s.submit u io submitRet) := by
  unfold State.submit
  simp only
  split
  · exact h.finish (by simp)
  · split
    · exact h.finish (by simp)
    · split
      · exact h.finish (by simp)
      · exact h.setTask (by simp)

theorem NoAssertion.acloseUnlocked (h : NoAssertion s) : NoAssertion (s.acloseUnlocked u) := by
  unfold State.acloseUnlocked
  simp only
  split
  · exact h.finish (by simp)
  · split <;> split
    · exact h.setTask (by simp)
    · exact h.finish (by simp)
    · exact h.setTask (by simp)
    · exact h.finish (by simp)

/-- The assertions hold where there is a ring or a file object. -/
theorem NoAssertion.locked (h : NoAssertion s)
    (hheld : s.op u ≠ .aclose → s.fp.isSome = true ∨ s.uring = true) (submitRet : ℤ) :
    NoAssertion (s.locked u submitRet) := by
  have hring : s.op u ≠ .aclose → ¬ s.fp.isSome = true → ¬ (!s.uring) = true := by
    intro hop hfp
    rw [(hheld hop).resolve_left hfp]
    simp
  unfold State.locked
  split
  · next n hop =>
    have hread : s.op u ≠ .aclose := by
      rw [hop]
      simp
    split
    · exact h.setTask (by simp)
    · next hfp =>
      rw [if_neg (hring hread hfp)]
      split
      · exact h.finish (by simp)
      · split
        · exact h.submit _ submitRet
        · exact h.submit _ submitRet
  · next data hop =>
    have hwrite : s.op u ≠ .aclose := by
      rw [hop]
      simp
    split
    · exact h.setTask (by simp)
    · next hfp =>
      rw [if_neg (hring hwrite hfp)]
      exact h.submit _ submitRet
  · exact h.acloseUnlocked

theorem NoAssertion.onCompletion (h : NoAssertion s) (io : Io) (req : Request) (gotUd : ℕ)
    (res submitRet : ℤ) : NoAssertion (s.onCompletion u io req gotUd res submitRet) := by
  unfold State.onCompletion
  simp only
  split
  · exact h.finish (by simp [mismatch])
  · split
    · exact h.finish (by simp)
    · split
      · split
        · refine NoAssertion.submit ?_ _ submitRet
          exact h
        · exact h.finish (by simp)
      · exact h.finish (by simp)

theorem Op.early_ne_assertionError (op : Op) (closed : Bool) :
    op.early closed ≠ some (.error .assertionError) := by
  cases op with
  | read n =>
    simp only [Op.early]
    split_ifs <;> simp
  | write data =>
    simp only [Op.early]
    split_ifs <;> simp
  | aclose =>
    simp only [Op.early]
    split_ifs <;> simp

/-- Only who comes late runs into an assertion. -/
theorem Custody.noAssertion_step (h : Custody s) (hnone : NoAssertion s) (hlate : ¬ LocksLate s e)
    (ht : step flags s e = some t) : NoAssertion t := by
  cases e with
  | call op =>
    obtain rfl := Option.some.inj ht
    unfold State.call
    simp only
    split
    · next o ho =>
      refine hnone.setTask (u := s.calls) fun heq => ?_
      rw [Task.done.inj heq] at ho
      exact Op.early_ne_assertionError op s.closed ho
    · exact hnone.setTask (u := s.calls) (by simp)
  | acquire u submitRet =>
    obtain ⟨hwait, hfree, rfl⟩ := acquire_cases ht
    refine NoAssertion.locked ?_ ?_ submitRet
    · exact hnone
    · intro hop
      have hopen : s.closed = false := by
        cases hclosed : s.closed with
        | false => rfl
        | true => exact absurd ⟨hwait, hfree, hop, hclosed⟩ hlate
      rcases h.held hopen with ⟨huring, -⟩ | ⟨-, hfp⟩
      · exact Or.inr huring
      · exact Or.inl hfp
  | complete i res =>
    obtain ⟨req, file, data, -, -, rfl⟩ := complete_cases ht
    exact hnone
  | onReadable waitRet peeks =>
    obtain ⟨ua, -, rfl⟩ := Option.map_eq_some_iff.mp ht
    exact hnone
  | runJob u most =>
    obtain ⟨-, file, fp, o, -, -, rfl⟩ := runJob_cases ht
    exact hnone.setTask (u := u) (by simp)
  | resume u submitRet =>
    rcases resume_cases ht with ⟨io, req, w, ua, -, -, hnext⟩ | ⟨o, hu, rfl⟩
    · rcases hnext with ⟨gotUd, res, rfl⟩ | ⟨exc, hexc, rfl⟩ | rfl
      · refine NoAssertion.onCompletion ?_ io req gotUd res submitRet
        exact hnone
      · exact hnone.finish (by simpa using hexc)
      · exact hnone
    · exact hnone.finish (h.executed u o hu)
  | cancel u =>
    rcases cancel_cases ht with ⟨-, rfl⟩ | ⟨io, req, w, ua, -, -, rfl⟩
    · exact hnone.setTask (u := u) (by simp)
    · exact hnone

/-! ## Runs -/

theorem inUse_always : ∀ {es : List Event} {s : State}, Ledger s → Custody s →
    Always (step flags) InUse s es
  | [], _, _, h => h.inUse
  | _ :: _, _, hledger, h =>
    ⟨h.inUse, fun _ ht => inUse_always (ledger_step hledger ht) (custody_step hledger h ht)⟩

/-- **A file is closed safely as long as no read and no write gets the lock after it was
closed.**  One that does raises `AssertionError`, as the check that would tell it that the
file is closed is behind it. -/
theorem closes_safely_iff (flags : Flags) (uring : Bool) (content : List UInt8) (es : List Event)
    (t : State) (ht : exec (step flags) (aenter flags uring content) es = some t) :
    ClosesSafely flags (aenter flags uring content) es t ↔
      Meets (step flags) (fun s e => ¬ LocksLate s e) (aenter flags uring content) es := by
  have hledger := ledger_aenter flags uring content
  have hcustody := custody_aenter flags uring content
  have hlate : Meets (step flags) RefusedLate (aenter flags uring content) es ↔
      Meets (step flags) (fun s e => ¬ LocksLate s e) (aenter flags uring content) es := by
    refine meets_congr (I := fun s => Ledger s ∧ Custody s) (A := fun _ => True) ?_ ?_
      ⟨hledger, hcustody⟩ fun _ _ => trivial
    · intro s e t h _ ht
      exact ⟨ledger_step h.1 ht, custody_step h.1 h.2 ht⟩
    · intro s e h _
      exact h.2.refusedLate_iff e
  constructor
  · intro hsafe
    exact hlate.mp hsafe.late
  · intro hmeets
    refine ⟨hlate.mpr hmeets, inUse_always hledger hcustody, ?_, ?_⟩
    · have hend := (reach_of_exec hmeets ht).invariant
        (I := fun s => (Ledger s ∧ Custody s) ∧ NoAssertion s) ⟨⟨hledger, hcustody⟩, by
          intro u
          simp [aenter]⟩ ?_
      · intro u hmem
        exact hend.2 u ((hend.1.1.done u _).mpr hmem)
      · rintro v e w ⟨⟨hv, hc⟩, hnone⟩ hnot hw
        exact ⟨⟨ledger_step hv hw, custody_step hv hc hw⟩, hc.noAssertion_step hnone hnot hw⟩
    · have honce := released_once hledger hcustody ht
      have hstart : (aenter flags uring content).closed = false := rfl
      have hidle : (aenter flags uring content).closing = false := closing_of_free rfl
      rw [hstart, hidle, Bool.toNat_false] at honce
      omega

/-- A read that has the lock before the file is closed, and one that comes after. -/
theorem closes_safely_iff_read_then_close : ∃ t,
    exec (step ⟨true, false, false, false, false⟩)
      (aenter ⟨true, false, false, false, false⟩ false [1, 2, 3])
      [.call (.read 2), .acquire 0 0, .call .aclose, .runJob 0 64, .resume 0 0, .acquire 1 0,
        .call (.read 1), .runJob 1 64, .resume 1 0] = some t ∧
    (ClosesSafely ⟨true, false, false, false, false⟩
        (aenter ⟨true, false, false, false, false⟩ false [1, 2, 3])
        [.call (.read 2), .acquire 0 0, .call .aclose, .runJob 0 64, .resume 0 0, .acquire 1 0,
          .call (.read 1), .runJob 1 64, .resume 1 0] t ↔
      Meets (step ⟨true, false, false, false, false⟩) (fun s e => ¬ LocksLate s e)
        (aenter ⟨true, false, false, false, false⟩ false [1, 2, 3])
        [.call (.read 2), .acquire 0 0, .call .aclose, .runJob 0 64, .resume 0 0, .acquire 1 0,
          .call (.read 1), .runJob 1 64, .resume 1 0]) :=
  ⟨_, rfl, closes_safely_iff _ _ _ _ _ rfl⟩

/-- A read waits for the lock behind the call that closes the file: it raises
`AssertionError`. -/
theorem late_read_asserts :
    ¬ ∀ (flags : Flags) (uring : Bool) (content : List UInt8) (es : List Event) (t : State),
      exec (step flags) (aenter flags uring content) es = some t →
      ClosesSafely flags (aenter flags uring content) es t := by
  intro h
  have hsafe := h ⟨true, false, false, false, false⟩ true [1, 2, 3]
    [.call (.read 2), .acquire 0 0, .call .aclose, .call (.read 1), .complete 0 2,
      .onReadable 0 none, .resume 0 0, .acquire 1 0, .acquire 2 0] _ rfl
  exact hsafe.escapes 2 (by decide)

end AsyncFile
end Pyuring
