import Pyuring.Lib.Trace
import Pyuring.UringAsync

/-!
# Whether io_uring is available

`_probe_io_uring` of `async_file.py` and the openings of `AsyncFile` that ask it, with the
part of `UringCtx.__init__` that creates the native ring.  Python learns why the ring could
not be created from `ctypes.get_errno`, which reads a copy of `errno` that `ctypes` keeps
for itself and that only calls into libraries loaded with `use_errno=True` bring up to
date.  The binding does not load its library so, and the copy is whatever other code left
there, zero if there is none.

A process remembers what `_probe_io_uring` found out.  Here it also remembers its
openings, with the rings each of them tried to create.
-/

namespace Pyuring
namespace ProbeIoUring

open Trace

def EPERM : ℤ := 1
def ENOMEM : ℤ := 12
def EACCES : ℤ := 13
def ENODEV : ℤ := 19
def EINVAL : ℤ := 22
def ENOSYS : ℤ := 38
def EOPNOTSUPP : ℤ := 95

/-- The errno values for which `_probe_io_uring` caches `False`. -/
def unavailable : List ℤ := [EPERM, EACCES, EINVAL, EOPNOTSUPP, ENOSYS, ENODEV]

/-- How the creation of a ring goes: whether `calloc` finds memory, and what
`io_uring_queue_init_params` returns. -/
structure QueueInit where
  calloc : Bool
  ret : ℤ
  deriving DecidableEq, Repr

/-- `uring_create_ex`: the errno it leaves when it returns `NULL`. -/
def uringCreateEx (q : QueueInit) : Option ℤ :=
  if !q.calloc then some ENOMEM
  else if q.ret < 0 then some (-q.ret)
  else none

/-- A library loaded with `ctypes.CDLL`, and the argument of that name. -/
structure CDLL where
  useErrno : Bool := false

/-- `ctypes.get_errno()` after a call into the library that left `errno`, when the copy
was `errnoCopy` before. -/
def CDLL.getErrno (lib : CDLL) (errno errnoCopy : ℤ) : ℤ :=
  if lib.useErrno then errno else errnoCopy

/-- `self._lib = ctypes.CDLL(lib_path)`. -/
def lib : CDLL := {}

/-- `UringError.__init__`. -/
def uringError (errnum : ℤ) (operation : String) (detail : Option String) : UringError :=
  ⟨if errnum > 0 then errnum else EINVAL, operation, detail⟩

/-- The detail of the error that `UringCtx.__init__` raises, for `setup_flags=0`. -/
def initDetail : String :=
  "io_uring_queue_init_params failed (NULL return). " ++
  "Common causes: io_uring disabled (seccomp, container policy), " ++
  "unsupported IORING_SETUP_* combination for this kernel, or resource limits.\n" ++
  "Documentation: https://www.kernel.org/doc/html/latest/io_uring/index.html\n" ++
  "liburing: https://github.com/axboe/liburing\n" ++
  "setup_flags=0 (see IORING_SETUP_* in pyuring)."

/-- `UringCtx(entries=…)`, from the native call on. -/
def uringCtx (errnoCopy : ℤ) (q : QueueInit) : Except UringError Unit :=
  match uringCreateEx q with
  | none => .ok ()
  | some errno =>
    let err := lib.getErrno errno errnoCopy
    let err := if err = 0 then EOPNOTSUPP else err
    .error (uringError err "uring_create_ex" (some initDetail))

/-- A ring that was to be created. -/
structure Attempt where
  entries : ℕ
  queueInit : QueueInit
  result : Except UringError Unit

/-- What `__aenter__` finds: the arguments of the `AsyncFile`, the two rings it may try to
create, and the errno of `os.open`, `os.lseek` and `builtins.open` where they fail. -/
structure Opening where
  preferUring : Bool
  append : Bool
  probe : QueueInit
  osOpen : Option ℤ
  ring : QueueInit
  lseek : Option ℤ
  builtinsOpen : Option ℤ
  deriving DecidableEq, Repr

/-- How `__aenter__` ends: with a file on a ring, with a plain one, or raising. -/
inductive Outcome where
  | uring
  | plain
  | uringError (exc : UringError)
  | osError (errno : ℤ)
  deriving DecidableEq

/-- An opening that has ended, with what `_URING_AVAILABLE` was then. -/
structure Entry where
  attempts : List Attempt
  outcome : Outcome
  available : Option Bool

/-- `_URING_AVAILABLE`, the errno copy of `ctypes`, and the openings so far. -/
structure State where
  available : Option Bool
  errnoCopy : ℤ
  opens : List Entry

namespace State

def init : State := ⟨none, 0, []⟩

/-- `_probe_io_uring`: what it raises or returns, the value of `_URING_AVAILABLE` after it,
and the ring it tried to create. -/
def probeIoUring (s : State) (q : QueueInit) :
    Except UringError Bool × Option Bool × List Attempt :=
  match s.available with
  | some available => (.ok available, s.available, [])
  | none =>
    let result := uringCtx s.errnoCopy q
    let attempts := [⟨8, q, result⟩]
    match result with
    | .error exc =>
      if exc.errno ∈ unavailable then (.ok false, some false, attempts)
      else (.error exc, none, attempts)
    | .ok () => (.ok true, some true, attempts)

/-- The end of `__aenter__` where io_uring is not used. -/
def openSync (o : Opening) : Outcome :=
  match o.builtinsOpen with
  | some errno => .osError errno
  | none => .plain

/-- The part of `__aenter__` where io_uring is to be used. -/
def openUring (s : State) (o : Opening) : Outcome × List Attempt :=
  match o.osOpen with
  | some errno => (.osError errno, [])
  | none =>
    let result := uringCtx s.errnoCopy o.ring
    let attempts := [⟨64, o.ring, result⟩]
    match result with
    | .error _ => (openSync o, attempts)
    | .ok () =>
      if o.append then
        match o.lseek with
        | some errno => (.osError errno, attempts)
        | none => (.uring, attempts)
      else (.uring, attempts)

/-- `__aenter__`. -/
def aenter (s : State) (o : Opening) : Entry :=
  if o.preferUring then
    match s.probeIoUring o.probe with
    | (.error exc, available, attempts) => ⟨attempts, .uringError exc, available⟩
    | (.ok true, available, attempts) =>
      ⟨attempts ++ (s.openUring o).2, (s.openUring o).1, available⟩
    | (.ok false, available, attempts) => ⟨attempts, openSync o, available⟩
  else ⟨[], openSync o, s.available⟩

end State

/-- What happens next: a file is opened, or a library that is loaded with
`use_errno=True`, or `ctypes.set_errno`, changes the copy. -/
inductive Event where
  | aenter (o : Opening)
  | setErrno (errno : ℤ)
  deriving DecidableEq, Repr

def step (s : State) : Event → Option State
  | .aenter o => some { s with
      available := (s.aenter o).available, opens := s.aenter o :: s.opens }
  | .setErrno errno => some { s with errnoCopy := errno }

/-- The ring was created, or the error that was raised carries the errno that the native
call failed with. -/
def Attempt.Faithful (a : Attempt) : Prop :=
  ∀ errno, uringCreateEx a.queueInit = some errno →
    ∃ exc, a.result = .error exc ∧ exc.errno = errno

/-- The ring was to be created by `_probe_io_uring`. -/
def Attempt.IsProbe (a : Attempt) : Prop := a.entries = 8

/-- What is known of io_uring is known from failures that are permanent: every error
carries its errno, `False` is cached after a probe that failed for one of the errno values
listed, a probe that fails for another one makes the opening raise that and caches
nothing, and then an opening may still use io_uring. -/
structure Lawful (s : State) : Prop where
  raises : ∀ x ∈ s.opens, ∀ a ∈ x.attempts, a.Faithful
  caches : s.available = some false → ∃ x ∈ s.opens, ∃ a ∈ x.attempts, a.IsProbe ∧
    ∃ errno ∈ unavailable, uringCreateEx a.queueInit = some errno
  propagates : ∀ x ∈ s.opens, ∀ a ∈ x.attempts, a.IsProbe → ∀ errno,
    uringCreateEx a.queueInit = some errno → errno ∉ unavailable →
      (∃ exc, x.outcome = .uringError exc ∧ exc.errno = errno) ∧ x.available = none
  retries : s.available = none → ∀ o : Opening, o.preferUring = true → o.osOpen = none →
    o.lseek = none → uringCreateEx o.probe = none → uringCreateEx o.ring = none →
    (s.aenter o).outcome = .uring

/-- With `errnoCopy` in the copy, an error carries `errno` for the native call that failed
with it. -/
def Shows (errnoCopy errno : ℤ) : Prop :=
  errnoCopy = errno ∨ errnoCopy = 0 ∧ errno = EOPNOTSUPP ∨ errnoCopy < 0 ∧ errno = EINVAL

/-- The opening asks the kernel whether io_uring is available. -/
def Probes (s : State) (o : Opening) : Prop := o.preferUring = true ∧ s.available = none

/-- The opening goes on to create the ring of its file. -/
def CreatesRing (s : State) (o : Opening) : Prop :=
  o.preferUring = true ∧ o.osOpen = none ∧
    (s.available = some true ∨ s.available = none ∧ uringCreateEx o.probe = none)

/-- Where a ring cannot be created, the errno copy shows why. -/
def ErrnoShows (s : State) : Event → Prop
  | .aenter o => (Probes s o → ∀ errno, uringCreateEx o.probe = some errno →
        Shows s.errnoCopy errno) ∧
      (CreatesRing s o → ∀ errno, uringCreateEx o.ring = some errno → Shows s.errnoCopy errno)
  | .setErrno _ => True

/-! ## One attempt -/

theorem uringCreateEx_pos {q : QueueInit} {errno : ℤ} (h : uringCreateEx q = some errno) :
    0 < errno := by
  unfold uringCreateEx at h
  split at h
  · rw [← Option.some.inj h]
    decide
  · split at h
    · rw [← Option.some.inj h]
      omega
    · exact absurd h (by simp)

theorem uringCtx_ok {errnoCopy : ℤ} {q : QueueInit} (h : uringCreateEx q = none) :
    uringCtx errnoCopy q = .ok () := by
  rw [uringCtx, h]

theorem uringCreateEx_of_ok {errnoCopy : ℤ} {q : QueueInit}
    (h : uringCtx errnoCopy q = .ok ()) : uringCreateEx q = none := by
  cases hq : uringCreateEx q with
  | none => rfl
  | some errno =>
    rw [uringCtx, hq] at h
    exact absurd h (by simp)

theorem uringCreateEx_of_error {errnoCopy : ℤ} {q : QueueInit} {exc : UringError}
    (h : uringCtx errnoCopy q = .error exc) : ∃ errno, uringCreateEx q = some errno := by
  cases hq : uringCreateEx q with
  | none =>
    rw [uringCtx_ok hq] at h
    exact absurd h (by simp)
  | some errno => exact ⟨errno, rfl⟩

/-- The error carries the errno that the copy shows, whatever the native call failed
with. -/
theorem uringCtx_faithful_iff (entries : ℕ) (errnoCopy : ℤ) (q : QueueInit) :
    (Attempt.mk entries q (uringCtx errnoCopy q)).Faithful ↔
      ∀ errno, uringCreateEx q = some errno → Shows errnoCopy errno := by
  refine forall_congr' fun errno => forall_congr' fun hq => ?_
  have hpos := uringCreateEx_pos hq
  have hraised : uringCtx errnoCopy q = .error (uringError
      (if errnoCopy = 0 then EOPNOTSUPP else errnoCopy) "uring_create_ex" (some initDetail)) := by
    rw [uringCtx, hq]
    rfl
  have hiff : (∃ exc, uringCtx errnoCopy q = .error exc ∧ exc.errno = errno) ↔
      (uringError (if errnoCopy = 0 then EOPNOTSUPP else errnoCopy) "uring_create_ex"
        (some initDetail)).errno = errno := by
    rw [hraised]
    simp
  change (∃ exc, uringCtx errnoCopy q = .error exc ∧ exc.errno = errno) ↔ _
  rw [hiff]
  unfold uringError Shows EOPNOTSUPP EINVAL
  simp only
  split
  · split
    · omega
    · omega
  · split
    · omega
    · omega

/-! ## One opening -/

theorem mem_openUring {s : State} {o : Opening} {a : Attempt} :
    a ∈ (s.openUring o).2 ↔ o.osOpen = none ∧ a = ⟨64, o.ring, uringCtx s.errnoCopy o.ring⟩ := by
  unfold State.openUring
  cases o.osOpen with
  | some errno => simp
  | none =>
    simp only
    split
    · simp
    · split
      · split
        · simp
        · simp
      · simp

/-- **What an opening does**, by what it knows of io_uring and finds out. -/
theorem aenter_cases (s : State) (o : Opening) :
    o.preferUring = false ∧ s.aenter o = ⟨[], State.openSync o, s.available⟩ ∨
    o.preferUring = true ∧ s.available = some false ∧
      s.aenter o = ⟨[], State.openSync o, some false⟩ ∨
    o.preferUring = true ∧ s.available = some true ∧
      s.aenter o = ⟨(s.openUring o).2, (s.openUring o).1, some true⟩ ∨
    Probes s o ∧ uringCtx s.errnoCopy o.probe = .ok () ∧
      s.aenter o = ⟨⟨8, o.probe, .ok ()⟩ :: (s.openUring o).2, (s.openUring o).1, some true⟩ ∨
    ∃ exc, Probes s o ∧ uringCtx s.errnoCopy o.probe = .error exc ∧
      (exc.errno ∈ unavailable ∧
          s.aenter o = ⟨[⟨8, o.probe, .error exc⟩], State.openSync o, some false⟩ ∨
        exc.errno ∉ unavailable ∧
          s.aenter o = ⟨[⟨8, o.probe, .error exc⟩], .uringError exc, none⟩) := by
  unfold State.aenter
  cases hprefer : o.preferUring with
  | false => exact Or.inl ⟨rfl, rfl⟩
  | true =>
    refine Or.inr ?_
    unfold Probes State.probeIoUring
    rw [if_pos rfl, hprefer]
    cases havailable : s.available with
    | some available =>
      cases available with
      | false => exact Or.inl ⟨rfl, rfl, rfl⟩
      | true => exact Or.inr (Or.inl ⟨rfl, rfl, rfl⟩)
    | none =>
      refine Or.inr (Or.inr ?_)
      simp only
      cases hctx : uringCtx s.errnoCopy o.probe with
      | ok _ => exact Or.inl ⟨⟨trivial, trivial⟩, rfl, rfl⟩
      | error exc =>
        refine Or.inr ⟨exc, ⟨trivial, trivial⟩, rfl, ?_⟩
        simp only
        by_cases hmem : exc.errno ∈ unavailable
        · rw [if_pos hmem]
          exact Or.inl ⟨hmem, rfl⟩
        · rw [if_neg hmem]
          exact Or.inr ⟨hmem, rfl⟩

/-- An opening raises only errors that carry their errno exactly when the copy shows the
errno of every ring that it fails to create. -/
theorem aenter_faithful_iff (s : State) (o : Opening) :
    (∀ a ∈ (s.aenter o).attempts, a.Faithful) ↔ ErrnoShows s (.aenter o) := by
  have hring : (∀ a ∈ (s.openUring o).2, a.Faithful) ↔ (o.osOpen = none →
      ∀ errno, uringCreateEx o.ring = some errno → Shows s.errnoCopy errno) := by
    rw [← uringCtx_faithful_iff 64]
    simp only [mem_openUring]
    exact ⟨fun h hopen => h _ ⟨hopen, rfl⟩, fun h a ha => ha.2 ▸ h ha.1⟩
  have hprobe : ∀ r, uringCtx s.errnoCopy o.probe = r → ((Attempt.mk 8 o.probe r).Faithful ↔
      ∀ errno, uringCreateEx o.probe = some errno → Shows s.errnoCopy errno) := by
    rintro r rfl
    exact uringCtx_faithful_iff 8 _ _
  rcases aenter_cases s o with ⟨hprefer, h⟩ | ⟨hprefer, havailable, h⟩ |
    ⟨hprefer, havailable, h⟩ | ⟨hprobes, hctx, h⟩ | ⟨exc, hprobes, hctx, ⟨-, h⟩ | ⟨-, h⟩⟩
  · refine iff_of_true (by simp [h]) ⟨fun hp => ?_, fun hc => ?_⟩
    · exact absurd hp.1 (by simp [hprefer])
    · exact absurd hc.1 (by simp [hprefer])
  · refine iff_of_true (by simp [h]) ⟨fun hp => ?_, fun hc => ?_⟩
    · exact absurd hp.2 (by simp [havailable])
    · exact absurd hc.2.2 (by simp [havailable])
  · rw [h, hring]
    constructor
    · exact fun hfaithful => ⟨fun hp => absurd hp.2 (by simp [havailable]),
        fun hc => hfaithful hc.2.1⟩
    · exact fun hshows hopen => hshows.2 ⟨hprefer, hopen, Or.inl havailable⟩
  · rw [h, List.forall_mem_cons, hring, hprobe _ hctx]
    refine ⟨fun hfaithful => ⟨fun _ => hfaithful.1, fun hc => hfaithful.2 hc.2.1⟩,
      fun hshows => ⟨hshows.1 hprobes, fun hopen => hshows.2 ⟨hprobes.1, hopen, ?_⟩⟩⟩
    exact Or.inr ⟨hprobes.2, uringCreateEx_of_ok hctx⟩
  all_goals
    have hno : ¬ CreatesRing s o := by
      rintro ⟨-, -, hav | ⟨-, hnone⟩⟩
      · exact absurd hav (by simp [hprobes.2])
      · rw [uringCtx_ok hnone] at hctx
        exact absurd hctx (by simp)
    rw [h, List.forall_mem_singleton, hprobe _ hctx]
    exact ⟨fun hfaithful => ⟨fun _ => hfaithful, fun hc => absurd hc hno⟩,
      fun hshows => hshows.1 hprobes⟩

/-- What is known of io_uring after an opening, in terms of the errors raised. -/
structure Recorded (s : State) (x : Entry) : Prop where
  failed : ∀ a ∈ x.attempts, ∀ exc, a.result = .error exc →
    ∃ errno, uringCreateEx a.queueInit = some errno
  caches : x.available = some false → s.available = some false ∨
    ∃ a ∈ x.attempts, a.IsProbe ∧ ∃ exc, a.result = .error exc ∧ exc.errno ∈ unavailable
  propagates : ∀ a ∈ x.attempts, a.IsProbe → ∀ exc, a.result = .error exc →
    exc.errno ∉ unavailable → x.outcome = .uringError exc ∧ x.available = none

theorem recorded_aenter (s : State) (o : Opening) : Recorded s (s.aenter o) := by
  have hring : ∀ a ∈ (s.openUring o).2, ¬ a.IsProbe ∧ ∀ exc, a.result = .error exc →
      ∃ errno, uringCreateEx a.queueInit = some errno := by
    intro a ha
    obtain ⟨-, rfl⟩ := mem_openUring.mp ha
    exact ⟨by simp [Attempt.IsProbe], fun exc => uringCreateEx_of_error⟩
  rcases aenter_cases s o with ⟨hprefer, h⟩ | ⟨hprefer, havailable, h⟩ |
    ⟨hprefer, havailable, h⟩ | ⟨hprobes, hctx, h⟩ | ⟨exc, hprobes, hctx, ⟨hmem, h⟩ | ⟨hmem, h⟩⟩
  · rw [h]
    exact ⟨by simp, Or.inl, by simp⟩
  · rw [h]
    exact ⟨by simp, fun _ => Or.inl havailable, by simp⟩
  · rw [h]
    exact ⟨fun a ha => (hring a ha).2, by simp, fun a ha hp => absurd hp (hring a ha).1⟩
  · rw [h]
    refine ⟨fun a ha exc hexc => ?_, by simp, fun a ha hp exc hexc => ?_⟩
    · rcases List.mem_cons.mp ha with rfl | ha
      · exact absurd hexc (by simp)
      · exact (hring a ha).2 exc hexc
    · rcases List.mem_cons.mp ha with rfl | ha
      · exact absurd hexc (by simp)
      · exact absurd hp (hring a ha).1
  · rw [h]
    refine ⟨fun a ha _ _ => ?_, fun _ => Or.inr ⟨_, List.mem_singleton.mpr rfl, rfl, exc, rfl, hmem⟩,
      fun a ha _ exc' hexc hnot => ?_⟩
    · obtain rfl := List.mem_singleton.mp ha
      exact uringCreateEx_of_error hctx
    · obtain rfl := List.mem_singleton.mp ha
      obtain rfl := Except.error.inj hexc
      exact absurd hmem hnot
  · rw [h]
    refine ⟨fun a ha _ _ => ?_, by simp, fun a ha _ exc' hexc _ => ?_⟩
    · obtain rfl := List.mem_singleton.mp ha
      exact uringCreateEx_of_error hctx
    · obtain rfl := List.mem_singleton.mp ha
      obtain rfl := Except.error.inj hexc
      exact ⟨rfl, rfl⟩

/-- Where nothing is known, an opening that can create its rings uses io_uring. -/
theorem aenter_uring {s : State} (havailable : s.available = none) {o : Opening}
    (hprefer : o.preferUring = true) (hopen : o.osOpen = none) (hlseek : o.lseek = none)
    (hprobe : uringCreateEx o.probe = none) (hring : uringCreateEx o.ring = none) :
    (s.aenter o).outcome = .uring := by
  have hprobes : uringCtx s.errnoCopy o.probe = .ok () := uringCtx_ok hprobe
  have hrings : uringCtx s.errnoCopy o.ring = .ok () := uringCtx_ok hring
  simp [State.aenter, hprefer, State.probeIoUring, havailable, hprobes, State.openUring, hopen,
    hrings, hlseek]

/-! ## Runs -/

/-- An error was raised that does not carry its errno. -/
def Misreported (s : State) : Prop := ∃ x ∈ s.opens, ∃ a ∈ x.attempts, ¬ a.Faithful

/-- What holds in every state of a run. -/
structure Known (s : State) : Prop where
  failed : ∀ x ∈ s.opens, ∀ a ∈ x.attempts, ∀ exc, a.result = .error exc →
    ∃ errno, uringCreateEx a.queueInit = some errno
  caches : s.available = some false → ∃ x ∈ s.opens, ∃ a ∈ x.attempts, a.IsProbe ∧
    ∃ exc, a.result = .error exc ∧ exc.errno ∈ unavailable
  propagates : ∀ x ∈ s.opens, ∀ a ∈ x.attempts, a.IsProbe → ∀ exc, a.result = .error exc →
    exc.errno ∉ unavailable → x.outcome = .uringError exc ∧ x.available = none

theorem known_init : Known State.init :=
  ⟨by simp [State.init], by simp [State.init], by simp [State.init]⟩

theorem Known.step {s t : State} (h : Known s) {e : Event} (ht : step s e = some t) :
    Known t := by
  cases e with
  | setErrno errno =>
    obtain rfl := Option.some.inj ht
    exact ⟨h.failed, h.caches, h.propagates⟩
  | aenter o =>
    obtain rfl := Option.some.inj ht
    have hrec := recorded_aenter s o
    refine ⟨List.forall_mem_cons.mpr ⟨hrec.failed, h.failed⟩, fun hfalse => ?_,
      List.forall_mem_cons.mpr ⟨hrec.propagates, h.propagates⟩⟩
    rcases hrec.caches hfalse with hold | hnew
    · obtain ⟨x, hx, hcached⟩ := h.caches hold
      exact ⟨x, List.mem_cons_of_mem _ hx, hcached⟩
    · exact ⟨s.aenter o, List.mem_cons_self, hnew⟩

/-- Errors that carry their errno are all that it takes. -/
theorem Known.lawful_iff {s : State} (h : Known s) : Lawful s ↔ ¬ Misreported s := by
  constructor
  · rintro hlawful ⟨x, hx, a, ha, hnot⟩
    exact hnot (hlawful.raises x hx a ha)
  · intro hnone
    have hfaithful : ∀ x ∈ s.opens, ∀ a ∈ x.attempts, a.Faithful := fun x hx a ha =>
      Classical.byContradiction fun hnot => hnone ⟨x, hx, a, ha, hnot⟩
    refine ⟨hfaithful, fun hfalse => ?_, fun x hx a ha hp errno herrno hnot => ?_,
      fun havailable o hprefer hopen hlseek hprobe hring =>
        aenter_uring havailable hprefer hopen hlseek hprobe hring⟩
    · obtain ⟨x, hx, a, ha, hp, exc, hexc, hmem⟩ := h.caches hfalse
      obtain ⟨errno, herrno⟩ := h.failed x hx a ha exc hexc
      obtain ⟨exc', hexc', rfl⟩ := hfaithful x hx a ha errno herrno
      obtain rfl := Except.error.inj (hexc'.symm.trans hexc)
      exact ⟨x, hx, a, ha, hp, exc'.errno, hmem, herrno⟩
    · obtain ⟨exc, hexc, rfl⟩ := hfaithful x hx a ha errno herrno
      obtain ⟨houtcome, hcache⟩ := h.propagates x hx a ha hp exc hexc hnot
      exact ⟨⟨exc, houtcome, rfl⟩, hcache⟩

/-- **What is cached reflects permanent failures only** exactly as long as the errno copy
happens to show why a ring could not be created. -/
theorem lawful_iff_errno_shows (es : List Event) (s : State)
    (hs : exec step State.init es = some s) : Lawful s ↔ Meets step ErrnoShows State.init es := by
  have hnone : ¬ Misreported State.init := by
    rintro ⟨x, hx, -⟩
    exact absurd hx List.not_mem_nil
  have hknown : Known s := (reach_anyStep_of_exec hs).invariant known_init
    fun _ _ _ hu _ hv => hu.step hv
  rw [hknown.lawful_iff]
  refine flawless_iff_meets (I := Known) (F := Misreported) (fun u e v hu hv => hu.step hv) ?_ ?_
    known_init hnone hs
  · rintro u e v - hv ⟨x, hx, hflaw⟩
    cases e with
    | setErrno errno =>
      obtain rfl := Option.some.inj hv
      exact ⟨x, hx, hflaw⟩
    | aenter o =>
      obtain rfl := Option.some.inj hv
      exact ⟨x, List.mem_cons_of_mem _ hx, hflaw⟩
  · intro u e v _ hv hno
    cases e with
    | setErrno errno =>
      obtain rfl := Option.some.inj hv
      exact iff_of_false hno (not_not_intro trivial)
    | aenter o =>
      obtain rfl := Option.some.inj hv
      rw [← aenter_faithful_iff]
      constructor
      · rintro ⟨x, hx, a, ha, hflaw⟩ hfaithful
        rcases List.mem_cons.mp hx with rfl | hx
        · exact hflaw (hfaithful a ha)
        · exact hno ⟨x, hx, a, ha, hflaw⟩
      · intro hnot
        obtain ⟨a, ha, hflaw⟩ : ∃ a ∈ (u.aenter o).attempts, ¬ a.Faithful := by
          simpa using hnot
        exact ⟨u.aenter o, List.mem_cons_self, a, ha, hflaw⟩

/-- The ring is not supported, and after a while it is: the first file is a plain one and,
since the answer was cached, so is the second. -/
theorem lawful_iff_errno_shows_unsupported :
    ∃ s, exec step State.init [.aenter ⟨true, false, ⟨true, -95⟩, none, ⟨true, 0⟩, none, none⟩,
        .aenter ⟨true, false, ⟨true, 0⟩, none, ⟨true, 0⟩, none, none⟩] = some s ∧
      (Lawful s ↔ Meets step ErrnoShows State.init
        [.aenter ⟨true, false, ⟨true, -95⟩, none, ⟨true, 0⟩, none, none⟩,
          .aenter ⟨true, false, ⟨true, 0⟩, none, ⟨true, 0⟩, none, none⟩]) :=
  ⟨_, rfl, lawful_iff_errno_shows _ _ rfl⟩

/-- The first ring cannot be created since the process has too many open files: the error
says that io_uring is not supported, and `False` is cached. -/
theorem availability_misjudged :
    ¬ ∀ (es : List Event) (s : State), exec step State.init es = some s → Lawful s := by
  intro h
  have hlawful := h [.aenter ⟨true, false, ⟨true, -24⟩, none, ⟨true, 0⟩, none, none⟩] _ rfl
  obtain ⟨x, hx, a, ha, -, errno, hmem, herrno⟩ := hlawful.caches rfl
  obtain rfl := List.mem_singleton.mp hx
  obtain rfl := List.mem_singleton.mp ha
  obtain rfl : (24 : ℤ) = errno := Option.some.inj herrno
  exact absurd hmem (by decide)

end ProbeIoUring
end Pyuring
