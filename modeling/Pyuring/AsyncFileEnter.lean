import Pyuring.AsyncFile
import Pyuring.ProbeIoUring

/-!
# What a failed opening leaves open

`AsyncFile.__aenter__`, with what it opens.  Six steps may raise: the probe, `os.open`, the
ring, its `UringAsync`, `lseek` in an append mode, and the `builtins.open` that stands in
where there is no ring.  One class of exceptions is caught, `UringError`; then the
descriptor is closed, and the ring is let go of without being closed.  Nothing else closes
what a failed opening has opened: `__aexit__` does not run, and a `UringCtx` that is
collected only warns.

How an opening ends was described with the errno of its rings, without what it opens;
`GoesLike.outcome_aenter` says that the two agree.
-/

namespace Pyuring
namespace AsyncFileEnter

open AsyncFile (Mode modeToFlags)
open ProbeIoUring (unavailable)

/-- An exception, by the classes that the `except` clauses tell apart.  `UringError` is an
`OSError`; `osError` is one that is no `UringError`. -/
inductive Exn where
  | uringError (exc : UringError)
  | osError (errno : ℤ)
  | other (name : String)
  deriving DecidableEq, Repr

/-- How each step goes, where it is taken: what it raises, or the descriptor, the ring or
the position that it returns.  `os.close` gives the descriptor back also where it raises. -/
structure Steps where
  probe : Except Exn ℕ
  osOpen : Except Exn ℕ
  ring : Except Exn ℕ
  uringAsync : Except Exn Unit
  lseek : Except Exn ℕ
  osClose : Option ℤ
  builtinsOpen : Except Exn ℕ

/-- The fields of the object. -/
structure File where
  useUring : Bool
  fd : Option ℕ
  fp : Option ℕ
  ring : Option ℕ
  ua : Option ℕ
  pos : ℕ
  closed : Bool
  deriving DecidableEq, Repr

/-- `AsyncFile.__init__`. -/
def File.new : File := ⟨false, none, none, none, none, 0, true⟩

/-- `_URING_AVAILABLE`, the object, and the descriptors and rings that were opened since
`__aenter__` was called and are open. -/
structure State where
  available : Option Bool
  file : File
  fds : List ℕ
  rings : List ℕ
  deriving DecidableEq, Repr

/-- Code that may raise. -/
abbrev Enter := EStateM Exn State

def setFile (f : File → File) : Enter Unit :=
  modify fun s => { s with file := f s.file }

/-- `UringCtx(entries=…)`. -/
def uringCtx (result : Except Exn ℕ) : Enter ℕ := do
  let r ← MonadExcept.ofExcept result
  modify fun s => { s with rings := r :: s.rings }
  return r

/-- `UringCtx.close`. -/
def uringCtxClose (r : ℕ) : Enter Unit :=
  modify fun s => { s with rings := s.rings.erase r }

/-- `os.open`, and `builtins.open` with the descriptor of the file object. -/
def openFd (result : Except Exn ℕ) : Enter ℕ := do
  let fd ← MonadExcept.ofExcept result
  modify fun s => { s with fds := fd :: s.fds }
  return fd

/-- `os.close`. -/
def osClose (fd : ℕ) (result : Option ℤ) : Enter Unit := do
  modify fun s => { s with fds := s.fds.erase fd }
  match result with
  | some errno => throw (.osError errno)
  | none => pure ()

/-- `_probe_io_uring`. -/
def probeIoUring (o : Steps) : Enter Bool := do
  match (← get).available with
  | some available => pure available
  | none =>
    try
      let r ← uringCtx o.probe
      uringCtxClose r
      modify fun s => { s with available := some true }
      pure true
    catch
      | .uringError exc =>
        if exc.errno ∈ unavailable then
          modify fun s => { s with available := some false }
          pure false
        else throw (.uringError exc)
      | e => throw e

/-- The `try` block of `__aenter__`. -/
def setUp (mode : Mode) (o : Steps) : Enter Unit := do
  let r ← uringCtx o.ring
  setFile fun f => { f with ring := some r }
  MonadExcept.ofExcept o.uringAsync
  setFile fun f => { f with ua := some r, useUring := true }
  if (modeToFlags mode).append then
    let pos ← MonadExcept.ofExcept o.lseek
    setFile fun f => { f with pos := pos }
  else setFile fun f => { f with pos := 0 }

/-- What its `except UringError` does. -/
def letGo (o : Steps) : Enter Unit := do
  match (← get).file.fd with
  | some fd =>
    try osClose fd o.osClose
    catch
      | .other name => throw (.other name)
      | _ => pure ()
    setFile fun f => { f with fd := none }
  | none => pure ()
  setFile fun f => { f with ring := none, ua := none, useUring := false }

/-- The part of `__aenter__` where io_uring is to be used. -/
def openUring (mode : Mode) (o : Steps) : Enter Unit := do
  let fd ← openFd o.osOpen
  setFile fun f => { f with fd := some fd }
  try setUp mode o
  catch
    | .uringError _ => letGo o
    | e => throw e

/-- The part where it is not. -/
def openSync (o : Steps) : Enter Unit := do
  let fp ← openFd o.builtinsOpen
  setFile fun f => { f with fp := some fp, fd := none, pos := 0 }

/-- The end of `__aenter__`, for a file on a ring and for one that has none. -/
def openRest (o : Steps) : Enter Unit := do
  if !(← get).file.useUring then openSync o
  setFile fun f => { f with closed := false }

/-- `self._prefer_uring and _probe_io_uring()`. -/
def mayUseUring (preferUring : Bool) (o : Steps) : Enter Bool :=
  if preferUring then probeIoUring o else pure false

/-- `AsyncFile.__aenter__`. -/
def aenter (preferUring : Bool) (mode : Mode) (o : Steps) : Enter Unit := do
  let use ← mayUseUring preferUring o
  if use then openUring mode o
  openRest o

/-! ## What the steps do -/

/-- What raised is looked at in the state in which it did. -/
theorem run_tryCatch {α : Type} (x : Enter α) (handle : Exn → Enter α) (s : State) :
    (tryCatch x handle).run s = match x.run s with
      | .ok a t => .ok a t
      | .error e t => (handle e).run t := by
  show EStateM.tryCatch x handle s = _
  unfold EStateM.tryCatch EStateM.run
  cases x s with
  | ok a t => rfl
  | error e t => rfl

variable {mode : Mode} {o : Steps} {s : State} {e : Exn}

theorem run_setFile (f : File → File) (s : State) :
    (setFile f).run s = .ok () { s with file := f s.file } := rfl

theorem run_openFd_ok {result : Except Exn ℕ} {fd : ℕ} (h : result = .ok fd) :
    (openFd result).run s = .ok fd { s with fds := fd :: s.fds } := by
  rw [h]
  rfl

/-- What `_probe_io_uring` takes for the answer no. -/
def Unavailable (e : Exn) : Prop := ∃ exc, e = .uringError exc ∧ exc.errno ∈ unavailable

/-- The probe leaves no ring open, whatever it finds out. -/
theorem run_probeIoUring (o : Steps) (s : State) :
    (∃ use available, (probeIoUring o).run s = .ok use { s with available := available } ∧
      (use = true ↔ s.available = some true ∨ s.available = none ∧ ∃ r, o.probe = .ok r) ∧
      (s.available = none → ∀ e, o.probe = .error e → Unavailable e)) ∨
    ∃ e, (probeIoUring o).run s = .error e s ∧ s.available = none ∧ o.probe = .error e ∧
      ¬ Unavailable e := by
  obtain ⟨available, file, fds, rings⟩ := s
  cases available with
  | some available => exact Or.inl ⟨available, some available, rfl, by simp, by simp⟩
  | none =>
    cases hprobe : o.probe with
    | ok r =>
      have hrun : (probeIoUring o).run ⟨none, file, fds, rings⟩ =
          .ok true ⟨some true, file, fds, (r :: rings).erase r⟩ := by
        unfold probeIoUring
        rw [hprobe]
        rfl
      rw [List.erase_cons_head] at hrun
      exact Or.inl ⟨true, some true, hrun, by simp, by simp⟩
    | error e =>
      cases e with
      | uringError exc =>
        by_cases hexc : exc.errno ∈ unavailable
        · have hrun : (probeIoUring o).run ⟨none, file, fds, rings⟩ =
              .ok false ⟨some false, file, fds, rings⟩ := by
            unfold probeIoUring
            rw [hprobe]
            show EStateM.run (if _ then _ else _) _ = _
            rw [if_pos hexc]
            rfl
          refine Or.inl ⟨false, some false, hrun, by simp, ?_⟩
          intro _ e he
          exact ⟨exc, (Except.error.inj he).symm, hexc⟩
        · have hrun : (probeIoUring o).run ⟨none, file, fds, rings⟩ =
              .error (.uringError exc) ⟨none, file, fds, rings⟩ := by
            unfold probeIoUring
            rw [hprobe]
            show EStateM.run (if _ then _ else _) _ = _
            rw [if_neg hexc]
            rfl
          refine Or.inr ⟨.uringError exc, hrun, rfl, rfl, ?_⟩
          rintro ⟨exc', heq, hmem⟩
          exact hexc (Exn.uringError.inj heq ▸ hmem)
      | osError errno =>
        refine Or.inr ⟨.osError errno, ?_, rfl, rfl, by simp [Unavailable]⟩
        unfold probeIoUring
        rw [hprobe]
        rfl
      | other name =>
        refine Or.inr ⟨.other name, ?_, rfl, rfl, by simp [Unavailable]⟩
        unfold probeIoUring
        rw [hprobe]
        rfl

/-- A step after the ring was created raises. -/
def AfterRing (mode : Mode) (o : Steps) (e : Exn) : Prop :=
  (∃ r, o.ring = .ok r) ∧ (o.uringAsync = .error e ∨
    o.uringAsync = .ok () ∧ (modeToFlags mode).append = true ∧ o.lseek = .error e)

/-- The `try` block leaves the ring open that it has created. -/
theorem run_setUp (mode : Mode) (o : Steps) (s : State) :
    (∃ e, (setUp mode o).run s = .error e s ∧ o.ring = .error e) ∨
    (∃ e r f, (setUp mode o).run s = .error e ⟨s.available, f, s.fds, r :: s.rings⟩ ∧
      f.fd = s.file.fd ∧ AfterRing mode o e) ∨
    ∃ r f, (setUp mode o).run s = .ok () ⟨s.available, f, s.fds, r :: s.rings⟩ ∧
      f.useUring = true ∧ (∃ r, o.ring = .ok r) ∧ ∀ e, ¬ AfterRing mode o e := by
  unfold AfterRing setUp
  cases hring : o.ring with
  | error e => exact Or.inl ⟨e, rfl, rfl⟩
  | ok r =>
    refine Or.inr ?_
    cases hua : o.uringAsync with
    | error e =>
      exact Or.inl ⟨e, r, { s.file with ring := some r }, rfl, rfl, ⟨r, rfl⟩, Or.inl rfl⟩
    | ok _ =>
      cases happend : (modeToFlags mode).append with
      | false =>
        refine Or.inr ⟨r, { s.file with ring := some r, ua := some r, useUring := true, pos := 0 },
          rfl, rfl, ⟨r, rfl⟩, by simp⟩
      | true =>
        cases hlseek : o.lseek with
        | error e =>
          exact Or.inl ⟨e, r, { s.file with ring := some r, ua := some r, useUring := true }, rfl,
            rfl, ⟨r, rfl⟩, Or.inr ⟨rfl, rfl, rfl⟩⟩
        | ok pos =>
          exact Or.inr ⟨r, { s.file with
            ring := some r, ua := some r, useUring := true, pos := pos }, rfl, rfl, ⟨r, rfl⟩,
          by simp⟩

/-- The clean-up closes the descriptor, also where `os.close` raises, and no ring. -/
theorem run_letGo (o : Steps) {fd : ℕ} (hfd : s.file.fd = some fd) :
    (letGo o).run s = .ok () ⟨s.available, { s.file with
      fd := none, ring := none, ua := none, useUring := false }, s.fds.erase fd, s.rings⟩ := by
  unfold letGo
  rw [EStateM.run_bind, EStateM.run_get]
  simp only [hfd]
  cases hclose : o.osClose with
  | none => rfl
  | some errno => rfl

/-- How the part with io_uring ends. -/
inductive Ends (mode : Mode) (o : Steps) (s : State) : EStateM.Result Exn State Unit → Prop where
  | notOpened {e : Exn} (hopen : o.osOpen = .error e) : Ends mode o s (.error e s)
  | onRing {fd r : ℕ} {f : File} (hopen : o.osOpen = .ok fd) (hring : ∃ r, o.ring = .ok r)
      (hdone : ∀ e, ¬ AfterRing mode o e) (huse : f.useUring = true) :
      Ends mode o s (.ok () ⟨s.available, f, fd :: s.fds, r :: s.rings⟩)
  | noRing {fd : ℕ} {exc : UringError} {f : File} (hopen : o.osOpen = .ok fd)
      (hring : o.ring = .error (.uringError exc)) (huse : f.useUring = false) :
      Ends mode o s (.ok () ⟨s.available, f, s.fds, s.rings⟩)
  | dropped {fd r : ℕ} {exc : UringError} {f : File} (hopen : o.osOpen = .ok fd)
      (hafter : AfterRing mode o (.uringError exc)) (huse : f.useUring = false) :
      Ends mode o s (.ok () ⟨s.available, f, s.fds, r :: s.rings⟩)
  | uncaught {fd : ℕ} {e : Exn} {f : File} {rings : List ℕ} (hopen : o.osOpen = .ok fd)
      (hraise : o.ring = .error e ∨ AfterRing mode o e) (hclass : ∀ exc, e ≠ .uringError exc) :
      Ends mode o s (.error e ⟨s.available, f, fd :: s.fds, rings⟩)

theorem run_openUring_ok {fd : ℕ} (hopen : o.osOpen = .ok fd) : (openUring mode o).run s =
    match (setUp mode o).run ⟨s.available, { s.file with fd := some fd }, fd :: s.fds, s.rings⟩ with
    | .ok _ t => .ok () t
    | .error (.uringError _) t => (letGo o).run t
    | .error e t => .error e t := by
  unfold openUring
  rw [EStateM.run_bind, run_openFd_ok hopen]
  simp only
  rw [EStateM.run_bind, run_setFile]
  show EStateM.run (tryCatch (setUp mode o) _) _ = _
  rw [run_tryCatch]
  cases (setUp mode o).run ⟨s.available, { s.file with fd := some fd }, fd :: s.fds, s.rings⟩ with
  | ok _ t => rfl
  | error e t =>
    cases e with
    | uringError exc => rfl
    | osError errno => rfl
    | other name => rfl

theorem ends_openUring (mode : Mode) (o : Steps) (s : State) :
    Ends mode o s ((openUring mode o).run s) := by
  cases hopen : o.osOpen with
  | error e =>
    have hrun : (openUring mode o).run s = .error e s := by
      unfold openUring
      rw [hopen]
      rfl
    rw [hrun]
    exact .notOpened hopen
  | ok fd =>
    rw [run_openUring_ok hopen]
    rcases run_setUp mode o ⟨s.available, { s.file with fd := some fd }, fd :: s.fds, s.rings⟩ with
      ⟨e, hrun, hring⟩ | ⟨e, r, f, hrun, hfd, hafter⟩ | ⟨r, f, hrun, huse, hring, hdone⟩
    · rw [hrun]
      cases e with
      | uringError exc =>
        simp only
        rw [run_letGo o rfl, List.erase_cons_head]
        exact .noRing hopen hring rfl
      | osError errno => exact .uncaught hopen (Or.inl hring) (by simp)
      | other name => exact .uncaught hopen (Or.inl hring) (by simp)
    · rw [hrun]
      cases e with
      | uringError exc =>
        simp only
        rw [run_letGo o hfd, List.erase_cons_head]
        exact .dropped hopen hafter rfl
      | osError errno => exact .uncaught hopen (Or.inr hafter) (by simp)
      | other name => exact .uncaught hopen (Or.inr hafter) (by simp)
    · rw [hrun]
      exact .onRing hopen hring hdone huse

theorem run_openRest_of_ring (huse : s.file.useUring = true) :
    ∃ t, (openRest o).run s = .ok () t ∧ t.file.useUring = true := by
  obtain ⟨available, ⟨use, fd, fp, ring, ua, pos, closed⟩, fds, rings⟩ := s
  obtain rfl : use = true := huse
  exact ⟨⟨available, ⟨true, fd, fp, ring, ua, pos, false⟩, fds, rings⟩, rfl, rfl⟩

theorem run_openRest_error (huse : s.file.useUring = false) (hopen : o.builtinsOpen = .error e) :
    (openRest o).run s = .error e s := by
  obtain ⟨available, ⟨use, fd, fp, ring, ua, pos, closed⟩, fds, rings⟩ := s
  obtain rfl : use = false := huse
  unfold openRest openSync
  rw [hopen]
  rfl

theorem run_openRest_ok {fp : ℕ} (huse : s.file.useUring = false)
    (hopen : o.builtinsOpen = .ok fp) :
    ∃ t, (openRest o).run s = .ok () t ∧ t.file.useUring = false := by
  obtain ⟨available, ⟨use, fd, _, ring, ua, pos, closed⟩, fds, rings⟩ := s
  obtain rfl : use = false := huse
  refine ⟨⟨available, ⟨false, none, some fp, ring, ua, 0, false⟩, fp :: fds, rings⟩, ?_, rfl⟩
  unfold openRest openSync
  rw [hopen]
  rfl

/-! ## The opening of a process -/

/-- A step raises what it is said to raise, if anything. -/
def Raises {α : Type} (result : Except Exn α) : Option Exn → Prop
  | some e => result = .error e
  | none => ∃ a, result = .ok a

/-- What a ring that was to be created raises. -/
def raisedBy : Except UringError Unit → Option Exn
  | .error exc => some (.uringError exc)
  | .ok () => none

/-- The steps go as in an opening of the process. -/
structure GoesLike (errnoCopy : ℤ) (x : ProbeIoUring.Opening) (mode : Mode) (o : Steps) :
    Prop where
  append : (modeToFlags mode).append = x.append
  probe : Raises o.probe (raisedBy (ProbeIoUring.uringCtx errnoCopy x.probe))
  osOpen : Raises o.osOpen (x.osOpen.map .osError)
  ring : Raises o.ring (raisedBy (ProbeIoUring.uringCtx errnoCopy x.ring))
  uringAsync : o.uringAsync = .ok ()
  lseek : Raises o.lseek (x.lseek.map .osError)
  builtinsOpen : Raises o.builtinsOpen (x.builtinsOpen.map .osError)

/-- How an opening ends. -/
def outcome : EStateM.Result Exn State Unit → Option ProbeIoUring.Outcome
  | .ok _ t => some (if t.file.useUring then .uring else .plain)
  | .error (.uringError exc) _ => some (.uringError exc)
  | .error (.osError errno) _ => some (.osError errno)
  | .error (.other _) _ => none

variable {errnoCopy : ℤ} {x : ProbeIoUring.Opening}

theorem Raises.error_iff {α : Type} {result : Except Exn α} {raised : Option Exn}
    (h : Raises result raised) : result = .error e ↔ raised = some e := by
  cases raised with
  | none =>
    obtain ⟨a, rfl⟩ := h
    simp
  | some d =>
    obtain rfl : result = .error d := h
    simp

theorem Raises.ok_iff {α : Type} {result : Except Exn α} {raised : Option Exn}
    (h : Raises result raised) : (∃ a, result = .ok a) ↔ raised = none := by
  cases raised with
  | none => exact iff_of_true h rfl
  | some d =>
    obtain rfl : result = .error d := h
    simp

theorem GoesLike.outcome_openRest (h : GoesLike errnoCopy x mode o)
    (huse : s.file.useUring = false) :
    outcome ((openRest o).run s) = some (ProbeIoUring.State.openSync x) := by
  have hopen := h.builtinsOpen
  unfold ProbeIoUring.State.openSync
  cases herrno : x.builtinsOpen with
  | some errno =>
    rw [herrno] at hopen
    rw [run_openRest_error huse hopen]
    rfl
  | none =>
    rw [herrno] at hopen
    obtain ⟨fp, hfp⟩ := hopen
    obtain ⟨t, hrun, hplain⟩ := run_openRest_ok huse hfp
    rw [hrun]
    simp only [outcome, hplain]
    rfl

theorem raisedBy_eq_none {result : Except UringError Unit} (h : raisedBy result = none) :
    result = .ok () := by
  cases result with
  | ok _ => rfl
  | error exc => exact absurd h (by simp [raisedBy])

theorem raisedBy_eq_some {result : Except UringError Unit} (h : raisedBy result = some e) :
    ∃ exc, result = .error exc ∧ e = .uringError exc := by
  cases result with
  | ok _ => exact absurd h (by simp [raisedBy])
  | error exc => exact ⟨exc, rfl, (Option.some.inj h).symm⟩

theorem GoesLike.afterRing_iff (h : GoesLike errnoCopy x mode o) : AfterRing mode o e ↔
    ProbeIoUring.uringCtx errnoCopy x.ring = .ok () ∧ x.append = true ∧
      ∃ errno, x.lseek = some errno ∧ e = .osError errno := by
  have hlseek : x.lseek.map .osError = some e ↔
      ∃ errno, x.lseek = some errno ∧ e = .osError errno := by
    rw [Option.map_eq_some_iff]
    exact exists_congr fun errno => and_congr_right fun _ => eq_comm
  unfold AfterRing
  rw [h.ring.ok_iff, h.uringAsync, h.append, h.lseek.error_iff, hlseek]
  constructor
  · rintro ⟨hring, herror | ⟨-, happend, herrno⟩⟩
    · exact absurd herror (by simp)
    · exact ⟨raisedBy_eq_none hring, happend, herrno⟩
  · rintro ⟨hring, happend, herrno⟩
    exact ⟨by rw [hring]; rfl, Or.inr ⟨rfl, happend, herrno⟩⟩

theorem GoesLike.outcome_openUring {ps : ProbeIoUring.State}
    (h : GoesLike ps.errnoCopy x mode o) (s : State) :
    outcome ((openUring mode o >>= fun _ => openRest o).run s) = some (ps.openUring x).1 := by
  have hopened : (∃ fd, o.osOpen = .ok fd) → x.osOpen = none := by
    intro hfd
    exact Option.map_eq_none_iff.mp (h.osOpen.ok_iff.mp hfd)
  rw [EStateM.run_bind]
  unfold ProbeIoUring.State.openUring
  have hends := ends_openUring mode o s
  generalize (openUring mode o).run s = result at hends ⊢
  cases hends with
  | notOpened hopen =>
    obtain ⟨errno, herrno, rfl⟩ := Option.map_eq_some_iff.mp (h.osOpen.error_iff.mp hopen)
    rw [herrno]
    rfl
  | @onRing fd r f hopen hring hdone huse =>
    have hctx := raisedBy_eq_none (h.ring.ok_iff.mp hring)
    obtain ⟨t, hrun, hring⟩ :=
      run_openRest_of_ring (s := ⟨s.available, f, fd :: s.fds, r :: s.rings⟩) (o := o) huse
    simp only [hopened ⟨_, hopen⟩, hctx, hrun, outcome, hring, if_true]
    cases happend : x.append with
    | false => rfl
    | true =>
      cases hlseek : x.lseek with
      | none => rfl
      | some errno =>
        exact absurd (h.afterRing_iff.mpr ⟨hctx, happend, errno, hlseek, rfl⟩) (hdone _)
  | noRing hopen hring huse =>
    obtain ⟨exc, hctx, -⟩ := raisedBy_eq_some (h.ring.error_iff.mp hring)
    simp only [hopened ⟨_, hopen⟩, hctx]
    exact h.outcome_openRest huse
  | dropped hopen hafter huse =>
    obtain ⟨-, -, errno, -, heq⟩ := h.afterRing_iff.mp hafter
    exact absurd heq (by simp)
  | uncaught hopen hraise hclass =>
    rcases hraise with hring | hafter
    · obtain ⟨exc, -, heq⟩ := raisedBy_eq_some (h.ring.error_iff.mp hring)
      exact absurd heq (hclass exc)
    · obtain ⟨hctx, happend, errno, hlseek, rfl⟩ := h.afterRing_iff.mp hafter
      simp only [hopened ⟨_, hopen⟩, hctx, happend, hlseek, if_true]
      rfl

/-- **An opening ends as the opening of the process**, whatever it leaves open. -/
theorem GoesLike.outcome_aenter {ps : ProbeIoUring.State} (h : GoesLike ps.errnoCopy x mode o) :
    outcome ((aenter x.preferUring mode o).run ⟨ps.available, File.new, [], []⟩) =
      some (ps.aenter x).outcome := by
  have hplain : ∀ available, outcome ((openRest o).run ⟨available, File.new, [], []⟩) =
      some (ProbeIoUring.State.openSync x) := fun _ => h.outcome_openRest rfl
  unfold aenter mayUseUring
  rw [EStateM.run_bind]
  rcases ProbeIoUring.aenter_cases ps x with ⟨hno, heq⟩ | ⟨hyes, havail, heq⟩ |
    ⟨hyes, havail, heq⟩ | ⟨⟨hyes, havail⟩, hctx, heq⟩ | ⟨exc, ⟨hyes, havail⟩, hctx, hcase⟩
  · rw [heq, hno]
    exact hplain _
  · rw [heq, hyes, havail]
    exact hplain _
  · rw [heq, hyes, havail]
    exact h.outcome_openUring _
  · have hprobe := h.probe
    rw [hctx] at hprobe
    obtain ⟨r, hr⟩ := hprobe
    rcases run_probeIoUring o ⟨ps.available, File.new, [], []⟩ with
      ⟨use, now, hrun, huse, -⟩ | ⟨e, -, -, herror, -⟩
    · obtain rfl : use = true := huse.mpr (Or.inr ⟨havail, r, hr⟩)
      rw [heq, hyes, if_pos rfl, hrun]
      exact h.outcome_openUring _
    · exact absurd (hr.symm.trans herror) (by simp)
  · have hprobe := h.probe
    rw [hctx] at hprobe
    have hraised : o.probe = .error (.uringError exc) := hprobe
    rcases run_probeIoUring o ⟨ps.available, File.new, [], []⟩ with
      ⟨use, now, hrun, huse, hmem⟩ | ⟨e, hrun, -, herror, hnot⟩
    · obtain ⟨exc', hexc, hmem⟩ := hmem havail _ hraised
      obtain rfl := Exn.uringError.inj hexc
      have hfalse : use = false := by
        rw [← Bool.not_eq_true, huse, hraised, havail]
        simp
      subst hfalse
      rcases hcase with ⟨-, heq⟩ | ⟨hnot, -⟩
      · rw [heq, hyes, if_pos rfl, hrun]
        exact hplain _
      · exact absurd hmem hnot
    · obtain rfl := Except.error.inj (hraised.symm.trans herror)
      rcases hcase with ⟨hmem, -⟩ | ⟨-, heq⟩
      · exact absurd ⟨exc, rfl, hmem⟩ hnot
      · rw [heq, hyes, if_pos rfl, hrun]
        rfl

/-! ## Leaks -/

/-- If the opening raises, no descriptor and no ring that it has opened is open. -/
def LeaksNothing (result : EStateM.Result Exn State Unit) : Prop :=
  ∀ e s, result = .error e s → s.fds = [] ∧ s.rings = []

/-- The opening gets to a descriptor that is to be used with io_uring. -/
def UsesRing (preferUring : Bool) (available : Option Bool) (o : Steps) : Prop :=
  preferUring = true ∧ (available = some true ∨ available = none ∧ ∃ r, o.probe = .ok r) ∧
    ∃ fd, o.osOpen = .ok fd

/-- Nothing that the clean-up misses: after `os.open` the steps raise nothing but
`UringError`, and where one raises that after the ring was created, the plain file can be
opened. -/
structure CleansUp (preferUring : Bool) (mode : Mode) (available : Option Bool) (o : Steps) :
    Prop where
  caught : UsesRing preferUring available o → ∀ e, o.ring = .error e ∨ AfterRing mode o e →
    ∃ exc, e = .uringError exc
  standsIn : UsesRing preferUring available o → ∀ e, AfterRing mode o e →
    ∃ fp, o.builtinsOpen = .ok fp

theorem leaksNothing_error {t : State} : LeaksNothing (.error e t) ↔ t.fds = [] ∧ t.rings = [] :=
  ⟨fun h => h e t rfl, fun h _ _ heq => by
    obtain ⟨-, rfl⟩ := EStateM.Result.error.inj heq
    exact h⟩

theorem leaksNothing_ok (t : State) : LeaksNothing (.ok () t) :=
  fun _ _ heq => absurd heq (by simp)

/-- The end of the opening raises only where the plain file cannot be opened. -/
theorem leaksNothing_openRest_iff (o : Steps) (s : State) :
    LeaksNothing ((openRest o).run s) ↔
      (s.file.useUring = false → (∃ fp, o.builtinsOpen = .ok fp) ∨ s.fds = [] ∧ s.rings = []) := by
  cases huse : s.file.useUring with
  | true =>
    obtain ⟨t, hrun, -⟩ := run_openRest_of_ring (o := o) huse
    rw [hrun]
    exact iff_of_true (leaksNothing_ok _) (by simp)
  | false =>
    cases hopen : o.builtinsOpen with
    | ok fp =>
      obtain ⟨t, hrun, -⟩ := run_openRest_ok huse hopen
      rw [hrun]
      exact iff_of_true (leaksNothing_ok t) fun _ => Or.inl ⟨fp, rfl⟩
    | error e =>
      rw [run_openRest_error huse hopen, leaksNothing_error]
      simp

/-- Without a ring nothing is left open. -/
theorem leaksNothing_openRest_of_clean (hfds : s.fds = []) (hrings : s.rings = []) :
    LeaksNothing ((openRest o).run s) :=
  (leaksNothing_openRest_iff o s).mpr fun _ => Or.inr ⟨hfds, hrings⟩

theorem cleansUp_of_not_usesRing {preferUring : Bool} {available : Option Bool}
    (h : ¬ UsesRing preferUring available o) : CleansUp preferUring mode available o :=
  ⟨fun huse => absurd huse h, fun huse => absurd huse h⟩

theorem AfterRing.not_ring (h : AfterRing mode o e) {d : Exn} : o.ring ≠ .error d := by
  obtain ⟨⟨r, hring⟩, -⟩ := h
  rw [hring]
  simp

/-- One step after the ring raises, if any. -/
theorem AfterRing.unique {d : Exn} (h : AfterRing mode o e) (hd : AfterRing mode o d) : e = d := by
  obtain ⟨-, h | ⟨h, -, hlseek⟩⟩ := h
  · obtain ⟨-, hd | ⟨hd, -⟩⟩ := hd
    · exact Except.error.inj (h.symm.trans hd)
    · exact absurd (h.symm.trans hd) (by simp)
  · obtain ⟨-, hd | ⟨-, -, hd⟩⟩ := hd
    · exact absurd (h.symm.trans hd) (by simp)
    · exact Except.error.inj (hlseek.symm.trans hd)

/-- An opening that raises after the descriptor is open leaks nothing exactly when what it
raises is caught and the plain file stands in. -/
theorem leaksNothing_openUring_iff {preferUring : Bool} {available : Option Bool}
    (huse : preferUring = true ∧ (available = some true ∨ available = none ∧ ∃ r, o.probe = .ok r))
    (hfds : s.fds = []) (hrings : s.rings = []) :
    LeaksNothing ((openUring mode o >>= fun _ => openRest o).run s) ↔
      CleansUp preferUring mode available o := by
  rw [EStateM.run_bind]
  have hends := ends_openUring mode o s
  generalize hresult : (openUring mode o).run s = result at hends ⊢
  cases hends with
  | notOpened hopen =>
    refine iff_of_true (leaksNothing_error.mpr ⟨hfds, hrings⟩) (cleansUp_of_not_usesRing ?_)
    rintro ⟨-, -, fd, hfd⟩
    exact absurd (hfd.symm.trans hopen) (by simp)
  | onRing hopen hring hdone huse =>
    refine iff_of_true ((leaksNothing_openRest_iff o _).mpr ?_) ⟨?_, ?_⟩
    · intro hno
      exact absurd (huse.symm.trans hno) (by simp)
    · rintro - e (herror | hafter)
      · obtain ⟨r, hr⟩ := hring
        exact absurd (hr.symm.trans herror) (by simp)
      · exact absurd hafter (hdone e)
    · intro _ e hafter
      exact absurd hafter (hdone e)
  | @noRing fd exc f hopen hring huse =>
    refine iff_of_true (leaksNothing_openRest_of_clean hfds hrings) ⟨?_, ?_⟩
    · rintro - e (herror | hafter)
      · exact ⟨exc, Except.error.inj (herror.symm.trans hring)⟩
      · exact absurd hring hafter.not_ring
    · intro _ e hafter
      exact absurd hring hafter.not_ring
  | @dropped fd r exc f hopen hafter hno =>
    refine (leaksNothing_openRest_iff o _).trans ⟨?_, ?_⟩
    · intro h
      refine ⟨?_, ?_⟩
      · rintro - e (herror | hd)
        · exact absurd herror hafter.not_ring
        · exact ⟨exc, hd.unique hafter⟩
      · intro _ e _
        exact (h hno).resolve_right fun hclean => absurd hclean.2 (by simp)
    · intro hclean _
      exact Or.inl (hclean.standsIn ⟨huse.1, huse.2, fd, hopen⟩ _ hafter)
  | @uncaught fd e f rings hopen hraise hclass =>
    refine iff_of_false ?_ ?_
    · intro h
      exact absurd (leaksNothing_error.mp h).1 (by simp)
    · intro hclean
      obtain ⟨exc, hexc⟩ := hclean.caught ⟨huse.1, huse.2, fd, hopen⟩ e hraise
      exact hclass exc hexc

/-- **When a failed opening leaks nothing.**  For every mode, every object and all outcomes
of the steps. -/
theorem leaks_nothing_iff (preferUring : Bool) (mode : Mode) (available : Option Bool)
    (file : File) (o : Steps) :
    LeaksNothing ((aenter preferUring mode o).run ⟨available, file, [], []⟩) ↔
      CleansUp preferUring mode available o := by
  unfold aenter mayUseUring
  rw [EStateM.run_bind]
  cases preferUring with
  | false =>
    refine iff_of_true (leaksNothing_openRest_of_clean rfl rfl) (cleansUp_of_not_usesRing ?_)
    rintro ⟨hprefer, -⟩
    exact absurd hprefer (by simp)
  | true =>
    rcases run_probeIoUring o ⟨available, file, [], []⟩ with
      ⟨use, now, hrun, huse, -⟩ | ⟨e, hrun, hnone, hprobe, -⟩
    · rw [if_pos rfl, hrun]
      cases use with
      | true => exact leaksNothing_openUring_iff ⟨rfl, huse.mp rfl⟩ rfl rfl
      | false =>
        refine iff_of_true (leaksNothing_openRest_of_clean rfl rfl) (cleansUp_of_not_usesRing ?_)
        rintro ⟨-, hring, -⟩
        exact absurd (huse.mpr hring) (by simp)
    · rw [if_pos rfl, hrun]
      refine iff_of_true (leaksNothing_error.mpr ⟨rfl, rfl⟩) (cleansUp_of_not_usesRing ?_)
      rintro ⟨-, hring | ⟨-, r, hr⟩, -⟩
      · exact absurd (hnone.symm.trans hring) (by simp)
      · exact absurd (hr.symm.trans hprobe) (by simp)

/-- A FIFO opened with `"a+b"`: the ring is there, and `lseek` raises `ESPIPE`, which is no
`UringError`. -/
theorem fifo_leaks :
    ¬ ∀ (preferUring : Bool) (mode : Mode) (available : Option Bool) (file : File) (o : Steps),
      LeaksNothing ((aenter preferUring mode o).run ⟨available, file, [], []⟩) := by
  intro h
  have hclean := h true .aPlusB none File.new
    ⟨.ok 3, .ok 3, .ok 4, .ok (), .error (.osError 29), none, .ok 5⟩ _ _ rfl
  exact absurd hclean.1 (by decide)

end AsyncFileEnter
end Pyuring
