import Pyuring.Lib.Resources
import Pyuring.ProbeIoUring
import Mathlib.Algebra.Ring.Int.Defs

/-!
# A pool of rings

`UringPool` of `pool.py`, with the parts of `UringCtx` that create the native ring and warn of it:
`__init__` from the loading of the library on, and `__del__`.

The constructor creates its rings in a list comprehension.  When one of them cannot be
created, the exception takes the list along before anybody else has seen it, and all that
happens to the rings in it is that their finalisers run; and these warn, but destroy nothing.

`init_of_failure` says what the constructor has done when ring `k` fails, and
`all_or_nothing_iff` that this is nothing exactly when `k` is the first.
-/

namespace Pyuring
namespace UringPool

open ProbeIoUring (QueueInit uringCreateEx lib uringError EOPNOTSUPP)
open Resources

/-- How the creation of a ring goes: whether the native library is found and loaded, and what
the native function meets. -/
structure Attempt where
  loads : Bool
  queueInit : QueueInit
  deriving DecidableEq, Repr

def Attempt.Succeeds (a : Attempt) : Prop := a.loads = true ∧ uringCreateEx a.queueInit = none

instance (a : Attempt) : Decidable a.Succeeds := inferInstanceAs (Decidable (_ ∧ _))

/-- What the constructor raises; `osError` stands for what the search for the library and its
loading raise. -/
inductive Exn where
  | valueError (message : String)
  | osError
  | uringError (exc : UringError)
  deriving DecidableEq

/-- What does not depend on the ring: the `setup_flags` that all are created with, the errno copy
of `ctypes`, and whether the interpreter shuts down. -/
structure Env where
  setupFlags : ℤ
  errnoCopy : ℤ
  finalizing : Bool

/-- The detail of the error that `UringCtx.__init__` raises. -/
def Env.initDetail (env : Env) : String :=
  "io_uring_queue_init_params failed (NULL return). " ++
  "Common causes: io_uring disabled (seccomp, container policy), " ++
  "unsupported IORING_SETUP_* combination for this kernel, or resource limits.\n" ++
  "Documentation: https://www.kernel.org/doc/html/latest/io_uring/index.html\n" ++
  "liburing: https://github.com/axboe/liburing\n" ++
  "setup_flags=" ++ toString (env.setupFlags % 2 ^ 32) ++ " (see IORING_SETUP_* in pyuring)."

/-- What was done to native rings, oldest first, and the rings that a `ResourceWarning` was
issued for, newest first. -/
structure Effects where
  uses : List (Use ℕ)
  warned : List ℕ
  deriving DecidableEq, Repr

def Effects.none : Effects := ⟨[], []⟩

/-- A `UringCtx`, which has a native ring unless it is closed. -/
structure UringCtx where
  ctx : Option ℕ
  deriving DecidableEq, Repr

variable (env : Env)

namespace UringCtx

/-- `UringCtx.__init__`.  A native ring goes by the number of the uses before it. -/
def init (a : Attempt) (fx : Effects) : Except Exn UringCtx × Effects :=
  if !a.loads then (.error .osError, fx)
  else match uringCreateEx a.queueInit with
    | some errno =>
      let err := lib.getErrno errno env.errnoCopy
      let err := if err = 0 then EOPNOTSUPP else err
      (.error (.uringError (uringError err "uring_create_ex" (some env.initDetail))), fx)
    | none => (.ok ⟨some fx.uses.length⟩, { fx with uses := fx.uses ++ [.acquire fx.uses.length] })

/-- `UringCtx.__del__`. -/
def del (r : UringCtx) (fx : Effects) : Effects :=
  if env.finalizing then fx
  else match r.ctx with
    | some ring => { fx with warned := ring :: fx.warned }
    | none => fx

end UringCtx

/-- The list comprehension, with the rings that it has so far.  When a ring cannot be created the
list goes, and its elements with it, the last one first. -/
def comprehension : List Attempt → List UringCtx → Effects → Except Exn (List UringCtx) × Effects
  | [], rings, fx => (.ok rings, fx)
  | a :: attempts, rings, fx =>
    match UringCtx.init env a fx with
    | (.ok r, fx) => comprehension attempts (rings ++ [r]) fx
    | (.error exc, fx) => (.error exc, rings.foldr (fun r fx => r.del env fx) fx)

/-- `UringPool.__init__`. -/
def init (n : ℤ) (attempts : ℕ → Attempt) : Except Exn (List UringCtx) × Effects :=
  if n ≤ 0 then (.error (.valueError "n must be positive"), .none)
  else comprehension env ((List.range n.toNat).map attempts) [] .none

/-- The first `k` rings of the pool. -/
def firstRings (k : ℕ) : List UringCtx := (List.range k).map fun i => ⟨some i⟩

/-- The first `k` rings were created. -/
def created (k : ℕ) : Effects := ⟨openClose (List.range k) [], []⟩

variable {attempts : ℕ → Attempt} {k : ℕ}

/-! ## One ring -/

theorem UringCtx.init_ok {a : Attempt} (h : a.Succeeds) (fx : Effects) :
    UringCtx.init env a fx = (.ok ⟨some fx.uses.length⟩,
      { fx with uses := fx.uses ++ [.acquire fx.uses.length] }) := by
  simp [UringCtx.init, h.1, h.2]

/-- A ring that cannot be created leaves nothing behind. -/
theorem UringCtx.init_error {a : Attempt} (h : ¬ a.Succeeds) (fx : Effects) :
    ∃ exc, UringCtx.init env a fx = (.error exc, fx) := by
  unfold UringCtx.init
  cases hloads : a.loads with
  | false => exact ⟨_, rfl⟩
  | true =>
    cases hcreate : uringCreateEx a.queueInit with
    | none => exact absurd ⟨hloads, hcreate⟩ h
    | some errno => exact ⟨_, rfl⟩

/-- The finalisers of rings warn, unless the interpreter shuts down, and destroy nothing. -/
theorem del_all (rings : List UringCtx) (fx : Effects) :
    rings.foldr (fun r fx => r.del env fx) fx = { fx with
      warned :=
        if env.finalizing then fx.warned else rings.filterMap UringCtx.ctx ++ fx.warned } := by
  induction rings with
  | nil => simp
  | cons r rings ih =>
    rw [List.foldr_cons, ih, UringCtx.del]
    split
    · rfl
    · cases hctx : r.ctx <;> simp [hctx]

/-! ## The comprehension -/

theorem created_succ (k : ℕ) : (created k).uses ++ [.acquire (created k).uses.length] =
    (created (k + 1)).uses := by
  simp [created, openClose, List.range_succ]

theorem firstRings_succ (k : ℕ) :
    firstRings k ++ [⟨some (created k).uses.length⟩] = firstRings (k + 1) := by
  simp [firstRings, created, openClose, List.range_succ]

theorem rings_firstRings (k : ℕ) : (firstRings k).filterMap UringCtx.ctx = List.range k := by
  simp [firstRings, List.filterMap_map]

/-- While rings are created, the list grows. -/
theorem comprehension_created (rest : List Attempt) (hok : ∀ i < k, (attempts i).Succeeds) :
    comprehension env ((List.range k).map attempts ++ rest) [] .none =
      comprehension env rest (firstRings k) (created k) := by
  induction k generalizing rest with
  | zero => rfl
  | succ k ih =>
    rw [List.range_succ, List.map_append, List.append_assoc,
      ih _ fun i hi => hok i (Nat.lt_succ_of_lt hi), List.map_singleton, List.singleton_append,
      comprehension, UringCtx.init_ok env (hok k (Nat.lt_succ_self k))]
    simp only [firstRings_succ, created_succ]
    rfl

/-! ## A pool that was not created -/

/-- **The constructor fails** with ring `k`: the rings before it are there, with nobody to destroy
them, and at most a warning was issued for each. -/
theorem init_of_failure {n : ℤ} (hk : k < n) (hok : ∀ i < k, (attempts i).Succeeds)
    (hfail : ¬ (attempts k).Succeeds) : ∃ exc, init env n attempts = (.error exc,
      ⟨openClose (List.range k) [], if env.finalizing then [] else List.range k⟩) := by
  obtain ⟨m, hm⟩ : ∃ m, n.toNat = k + (m + 1) := ⟨n.toNat - k - 1, by omega⟩
  have hsplit : (List.range n.toNat).map attempts = (List.range k).map attempts ++
      attempts k :: (List.range m).map fun i => attempts (k + (i + 1)) := by
    rw [hm, List.range_add, List.range_succ_eq_map, List.map_append, List.map_map, List.map_cons,
      List.map_map]
    rfl
  obtain ⟨exc, hexc⟩ := UringCtx.init_error env hfail (created k)
  refine ⟨exc, ?_⟩
  rw [init, if_neg (by omega), hsplit, comprehension_created env _ hok, comprehension, hexc]
  simp only [del_all, rings_firstRings]
  simp [created]

/-- **The constructor is all or nothing** where the first ring cannot be created, and only there:
it raises whichever ring cannot be created, and leaves those before it open. -/
theorem all_or_nothing_iff (env : Env) (attempts : ℕ → Attempt) (n : ℤ) (k : ℕ) (hk : k < n)
    (hok : ∀ i < k, (attempts i).Succeeds) (hfail : ¬ (attempts k).Succeeds) :
    ((∃ exc, (init env n attempts).1 = .error exc) ∧ Settled (init env n attempts).2.uses) ↔
      k = 0 := by
  obtain ⟨exc, heq⟩ := init_of_failure env hk hok hfail
  rw [heq]
  simp only [settled_openClose_nil, List.range_eq_nil, Except.error.injEq, exists_eq', true_and]

/-- The first ring is created, the second one runs into a limit. -/
def secondFails (i : ℕ) : Attempt := ⟨true, ⟨true, if i = 0 then 0 else -12⟩⟩

theorem all_or_nothing_iff_secondFails :
    ((∃ exc, (init ⟨0, 0, false⟩ 2 secondFails).1 = .error exc) ∧
      Settled (init ⟨0, 0, false⟩ 2 secondFails).2.uses) ↔ (1 : ℕ) = 0 :=
  all_or_nothing_iff ⟨0, 0, false⟩ secondFails 2 1 (by decide) (by decide) (by decide)

/-- The first ring is left open. -/
theorem first_ring_left_open : (secondFails 0).Succeeds ∧ ¬ (secondFails 1).Succeeds ∧
    (∃ exc, (init ⟨0, 0, false⟩ 2 secondFails).1 = .error exc) ∧
    (init ⟨0, 0, false⟩ 2 secondFails).2.uses = [.acquire 0] ∧
    ¬ Settled (init ⟨0, 0, false⟩ 2 secondFails).2.uses := by
  refine ⟨by decide, by decide, ⟨_, rfl⟩, by decide, ?_⟩
  intro h
  exact absurd (h 0) (by decide)

end UringPool
end Pyuring
