import Pyuring.Lib.Trace
import Pyuring.AsyncFile

/-!
# Who holds the lock

The lock serialises the calls: at most one call is past it, every call returns once,
and the calls that took the lock return in the order in which they took it.  None of
this depends on what the kernel answers or on who is cancelled (`ledger_reach`).

A call runs on from the moment it has the lock up to its next `await`.  In between it
counts as running although its task does not say so yet, which is what `Holding` is
for.
-/

namespace Pyuring
namespace AsyncFile

open Trace

/-- The call is past the lock and has not returned. -/
def Task.isRunning : Task → Bool
  | .awaiting _ _ _ => true
  | .inExecutor => true
  | .executed _ => true
  | _ => false

/-- The bookkeeping of calls, lock and trace. -/
structure Ledger (s : State) : Prop where
  holder : ∀ u, (s.task u).isRunning = true ↔ s.lock = some u
  done : ∀ u o, s.task u = .done o ↔ (u, o) ∈ s.returns
  fresh : ∀ u, s.calls ≤ u → s.task u = .notCalled
  asking : ∀ u, s.task u = .waitingLock → (s.op u).early false = none
  asked : ∀ u ∈ s.lockOrder, s.task u ≠ .notCalled ∧ s.task u ≠ .waitingLock
  nodup : (s.returns.map Prod.fst).Nodup
  order : s.lockOrder = (s.returns.map Prod.fst).filter (· ∈ s.lockOrder) ++ s.lock.toList

/-- What the ledger reads of a state. -/
def State.entries (s : State) :
    (ℕ → Task) × Option ℕ × (ℕ → Op) × ℕ × List (ℕ × Outcome) × List ℕ :=
  (s.task, s.lock, s.op, s.calls, s.returns, s.lockOrder)

/-- The call has the lock and runs. -/
def Holding (s : State) (u : ℕ) : Prop := s.lock = some u ∧ Ledger (s.setTask u .inExecutor)

variable {s t : State} {u most : ℕ} {o : Outcome}

theorem entries_eq : t.entries = s.entries ↔
    t.task = s.task ∧ t.lock = s.lock ∧ t.op = s.op ∧ t.calls = s.calls ∧
      t.returns = s.returns ∧ t.lockOrder = s.lockOrder := by
  simp only [State.entries, Prod.mk.injEq]

theorem Ledger.congr (h : Ledger s) (hentries : t.entries = s.entries) : Ledger t := by
  obtain ⟨htask, hlock, hop, hcalls, hreturns, horder⟩ := entries_eq.mp hentries
  exact {
    holder := by rw [htask, hlock]; exact h.holder
    done := by rw [htask, hreturns]; exact h.done
    fresh := by rw [htask, hcalls]; exact h.fresh
    asking := by rw [htask, hop]; exact h.asking
    asked := by rw [horder, htask]; exact h.asked
    nodup := hreturns ▸ h.nodup
    order := by rw [horder, hreturns, hlock]; exact h.order }

theorem returns_cons_returned (h : t.log = .returned u o :: s.log) :
    t.returns = s.returns ++ [(u, o)] := by
  simp only [State.returns, h, List.filterMap_cons, List.reverse_cons]

theorem lockOrder_cons_locked (h : t.log = .locked u :: s.log) :
    t.lockOrder = s.lockOrder ++ [u] := by
  simp only [State.lockOrder, h, List.filterMap_cons, List.reverse_cons]

@[simp] theorem returns_ret (u : ℕ) (o : Outcome) (s : State) :
    (s.ret u o).returns = s.returns ++ [(u, o)] := returns_cons_returned rfl

@[simp] theorem lockOrder_ret (u : ℕ) (o : Outcome) (s : State) :
    (s.ret u o).lockOrder = s.lockOrder := rfl

@[simp] theorem returns_finish (u : ℕ) (o : Outcome) (s : State) :
    (s.finish u o).returns = s.returns ++ [(u, o)] := returns_cons_returned rfl

@[simp] theorem lockOrder_finish (u : ℕ) (o : Outcome) (s : State) :
    (s.finish u o).lockOrder = s.lockOrder := rfl

theorem task_setTask_self (u : ℕ) (task : Task) (s : State) : (s.setTask u task).task u = task :=
  Function.update_self _ _ _

theorem task_setTask_of_ne {v : ℕ} (h : v ≠ u) (task : Task) (s : State) :
    (s.setTask u task).task v = s.task v :=
  Function.update_of_ne h _ _

theorem Ledger.not_returned (h : Ledger s) (hu : ∀ o, s.task u ≠ .done o) (o : Outcome) :
    (u, o) ∉ s.returns := fun hmem => hu o ((h.done u o).mpr hmem)

theorem Ledger.not_mem_returns (h : Ledger s) (hu : ∀ o, s.task u ≠ .done o) :
    u ∉ s.returns.map Prod.fst := fun hmem => by
  obtain ⟨⟨v, o⟩, hv, rfl⟩ := List.mem_map.mp hmem
  exact h.not_returned hu o hv

theorem Ledger.lt_calls (h : Ledger s) (hu : s.task u ≠ .notCalled) : u < s.calls :=
  Nat.lt_of_not_le fun hle => hu (h.fresh u hle)

theorem Ledger.running_of_lock (h : Ledger s) (hlock : s.lock = some u) :
    (s.task u).isRunning = true := (h.holder u).mpr hlock

/-- Nobody runs when the lock is free. -/
theorem Ledger.not_running (h : Ledger s) (hfree : s.lock = none) (u : ℕ) :
    (s.task u).isRunning ≠ true := fun hrun => by
  have hlock := (h.holder u).mp hrun
  rw [hfree] at hlock
  exact absurd hlock (by simp)

theorem ne_done_of_running {task : Task} (h : task.isRunning = true) (o : Outcome) :
    task ≠ .done o := fun heq => by rw [heq] at h; exact absurd h (by simp [Task.isRunning])

theorem ne_notCalled_of_running {task : Task} (h : task.isRunning = true) :
    task ≠ .notCalled := fun heq => by rw [heq] at h; exact absurd h (by simp [Task.isRunning])

theorem ne_waitingLock_of_running {task : Task} (h : task.isRunning = true) :
    task ≠ .waitingLock := fun heq => by rw [heq] at h; exact absurd h (by simp [Task.isRunning])

/-- A call that is not past the lock afterwards is none that runs. -/
theorem task_of_running_update {v : ℕ} {task : Task} (hidle : task.isRunning = false)
    (hv : (Function.update s.task u task v).isRunning = true) :
    v ≠ u ∧ Function.update s.task u task v = s.task v := by
  by_cases hvu : v = u
  · rw [hvu, Function.update_self, hidle] at hv
    exact absurd hv (by simp)
  · exact ⟨hvu, Function.update_of_ne hvu _ _⟩

/-! ## What a call does to its own entry -/

/-- A call that runs goes from one `await` to the next. -/
theorem Ledger.setTask (h : Ledger s) (hlock : s.lock = some u) {task : Task}
    (htask : task.isRunning = true) : Ledger (s.setTask u task) := by
  have hrun := h.running_of_lock hlock
  refine ⟨?_, ?_, ?_, ?_, ?_, h.nodup,
    h.order⟩
  · intro v
    by_cases hvu : v = u
    · rw [hvu, task_setTask_self]
      exact iff_of_true htask hlock
    · rw [task_setTask_of_ne hvu]
      exact h.holder v
  · intro v o
    by_cases hvu : v = u
    · rw [hvu, task_setTask_self]
      exact iff_of_false (ne_done_of_running htask o) (h.not_returned (ne_done_of_running hrun) o)
    · rw [task_setTask_of_ne hvu]
      exact h.done v o
  · intro v hv
    have hvu : v ≠ u := fun heq => ne_notCalled_of_running hrun (h.fresh u (heq ▸ hv))
    rw [task_setTask_of_ne hvu]
    exact h.fresh v hv
  · intro v hv
    by_cases hvu : v = u
    · rw [hvu, task_setTask_self] at hv
      exact absurd hv (ne_waitingLock_of_running htask)
    · rw [task_setTask_of_ne hvu] at hv
      exact h.asking v hv
  · intro v hv
    by_cases hvu : v = u
    · rw [hvu, task_setTask_self]
      exact ⟨ne_notCalled_of_running htask, ne_waitingLock_of_running htask⟩
    · rw [task_setTask_of_ne hvu]
      exact h.asked v hv

/-- The entry of a call that returns. -/
theorem Ledger.done_ret (h : Ledger s) (hu : ∀ o, s.task u ≠ .done o) (o : Outcome) (v : ℕ)
    (p : Outcome) : (s.ret u o).task v = .done p ↔ (v, p) ∈ (s.ret u o).returns := by
  rw [returns_ret, List.mem_append, List.mem_singleton]
  by_cases hvu : v = u
  · subst hvu
    have hself : (s.ret v o).task v = .done o := Function.update_self _ _ _
    rw [hself]
    refine ⟨fun heq => Or.inr (by rw [Task.done.inj heq]), ?_⟩
    intro hmem
    rcases hmem with hmem | heq
    · exact absurd hmem (h.not_returned hu p)
    · rw [(Prod.mk.inj heq).2]
  · have hother : (s.ret u o).task v = s.task v := Function.update_of_ne hvu _ _
    rw [hother, h.done v p]
    exact ⟨Or.inl, fun hmem => hmem.resolve_right fun heq => hvu (Prod.mk.inj heq).1⟩

theorem Ledger.nodup_ret (h : Ledger s) (hu : ∀ o, s.task u ≠ .done o) (o : Outcome) :
    ((s.ret u o).returns.map Prod.fst).Nodup := by
  rw [returns_ret, List.map_append]
  refine List.nodup_append.mpr ⟨h.nodup, List.nodup_cons.mpr ⟨List.not_mem_nil, List.nodup_nil⟩,
    fun v hv w hw heq => h.not_mem_returns hu ?_⟩
  have hwu : w = u := List.mem_singleton.mp hw
  rw [← hwu, ← heq]
  exact hv

theorem Ledger.fresh_ret (h : Ledger s) (hu : u < s.calls) (o : Outcome) (v : ℕ)
    (hv : s.calls ≤ v) : (s.ret u o).task v = .notCalled :=
  (Function.update_of_ne (by omega) _ _).trans (h.fresh v hv)

theorem Ledger.asking_ret (h : Ledger s) (u : ℕ) (o : Outcome) (v : ℕ)
    (hv : (s.ret u o).task v = .waitingLock) : (s.op v).early false = none := by
  by_cases hvu : v = u
  · have hself : (s.ret u o).task v = .done o := by rw [hvu]; exact Function.update_self _ _ _
    exact absurd (hself.symm.trans hv) (by simp)
  · have hother : (s.ret u o).task v = s.task v := Function.update_of_ne hvu _ _
    exact h.asking v (hother.symm.trans hv)

theorem Ledger.asked_ret (h : Ledger s) (u : ℕ) (o : Outcome) (v : ℕ) (hv : v ∈ s.lockOrder) :
    (s.ret u o).task v ≠ .notCalled ∧ (s.ret u o).task v ≠ .waitingLock := by
  by_cases hvu : v = u
  · have hself : (s.ret u o).task v = .done o := by rw [hvu]; exact Function.update_self _ _ _
    rw [hself]
    exact ⟨by simp, by simp⟩
  · have hother : (s.ret u o).task v = s.task v := Function.update_of_ne hvu _ _
    rw [hother]
    exact h.asked v hv

/-- A call returns that never had the lock. -/
theorem Ledger.ret (h : Ledger s) (hu : u < s.calls)
    (hidle : s.task u = .waitingLock ∨ s.task u = .notCalled) (o : Outcome) :
    Ledger (s.ret u o) := by
  have hdone : ∀ p, s.task u ≠ .done p := fun p => by rcases hidle with h | h <;> simp [h]
  have hrun : (s.task u).isRunning = false := by rcases hidle with h | h <;> rw [h] <;> rfl
  have hunlocked : u ∉ s.lockOrder := fun hmem =>
    hidle.elim (h.asked u hmem).2 (h.asked u hmem).1
  refine ⟨?_, h.done_ret hdone o, h.fresh_ret hu o, h.asking_ret u o,
    h.asked_ret u o, h.nodup_ret hdone o, ?_⟩
  · intro v
    change ((s.ret u o).task v).isRunning = true ↔ s.lock = some v
    by_cases hvu : v = u
    · have hself : (s.ret u o).task v = .done o := by rw [hvu]; exact Function.update_self _ _ _
      have hlock : ¬ s.lock = some v := fun hlock => by
        have hv := h.running_of_lock hlock
        rw [hvu, hrun] at hv
        exact absurd hv (by simp)
      rw [hself]
      exact iff_of_false (by simp [Task.isRunning]) hlock
    · have hother : (s.ret u o).task v = s.task v := Function.update_of_ne hvu _ _
      rw [hother]
      exact h.holder v
  · rw [returns_ret, lockOrder_ret, List.map_append, List.filter_append]
    have hskip : ([(u, o)].map Prod.fst).filter (· ∈ s.lockOrder) = [] := by
      simp [hunlocked]
    rw [hskip, List.append_nil]
    exact h.order

/-- The call that has the lock returns. -/
theorem Ledger.finish (h : Ledger s) (hlock : s.lock = some u) (o : Outcome) :
    Ledger (s.finish u o) := by
  have hrun := h.running_of_lock hlock
  refine ⟨?_, h.done_ret (ne_done_of_running hrun) o,
    h.fresh_ret (h.lt_calls (ne_notCalled_of_running hrun)) o, h.asking_ret u o, h.asked_ret u o,
    h.nodup_ret (ne_done_of_running hrun) o, ?_⟩
  · intro v
    change ((s.ret u o).task v).isRunning = true ↔ none = some v
    refine iff_of_false ?_ (by simp)
    intro hv
    by_cases hvu : v = u
    · have hself : (s.ret u o).task v = .done o := by rw [hvu]; exact Function.update_self _ _ _
      rw [hself] at hv
      exact absurd hv (by simp [Task.isRunning])
    · have hother : (s.ret u o).task v = s.task v := Function.update_of_ne hvu _ _
      rw [hother] at hv
      exact hvu (Option.some.inj (((h.holder v).mp hv).symm.trans hlock))
  · have horder := h.order
    rw [hlock, Option.toList_some] at horder
    have hmem : u ∈ s.lockOrder := by
      rw [horder]
      exact List.mem_append_right _ List.mem_cons_self
    have hkeep : ([(u, o)].map Prod.fst).filter (· ∈ s.lockOrder) = [u] := by simp [hmem]
    have hnone : (s.finish u o).lock = none := rfl
    rw [returns_finish, lockOrder_finish, List.map_append, List.filter_append, hkeep, hnone,
      Option.toList_none, List.append_nil]
    exact horder

/-! ## What a call does while it holds the lock -/

theorem Ledger.holding (h : Ledger s) (hlock : s.lock = some u) : Holding s u :=
  ⟨hlock, h.setTask hlock rfl⟩

theorem Holding.congr (h : Holding s u) (hentries : t.entries = s.entries) : Holding t u := by
  obtain ⟨htask, hlock, hop, hcalls, hreturns, horder⟩ := entries_eq.mp hentries
  refine ⟨hlock.trans h.1, h.2.congr (entries_eq.mpr ⟨?_, hlock, hop, hcalls, hreturns, horder⟩)⟩
  simp only [State.setTask, htask]

theorem Holding.setTask (h : Holding s u) {task : Task} (htask : task.isRunning = true) :
    Ledger (s.setTask u task) := by
  have hidem : (s.setTask u .inExecutor).setTask u task = s.setTask u task := by
    simp only [State.setTask, Function.update_idem]
  exact hidem ▸ h.2.setTask (s := s.setTask u .inExecutor) h.1 htask

theorem Holding.finish (h : Holding s u) (o : Outcome) : Ledger (s.finish u o) := by
  have hidem : (s.setTask u .inExecutor).finish u o = s.finish u o := by
    simp only [State.setTask, State.finish, State.ret, Function.update_idem]
  exact hidem ▸ h.2.finish (s := s.setTask u .inExecutor) h.1 o

theorem Holding.submit (h : Holding s u) (io : Io) (submitRet : ℤ) :
    Ledger (s.submit u io submitRet) := by
  unfold State.submit
  simp only
  split
  · refine Holding.finish ?_ _
    exact h.congr rfl
  · split
    · refine Holding.finish ?_ _
      exact h.congr rfl
    · split
      · refine Holding.finish ?_ _
        exact h.congr rfl
      · refine Holding.setTask ?_ rfl
        exact h.congr rfl

theorem Holding.acloseUnlocked (h : Holding s u) : Ledger (s.acloseUnlocked u) := by
  unfold State.acloseUnlocked
  simp only
  split
  · exact h.finish _
  · split <;> split
    · refine Holding.setTask ?_ rfl
      exact h.congr rfl
    · refine Holding.finish ?_ _
      exact h.congr rfl
    · refine Holding.setTask ?_ rfl
      exact h.congr rfl
    · refine Holding.finish ?_ _
      exact h.congr rfl

theorem Holding.locked (h : Holding s u) (submitRet : ℤ) : Ledger (s.locked u submitRet) := by
  unfold State.locked
  split
  · split
    · exact h.setTask rfl
    · split
      · exact h.finish _
      · split
        · exact h.finish _
        · split
          · exact h.submit _ _
          · exact h.submit _ _
  · split
    · exact h.setTask rfl
    · split
      · exact h.finish _
      · exact h.submit _ _
  · exact h.acloseUnlocked

theorem Holding.onCompletion (h : Holding s u) (io : Io) (req : Request) (gotUd : ℕ)
    (res submitRet : ℤ) : Ledger (s.onCompletion u io req gotUd res submitRet) := by
  unfold State.onCompletion
  simp only
  split
  · refine Holding.finish ?_ _
    exact h.congr rfl
  · split
    · refine Holding.finish ?_ _
      exact h.congr rfl
    · split
      · split
        · refine Holding.submit ?_ _ _
          exact h.congr rfl
        · refine Holding.finish ?_ _
          exact h.congr rfl
      · refine Holding.finish ?_ _
        exact h.congr rfl

/-! ## The steps -/

/-- A call starts. -/
theorem Ledger.newCall (h : Ledger s) (op : Op) :
    Ledger { s with calls := s.calls + 1, op := Function.update s.op s.calls op } where
  holder := h.holder
  done := h.done
  fresh v hv := h.fresh v (Nat.le_of_succ_le hv)
  asking v hv := by
    have hne : v ≠ s.calls := fun heq => by
      have hfresh := h.fresh v (Nat.le_of_eq heq.symm)
      exact absurd (hfresh.symm.trans hv) (by simp)
    exact (congrArg (Op.early false) (Function.update_of_ne hne _ _)).trans (h.asking v hv)
  asked := h.asked
  nodup := h.nodup
  order := h.order

/-- A call asks for the lock. -/
theorem Ledger.ask (h : Ledger s) (hu : u < s.calls) (hnew : s.task u = .notCalled)
    (hearly : (s.op u).early false = none) : Ledger (s.setTask u .waitingLock) := by
  refine ⟨?_, ?_, ?_, ?_, ?_, h.nodup,
    h.order⟩
  · intro v
    by_cases hvu : v = u
    · rw [hvu, task_setTask_self]
      refine iff_of_false (by simp [Task.isRunning]) ?_
      intro hlock
      exact ne_notCalled_of_running (h.running_of_lock hlock) hnew
    · rw [task_setTask_of_ne hvu]
      exact h.holder v
  · intro v o
    by_cases hvu : v = u
    · rw [hvu, task_setTask_self]
      exact iff_of_false (by simp) (h.not_returned (fun p => by rw [hnew]; simp) o)
    · rw [task_setTask_of_ne hvu]
      exact h.done v o
  · intro v hv
    have hv' : s.calls ≤ v := hv
    rw [task_setTask_of_ne (by omega)]
    exact h.fresh v hv'
  · intro v hv
    by_cases hvu : v = u
    · exact hvu ▸ hearly
    · rw [task_setTask_of_ne hvu] at hv
      exact h.asking v hv
  · intro v hv
    have hvu : v ≠ u := fun heq => (h.asked v hv).1 (heq ▸ hnew)
    rw [task_setTask_of_ne hvu]
    exact h.asked v hv

/-- On an open file a call is refused as on a closed one, or for its arguments. -/
theorem Op.early_false {op : Op} {closed : Bool} (h : op.early closed = none) :
    op.early false = none := by
  cases closed with
  | false => exact h
  | true =>
    cases op with
    | read n =>
      simp only [Op.early] at h
      split_ifs at h
    | write data => simp [Op.early] at h
    | aclose => simp [Op.early] at h

theorem Ledger.call (h : Ledger s) (op : Op) : Ledger (s.call op) := by
  have hcall := h.newCall op
  have hnew : s.task s.calls = .notCalled := h.fresh s.calls (Nat.le_refl _)
  unfold State.call
  simp only
  split
  · exact hcall.ret (Nat.lt_succ_self _) (Or.inr hnew) _
  · next hearly =>
    refine hcall.ask (Nat.lt_succ_self _) hnew ?_
    exact (congrArg (Op.early false) (Function.update_self _ _ _)).trans (Op.early_false hearly)

/-- A call takes the lock. -/
theorem Ledger.takeLock (h : Ledger s) (hwait : s.task u = .waitingLock) (hfree : s.lock = none) :
    Holding { s with lock := some u, log := .locked u :: s.log } u := by
  refine ⟨rfl, ?_⟩
  have hdone : ∀ o, s.task u ≠ .done o := fun o => by rw [hwait]; simp
  have hnew : u ∉ s.lockOrder := fun hmem => (h.asked u hmem).2 hwait
  have horder : (({ s with lock := some u, log := .locked u :: s.log } : State).setTask u
      .inExecutor).lockOrder = s.lockOrder ++ [u] := lockOrder_cons_locked rfl
  refine ⟨?_, ?_, ?_, ?_, ?_, h.nodup, ?_⟩
  · intro v
    by_cases hvu : v = u
    · rw [hvu, task_setTask_self]
      exact iff_of_true rfl rfl
    · rw [task_setTask_of_ne hvu]
      refine iff_of_false ?_ fun heq => hvu (Option.some.inj heq).symm
      intro hv
      exact absurd ((h.holder v).mp hv) (by rw [hfree]; simp)
  · intro v o
    by_cases hvu : v = u
    · rw [hvu, task_setTask_self]
      exact iff_of_false (by simp) (h.not_returned hdone o)
    · rw [task_setTask_of_ne hvu]
      exact h.done v o
  · intro v hv
    have hvu : v ≠ u := fun heq => by
      rw [heq] at hv
      exact absurd (h.fresh u hv) (by rw [hwait]; simp)
    rw [task_setTask_of_ne hvu]
    exact h.fresh v hv
  · intro v hv
    by_cases hvu : v = u
    · rw [hvu, task_setTask_self] at hv
      exact absurd hv (by simp)
    · rw [task_setTask_of_ne hvu] at hv
      exact h.asking v hv
  · intro v hv
    by_cases hvu : v = u
    · rw [hvu, task_setTask_self]
      exact ⟨by simp, by simp⟩
    · rw [horder, List.mem_append, List.mem_singleton] at hv
      rw [task_setTask_of_ne hvu]
      exact h.asked v (hv.resolve_right hvu)
  · have hold := h.order
    rw [hfree, Option.toList_none, List.append_nil] at hold
    have hfilter : (s.returns.map Prod.fst).filter (· ∈ s.lockOrder ++ [u]) =
        (s.returns.map Prod.fst).filter (· ∈ s.lockOrder) := by
      refine List.filter_congr ?_
      intro v hv
      have hvu : v ≠ u := fun heq => h.not_mem_returns hdone (heq ▸ hv)
      simp [hvu]
    rw [horder]
    change s.lockOrder ++ [u] = (s.returns.map Prod.fst).filter (· ∈ s.lockOrder ++ [u]) ++ [u]
    rw [hfilter, ← hold]

theorem acquire_cases {submitRet : ℤ} (ht : s.acquire u submitRet = some t) :
    s.task u = .waitingLock ∧ s.lock = none ∧
      t = ({ s with lock := some u, log := .locked u :: s.log } : State).locked u submitRet := by
  unfold State.acquire at ht
  split at ht
  · next hcond => exact ⟨hcond.1, hcond.2, (Option.some.inj ht).symm⟩
  · exact absurd ht (by simp)

theorem Ledger.acquire (h : Ledger s) {submitRet : ℤ} (ht : s.acquire u submitRet = some t) :
    Ledger t := by
  obtain ⟨hwait, hfree, rfl⟩ := acquire_cases ht
  exact (h.takeLock hwait hfree).locked submitRet

/-- A call that runs again was handed a completion, or raises, or waits on; or its job is
done. -/
theorem resume_cases {submitRet : ℤ} (ht : s.resume u submitRet = some t) :
    (∃ io req w ua, s.task u = .awaiting io req w ∧ s.ua.resume w = some ua ∧
      ((∃ gotUd res, t = ({ s with ua := ua } : State).onCompletion u io req gotUd res submitRet) ∨
        (∃ exc, exc ≠ .assertionError ∧ t = ({ s with ua := ua } : State).finish u (.error exc)) ∨
        t = { s with ua := ua })) ∨
    ∃ o, s.task u = .executed o ∧ t = s.finish u o := by
  unfold State.resume at ht
  split at ht
  · next io req w hu =>
    obtain ⟨ua, hua, rfl⟩ := Option.map_eq_some_iff.mp ht
    refine Or.inl ⟨io, req, w, ua, hu, hua, ?_⟩
    simp only
    split
    · exact Or.inl ⟨_, _, rfl⟩
    · exact Or.inr (Or.inl ⟨_, by simp, rfl⟩)
    · exact Or.inr (Or.inl ⟨_, by simp, rfl⟩)
    · exact Or.inr (Or.inr rfl)
  · next o hu => exact Or.inr ⟨o, hu, (Option.some.inj ht).symm⟩
  · exact absurd ht (by simp)

theorem Ledger.resume (h : Ledger s) {submitRet : ℤ} (ht : s.resume u submitRet = some t) :
    Ledger t := by
  rcases resume_cases ht with ⟨io, req, w, ua, hu, -, hnext⟩ | ⟨o, hu, rfl⟩
  · have hhold : Holding ({ s with ua := ua } : State) u :=
      (h.holding ((h.holder u).mp (by rw [hu]; rfl))).congr rfl
    rcases hnext with ⟨gotUd, res, rfl⟩ | ⟨exc, -, rfl⟩ | rfl
    · exact hhold.onCompletion _ _ _ _ _
    · exact hhold.finish _
    · exact h.congr rfl
  · exact h.finish ((h.holder u).mp (by rw [hu]; rfl)) o

theorem fpRead_ne_assertionError (flags : Flags) (file : List UInt8) (n : ℤ) (p : ℕ) :
    (fpRead flags most file n p).1 ≠ .error .assertionError := by
  unfold fpRead
  split_ifs <;> simp

theorem fpWrite_ne_assertionError (flags : Flags) (file data : List UInt8) (p : ℕ) :
    (fpWrite flags file data p).1 ≠ .error .assertionError := by
  unfold fpWrite
  split
  · simp
  · simp

/-- A job of the executor changes the file and the file object only. -/
theorem runJob_cases {flags : Flags} (ht : s.runJob flags u most = some t) :
    s.task u = .inExecutor ∧ ∃ file fp o, fp.isSome = s.fp.isSome ∧ o ≠ .error .assertionError ∧
      t = ({ s with file := file, fp := fp } : State).setTask u (.executed o) := by
  unfold State.runJob at ht
  split at ht
  · next hu =>
    refine ⟨hu, ?_⟩
    split at ht
    · next n p _ hfp =>
      exact ⟨s.file, _, _, by rw [hfp]; rfl, fpRead_ne_assertionError flags s.file n p,
        (Option.some.inj ht).symm⟩
    · next data p _ hfp =>
      exact ⟨_, _, _, by rw [hfp]; rfl, fpWrite_ne_assertionError flags s.file data p,
        (Option.some.inj ht).symm⟩
    · exact ⟨s.file, s.fp, .none, rfl, by simp, (Option.some.inj ht).symm⟩
    · exact absurd ht (by simp)
  · exact absurd ht (by simp)

theorem Ledger.runJob {flags : Flags} (h : Ledger s) (ht : s.runJob flags u most = some t) :
    Ledger t := by
  obtain ⟨hu, file, fp, o, -, -, rfl⟩ := runJob_cases ht
  refine Holding.setTask ?_ rfl
  exact (h.holding ((h.holder u).mp (by rw [hu]; rfl))).congr rfl

/-- A cancelled call gives up the lock it waits for, or is told by the reader. -/
theorem cancel_cases (ht : s.cancel u = some t) :
    s.task u = .waitingLock ∧ t = s.ret u (.error .cancelledError) ∨
    ∃ io req w ua, s.task u = .awaiting io req w ∧ s.ua.cancel w = some ua ∧
      t = { s with ua := ua } := by
  unfold State.cancel at ht
  split at ht
  · next hu => exact Or.inl ⟨hu, (Option.some.inj ht).symm⟩
  · next io req w hu =>
    obtain ⟨ua, hua, rfl⟩ := Option.map_eq_some_iff.mp ht
    exact Or.inr ⟨io, req, w, ua, hu, hua, rfl⟩
  · exact absurd ht (by simp)

theorem complete_cases {flags : Flags} {i : ℕ} {res : ℤ} (ht : s.complete flags i res = some t) :
    ∃ req file data, s.inflight[i]? = some req ∧ req.perform flags res s.file = some (file, data) ∧
      t = { s with
        inflight := s.inflight.eraseIdx i
        file := file
        buf := Function.update s.buf req.ud (data ++ (s.buf req.ud).drop data.length)
        ua := { s.ua with posted := s.ua.posted ++ [(req.ud, res)] }
        log := .performed req res :: s.log } := by
  unfold State.complete at ht
  split at ht
  · exact absurd ht (by simp)
  · next req hreq =>
    obtain ⟨⟨file, data⟩, hperform, rfl⟩ := Option.map_eq_some_iff.mp ht
    exact ⟨req, file, data, hreq, hperform, rfl⟩

theorem complete_of_perform {flags : Flags} {i : ℕ} {res : ℤ} {req : Request}
    {file data : List UInt8} (hreq : s.inflight[i]? = some req)
    (hperform : req.perform flags res s.file = some (file, data)) :
    s.complete flags i res = some { s with
      inflight := s.inflight.eraseIdx i
      file := file
      buf := Function.update s.buf req.ud (data ++ (s.buf req.ud).drop data.length)
      ua := { s.ua with posted := s.ua.posted ++ [(req.ud, res)] }
      log := .performed req res :: s.log } := by
  simp only [State.complete, hreq, hperform, Option.map_some]

theorem ledger_step {flags : Flags} {e : Event} (h : Ledger s) (ht : step flags s e = some t) :
    Ledger t := by
  cases e with
  | call op =>
    rw [← Option.some.inj ht]
    exact h.call op
  | acquire u submitRet => exact h.acquire ht
  | complete i res =>
    obtain ⟨req, file, data, -, -, rfl⟩ := complete_cases ht
    exact h.congr rfl
  | onReadable waitRet peeks =>
    obtain ⟨ua, -, ht⟩ := Option.map_eq_some_iff.mp ht
    rw [← ht]
    exact h.congr rfl
  | runJob u most => exact h.runJob ht
  | resume u submitRet => exact h.resume ht
  | cancel u =>
    rcases cancel_cases ht with ⟨hu, rfl⟩ | ⟨io, req, w, ua, -, -, rfl⟩
    · exact h.ret (h.lt_calls (by rw [hu]; simp)) (Or.inl hu) _
    · exact h.congr rfl

theorem ledger_aenter (flags : Flags) (uring : Bool) (content : List UInt8) :
    Ledger (aenter flags uring content) where
  holder u := iff_of_false (by simp [aenter, Task.isRunning]) (by simp [aenter])
  done u o := iff_of_false (by simp [aenter]) (by simp [aenter, State.returns])
  fresh _ _ := rfl
  asking u hu := absurd hu (by simp [aenter])
  asked u hu := absurd hu (by simp [aenter, State.lockOrder])
  nodup := List.nodup_nil
  order := rfl

/-- **The lock serialises the calls**, in every run. -/
theorem ledger_reach {flags : Flags} {P : State → Event → Prop} {uring : Bool}
    {content : List UInt8} (h : Reach (step flags) P (aenter flags uring content) s) : Ledger s :=
  h.invariant (ledger_aenter flags uring content) fun _ _ _ hl _ ht => ledger_step hl ht

end AsyncFile
end Pyuring
