import Pyuring.Lib.Trace
import Pyuring.UringAsync
import Mathlib.Data.List.Pairwise

/-!
# Delivery by the event loop

The waiter queue is in call order and the ring in posting order, so the pairing of
calls with completions is always monotone (`Good.mono`).  What can go wrong is that a
completion is paired with nobody: the callback takes it out for a future that is
cancelled, or its future has it and the task is cancelled before it runs.  Both are
final, since a completion is paired when it is taken out and never again.

`Prompt` excludes the two, and nothing else does: a step that is not prompt loses a
completion.
-/

namespace Pyuring
namespace UringAsync

open Trace

variable {κ : Type*}

/-- The completion that a call has been given. -/
def Call.given : Call κ → Option (ℕ × κ)
  | .awaiting (.result n c) _ => some (n, c)
  | .returned n c => some (n, c)
  | _ => none

/-- The completion that a call returns, now or when its task runs. -/
def Call.handed : Call κ → Option (ℕ × κ)
  | .awaiting (.result n c) false => some (n, c)
  | .returned n c => some (n, c)
  | _ => none

/-- The call awaits a future that is cancelled. -/
def Call.isCancelled : Call κ → Bool
  | .awaiting .cancelled _ => true
  | _ => false

/-- Completion `n` is the one that call `w` returns. -/
def Handed (s : State κ) (w n : ℕ) : Prop := ∃ c, (s.call w).handed = some (n, c)

/-- No task is left to be run. -/
def Settled (s : State κ) : Prop := ∀ w fut mustCancel, s.call w = .awaiting fut mustCancel →
  fut = .pending

/-- Completion `n` was taken out and no call returns it. -/
def Lost (s : State κ) (n : ℕ) : Prop := n < s.reaped ∧ ∀ w, ¬ Handed s w n

/-- Every completion taken out of the ring is returned by exactly one call, with what
was posted; completions in ring order go to calls in call order; and a call that
still waits is behind all calls that were given one. -/
structure Delivered (s : State κ) : Prop where
  once : ∀ n < s.reaped, ∃! w, Handed s w n
  posted : ∀ w n c, (s.call w).handed = some (n, c) → s.posted[n]? = some c
  order : ∀ w w' n n', Handed s w n → Handed s w' n' → (w < w' ↔ n < n')
  live : ∀ v w n, s.call v = .awaiting .pending false → Handed s w n → w < v

/-- No task is cancelled that has its result already, and the callback takes no
completion out for a future that is cancelled. -/
def Prompt (s : State κ) : Event κ → Prop
  | .cancel w => (s.call w).given = none
  | .onReadable waitRet peeks => 0 ≤ waitRet → s.ensureCtxOpen = .ok () →
      ∀ i w, s.reaped + i < s.posted.length → (∀ k, peeks = some k → i ≤ k) →
        s.waiters[i]? = some w → (s.call w).isCancelled = false
  | .post _ => True
  | .waitCompletion => True
  | .resume _ => True
  | .close => True
  | .closeCtx => True

/-- What holds in every reachable state. -/
structure Good (s : State κ) : Prop where
  sorted : s.waiters.Pairwise (· < ·)
  bound : ∀ w ∈ s.waiters, w < s.calls
  waiting : ∀ w ∈ s.waiters, ∃ mustCancel,
    s.call w = .awaiting .pending mustCancel ∨ s.call w = .awaiting .cancelled mustCancel
  pending : ∀ w mustCancel, s.call w = .awaiting .pending mustCancel →
    w ∈ s.waiters ∧ mustCancel = false
  unused : ∀ w, s.calls ≤ w → s.call w = .cancelled
  given : ∀ w n c, (s.call w).given = some (n, c) →
    s.posted[n]? = some c ∧ n < s.reaped ∧ ∀ v ∈ s.waiters, w < v
  mono : ∀ w w' n n' c c', (s.call w).given = some (n, c) → (s.call w').given = some (n', c') →
    w < w' → n < n'

/-- From `s` to `t` the invariant is kept and what is lost stays lost; nothing more is lost
if `clean` holds, and something is if not. -/
structure Advances (s t : State κ) (clean : Prop) : Prop where
  good : Good t
  lost : ∀ n, Lost s n → Lost t n
  keep : clean → (∀ n, ¬ Lost s n) → ∀ n, ¬ Lost t n
  lose : ¬ clean → ∃ n, Lost t n

variable {s t u : State κ}

theorem Call.given_of_handed {call : Call κ} {x : ℕ × κ} (h : call.handed = some x) :
    call.given = some x := by
  cases call with
  | awaiting fut mustCancel => cases fut <;> cases mustCancel <;> simp_all [handed, given]
  | returned n c => exact h
  | raised exc => exact absurd h (by simp [handed])
  | cancelled => exact absurd h (by simp [handed])

/-- Two calls are never given the same completion. -/
theorem Good.eq_of_given (h : Good s) {w w' n : ℕ} {c c' : κ}
    (hw : (s.call w).given = some (n, c)) (hw' : (s.call w').given = some (n, c')) : w = w' := by
  rcases Nat.lt_trichotomy w w' with hlt | heq | hgt
  · exact absurd (h.mono w w' n n c c' hw hw' hlt) (Nat.lt_irrefl n)
  · exact heq
  · exact absurd (h.mono w' w n n c' c hw' hw hgt) (Nat.lt_irrefl n)

theorem Good.delivered (h : Good s) (hlost : ∀ n, ¬ Lost s n) : Delivered s where
  once n hn := by
    obtain ⟨w, c, hw⟩ : ∃ w, Handed s w n :=
      Classical.byContradiction fun hno => hlost n ⟨hn, fun w hw => hno ⟨w, hw⟩⟩
    refine ⟨w, ⟨c, hw⟩, ?_⟩
    rintro w' ⟨c', hw'⟩
    exact h.eq_of_given (Call.given_of_handed hw') (Call.given_of_handed hw)
  posted w n c hw := (h.given w n c (Call.given_of_handed hw)).1
  order := by
    rintro w w' n n' ⟨c, hw⟩ ⟨c', hw'⟩
    have hg := Call.given_of_handed hw
    have hg' := Call.given_of_handed hw'
    refine ⟨h.mono w w' n n' c c' hg hg', fun hlt => ?_⟩
    rcases Nat.lt_trichotomy w w' with hww | heq | hww
    · exact hww
    · rw [heq, hg'] at hg
      obtain ⟨rfl, -⟩ := Prod.mk.inj (Option.some.inj hg)
      exact absurd hlt (Nat.lt_irrefl _)
    · have := h.mono w' w n' n c' c hg' hg hww
      omega
  live := by
    rintro v w n hv ⟨c, hw⟩
    exact (h.given w n c (Call.given_of_handed hw)).2.2 v (h.pending v false hv).1

theorem Delivered.not_lost (h : Delivered s) (n : ℕ) : ¬ Lost s n := fun hlost => by
  obtain ⟨w, hw, -⟩ := h.once n hlost.1
  exact hlost.2 w hw

theorem Advances.refl (h : Good s) : Advances s s True :=
  ⟨h, fun _ hn => hn, fun _ hn => hn, fun hn => absurd trivial hn⟩

theorem Advances.trans {p q : Prop} (h₁ : Advances s t p) (h₂ : Advances t u q) :
    Advances s u (p ∧ q) where
  good := h₂.good
  lost n hn := h₂.lost n (h₁.lost n hn)
  keep hpq hn := h₂.keep hpq.2 (h₁.keep hpq.1 hn)
  lose hpq := by
    by_cases hp : p
    · exact h₂.lose fun hq => hpq ⟨hp, hq⟩
    · obtain ⟨n, hn⟩ := h₁.lose hp
      exact ⟨n, h₂.lost n hn⟩

theorem Advances.congr {p q : Prop} (h : Advances s t p) (hpq : p ↔ q) : Advances s t q where
  good := h.good
  lost := h.lost
  keep hq := h.keep (hpq.mpr hq)
  lose hq := h.lose fun hp => hq (hpq.mp hp)

/-- A step after which the same calls return the same completions. -/
theorem advances_of_handed (h : Good t) (hreaped : t.reaped = s.reaped)
    (hhanded : ∀ w, (t.call w).handed = (s.call w).handed) : Advances s t True := by
  have hlost : ∀ n, Lost t n ↔ Lost s n := fun n => by
    simp only [Lost, Handed, hreaped, hhanded]
  exact ⟨h, fun n hn => (hlost n).mpr hn, fun _ hn n hl => hn n ((hlost n).mp hl),
    fun hn => absurd trivial hn⟩

/-! ## The reader -/

@[simp] theorem posted_removeReader (s : State κ) : s.removeReader.posted = s.posted := by
  unfold State.removeReader; split <;> rfl

@[simp] theorem reaped_removeReader (s : State κ) : s.removeReader.reaped = s.reaped := by
  unfold State.removeReader; split <;> rfl

@[simp] theorem waiters_removeReader (s : State κ) : s.removeReader.waiters = s.waiters := by
  unfold State.removeReader; split <;> rfl

@[simp] theorem call_removeReader (s : State κ) : s.removeReader.call = s.call := by
  unfold State.removeReader; split <;> rfl

@[simp] theorem calls_removeReader (s : State κ) : s.removeReader.calls = s.calls := by
  unfold State.removeReader; split <;> rfl

@[simp] theorem head_removeReader (s : State κ) : s.removeReader.head = s.head := by
  simp [State.head]

@[simp] theorem ensureCtxOpen_removeReader (s : State κ) :
    s.removeReader.ensureCtxOpen = s.ensureCtxOpen := by
  unfold State.removeReader; split <;> rfl

@[simp] theorem closed_removeReader (s : State κ) : s.removeReader.closed = s.closed := by
  unfold State.removeReader; split <;> rfl

@[simp] theorem ctxOpen_removeReader (s : State κ) : s.removeReader.ctxOpen = s.ctxOpen := by
  unfold State.removeReader; split <;> rfl

@[simp] theorem closed_armReader (s : State κ) : s.armReader.closed = s.closed := by
  unfold State.armReader; split <;> rfl

@[simp] theorem ctxOpen_armReader (s : State κ) : s.armReader.ctxOpen = s.ctxOpen := by
  unfold State.armReader; split <;> rfl

@[simp] theorem posted_armReader (s : State κ) : s.armReader.posted = s.posted := by
  unfold State.armReader; split <;> rfl

@[simp] theorem reaped_armReader (s : State κ) : s.armReader.reaped = s.reaped := by
  unfold State.armReader; split <;> rfl

@[simp] theorem waiters_armReader (s : State κ) : s.armReader.waiters = s.waiters := by
  unfold State.armReader; split <;> rfl

@[simp] theorem call_armReader (s : State κ) : s.armReader.call = s.call := by
  unfold State.armReader; split <;> rfl

@[simp] theorem calls_armReader (s : State κ) : s.armReader.calls = s.calls := by
  unfold State.armReader; split <;> rfl

/-- The invariant does not mention the reader. -/
theorem Good.congr (h : Good s) (hposted : t.posted = s.posted) (hreaped : t.reaped = s.reaped)
    (hwaiters : t.waiters = s.waiters) (hcall : t.call = s.call) (hcalls : t.calls = s.calls) :
    Good t where
  sorted := hwaiters ▸ h.sorted
  bound := by rw [hwaiters, hcalls]; exact h.bound
  waiting := by rw [hwaiters, hcall]; exact h.waiting
  pending := by rw [hwaiters, hcall]; exact h.pending
  unused := by rw [hcalls, hcall]; exact h.unused
  given := by rw [hposted, hreaped, hwaiters, hcall]; exact h.given
  mono := by rw [hcall]; exact h.mono

theorem Good.removeReader (h : Good s) : Good s.removeReader :=
  h.congr (by simp) (by simp) (by simp) (by simp) (by simp)

theorem Good.armReader (h : Good s) : Good s.armReader :=
  h.congr (by simp) (by simp) (by simp) (by simp) (by simp)

/-! ## One completion taken out -/

theorem head_eq_some {c : κ} : s.head = some c ↔
    ∃ h : s.reaped < s.posted.length, s.posted[s.reaped] = c :=
  List.getElem?_eq_some_iff

/-- A waiter at the front of the queue is pending or cancelled. -/
theorem Good.front (h : Good s) {w : ℕ} {ws : List ℕ} (hws : s.waiters = w :: ws) :
    s.call w = .awaiting .pending false ∨
      ∃ mustCancel, s.call w = .awaiting .cancelled mustCancel := by
  obtain ⟨mustCancel, hpending | hcancelled⟩ := h.waiting w (by rw [hws]; exact List.mem_cons_self)
  · rw [(h.pending w mustCancel hpending).2] at hpending
    exact Or.inl hpending
  · exact Or.inr ⟨mustCancel, hcancelled⟩

theorem call_deliver_self (s : State κ) (w : ℕ) (ws : List ℕ) (c : κ) :
    (s.deliver w ws c).call w = (s.call w).settle (.result s.reaped c) :=
  Function.update_self _ _ _

theorem call_deliver_of_ne {v w : ℕ} (hv : v ≠ w) (s : State κ) (ws : List ℕ) (c : κ) :
    (s.deliver w ws c).call v = s.call v :=
  Function.update_of_ne hv _ _

/-- Taking a completion out keeps the invariant, whether or not the first waiter
takes it. -/
theorem Good.deliver (h : Good s) {w : ℕ} {ws : List ℕ} (hws : s.waiters = w :: ws) {c : κ}
    (hc : s.head = some c) : Good (s.deliver w ws c) := by
  have hsorted := hws ▸ h.sorted
  obtain ⟨hfront, htail⟩ := List.pairwise_cons.mp hsorted
  have hmem : ∀ v ∈ ws, v ∈ s.waiters := fun v hv => hws ▸ List.mem_cons_of_mem w hv
  have hwmem : w ∈ s.waiters := by rw [hws]; exact List.mem_cons_self
  have hother : ∀ {v : ℕ}, v ≠ w → (s.deliver w ws c).call v = s.call v := fun hv =>
    call_deliver_of_ne hv s ws c
  have hself := call_deliver_self s w ws c
  -- what the first waiter is given is the completion taken out
  have hgiven : ∀ {x : ℕ × κ}, ((s.deliver w ws c).call w).given = some x → x = (s.reaped, c) := by
    intro x hx
    rw [hself] at hx
    rcases h.front hws with hpending | ⟨mustCancel, hcancelled⟩
    · rw [hpending] at hx
      exact (Option.some.inj hx).symm
    · rw [hcancelled] at hx
      exact absurd hx (by simp [Call.settle, Call.given])
  refine ⟨htail, fun v hv => h.bound v (hmem v hv), fun v hv => ?_, fun v mustCancel hv => ?_,
    fun v hv => ?_, fun v n d hv => ?_, fun v v' n n' d d' hv hv' hlt => ?_⟩
  · rw [hother (Nat.ne_of_gt (hfront v hv))]
    exact h.waiting v (hmem v hv)
  · by_cases hvw : v = w
    · subst hvw
      rw [hself] at hv
      rcases h.front hws with hpending | ⟨m, hcancelled⟩
      · rw [hpending] at hv
        exact absurd hv (by simp [Call.settle])
      · rw [hcancelled] at hv
        exact absurd hv (by simp [Call.settle])
    · rw [hother hvw] at hv
      obtain ⟨hin, hm⟩ := h.pending v mustCancel hv
      rw [hws] at hin
      exact ⟨(List.mem_cons.mp hin).resolve_left hvw, hm⟩
  · rw [hother (by have := h.bound w hwmem; intro heq; subst heq; exact absurd hv (by
      change ¬ s.calls ≤ v; omega))]
    exact h.unused v hv
  · by_cases hvw : v = w
    · subst hvw
      obtain ⟨rfl, rfl⟩ := Prod.mk.inj (hgiven hv)
      exact ⟨hc, Nat.lt_succ_self _, hfront⟩
    · rw [hother hvw] at hv
      obtain ⟨hposted, hlt, hall⟩ := h.given v n d hv
      exact ⟨hposted, Nat.lt_succ_of_lt hlt, fun x hx => hall x (hmem x hx)⟩
  · by_cases hvw : v = w
    · subst hvw
      rw [hother (Nat.ne_of_gt hlt)] at hv'
      exact absurd ((h.given v' n' d' hv').2.2 v hwmem) (by omega)
    · rw [hother hvw] at hv
      by_cases hvw' : v' = w
      · subst hvw'
        obtain ⟨rfl, rfl⟩ := Prod.mk.inj (hgiven hv')
        exact (h.given v n d hv).2.1
      · rw [hother hvw'] at hv'
        exact h.mono v v' n n' d d' hv hv' hlt

theorem advances_deliver (h : Good s) {w : ℕ} {ws : List ℕ} (hws : s.waiters = w :: ws) {c : κ}
    (hc : s.head = some c) :
    Advances s (s.deliver w ws c) ((s.call w).isCancelled = false) := by
  have hother : ∀ {v : ℕ}, v ≠ w → (s.deliver w ws c).call v = s.call v := fun hv =>
    call_deliver_of_ne hv s ws c
  have hself := call_deliver_self s w ws c
  have hfresh : ∀ v n, Handed s v n → n < s.reaped := fun v n ⟨d, hd⟩ =>
    (h.given v n d (Call.given_of_handed hd)).2.1
  rcases h.front hws with hpending | ⟨mustCancel, hcancelled⟩
  · -- the waiter takes it
    have hclean : (s.call w).isCancelled = false := by rw [hpending]; rfl
    have hhanded : Handed (s.deliver w ws c) w s.reaped := ⟨c, by rw [hself, hpending]; rfl⟩
    have hold : ∀ v n, n ≠ s.reaped → (Handed (s.deliver w ws c) v n ↔ Handed s v n) := by
      intro v n hn
      by_cases hvw : v = w
      · subst hvw
        refine iff_of_false ?_ ?_
        · rintro ⟨d, hd⟩
          rw [hself, hpending] at hd
          exact hn (Prod.mk.inj (Option.some.inj hd)).1.symm
        · rintro ⟨d, hd⟩
          rw [hpending] at hd
          exact absurd hd (by simp [Call.handed])
      · simp only [Handed, hother hvw]
    refine ⟨h.deliver hws hc, fun n hn => ⟨Nat.lt_succ_of_lt hn.1, fun v hv => ?_⟩,
      fun _ hn n hlost => ?_, fun hnot => absurd hclean hnot⟩
    · exact hn.2 v ((hold v n (Nat.ne_of_lt hn.1)).mp hv)
    · by_cases hnr : n = s.reaped
      · subst hnr
        exact hlost.2 w hhanded
      · refine hn n ⟨Nat.lt_of_le_of_ne (Nat.le_of_lt_succ hlost.1) hnr, fun v hv => ?_⟩
        exact hlost.2 v ((hold v n hnr).mpr hv)
  · -- nobody takes it
    have hdirty : ¬ (s.call w).isCancelled = false := by rw [hcancelled]; simp [Call.isCancelled]
    have hsame : ∀ v n, Handed (s.deliver w ws c) v n ↔ Handed s v n := by
      intro v n
      by_cases hvw : v = w
      · subst hvw
        simp only [Handed, hself, hcancelled, Call.settle]
      · simp only [Handed, hother hvw]
    refine ⟨h.deliver hws hc, fun n hn => ⟨Nat.lt_succ_of_lt hn.1, fun v hv => ?_⟩,
      fun hclean => absurd hclean hdirty, fun _ => ⟨s.reaped, Nat.lt_succ_self _, fun v hv => ?_⟩⟩
    · exact hn.2 v ((hsame v n).mp hv)
    · exact absurd (hfresh v _ ((hsame v _).mp hv)) (Nat.lt_irrefl _)

/-- The completions that a chain takes out go to waiters that are not cancelled. -/
def ChainClean (ws : List ℕ) (peeks : Option ℕ) (s : State κ) : Prop :=
  ∀ i w, s.reaped + i < s.posted.length → (∀ k, peeks = some k → i < k) → ws[i]? = some w →
    (s.call w).isCancelled = false

/-- A chain makes one peek for each waiter, as long as none fails and each finds a
completion. -/
theorem deliverPeekChain_cons {w : ℕ} {ws : List ℕ} {peeks : Option ℕ} (hzero : peeks ≠ some 0)
    (s : State κ) : State.deliverPeekChain (w :: ws) peeks s = s.head.elim (true, s)
      fun c => State.deliverPeekChain ws (peeks.map Nat.pred) (s.deliver w ws c) := by
  cases hc : s.head <;> cases peeks with
  | none => simp [State.deliverPeekChain, hc]
  | some k =>
    cases k with
    | zero => exact absurd rfl hzero
    | succ k => simp [State.deliverPeekChain, hc]

/-- What is said of the position `i` of the rest of a chain is said of `i + 1`. -/
theorem forall_map_pred {peeks : Option ℕ} (hzero : peeks ≠ some 0) (i : ℕ) :
    (∀ k, peeks.map Nat.pred = some k → i < k) ↔ ∀ k, peeks = some k → i + 1 < k := by
  cases peeks with
  | none => simp
  | some k =>
    have hk : k ≠ 0 := fun hk => hzero (by rw [hk])
    simp only [Option.map_some, Option.some.injEq, forall_eq', Nat.pred_eq_sub_one]
    omega

theorem advances_chain : ∀ {ws : List ℕ} (peeks : Option ℕ) {s : State κ}, Good s →
    s.waiters = ws →
    Advances s (State.deliverPeekChain ws peeks s).2 (ChainClean ws peeks s)
  | [], peeks, s, h, hws => (Advances.refl h).congr
      (iff_of_true trivial fun i w _ _ hi => absurd hi (by simp))
  | w :: ws, peeks, s, h, hws => by
    by_cases hzero : peeks = some 0
    · subst hzero
      exact (Advances.refl h).congr
        (iff_of_true trivial fun i v _ hk _ => absurd (hk 0 rfl) (Nat.not_lt_zero i))
    rw [deliverPeekChain_cons hzero]
    cases hc : s.head with
    | none =>
      have hlen : s.posted.length ≤ s.reaped := List.getElem?_eq_none_iff.mp hc
      exact (Advances.refl h).congr (iff_of_true trivial fun i v hi _ _ => by omega)
    | some c =>
      have hdeliver := h.deliver hws hc
      refine ((advances_deliver h hws hc).trans
        (advances_chain (peeks.map Nat.pred) hdeliver rfl)).congr ?_
      obtain ⟨hlt, -⟩ := head_eq_some.mp hc
      obtain ⟨hfront, -⟩ := List.pairwise_cons.mp (hws ▸ h.sorted)
      have hother : ∀ v ∈ ws, (s.deliver w ws c).call v = s.call v := fun v hv =>
        Function.update_of_ne (Nat.ne_of_gt (hfront v hv)) _ _
      have hpred := forall_map_pred hzero
      constructor
      · rintro ⟨hw, hrest⟩ i v hi hk hv
        cases i with
        | zero =>
          rw [List.getElem?_cons_zero, Option.some.injEq] at hv
          exact hv ▸ hw
        | succ i =>
          rw [List.getElem?_cons_succ] at hv
          rw [← hother v (List.mem_of_getElem? hv)]
          refine hrest i v ?_ ((hpred i).mpr hk) hv
          change s.reaped + 1 + i < s.posted.length
          omega
      · intro hall
        refine ⟨hall 0 w hlt (fun k hk => ?_) rfl, fun i v hi hk hv => ?_⟩
        · rcases Nat.eq_zero_or_pos k with hk0 | hk0
          · exact absurd (hk0 ▸ hk) hzero
          · exact hk0
        · rw [hother v (List.mem_of_getElem? hv)]
          refine hall (i + 1) v ?_ ((hpred i).mp hk) hv
          have hi' : s.reaped + 1 + i < s.posted.length := hi
          omega

/-! ## The other steps -/

/-- A future settled without a completion gives its call none. -/
theorem given_settle {fut : Fut κ} (hfut : ∀ n c, fut ≠ .result n c) (call : Call κ) :
    (call.settle fut).given = call.given ∧ (call.settle fut).handed = call.handed := by
  cases call with
  | awaiting f mustCancel =>
    cases f with
    | pending => cases fut <;> simp_all [Call.settle, Call.given, Call.handed]
    | result n c => exact ⟨rfl, rfl⟩
    | exception exc => exact ⟨rfl, rfl⟩
    | cancelled => exact ⟨rfl, rfl⟩
  | returned n c => exact ⟨rfl, rfl⟩
  | raised exc => exact ⟨rfl, rfl⟩
  | cancelled => exact ⟨rfl, rfl⟩

theorem settle_ne_pending {fut : Fut κ} (hfut : fut ≠ .pending) (call : Call κ) (b : Bool) :
    call.settle fut ≠ .awaiting .pending b := by
  cases call with
  | awaiting f mustCancel => cases f <;> simp_all [Call.settle]
  | returned n c => simp [Call.settle]
  | raised exc => simp [Call.settle]
  | cancelled => simp [Call.settle]

theorem call_settleAll (fut : Fut κ) (s : State κ) (w : ℕ) :
    (s.settleAll fut).call w = if w ∈ s.waiters then (s.call w).settle fut else s.call w := rfl

theorem advances_settleAll (h : Good s) (fut : Fut κ) (hpending : fut ≠ .pending)
    (hresult : ∀ n c, fut ≠ .result n c) : Advances s (s.settleAll fut) True := by
  have hgiven : ∀ w, ((s.settleAll fut).call w).given = (s.call w).given ∧
      ((s.settleAll fut).call w).handed = (s.call w).handed := by
    intro w
    rw [call_settleAll]
    split
    · exact given_settle hresult _
    · exact ⟨rfl, rfl⟩
  refine advances_of_handed ⟨List.Pairwise.nil, fun w hw => absurd hw (by simp [State.settleAll]),
    fun w hw => absurd hw (by simp [State.settleAll]), fun w b hw => ?_, fun w hw => ?_,
    fun w n c hw => ?_, fun w w' n n' c c' hw hw' => ?_⟩ rfl fun w => (hgiven w).2
  · rw [call_settleAll] at hw
    split at hw
    · exact absurd hw (settle_ne_pending hpending _ _)
    · next hnot => exact absurd (h.pending w b hw).1 hnot
  · have hnot : w ∉ s.waiters := fun hin => absurd (h.bound w hin) (Nat.not_lt.mpr hw)
    rw [call_settleAll, if_neg hnot]
    exact h.unused w hw
  · rw [(hgiven w).1] at hw
    obtain ⟨hposted, hlt, -⟩ := h.given w n c hw
    exact ⟨hposted, hlt, fun v hv => absurd hv (by simp [State.settleAll])⟩
  · rw [(hgiven w).1] at hw
    rw [(hgiven w').1] at hw'
    exact h.mono w w' n n' c c' hw hw'

theorem advances_removeReader (h : Good s) : Advances s s.removeReader True :=
  advances_of_handed h.removeReader (by simp) fun w => by simp

theorem advances_armReader (h : Good s) : Advances s s.armReader True :=
  advances_of_handed h.armReader (by simp) fun w => by simp

theorem advances_failAll (h : Good s) (exc : UringError) : Advances s (s.failAll exc) True := by
  have hsettle := advances_settleAll h (.exception exc) (by simp) (by simp)
  exact (hsettle.trans (advances_removeReader hsettle.good)).congr (and_self_iff)

theorem advances_close (h : Good s) : Advances s s.close True := by
  unfold State.close
  split
  · exact Advances.refl h
  · have hclosed : Good ({ s with closed := true } : State κ) :=
      h.congr rfl rfl rfl rfl rfl
    have hremove := advances_removeReader hclosed
    have hsettle := advances_settleAll hremove.good .cancelled (by simp) (by simp)
    have h₀ : Advances s ({ s with closed := true } : State κ) True :=
      advances_of_handed hclosed rfl fun _ => rfl
    exact ((h₀.trans hremove).trans hsettle).congr (by simp)

theorem advances_post (h : Good s) (c : κ) :
    Advances s { s with posted := s.posted ++ [c] } True := by
  refine advances_of_handed ⟨h.sorted, h.bound, h.waiting, h.pending, h.unused,
    fun w n d hw => ?_, h.mono⟩ rfl fun _ => rfl
  obtain ⟨hposted, hlt, hall⟩ := h.given w n d hw
  refine ⟨?_, hlt, hall⟩
  rw [List.getElem?_append_left (List.getElem?_eq_some_iff.mp hposted).1]
  exact hposted

/-- A call that was never made before. -/
theorem advances_newCall (h : Good s) (call : Call κ) (waiters : List ℕ)
    (hcall : call.given = none) (hhanded : call.handed = none)
    (hwaiters : (waiters = s.waiters ∧ ∀ b, call ≠ .awaiting .pending b) ∨
      (waiters = s.waiters ++ [s.calls] ∧ call = .awaiting .pending false)) :
    Advances s { s with
      call := Function.update s.call s.calls call
      calls := s.calls + 1
      waiters := waiters } True := by
  have hother : ∀ {w : ℕ}, w ≠ s.calls → Function.update s.call s.calls call w = s.call w :=
    fun hw => Function.update_of_ne hw _ _
  have hself : Function.update s.call s.calls call s.calls = call := Function.update_self _ _ _
  have hold : ∀ w, w ∈ s.waiters → w ≠ s.calls := fun w hw => Nat.ne_of_lt (h.bound w hw)
  have hlt : ∀ w x, (s.call w).given = some x → w < s.calls := by
    intro w x hw
    refine Nat.lt_of_not_le fun hle => ?_
    rw [h.unused w hle] at hw
    exact absurd hw (by simp [Call.given])
  have hgiven : ∀ w x, (Function.update s.call s.calls call w).given = some x →
      (s.call w).given = some x ∧ w < s.calls := by
    intro w x hw
    by_cases hwc : w = s.calls
    · rw [hwc, hself, hcall] at hw
      exact absurd hw (by simp)
    · rw [hother hwc] at hw
      exact ⟨hw, hlt w x hw⟩
  have hmem : ∀ v ∈ waiters, v ∈ s.waiters ∨ (v = s.calls ∧ call = .awaiting .pending false) := by
    intro v hv
    rcases hwaiters with ⟨rfl, -⟩ | ⟨rfl, hpending⟩
    · exact Or.inl hv
    · rcases List.mem_append.mp hv with hv | hv
      · exact Or.inl hv
      · exact Or.inr ⟨List.mem_singleton.mp hv, hpending⟩
  refine advances_of_handed ⟨?_, fun v hv => ?_, fun v hv => ?_, fun v b hv => ?_, fun v hv => ?_,
    fun v n c hv => ?_, fun v v' n n' c c' hv hv' => ?_⟩ rfl fun v => ?_
  · rcases hwaiters with ⟨rfl, -⟩ | ⟨rfl, -⟩
    · exact h.sorted
    · exact List.pairwise_append.mpr ⟨h.sorted, List.pairwise_singleton _ _,
        fun v hv x hx => by rw [List.mem_singleton.mp hx]; exact h.bound v hv⟩
  · change v < s.calls + 1
    rcases hmem v hv with hv | ⟨rfl, -⟩
    · exact Nat.lt_succ_of_lt (h.bound v hv)
    · exact Nat.lt_succ_self _
  · change ∃ b, Function.update s.call s.calls call v = _ ∨
      Function.update s.call s.calls call v = _
    rcases hmem v hv with hv | ⟨rfl, hpending⟩
    · rw [hother (hold v hv)]
      exact h.waiting v hv
    · exact ⟨false, Or.inl (hself.trans hpending)⟩
  · change v ∈ waiters ∧ _
    change Function.update s.call s.calls call v = _ at hv
    by_cases hvc : v = s.calls
    · rw [hvc, hself] at hv
      rcases hwaiters with ⟨-, hne⟩ | ⟨rfl, hpending⟩
      · exact absurd hv (hne b)
      · rw [hpending] at hv
        refine ⟨by rw [hvc]; simp, ?_⟩
        exact ((Call.awaiting.inj hv).2).symm
    · rw [hother hvc] at hv
      obtain ⟨hin, hb⟩ := h.pending v b hv
      refine ⟨?_, hb⟩
      rcases hwaiters with ⟨rfl, -⟩ | ⟨rfl, -⟩
      · exact hin
      · exact List.mem_append_left _ hin
  · change s.calls + 1 ≤ v at hv
    change Function.update s.call s.calls call v = _
    rw [hother (by omega)]
    exact h.unused v (by omega)
  · obtain ⟨hv', hvlt⟩ := hgiven v (n, c) hv
    obtain ⟨hposted, hn, hall⟩ := h.given v n c hv'
    refine ⟨hposted, hn, fun x hx => ?_⟩
    rcases hmem x hx with hx | ⟨rfl, -⟩
    · exact hall x hx
    · exact hvlt
  · exact h.mono v v' n n' c c' (hgiven v _ hv).1 (hgiven v' _ hv').1
  · change (Function.update s.call s.calls call v).handed = _
    by_cases hvc : v = s.calls
    · rw [hvc, hself, hhanded, h.unused s.calls (Nat.le_refl _)]
      rfl
    · rw [hother hvc]

theorem advances_waitCompletion (h : Good s) : Advances s s.waitCompletion True := by
  unfold State.waitCompletion
  cases s.ensureCtxOpen with
  | error exc =>
    exact advances_newCall h (.raised exc) s.waiters rfl rfl (Or.inl ⟨rfl, by simp⟩)
  | ok _ =>
    have hnew := advances_newCall h (.awaiting .pending false) (s.waiters ++ [s.calls]) rfl rfl
      (Or.inr ⟨rfl, rfl⟩)
    exact (hnew.trans (advances_armReader hnew.good)).congr (and_self_iff)

/-- A call of which the future is done ends, or goes on to end. -/
theorem good_update (h : Good s) {w : ℕ} (hw : w < s.calls) {call : Call κ} {waiters : List ℕ}
    (hwaiters : waiters.Sublist s.waiters) (hin : w ∈ waiters → ∃ b, call = .awaiting .cancelled b)
    (hpending : ∀ b, call ≠ .awaiting .pending b)
    (hkeep : ∀ v ∈ s.waiters, v ≠ w → v ∈ waiters)
    (hgiven : call.given = none ∨ call.given = (s.call w).given) :
    Good { s with call := Function.update s.call w call, waiters := waiters } := by
  have hother : ∀ {v : ℕ}, v ≠ w → Function.update s.call w call v = s.call v := fun hv =>
    Function.update_of_ne hv _ _
  have hself : Function.update s.call w call w = call := Function.update_self _ _ _
  have hold : ∀ v x, (Function.update s.call w call v).given = some x →
      (s.call v).given = some x := by
    intro v x hv
    by_cases hvw : v = w
    · rw [hvw, hself] at hv
      rcases hgiven with hnone | hsame
      · rw [hnone] at hv
        exact absurd hv (by simp)
      · rw [hvw, ← hsame]
        exact hv
    · rwa [hother hvw] at hv
  refine ⟨h.sorted.sublist hwaiters, fun v hv => h.bound v (hwaiters.subset hv), fun v hv => ?_,
    fun v b hv => ?_, fun v hv => ?_, fun v n c hv => ?_, fun v v' n n' c c' hv hv' => ?_⟩
  · change ∃ b, Function.update s.call w call v = _ ∨ Function.update s.call w call v = _
    by_cases hvw : v = w
    · subst hvw
      obtain ⟨b, hb⟩ := hin hv
      exact ⟨b, Or.inr (hself.trans hb)⟩
    · rw [hother hvw]
      exact h.waiting v (hwaiters.subset hv)
  · change Function.update s.call w call v = _ at hv
    by_cases hvw : v = w
    · rw [hvw, hself] at hv
      exact absurd hv (hpending b)
    · rw [hother hvw] at hv
      obtain ⟨hmem, hb⟩ := h.pending v b hv
      exact ⟨hkeep v hmem hvw, hb⟩
  · have hv' : s.calls ≤ v := hv
    change Function.update s.call w call v = _
    rw [hother (by omega)]
    exact h.unused v hv'
  · obtain ⟨hposted, hn, hall⟩ := h.given v n c (hold v _ hv)
    exact ⟨hposted, hn, fun x hx => hall x (hwaiters.subset hx)⟩
  · exact h.mono v v' n n' c c' (hold v _ hv) (hold v' _ hv')

theorem Good.lt_calls (h : Good s) {w : ℕ} (hw : s.call w ≠ .cancelled) : w < s.calls :=
  Nat.lt_of_not_le fun hle => hw (h.unused w hle)

/-- A waiter is pending or cancelled. -/
theorem Good.not_mem (h : Good s) {w : ℕ}
    (hw : ∀ b, s.call w ≠ .awaiting .pending b ∧ s.call w ≠ .awaiting .cancelled b) :
    w ∉ s.waiters := fun hmem => by
  obtain ⟨b, hp | hc⟩ := h.waiting w hmem
  · exact (hw b).1 hp
  · exact (hw b).2 hc

theorem handed_update {w : ℕ} {call : Call κ} (hsame : call.handed = (s.call w).handed) (v : ℕ) :
    (Function.update s.call w call v).handed = (s.call v).handed := by
  by_cases hvw : v = w
  · subst hvw
    rw [Function.update_self, hsame]
  · rw [Function.update_of_ne hvw]

theorem advances_onCancelled (h : Good s) {w : ℕ} (hw : s.call w ≠ .cancelled)
    (hhanded : (s.call w).handed = none) : Advances s (s.onCancelled w) True := by
  have hnodup : s.waiters.Nodup := h.sorted.imp fun hlt => Nat.ne_of_lt hlt
  have hnot : w ∉ s.waiters.erase w := by
    rw [hnodup.mem_erase_iff]
    simp
  have hgood : Good ({ s with
      call := Function.update s.call w .cancelled, waiters := s.waiters.erase w } : State κ) :=
    good_update h (h.lt_calls hw) List.erase_sublist (fun hin => absurd hin hnot) (by simp)
      (fun v hv hvw => (List.mem_erase_of_ne hvw).mpr hv) (Or.inl rfl)
  have hadv : Advances s ({ s with
      waiters := s.waiters.erase w, call := Function.update s.call w .cancelled } : State κ) True :=
    advances_of_handed hgood rfl fun v => handed_update (by rw [hhanded]; rfl) v
  unfold State.onCancelled
  simp only
  split
  · exact (hadv.trans (advances_removeReader hgood)).congr (and_self_iff)
  · exact hadv

theorem advances_resume (h : Good s) {w : ℕ} (ht : s.resume w = some t) : Advances s t True := by
  have hends : ∀ {call : Call κ}, (∀ b, s.call w ≠ .awaiting .pending b ∧
      s.call w ≠ .awaiting .cancelled b) → s.call w ≠ .cancelled →
      (∀ b, call ≠ .awaiting .pending b) → (call.given = none ∨ call.given = (s.call w).given) →
      call.handed = (s.call w).handed →
      Advances s { s with call := Function.update s.call w call } True := by
    intro call hnot hcancelled hpending hgiven hhanded
    have hmem := h.not_mem hnot
    exact advances_of_handed (good_update h (h.lt_calls hcancelled) (List.Sublist.refl _)
      (fun hin => absurd hin hmem) hpending (fun v hv _ => hv) hgiven) rfl
      fun v => handed_update hhanded v
  unfold State.resume at ht
  split at ht
  · next n c hc =>
    rw [← Option.some.inj ht]
    exact hends (by simp [hc]) (by simp [hc]) (by simp) (Or.inr (by rw [hc]; rfl)) (by rw [hc]; rfl)
  · next exc hc =>
    rw [← Option.some.inj ht]
    exact hends (by simp [hc]) (by simp [hc]) (by simp) (Or.inl rfl) (by rw [hc]; rfl)
  · next n c hc =>
    rw [← Option.some.inj ht]
    exact advances_onCancelled h (by simp [hc]) (by rw [hc]; rfl)
  · next exc hc =>
    rw [← Option.some.inj ht]
    exact advances_onCancelled h (by simp [hc]) (by rw [hc]; rfl)
  · next b hc =>
    rw [← Option.some.inj ht]
    exact advances_onCancelled h (by simp [hc]) (by rw [hc]; rfl)
  · exact absurd ht (by simp)
  · exact absurd ht (by simp)
  · exact absurd ht (by simp)
  · exact absurd ht (by simp)

/-- Cancelling a task loses the result it has, if it has one. -/
theorem advances_cancel (h : Good s) {w : ℕ} (ht : s.cancel w = some t) :
    Advances s t ((s.call w).given = none) := by
  unfold State.cancel at ht
  split at ht
  · next b hc =>
    rw [← Option.some.inj ht]
    have hlt := h.lt_calls (show s.call w ≠ .cancelled by simp [hc])
    have hsame : (Call.awaiting .cancelled b : Call κ).handed = (s.call w).handed := by rw [hc]; rfl
    have hgood := good_update h hlt (List.Sublist.refl _) (fun _ => ⟨b, rfl⟩) (by simp)
      (fun v hv _ => hv) (Or.inl rfl)
    exact (advances_of_handed (s := s) hgood rfl fun v => handed_update hsame v).congr
      (iff_of_true trivial (by rw [hc]; rfl))
  · next fut b hnot hc =>
    rw [← Option.some.inj ht]
    have hlt := h.lt_calls (show s.call w ≠ .cancelled by simp [hc])
    have hin : w ∈ s.waiters → ∃ b', Call.awaiting fut true = .awaiting .cancelled b' := by
      intro hmem
      obtain ⟨b', hp | hcan⟩ := h.waiting w hmem
      · rw [hc] at hp
        exact absurd (Call.awaiting.inj hp).1 hnot
      · rw [hc] at hcan
        exact ⟨true, by rw [(Call.awaiting.inj hcan).1]⟩
    have hpending : ∀ b', Call.awaiting fut true ≠ .awaiting .pending b' := fun b' heq =>
      hnot (Call.awaiting.inj heq).1
    have hgood := good_update h hlt (List.Sublist.refl _) hin hpending (fun v hv _ => hv)
      (Or.inr (by rw [hc]; cases fut <;> rfl))
    cases fut with
    | pending => exact absurd rfl hnot
    | result n c =>
      have hnone : ∀ v m, Handed ({ s with
          call := Function.update s.call w (.awaiting (.result n c) true) } : State κ) v m →
          v ≠ w ∧ Handed s v m := by
        rintro v m ⟨d, hd⟩
        by_cases hvw : v = w
        · subst hvw
          simp only [Function.update_self] at hd
          exact absurd hd (by simp [Call.handed])
        · simp only [Function.update_of_ne hvw] at hd
          exact ⟨hvw, d, hd⟩
      have hgiven : (s.call w).given = some (n, c) := by rw [hc]; rfl
      refine ⟨hgood, fun m hm => ⟨hm.1, fun v hv => hm.2 v (hnone v m hv).2⟩,
        fun hclean => absurd (hclean.symm.trans hgiven) (by simp),
        fun _ => ⟨n, (h.given w n c hgiven).2.1, fun v hv => ?_⟩⟩
      obtain ⟨hvw, d, hd⟩ := hnone v n hv
      exact hvw (h.eq_of_given (Call.given_of_handed hd) hgiven)
    | exception exc =>
      have hsame : (Call.awaiting (.exception exc) true : Call κ).handed = (s.call w).handed := by
        rw [hc]
        cases b <;> rfl
      exact (advances_of_handed (s := s) hgood rfl fun v => handed_update hsame v).congr
        (iff_of_true trivial (by rw [hc]; rfl))
    | cancelled =>
      have hsame : (Call.awaiting .cancelled true : Call κ).handed = (s.call w).handed := by
        rw [hc]
        cases b <;> rfl
      exact (advances_of_handed (s := s) hgood rfl fun v => handed_update hsame v).congr
        (iff_of_true trivial (by rw [hc]; rfl))
  · exact absurd ht (by simp)
  · exact absurd ht (by simp)
  · exact absurd ht (by simp)

theorem advances_onReadable (h : Good s) {waitRet : ℤ} {peeks : Option ℕ}
    (ht : s.onReadable waitRet peeks = some t) :
    Advances s t (Prompt s (.onReadable waitRet peeks)) := by
  have hremove := advances_removeReader h
  unfold State.onReadable at ht
  simp only [ensureCtxOpen_removeReader, waiters_removeReader, head_removeReader] at ht
  split at ht
  · next exc hopen =>
    rw [← Option.some.inj ht]
    refine (hremove.trans (advances_failAll hremove.good exc)).congr
      (iff_of_true ⟨trivial, trivial⟩ fun _ hok => ?_)
    rw [hopen] at hok
    exact absurd hok (by simp)
  · next hopen =>
    split at ht
    · next hnil =>
      rw [← Option.some.inj ht]
      exact hremove.congr (iff_of_true trivial fun _ _ i w _ _ hw => by
        rw [hnil] at hw
        exact absurd hw (by simp))
    · next w ws hws =>
      split at ht
      · next hneg =>
        rw [← Option.some.inj ht]
        exact (hremove.trans (advances_failAll hremove.good _)).congr
          (iff_of_true ⟨trivial, trivial⟩ fun hpos => absurd hneg (Int.not_lt.mpr hpos))
      · next hpos =>
        split at ht
        · exact absurd ht (by simp)
        · next c hc =>
          have hws' : s.removeReader.waiters = w :: ws := by simpa using hws
          have hc' : s.removeReader.head = some c := by simpa using hc
          -- the wait and the peeks together are a chain with one more step
          have hchain := advances_chain (peeks.map Nat.succ) hremove.good hws'
          have heq : State.deliverPeekChain (w :: ws) (peeks.map Nat.succ) s.removeReader =
              State.deliverPeekChain ws peeks (s.removeReader.deliver w ws c) := by
            cases peeks <;> simp [State.deliverPeekChain, hc']
          rw [heq] at hchain
          have hclean : ChainClean (w :: ws) (peeks.map Nat.succ) s.removeReader ↔
              Prompt s (.onReadable waitRet peeks) := by
            have hk : ∀ i, (∀ k, peeks.map Nat.succ = some k → i < k) ↔
                ∀ k, peeks = some k → i ≤ k := by
              intro i
              cases peeks with
              | none => simp
              | some k => simp only [Option.map_some, Option.some.injEq, forall_eq', Nat.lt_succ_iff]
            unfold ChainClean Prompt
            simp only [reaped_removeReader, posted_removeReader, call_removeReader, hk, hws]
            exact ⟨fun hall _ _ => hall, fun hall => hall (Int.not_lt.mp hpos) hopen⟩
          have hall := (hremove.trans hchain).congr ((iff_of_eq (true_and _)).trans hclean)
          split at ht
          · next u hu =>
            rw [← Option.some.inj ht]
            rw [hu] at hall
            exact (hall.trans (advances_armReader hall.good)).congr (iff_of_eq (and_true _))
          · next u hu =>
            rw [← Option.some.inj ht]
            rw [hu] at hall
            exact hall

/-! ## Runs -/

theorem advances_step {e : Event κ} (h : Good s) (ht : step s e = some t) :
    Advances s t (Prompt s e) := by
  cases e with
  | post c =>
    rw [← Option.some.inj ht]
    exact advances_post h c
  | waitCompletion =>
    rw [← Option.some.inj ht]
    exact advances_waitCompletion h
  | cancel w => exact advances_cancel h ht
  | resume w => exact advances_resume h ht
  | onReadable waitRet peeks =>
    obtain ⟨-, ht⟩ := Option.ite_none_right_eq_some.mp ht
    exact advances_onReadable h ht
  | close =>
    rw [← Option.some.inj ht]
    exact advances_close h
  | closeCtx =>
    rw [← Option.some.inj ht]
    exact advances_of_handed (h.congr rfl rfl rfl rfl rfl) rfl fun _ => rfl

theorem good_init : Good (State.init : State κ) where
  sorted := List.Pairwise.nil
  bound w hw := absurd hw (by simp [State.init])
  waiting w hw := absurd hw (by simp [State.init])
  pending w b hw := absurd hw (by simp [State.init])
  unused _ _ := rfl
  given w n c hw := absurd hw (by simp [State.init, Call.given])
  mono w w' n n' c c' hw := absurd hw (by simp [State.init, Call.given])

theorem good_reach {P : State κ → Event κ → Prop} (h : Reach step P State.init s) : Good s :=
  h.invariant good_init fun _ _ _ hgood _ ht => (advances_step hgood ht).good

theorem not_lost_iff_meets {es : List (Event κ)} (h : Good s) (hlost : ∀ n, ¬ Lost s n)
    (ht : exec step s es = some t) : (∀ n, ¬ Lost t n) ↔ Meets step Prompt s es := by
  have hrun := flawless_iff_meets (I := Good) (F := fun s => ∃ n, Lost s n) (P := Prompt)
    (fun s e t hs ht => (advances_step hs ht).good)
    (fun s e t hs ht hn => hn.imp fun n hn => (advances_step hs ht).lost n hn)
    (fun s e t hs ht hnone => ?_) h (not_exists.mpr hlost) ht
  · rwa [not_exists] at hrun
  · have hadv := advances_step hs ht
    refine ⟨?_, hadv.lose⟩
    rintro ⟨n, hn⟩ hprompt
    exact hadv.keep hprompt (not_exists.mp hnone) n hn

/-- **Exactly-once delivery.**  In a run of prompt steps every completion that was taken
out is returned by exactly one call, in ring order and call order; in a run with any
step that is not prompt some completion is returned by nobody. -/
theorem delivered_iff_prompt {κ : Type*} :
    (∀ s : State κ, Reach step Prompt State.init s → Delivered s) ∧
    ∀ (es : List (Event κ)) (s : State κ), exec step State.init es = some s →
      (Delivered s ↔ Meets step Prompt State.init es) := by
  have hinit : ∀ n, ¬ Lost (State.init : State κ) n := fun n hn => absurd hn.1 (Nat.not_lt_zero n)
  refine ⟨fun s hs => ?_, fun es s hs => ?_⟩
  · have hclean := hs.invariant (I := fun v => Good v ∧ ∀ n, ¬ Lost v n) ⟨good_init, hinit⟩
      fun v e u hv hP hu =>
        let hadv := advances_step hv.1 hu
        ⟨hadv.good, hadv.keep hP hv.2⟩
    exact hclean.1.delivered hclean.2
  · have hgood := good_reach (reach_anyStep_of_exec hs)
    rw [← not_lost_iff_meets good_init hinit hs]
    exact ⟨Delivered.not_lost, hgood.delivered⟩

/-- Two calls wait, the first is cancelled, and the callback runs before its task does:
the completion goes to the cancelled future, and the second call goes on waiting. -/
theorem completion_not_delivered :
    ¬ ∀ (es : List (Event ℕ)) (s : State ℕ), exec step State.init es = some s → Delivered s := by
  intro h
  have hd := h [.waitCompletion, .waitCompletion, .cancel 0, .post 7, .onReadable 0 none,
    .resume 0] _ rfl
  obtain ⟨w, ⟨c, hw⟩, -⟩ := hd.once 0 Nat.zero_lt_one
  have hnone : (none : Option (ℕ × ℕ)) = some (0, c) := match w, hw with
    | 0, hw => hw
    | 1, hw => hw
    | _ + 2, hw => hw
  exact absurd hnone (by simp)

end UringAsync
end Pyuring
