import Pyuring.UringAsyncDelivery

/-!
# What a step hands over

Only the callback takes completions out of the ring, the oldest ones, and it gives them
to the first waiters, in order.  `Takes` says which it takes out and `tookOut_step` that
no call returns a completion it did not return before, unless the callback gave it
that one.
-/

namespace Pyuring
namespace UringAsync

variable {κ : Type*} {s t : State κ}

/-- The callback takes out the completion at position `i` from the head, for the waiter
at that position. -/
def Takes (s : State κ) : Event κ → ℕ → Prop
  | .onReadable waitRet peeks, i => s.ensureCtxOpen = .ok () ∧ 0 ≤ waitRet ∧
      i < s.waiters.length ∧ s.reaped + i < s.posted.length ∧ ∀ k, peeks = some k → i ≤ k
  | _, _ => False

/-- From `s` to `t` the `k` oldest completions were taken out, for the `k` first waiters
`ws`; no call returns anything else that it did not return before. -/
structure TookOut (s t : State κ) (ws : List ℕ) (k : ℕ) : Prop where
  reaped : t.reaped = s.reaped + k
  handed : ∀ w x, (t.call w).handed = some x → (s.call w).handed = some x ∨
    s.reaped ≤ x.1 ∧ ws[x.1 - s.reaped]? = some w

theorem tookOut_of_handed (hreaped : t.reaped = s.reaped)
    (hhanded : ∀ w x, (t.call w).handed = some x → (s.call w).handed = some x) (ws : List ℕ) :
    TookOut s t ws 0 :=
  ⟨hreaped, fun w x hx => Or.inl (hhanded w x hx)⟩

theorem handed_settle_result {call : Call κ} {n : ℕ} {c : κ} {x : ℕ × κ}
    (h : (call.settle (.result n c)).handed = some x) : call.handed = some x ∨ x = (n, c) := by
  cases call with
  | awaiting fut mustCancel =>
    cases fut with
    | pending =>
      cases mustCancel with
      | true => exact absurd h (by simp [Call.settle, Call.handed])
      | false => exact Or.inr (Option.some.inj h).symm
    | result m d => exact Or.inl h
    | exception exc => exact Or.inl h
    | cancelled => exact Or.inl h
  | returned m d => exact Or.inl h
  | raised exc => exact Or.inl h
  | cancelled => exact Or.inl h

/-- A chain of peeks goes on while there are waiters and completions, and until a peek
fails. -/
theorem tookOut_deliverPeekChain : ∀ (ws : List ℕ) (peeks : Option ℕ) {s : State κ},
    s.waiters = ws →
    ∃ k, TookOut s (State.deliverPeekChain ws peeks s).2 ws k ∧
      ∀ i, i < k ↔ i < ws.length ∧ s.reaped + i < s.posted.length ∧
        ∀ j, peeks = some j → i < j
  | [], peeks, s, _ => ⟨0, tookOut_of_handed rfl (fun _ _ hx => hx) [], fun i =>
      iff_of_false (Nat.not_lt_zero i) fun h => Nat.not_lt_zero i h.1⟩
  | w :: ws, peeks, s, hws => by
    by_cases hzero : peeks = some 0
    · subst hzero
      exact ⟨0, tookOut_of_handed rfl (fun _ _ hx => hx) _, fun i =>
        iff_of_false (Nat.not_lt_zero i) fun h => Nat.not_lt_zero i (h.2.2 0 rfl)⟩
    rw [deliverPeekChain_cons hzero]
    cases hc : s.head with
    | none =>
      have hend : s.posted.length ≤ s.reaped := List.getElem?_eq_none_iff.mp hc
      exact ⟨0, tookOut_of_handed rfl (fun _ _ hx => hx) _, fun i => by omega⟩
    | some c =>
      obtain ⟨hlt, -⟩ := head_eq_some.mp hc
      obtain ⟨k, htook, hk⟩ : ∃ k, TookOut (s.deliver w ws c)
          (State.deliverPeekChain ws (peeks.map Nat.pred) (s.deliver w ws c)).2 ws k ∧ _ :=
        tookOut_deliverPeekChain ws (peeks.map Nat.pred) rfl
      have hpred := forall_map_pred hzero
      refine ⟨k + 1, ⟨?_, ?_⟩, ?_⟩
      · have hreaped := htook.reaped
        change _ = s.reaped + 1 + k at hreaped
        rw [Option.elim_some, hreaped]
        omega
      · intro v x hx
        rcases htook.handed v x hx with hold | ⟨hle, hv⟩
        · by_cases hvw : v = w
          · rw [hvw, call_deliver_self] at hold
            rcases handed_settle_result hold with hold | rfl
            · exact Or.inl (hvw ▸ hold)
            · exact Or.inr ⟨Nat.le_refl _, by rw [Nat.sub_self, hvw]; rfl⟩
          · rw [call_deliver_of_ne hvw] at hold
            exact Or.inl hold
        · change s.reaped + 1 ≤ x.1 at hle
          change ws[x.1 - (s.reaped + 1)]? = some v at hv
          refine Or.inr ⟨by omega, ?_⟩
          rw [show x.1 - s.reaped = x.1 - (s.reaped + 1) + 1 by omega, List.getElem?_cons_succ]
          exact hv
      · intro i
        cases i with
        | zero =>
          refine iff_of_true (Nat.succ_pos k) ⟨Nat.succ_pos _, hlt, ?_⟩
          intro j hj
          exact Nat.pos_of_ne_zero fun hj0 => hzero (by rw [hj, hj0])
        | succ i =>
          rw [Nat.succ_lt_succ_iff, hk, hpred, List.length_cons, Nat.succ_lt_succ_iff]
          change _ ∧ s.reaped + 1 + i < s.posted.length ∧ _ ↔ _
          rw [Nat.add_right_comm, Nat.add_assoc]

theorem handed_update_le {w : ℕ} {call : Call κ}
    (hcall : ∀ x, call.handed = some x → (s.call w).handed = some x) (v : ℕ) (x : ℕ × κ)
    (hx : (Function.update s.call w call v).handed = some x) : (s.call v).handed = some x := by
  by_cases hvw : v = w
  · subst hvw
    rw [Function.update_self] at hx
    exact hcall x hx
  · rwa [Function.update_of_ne hvw] at hx

theorem handed_settleAll {fut : Fut κ} (hfut : ∀ n c, fut ≠ .result n c) (s : State κ) (w : ℕ) :
    ((s.settleAll fut).call w).handed = (s.call w).handed := by
  rw [call_settleAll]
  split
  · exact (given_settle hfut _).2
  · rfl

/-! ## Running and cancelling a task -/

/-- The call has not ended. -/
def Call.isAwaiting : Call κ → Bool
  | .awaiting _ _ => true
  | _ => false

/-- A task that runs ends its call, with nothing that it did not have, or handles its
cancellation. -/
theorem resume_cases {w : ℕ} (ht : s.resume w = some t) :
    (∃ call : Call κ, call.isAwaiting = false ∧
      (∀ x, call.handed = some x → (s.call w).handed = some x) ∧
      t = { s with call := Function.update s.call w call }) ∨ t = s.onCancelled w := by
  unfold State.resume at ht
  split at ht
  · next n c hc =>
    exact Or.inl ⟨.returned n c, rfl, fun x hx => by rw [hc]; exact hx, (Option.some.inj ht).symm⟩
  · next exc hc =>
    exact Or.inl ⟨.raised exc, rfl, fun x hx => absurd hx (by simp [Call.handed]),
      (Option.some.inj ht).symm⟩
  · exact Or.inr (Option.some.inj ht).symm
  · exact Or.inr (Option.some.inj ht).symm
  · exact Or.inr (Option.some.inj ht).symm
  all_goals exact absurd ht (by simp)

/-- Cancelling a task leaves its call awaiting, without a completion to return. -/
theorem cancel_cases {w : ℕ} (ht : s.cancel w = some t) :
    ∃ fut b, (s.call w).isAwaiting = true ∧ (Call.awaiting fut b : Call κ).handed = none ∧
      t = { s with call := Function.update s.call w (.awaiting fut b) } := by
  unfold State.cancel at ht
  split at ht
  · next b hc =>
    exact ⟨.cancelled, b, by rw [hc]; rfl, rfl, (Option.some.inj ht).symm⟩
  · next fut b _ hc =>
    exact ⟨fut, true, by rw [hc]; rfl, by cases fut <;> rfl, (Option.some.inj ht).symm⟩
  all_goals exact absurd ht (by simp)

/-- From `s` to `t` nothing was taken out, and no call returns anything that it did not
return before. -/
structure TookNone (s t : State κ) : Prop where
  reaped : t.reaped = s.reaped
  handed : ∀ w x, (t.call w).handed = some x → (s.call w).handed = some x

theorem TookNone.refl (s : State κ) : TookNone s s := ⟨rfl, fun _ _ hx => hx⟩

theorem TookNone.trans {u : State κ} (h₁ : TookNone s t) (h₂ : TookNone t u) : TookNone s u :=
  ⟨h₂.reaped.trans h₁.reaped, fun w x hx => h₁.handed w x (h₂.handed w x hx)⟩

theorem TookNone.tookOut (h : TookNone s t) {e : Event κ} (htakes : ∀ i, ¬ Takes s e i) :
    ∃ k, TookOut s t s.waiters k ∧ ∀ i, i < k ↔ Takes s e i :=
  ⟨0, tookOut_of_handed h.reaped h.handed s.waiters, fun i =>
    iff_of_false (Nat.not_lt_zero i) (htakes i)⟩

theorem tookNone_waitCompletion (s : State κ) : TookNone s s.waitCompletion := by
  unfold State.waitCompletion
  cases s.ensureCtxOpen with
  | error exc =>
    exact ⟨rfl, handed_update_le fun y hy => absurd hy (by simp [Call.handed])⟩
  | ok _ =>
    refine ⟨reaped_armReader _, ?_⟩
    intro w x hx
    rw [call_armReader] at hx
    exact handed_update_le (fun y hy => absurd hy (by simp [Call.handed])) w x hx

theorem tookNone_cancel {w : ℕ} (ht : s.cancel w = some t) : TookNone s t := by
  obtain ⟨fut, b, -, hnone, rfl⟩ := cancel_cases ht
  exact ⟨rfl, handed_update_le fun y hy => absurd (hy.symm.trans hnone) (by simp)⟩

theorem call_onCancelled (s : State κ) (w : ℕ) :
    (s.onCancelled w).call = Function.update s.call w .cancelled := by
  unfold State.onCancelled
  simp only
  split
  · rw [call_removeReader]
  · rfl

theorem tookNone_onCancelled (s : State κ) (w : ℕ) : TookNone s (s.onCancelled w) := by
  refine ⟨?_, ?_⟩
  · unfold State.onCancelled
    simp only
    split
    · rw [reaped_removeReader]
    · rfl
  · intro v x hx
    rw [call_onCancelled] at hx
    exact handed_update_le (fun y hy => absurd hy (by simp [Call.handed])) v x hx

theorem tookNone_resume {w : ℕ} (ht : s.resume w = some t) : TookNone s t := by
  rcases resume_cases ht with ⟨call, -, hcall, rfl⟩ | rfl
  · exact ⟨rfl, handed_update_le hcall⟩
  · exact tookNone_onCancelled s w

theorem tookNone_close (s : State κ) : TookNone s s.close := by
  unfold State.close
  split
  · exact ⟨rfl, fun _ _ hx => hx⟩
  · refine ⟨by simp [State.settleAll], ?_⟩
    intro w x hx
    rw [handed_settleAll (by simp), call_removeReader] at hx
    exact hx

theorem tookNone_failAll (s : State κ) (exc : UringError) :
    TookNone s (s.removeReader.failAll exc) := by
  refine ⟨by simp [State.failAll, State.settleAll], ?_⟩
  intro w x hx
  rwa [State.failAll, call_removeReader, handed_settleAll (by simp), call_removeReader] at hx

theorem tookOut_onReadable {waitRet : ℤ} {peeks : Option ℕ}
    (ht : s.onReadable waitRet peeks = some t) :
    ∃ k, TookOut s t s.waiters k ∧ ∀ i, i < k ↔ Takes s (.onReadable waitRet peeks) i := by
  unfold State.onReadable at ht
  simp only [ensureCtxOpen_removeReader, waiters_removeReader, head_removeReader] at ht
  split at ht
  · next exc hexc =>
    obtain rfl := Option.some.inj ht
    refine (tookNone_failAll s exc).tookOut ?_
    intro i hi
    rw [hi.1] at hexc
    exact absurd hexc (by simp)
  next hok =>
  split at ht
  · next hnil =>
    obtain rfl := Option.some.inj ht
    refine TookNone.tookOut ⟨reaped_removeReader s, ?_⟩ ?_
    · intro w x hx
      rwa [call_removeReader] at hx
    · intro i hi
      rw [Takes, hnil] at hi
      exact Nat.not_lt_zero i hi.2.2.1
  next w ws hws =>
  split at ht
  · next hneg =>
    obtain rfl := Option.some.inj ht
    exact (tookNone_failAll s _).tookOut fun i hi => absurd hneg (Int.not_lt.mpr hi.2.1)
  next hpos =>
  split at ht
  · exact absurd ht (by simp)
  next c hc =>
  -- the wait and the peeks together are a chain with one more step
  obtain ⟨k, htook, hk⟩ := tookOut_deliverPeekChain (w :: ws) (peeks.map Nat.succ)
    (s := s.removeReader) (by rw [waiters_removeReader, hws])
  rw [deliverPeekChain_cons (by cases peeks <;> simp), head_removeReader, hc, Option.elim_some,
    Option.map_map, show Nat.pred ∘ Nat.succ = id from rfl, Option.map_id_fun, id] at htook
  have htakes : ∀ i, i < k ↔ Takes s (.onReadable waitRet peeks) i := by
    intro i
    rw [hk, reaped_removeReader, posted_removeReader]
    have hle : (∀ j, peeks.map Nat.succ = some j → i < j) ↔ ∀ j, peeks = some j → i ≤ j := by
      cases peeks with
      | none => simp
      | some j => simp only [Option.map_some, Option.some.injEq, forall_eq', Nat.lt_succ_iff]
    rw [hle, Takes, hws]
    exact ⟨fun h => ⟨hok, Int.not_lt.mp hpos, h⟩, fun h => h.2.2⟩
  have hreaped := htook.reaped
  rw [reaped_removeReader] at hreaped
  refine ⟨k, ?_, htakes⟩
  rw [hws]
  split at ht
  all_goals
    next u hu =>
    rw [hu] at htook hreaped
    rw [← Option.some.inj ht]
    refine ⟨by simpa using hreaped, ?_⟩
    intro v x hx
    have hx := htook.handed v x (by simpa using hx)
    rwa [call_removeReader, reaped_removeReader] at hx

/-- **What a step hands over.** -/
theorem tookOut_step {e : Event κ} (ht : step s e = some t) :
    ∃ k, TookOut s t s.waiters k ∧ ∀ i, i < k ↔ Takes s e i := by
  cases e with
  | post c =>
    rw [← Option.some.inj ht]
    have hnone : TookNone s { s with posted := s.posted ++ [c] } := ⟨rfl, fun _ _ hx => hx⟩
    exact hnone.tookOut (e := .post c) fun _ => id
  | waitCompletion =>
    obtain rfl := Option.some.inj ht
    exact (tookNone_waitCompletion s).tookOut fun _ => id
  | cancel w => exact (tookNone_cancel ht).tookOut fun _ => id
  | resume w => exact (tookNone_resume ht).tookOut fun _ => id
  | onReadable waitRet peeks =>
    obtain ⟨-, ht⟩ := Option.ite_none_right_eq_some.mp ht
    exact tookOut_onReadable ht
  | close =>
    obtain rfl := Option.some.inj ht
    exact (tookNone_close s).tookOut fun _ => id
  | closeCtx =>
    rw [← Option.some.inj ht]
    have hnone : TookNone s { s with ctxOpen := false } := ⟨rfl, fun _ _ hx => hx⟩
    exact hnone.tookOut (e := .closeCtx) fun _ => id

theorem calls_posted_deliverPeekChain : ∀ (ws : List ℕ) (peeks : Option ℕ) (s : State κ),
    (State.deliverPeekChain ws peeks s).2.calls = s.calls ∧
      (State.deliverPeekChain ws peeks s).2.posted = s.posted
  | [], peeks, s => ⟨rfl, rfl⟩
  | w :: ws, peeks, s => by
    by_cases hzero : peeks = some 0
    · subst hzero
      exact ⟨rfl, rfl⟩
    rw [deliverPeekChain_cons hzero]
    cases s.head with
    | none => exact ⟨rfl, rfl⟩
    | some c => exact calls_posted_deliverPeekChain ws _ (s.deliver w ws c)

theorem calls_posted_onReadable {waitRet : ℤ} {peeks : Option ℕ}
    (ht : s.onReadable waitRet peeks = some t) : t.calls = s.calls ∧ t.posted = s.posted := by
  unfold State.onReadable at ht
  simp only [ensureCtxOpen_removeReader, waiters_removeReader, head_removeReader] at ht
  split at ht
  · obtain rfl := Option.some.inj ht
    simp [State.failAll, State.settleAll]
  split at ht
  · obtain rfl := Option.some.inj ht
    simp
  next w ws hws =>
  split at ht
  · obtain rfl := Option.some.inj ht
    simp [State.failAll, State.settleAll]
  split at ht
  · exact absurd ht (by simp)
  next c hc =>
  have hchain := calls_posted_deliverPeekChain ws peeks (s.removeReader.deliver w ws c)
  change _ = s.removeReader.calls ∧ _ = s.removeReader.posted at hchain
  rw [calls_removeReader, posted_removeReader] at hchain
  split at ht
  all_goals
    next u hu =>
    rw [hu] at hchain
    rw [← Option.some.inj ht]
    simpa using hchain

/-- The step that takes completions out of the ring adds none. -/
theorem posted_of_takes {e : Event κ} {i : ℕ} (hi : Takes s e i) (ht : step s e = some t) :
    t.posted = s.posted := by
  cases e with
  | onReadable waitRet peeks =>
    obtain ⟨-, ht⟩ := Option.ite_none_right_eq_some.mp ht
    exact (calls_posted_onReadable ht).2
  | _ => exact hi.elim

/-! ## Calls that have ended -/

/-- The call goes on awaiting, or has ended as it had. -/
structure Stays (c c' : Call κ) : Prop where
  isAwaiting : c'.isAwaiting = c.isAwaiting
  ended : c.isAwaiting = false → c' = c

theorem Stays.refl (c : Call κ) : Stays c c := ⟨rfl, fun _ => rfl⟩

theorem Stays.trans {c c' c'' : Call κ} (h₁ : Stays c c') (h₂ : Stays c' c'') : Stays c c'' where
  isAwaiting := h₂.isAwaiting.trans h₁.isAwaiting
  ended hc := (h₂.ended (h₁.isAwaiting.trans hc)).trans (h₁.ended hc)

theorem stays_settle (fut : Fut κ) (c : Call κ) : Stays c (c.settle fut) := by
  cases c with
  | awaiting f mustCancel => cases f <;> exact ⟨rfl, fun hc => absurd hc (by simp [Call.isAwaiting])⟩
  | returned n c => exact Stays.refl _
  | raised exc => exact Stays.refl _
  | cancelled => exact Stays.refl _

theorem stays_settleAll (fut : Fut κ) (s : State κ) (v : ℕ) :
    Stays (s.call v) ((s.settleAll fut).call v) := by
  rw [call_settleAll]
  split
  · exact stays_settle fut _
  · exact Stays.refl _

theorem stays_deliver (w : ℕ) (ws : List ℕ) (c : κ) (s : State κ) (v : ℕ) :
    Stays (s.call v) ((s.deliver w ws c).call v) := by
  by_cases hvw : v = w
  · subst hvw
    rw [call_deliver_self]
    exact stays_settle _ _
  · rw [call_deliver_of_ne hvw]
    exact Stays.refl _

theorem stays_deliverPeekChain : ∀ (ws : List ℕ) (peeks : Option ℕ) (s : State κ) (v : ℕ),
    Stays (s.call v) ((State.deliverPeekChain ws peeks s).2.call v)
  | [], peeks, s, v => Stays.refl _
  | w :: ws, peeks, s, v => by
    by_cases hzero : peeks = some 0
    · subst hzero
      exact Stays.refl _
    rw [deliverPeekChain_cons hzero]
    cases s.head with
    | none => exact Stays.refl _
    | some c => exact (stays_deliver w ws c s v).trans (stays_deliverPeekChain ws _ _ v)

theorem stays_onReadable {waitRet : ℤ} {peeks : Option ℕ}
    (ht : s.onReadable waitRet peeks = some t) (v : ℕ) : Stays (s.call v) (t.call v) := by
  have hfail : ∀ exc, Stays (s.call v) ((s.removeReader.failAll exc).call v) := by
    intro exc
    rw [State.failAll, call_removeReader]
    have hsettled := stays_settleAll (.exception exc) s.removeReader v
    rwa [call_removeReader] at hsettled
  unfold State.onReadable at ht
  simp only [ensureCtxOpen_removeReader, waiters_removeReader, head_removeReader] at ht
  split at ht
  · obtain rfl := Option.some.inj ht
    exact hfail _
  split at ht
  · obtain rfl := Option.some.inj ht
    rw [call_removeReader]
    exact Stays.refl _
  next w ws hws =>
  split at ht
  · obtain rfl := Option.some.inj ht
    exact hfail _
  split at ht
  · exact absurd ht (by simp)
  next c hc =>
  have hchain := (stays_deliver w ws c s.removeReader v).trans
    (stays_deliverPeekChain ws peeks _ v)
  rw [call_removeReader] at hchain
  split at ht
  all_goals
    next u hu =>
    rw [hu] at hchain
    rw [← Option.some.inj ht]
    simpa using hchain

/-- Running the task of a call ends the call, and no other. -/
theorem call_resume {w : ℕ} (ht : s.resume w = some t) :
    (t.call w).isAwaiting = false ∧ ∀ v, v ≠ w → t.call v = s.call v := by
  have hends : ∀ call : Call κ, call.isAwaiting = false →
      (Function.update s.call w call w).isAwaiting = false ∧
        ∀ v, v ≠ w → Function.update s.call w call v = s.call v := fun call hcall =>
    ⟨by rw [Function.update_self, hcall], fun v hv => Function.update_of_ne hv _ _⟩
  rcases resume_cases ht with ⟨call, hcall, -, rfl⟩ | rfl
  · exact hends call hcall
  · rw [call_onCancelled]
    exact hends .cancelled rfl

theorem stays_cancel {w : ℕ} (ht : s.cancel w = some t) (v : ℕ) : Stays (s.call v) (t.call v) := by
  obtain ⟨fut, b, hw, -, rfl⟩ := cancel_cases ht
  change Stays (s.call v) (Function.update s.call w (.awaiting fut b) v)
  by_cases hvw : v = w
  · subst hvw
    rw [Function.update_self]
    exact ⟨hw.symm, fun hc => absurd (hc.symm.trans hw) (by simp)⟩
  · rw [Function.update_of_ne hvw]
    exact Stays.refl _

/-- A call of `wait_completion` leaves the earlier calls alone. -/
theorem call_waitCompletion {v : ℕ} (hv : v < s.calls) : s.waitCompletion.call v = s.call v := by
  unfold State.waitCompletion
  cases s.ensureCtxOpen with
  | error exc => exact Function.update_of_ne (Nat.ne_of_lt hv) _ _
  | ok _ =>
    rw [call_armReader]
    exact Function.update_of_ne (Nat.ne_of_lt hv) _ _

theorem calls_waitCompletion (s : State κ) : s.waitCompletion.calls = s.calls + 1 := by
  unfold State.waitCompletion
  cases s.ensureCtxOpen with
  | error exc => rfl
  | ok _ => rw [calls_armReader]

/-- **Only its own task ends a call.** -/
theorem stays_step {e : Event κ} (ht : step s e = some t) {v : ℕ} (hv : v < s.calls)
    (he : e ≠ .resume v) : Stays (s.call v) (t.call v) := by
  cases e with
  | post c =>
    obtain rfl := Option.some.inj ht
    exact Stays.refl _
  | waitCompletion =>
    obtain rfl := Option.some.inj ht
    rw [call_waitCompletion hv]
    exact Stays.refl _
  | cancel w => exact stays_cancel ht v
  | resume w =>
    rw [(call_resume ht).2 v fun hvw => he (by rw [hvw])]
    exact Stays.refl _
  | onReadable waitRet peeks =>
    obtain ⟨-, ht⟩ := Option.ite_none_right_eq_some.mp ht
    exact stays_onReadable ht v
  | close =>
    obtain rfl := Option.some.inj ht
    unfold State.close
    split
    · exact Stays.refl _
    · have hsettled := stays_settleAll .cancelled ({ s with closed := true } : State κ).removeReader v
      rwa [call_removeReader] at hsettled
  | closeCtx =>
    obtain rfl := Option.some.inj ht
    exact Stays.refl _

theorem calls_resume {w : ℕ} (ht : s.resume w = some t) : t.calls = s.calls := by
  rcases resume_cases ht with ⟨call, -, -, rfl⟩ | rfl
  · rfl
  · unfold State.onCancelled
    simp only
    split
    · rw [calls_removeReader]
    · rfl

theorem calls_cancel {w : ℕ} (ht : s.cancel w = some t) : t.calls = s.calls := by
  obtain ⟨fut, b, -, -, rfl⟩ := cancel_cases ht
  rfl

theorem calls_step {e : Event κ} (ht : step s e = some t) : s.calls ≤ t.calls := by
  cases e with
  | post c =>
    obtain rfl := Option.some.inj ht
    exact Nat.le_refl _
  | waitCompletion =>
    obtain rfl := Option.some.inj ht
    rw [calls_waitCompletion]
    exact Nat.le_succ _
  | cancel w => exact Nat.le_of_eq (calls_cancel ht).symm
  | resume w => exact Nat.le_of_eq (calls_resume ht).symm
  | onReadable waitRet peeks =>
    obtain ⟨-, ht⟩ := Option.ite_none_right_eq_some.mp ht
    exact Nat.le_of_eq (calls_posted_onReadable ht).1.symm
  | close =>
    obtain rfl := Option.some.inj ht
    unfold State.close
    split
    · exact Nat.le_refl _
    · simp [State.settleAll]
  | closeCtx =>
    obtain rfl := Option.some.inj ht
    exact Nat.le_refl _

end UringAsync
end Pyuring
