import Pyuring.UringAsyncHandover

/-!
# The reader and the waiters

Whenever no callback runs, the loop watches the ring exactly when somebody waits for a
completion: `Attended`.  The callback takes the reader off first and puts it back last,
so every way out of the callback has to leave it right.  An error of the wait fails all
waiters, and then nobody waits.  An error of a peek does not: it leaves the callback
between the two, with the waiters that the peeks did not get to and without a reader.
`PeekFails` says when a peek that fails is made, and a run is attended throughout
exactly when that does not happen.
-/

namespace Pyuring
namespace UringAsync

open Trace

variable {κ : Type*}

/-- Unless it is closed, the reader is registered exactly when somebody waits. -/
def Attended (s : State κ) : Prop := s.closed = false → (s.registered = true ↔ s.waiters ≠ [])

/-- The callback makes a peek that fails: the wait succeeds, the peeks before find a
completion each, and a waiter is left. -/
def PeekFails (s : State κ) : Event κ → Prop
  | .onReadable waitRet peeks => s.closed = false ∧ 0 ≤ waitRet ∧
      ∃ k, peeks = some k ∧ k + 1 < s.waiters.length ∧ s.reaped + k < s.posted.length
  | .post _ => False
  | .waitCompletion => False
  | .cancel _ => False
  | .resume _ => False
  | .close => False
  | .closeCtx => False

/-- The reader the object believes in is the one the loop has, and it is there exactly
when somebody waits. -/
structure Watched (s : State κ) : Prop where
  ctxOpen : s.ctxOpen = true
  registered : s.registered = s.readerActive
  closed : s.closed = true → s.waiters = [] ∧ s.readerActive = false
  active : s.closed = false → (s.readerActive = true ↔ s.waiters ≠ [])

variable {s t : State κ}

theorem Watched.attended (h : Watched s) : Attended s := fun hopen => by
  rw [h.registered]
  exact h.active hopen

/-- A step that touches neither the queue nor the reader. -/
theorem Watched.congr (h : Watched s) (hctx : t.ctxOpen = s.ctxOpen)
    (hreg : t.registered = s.registered) (hactive : t.readerActive = s.readerActive)
    (hclosed : t.closed = s.closed) (hwaiters : t.waiters = s.waiters) : Watched t where
  ctxOpen := by rw [hctx, h.ctxOpen]
  registered := by rw [hreg, hactive, h.registered]
  closed := by rw [hclosed, hwaiters, hactive]; exact h.closed
  active := by rw [hclosed, hwaiters, hactive]; exact h.active

/-! ## Taking the reader off and putting it back -/

/-- The reader is off, for the object and for the loop. -/
structure Off (s : State κ) : Prop where
  ctxOpen : s.ctxOpen = true
  registered : s.registered = false
  active : s.readerActive = false

theorem off_removeReader (hctx : s.ctxOpen = true) (hreg : s.registered = s.readerActive) :
    Off s.removeReader := by
  unfold State.removeReader
  split
  · exact ⟨hctx, by simp [hctx], rfl⟩
  · next hoff =>
    have hactive : s.readerActive = false := by simpa using hoff
    exact ⟨hctx, hreg.trans hactive, hactive⟩

theorem Watched.removeReader (h : Watched s) : Off s.removeReader :=
  off_removeReader h.ctxOpen h.registered

/-- Without waiters the reader may stay off. -/
theorem Off.watched (h : Off s) (hwaiters : s.waiters = []) : Watched s where
  ctxOpen := h.ctxOpen
  registered := by rw [h.registered, h.active]
  closed _ := ⟨hwaiters, h.active⟩
  active _ := iff_of_false (by simp [h.active]) fun hne => hne hwaiters

/-- With waiters it goes back on. -/
theorem Off.armReader (h : Off s) (hopen : s.closed = false) : Watched s.armReader := by
  unfold State.armReader
  cases hws : s.waiters with
  | nil =>
    rw [if_pos (by simp)]
    exact h.watched hws
  | cons w ws =>
    rw [if_neg (by simp [hopen, h.active])]
    refine ⟨h.ctxOpen, rfl, fun hclosed => absurd hclosed (by simp [hopen]), ?_⟩
    intro _
    exact iff_of_true rfl (by simp)

theorem Off.settleAll (h : Off s) (fut : Fut κ) : Watched (s.settleAll fut) :=
  Off.watched ⟨h.ctxOpen, h.registered, h.active⟩ rfl

/-- Failing all waiters leaves none, and the reader off. -/
theorem Off.failAll (h : Off s) (exc : UringError) : Watched (s.failAll exc) := by
  have hsettled := h.settleAll (.exception exc)
  exact hsettled.removeReader.watched (by simp [State.settleAll])

/-! ## The chain of peeks -/

/-- What is delivered was in the ring. -/
theorem reaped_le_deliver {c : κ} (hc : s.head = some c) (w : ℕ) (ws : List ℕ) :
    (s.removeReader.deliver w ws c).reaped ≤ (s.removeReader.deliver w ws c).posted.length := by
  change s.removeReader.reaped + 1 ≤ s.removeReader.posted.length
  rw [reaped_removeReader, posted_removeReader]
  exact (head_eq_some.mp hc).1

/-- A chain of peeks does not touch the reader; it ends early exactly when a peek that
fails is made, and then a waiter is left. -/
theorem deliverPeekChain_spec : ∀ (ws : List ℕ) (peeks : Option ℕ) {s : State κ},
    s.waiters = ws → s.reaped ≤ s.posted.length →
    let r := State.deliverPeekChain ws peeks s
    r.2.ctxOpen = s.ctxOpen ∧ r.2.registered = s.registered ∧
      r.2.readerActive = s.readerActive ∧ r.2.closed = s.closed ∧
      (r.1 = false ↔ ∃ k, peeks = some k ∧ k < ws.length ∧ s.reaped + k ≤ s.posted.length) ∧
      (r.1 = false → r.2.waiters ≠ [])
  | [], peeks, s, _, _ => by
    refine ⟨rfl, rfl, rfl, rfl, iff_of_false (by simp [State.deliverPeekChain]) ?_, ?_⟩
    · rintro ⟨k, -, hk, -⟩
      exact absurd hk (Nat.not_lt_zero k)
    · intro hfalse
      exact absurd hfalse (by simp [State.deliverPeekChain])
  | w :: ws, peeks, s, hws, hle => by
    by_cases hzero : peeks = some 0
    · subst hzero
      exact ⟨rfl, rfl, rfl, rfl, iff_of_true rfl ⟨0, rfl, Nat.succ_pos _, hle⟩,
        fun _ => by simp [State.deliverPeekChain, hws]⟩
    rw [deliverPeekChain_cons hzero]
    cases hc : s.head with
    | none =>
      have hend : s.posted.length ≤ s.reaped := List.getElem?_eq_none_iff.mp hc
      refine ⟨rfl, rfl, rfl, rfl, iff_of_false (by simp) ?_, fun hfalse => absurd hfalse (by simp)⟩
      rintro ⟨k, rfl, -, hle'⟩
      exact hzero (by rw [show k = 0 by omega])
    | some c =>
      obtain ⟨hlt, -⟩ := head_eq_some.mp hc
      obtain ⟨hctx, hreg, hactive, hclosed, hfalse, hleft⟩ :=
        deliverPeekChain_spec ws (peeks.map Nat.pred) (s := s.deliver w ws c) rfl hlt
      refine ⟨hctx, hreg, hactive, hclosed, hfalse.trans ?_, hleft⟩
      change (∃ j, peeks.map Nat.pred = some j ∧ j < ws.length ∧
        s.reaped + 1 + j ≤ s.posted.length) ↔ _
      constructor
      · rintro ⟨j, hj, hjlt, hjle⟩
        obtain ⟨k, rfl, rfl⟩ := Option.map_eq_some_iff.mp hj
        have hk : k ≠ 0 := fun hk => hzero (by rw [hk])
        rw [Nat.pred_eq_sub_one] at hjlt hjle
        exact ⟨k, rfl, by rw [List.length_cons]; omega, by omega⟩
      · rintro ⟨k, rfl, hklt, hkle⟩
        have hk : k ≠ 0 := fun hk => hzero (by rw [hk])
        rw [List.length_cons] at hklt
        exact ⟨k - 1, rfl, by omega, by omega⟩

/-! ## The steps -/

/-- The callback leaves the reader right unless a peek fails, and then it strands the
waiters that are left. -/
theorem Watched.onReadable (h : Watched s) {waitRet : ℤ} {peeks : Option ℕ}
    (ht : s.onReadable waitRet peeks = some t) :
    (¬ PeekFails s (.onReadable waitRet peeks) ∧ Watched t) ∨
      (PeekFails s (.onReadable waitRet peeks) ∧ ¬ Attended t) := by
  have hoff := h.removeReader
  unfold State.onReadable at ht
  simp only [ensureCtxOpen_removeReader, waiters_removeReader, head_removeReader] at ht
  split at ht
  · next exc hexc =>
    rw [← Option.some.inj ht]
    refine Or.inl ⟨?_, hoff.failAll exc⟩
    rintro ⟨hclosed, -⟩
    exact absurd hexc (by simp [State.ensureCtxOpen, hclosed, h.ctxOpen])
  next hok =>
  have hopen : s.closed = false := by
    cases hclosed : s.closed with
    | false => rfl
    | true => exact absurd hok (by simp [State.ensureCtxOpen, hclosed])
  split at ht
  · next hnil =>
    rw [← Option.some.inj ht]
    refine Or.inl ⟨?_, hoff.watched (by simpa using hnil)⟩
    rintro ⟨-, -, k, -, hk, -⟩
    rw [hnil] at hk
    exact absurd hk (Nat.not_lt_zero _)
  next w ws hws =>
  split at ht
  · next hneg =>
    rw [← Option.some.inj ht]
    exact Or.inl ⟨fun hfails => absurd hneg (Int.not_lt.mpr hfails.2.1), hoff.failAll _⟩
  next hpos =>
  split at ht
  · exact absurd ht (by simp)
  next c hc =>
  have hle := reaped_le_deliver hc w ws
  obtain ⟨hctx, hreg, hactive, hclosed, hfalse, hleft⟩ :=
    deliverPeekChain_spec ws peeks rfl hle
  -- the chain ends early exactly when a peek fails
  have hfails : (State.deliverPeekChain ws peeks (s.removeReader.deliver w ws c)).1 = false ↔
      PeekFails s (.onReadable waitRet peeks) := by
    rw [hfalse]
    change (∃ k, peeks = some k ∧ k < ws.length ∧
      s.removeReader.reaped + 1 + k ≤ s.removeReader.posted.length) ↔ _
    simp only [reaped_removeReader, posted_removeReader, PeekFails, hopen, hws, Int.not_lt.mp hpos,
      true_and, List.length_cons]
    refine exists_congr fun k => and_congr_right ?_
    intro _
    omega
  generalize hr : State.deliverPeekChain ws peeks (s.removeReader.deliver w ws c) = r at *
  obtain ⟨b, u⟩ := r
  have hu : Off u := ⟨hctx.trans hoff.ctxOpen, hreg.trans hoff.registered,
    hactive.trans hoff.active⟩
  have huopen : u.closed = false := hclosed.trans ((closed_removeReader s).trans hopen)
  cases b with
  | true =>
    rw [← Option.some.inj ht]
    exact Or.inl ⟨fun hp => absurd (hfails.mpr hp) (by simp), hu.armReader huopen⟩
  | false =>
    rw [← Option.some.inj ht]
    refine Or.inr ⟨hfails.mp rfl, ?_⟩
    intro hattended
    exact absurd ((hattended huopen).mpr (hleft rfl)) (by simp [hu.registered])

theorem Watched.waitCompletion (h : Watched s) : Watched s.waitCompletion := by
  unfold State.waitCompletion
  cases hok : s.ensureCtxOpen with
  | error exc => exact h.congr rfl rfl rfl rfl rfl
  | ok _ =>
    have hopen : s.closed = false := by
      cases hclosed : s.closed with
      | false => rfl
      | true => exact absurd hok (by simp [State.ensureCtxOpen, hclosed])
    simp only
    unfold State.armReader
    by_cases hactive : s.readerActive = true
    · rw [if_pos (by simp [hactive])]
      refine ⟨h.ctxOpen, h.registered, fun hc => absurd hc (by simp [hopen]), ?_⟩
      intro _
      exact iff_of_true hactive (by simp)
    · rw [if_neg (by simp [hopen, hactive])]
      refine ⟨h.ctxOpen, rfl, fun hc => absurd hc (by simp [hopen]), ?_⟩
      intro _
      exact iff_of_true rfl (by simp)

/-- A task that ends with `CancelledError` leaves the queue, and takes the reader off when
it was the last. -/
theorem Watched.onCancelled (h : Watched s) (w : ℕ) : Watched (s.onCancelled w) := by
  unfold State.onCancelled
  simp only
  cases hws : s.waiters.erase w with
  | nil =>
    rw [if_pos List.isEmpty_nil]
    have hoff : Off ({ s with
        waiters := [], call := Function.update s.call w .cancelled } : State κ).removeReader :=
      off_removeReader h.ctxOpen h.registered
    exact hoff.watched (waiters_removeReader _)
  | cons v vs =>
    rw [if_neg (by simp)]
    have hne : s.waiters ≠ [] := fun hnil => by simp [hnil] at hws
    refine ⟨h.ctxOpen, h.registered, fun hclosed => absurd (h.closed hclosed).1 hne, ?_⟩
    intro hopen
    exact iff_of_true ((h.active hopen).mpr hne) (by simp)

theorem Watched.resume (h : Watched s) {w : ℕ} (ht : s.resume w = some t) : Watched t := by
  rcases resume_cases ht with ⟨call, -, -, rfl⟩ | rfl
  · exact h.congr rfl rfl rfl rfl rfl
  · exact h.onCancelled w

theorem Watched.cancel (h : Watched s) {w : ℕ} (ht : s.cancel w = some t) : Watched t := by
  obtain ⟨fut, b, -, -, rfl⟩ := cancel_cases ht
  exact h.congr rfl rfl rfl rfl rfl

theorem Watched.close (h : Watched s) : Watched s.close := by
  unfold State.close
  split
  · exact h
  · have hoff : Off ({ s with closed := true } : State κ).removeReader :=
      off_removeReader h.ctxOpen h.registered
    exact hoff.settleAll .cancelled

/-- **What a step does to the reader.** -/
theorem Watched.step (h : Watched s) {e : Event κ} (he : e ≠ .closeCtx)
    (ht : step s e = some t) :
    (¬ PeekFails s e ∧ Watched t) ∨ (PeekFails s e ∧ ¬ Attended t) := by
  cases e with
  | post c =>
    rw [← Option.some.inj ht]
    exact Or.inl ⟨id, h.congr rfl rfl rfl rfl rfl⟩
  | waitCompletion =>
    rw [← Option.some.inj ht]
    exact Or.inl ⟨id, h.waitCompletion⟩
  | cancel w => exact Or.inl ⟨id, h.cancel ht⟩
  | resume w => exact Or.inl ⟨id, h.resume ht⟩
  | onReadable waitRet peeks =>
    obtain ⟨-, ht⟩ := Option.ite_none_right_eq_some.mp ht
    exact h.onReadable ht
  | close =>
    rw [← Option.some.inj ht]
    exact Or.inl ⟨id, h.close⟩
  | closeCtx => exact absurd rfl he

theorem watched_init : Watched (State.init : State κ) :=
  ⟨rfl, rfl, fun h => absurd h (by simp [State.init]), fun _ => by simp [State.init]⟩

/-! ## Staying open -/

/-- The same reader is open, on the same context. -/
def SameOpen (s t : State κ) : Prop := t.closed = s.closed ∧ t.ctxOpen = s.ctxOpen

theorem sameOpen_onReadable {waitRet : ℤ} {peeks : Option ℕ}
    (ht : s.onReadable waitRet peeks = some t) : SameOpen s t := by
  have hoff : SameOpen s s.removeReader := ⟨closed_removeReader s, ctxOpen_removeReader s⟩
  have hfail : ∀ exc, SameOpen s (s.removeReader.failAll exc) := fun exc =>
    ⟨(closed_removeReader _).trans hoff.1, (ctxOpen_removeReader _).trans hoff.2⟩
  unfold State.onReadable at ht
  simp only [ensureCtxOpen_removeReader, waiters_removeReader, head_removeReader] at ht
  split at ht
  · rw [← Option.some.inj ht]
    exact hfail _
  split at ht
  · rw [← Option.some.inj ht]
    exact hoff
  next w ws hws =>
  split at ht
  · rw [← Option.some.inj ht]
    exact hfail _
  split at ht
  · exact absurd ht (by simp)
  next c hc =>
  have hle := reaped_le_deliver hc w ws
  obtain ⟨hctx, -, -, hclosed, -⟩ := deliverPeekChain_spec ws peeks rfl hle
  generalize State.deliverPeekChain ws peeks (s.removeReader.deliver w ws c) = r at *
  obtain ⟨b, u⟩ := r
  have hu : SameOpen s u := ⟨hclosed.trans hoff.1, hctx.trans hoff.2⟩
  cases b with
  | false =>
    rw [← Option.some.inj ht]
    exact hu
  | true =>
    rw [← Option.some.inj ht]
    exact ⟨(closed_armReader u).trans hu.1, (ctxOpen_armReader u).trans hu.2⟩

theorem sameOpen_waitCompletion (s : State κ) : SameOpen s s.waitCompletion := by
  unfold State.waitCompletion
  split
  · exact ⟨rfl, rfl⟩
  · exact ⟨closed_armReader _, ctxOpen_armReader _⟩

theorem sameOpen_onCancelled (s : State κ) (w : ℕ) : SameOpen s (s.onCancelled w) := by
  unfold State.onCancelled
  simp only
  split
  · exact ⟨closed_removeReader _, ctxOpen_removeReader _⟩
  · exact ⟨rfl, rfl⟩

/-- Nothing closes a reader or its context but closing them. -/
theorem sameOpen_step {e : Event κ} (hclose : e ≠ .close) (hctx : e ≠ .closeCtx)
    (ht : step s e = some t) : SameOpen s t := by
  cases e with
  | post c =>
    rw [← Option.some.inj ht]
    exact ⟨rfl, rfl⟩
  | waitCompletion =>
    rw [← Option.some.inj ht]
    exact sameOpen_waitCompletion s
  | cancel w =>
    obtain ⟨fut, b, -, -, rfl⟩ := cancel_cases ht
    exact ⟨rfl, rfl⟩
  | resume w =>
    rcases resume_cases ht with ⟨call, -, -, rfl⟩ | rfl
    · exact ⟨rfl, rfl⟩
    · exact sameOpen_onCancelled s w
  | onReadable waitRet peeks =>
    obtain ⟨-, ht⟩ := Option.ite_none_right_eq_some.mp ht
    exact sameOpen_onReadable ht
  | close => exact absurd rfl hclose
  | closeCtx => exact absurd rfl hctx

/-- Only the kernel posts completions. -/
theorem posted_step {e : Event κ} (hpost : ∀ c, e ≠ .post c) (ht : step s e = some t) :
    t.posted = s.posted := by
  cases e with
  | post c => exact absurd rfl (hpost c)
  | waitCompletion =>
    rw [← Option.some.inj ht]
    unfold State.waitCompletion
    split
    · rfl
    · exact posted_armReader _
  | cancel w =>
    obtain ⟨fut, b, -, -, rfl⟩ := cancel_cases ht
    rfl
  | resume w =>
    rcases resume_cases ht with ⟨call, -, -, rfl⟩ | rfl
    · rfl
    · unfold State.onCancelled
      simp only
      split
      · exact posted_removeReader _
      · rfl
  | onReadable waitRet peeks =>
    obtain ⟨-, ht⟩ := Option.ite_none_right_eq_some.mp ht
    exact (calls_posted_onReadable ht).2
  | close =>
    rw [← Option.some.inj ht]
    unfold State.close
    split
    · rfl
    · exact posted_removeReader _
  | closeCtx => rw [← Option.some.inj ht]

/-! ## Runs -/

/-- **No waiter is stranded** as long as no peek of the callback fails: over an open
context every state of a run is attended exactly when no step of it makes a peek that
fails. -/
theorem attended_iff_no_peek_fails {κ : Type*} (es : List (Event κ)) (s : State κ)
    (hctx : ∀ e ∈ es, e ≠ .closeCtx) (hs : exec step State.init es = some s) :
    Always step Attended State.init es ↔ Meets step (fun s e => ¬ PeekFails s e) State.init es :=
  always_iff_meets (fun _ hw => hw.attended)
    (fun _ _ _ hw he ht => (hw.step he ht).imp id fun h => ⟨not_not_intro h.1, h.2⟩)
    watched_init hctx hs

/-- One task waits and is served. -/
theorem attended_iff_no_peek_fails_served :
    Always step Attended State.init
        [.waitCompletion, .post 7, .onReadable 0 none, .resume 0] ↔
      Meets step (fun s e => ¬ PeekFails s e) (State.init : State ℕ)
        [.waitCompletion, .post 7, .onReadable 0 none, .resume 0] :=
  attended_iff_no_peek_fails _ _ (by simp) rfl

/-- Two tasks wait, the wait serves the first and the peek for the second fails: the
second waits without a reader. -/
theorem waiter_stranded :
    ¬ ∀ (es : List (Event ℕ)) (s : State ℕ), (∀ e ∈ es, e ≠ .closeCtx) →
      exec step State.init es = some s → Attended s := by
  intro h
  have hattended := h [.waitCompletion, .waitCompletion, .post 7, .onReadable 0 (some 0)] _
    (by simp) rfl
  exact absurd ((hattended rfl).mpr (by decide)) (by decide)

end UringAsync
end Pyuring
