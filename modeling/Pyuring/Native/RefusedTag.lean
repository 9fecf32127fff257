import Pyuring.Native.AsyncSession

/-!
# A tag refused too late

`read_async` and `write_async` raise `ValueError` for a tag that is in use.  They look it
up after the native function has submitted the request, so the request of a refused call
runs like any other: the kernel reads into or writes from a buffer that nothing pins, and
its completion is delivered under a tag of which the caller was told that it was not
used.

`refused_has_effect` says so for every context and every refused call, and
`refused_delivers_one_more` counts the completions: whatever their order, there is one more
for the tag than there were requests with it before the call.
-/

namespace Pyuring
namespace Native
namespace AsyncSession

open UringCtx CompletionRing Trace

/-- What a call of `read_async` or `write_async` makes of a context. -/
def submitted (cfg : Config) (sub : Submission) (submitRet : ℤ) (s : State) : State :=
  s.submitAsync cfg sub.op sub.posts sub.userData sub.tracked submitRet

/-- The call that led to this state raised `ValueError`. -/
def Refused (t : State) : Prop := t.log.head? = some (.asyncReturn (.error .valueError))

/-- The event hands a completion out under the tag. -/
def handsOut (tag : UInt64) : UringCtx.Ev → Bool
  | .handed _ userData _ => userData == tag
  | .taken _ => false
  | .posted _ _ => false
  | .syncReturn _ _ _ _ => false
  | .asyncReturn _ => false

/-- The completions delivered for a tag. -/
def delivered (tag : UInt64) (log : List UringCtx.Ev) : ℕ := log.countP (handsOut tag)

/-- The requests with a tag that are on the ring. -/
def tagged (tag : UInt64) (s : State) : ℕ :=
  s.ring.pending.countP fun q => q.userData = tag

/-- The kernel goes on, and completions are waited for or peeked at. -/
def Later (_ : State) : UringCtx.Event → Prop
  | .complete _ _ more => more = false
  | .waitCompletion _ => True
  | .peekCompletion _ => True
  | .sync _ _ _ => False
  | .peek => False
  | .wait _ => False
  | .async _ _ _ _ _ => False

/-- A call from `s` to `t` with this tag had no effect: no request of it was handed over, what
is outstanding and what is pinned are as before, and once all completions are delivered,
those for the tag are the ones of the requests that were there before. -/
structure NoEffect (cfg : Config) (tag : UInt64) (s t : State) : Prop where
  handedOver : ∀ q ∈ t.ring.outstanding, q.serial ≠ s.serial
  outstanding : t.ring.outstanding = s.ring.outstanding
  keepalive : t.asyncIoKeepalive = s.asyncIoKeepalive
  delivered : ∀ u, Reach (UringCtx.step cfg) Later t u → u.ring.pending = 0 →
    delivered tag u.log = AsyncSession.delivered tag s.log + tagged tag s

variable {cfg : Config} {s t u : State} {sub : Submission} {submitRet : ℤ}

/-- What a refused call did: it handed its request over, with every entry queued before,
and pinned nothing. -/
theorem refused_cases (h : Refused (submitted cfg sub submitRet s)) :
    submitted cfg sub submitRet s =
      (s.submitted (s.asyncEntry sub.op sub.posts sub.userData)).asyncReturn
        (.error .valueError) := by
  have hsub : Submits cfg sub.op sub.posts sub.userData sub.tracked submitRet s
      (submitted cfg sub submitRet s) := submits sub.op sub.posts sub.userData sub.tracked submitRet
  revert h
  generalize submitted cfg sub submitRet s = t at hsub
  intro h
  cases hsub with
  | clash => rfl
  | full => exact absurd h (by simp [Refused, State.asyncReturn])
  | fails => exact absurd h (by simp [Refused, State.asyncReturn])
  | negative => exact absurd h (by simp [Refused, State.asyncReturn])
  | pins => exact absurd h (by simp [Refused, State.asyncReturn])
  | plain => exact absurd h (by simp [Refused, State.asyncReturn])

/-- The kernel has the request of a refused call. -/
theorem mem_outstanding_of_refused (h : Refused (submitted cfg sub submitRet s)) :
    s.asyncEntry sub.op sub.posts sub.userData ∈
      (submitted cfg sub submitRet s).ring.outstanding := by
  rw [refused_cases h]
  simp [State.asyncReturn, State.submitted, State.withTaken]

/-! ## The completions delivered -/

theorem delivered_cons_handed (tag : UInt64) (q : CtxSqe) (res : ℤ)
    (log : List UringCtx.Ev) :
    delivered tag (.handed q q.userData res :: log) =
      delivered tag log + if q.userData = tag then 1 else 0 := by
  simp [delivered, List.countP_cons, handsOut]

/-- A completion delivered is one request fewer on the ring. -/
theorem delivered_hand (tag : UInt64) {c : CtxSqe × ℤ} {cs : List (CtxSqe × ℤ)}
    (hcs : s.ring.completed = c :: cs) :
    delivered tag (s.hand c cs).log + tagged tag (s.hand c cs) =
      delivered tag s.log + tagged tag s := by
  have hreap := pending_reap (reap_eq_some.mpr ⟨cs, hcs, rfl⟩)
  have hone : tagged tag s = tagged tag (s.hand c cs) + if c.1.userData = tag then 1 else 0 := by
    rw [tagged, hreap, Multiset.countP_cons]
    rfl
  rw [log_hand, delivered_cons_handed, hone]
  omega

theorem delivered_step (tag : UInt64) {e : UringCtx.Event} (he : Later s e)
    (h : UringCtx.step cfg s e = some t) :
    delivered tag t.log + tagged tag t = delivered tag s.log + tagged tag s := by
  cases UringCtx.step_cases h with
  | @complete i res more _ hcomplete =>
    obtain rfl : more = false := he
    unfold State.complete at hcomplete
    split at hcomplete
    · exact absurd hcomplete (by simp)
    · split at hcomplete
      · obtain ⟨⟨q, ring⟩, hring, rfl⟩ := Option.map_eq_some_iff.mp hcomplete
        have hpending := pending_complete (show s.ring.complete i res = some (q, ring) from hring)
        simp [delivered, tagged, hpending, handsOut]
      · exact absurd hcomplete (by simp)
  | waitRaises hcall => rfl
  | waitHands hcall hcs => exact delivered_hand tag hcs
  | peekNone hcall => rfl
  | peekHands hcall hcs => exact delivered_hand tag hcs
  | sync hcall => exact he.elim
  | async hcall => exact he.elim
  | batchWaits hr hreap hnil => exact he.elim
  | batchDrains hr hreap hne => exact he.elim
  | waitFails hr hret => exact he.elim
  | waitReaps hr hret hcs => exact he.elim

/-- **A refused call's completion is delivered.**  In whatever order the requests complete, once
the ring has been drained one more completion was delivered for the tag than there were
requests with it before the call. -/
theorem refused_delivers_one_more (h : Refused (submitted cfg sub submitRet s))
    (hreach : Reach (UringCtx.step cfg) Later (submitted cfg sub submitRet s) u)
    (hdrained : u.ring.pending = 0) :
    delivered (UInt64.ofInt sub.userData) u.log =
      delivered (UInt64.ofInt sub.userData) s.log + tagged (UInt64.ofInt sub.userData) s + 1 := by
  have hkept := hreach.invariant (I := fun v =>
    delivered (UInt64.ofInt sub.userData) v.log + tagged (UInt64.ofInt sub.userData) v =
      delivered (UInt64.ofInt sub.userData) (submitted cfg sub submitRet s).log +
        tagged (UInt64.ofInt sub.userData) (submitted cfg sub submitRet s)) rfl
    fun v e w hv he hw => (delivered_step _ he hw).trans hv
  have hpending : (submitted cfg sub submitRet s).ring.pending =
      s.asyncEntry sub.op sub.posts sub.userData ::ₘ s.ring.pending := by
    rw [refused_cases h]
    simp only [State.asyncReturn, State.submitted, pending_submit, pending_withTaken]
    rw [Multiset.coe_singleton, add_comm, Multiset.singleton_add]
  have hlog : delivered (UInt64.ofInt sub.userData) (submitted cfg sub submitRet s).log =
      delivered (UInt64.ofInt sub.userData) s.log := by
    rw [refused_cases h]
    simp [delivered, State.asyncReturn, State.submitted, State.withTaken, handsOut]
  have htagged : tagged (UInt64.ofInt sub.userData) (submitted cfg sub submitRet s) =
      tagged (UInt64.ofInt sub.userData) s + 1 := by
    have htag : (s.asyncEntry sub.op sub.posts sub.userData).userData =
        UInt64.ofInt sub.userData := rfl
    rw [tagged, hpending, Multiset.countP_cons, if_pos htag]
    rfl
  have hnone : tagged (UInt64.ofInt sub.userData) u = 0 := by
    rw [tagged, hdrained]
    rfl
  omega

/-- **A refused submission has been made**: for every context and every call of `read_async`
or `write_async` that raises for a tag in use, the kernel has the request. -/
theorem refused_has_effect (cfg : Config) (s : State) (sub : Submission) (submitRet : ℤ)
    (h : Refused (submitted cfg sub submitRet s)) :
    ¬ NoEffect cfg (UInt64.ofInt sub.userData) s (submitted cfg sub submitRet s) :=
  fun hno => hno.handedOver _ (mem_outstanding_of_refused h) rfl

/-- A context with a read under tag 7 in flight. -/
def oneRead : State := submitted defaultEntries (.readAsync 3 8 0 7) 1 .init

theorem refused_has_effect_write :
    ¬ NoEffect defaultEntries (UInt64.ofInt 7) oneRead
      (submitted defaultEntries (.writeAsync 3 8 0 7) 1 oneRead) :=
  refused_has_effect defaultEntries oneRead (.writeAsync 3 8 0 7) 1 rfl

theorem refused_submission_runs : ¬ ∀ (cfg : Config) (s : State) (sub : Submission) (submitRet : ℤ),
    Refused (submitted cfg sub submitRet s) →
    NoEffect cfg (UInt64.ofInt sub.userData) s (submitted cfg sub submitRet s) := by
  intro h
  have hno := h defaultEntries oneRead (.readAsync 3 8 0 7) 1 rfl
  exact absurd (hno.outstanding) (by decide)

end AsyncSession
end Native
end Pyuring
