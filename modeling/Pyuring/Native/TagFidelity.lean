import Pyuring.Native.AsyncSession

/-!
# Tags that come back

A tag goes out as an unsigned 64-bit field, comes back from the native function as a signed
number that doubles as an error code, comes back once more with the completion, and is the
key under which a buffer is pinned.  These agree for a tag below 2^63 whose key is free, and
as long as nobody else's buffer is pinned under it when the completion is handed out;
otherwise they do not.
-/

namespace Pyuring
namespace Native
namespace AsyncSession

open UringCtx CompletionRing Trace

variable (cfg : Config)

/-- The completion that is handed out next carries the tag of its request, and takes away the
pin of its request and no other. -/
def HandsOwn (s : Session) : Prop :=
  ∀ c cs, s.ctx.ring.completed = c :: cs →
    (∀ r ∈ s.requests, r.serial = c.1.serial → (c.1.userData.toNat : ℤ) = r.userData) ∧
      ∀ p, p ∈ (s.ctx.hand c cs).asyncIoKeepalive ↔
        p ∈ s.ctx.asyncIoKeepalive ∧ p.2 ≠ c.1.serial

/-- The step is as it should be: a submission that the kernel accepts returns its tag, and the
completion of a request is handed out with the tag and releases the request's pin. -/
def Faithful (s : Session) : Action → Prop
  | .submit sub submitRet => s.ctx.ring.queued.length < cfg.sqEntries → 0 ≤ submitRet →
      (s.ctx.submitAsync cfg sub.op sub.posts sub.userData sub.tracked submitRet).log.head? =
        some (.asyncReturn (.ok sub.userData))
  | .waitCompletion waitRet => 0 ≤ waitRet → HandsOwn s
  | .peekCompletion peekRet => 0 ≤ peekRet → HandsOwn s
  | _ => True

/-- No other request's buffer is pinned under the tag of the completion that is handed out
next. -/
def Sole (s : Session) : Prop :=
  ∀ c cs, s.ctx.ring.completed = c :: cs →
    ∀ p ∈ s.ctx.asyncIoKeepalive, p.1 = c.1.userData.toNat → p.2 = c.1.serial

/-- The tag of an accepted submission is below 2^63 and not in use for a pin, if the call pins a
buffer; and a completion is handed out while its tag is in use for no other pin. -/
def Plain (s : Session) : Action → Prop
  | .submit sub submitRet => s.ctx.ring.queued.length < cfg.sqEntries → 0 ≤ submitRet →
      sub.userData < 2 ^ 63 ∧
        (sub.tracked = true → s.ctx.asyncIoKeepalive.lookup sub.userData = none)
  | .waitCompletion waitRet => 0 ≤ waitRet → Sole s
  | .peekCompletion peekRet => 0 ≤ peekRet → Sole s
  | _ => True

/-- A tag is a number of 64 bits. -/
def InRange : Action → Prop
  | .submit sub _ => 0 ≤ sub.userData ∧ sub.userData < 2 ^ 64
  | _ => True

/-- The records of a session with tags of 64 bits. -/
structure Tagged (s : Session) : Prop where
  recorded : Recorded s
  range : ∀ r ∈ s.requests, 0 ≤ r.userData ∧ r.userData < 2 ^ 64

variable {cfg} {s t : Session}

theorem Tagged.step (h : Tagged s) {a : Action} (ha : InRange a) (ht : step cfg s a = some t) :
    Tagged t := by
  refine ⟨h.recorded.step ht, ?_⟩
  cases step_cases ht with
  | @submit sub submitRet ctx _ hsub =>
    intro r hr
    rcases List.mem_append.mp hr with hr | hr
    · unfold Session.request at hr
      split at hr
      · rw [List.mem_singleton.mp hr]
        exact ha
      · exact absurd hr (by simp)
    · exact h.range r hr
  | _ => exact h.range

theorem signedTag_of_lt {userData : ℤ} (hpos : 0 ≤ userData) (hlt : userData < 2 ^ 63) :
    signedTag userData = userData := by
  rw [signedTag_eq, if_pos (by omega)]
  omega

/-- An accepted submission returns its tag exactly when that is a number of 63 bits and its pin,
if it has one, has a key of its own. -/
theorem faithful_submit_iff {sub : Submission} {submitRet : ℤ}
    (hpos : 0 ≤ sub.userData) (hlt : sub.userData < 2 ^ 64) :
    Faithful cfg s (.submit sub submitRet) ↔ Plain cfg s (.submit sub submitRet) := by
  simp only [Faithful, Plain]
  refine forall_congr' fun hroom => forall_congr' ?_
  intro hret
  have htag := signedTag_neg_iff sub.userData
  have hsub : Submits cfg sub.op sub.posts sub.userData sub.tracked submitRet s.ctx
      (s.ctx.submitAsync cfg sub.op sub.posts sub.userData sub.tracked submitRet) :=
    submits _ _ _ _ _
  generalize s.ctx.submitAsync cfg sub.op sub.posts sub.userData sub.tracked submitRet = u
    at hsub ⊢
  have hsame : 0 ≤ signedTag sub.userData → sub.userData < 2 ^ 63 ∧
      signedTag sub.userData = sub.userData := by
    intro hnonneg
    have hlt : sub.userData < 2 ^ 63 := by omega
    exact ⟨hlt, signedTag_of_lt hpos hlt⟩
  cases hsub with
  | full hfull => exact absurd hroom (Nat.not_lt.mpr hfull)
  | fails _ hneg => exact absurd hret (Int.not_le.mpr hneg)
  | negative _ _ hneg =>
    refine iff_of_false (by simp [State.asyncReturn]) ?_
    intro hand
    have hge := htag.mp hneg
    omega
  | clash _ _ _ htracked hpinned =>
    refine iff_of_false (by simp [State.asyncReturn]) ?_
    intro hand
    rw [hand.2 htracked] at hpinned
    exact absurd hpinned (by simp)
  | pins _ _ hnonneg _ hfree =>
    obtain ⟨hlt, heq⟩ := hsame hnonneg
    exact iff_of_true (by simp [State.asyncReturn, heq]) ⟨hlt, fun _ => hfree⟩
  | plain _ _ hnonneg huntracked =>
    obtain ⟨hlt, heq⟩ := hsame hnonneg
    exact iff_of_true (by simp [State.asyncReturn, heq])
      ⟨hlt, fun htracked => absurd (huntracked.symm.trans htracked) (by simp)⟩

/-- Handing out a completion releases what is pinned under its tag. -/
theorem mem_keepalive_hand {u : State} {c : CtxSqe × ℤ} {cs : List (CtxSqe × ℤ)} {p : ℤ × ℕ} :
    p ∈ (u.hand c cs).asyncIoKeepalive ↔
      p ∈ u.asyncIoKeepalive ∧ p.1 ≠ (c.1.userData.toNat : ℤ) := by
  simp [State.hand, State.completionReleaseAsyncIoBuffer]

theorem handsOwn_iff (h : Tagged s) : HandsOwn s ↔ Sole s := by
  have hmem : ∀ {c cs}, s.ctx.ring.completed = c :: cs → c.1 ∈ s.ctx.ring.pending := fun hcs =>
    mem_pending.mpr (Or.inr (Or.inr ⟨_, by rw [hcs]; exact List.mem_cons_self⟩))
  have htag : ∀ {c cs r}, s.ctx.ring.completed = c :: cs → r ∈ s.requests →
      r.serial = c.1.serial → (c.1.userData.toNat : ℤ) = r.userData := by
    intro c cs r hcs hr heq
    obtain ⟨hpos, hlt⟩ := h.range r hr
    rw [h.recorded.tags c.1 (hmem hcs) r hr heq, toNat_ofInt]
    omega
  constructor
  · intro hown c cs hcs p hp hkey
    by_contra hne
    have hkept := ((hown c cs hcs).2 p).mpr ⟨hp, hne⟩
    exact (mem_keepalive_hand.mp hkept).2 hkey
  · intro hsole c cs hcs
    refine ⟨fun r hr heq => htag hcs hr heq, ?_⟩
    intro p
    rw [mem_keepalive_hand]
    refine and_congr_right fun hp => not_congr ⟨hsole c cs hcs p hp, ?_⟩
    intro hserial
    -- the request's own pin is under its tag
    obtain ⟨r, hr, hserial', hkey⟩ := h.recorded.pins p hp
    rw [htag hcs hr (hserial'.trans hserial), hkey]

/-- **Exactly when tags come back**: in a run of calls on a context, whose tags are numbers of
64 bits, every accepted submission returns its tag, and completions are handed out with the
tag of their request and release its pin and no other, if and only if every tag accepted is
below 2^63 and free for the pin it is needed for, and every completion is handed out while
no other request is pinned under its tag. -/
theorem faithful_iff_plain (cfg : Config) (actions : List Action)
    (hrange : ∀ a ∈ actions, InRange a) :
    Meets (step cfg) (Faithful cfg) init actions ↔ Meets (step cfg) (Plain cfg) init actions := by
  refine meets_congr (I := Tagged) (fun _ _ _ h ha ht => h.step ha ht) ?_
    ⟨recorded_init, by simp [init]⟩ hrange
  intro s a h ha
  cases a with
  | submit sub submitRet => exact faithful_submit_iff ha.1 ha.2
  | waitCompletion waitRet => exact forall_congr' fun _ => handsOwn_iff h
  | peekCompletion peekRet => exact forall_congr' fun _ => handsOwn_iff h
  | _ => exact Iff.rfl

theorem faithful_iff_plain_read :
    Meets (step defaultEntries) (Faithful defaultEntries) init [.submit (.readAsync 3 8 0 7) 1] :=
  (faithful_iff_plain defaultEntries [.submit (.readAsync 3 8 0 7) 1]
    (by simp [InRange, Submission.userData])).mpr
    ⟨fun _ _ => ⟨by decide, fun _ => rfl⟩, fun _ _ => trivial⟩

/-- A read with the tag 2^63 is submitted, and raises. -/
theorem tag_lost : InRange (.submit (.readAsync 3 8 0 (2 ^ 63)) 1) ∧
    ¬ Meets (step defaultEntries) (Faithful defaultEntries) init
      [.submit (.readAsync 3 8 0 (2 ^ 63)) 1] :=
  ⟨by simp [InRange, Submission.userData],
    fun h => absurd (h.1 (by decide) (by decide)) (by decide)⟩

end AsyncSession
end Native
end Pyuring
