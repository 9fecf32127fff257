import Pyuring.Native.AsyncSession

/-!
# Buffers stay pinned

The buffer of a `read_async` or `write_async` must be referenced from `_async_io_keepalive`
for as long as the request is in flight.  It is not, when a request gets into flight without
a pin, when a completion takes away the pin of another request, or when `close` clears the
table.

## What is proved

`pinned_iff_safe`: in every run of the asynchronous calls, `close` included, the buffers are
pinned at every point at which the ring exists exactly when every step is `Safe`, and so a
step that is not safe leaves a buffer of a request in flight without its pin.
-/

namespace Pyuring
namespace Native
namespace AsyncSession

open UringCtx CompletionRing Trace

/-- The request with number `n` was handed over and its completion was not handed out. -/
def InFlight (u : State) (n : ℕ) : Prop :=
  (∃ q ∈ u.ring.outstanding, q.serial = n) ∨ ∃ c ∈ u.ring.completed, c.1.serial = n

/-- While the ring exists, the buffer of every request in flight that has one is pinned. -/
def Pinned (s : Session) : Prop :=
  s.life ≠ .destroyed → ∀ r ∈ s.requests, r.tracked = true → InFlight s.ctx r.serial →
    ∃ p ∈ s.ctx.asyncIoKeepalive, p.2 = r.serial

/-- The completion that is handed out next does not carry a tag under which the buffer of another
request in flight is pinned. -/
def Harmless (s : Session) : Prop :=
  ∀ c cs, s.ctx.ring.completed = c :: cs → ∀ r ∈ s.requests, r.tracked = true →
    r.serial ≠ c.1.serial → InFlight s.ctx r.serial →
    ((c.1.userData.toNat : ℤ), r.serial) ∉ s.ctx.asyncIoKeepalive

instance (u : State) (n : ℕ) : Decidable (InFlight u n) := inferInstanceAs (Decidable (_ ∨ _))

variable (cfg : Config)

/-- A submission that goes through hands over no entry with a buffer that an earlier one left
behind, and has a tag below 2^63 that is not in use if it has a buffer itself; a completion
is handed out that is harmless; and the context is closed with no buffer in flight. -/
def Safe (s : Session) : Action → Prop
  | .submit sub submitRet => s.ctx.ring.queued.length < cfg.sqEntries → 0 ≤ submitRet →
      (∀ q ∈ s.ctx.ring.queued, ∀ r ∈ s.requests, r.tracked = true → r.serial ≠ q.serial) ∧
        (sub.tracked = true → sub.userData % 2 ^ 64 < 2 ^ 63 ∧
          s.ctx.asyncIoKeepalive.lookup sub.userData = none)
  | .waitCompletion waitRet => 0 ≤ waitRet → Harmless s
  | .peekCompletion peekRet => 0 ≤ peekRet → Harmless s
  | .close => ∀ r ∈ s.requests, r.tracked = true → ¬ InFlight s.ctx r.serial
  | _ => True

/-- No tag is that of two requests in flight that have buffers. -/
def UniqueTags (s : Session) : Prop :=
  ∀ r ∈ s.requests, ∀ r' ∈ s.requests, r.tracked = true → r'.tracked = true →
    InFlight s.ctx r.serial → InFlight s.ctx r'.serial → r.userData = r'.userData →
    r.serial = r'.serial

instance : DecidablePred UniqueTags := fun s =>
  inferInstanceAs (Decidable (∀ r ∈ s.requests, ∀ r' ∈ s.requests, _))

/-- The entries of requests that post one completion, by number. -/
def oneShots (u : State) : Multiset ℕ :=
  (u.ring.pending.filter fun q => q.posts = .one).map fun q => q.serial

/-- What the pins rest on: an entry with a buffer posts one completion, and it is not pinned
before it is handed over. -/
structure Orderly (s : Session) : Prop where
  recorded : Recorded s
  nodup : (oneShots s.ctx).Nodup
  posts : ∀ q ∈ s.ctx.ring.pending, ∀ r ∈ s.requests, r.tracked = true → r.serial = q.serial →
    q.posts = .one
  queued : ∀ q ∈ s.ctx.ring.queued, ∀ p ∈ s.ctx.asyncIoKeepalive, p.2 ≠ q.serial

variable {cfg} {s t : Session} {u v : State}

/-! ## Requests in flight -/

theorem InFlight.exists_pending {n : ℕ} (h : InFlight u n) : ∃ q ∈ u.ring.pending, q.serial = n := by
  rcases h with ⟨q, hq, hn⟩ | ⟨c, hc, hn⟩
  · exact ⟨q, mem_pending.mpr (Or.inr (Or.inl hq)), hn⟩
  · exact ⟨c.1, mem_pending.mpr (Or.inr (Or.inr ⟨c.2, hc⟩)), hn⟩

/-- The kernel brings no request into flight. -/
theorem complete_frame {i : ℕ} {res : ℤ} {more : Bool} (h : u.complete i res more = some v) :
    v.ring.queued = u.ring.queued ∧ (∀ n, InFlight v n → InFlight u n) ∧
      oneShots v = oneShots u := by
  unfold State.complete at h
  split at h
  · exact absurd h (by simp)
  next q hq =>
  split at h
  swap
  · exact absurd h (by simp)
  next hallows =>
  obtain ⟨⟨q', ring⟩, hring, rfl⟩ := Option.map_eq_some_iff.mp h
  cases more with
  | false =>
    have hpending := pending_complete (show u.ring.complete i res = some (q', ring) from hring)
    obtain ⟨hq', rfl⟩ := complete_eq_some.mp hring
    refine ⟨rfl, ?_, by simp only [oneShots, hpending]⟩
    intro n hn
    rcases hn with ⟨p, hp, hn⟩ | ⟨c, hc, hn⟩
    · exact Or.inl ⟨p, List.mem_of_mem_eraseIdx hp, hn⟩
    · rcases List.mem_append.mp hc with hc | hc
      · exact Or.inr ⟨c, hc, hn⟩
      · rw [List.mem_singleton.mp hc] at hn
        exact Or.inl ⟨q', List.mem_of_getElem? hq', hn⟩
  | true =>
    have hpending := pending_post hring
    obtain ⟨hq', rfl⟩ := post_eq_some.mp hring
    obtain rfl := Option.some.inj (hq.symm.trans hq')
    have hmany : q.posts ≠ .one := fun hone => by simp [hone, Posts.allows] at hallows
    refine ⟨rfl, ?_, ?_⟩
    · intro n hn
      rcases hn with ⟨p, hp, hn⟩ | ⟨c, hc, hn⟩
      · rcases List.mem_or_eq_of_mem_set hp with hp | rfl
        · exact Or.inl ⟨p, hp, hn⟩
        · exact Or.inl ⟨q, List.mem_of_getElem? hq, hn⟩
      · rcases List.mem_append.mp hc with hc | hc
        · exact Or.inr ⟨c, hc, hn⟩
        · rw [List.mem_singleton.mp hc] at hn
          exact Or.inl ⟨q, List.mem_of_getElem? hq, hn⟩
    · rw [oneShots, hpending, Multiset.filter_cons_of_neg _ (by exact hmany)]
      rfl

/-- Handing out a completion takes its request out of flight, when it posts but one. -/
theorem not_inFlight_hand {c : CtxSqe × ℤ} {cs : List (CtxSqe × ℤ)} (hnodup : (oneShots u).Nodup)
    (hcs : u.ring.completed = c :: cs) (hone : ∀ q ∈ u.ring.pending, q.serial = c.1.serial →
      q.posts = .one) : ¬ InFlight (u.hand c cs) c.1.serial := by
  intro hflight
  obtain ⟨q, hq, hserial⟩ := hflight.exists_pending
  have hpending := pending_reap (reap_eq_some.mpr ⟨cs, hcs, rfl⟩)
  have hmem : c.1 ∈ u.ring.pending := by rw [hpending]; exact Multiset.mem_cons_self _ _
  have hq' : q ∈ u.ring.pending := by rw [hpending]; exact Multiset.mem_cons_of_mem hq
  rw [oneShots, hpending, Multiset.filter_cons_of_pos _ (by exact hone _ hmem rfl),
    Multiset.map_cons, Multiset.nodup_cons] at hnodup
  exact hnodup.1
    (Multiset.mem_map.mpr ⟨q, Multiset.mem_filter.mpr ⟨hq, hone q hq' hserial⟩, hserial⟩)

/-- Handing out a completion leaves the other requests in flight. -/
theorem inFlight_hand_iff {c : CtxSqe × ℤ} {cs : List (CtxSqe × ℤ)} {n : ℕ}
    (hcs : u.ring.completed = c :: cs) (hne : n ≠ c.1.serial) :
    InFlight (u.hand c cs) n ↔ InFlight u n := by
  refine or_congr Iff.rfl ⟨fun ⟨d, hd, hn⟩ => ⟨d, by rw [hcs]; exact List.mem_cons_of_mem _ hd, hn⟩,
    ?_⟩
  rintro ⟨d, hd, hn⟩
  rw [hcs] at hd
  rcases List.mem_cons.mp hd with rfl | hd
  · exact absurd hn.symm hne
  · exact ⟨d, hd, hn⟩

/-! ## Submissions -/

theorem InFlight.lt_serial (h : Recorded s) {n : ℕ} (hn : InFlight s.ctx n) : n < s.ctx.serial := by
  obtain ⟨q, hq, rfl⟩ := hn.exists_pending
  exact h.fresh q hq

/-- A submission that is not accepted hands nothing over. -/
theorem submits_refused {op : SqeOp} {posts : Posts} {userData : ℤ} {tracked : Bool}
    {submitRet : ℤ} (h : Submits cfg op posts userData tracked submitRet u v)
    (hrefused : u.ring.queued.length < cfg.sqEntries → submitRet < 0) :
    (∀ n, InFlight v n ↔ InFlight u n) ∧ v.asyncIoKeepalive = u.asyncIoKeepalive := by
  cases h with
  | full => exact ⟨fun _ => Iff.rfl, rfl⟩
  | fails => exact ⟨fun _ => Iff.rfl, rfl⟩
  | negative hroom hret => exact absurd (hrefused hroom) (Int.not_lt.mpr hret)
  | clash hroom hret => exact absurd (hrefused hroom) (Int.not_lt.mpr hret)
  | pins hroom hret => exact absurd (hrefused hroom) (Int.not_lt.mpr hret)
  | plain hroom hret => exact absurd (hrefused hroom) (Int.not_lt.mpr hret)

/-- Its own entry gets into flight, and whatever was queued before. -/
theorem inFlight_submitted {q : CtxSqe} {n : ℕ} : InFlight (u.submitted q) n ↔
    InFlight u n ∨ (∃ p ∈ u.ring.queued, p.serial = n) ∨ q.serial = n := by
  simp only [InFlight, State.submitted, State.withTaken, outstanding_submit, completed_submit,
    List.mem_append, List.mem_singleton, or_and_right, exists_or, exists_eq_left]
  exact or_right_comm

/-- An accepted submission pins its buffer, if it has one and the tag is good for it. -/
theorem submits_accepted {op : SqeOp} {posts : Posts} {userData : ℤ} {tracked : Bool}
    {submitRet : ℤ} (h : Submits cfg op posts userData tracked submitRet u v)
    (hroom : u.ring.queued.length < cfg.sqEntries) (hret : 0 ≤ submitRet) :
    v.ring.queued = [] ∧
      (∀ n, InFlight v n ↔
        InFlight u n ∨ (∃ p ∈ u.ring.queued, p.serial = n) ∨ u.serial = n) ∧
      ((tracked = true ∧ userData % 2 ^ 64 < 2 ^ 63 ∧ u.asyncIoKeepalive.lookup userData = none ∧
          v.asyncIoKeepalive = (userData, u.serial) :: u.asyncIoKeepalive) ∨
        (¬ (tracked = true ∧ userData % 2 ^ 64 < 2 ^ 63 ∧
            u.asyncIoKeepalive.lookup userData = none) ∧
          v.asyncIoKeepalive = u.asyncIoKeepalive)) := by
  have hflight : ∀ n, InFlight (u.submitted (u.asyncEntry op posts userData)) n ↔
      InFlight u n ∨ (∃ p ∈ u.ring.queued, p.serial = n) ∨ u.serial = n :=
    fun _ => inFlight_submitted
  have htag := signedTag_neg_iff userData
  cases h with
  | full hfull => exact absurd hroom (Nat.not_lt.mpr hfull)
  | fails _ hneg => exact absurd hret (Int.not_le.mpr hneg)
  | negative _ _ hneg =>
    refine ⟨rfl, hflight, Or.inr ⟨?_, rfl⟩⟩
    intro hgood
    have hge := htag.mp hneg
    omega
  | clash _ _ _ _ hpinned =>
    refine ⟨rfl, hflight, Or.inr ⟨?_, rfl⟩⟩
    intro hgood
    rw [hgood.2.2] at hpinned
    exact absurd hpinned (by simp)
  | pins _ _ hnonneg htracked hfree =>
    exact ⟨rfl, hflight, Or.inl ⟨htracked, by omega, hfree, rfl⟩⟩
  | plain _ _ _ huntracked =>
    exact ⟨rfl, hflight, Or.inr ⟨fun hgood => by simp [huntracked] at hgood, rfl⟩⟩

/-! ## The invariant -/

theorem orderly_init : Orderly init :=
  ⟨recorded_init, Multiset.nodup_zero, by simp [init, State.init], by simp [init, State.init]⟩

/-- A step that takes no entry and pins nothing. -/
theorem Orderly.carry (h : Orderly s) {ctx : State} {life : Life}
    (hrec : Recorded ⟨ctx, s.requests, life⟩)
    (hmem : ∀ q ∈ ctx.ring.pending, ∃ q' ∈ s.ctx.ring.pending,
      q'.serial = q.serial ∧ q'.toPrep = q.toPrep)
    (hones : oneShots ctx ≤ oneShots s.ctx) (hqueued : ctx.ring.queued = s.ctx.ring.queued)
    (hpins : ctx.asyncIoKeepalive ⊆ s.ctx.asyncIoKeepalive) :
    Orderly ⟨ctx, s.requests, life⟩ := by
  refine ⟨hrec, Multiset.nodup_of_le hones h.nodup, ?_,
    fun q hq p hp => h.queued q (hqueued ▸ hq) p (hpins hp)⟩
  intro q hq r hr htracked heq
  obtain ⟨q', hq', hserial, hprep⟩ := hmem q hq
  rw [← hprep]
  exact h.posts q' hq' r hr htracked (heq.trans hserial.symm)

/-- The entries queued after a submission. -/
theorem mem_queued_of_submits {op : SqeOp} {posts : Posts} {userData : ℤ} {tracked : Bool}
    {submitRet : ℤ} (h : Submits cfg op posts userData tracked submitRet u v) {q : CtxSqe}
    (hq : q ∈ v.ring.queued) : v.asyncIoKeepalive = u.asyncIoKeepalive ∧
      (q ∈ u.ring.queued ∨ q.serial = u.serial) := by
  cases h with
  | full => exact ⟨rfl, Or.inl hq⟩
  | fails =>
    refine ⟨rfl, (List.mem_append.mp hq).imp_right ?_⟩
    intro hq
    rw [List.mem_singleton.mp hq]
    rfl
  | negative => exact absurd hq List.not_mem_nil
  | clash => exact absurd hq List.not_mem_nil
  | pins => exact absurd hq List.not_mem_nil
  | plain => exact absurd hq List.not_mem_nil

theorem Submission.posts_of_tracked {sub : Submission} (h : sub.tracked = true) :
    sub.posts = .one := by
  cases sub <;> first | rfl | exact absurd h (by simp [Submission.tracked])

theorem Recorded.pin_lt (h : Recorded s) {p : ℤ × ℕ} (hp : p ∈ s.ctx.asyncIoKeepalive) :
    p.2 < s.ctx.serial := by
  obtain ⟨r, hr, heq, -⟩ := h.pins p hp
  exact heq ▸ h.serials r hr

theorem Orderly.submit (h : Orderly s) {sub : Submission} {submitRet : ℤ} {ctx : State}
    (hsub : Submits cfg sub.op sub.posts sub.userData sub.tracked submitRet s.ctx ctx) :
    Orderly ⟨ctx, s.request cfg sub ++ s.requests, s.life⟩ := by
  have hrec := h.recorded.submit hsub
  have hqueued : ∀ q ∈ ctx.ring.queued, ∀ p ∈ ctx.asyncIoKeepalive, p.2 ≠ q.serial := by
    intro q hq p hp
    obtain ⟨hkeep, hold | hnew⟩ := mem_queued_of_submits hsub hq <;> rw [hkeep] at hp
    · exact h.queued q hold p hp
    · exact hnew ▸ Nat.ne_of_lt (h.recorded.pin_lt hp)
  rcases hsub.pending with ⟨hfull, -, hpending⟩ | ⟨hroom, -, hpending⟩
  · have hnone : s.request cfg sub = [] := if_neg (Nat.not_lt.mpr hfull)
    rw [hnone] at hrec ⊢
    refine ⟨hrec, ?_, ?_, hqueued⟩
    · simp only [oneShots, hpending]
      exact h.nodup
    · intro q hq
      rw [hpending] at hq
      exact h.posts q hq
  have hone : s.request cfg sub = [⟨s.ctx.serial, sub.userData, sub.tracked⟩] := if_pos hroom
  rw [hone, List.singleton_append] at hrec ⊢
  refine ⟨hrec, ?_, ?_, hqueued⟩
  · simp only [oneShots, hpending]
    by_cases hposts : sub.posts = .one
    · rw [Multiset.filter_cons_of_pos _ (by exact hposts), Multiset.map_cons, Multiset.nodup_cons]
      refine ⟨?_, h.nodup⟩
      intro hmem
      obtain ⟨q, hq, heq⟩ := Multiset.mem_map.mp hmem
      exact absurd heq (Nat.ne_of_lt (h.recorded.fresh q (Multiset.mem_filter.mp hq).1))
    · rw [Multiset.filter_cons_of_neg _ (by exact hposts)]
      exact h.nodup
  · intro q hq r hr htracked heq
    simp only at hq
    rw [hpending, Multiset.mem_cons] at hq
    rcases hq with rfl | hq <;> rcases List.mem_cons.mp hr with rfl | hr
    · exact Submission.posts_of_tracked htracked
    · exact absurd heq (Nat.ne_of_lt (h.recorded.serials r hr))
    · exact absurd heq.symm (Nat.ne_of_lt (h.recorded.fresh q hq))
    · exact h.posts q hq r hr htracked heq

theorem Orderly.step (h : Orderly s) {a : Action} (ha : a.ofSync = false)
    (ht : step cfg s a = some t) : Orderly t := by
  have hrec := h.recorded.step ht
  cases step_cases ht with
  | submit _ hsub => exact h.submit hsub
  | complete hcomplete =>
    obtain ⟨-, -, hpins, hmem⟩ := complete_cases hcomplete
    obtain ⟨hqueued, -, hones⟩ := complete_frame hcomplete
    exact h.carry hrec hmem hones.le hqueued (by rw [hpins]; exact List.Subset.refl _)
  | @hand _ c cs _ _ hcs =>
    have hpending := pending_reap (reap_eq_some.mpr ⟨cs, hcs, rfl⟩)
    refine h.carry hrec (fun q hq => ⟨q, mem_pending_of_reaped hcs hq, rfl, rfl⟩) ?_ rfl
      List.filter_sublist.subset
    refine Multiset.map_le_map (Multiset.filter_le_filter _ ?_)
    rw [hpending]
    exact Multiset.le_cons_self _ _
  | nothing => exact h
  | sync hsync => exact absurd (hsync.symm.trans ha) (by simp)
  | close => exact h.carry hrec (fun q hq => ⟨q, hq, rfl, rfl⟩) le_rfl rfl (List.nil_subset _)
  | destroy => exact h.carry hrec (fun q hq => ⟨q, hq, rfl, rfl⟩) le_rfl rfl (List.Subset.refl _)

/-! ## One step -/

/-- An accepted submission is safe exactly when everything it hands over is pinned. -/
theorem pinned_submit_iff (h : Orderly s) (hpinned : Pinned s) (hopen : s.life = .opened)
    {sub : Submission} {submitRet : ℤ} {ctx : State}
    (hsub : Submits cfg sub.op sub.posts sub.userData sub.tracked submitRet s.ctx ctx) :
    Pinned ⟨ctx, s.request cfg sub ++ s.requests, s.life⟩ ↔
      Safe cfg s (.submit sub submitRet) := by
  have hlife : s.life ≠ .destroyed := by simp [hopen]
  by_cases haccept : s.ctx.ring.queued.length < cfg.sqEntries ∧ 0 ≤ submitRet
  swap
  · obtain ⟨hflight, hkeep⟩ := submits_refused hsub fun hroom =>
      Int.not_le.mp fun hret => haccept ⟨hroom, hret⟩
    refine iff_of_true ?_ fun hroom hret => absurd ⟨hroom, hret⟩ haccept
    intro _ r hr htracked hin
    simp only [hkeep]
    rw [hflight] at hin
    rcases List.mem_append.mp hr with hr | hr
    · unfold Session.request at hr
      split at hr
      · rw [List.mem_singleton.mp hr] at hin
        exact absurd (hin.lt_serial h.recorded) (Nat.lt_irrefl _)
      · exact absurd hr List.not_mem_nil
    · exact hpinned hlife r hr htracked hin
  obtain ⟨hroom, hret⟩ := haccept
  obtain ⟨-, hflight, hkeep⟩ := submits_accepted hsub hroom hret
  have hone : s.request cfg sub = [⟨s.ctx.serial, sub.userData, sub.tracked⟩] := if_pos hroom
  -- old pins are not those of the new entry
  have hold : ∀ p ∈ s.ctx.asyncIoKeepalive, p.2 ≠ s.ctx.serial := fun p hp =>
    Nat.ne_of_lt (h.recorded.pin_lt hp)
  rw [hone, List.singleton_append]
  constructor
  · intro hall _ _
    refine ⟨?_, ?_⟩
    · intro q hq r hr htracked heq
      obtain ⟨p, hp, hserial⟩ := hall hlife r (List.mem_cons_of_mem _ hr) htracked
        ((hflight _).mpr (Or.inr (Or.inl ⟨q, hq, heq.symm⟩)))
      rcases hkeep with ⟨-, -, -, hkeep⟩ | ⟨-, hkeep⟩ <;> simp only [hkeep] at hp
      · rcases List.mem_cons.mp hp with rfl | hp
        · exact absurd hserial.symm (Nat.ne_of_lt (h.recorded.serials r hr))
        · exact h.queued q hq p hp (hserial.trans heq)
      · exact h.queued q hq p hp (hserial.trans heq)
    · intro htracked
      rcases hkeep with ⟨-, htag, hfree, -⟩ | ⟨-, hkeep⟩
      · exact ⟨htag, hfree⟩
      · obtain ⟨p, hp, hserial⟩ := hall hlife _ List.mem_cons_self htracked
          ((hflight _).mpr (Or.inr (Or.inr rfl)))
        simp only [hkeep] at hp
        exact absurd hserial (hold p hp)
  · intro hsafe _ r hr htracked hin
    obtain ⟨hleft, hgood⟩ := hsafe hroom hret
    rcases List.mem_cons.mp hr with rfl | hr
    · rcases hkeep with ⟨-, -, -, hkeep⟩ | ⟨hbad, -⟩
      · exact ⟨_, by simp only [hkeep]; exact List.mem_cons_self, rfl⟩
      · exact absurd ⟨htracked, hgood htracked⟩ hbad
    · have hpin : ∃ p ∈ s.ctx.asyncIoKeepalive, p.2 = r.serial := by
        rcases (hflight _).mp hin with hin | ⟨q, hq, heq⟩ | heq
        · exact hpinned hlife r hr htracked hin
        · exact absurd heq.symm (hleft q hq r hr htracked)
        · exact absurd heq.symm (Nat.ne_of_lt (h.recorded.serials r hr))
      obtain ⟨p, hp, hserial⟩ := hpin
      refine ⟨p, ?_, hserial⟩
      rcases hkeep with ⟨-, -, -, hkeep⟩ | ⟨-, hkeep⟩ <;> simp only [hkeep]
      · exact List.mem_cons_of_mem _ hp
      · exact hp

/-- A completion is handed out safely exactly when everybody else's pin stays. -/
theorem pinned_hand_iff (h : Orderly s) (hpinned : Pinned s) (hopen : s.life = .opened)
    {c : CtxSqe × ℤ} {cs : List (CtxSqe × ℤ)} (hcs : s.ctx.ring.completed = c :: cs) :
    Pinned { s with ctx := s.ctx.hand c cs } ↔ Harmless s := by
  have hlife : s.life ≠ .destroyed := by simp [hopen]
  constructor
  · intro hall c' cs' hcs' r hr htracked hne hin hpin
    obtain ⟨rfl, rfl⟩ := List.cons.inj (hcs.symm.trans hcs')
    obtain ⟨p, hp, hserial⟩ := hall hlife r hr htracked ((inFlight_hand_iff hcs hne).mpr hin)
    obtain ⟨hp, hkey⟩ := List.mem_filter.mp hp
    -- the request has one pin, and it is under the tag
    have heq := List.inj_on_of_nodup_map h.recorded.pinned_once hp hpin hserial
    exact of_decide_eq_true hkey (congrArg Prod.fst heq)
  · intro hharmless _ r hr htracked hin
    by_cases heq : r.serial = c.1.serial
    · refine absurd hin ?_
      simp only [heq]
      refine not_inFlight_hand h.nodup hcs ?_
      intro q hq hserial
      exact h.posts q hq r hr htracked (heq.trans hserial.symm)
    · have hin := (inFlight_hand_iff hcs heq).mp hin
      obtain ⟨p, hp, hserial⟩ := hpinned hlife r hr htracked hin
      refine ⟨p, List.mem_filter.mpr ⟨hp, decide_eq_true ?_⟩, hserial⟩
      intro hkey
      have hpair : ((c.1.userData.toNat : ℤ), r.serial) = p := Prod.ext hkey.symm hserial.symm
      exact hharmless c cs hcs r hr htracked heq hin (hpair ▸ hp)

/-- What there is to fear from a call that may hand out a completion. -/
theorem safe_iff_harmless {a : Action} (hact : a.mayHand = true) : Safe cfg s a ↔ Harmless s := by
  cases a with
  | waitCompletion waitRet => exact forall_prop_of_true (of_decide_eq_true hact)
  | peekCompletion peekRet => exact forall_prop_of_true (of_decide_eq_true hact)
  | _ => exact absurd hact (by simp [Action.mayHand])

theorem pinned_step_iff (h : Orderly s) (hpinned : Pinned s) {a : Action} (ha : a.ofSync = false)
    (ht : step cfg s a = some t) : Pinned t ↔ Safe cfg s a := by
  cases step_cases ht with
  | submit hopen hsub => exact pinned_submit_iff h hpinned hopen hsub
  | complete hcomplete =>
    obtain ⟨-, -, hpins, -⟩ := complete_cases hcomplete
    obtain ⟨-, hflight, -⟩ := complete_frame hcomplete
    refine iff_of_true ?_ trivial
    intro hlife r hr htracked hin
    simp only [hpins]
    exact hpinned hlife r hr htracked (hflight _ hin)
  | hand hopen hact hcs => rw [pinned_hand_iff h hpinned hopen hcs, safe_iff_harmless hact]
  | nothing hact hquiet hclose =>
    refine iff_of_true hpinned ?_
    have hnone : a.mayHand = true → Harmless s := fun hmay c cs hcs =>
      absurd ((hact hmay).symm.trans hcs) (by simp)
    cases a with
    | submit sub submitRet => exact absurd rfl (hquiet sub submitRet)
    | waitCompletion waitRet => exact fun hret => hnone (decide_eq_true hret)
    | peekCompletion peekRet => exact fun hret => hnone (decide_eq_true hret)
    | close => exact absurd rfl hclose
    | _ => trivial
  | sync hsync => exact absurd (hsync.symm.trans ha) (by simp)
  | close =>
    constructor
    · intro hall r hr htracked hin
      obtain ⟨p, hp, -⟩ := hall (by simp) r hr htracked hin
      exact absurd hp List.not_mem_nil
    · intro hsafe _ r hr htracked hin
      exact absurd hin (hsafe r hr htracked)
  | destroy => exact iff_of_true (fun hlife => absurd rfl hlife) trivial

/-! ## Whole runs -/

/-- **Exactly when buffers stay pinned**: in a run of asynchronous calls on a context, up to
its `close`, the buffer of every request in flight is pinned at every point before the ring is
destroyed, if and only if no submission hands over what it or an earlier one cannot pin, no
completion is handed out under the key of another request's pin, and the context is closed with
no buffer in flight. -/
theorem pinned_iff_safe (cfg : Config) (actions : List Action) (s : Session)
    (hactions : ∀ a ∈ actions, a.ofSync = false) (h : exec (step cfg) init actions = some s) :
    Always (step cfg) Pinned init actions ↔ Meets (step cfg) (Safe cfg) init actions := by
  refine always_iff_meets (I := fun s => Orderly s ∧ Pinned s) (fun s hI => hI.2)
    ?_ ⟨orderly_init, by simp [Pinned, init]⟩ hactions h
  intro s a t hI ha ht
  have hiff := pinned_step_iff hI.1 hI.2 ha ht
  by_cases hsafe : Safe cfg s a
  · exact Or.inl ⟨hsafe, hI.1.step ha ht, hiff.mpr hsafe⟩
  · exact Or.inr ⟨hsafe, fun hpinned => hsafe (hiff.mp hpinned)⟩

theorem pinned_iff_safe_read :
    Always (step defaultEntries) Pinned init
        [.submit (.readAsync 3 8 0 7) 1, .complete 0 8 false, .waitCompletion 0, .close] ↔
      Meets (step defaultEntries) (Safe defaultEntries) init
        [.submit (.readAsync 3 8 0 7) 1, .complete 0 8 false, .waitCompletion 0, .close] :=
  pinned_iff_safe defaultEntries _ _ (by decide) rfl

/-- A read into a buffer and a read into memory of the caller's are in flight, both with the
default tag 0.  The completion of the second is handed out, and the first is in flight without
a pin. -/
theorem buffer_unpinned : ¬ ∀ (cfg : Config) (actions : List Action) (s : Session),
    (∀ a ∈ actions, a.ofSync = false) → exec (step cfg) init actions = some s →
    Always (step cfg) UniqueTags init actions → Pinned s := by
  intro h
  have hpinned := h defaultEntries [.submit (.readAsync 3 8 0 0) 1, .submit (.readAsyncPtr 4 8 0 0) 1,
    .complete 1 8 false, .waitCompletion 0] _ (by decide) rfl (by decide)
  exact absurd (hpinned (by decide) ⟨0, 0, true⟩ (by decide) rfl (by decide)) (by decide)

end AsyncSession
end Native
end Pyuring
