import Pyuring.Native.CopyPathExact

/-!
# The accounts of the copy loop

What the loop of `uring_copy_path_dynamic` keeps account of, in every run: the slots, the
ranges of the file that it has reserved, and `inflight`.  Two things follow.  A slot's buffer
is not read into while a write from it is outstanding; and the two checks with which the loop
guards itself, that a completion names a slot in use (`-EIO`) and that there is room in the
submission queue (`-EAGAIN`), never fail.

The second is a statement about runs: where no call and no request answers with `r`, the
function returns such an `r` only if the set-up did.
-/

namespace Pyuring
namespace Native
namespace CopyPath

open CompletionRing Trace

/-- The part of the file that was reserved for the piece. -/
def reservedRange (c : Span) : Set ℕ := Set.Ico c.off (c.off + c.len)

/-- The accounts are in order. -/
structure Accounted (cfg : Config) (s : State) : Prop where
  slot_lt : ∀ q ∈ s.ring.pending, q.buf < cfg.qd
  single : ∀ slot, Multiset.card (s.ring.pending.filter fun q => q.buf = slot) ≤ 1
  active : ∀ q ∈ s.ring.pending, (s.slots q.buf).active = true
  disjoint : (spans s.log).Pairwise fun c d => Disjoint (reservedRange c) (reservedRange d)
  reserved : ∀ p, p < s.nextOff ↔ ∃ c ∈ spans s.log, p ∈ reservedRange c
  inflight : s.inflight = Multiset.card s.ring.pending
  le_qd : s.inflight ≤ cfg.qd
  apart : ∀ q ∈ s.ring.pending, ∀ q' ∈ s.ring.pending, q.opcode = .write → q'.opcode = .read →
    q'.buf ≠ q.buf

/-- An errno that the loop's own checks return. -/
def OwnCheck (r : ℤ) : Prop := r = EIO.neg ∨ r = EAGAIN.neg

/-- The outside world answers with `r`. -/
def AnswersWith (r : ℤ) : Event → Prop
  | .complete _ res => res = r
  | .prime submitRet => submitRet = r
  | .iterate waitRet submitRet => waitRet = r ∨ submitRet = r
  | .finish _ fsyncErr => fsyncErr.map Errno.neg = some r
  | .cleanup => False

/-- No completion has `r` for its result, and the function does not return it. -/
def Unheard (r : ℤ) (s : State) : Prop :=
  match s.phase with
  | .priming => True
  | .loop => ∀ x ∈ s.ring.completed, x.2 ≠ r
  | .out => s.ret ≠ r
  | .returned r' => r' ≠ r

variable {cfg : Config} {s t : State}

/-! ## Slots and ranges -/

/-- Requests with slots of their own are no more than there are slots. -/
theorem card_le_of_nodup {m : Multiset ℕ} {n : ℕ} (hnodup : m.Nodup) (hlt : ∀ i ∈ m, i < n) :
    Multiset.card m ≤ n := by
  have hle : m ≤ Multiset.range n :=
    (Multiset.le_iff_subset hnodup).mpr fun i hi => Multiset.mem_range.mpr (hlt i hi)
  exact (Multiset.card_le_card hle).trans_eq (Multiset.card_range n)

/-- The pieces that tile the file up to `next_off` are apart, and cover it up to there. -/
theorem disjoint_of_tiles {cs : List Span} {a b : ℕ} (h : Tiles a cs b) :
    cs.Pairwise fun c d => Disjoint (reservedRange c) (reservedRange d) := by
  refine h.pairwise.imp ?_
  intro c d hle
  exact Set.Ico_disjoint_Ico.mpr ((min_le_left _ _).trans (hle.trans (le_max_right _ _)))

theorem Accounts.accounted (h : Accounts cfg s) : Accounted cfg s where
  slot_lt := h.slot_lt
  single slot := by
    have hcount := Multiset.nodup_iff_count_le_one.mp h.slots_nodup slot
    rw [Multiset.count_map] at hcount
    simpa only [eq_comm] using hcount
  active := h.active
  disjoint := disjoint_of_tiles h.tiles
  reserved p := by
    constructor
    · intro hp
      obtain ⟨c, hc, hoff, hlt⟩ := h.tiles.exists_mem (Nat.zero_le p) hp
      exact ⟨c, hc, hoff, hlt⟩
    · rintro ⟨c, hc, -, hlt⟩
      exact Nat.lt_of_lt_of_le hlt (h.tiles.bounds hc).2.1
  inflight := h.inflight
  le_qd := by
    rw [h.inflight, ← Multiset.card_map Sqe.buf]
    refine card_le_of_nodup h.slots_nodup ?_
    intro i hi
    obtain ⟨q, hq, rfl⟩ := Multiset.mem_map.mp hi
    exact h.slot_lt q hq
  apart q hq q' hq' hwrite hread heq := by
    have := Multiset.inj_on_of_nodup_map h.slots_nodup q' hq' q hq heq
    rw [this, hwrite] at hread
    exact absurd hread (by simp)

/-! ## What the function returns -/

theorem ret_submit {r : ℤ} (hout : (s.submit r).phase = .out) : (s.submit r).ret = r := by
  rcases Int.lt_or_le r 0 with hr | hr
  · rw [submit_of_neg hr]
    rfl
  · rw [submit_of_nonneg hr] at hout
    exact absurd hout (by simp)

/-- Where there is room, handling a completion leaves the loop with what was answered. -/
theorem ret_onCqe {q : Sqe} {res r : ℤ} (hq : Reaped cfg s q res)
    (hroom : s.ring.queued.length < cfg.sqEntries) (hphase : s.phase = .loop) :
    (onCqe cfg q.userData res r s).phase = .out →
      (onCqe cfg q.userData res r s).ret = res ∨ (onCqe cfg q.userData res r s).ret = r ∨
        (onCqe cfg q.userData res r s).ret = ECANCELED.neg := by
  have hin : ∀ {u : State}, u.phase = s.phase → u.phase ≠ .out := by
    intro u hu
    rw [hu, hphase]
    simp
  simp only [onCqe, hq.slot_eq]
  rw [if_neg (not_or.mpr ⟨Nat.not_le.mpr hq.slot_lt, by simp [hq.active]⟩)]
  split
  · exact fun _ => Or.inl rfl
  split
  · rcases onRead_cases cfg q.buf res r s with ⟨-, heq⟩ | ⟨hfull, -⟩ | ⟨-, heq⟩
    · rw [heq]
      exact fun hout => absurd hout (hin rfl)
    · exact absurd hfull (Nat.not_le.mpr hroom)
    · rw [heq]
      exact fun hout => Or.inr (Or.inl (ret_submit hout))
  · obtain ⟨cancel, n, log, -, -, -, hrep⟩ := report_cases cfg { s with
      copied := s.copied + res.toNat }
    simp only [onWrite, hrep]
    split
    · exact fun _ => Or.inr (Or.inr rfl)
    split
    · rcases enqueueRead_cases cfg q.buf { s with
        copied := s.copied + res.toNat, reports := n, log := log } with ⟨hfull, -⟩ | ⟨-, heq⟩
      · exact absurd hfull (Nat.not_le.mpr hroom)
      · rw [heq, State.andSubmit, if_neg (hin rfl)]
        exact fun hout => Or.inr (Or.inl (ret_submit hout))
    · exact fun hout => absurd hout (hin rfl)

/-- So does a whole iteration. -/
theorem ret_iterate (h : Looping cfg s) (hroom : 0 < cfg.sqEntries) (hphase : s.phase = .loop)
    {w r : ℤ} (ht : iterate cfg w r s = some t) (hout : t.phase = .out) :
    t.ret = w ∨ t.ret = r ∨ (∃ x ∈ s.ring.completed, t.ret = x.2) ∨ t.ret = ECANCELED.neg := by
  unfold iterate at ht
  split at ht
  · rw [← Option.some.inj ht]
    exact Or.inl rfl
  obtain ⟨⟨⟨q, res⟩, ring⟩, hreap, rfl⟩ := Option.map_eq_some_iff.mp ht
  have hq := reaped (w := w) hreap h.accounts h.moves
  obtain ⟨cs, hcs, rfl⟩ := reap_eq_some.mp hreap
  rcases ret_onCqe hq (by simpa [h.queued] using hroom) hphase hout with hret | hret | hret
  · exact Or.inr (Or.inr (Or.inl ⟨(q, res), hcs ▸ List.mem_cons_self, hret⟩))
  · exact Or.inr (Or.inl hret)
  · exact Or.inr (Or.inr (Or.inr hret))

/-- Priming fails only where the submit does. -/
theorem ret_prime (hblock : 0 < cfg.blockSize) (hroom : cfg.qd ≤ cfg.sqEntries) {r : ℤ}
    (hout : ((primeLoop cfg (List.range cfg.qd) (blank cfg .priming)).andSubmit r).phase = .out) :
    ((primeLoop cfg (List.range cfg.qd) (blank cfg .priming)).andSubmit r).ret = r := by
  rcases Priming.primeLoop hblock (priming_blank cfg) List.nodup_range
    (fun i hi => ⟨List.mem_range.mp hi, by simp [blank]⟩) with ⟨-, hfull⟩ | ⟨hp, -⟩
  · simp only [blank, List.length_range, CompletionRing.empty, List.length_nil] at hfull
    omega
  · rw [State.andSubmit, if_neg (by simp [hp.phase])] at hout ⊢
    exact ret_submit hout

theorem Handled.completed_eq {q : Sqe} {res : ℤ} (h : Handled cfg q res s t) :
    t.ring.completed = s.ring.completed := by
  cases h with
  | readEof _ _ _ _ hring => rw [hring]
  | readData _ _ _ _ hring => rw [hring]
  | writeMore _ _ _ _ hring => rw [hring]
  | writeLast _ _ _ _ hring => rw [hring]

theorem ret_finish (ok : Bool) (err : Option Errno) (s : State) :
    (finish cfg ok err s).phase = .out ∧
      ((finish cfg ok err s).ret = s.ret ∨ err.map Errno.neg = some (finish cfg ok err s).ret) := by
  unfold finish
  cases ok <;> cases cfg.doFsync <;> cases err <;> simp [State.goOut]

/-! ## Runs -/

variable {r : ℤ}

/-- The loop goes on, and what is left to be reaped was there before. -/
theorem Unheard.of_loop (h : Unheard r s) (hs : s.phase = .loop) (ht : t.phase = .loop)
    (hsub : ∀ x ∈ t.ring.completed, x ∈ s.ring.completed) : Unheard r t := by
  simp only [Unheard, hs] at h
  simp only [Unheard, ht]
  exact fun x hx => h x (hsub x hx)

theorem Unheard.complete (h : Unheard r s) (hs : s.phase = .loop ∨ s.phase = .out) {i : ℕ}
    {res : ℤ} (hres : res ≠ r) (ht : complete cfg i res s = some t) : Unheard r t := by
  obtain ⟨hphase, hret, -⟩ := complete_frame ht
  rcases hs with hs | hs <;> simp only [Unheard, hs] at h <;> simp only [Unheard, hphase, hs]
  · obtain ⟨q, ring, hring, -, hcase⟩ := complete_cases ht
    obtain ⟨-, rfl⟩ := complete_eq_some.mp hring
    have hcompleted : t.ring.completed = s.ring.completed ++ [(q, res)] := by
      rcases hcase with ⟨-, -, rfl⟩ | ⟨-, rfl⟩ <;> rfl
    intro x hx
    rw [hcompleted] at hx
    rcases List.mem_append.mp hx with hx | hx
    · exact h x hx
    · rw [List.mem_singleton.mp hx]
      exact hres
  · rw [hret]
    exact h

theorem OwnCheck.neg (h : OwnCheck r) : r < 0 := by
  rcases h with rfl | rfl <;> exact Errno.neg_lt _

theorem OwnCheck.ne_canceled (h : OwnCheck r) : ECANCELED.neg ≠ r := by
  rcases h with rfl | rfl <;> decide

/-- What is not answered is not returned: one step. -/
theorem Unheard.step (h : Unheard r s) (hr : OwnCheck r) (hblock : 0 < cfg.blockSize)
    (hqd : 0 < cfg.qd) (hroom : cfg.qd ≤ cfg.sqEntries) (hgood : Good cfg s) {e : Event}
    (hans : ¬ AnswersWith r e) (ht : step cfg s e = some t) : Unheard r t := by
  have hneg := hr.neg
  cases step_cases ht with
  | complete hrun hc => exact h.complete hrun hans hc
  | @prime submitRet hphase =>
    rw [hgood.of_priming hphase]
    rcases prime_cases hblock submitRet with ⟨hfailed, -⟩ | ⟨-, hloop, hprimed⟩
    · simp only [Unheard, hfailed.phase]
      rw [ret_prime hblock hroom hfailed.phase]
      exact hans
    · simp only [Unheard, hloop, hprimed.completed]
      simp
  | iterate hphase _ hit =>
    have hloop := hgood.of_loop hphase
    rcases iterate_cases hloop hblock hphase hit with
      ⟨hfailed, -⟩ | ⟨q, res, cs, hcs, -, hphase', hhandled⟩
    · simp only [Unheard, hphase] at h
      simp only [Unheard, hfailed.phase]
      rcases ret_iterate hloop (by omega) hphase hit hfailed.phase with
        hret | hret | ⟨x, hx, hret⟩ | hret <;> rw [hret]
      · exact fun heq => hans (Or.inl heq)
      · exact fun heq => hans (Or.inr heq)
      · exact h x hx
      · exact hr.ne_canceled
    · refine h.of_loop hphase hphase' ?_
      intro x hx
      rw [hhandled.completed_eq] at hx
      rw [hcs]
      exact List.mem_cons_of_mem _ hx
  | @finish ok err hphase hend =>
    have hret := (hgood.of_loop hphase).ret
    obtain ⟨hout, heq | heq⟩ := @ret_finish cfg ok err s <;> simp only [Unheard, hout]
    · omega
    · exact fun hr => hans (heq.trans (congrArg some hr))
  | cleanup hphase =>
    simp only [Unheard, hphase] at h
    simp only [Unheard, State.result]
    split
    · exact h
    · omega

theorem unheard_reach (hr : OwnCheck r) (hroom : cfg.qd ≤ cfg.sqEntries)
    (hentry : entry cfg = .priming)
    (h : Reach (CopyPath.step cfg) (fun _ e => ¬ AnswersWith r e) (start cfg) s) : Unheard r s := by
  obtain ⟨hqd, hblock, -⟩ := entry_eq_priming hentry
  have hstart : Good cfg (start cfg) ∧ Unheard r (start cfg) := by
    refine ⟨good_start, ?_⟩
    rw [start, hentry]
    trivial
  refine (h.invariant (I := fun s => Good cfg s ∧ Unheard r s) hstart ?_).2
  rintro t e u ⟨hgood, hun⟩ hans hu
  exact ⟨good_step hblock hgood hu, hun.step hr hblock hqd hroom hgood hans hu⟩

/-- **The accounts of the copy loop are in order** at each point of it, in every run: every slot
has at most one request, the requests of the slots are counted and no more than `qd`, and the
ranges reserved are apart and make up the file up to `next_off`.  So no slot is read into
while a write from it is outstanding; and where the submission queue has room for `qd` entries
the loop's own checks never fail: what it returns for them is returned only if a call or a request
answers with it. -/
theorem copy_loop_accounting (cfg : Config) (hroom : cfg.qd ≤ cfg.sqEntries) :
    (∀ s, Reach (CopyPath.step cfg) AnyStep (start cfg) s → s.phase = .loop → Accounted cfg s) ∧
      ∀ r s, OwnCheck r →
        Reach (CopyPath.step cfg) (fun _ e => ¬ AnswersWith r e) (start cfg) s →
        s.phase = .returned r → entry cfg = .returned r := by
  refine ⟨fun s h hphase => ((good_reach h).of_loop hphase).accounts.accounted, ?_⟩
  intro r s hr h hret
  have hstart : (start cfg).phase = entry cfg := rfl
  rcases entry_cases cfg with hentry | ⟨r', -, hentry⟩ | ⟨hentry, -⟩
  · have hun := unheard_reach hr hroom hentry h
    simp only [Unheard, hret] at hun
    exact absurd rfl hun
  · rw [h.eq_of_stuck (step_of_returned (hstart.trans hentry))] at hret
    exact hret
  · rw [h.eq_of_stuck (step_of_returned (hstart.trans hentry))] at hret
    exact hret

theorem copy_loop_accounting_two :
    (∀ s, Reach (CopyPath.step twoChunks) AnyStep (start twoChunks) s → s.phase = .loop →
        Accounted twoChunks s) ∧
      ∀ r s, OwnCheck r →
        Reach (CopyPath.step twoChunks) (fun _ e => ¬ AnswersWith r e) (start twoChunks) s →
        s.phase = .returned r → entry twoChunks = .returned r :=
  copy_loop_accounting twoChunks (by decide)

end CopyPath
end Native
end Pyuring
