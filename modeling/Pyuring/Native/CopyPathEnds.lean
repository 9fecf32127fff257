import Pyuring.Native.CopyPathRun
import Pyuring.Native.WriteLedger

/-!
# Every copy ends

What is true of a copy however it goes: system calls fail or not, the callbacks answer
anything, and the kernel moves any number of bytes, also none.  `workLeft_lt` bounds the
run.  The completions are counted more closely here: each chunk reserved pays for two, its
read and the write that follows the read, so there are at most two for each chunk.

The count is over the whole trace, and goes on while the program is on its way out.
-/

namespace Pyuring
namespace Native
namespace CopyPath

open CompletionRing Trace

variable {cfg : Config} {s t : State}

/-- The completions that a request which is not completed can still lead to: a read leads to
a write. -/
def due (q : Sqe) : ℕ :=
  match q.opcode with
  | .read => 2
  | .write => 1

/-- The completions still to come from what is on the ring. -/
def owed (r : CompletionRing Sqe) : ℕ :=
  (r.queued.map due).sum + (r.outstanding.map due).sum +
    (r.completed.map fun x => due x.1 - 1).sum

theorem due_pos (q : Sqe) : 0 < due q := by
  unfold due
  split <;> omega

theorem owed_submit (r : CompletionRing Sqe) : owed r.submit = owed r := by
  simp only [owed, queued_submit, outstanding_submit, completed_submit, List.map_append,
    List.sum_append, List.map_nil, List.sum_nil]
  omega

theorem owed_push {r r' : CompletionRing Sqe} {room : ℕ} {q : Sqe}
    (h : r.push room q = some r') : owed r' = owed r + due q := by
  obtain ⟨-, rfl⟩ := push_eq_some.mp h
  simp only [owed, List.map_append, List.sum_append, List.map_cons, List.map_nil, List.sum_cons,
    List.sum_nil]
  omega

theorem owed_complete {i : ℕ} {res : ℤ} {q : Sqe} {r r' : CompletionRing Sqe}
    (h : r.complete i res = some (q, r')) : owed r = owed r' + 1 := by
  obtain ⟨hq, rfl⟩ := complete_eq_some.mp h
  have hpos := due_pos q
  simp only [owed, sum_map_eraseIdx hq due, List.map_append, List.map_cons, List.map_nil,
    List.sum_append, List.sum_singleton]
  omega

theorem owed_reap {r r' : CompletionRing Sqe} {x : Sqe × ℤ} (h : r.reap = some (x, r')) :
    owed r = owed r' + (due x.1 - 1) := by
  obtain ⟨cs, hcs, rfl⟩ := reap_eq_some.mp h
  simp only [owed, hcs, List.map_cons, List.sum_cons]
  omega

/-- The completions seen, those still to come and `n` more are at most two for each chunk
reserved. -/
def Metered (n : ℕ) (s : State) : Prop :=
  (dones s.log).length + owed s.ring + n ≤ 2 * (spans s.log).length

/-- Every chunk reserved starts inside the file. -/
def Inside (cfg : Config) (s : State) : Prop :=
  ∀ i < (spans s.log).length, cfg.sizing.offset i < cfg.fileSize

/-! ## Chunks -/

theorem Accounts.chunk_length (h : Accounts cfg s) :
    cfg.sizing.chunk (spans s.log).length = (s.nextOff, s.calls) := by
  obtain ⟨k, hk, hasked⟩ := h.chunked
  have hlen := congrArg List.length hasked
  simp only [Span.asked, Sizing.chunks, List.length_map, List.length_range] at hlen
  rw [hlen]
  exact hk

theorem Accounts.inside (h : Accounts cfg s) : Inside cfg s := by
  intro i hi
  obtain ⟨k, hk, hasked⟩ := h.chunked
  have hlen := congrArg List.length hasked
  simp only [Span.asked, Sizing.chunks, List.length_map, List.length_range] at hlen
  have hmem : (cfg.sizing.offset i, cfg.sizing.chunkLen i) ∈ Span.asked (spans s.log) := by
    rw [hasked]
    exact List.mem_map.mpr ⟨i, List.mem_range.mpr (hlen ▸ hi), rfl⟩
  obtain ⟨c, hc, heq⟩ := List.mem_map.mp hmem
  have hoff := Nat.lt_of_lt_of_le (h.span_off_lt hc) h.nextOff_le
  rw [Prod.mk.injEq] at heq
  rw [← heq.1]
  exact hoff

/-- One more chunk is reserved at an offset inside the file. -/
theorem Inside.snoc (h : Inside cfg s) (ha : Accounts cfg s) (hlt : s.nextOff < cfg.fileSize)
    {c : Span} (hspans : spans t.log = spans s.log ++ [c]) : Inside cfg t := by
  intro i hi
  rw [hspans, List.length_append, List.length_singleton] at hi
  rcases Nat.lt_succ_iff_lt_or_eq.mp hi with hi | rfl
  · exact h i hi
  · rw [Sizing.offset, ha.chunk_length]
    exact hlt

theorem length_setMoved (off n : ℕ) (cs : List Span) :
    (Span.setMoved off n cs).length = cs.length := List.length_map _

/-! ## The steps -/

/-- A step that neither completes nor reserves anything. -/
theorem Metered.congr {n m : ℕ} (h : Metered n s) (hdones : dones t.log = dones s.log)
    (hspans : spans t.log = spans s.log) (howed : owed t.ring + m ≤ owed s.ring + n) :
    Metered m t := by
  unfold Metered at h ⊢
  rw [hdones, hspans]
  omega

theorem Inside.congr (h : Inside cfg s) (hspans : (spans t.log).length = (spans s.log).length) :
    Inside cfg t := by
  unfold Inside
  rw [hspans]
  exact h

variable (cfg) in
/-- Both counts, at any point of the program. -/
structure Counted (s : State) : Prop where
  metered : Metered 0 s
  inside : Inside cfg s

theorem Counted.congr {n : ℕ} (hm : Metered n s) (hi : Inside cfg s)
    (hdones : dones t.log = dones s.log) (hspans : spans t.log = spans s.log)
    (howed : owed t.ring ≤ owed s.ring + n) : Counted cfg t :=
  ⟨hm.congr hdones hspans howed, hi.congr (congrArg List.length hspans)⟩

theorem Counted.submit (h : Counted cfg s) (r : ℤ) : Counted cfg (s.submit r) := by
  rcases Int.lt_or_le r 0 with hr | hr
  · rw [submit_of_neg hr]
    exact ⟨h.metered, h.inside⟩
  · rw [submit_of_nonneg hr]
    exact Counted.congr h.metered h.inside rfl rfl (Nat.le_of_eq (owed_submit s.ring))

theorem Counted.andSubmit (h : Counted cfg s) (r : ℤ) : Counted cfg (s.andSubmit r) := by
  unfold State.andSubmit
  split
  · exact h
  · exact h.submit r

/-- Reserving a chunk pays for its read and for the write that follows. -/
theorem Counted.enqueueRead (h : Counted cfg s) (ha : Accounts cfg s)
    (hlt : s.nextOff < cfg.fileSize) (i : ℕ) : Counted cfg (enqueueRead cfg i s) := by
  unfold CopyPath.enqueueRead
  simp only
  split
  · exact ⟨h.metered, h.inside⟩
  · next ring hpush =>
    have howed : owed ring = owed s.ring + 2 := owed_push hpush
    have hmetered := h.metered
    refine ⟨?_, h.inside.snoc ha hlt rfl⟩
    unfold Metered at hmetered ⊢
    simp only [dones, spans, readSqe, List.length_append, List.length_singleton, howed]
    omega

/-- The completion of a read was paid for together with the write. -/
theorem counted_onRead (hm : Metered 1 s) (hi : Inside cfg s) (slot : ℕ) (res r : ℤ) :
    Counted cfg (onRead cfg slot res r s) := by
  unfold onRead
  split
  · exact Counted.congr hm hi rfl rfl (Nat.le_succ _)
  split
  · exact Counted.congr hm hi rfl rfl (Nat.le_succ _)
  · next ring hpush =>
    have howed : owed ring = owed s.ring + 1 := owed_push hpush
    refine Counted.submit ?_ r
    exact Counted.congr hm hi rfl rfl (Nat.le_of_eq howed)

theorem counted_onWrite (h : Counted cfg s) (ha : Accounts cfg s) (slot : ℕ) (res r : ℤ) :
    Counted cfg (onWrite cfg slot res r s) := by
  have hc : Counted cfg { s with copied := s.copied + res.toNat } := ⟨h.metered, h.inside⟩
  have ha : Accounts cfg { s with copied := s.copied + res.toNat } := { ha with }
  have hrep : Counted cfg (report cfg { s with copied := s.copied + res.toNat }).2 := by
    unfold report
    split
    · exact hc
    · exact Counted.congr hc.metered hc.inside rfl rfl (Nat.le_refl _)
  have ha' := ha.report
  unfold onWrite
  generalize report cfg { s with copied := s.copied + res.toNat } = x at hrep ha'
  obtain ⟨cancel, u⟩ := x
  simp only
  split
  · exact ⟨hrep.metered, hrep.inside⟩
  split
  · next hlt => exact (hrep.enqueueRead ha' hlt slot).andSubmit r
  · exact ⟨hrep.metered, hrep.inside⟩

theorem Counted.iterate (h : Counted cfg s) (hloop : Looping cfg s) {w r : ℤ}
    (ht : iterate cfg w r s = some t) : Counted cfg t := by
  unfold CopyPath.iterate at ht
  split at ht
  · rw [← Option.some.inj ht]
    exact ⟨h.metered, h.inside⟩
  obtain ⟨⟨⟨q, res⟩, ring⟩, hreap, rfl⟩ := Option.map_eq_some_iff.mp ht
  have howed := owed_reap hreap
  have hq := reaped (w := w) hreap hloop.accounts hloop.moves
  have ha := hloop.accounts.reap (w := w) hreap
  have hmetered : Metered (due q - 1)
      { s with ring := ring, inflight := s.inflight - 1, ret := w } :=
    h.metered.congr rfl rfl (Nat.le_of_eq howed.symm)
  have hinside : Inside cfg { s with ring := ring, inflight := s.inflight - 1, ret := w } :=
    h.inside
  have hcounted := Counted.congr (t := { s with ring := ring, inflight := s.inflight - 1, ret := w })
    hmetered hinside rfl rfl (Nat.le_add_right _ _)
  simp only [onCqe]
  split
  · exact ⟨hcounted.metered, hcounted.inside⟩
  split
  · exact ⟨hcounted.metered, hcounted.inside⟩
  split
  · next hop =>
    have hread : due q = 2 := by rw [due, hq.op_eq.mp hop]
    rw [hread] at hmetered
    exact counted_onRead hmetered hinside _ res r
  · exact counted_onWrite hcounted ha _ res r

theorem Counted.complete (h : Counted cfg s) {i : ℕ} {res : ℤ}
    (ht : complete cfg i res s = some t) : Counted cfg t := by
  obtain ⟨q, ring, hring, -, hcase⟩ := complete_cases ht
  have howed := owed_complete hring
  have hlen : (spans (.done q res :: s.log)).length = (spans s.log).length := by
    cases hop : q.opcode with
    | read => rw [spans_done_read hop]
    | write => rw [spans_done_write hop, length_setMoved]
  have hmetered := h.metered
  have hring' : t.ring = ring := by rcases hcase with ⟨_, _, rfl⟩ | ⟨_, rfl⟩ <;> rfl
  have hlog : t.log = .done q res :: s.log := by rcases hcase with ⟨_, _, rfl⟩ | ⟨_, rfl⟩ <;> rfl
  refine ⟨?_, h.inside.congr (by rw [hlog, hlen])⟩
  unfold Metered at hmetered ⊢
  rw [hlog, hring', hlen, dones, List.length_cons]
  omega

/-- While the queue is primed nothing completes. -/
theorem dones_primeLoop (cfg : Config) : ∀ (is : List ℕ) (s : State),
    dones (primeLoop cfg is s).log = dones s.log
  | [], _ => rfl
  | i :: is, s => by
    rw [primeLoop]
    split
    · rw [dones_primeLoop cfg is]
      unfold enqueueRead
      simp only
      split <;> rfl
    · rfl

theorem counted_prime (hblock : 0 < cfg.blockSize) (hroom : cfg.qd ≤ cfg.sqEntries) (r : ℤ) :
    Counted cfg ((primeLoop cfg (List.range cfg.qd) (blank cfg .priming)).andSubmit r) := by
  have hdones := dones_primeLoop cfg (List.range cfg.qd) (blank cfg .priming)
  rcases Priming.primeLoop hblock (priming_blank cfg) List.nodup_range
    (fun i hi => ⟨List.mem_range.mp hi, by simp [blank]⟩) with ⟨_, hfull⟩ | ⟨hp, _⟩
  · rw [List.length_range] at hfull
    exact absurd hfull (Nat.not_lt.mpr (by simpa [blank] using hroom))
  · refine Counted.andSubmit ⟨?_, hp.accounts.inside⟩ r
    have hdue : ∀ q ∈ (primeLoop cfg (List.range cfg.qd) (blank cfg .priming)).ring.queued,
        due q = 2 := fun q hq => by rw [due, (hp.queued_read q hq).1]
    unfold Metered
    rw [hdones, hp.queued_span, owed, List.map_congr_left hdue, hp.outstanding, hp.completed]
    simp only [blank, dones, List.length_nil, List.map_const', List.sum_replicate, List.map_nil,
      List.sum_nil, List.length_map, smul_eq_mul]
    omega

theorem Counted.step (h : Counted cfg s) (hgood : Good cfg s) (hblock : 0 < cfg.blockSize)
    (hroom : cfg.qd ≤ cfg.sqEntries) {e : Event} (ht : step cfg s e = some t) :
    Counted cfg t := by
  cases step_cases ht with
  | complete _ hc => exact h.complete hc
  | prime hphase =>
    rw [hgood.of_priming hphase]
    exact counted_prime hblock hroom _
  | iterate hphase _ hit => exact h.iterate (hgood.of_loop hphase) hit
  | @finish ok e _ _ =>
    unfold finish
    cases ok <;> cases cfg.doFsync <;> cases e <;> exact ⟨h.metered, h.inside⟩
  | cleanup => exact ⟨h.metered, h.inside⟩

theorem counted_start : Counted cfg (start cfg) :=
  ⟨Nat.le_refl _, fun _ hi => absurd hi (Nat.not_lt_zero _)⟩

/-! ## The end -/

/-- No call fails, and no request fails.  A request may move nothing. -/
def Smooth (_ : State) : Event → Prop
  | .complete _ res => 0 ≤ res
  | .prime submitRet => 0 ≤ submitRet
  | .iterate waitRet submitRet => 0 ≤ waitRet ∧ 0 ≤ submitRet
  | .finish _ fsyncErr => fsyncErr = none
  | .cleanup => True

/-- The program waits for a completion. -/
def Waits (s : State) : Prop := s.phase = .loop ∧ s.inflight ≠ 0

/-- There is something to wait for. -/
theorem Good.awaited (h : Good cfg s) (hs : Waits s) :
    s.ring.outstanding ≠ [] ∨ s.ring.completed ≠ [] := by
  have hloop := h.of_loop hs.1
  by_contra hnone
  obtain ⟨hout, hcomp⟩ := not_or.mp hnone
  have hcard := hloop.accounts.inflight
  rw [card_pending, hloop.queued, not_not.mp hout, not_not.mp hcomp] at hcard
  exact hs.2 hcard

/-- A copy that has not returned can go on, and nothing has to fail for it. -/
theorem Good.exists_smooth (h : Good cfg s) (hs : ¬ Returned s) :
    ∃ e t, Smooth s e ∧ step cfg s e = some t := by
  cases hphase : s.phase with
  | priming => exact ⟨.prime 0, _, Int.le_refl 0, by rw [step, if_pos hphase]⟩
  | out => exact ⟨.cleanup, _, trivial, by rw [step, if_pos hphase]⟩
  | returned r => exact absurd ⟨r, hphase⟩ hs
  | loop =>
    by_cases h0 : s.inflight = 0
    · exact ⟨.finish true none, _, rfl, by rw [step, if_pos ⟨hphase, h0⟩]⟩
    cases hcs : s.ring.completed with
    | cons c cs =>
      obtain ⟨t, ht⟩ : ∃ t, step cfg s (.iterate 0 0) = some t := by
        rw [step, if_pos ⟨hphase, h0⟩, iterate, if_neg (by omega), reap_eq_some.mpr ⟨cs, hcs, rfl⟩]
        exact ⟨_, rfl⟩
      exact ⟨.iterate 0 0, t, ⟨Int.le_refl 0, Int.le_refl 0⟩, ht⟩
    | nil =>
      -- nothing to reap, so a request is outstanding: let it move nothing
      have hne := (h.awaited ⟨hphase, h0⟩).resolve_right (not_not.mpr hcs)
      obtain ⟨q, qs, hout⟩ := List.exists_cons_of_ne_nil hne
      have hq : s.ring.outstanding[0]? = some q := by rw [hout]; rfl
      have hc : s.ring.complete 0 0 = some (q, _) := complete_eq_some.mpr ⟨hq, rfl⟩
      obtain ⟨t, ht⟩ : ∃ t, step cfg s (.complete 0 0) = some t := by
        simp only [step, hphase, complete, hc]
        cases q.opcode with
        | read => exact ⟨_, if_pos ⟨by omega, by omega⟩⟩
        | write => exact ⟨_, if_pos (by omega)⟩
      exact ⟨.complete 0 0, t, Int.le_refl 0, ht⟩

theorem start_of_blockSize_eq_zero (h : cfg.blockSize = 0) :
    (start cfg).phase = .returned EINVAL.neg := by
  simp only [start, blank, entry]
  rw [if_pos (Or.inr h)]

/-- **Every copy ends**, whatever the kernel moves. -/
theorem ends (cfg : Config) : Terminates (step cfg) Smooth Returned (start cfg) := by
  rcases Nat.eq_zero_or_pos cfg.blockSize with h0 | hblock
  · have hphase := start_of_blockSize_eq_zero h0
    exact terminates_of_stuck (step_of_returned hphase) ⟨_, hphase⟩
  · exact terminates_of_measure (workLeft cfg) good_start
      (fun _ _ _ hgood _ ht => good_step hblock hgood ht)
      (fun _ _ _ hgood _ ht => workLeft_lt hblock hgood ht)
      (fun _ hgood hs => hgood.exists_smooth hs)

theorem counted_reach {P : State → Event → Prop} (hroom : cfg.qd ≤ cfg.sqEntries)
    (h : Reach (step cfg) P (start cfg) s) : Counted cfg s := by
  rcases Nat.eq_zero_or_pos cfg.blockSize with h0 | hblock
  · rw [h.eq_of_stuck (step_of_returned (start_of_blockSize_eq_zero h0))]
    exact counted_start
  · have hinv := h.invariant (I := fun s => Good cfg s ∧ Counted cfg s)
      ⟨good_start, counted_start⟩ fun t e u ht _ hu =>
        ⟨good_step hblock ht.1 hu, ht.2.step ht.1 hblock hroom hu⟩
    exact hinv.2

/-- **At most two completions for each chunk.** -/
theorem dones_le {P : State → Event → Prop} (hroom : cfg.qd ≤ cfg.sqEntries)
    (h : Reach (step cfg) P (start cfg) s) :
    ∃ k, (∀ i < k, cfg.sizing.offset i < cfg.fileSize) ∧ (dones s.log).length ≤ 2 * k := by
  obtain ⟨hmetered, hinside⟩ := counted_reach hroom h
  refine ⟨(spans s.log).length, hinside, ?_⟩
  unfold Metered at hmetered
  omega

end CopyPath
end Native
end Pyuring
