import Pyuring.Native.WriteNewfile

/-!
# The invariant of the write loop

The bookkeeping of `uring_write_newfile_dynamic`, in every run: `inflight` counts
the writes handed over and not reaped, `pending` those queued, and the tags name
the slots.  When the submission queue has room for `qd` entries, the writes
prepared so far are the first chunks of the chunk sequence, in order.

The loop leaves for `out:` either through the end of the outer loop, with nothing
in flight, or because something went wrong.  `Aborts` lists what can go wrong.
`Steps` says once what a step can be; whatever the steps keep is proved from it.
-/

namespace Pyuring
namespace Native
namespace WriteNewfile

open CompletionRing

variable (cfg : Config)

/-- The bookkeeping of the loop. -/
structure Accounts (s : State) : Prop where
  inflight : s.inflight = s.ring.outstanding.length + s.ring.completed.length
  pending : s.pending = s.ring.queued.length
  le_qd : s.inflight + s.pending ≤ cfg.qd
  tag : ∀ q ∈ s.ring.pending, q.buf < cfg.qd ∧ q.userData = packUd 1 (UInt32.ofNat q.buf)
  write : ∀ q ∈ s.ring.pending, q.opcode = .write ∧ 0 < q.len
  unsynced : ∀ f, Ev.fsync f ∉ s.log
  ret : 0 ≤ s.ret

/-- The writes prepared are the first `k` chunks. -/
structure Chunked (s : State) (k : ℕ) : Prop where
  chunk : cfg.sizing.chunk k = (s.nextOff, s.calls)
  prepped : (prepped s.log).map (fun q => (q.off, q.len)) = cfg.sizing.chunks k
  offset_lt : ∀ i < k, cfg.sizing.offset i < cfg.totalBytes

/-- The progress callback asks to abort at its call number `n`, for `written`
bytes. -/
def CancelsAt (n written : ℕ) : Prop :=
  ∃ cb, cfg.progressCb = some cb ∧ cb n written cfg.totalBytes = true

/-- A completion of the batch stops the loop. -/
def BatchAborts : List (Sqe × ℤ) → ℕ → ℕ → Prop
  | [], _, _ => False
  | (q, res) :: cs, n, written =>
    (udOp q.userData ≠ 1 ∨ cfg.qd ≤ (udSlot q.userData).toNat) ∨ res < 0 ∨
      CancelsAt cfg n (written + res.toNat) ∨
      BatchAborts cs (n + 1) (written + res.toNat)

/-- What makes a step of the loop leave for `out:`. -/
def Aborts (s : State) : Event → Prop
  | .complete _ _ => False
  | .fill submitRet => (enqueue cfg cfg.qd s).pending ≠ 0 ∧ submitRet < 0
  | .wait waitRet => waitRet < 0
  | .reap => s.inflight ≠ 0 ∧
      BatchAborts cfg (s.ring.completed.take batchSize) s.reports s.written
  | .finish _ => False
  | .cleanup => False

variable {cfg} {s : State} {k : ℕ}

/-! ## Queueing writes -/

variable (cfg) in
/-- What queueing writes changes, and what it leaves. -/
structure Enqueued (s t : State) : Prop where
  accounts : Accounts cfg t
  outstanding : t.ring.outstanding = s.ring.outstanding
  completed : t.ring.completed = s.ring.completed
  inflight : t.inflight = s.inflight
  overrun : t.overrun = s.overrun
  phase : t.phase = s.phase
  grow : s.nextOff + t.ring.queued.length ≤ t.nextOff + s.ring.queued.length
  le : s.pending ≤ t.pending

theorem Enqueued.refl (h : Accounts cfg s) : Enqueued cfg s s :=
  ⟨h, rfl, rfl, rfl, rfl, rfl, Nat.le_refl _, Nat.le_refl _⟩

theorem Enqueued.trans {t u : State} (h₁ : Enqueued cfg s t) (h₂ : Enqueued cfg t u) :
    Enqueued cfg s u where
  accounts := h₂.accounts
  outstanding := h₂.outstanding.trans h₁.outstanding
  completed := h₂.completed.trans h₁.completed
  inflight := h₂.inflight.trans h₁.inflight
  overrun := h₂.overrun.trans h₁.overrun
  phase := h₂.phase.trans h₁.phase
  grow := by
    have := h₁.grow
    have := h₂.grow
    omega
  le := Nat.le_trans h₁.le h₂.le

theorem Chunked.snoc (h : Chunked cfg s k) (hlt : s.nextOff < cfg.totalBytes) {t : State} {q : Sqe}
    (hq : (q.off, q.len) = (s.nextOff, cfg.sizing.want s.nextOff s.calls))
    (hoff : t.nextOff = s.nextOff + cfg.sizing.want s.nextOff s.calls)
    (hcalls : t.calls = cfg.sizing.nextCalls s.calls) (hlog : t.log = .prep q :: s.log) :
    Chunked cfg t (k + 1) where
  chunk := by rw [Sizing.chunk_succ h.chunk, hoff, hcalls]
  prepped := by
    rw [hlog, Native.prepped, List.map_append, h.prepped, Sizing.chunks_succ h.chunk, ← hq]
    rfl
  offset_lt i hi := by
    rcases Nat.lt_succ_iff_lt_or_eq.mp hi with hi | rfl
    · exact h.offset_lt i hi
    · rw [Sizing.offset, h.chunk]
      exact hlt

/-- Queueing one write, spelled out. -/
theorem enqueueOne_cases (h : Accounts cfg s) (hqd : 0 < cfg.qd) (hblock : 0 < cfg.blockSize)
    (hlt : s.nextOff < cfg.totalBytes) (hdepth : s.inflight + s.pending < cfg.qd) :
    (∃ t, enqueueOne cfg s = (true, t) ∧ Enqueued cfg s t ∧ t.pending = s.pending + 1 ∧
      ∀ k, Chunked cfg s k → Chunked cfg t (k + 1)) ∨
    (∃ t, enqueueOne cfg s = (false, t) ∧ Enqueued cfg s t ∧ t.pending = s.pending ∧
      cfg.sqEntries ≤ s.ring.queued.length) := by
  have hslot : s.slot cfg < cfg.qd := Nat.mod_lt _ hqd
  rcases Nat.lt_or_ge s.ring.queued.length cfg.sqEntries with hroom | hfull
  · have hpush := push_eq_some (q := writeSqe cfg (s.slot cfg)
      (cfg.sizing.want s.nextOff s.calls) s.nextOff) |>.mpr ⟨hroom, rfl⟩
    have hpend := pending_push hpush
    have hwant : 0 < cfg.sizing.want s.nextOff s.calls := Sizing.want_pos hblock hlt _
    refine Or.inl ⟨_, by simp only [enqueueOne, hpush]; rfl, ?_, rfl,
      fun k hk => hk.snoc hlt rfl rfl rfl rfl⟩
    refine ⟨⟨h.inflight, ?_, by simp only; omega, ?_, ?_, ?_, h.ret⟩, rfl, rfl, rfl, rfl, rfl, ?_,
      Nat.le_succ _⟩
    · simp [h.pending]
    · rw [hpend]
      simp only [Multiset.mem_cons, forall_eq_or_imp]
      exact ⟨⟨hslot, rfl⟩, h.tag⟩
    · rw [hpend]
      simp only [Multiset.mem_cons, forall_eq_or_imp]
      exact ⟨⟨rfl, hwant⟩, h.write⟩
    · simpa using h.unsynced
    · simp only [List.length_append, List.length_singleton]
      omega
  · have hpush := push_eq_none (q := writeSqe cfg (s.slot cfg)
      (cfg.sizing.want s.nextOff s.calls) s.nextOff) |>.mpr hfull
    exact Or.inr ⟨{ s with
        calls := cfg.sizing.nextCalls s.calls
        slots := Function.update s.slots (s.slot cfg) { s.slots (s.slot cfg) with
          off := s.nextOff, len := cfg.sizing.want s.nextOff s.calls } },
      by simp only [enqueueOne, hpush],
      ⟨{ h with }, rfl, rfl, rfl, rfl, rfl, Nat.le_refl _, Nat.le_refl _⟩, rfl, hfull⟩

/-- The queueing loop keeps the bookkeeping, and the chunk sequence when there is
room; it queues something when it can. -/
theorem enqueue_spec (hqd : 0 < cfg.qd) (hblock : 0 < cfg.blockSize) : ∀ (n : ℕ) {s : State},
    Accounts cfg s →
    Enqueued cfg s (enqueue cfg n s) ∧
      (cfg.qd ≤ cfg.sqEntries → (∃ k, Chunked cfg s k) →
        ∃ k, Chunked cfg (enqueue cfg n s) k) ∧
      (n ≠ 0 → s.nextOff < cfg.totalBytes → s.inflight + s.pending < cfg.qd →
        s.ring.queued.length < cfg.sqEntries → s.pending < (enqueue cfg n s).pending)
  | 0, s, h => ⟨Enqueued.refl h, fun _ hk => hk, fun h0 => absurd rfl h0⟩
  | n + 1, s, h => by
    rw [enqueue]
    split
    · next hcond =>
      obtain ⟨hlt, hdepth⟩ := hcond
      rcases enqueueOne_cases h hqd hblock hlt hdepth with
        ⟨t, heq, ht, hpend, hsnoc⟩ | ⟨t, heq, ht, hpend, hfull⟩
      · obtain ⟨hrest, hchunk, _⟩ := enqueue_spec hqd hblock n ht.accounts
        simp only [heq, if_true]
        refine ⟨ht.trans hrest, fun hroom ⟨k, hk⟩ => hchunk hroom ⟨k + 1, hsnoc k hk⟩,
          ?_⟩
        · intro _ _ _ _
          have := hrest.le
          omega
      · simp only [heq, Bool.false_eq_true, if_false]
        have := h.pending
        exact ⟨ht, fun hroom => by omega, fun _ _ _ hlt' => by omega⟩
    · next hcond =>
      exact ⟨Enqueued.refl h, fun _ hk => hk, fun _ h₁ h₂ => absurd ⟨h₁, h₂⟩ hcond⟩

/-- After `qd` rounds the queueing loop is over: the file is queued to its end, the
queue depth is used up or the submission queue is full. -/
theorem enqueue_exit (hqd : 0 < cfg.qd) (hblock : 0 < cfg.blockSize) : ∀ (n : ℕ) {s : State},
    Accounts cfg s → cfg.qd ≤ n + s.inflight + s.pending →
    ¬ ((enqueue cfg n s).nextOff < cfg.totalBytes ∧
      (enqueue cfg n s).inflight + (enqueue cfg n s).pending < cfg.qd) ∨
      cfg.sqEntries ≤ (enqueue cfg n s).ring.queued.length
  | 0, s, _, hn => Or.inl (by simp only [enqueue]; omega)
  | n + 1, s, h, hn => by
    rw [enqueue]
    split
    · next hcond =>
      rcases enqueueOne_cases h hqd hblock hcond.1 hcond.2 with
        ⟨t, heq, ht, hpend, _⟩ | ⟨t, heq, ht, _, hfull⟩
      · simp only [heq, if_true]
        have := ht.inflight
        exact enqueue_exit hqd hblock n ht.accounts (by omega)
      · simp only [heq, Bool.false_eq_true, if_false]
        have hp := ht.accounts.pending
        have := h.pending
        have := ht.le
        omega
    · next hcond => exact Or.inl hcond

/-! ## Submitting -/

variable (cfg) in
/-- The loop is running and everything queued was handed over. -/
structure Looping (s : State) : Prop where
  accounts : Accounts cfg s
  queued : s.ring.queued = []

theorem Accounts.submit (h : Accounts cfg s) {r : ℤ} (hr : 0 ≤ r) :
    Looping cfg { s with
      ring := s.ring.submit
      ret := r
      inflight := s.inflight + s.pending
      pending := 0 } where
  accounts := {
    inflight := by
      have := h.inflight
      have := h.pending
      simp only [outstanding_submit, completed_submit, List.length_append]
      omega
    pending := rfl
    le_qd := by simpa using h.le_qd
    tag := by simpa using h.tag
    write := by simpa using h.write
    unsynced := h.unsynced
    ret := hr }
  queued := rfl

theorem Looping.awaitAny (h : Looping cfg s) : Looping cfg s.awaitAny :=
  ⟨{ h.accounts with }, h.queued⟩

theorem awaitAny_phase (s : State) :
    s.awaitAny.phase = .head ∧ s.inflight = 0 ∨ s.awaitAny.phase = .wait ∧ s.inflight ≠ 0 := by
  unfold State.awaitAny
  split
  · next h0 => exact Or.inl ⟨rfl, h0⟩
  · next h0 => exact Or.inr ⟨rfl, h0⟩

/-- What one round of the outer loop up to the wait leads to. -/
theorem fill_cases (h : Looping cfg s) (hqd : 0 < cfg.qd) (hblock : 0 < cfg.blockSize) (r : ℤ) :
    (Aborts cfg s (.fill r) ∧ fill cfg r s = (enqueue cfg cfg.qd s).goOut r) ∨
    (¬ Aborts cfg s (.fill r) ∧ ∃ u, fill cfg r s = u.awaitAny ∧ Looping cfg u ∧
      u.ring.outstanding = s.ring.outstanding ++ (enqueue cfg cfg.qd s).ring.queued ∧
      u.ring.completed = s.ring.completed ∧
      u.nextOff = (enqueue cfg cfg.qd s).nextOff ∧ u.calls = (enqueue cfg cfg.qd s).calls ∧
      u.log = (enqueue cfg cfg.qd s).log ∧ u.overrun = s.overrun) := by
  obtain ⟨henq, -⟩ := enqueue_spec hqd hblock cfg.qd h.accounts
  unfold fill Aborts
  simp only
  generalize enqueue cfg cfg.qd s = t at henq
  by_cases h0 : t.pending = 0
  · rw [if_pos h0]
    have hqueued : t.ring.queued = [] := by
      rw [← List.length_eq_zero_iff, ← henq.accounts.pending]
      exact h0
    exact Or.inr ⟨fun hand => hand.1 h0, t, rfl, ⟨henq.accounts, hqueued⟩,
      by rw [hqueued, List.append_nil, henq.outstanding], henq.completed, rfl, rfl, rfl,
      henq.overrun⟩
  · rw [if_neg h0]
    by_cases hr : r < 0
    · rw [if_pos hr]
      exact Or.inl ⟨⟨h0, hr⟩, rfl⟩
    · rw [if_neg hr]
      exact Or.inr ⟨fun hand => hr hand.2, _, rfl, henq.accounts.submit (Int.not_lt.mp hr),
        by rw [outstanding_submit, henq.outstanding], henq.completed, rfl, rfl, rfl,
        henq.overrun⟩

/-! ## Reaping a batch -/

variable (cfg) in
theorem report_cases (s : State) : ∃ cancel n log, ReportsOnly s.log log ∧
    (cancel = true ↔ CancelsAt cfg s.reports s.written) ∧
    (cfg.progressCb ≠ none → n = s.reports + 1) ∧
    report cfg s = (cancel, { s with reports := n, log := log }) := by
  unfold report CancelsAt
  cases hcb : cfg.progressCb with
  | none => exact ⟨_, s.reports, s.log, ReportsOnly.refl _, by simp, fun h => absurd rfl h, rfl⟩
  | some cb =>
    exact ⟨_, s.reports + 1, _, (ReportsOnly.refl _).cons, by simp, fun _ => rfl, rfl⟩

theorem not_cancelsAt_of_none (h : cfg.progressCb = none) (n written : ℕ) :
    ¬ CancelsAt cfg n written := by
  rintro ⟨cb, hcb, _⟩
  rw [h] at hcb
  exact absurd hcb (by simp)

/-- Without a callback the number of calls does not matter. -/
theorem batchAborts_congr (h : cfg.progressCb = none) : ∀ (cs : List (Sqe × ℤ)) (n m w : ℕ),
    BatchAborts cfg cs n w ↔ BatchAborts cfg cs m w
  | [], _, _, _ => Iff.rfl
  | (q, res) :: cs, n, m, w => by
    simp only [BatchAborts, not_cancelsAt_of_none h, false_or]
    rw [batchAborts_congr h cs (n + 1) (m + 1)]

/-- What reaping leaves alone. -/
structure Kept (s t : State) : Prop where
  outstanding : t.ring.outstanding = s.ring.outstanding
  log : ReportsOnly s.log t.log
  nextOff : t.nextOff = s.nextOff
  calls : t.calls = s.calls
  overrun : t.overrun = s.overrun

/-- The program left the loop with an error. -/
structure Failed (s : State) : Prop where
  phase : s.phase = .out
  ret : s.ret < 0

theorem Kept.chunked {t : State} (h : Kept s t) (hk : Chunked cfg s k) : Chunked cfg t k where
  chunk := by rw [h.nextOff, h.calls, hk.chunk]
  prepped := by rw [h.log.prepped_eq, hk.prepped]
  offset_lt := hk.offset_lt

theorem kept_goOut (r : ℤ) (s : State) : Kept s (s.goOut r) :=
  ⟨rfl, ReportsOnly.refl _, rfl, rfl, rfl⟩

variable (cfg) in
theorem reapBatch_cases (got : ℕ) : ∀ (cs : List (Sqe × ℤ)) (i : ℕ) (s : State),
    (BatchAborts cfg cs s.reports s.written ∧ Failed (reapBatch cfg got i cs s) ∧
      Kept s (reapBatch cfg got i cs s)) ∨
    (¬ BatchAborts cfg cs s.reports s.written ∧ ∃ n log, ReportsOnly s.log log ∧
      reapBatch cfg got i cs s = { s with
        ring := s.ring.advance got
        inflight := s.inflight - got
        written := s.written + (cs.map fun x => x.2.toNat).sum
        reports := n
        log := log })
  | [], _, s => Or.inr ⟨id, s.reports, s.log, ReportsOnly.refl _, rfl⟩
  | (q, res) :: cs, i, s => by
    rw [reapBatch]
    simp only [BatchAborts]
    by_cases htag : udOp q.userData ≠ 1 ∨ cfg.qd ≤ (udSlot q.userData).toNat
    · rw [if_pos htag]
      exact Or.inl ⟨Or.inl htag, ⟨rfl, Errno.neg_lt _⟩, rfl, ReportsOnly.refl _, rfl, rfl, rfl⟩
    rw [if_neg htag]
    by_cases hneg : res < 0
    · rw [if_pos hneg]
      exact Or.inl ⟨Or.inr (Or.inl hneg), ⟨rfl, hneg⟩, rfl, ReportsOnly.refl _, rfl, rfl, rfl⟩
    rw [if_neg hneg]
    obtain ⟨cancel, n, log, hlog, hcancel, hn, hrep⟩ :=
      report_cases cfg { s with written := s.written + res.toNat }
    simp only [hrep]
    by_cases hc : cancel = true
    · rw [if_pos hc]
      exact Or.inl ⟨Or.inr (Or.inr (Or.inl (hcancel.mp hc))), ⟨rfl, Errno.neg_lt _⟩, rfl, hlog, rfl,
        rfl, rfl⟩
    rw [if_neg hc]
    have hbatch : BatchAborts cfg cs n (s.written + res.toNat) ↔
        BatchAborts cfg cs (s.reports + 1) (s.written + res.toNat) := by
      by_cases hcb : cfg.progressCb = none
      · exact batchAborts_congr hcb _ _ _ _
      · rw [hn hcb]
    have hnot : ¬ CancelsAt cfg s.reports (s.written + res.toNat) := fun h => hc (hcancel.mpr h)
    rcases reapBatch_cases got cs (i + 1) { s with
        written := s.written + res.toNat, reports := n, log := log } with
      ⟨hab, hfail, hkept⟩ | ⟨hab, n', log', hlog', heq⟩
    · exact Or.inl ⟨Or.inr (Or.inr (Or.inr (hbatch.mp hab))), hfail, hkept.outstanding,
        hlog.trans hkept.log, hkept.nextOff, hkept.calls, hkept.overrun⟩
    · refine Or.inr ⟨?_, n', log', hlog.trans hlog', ?_⟩
      · simp only [htag, hneg, hnot, false_or]
        exact fun h => hab (hbatch.mpr h)
      · rw [heq]
        simp only [List.map_cons, List.sum_cons, Nat.add_assoc]

/-- One round of the inner loop. -/
theorem reap_cases (h : Looping cfg s) :
    Kept s (reap cfg s) ∧
    ((Aborts cfg s .reap ∧ Failed (reap cfg s)) ∨
      (¬ Aborts cfg s .reap ∧ Looping cfg (reap cfg s) ∧
        ((reap cfg s).phase = .head ∧ (s.inflight = 0 ∨ s.ring.completed = []) ∧
            (reap cfg s).ring = s.ring ∨
          (reap cfg s).phase = s.phase ∧ s.inflight ≠ 0 ∧ s.ring.completed ≠ [] ∧
            (reap cfg s).ring.completed = s.ring.completed.drop batchSize))) := by
  unfold reap Aborts
  simp only
  have htake : s.ring.completed.take batchSize = [] ↔ s.ring.completed = [] := by
    simp [List.take_eq_nil_iff, batchSize]
  by_cases hidle : s.inflight = 0 ∨ s.ring.completed.take batchSize = []
  · rw [if_pos hidle]
    refine ⟨⟨rfl, ReportsOnly.refl _, rfl, rfl, rfl⟩, Or.inr ⟨?_, ⟨{ h.accounts with }, h.queued⟩,
      Or.inl ⟨rfl, hidle.imp_right htake.mp, rfl⟩⟩⟩
    rintro ⟨hne, hab⟩
    rcases hidle with h0 | hnil
    · exact hne h0
    · rw [hnil] at hab
      exact hab
  · rw [if_neg hidle]
    obtain ⟨hne, hbatch⟩ := not_or.mp hidle
    generalize hb : s.ring.completed.take batchSize = batch at hbatch
    rcases reapBatch_cases cfg batch.length batch 0 s with
      ⟨hab, hfail, hkept⟩ | ⟨hab, n, log, hlog, heq⟩
    · exact ⟨hkept, Or.inl ⟨⟨hne, hab⟩, hfail⟩⟩
    · rw [heq]
      have hadv : s.ring.advance batch.length = s.ring.advance batchSize := by
        rw [← hb, List.length_take, advance, advance, List.drop_eq_drop_min (i := batchSize)]
      have hlen : batch.length ≤ s.ring.completed.length := by
        rw [← hb]
        exact List.length_take_le' _ _
      have hmem : ∀ q ∈ (s.ring.advance batch.length).pending, q ∈ s.ring.pending := by
        intro q hq
        rw [pending_advance batch.length s.ring]
        exact Multiset.mem_add.mpr (Or.inr hq)
      refine ⟨⟨rfl, hlog, rfl, rfl, rfl⟩, Or.inr ⟨fun hand => hab hand.2, ⟨?_, h.queued⟩,
        Or.inr ⟨rfl, hne, fun hnil => hbatch (hb ▸ htake.mpr hnil), ?_⟩⟩⟩
      · exact {
          inflight := by
            have := h.accounts.inflight
            simp only [advance, List.length_drop]
            omega
          pending := h.accounts.pending
          le_qd := by
            have := h.accounts.le_qd
            simp only
            omega
          tag := fun q hq => h.accounts.tag q (hmem q hq)
          write := fun q hq => h.accounts.write q (hmem q hq)
          unsynced := fun f => by
            rw [hlog.mem_iff fun _ _ => by simp]
            exact h.accounts.unsynced f
          ret := h.accounts.ret }
      · rw [hadv]
        rfl

/-! ## The kernel's step -/

/-- What the kernel's step does. -/
theorem complete_cases {i : ℕ} {res : ℤ} {t : State} (ht : complete cfg i res s = some t) :
    ∃ q ring, s.ring.complete i res = some (q, ring) ∧ res ≤ q.len ∧ t = { s with
      ring := ring
      log := .done q res :: s.log
      dst := s.dst.write q.off (pattern q.buf res.toNat)
      overrun := s.overrun || decide (cfg.maxBufferSize < res.toNat) } := by
  unfold complete at ht
  cases hc : s.ring.complete i res with
  | none => simp only [hc, reduceCtorEq] at ht
  | some qr =>
    obtain ⟨q, ring⟩ := qr
    simp only [hc] at ht
    split at ht
    · next hle => exact ⟨q, ring, rfl, hle, (Option.some.inj ht).symm⟩
    · exact absurd ht (by simp)

theorem Looping.complete (h : Looping cfg s) {i : ℕ} {res : ℤ} {t : State}
    (ht : complete cfg i res s = some t) : Looping cfg t := by
  obtain ⟨q, ring, hc, _, rfl⟩ := complete_cases ht
  have hpend := pending_complete hc
  have hcard := congrArg Multiset.card hpend
  rw [card_pending, card_pending] at hcard
  obtain ⟨_, rfl⟩ := complete_eq_some.mp hc
  exact ⟨{
    inflight := by
      have := h.accounts.inflight
      simp only at hcard ⊢
      omega
    pending := h.accounts.pending
    le_qd := h.accounts.le_qd
    tag := by rw [hpend]; exact h.accounts.tag
    write := by rw [hpend]; exact h.accounts.write
    unsynced := by simpa using h.accounts.unsynced
    ret := h.accounts.ret }, h.queued⟩

theorem Chunked.complete (h : Chunked cfg s k) {i : ℕ} {res : ℤ} {t : State}
    (ht : complete cfg i res s = some t) : Chunked cfg t k := by
  obtain ⟨q, ring, _, _, rfl⟩ := complete_cases ht
  exact ⟨h.chunk, h.prepped, h.offset_lt⟩

/-! ## The end of the loop -/

variable (cfg) in
/-- The loop has ended and nothing went wrong. -/
structure Finished (s : State) : Prop where
  idle : s.ring.Idle
  nextOff : cfg.totalBytes ≤ s.nextOff
  synced : SyncedAfterWrites dfd s.log ↔ cfg.doFsync = true

theorem Looping.finished (h : Looping cfg s) (hend : ¬ s.Continues cfg) {t : State}
    (hring : t.ring = s.ring) (hoff : t.nextOff = s.nextOff)
    (hlog : t.log = if cfg.doFsync then .fsync dfd :: s.log else s.log) : Finished cfg t := by
  obtain ⟨hoff', hrest⟩ := not_or.mp hend
  obtain ⟨hinflight, _⟩ := not_or.mp hrest
  have hcount := h.accounts.inflight
  rw [not_not.mp hinflight] at hcount
  refine ⟨?_, by omega, ?_⟩
  · rw [hring]
    exact ⟨h.queued, List.length_eq_zero_iff.mp (by omega), List.length_eq_zero_iff.mp (by omega)⟩
  · rw [hlog]
    by_cases hsync : cfg.doFsync = true
    · rw [if_pos hsync]
      exact ⟨fun _ => hsync, fun _ => ⟨[], s.log, rfl, by simp⟩⟩
    · rw [if_neg hsync]
      refine ⟨?_, fun hs => absurd hs hsync⟩
      intro hs
      obtain ⟨newer, older, heq, _⟩ := hs
      exact absurd (heq ▸ List.mem_append_right _ List.mem_cons_self) (h.accounts.unsynced dfd)

/-- The outer loop's exit ends with an error on its way or finished. -/
theorem finish_cases (h : Looping cfg s) (hend : ¬ s.Continues cfg) (e : Option Errno) :
    Failed (finish cfg e s) ∧ e ≠ none ∧ (finish cfg e s).ring = s.ring ∨
      (finish cfg e s).phase = .out ∧ 0 ≤ (finish cfg e s).ret ∧ Finished cfg (finish cfg e s) := by
  have hfin := fun t => h.finished hend (t := t)
  unfold finish
  by_cases hsync : cfg.doFsync = true
  · simp only [hsync, if_true] at hfin ⊢
    cases e with
    | some e => exact Or.inl ⟨⟨rfl, Errno.neg_lt e⟩, by simp, rfl⟩
    | none => exact Or.inr ⟨rfl, h.accounts.ret, hfin _ rfl rfl rfl⟩
  · simp only [hsync] at hfin ⊢
    exact Or.inr ⟨rfl, h.accounts.ret, hfin _ rfl rfl rfl⟩

theorem Chunked.finish (h : Chunked cfg s k) (e : Option Errno) :
    Chunked cfg (finish cfg e s) k := by
  unfold WriteNewfile.finish
  by_cases hsync : cfg.doFsync = true
  · simp only [hsync, if_true]
    cases e <;> exact ⟨h.chunk, h.prepped, h.offset_lt⟩
  · simp only [hsync]
    exact ⟨h.chunk, h.prepped, h.offset_lt⟩

/-! ## Every state reached is good -/

variable (cfg) in
/-- The invariant at each point of the program. -/
def Good (s : State) : Prop :=
  match s.phase with
  | .head | .wait | .reap => Looping cfg s
  | .out => s.ret < 0 ∨ 0 ≤ s.ret ∧ Finished cfg s
  | .returned r => r < 0 ∨ r = s.written ∧ Finished cfg s

theorem Good.looping (h : Good cfg s) (hout : s.phase ≠ .out) (hret : ∀ r, s.phase ≠ .returned r) :
    Looping cfg s := by
  cases hphase : s.phase with
  | head | wait | reap => simpa [Good, hphase] using h
  | out => exact absurd hphase hout
  | returned r => exact absurd hphase (hret r)

theorem Looping.good (h : Looping cfg s) (hout : s.phase ≠ .out)
    (hret : ∀ r, s.phase ≠ .returned r) : Good cfg s := by
  cases hphase : s.phase with
  | head | wait | reap => simpa [Good, hphase] using h
  | out => exact absurd hphase hout
  | returned r => exact absurd hphase (hret r)

theorem Failed.good (h : Failed s) : Good cfg s := by
  simp only [Good, h.phase]
  exact Or.inl h.ret

theorem step_of_returned {r : ℤ} (h : s.phase = .returned r) (e : Event) :
    step cfg s e = none := by
  cases e <;> simp [step, h]

theorem entry_cases (cfg : Config) :
    (entry cfg = .head ∧ 0 < cfg.totalMb ∧ 0 < cfg.blockSize ∧ 0 < cfg.qd) ∨
      ∃ r < 0, entry cfg = .returned r := by
  unfold entry
  split
  · exact Or.inr ⟨_, Errno.neg_lt _, rfl⟩
  next hpos =>
  cases cfg.setup.openDst with
  | some e => exact Or.inr ⟨_, Errno.neg_lt e, rfl⟩
  | none =>
    simp only
    split
    · next hinit => exact Or.inr ⟨_, hinit, rfl⟩
    split
    · exact Or.inr ⟨_, Errno.neg_lt _, rfl⟩
    · exact Or.inl ⟨rfl, by omega, by omega, by omega⟩

theorem looping_blank (phase : Phase) : Looping cfg (blank cfg phase) where
  accounts := {
    inflight := rfl
    pending := rfl
    le_qd := Nat.zero_le _
    tag := by simp [blank]
    write := by simp [blank]
    unsynced := by simp [blank]
    ret := Int.le_refl 0 }
  queued := rfl

theorem chunked_blank (phase : Phase) : Chunked cfg (blank cfg phase) 0 :=
  ⟨rfl, rfl, fun _ hi => absurd hi (Nat.not_lt_zero _)⟩

theorem good_start : Good cfg (start cfg) := by
  rcases entry_cases cfg with ⟨h, _⟩ | ⟨r, hr, h⟩ <;> rw [start, h]
  · exact looping_blank _
  · exact Or.inl hr

/-! ## The steps -/

/-- Everything a step can do. -/
inductive Steps (cfg : Config) (s : State) : Event → State → Prop where
  | complete {i : ℕ} {res : ℤ} {t : State} (hrun : ∀ r, s.phase ≠ .returned r)
      (hc : complete cfg i res s = some t) : Steps cfg s (.complete i res) t
  | fill {submitRet : ℤ} (hphase : s.phase = .head) (hcont : s.Continues cfg) :
      Steps cfg s (.fill submitRet) (fill cfg submitRet s)
  | waitFails {waitRet : ℤ} (hphase : s.phase = .wait) (hneg : waitRet < 0) :
      Steps cfg s (.wait waitRet) (s.goOut waitRet)
  | waits {waitRet : ℤ} (hphase : s.phase = .wait) (hret : 0 ≤ waitRet) :
      Steps cfg s (.wait waitRet) { s with ret := waitRet, phase := .reap }
  | reap (hphase : s.phase = .reap) : Steps cfg s .reap (reap cfg s)
  | finish {fsyncErr : Option Errno} (hphase : s.phase = .head) (hend : ¬ s.Continues cfg) :
      Steps cfg s (.finish fsyncErr) (finish cfg fsyncErr s)
  | cleanup (hphase : s.phase = .out) : Steps cfg s .cleanup { s with phase := .returned s.result }

theorem step_cases {e : Event} {t : State} (ht : step cfg s e = some t) : Steps cfg s e t := by
  cases e with
  | complete i res =>
    cases hphase : s.phase with
    | returned r => exact absurd (ht.symm.trans (step_of_returned hphase _)) (by simp)
    | _ => exact .complete (by simp [hphase]) (by simpa [step, hphase] using ht)
  | fill submitRet =>
    obtain ⟨⟨hphase, hcont⟩, ht⟩ := Option.ite_none_right_eq_some.mp ht
    rw [← Option.some.inj ht]
    exact .fill hphase hcont
  | wait waitRet =>
    obtain ⟨hphase, ht⟩ := Option.ite_none_right_eq_some.mp ht
    rw [← Option.some.inj ht]
    split
    · next hneg => exact .waitFails hphase hneg
    · next hret => exact .waits hphase (Int.not_lt.mp hret)
  | reap =>
    obtain ⟨hphase, ht⟩ := Option.ite_none_right_eq_some.mp ht
    rw [← Option.some.inj ht]
    exact .reap hphase
  | finish fsyncErr =>
    obtain ⟨⟨hphase, hend⟩, ht⟩ := Option.ite_none_right_eq_some.mp ht
    rw [← Option.some.inj ht]
    exact .finish hphase hend
  | cleanup =>
    obtain ⟨hphase, ht⟩ := Option.ite_none_right_eq_some.mp ht
    rw [← Option.some.inj ht]
    exact .cleanup hphase

theorem Good.of_head (h : Good cfg s) (hphase : s.phase = .head) : Looping cfg s := by
  simpa [Good, hphase] using h

theorem Good.of_wait (h : Good cfg s) (hphase : s.phase = .wait) : Looping cfg s := by
  simpa [Good, hphase] using h

theorem Good.of_reap (h : Good cfg s) (hphase : s.phase = .reap) : Looping cfg s := by
  simpa [Good, hphase] using h

theorem Good.of_out (h : Good cfg s) (hphase : s.phase = .out) :
    s.ret < 0 ∨ 0 ≤ s.ret ∧ Finished cfg s := by
  simpa [Good, hphase] using h

/-- **What a step leads to**: the invariant again, and with room in the submission
queue the next part of the chunk sequence. -/
theorem step_good (hqd : 0 < cfg.qd) (hblock : 0 < cfg.blockSize) (h : Good cfg s) {e : Event}
    {t : State} (ht : step cfg s e = some t) :
    Good cfg t ∧
      (cfg.qd ≤ cfg.sqEntries → (∃ k, Chunked cfg s k) → ∃ k, Chunked cfg t k) := by
  cases step_cases ht with
  | complete hrun hc =>
    obtain ⟨q, ring, hring, _, heq⟩ := complete_cases hc
    refine ⟨?_, fun _ ⟨k, hk⟩ => ⟨k, hk.complete hc⟩⟩
    by_cases hout : s.phase = .out
    · rcases h.of_out hout with hneg | ⟨_, hfin⟩
      · rw [heq]
        simp only [Good, hout]
        exact Or.inl hneg
      · exact absurd hfin.idle.2.1 (List.ne_nil_of_mem (mem_outstanding_of_complete hring))
    · have hloop := (h.looping hout hrun).complete hc
      have hphase : t.phase = s.phase := by rw [heq]
      exact hloop.good (hphase ▸ hout) fun r => hphase ▸ hrun r
  | fill hphase hcont =>
    have hloop := h.of_head hphase
    obtain ⟨henq, hchunk, _⟩ := enqueue_spec hqd hblock cfg.qd hloop.accounts
    rcases fill_cases hloop hqd hblock _ with ⟨hab, heq⟩ | ⟨_, u, heq, hu, hrest⟩
    · rw [heq]
      refine ⟨Failed.good ⟨rfl, hab.2⟩, ?_⟩
      intro hroom hk
      obtain ⟨k, hk'⟩ := hchunk hroom hk
      exact ⟨k, hk'.chunk, hk'.prepped, hk'.offset_lt⟩
    · rw [heq]
      refine ⟨?_, ?_⟩
      · have hphase := awaitAny_phase u
        exact hu.awaitAny.good (by rcases hphase with ⟨hp, _⟩ | ⟨hp, _⟩ <;> simp [hp])
          (by rcases hphase with ⟨hp, _⟩ | ⟨hp, _⟩ <;> simp [hp])
      · intro hroom hk
        obtain ⟨k, hk'⟩ := hchunk hroom hk
        obtain ⟨_, _, hoff, hcalls, hlog, _⟩ := hrest
        exact ⟨k, by rw [State.awaitAny, hoff, hcalls]; exact hk'.chunk,
          by rw [State.awaitAny, hlog]; exact hk'.prepped, hk'.offset_lt⟩
  | waitFails _ hneg =>
    exact ⟨Failed.good ⟨rfl, hneg⟩, fun _ ⟨k, hk⟩ => ⟨k, (kept_goOut _ s).chunked hk⟩⟩
  | waits hphase hret =>
    have hloop := h.of_wait hphase
    refine ⟨?_, fun _ ⟨k, hk⟩ => ⟨k, hk.chunk, hk.prepped, hk.offset_lt⟩⟩
    exact ⟨{ hloop.accounts with ret := hret }, hloop.queued⟩
  | reap hphase =>
    obtain ⟨hkept, hcase⟩ := reap_cases (h.of_reap hphase)
    refine ⟨?_, fun _ ⟨k, hk⟩ => ⟨k, hkept.chunked hk⟩⟩
    rcases hcase with ⟨_, hfail⟩ | ⟨_, hloop', ⟨hp, _⟩ | ⟨hp, _⟩⟩
    · exact hfail.good
    · exact hloop'.good (by simp [hp]) (by simp [hp])
    · exact hloop'.good (by simp [hp, hphase]) (by simp [hp, hphase])
  | finish hphase hend =>
    refine ⟨?_, fun _ ⟨k, hk⟩ => ⟨k, hk.finish _⟩⟩
    rcases finish_cases (h.of_head hphase) hend _ with ⟨hfail, _⟩ | ⟨hp, hret, hfin⟩
    · exact hfail.good
    · simp only [Good, hp]
      exact Or.inr ⟨hret, hfin⟩
  | cleanup hphase =>
    refine ⟨?_, fun _ ⟨k, hk⟩ => ⟨k, hk.chunk, hk.prepped, hk.offset_lt⟩⟩
    rcases h.of_out hphase with hneg | ⟨hret, hfin⟩
    · rw [State.result, if_pos hneg]
      exact Or.inl hneg
    · rw [State.result, if_neg (Int.not_lt.mpr hret)]
      exact Or.inr ⟨rfl, { hfin with }⟩

open Trace

/-- **The invariant of the write loop**, in every run and whatever the kernel and
the callbacks answer. -/
theorem good_reach {P : State → Event → Prop} (h : Reach (step cfg) P (start cfg) s) :
    Good cfg s ∧ (cfg.qd ≤ cfg.sqEntries → ∃ k, Chunked cfg s k) := by
  have hstart : Good cfg (start cfg) ∧ (cfg.qd ≤ cfg.sqEntries → ∃ k, Chunked cfg (start cfg) k) :=
    ⟨good_start, fun _ => ⟨0, chunked_blank _⟩⟩
  rcases entry_cases cfg with ⟨_, _, hblock, hqd⟩ | ⟨r, _, hentry⟩
  · exact h.invariant (I := fun s => Good cfg s ∧ (cfg.qd ≤ cfg.sqEntries → ∃ k, Chunked cfg s k))
      hstart fun t e u ht _ hu => by
        obtain ⟨hgood, hchunk⟩ := step_good hqd hblock ht.1 hu
        exact ⟨hgood, fun hroom => hchunk hroom (ht.2 hroom)⟩
  · -- the call fails at once, and a state that has returned does not move
    rw [h.eq_of_stuck (step_of_returned (r := r) (by rw [start, hentry]; rfl))]
    exact hstart

end WriteNewfile
end Native
end Pyuring
