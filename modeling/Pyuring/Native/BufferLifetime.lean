import Pyuring.Native.CopyPathExact
import Pyuring.Native.WriteNewfileInvariant
import Pyuring.Native.WriteManyfilesInvariant

/-!
# Buffers and the requests that use them

All three pipelines leave their loop for the block at `out:`, which frees the slot
buffers before it tears the ring down.  Whether the kernel may then still write
into a freed buffer, or read from one, is a question about the requests handed
over and not completed at that point.

A pipeline that runs to the end of its loop has none.  One that leaves early, for
a failed wait or submit, a negative result, a bad tag or a cancelling callback, has
those that were outstanding when it left: nothing waits for them.  `Aborts` of each
pipeline spells out when it leaves early, in terms of what the kernel and the
callback answer, and each pipeline follows the exit rule with it.
-/

namespace Pyuring
namespace Native

open CompletionRing Trace

/-- A pipeline reaches the point where it frees its buffers with nothing outstanding
in every run in which no step aborts while a request is outstanding; and a step that
does abort then gets there with that request outstanding. -/
structure FreesWhenIdle {σ ε : Type*} (step : σ → ε → Option σ) (start : σ) (AtOut : σ → Prop)
    (ring : σ → CompletionRing Sqe) (Aborts : σ → ε → Prop) : Prop where
  run : ∀ s, Reach step (fun s e => Aborts s e → (ring s).outstanding = []) start s →
    AtOut s → (ring s).outstanding = []
  step : ∀ s e t, Reach step AnyStep start s → ¬ AtOut s → step s e = some t →
    ((AtOut t ∧ (ring t).outstanding ≠ []) ↔ (Aborts s e ∧ (ring s).outstanding ≠ []))

theorem freesWhenIdle {σ ε : Type*} {step : σ → ε → Option σ} {start : σ} {I AtOut : σ → Prop}
    {ring : σ → CompletionRing Sqe} {Aborts : σ → ε → Prop}
    (h : ExitRule step I AtOut (fun s => (ring s).outstanding ≠ []) Aborts) (hI : I start)
    (hstart : ¬ AtOut start) : FreesWhenIdle step start AtOut ring Aborts where
  run s hreach hout := by
    have hfree := h.free_of_reach hI hstart
      (hreach.mono fun s e hP hab hne => hne (hP hab)) hout
    exact not_not.mp hfree
  step s e t hreach hs ht :=
    h.busy_iff (hreach.invariant hI fun u e v hu _ hv => h.keep u e v hu hv) hs ht

/-- A pipeline that returns at once frees nothing. -/
theorem freesWhenIdle_of_stuck {σ ε : Type*} {step : σ → ε → Option σ} {start : σ}
    {AtOut : σ → Prop} {ring : σ → CompletionRing Sqe} {Aborts : σ → ε → Prop}
    (hstuck : ∀ e, step start e = none) (hstart : ¬ AtOut start) :
    FreesWhenIdle step start AtOut ring Aborts := by
  refine ⟨fun s hreach hout => absurd (hreach.eq_of_stuck hstuck ▸ hout) hstart,
    ?_⟩
  intro s e t hreach _ ht
  rw [hreach.eq_of_stuck hstuck, hstuck e] at ht
  exact absurd ht (by simp)

namespace CopyPath

variable (cfg : Config)

/-- Handling this completion stops the loop: a bad tag, a negative result, no room
or a failed submit for the request it leads to, or a cancelling callback. -/
def CqeAborts (ud : UInt64) (res submitRet : ℤ) (s : State) : Prop :=
  (cfg.qd ≤ (udSlot ud).toNat ∨ (s.slots (udSlot ud).toNat).active = false) ∨ res < 0 ∨
    (udOp ud = 0 ∧ res ≠ 0 ∧ (cfg.sqEntries ≤ s.ring.queued.length ∨ submitRet < 0)) ∨
    (udOp ud ≠ 0 ∧ (CancelsAt cfg s.reports (s.copied + res.toNat) ∨
      (s.nextOff < cfg.fileSize ∧
        (cfg.sqEntries ≤ s.ring.queued.length ∨ submitRet < 0))))

/-- What makes a step of the loop leave for `out:`. -/
def Aborts (s : State) : Event → Prop
  | .complete _ _ => False
  | .prime _ => False
  | .iterate waitRet submitRet => waitRet < 0 ∨ ∃ q res cs, s.ring.completed = (q, res) :: cs ∧
      CqeAborts cfg q.userData res submitRet s
  | .finish _ _ => False
  | .cleanup => False

/-- Left for `out:` with the same requests outstanding, or still in the loop. -/
def Leaves (aborts : Prop) (s t : State) : Prop :=
  (aborts ∧ t.phase = .out ∧ t.ring.outstanding = s.ring.outstanding) ∨
    (¬ aborts ∧ t.phase ≠ .out)

variable {cfg} {s : State}

theorem leaves_submit (r : ℤ) : Leaves (r < 0) s (s.submit r) := by
  rcases Int.lt_or_le r 0 with hr | hr
  · rw [submit_of_neg hr]
    exact Or.inl ⟨hr, rfl, rfl⟩
  · rw [submit_of_nonneg hr]
    exact Or.inr ⟨Int.not_lt.mpr hr, by simp⟩

variable (cfg) in
theorem leaves_onRead (hphase : s.phase ≠ .out) (slot : ℕ) (res r : ℤ) :
    Leaves (res ≠ 0 ∧ (cfg.sqEntries ≤ s.ring.queued.length ∨ r < 0)) s
      (onRead cfg slot res r s) := by
  by_cases h0 : res = 0
  · rw [onRead, if_pos h0]
    exact Or.inr ⟨fun hand => hand.1 h0, hphase⟩
  rw [onRead, if_neg h0]
  cases hpush : s.ring.push cfg.sqEntries (writeSqe slot res.toNat (s.slots slot).off) with
  | none => exact Or.inl ⟨⟨h0, Or.inl (push_eq_none.mp hpush)⟩, rfl, rfl⟩
  | some ring =>
    obtain ⟨hroom, rfl⟩ := push_eq_some.mp hpush
    simp only
    rcases Int.lt_or_le r 0 with hr | hr
    · rw [submit_of_neg hr]
      exact Or.inl ⟨⟨h0, Or.inr hr⟩, rfl, rfl⟩
    · rw [submit_of_nonneg hr]
      exact Or.inr ⟨fun hand => by omega, by simp⟩

variable (cfg) in
theorem leaves_onWrite (hphase : s.phase ≠ .out) (slot : ℕ) (res r : ℤ) :
    Leaves (CancelsAt cfg s.reports (s.copied + res.toNat) ∨
      (s.nextOff < cfg.fileSize ∧ (cfg.sqEntries ≤ s.ring.queued.length ∨ r < 0))) s
      (onWrite cfg slot res r s) := by
  obtain ⟨cancel, n, log, _, _, hcancel, hrep⟩ :=
    report_cases cfg { s with copied := s.copied + res.toNat }
  simp only [onWrite, hrep]
  by_cases hc : cancel = true
  · rw [if_pos hc]
    exact Or.inl ⟨Or.inl (hcancel.mp hc), rfl, rfl⟩
  rw [if_neg hc]
  have hnot : ¬ CancelsAt cfg s.reports (s.copied + res.toNat) := fun h => hc (hcancel.mpr h)
  by_cases hlt : s.nextOff < cfg.fileSize
  · rw [if_pos hlt]
    unfold enqueueRead
    simp only
    generalize cfg.sizing.want s.nextOff s.calls = want
    cases hpush : s.ring.push cfg.sqEntries (readSqe slot want s.nextOff) with
    | none =>
      refine Or.inl ⟨Or.inr ⟨hlt, Or.inl (push_eq_none.mp hpush)⟩, ?_⟩
      simp [State.andSubmit, State.goOut]
    | some ring =>
      obtain ⟨hroom, rfl⟩ := push_eq_some.mp hpush
      simp only [State.andSubmit, if_neg hphase]
      rcases Int.lt_or_le r 0 with hr | hr
      · rw [submit_of_neg hr]
        exact Or.inl ⟨Or.inr ⟨hlt, Or.inr hr⟩, rfl, rfl⟩
      · rw [submit_of_nonneg hr]
        exact Or.inr ⟨fun hor => hor.elim hnot fun hand => by omega, by simp⟩
  · rw [if_neg hlt]
    exact Or.inr ⟨fun hor => hor.elim hnot fun hand => hlt hand.1, hphase⟩

theorem leaves_onCqe (hphase : s.phase ≠ .out) (ud : UInt64) (res r : ℤ) :
    Leaves (CqeAborts cfg ud res r s) s (onCqe cfg ud res r s) := by
  unfold onCqe CqeAborts
  simp only
  by_cases hslot : cfg.qd ≤ (udSlot ud).toNat ∨ (s.slots (udSlot ud).toNat).active = false
  · rw [if_pos hslot]
    exact Or.inl ⟨Or.inl hslot, rfl, rfl⟩
  rw [if_neg hslot]
  by_cases hneg : res < 0
  · rw [if_pos hneg]
    exact Or.inl ⟨Or.inr (Or.inl hneg), rfl, rfl⟩
  rw [if_neg hneg]
  by_cases hop : udOp ud = 0
  · rw [if_pos hop]
    simpa [hslot, hneg, hop] using leaves_onRead cfg hphase (udSlot ud).toNat res r
  · rw [if_neg hop]
    simpa [hslot, hneg, hop] using leaves_onWrite cfg hphase (udSlot ud).toNat res r

theorem leaves_iterate (hphase : s.phase ≠ .out) {w r : ℤ} {t : State}
    (ht : iterate cfg w r s = some t) : Leaves (Aborts cfg s (.iterate w r)) s t := by
  unfold iterate at ht
  by_cases hw : w < 0
  · rw [if_pos hw] at ht
    rw [← Option.some.inj ht]
    exact Or.inl ⟨Or.inl hw, rfl, rfl⟩
  rw [if_neg hw] at ht
  obtain ⟨⟨⟨q, res⟩, ring⟩, hreap, rfl⟩ := Option.map_eq_some_iff.mp ht
  obtain ⟨cs, hcs, rfl⟩ := reap_eq_some.mp hreap
  have hiff : Aborts cfg s (.iterate w r) ↔ CqeAborts cfg q.userData res r s := by
    simp only [Aborts, hcs, List.cons.injEq, Prod.mk.injEq, hw, false_or]
    constructor
    · rintro ⟨q', res', cs', ⟨⟨rfl, rfl⟩, rfl⟩, h⟩
      exact h
    · exact fun h => ⟨q, res, cs, ⟨⟨rfl, rfl⟩, rfl⟩, h⟩
  rw [hiff]
  exact leaves_onCqe (s := { s with
    ring := { s.ring with completed := cs }, inflight := s.inflight - 1, ret := w }) hphase
    q.userData res r

variable (cfg) in
/-- While the queue is primed nothing is handed over. -/
theorem outstanding_primeLoop : ∀ (is : List ℕ) (s : State),
    (primeLoop cfg is s).ring.outstanding = s.ring.outstanding
  | [], _ => rfl
  | i :: is, s => by
    rw [primeLoop]
    split
    · rw [outstanding_primeLoop is]
      unfold enqueueRead
      simp only
      generalize cfg.sizing.want (s.setActive i true).nextOff (s.setActive i true).calls = want
      cases hpush : (s.setActive i true).ring.push cfg.sqEntries
          (readSqe i want (s.setActive i true).nextOff) with
      | none => rfl
      | some ring =>
        obtain ⟨_, rfl⟩ := push_eq_some.mp hpush
        rfl
    · rfl

/-- **How the copy leaves its loop.** -/
theorem exitRule (hblock : 0 < cfg.blockSize) :
    ExitRule (step cfg) (Good cfg) (fun s => s.phase = .out) (fun s => s.ring.outstanding ≠ [])
      (Aborts cfg) where
  keep s e t hgood ht := good_step hblock hgood ht
  stay s e t hgood hs ht hbusy := by
    cases step_cases ht with
    | complete _ hc => exact outstanding_ne_nil_of_complete hc
    | cleanup => exact hbusy
    | _ => simp_all
  leave s e t hgood hs ht := by
    cases step_cases ht with
    | complete _ hc =>
      exact Or.inr ⟨id, fun hout => absurd ((complete_frame hc).1.symm.trans hout) hs⟩
    | @prime r hphase =>
      have hnil := outstanding_primeLoop cfg (List.range cfg.qd) s
      rw [hgood.of_priming hphase] at hnil ⊢
      refine Or.inr ⟨id, fun hout hne => hne ?_⟩
      unfold State.andSubmit at hout ⊢
      split at hout
      · next hp => rw [if_pos hp]; exact hnil
      · next hp =>
        rw [if_neg hp]
        rcases leaves_submit r with ⟨_, _, heq⟩ | ⟨_, hnot⟩
        · rw [heq]
          exact hnil
        · exact absurd hout hnot
    | iterate _ _ hit =>
      rcases leaves_iterate hs hit with ⟨hab, hout, heq⟩ | ⟨hab, hnot⟩
      · exact Or.inl ⟨hab, hout, by rw [heq]⟩
      · exact Or.inr ⟨hab, fun hout => absurd hout hnot⟩
    | @finish ok err hphase hend =>
      have hring : (finish cfg ok err s).ring = s.ring := by
        unfold finish
        cases ok <;> cases cfg.doFsync <;> cases err <;> rfl
      refine Or.inr ⟨id, fun _ hne => hne ?_⟩
      rw [hring]
      exact ((hgood.of_loop hphase).idle hend).2.1
    | cleanup hphase => exact absurd hphase hs

theorem freesWhenIdle_step (cfg : Config) :
    FreesWhenIdle (step cfg) (start cfg) (fun s => s.phase = .out) State.ring (Aborts cfg) := by
  rcases entry_cases cfg with h | ⟨r, _, h⟩ | ⟨h, _⟩
  · exact freesWhenIdle (exitRule (entry_eq_priming h).2.1) good_start (by simp [start, blank, h])
  · exact freesWhenIdle_of_stuck (step_of_returned (r := r) (by rw [start, h]; rfl))
      (by simp [start, blank, h])
  · exact freesWhenIdle_of_stuck (step_of_returned (r := 0) (by rw [start, h]; rfl))
      (by simp [start, blank, h])

/-- The first of two reads comes back with an error: the run is at `out:` with the
other read outstanding. -/
theorem exec_readError : ((exec (step twoChunks) (start twoChunks)
    [.prime 2, .complete 0 (-5), .iterate 0 0]).map fun s =>
      (s.phase, s.ring.outstanding.length)) = some (.out, 1) := by
  decide

end CopyPath

namespace WriteNewfile

variable {cfg : Config} {s : State}

/-- **How the writer of a new file leaves its loop.** -/
theorem exitRule (hqd : 0 < cfg.qd) (hblock : 0 < cfg.blockSize) :
    ExitRule (step cfg) (Good cfg) (fun s => s.phase = .out) (fun s => s.ring.outstanding ≠ [])
      (Aborts cfg) where
  keep s e t hgood ht := (step_good hqd hblock hgood ht).1
  stay s e t hgood hs ht hbusy := by
    cases step_cases ht with
    | complete _ hc =>
      obtain ⟨q, ring, hring, _⟩ := complete_cases hc
      exact List.ne_nil_of_mem (mem_outstanding_of_complete hring)
    | cleanup => exact hbusy
    | _ => simp_all
  leave s e t hgood hs ht := by
    cases step_cases ht with
    | complete _ hc =>
      refine Or.inr ⟨id, fun hout => absurd ?_ hs⟩
      obtain ⟨q, ring, _, _, rfl⟩ := complete_cases hc
      exact hout
    | fill hphase =>
      have hloop := hgood.of_head hphase
      obtain ⟨henq, _⟩ := enqueue_spec hqd hblock cfg.qd hloop.accounts
      rcases fill_cases hloop hqd hblock _ with ⟨hab, heq⟩ | ⟨hab, u, heq, _⟩ <;> rw [heq]
      · exact Or.inl ⟨hab, rfl, by rw [State.goOut, henq.outstanding]⟩
      · refine Or.inr ⟨hab, ?_⟩
        intro hout
        rcases awaitAny_phase u with ⟨hp, _⟩ | ⟨hp, _⟩ <;>
          exact absurd (hp.symm.trans hout) (by simp)
    | waitFails _ hneg => exact Or.inl ⟨hneg, rfl, Iff.rfl⟩
    | waits _ hret => exact Or.inr ⟨Int.not_lt.mpr hret, fun hout => absurd hout (by simp)⟩
    | reap hphase =>
      obtain ⟨hkept, hcase⟩ := reap_cases (hgood.of_reap hphase)
      rcases hcase with ⟨hab, hfail⟩ | ⟨hab, _, hcase⟩
      · exact Or.inl ⟨hab, hfail.phase, by rw [hkept.outstanding]⟩
      · refine Or.inr ⟨hab, ?_⟩
        intro hout
        rcases hcase with ⟨hp, _⟩ | ⟨hp, _⟩
        · exact absurd (hp.symm.trans hout) (by simp)
        · exact absurd (hp.symm.trans hout) hs
    | @finish err hphase hend =>
      have hidle := ((hgood.of_head hphase).finished hend (t := { s with
        log := if cfg.doFsync then .fsync dfd :: s.log else s.log }) rfl rfl rfl).idle
      have hring : (finish cfg err s).ring = s.ring := by
        unfold finish
        cases cfg.doFsync <;> cases err <;> rfl
      exact Or.inr ⟨id, fun _ hne => hne (by rw [hring]; exact hidle.2.1)⟩
    | cleanup hphase => exact absurd hphase hs

theorem freesWhenIdle_step (cfg : Config) :
    FreesWhenIdle (step cfg) (start cfg) (fun s => s.phase = .out) State.ring (Aborts cfg) := by
  rcases entry_cases cfg with ⟨h, _, hblock, hqd⟩ | ⟨r, _, h⟩
  · exact freesWhenIdle (exitRule hqd hblock) good_start (by simp [start, blank, h])
  · exact freesWhenIdle_of_stuck (step_of_returned (r := r) (by rw [start, h]; rfl))
      (by simp [start, blank, h])

end WriteNewfile

namespace WriteManyfiles

variable {cfg : Config} {s : State}

/-- **How the writer of many files leaves its loop.** -/
theorem exitRule :
    ExitRule (step cfg) (Good cfg) (fun s => s.phase = .out) (fun s => s.ring.outstanding ≠ [])
      (Aborts cfg) where
  keep s e t hgood ht := good_step hgood ht
  stay s e t hgood hs ht hbusy := by
    cases step_cases ht with
    | complete _ hc =>
      obtain ⟨q, ring, hring, _⟩ := complete_cases hc
      exact List.ne_nil_of_mem (mem_outstanding_of_complete hring)
    | cleanup => exact hbusy
    | _ => simp_all
  leave s e t hgood hs ht := by
    rcases step_leaves hgood ht hs with ⟨hab, hfail, heq⟩ | ⟨hab, _, hnil⟩
    · exact Or.inl ⟨hab, hfail.phase, by rw [heq]⟩
    · exact Or.inr ⟨hab, fun hout hne => hne (hnil hout)⟩

theorem freesWhenIdle_step (cfg : Config) :
    FreesWhenIdle (step cfg) (start cfg) (fun s => s.phase = .out) State.ring (Aborts cfg) := by
  rcases entry_cases cfg with ⟨h, _⟩ | ⟨r, _, h⟩ <;>
    exact freesWhenIdle exitRule good_start (by simp [start, blank, h])

end WriteManyfiles

/-- **When buffers are freed under a request.**  Each of the three pipelines frees its
buffers with nothing outstanding as long as it does not leave its loop early while a
request is outstanding, and only then. -/
theorem buffers_freed_when_idle (copy : CopyPath.Config) (newfile : WriteNewfile.Config)
    (manyfiles : WriteManyfiles.Config) :
    FreesWhenIdle (CopyPath.step copy) (CopyPath.start copy) (fun s => s.phase = .out)
      CopyPath.State.ring (CopyPath.Aborts copy) ∧
    FreesWhenIdle (WriteNewfile.step newfile) (WriteNewfile.start newfile)
      (fun s => s.phase = .out) WriteNewfile.State.ring (WriteNewfile.Aborts newfile) ∧
    FreesWhenIdle (WriteManyfiles.step manyfiles) (WriteManyfiles.start manyfiles)
      (fun s => s.phase = .out) WriteManyfiles.State.ring (WriteManyfiles.Aborts manyfiles) :=
  ⟨CopyPath.freesWhenIdle_step copy, WriteNewfile.freesWhenIdle_step newfile,
    WriteManyfiles.freesWhenIdle_step manyfiles⟩

/-- A read error with a second read in flight: the buffers are freed under it. -/
theorem buffers_freed_in_use : ¬ ∀ (cfg : CopyPath.Config) (s : CopyPath.State),
    Reach (CopyPath.step cfg) AnyStep (CopyPath.start cfg) s → s.phase = .out →
      s.ring.outstanding = [] := by
  intro hall
  obtain ⟨s, hs, hobs⟩ := Option.map_eq_some_iff.mp CopyPath.exec_readError
  have hnil := hall _ s (reach_anyStep_of_exec hs) (congrArg Prod.fst hobs)
  have hlen : s.ring.outstanding.length = 1 := congrArg Prod.snd hobs
  rw [hnil] at hlen
  exact absurd hlen (by decide)

end Native
end Pyuring
