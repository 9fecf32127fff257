import Pyuring.Native.WriteNewfileRun
import Pyuring.Native.WriteLedger

/-!
# Every write of a new file ends

What is true of `uring_write_newfile_dynamic` however it goes, as long as the submission
queue has room for `qd` entries: system calls fail or not, the callbacks answer anything,
and the kernel moves any number of bytes, also none.

The books are those of the undisturbed runs without what asks for full writes: the file is
what the writes done have made of it, and until something fails `written` counts what is
done and reaped.

The measure of the undisturbed runs does not do when a call fails, since the way out starts
in the middle of a round; `toDo` gives the phases other weights.
-/

namespace Pyuring
namespace Native
namespace WriteNewfile

open CompletionRing Trace

variable {cfg : Config} {s t : State}

/-! ## The books -/

/-- The books are balanced, and the file is what the writes done have made of it. -/
structure Filed (s : State) : Prop where
  balanced : Balanced s.log s.ring
  dst : s.dst = SparseFile.ofWrites (blocks pattern dfd s.log)
  file : ∀ q ∈ Native.prepped s.log, q.opcode = .write ∧ q.file = dfd

/-- `written` counts the bytes done and reaped. -/
def Tallied (s : State) : Prop :=
  s.written + (s.ring.completed.map fun x => x.2.toNat).sum =
    ((dones s.log).map fun x => x.2.toNat).sum

/-- An error is returned, or on its way. -/
def Failing (s : State) : Prop := s.phase = .out ∧ s.ret < 0 ∨ ∃ r < 0, s.phase = .returned r

theorem not_failing_of_phase (hout : s.phase ≠ .out) (hreturned : ∀ r, s.phase ≠ .returned r) :
    ¬ Failing s := by
  rintro (⟨hphase, -⟩ | ⟨r, -, hphase⟩)
  · exact hout hphase
  · exact hreturned r hphase

theorem not_failing_of_returned {r : ℤ} (hr : 0 ≤ r) (hret : s.phase = .returned r) :
    ¬ Failing s := by
  rintro (⟨hout, -⟩ | ⟨r', hneg, hret'⟩)
  · exact absurd (hret.symm.trans hout) (by simp)
  · rw [hret, Phase.returned.injEq] at hret'
    omega

/-- A step that prepares nothing and completes nothing. -/
theorem Filed.congr (h : Filed s) (hprep : Native.prepped t.log = Native.prepped s.log)
    (hdone : dones t.log = dones s.log) (hbalanced : Balanced t.log t.ring)
    (hdst : t.dst = s.dst) : Filed t where
  balanced := hbalanced
  dst := by rw [hdst, h.dst, blocks, blocks, hdone]
  file := by rw [hprep]; exact h.file

theorem Filed.enqueueOne (h : Filed s) (cfg : Config) : Filed (enqueueOne cfg s).2 := by
  unfold WriteNewfile.enqueueOne
  simp only
  split
  · exact h.congr rfl rfl h.balanced rfl
  · next ring hpush =>
    refine ⟨h.balanced.push hpush, h.dst, ?_⟩
    intro q hq
    rcases List.mem_append.mp hq with hq | hq
    · exact h.file q hq
    · rw [List.mem_singleton.mp hq]
      exact ⟨rfl, rfl⟩

theorem Filed.enqueue (cfg : Config) : ∀ (n : ℕ) {s : State}, Filed s → Filed (enqueue cfg n s)
  | 0, _, h => h
  | n + 1, s, h => by
    rw [WriteNewfile.enqueue]
    split
    · have hone := h.enqueueOne cfg
      cases hstep : WriteNewfile.enqueueOne cfg s with
      | mk ok t =>
        rw [hstep] at hone
        cases ok with
        | true => exact Filed.enqueue cfg n hone
        | false => exact hone
    · exact h

theorem Filed.fill (h : Filed s) (r : ℤ) : Filed (fill cfg r s) := by
  have hqueued := Filed.enqueue cfg cfg.qd h
  unfold WriteNewfile.fill
  simp only
  split
  · exact hqueued.congr rfl rfl hqueued.balanced rfl
  split
  · exact hqueued.congr rfl rfl hqueued.balanced rfl
  · exact hqueued.congr rfl rfl hqueued.balanced.submit rfl

theorem Filed.outstanding (h : Filed s) {q : Sqe} (hq : q ∈ s.ring.outstanding) :
    q.opcode = .write ∧ q.file = dfd := by
  refine h.file q ?_
  rw [← Multiset.mem_coe, h.balanced.perm]
  exact Multiset.mem_add.mpr (Or.inr hq)

theorem Filed.complete (h : Filed s) {i : ℕ} {res : ℤ} (ht : complete cfg i res s = some t) :
    Filed t := by
  obtain ⟨q, ring, hring, hle, rfl⟩ := complete_cases ht
  have hfile := (h.outstanding (mem_outstanding_of_complete hring)).2
  refine ⟨h.balanced.complete hring hle, ?_, h.file⟩
  simp only [blocks, dones, List.filter_cons, hfile, decide_true, if_true, List.map_cons,
    SparseFile.ofWrites, h.dst]

/-- What handling a batch leaves alone, also when it stops half-way. -/
theorem reapBatch_frame (cfg : Config) (got : ℕ) : ∀ (cs : List (Sqe × ℤ)) (i : ℕ) (s : State),
    (reapBatch cfg got i cs s).ring.queued = s.ring.queued ∧
      (reapBatch cfg got i cs s).ring.outstanding = s.ring.outstanding ∧
      (reapBatch cfg got i cs s).ring.completed.length ≤ s.ring.completed.length ∧
      (reapBatch cfg got i cs s).dst = s.dst ∧ ReportsOnly s.log (reapBatch cfg got i cs s).log
  | [], _, s => ⟨rfl, rfl, by simp [reapBatch, State.advance, advance], rfl, ReportsOnly.refl _⟩
  | (q, res) :: cs, i, s => by
    rw [reapBatch]
    split
    · exact ⟨rfl, rfl, by simp [State.advance, advance, State.goOut], rfl, ReportsOnly.refl _⟩
    split
    · exact ⟨rfl, rfl, by simp [State.advance, advance, State.goOut], rfl, ReportsOnly.refl _⟩
    obtain ⟨cancel, n, log, hlog, -, -, hrep⟩ :=
      report_cases cfg { s with written := s.written + res.toNat }
    simp only [hrep]
    split
    · exact ⟨rfl, rfl, by simp [State.advance, advance, State.goOut], rfl, hlog⟩
    · obtain ⟨hqueued, hout, hlen, hdst, hlog'⟩ := reapBatch_frame cfg got cs (i + 1)
        { s with written := s.written + res.toNat, reports := n, log := log }
      exact ⟨hqueued, hout, hlen, hdst, hlog.trans hlog'⟩

theorem reap_frame (cfg : Config) (s : State) :
    (reap cfg s).ring.queued = s.ring.queued ∧
      (reap cfg s).ring.outstanding = s.ring.outstanding ∧
      (reap cfg s).ring.completed.length ≤ s.ring.completed.length ∧
      (reap cfg s).dst = s.dst ∧ ReportsOnly s.log (reap cfg s).log := by
  unfold reap
  simp only
  split
  · exact ⟨rfl, rfl, Nat.le_refl _, rfl, ReportsOnly.refl _⟩
  · exact reapBatch_frame cfg _ _ _ s

theorem Filed.step (h : Filed s) {e : Event} (ht : step cfg s e = some t) : Filed t := by
  cases step_cases ht with
  | complete _ hc => exact h.complete hc
  | fill => exact h.fill _
  | waitFails => exact h.congr rfl rfl h.balanced rfl
  | waits => exact h.congr rfl rfl h.balanced rfl
  | reap =>
    obtain ⟨hqueued, hout, -, hdst, hlog⟩ := reap_frame cfg s
    exact h.congr hlog.prepped_eq hlog.dones_eq
      (h.balanced.congr hlog.prepped_eq hlog.dones_eq hqueued hout) hdst
  | finish =>
    unfold finish
    split
    · split
      · exact h.congr rfl rfl h.balanced rfl
      · exact h.congr rfl rfl (h.balanced.congr rfl rfl rfl rfl) rfl
    · exact h.congr rfl rfl h.balanced rfl
  | cleanup => exact h.congr rfl rfl h.balanced rfl

/-! ## What was counted -/

theorem Tallied.congr (h : Tallied s) (hwritten : t.written = s.written)
    (hcomp : t.ring.completed = s.ring.completed) (hdone : dones t.log = dones s.log) :
    Tallied t := by
  unfold Tallied
  rw [hwritten, hcomp, hdone]
  exact h

theorem enqueue_tally (cfg : Config) : ∀ (n : ℕ) (s : State),
    (enqueue cfg n s).written = s.written ∧
      (enqueue cfg n s).ring.completed = s.ring.completed ∧
      dones (enqueue cfg n s).log = dones s.log
  | 0, _ => ⟨rfl, rfl, rfl⟩
  | n + 1, s => by
    rw [enqueue]
    split
    · unfold enqueueOne
      simp only
      split
      · next hpush => exact ⟨rfl, rfl, rfl⟩
      · next ring hpush =>
        obtain ⟨-, rfl⟩ := push_eq_some.mp hpush
        exact enqueue_tally cfg n _
    · exact ⟨rfl, rfl, rfl⟩

theorem Tallied.complete (h : Tallied s) {i : ℕ} {res : ℤ} (ht : complete cfg i res s = some t) :
    Tallied t := by
  obtain ⟨q, ring, hring, -, rfl⟩ := complete_cases ht
  obtain ⟨-, rfl⟩ := complete_eq_some.mp hring
  exact counted_done h q res

/-- Reaping counts what it takes off the ring, unless it stops half-way. -/
theorem Tallied.reap (h : Tallied s) (hab : ¬ Aborts cfg s .reap) : Tallied (reap cfg s) := by
  unfold WriteNewfile.reap
  simp only
  split
  · exact h.congr rfl rfl rfl
  next hidle =>
  rcases reapBatch_cases cfg (s.ring.completed.take batchSize).length
    (s.ring.completed.take batchSize) 0 s with ⟨habort, -⟩ | ⟨-, n, log, hlog, heq⟩
  · exact absurd ⟨(not_or.mp hidle).1, habort⟩ hab
  · rw [heq, advance_length_take, Tallied, hlog.dones_eq]
    exact (counted_reap batchSize s.written s.ring.completed).trans h

/-- An error stays one. -/
theorem Failing.step (h : Failing s) {e : Event} (ht : step cfg s e = some t) : Failing t := by
  rcases h with ⟨hphase, hret⟩ | ⟨r, -, hphase⟩
  · cases step_cases ht with
    | complete _ hc =>
      obtain ⟨q, ring, -, -, rfl⟩ := complete_cases hc
      exact Or.inl ⟨hphase, hret⟩
    | cleanup => exact Or.inr ⟨s.ret, hret, by rw [State.result, if_pos hret]⟩
    | _ => simp_all
  · rw [step_of_returned hphase] at ht
    exact absurd ht (by simp)

theorem Failed.failing (h : Failed s) : Failing s := Or.inl ⟨h.phase, h.ret⟩

/-- Until something fails, the count is right. -/
theorem tallied_step (h : Failing s ∨ Tallied s) (hgood : Good cfg s) {e : Event}
    (ht : step cfg s e = some t) : Failing t ∨ Tallied t := by
  rcases h with hfail | h
  · exact Or.inl (hfail.step ht)
  cases step_cases ht with
  | complete _ hc => exact Or.inr (h.complete hc)
  | @fill r hphase hcont =>
    obtain ⟨hwritten, hcomp, hdone⟩ := enqueue_tally cfg cfg.qd s
    unfold fill
    simp only
    split
    · exact Or.inr (h.congr hwritten hcomp hdone)
    split
    · next hneg => exact Or.inl (Or.inl ⟨rfl, hneg⟩)
    · exact Or.inr (h.congr hwritten hcomp hdone)
  | waitFails _ hneg => exact Or.inl (Or.inl ⟨rfl, hneg⟩)
  | waits => exact Or.inr (h.congr rfl rfl rfl)
  | reap hphase =>
    rcases (reap_cases (hgood.of_reap hphase)).2 with ⟨-, hfail⟩ | ⟨hab, -⟩
    · exact Or.inl hfail.failing
    · exact Or.inr (h.reap hab)
  | finish =>
    unfold finish
    split
    · split
      · exact Or.inl (Or.inl ⟨rfl, Errno.neg_lt _⟩)
      · exact Or.inr (h.congr rfl rfl rfl)
    · exact Or.inr (h.congr rfl rfl rfl)
  | cleanup => exact Or.inr (h.congr rfl rfl rfl)

/-! ## The measure -/

/-- What is left of a round of the loop, and of the way out. -/
def stage (s : State) : ℕ :=
  match s.phase with
  | .head => 4
  | .wait => 3
  | .reap => if s.ring.completed = [] then 5 else 2
  | .out => 1
  | .returned _ => 0

def toDo (cfg : Config) (s : State) : ℕ :=
  6 * (cfg.totalBytes - s.nextOff) + 5 * s.ring.outstanding.length +
    4 * s.ring.completed.length + stage s

/-- A wait that does not fail returns when there is something to reap. -/
def Delivers (s : State) : Event → Prop
  | .wait waitRet => 0 ≤ waitRet → s.ring.completed ≠ []
  | _ => True

theorem Chunked.nextOff_le {k : ℕ} (h : Chunked cfg s k) : s.nextOff ≤ cfg.totalBytes := by
  have hoff : cfg.sizing.offset k = s.nextOff := congrArg Prod.fst h.chunk
  have hle := Sizing.offset_le_total (z := cfg.sizing) k
  rw [hoff] at hle
  exact hle

theorem toDo_complete {i : ℕ} {res : ℤ} (ht : complete cfg i res s = some t) :
    toDo cfg t < toDo cfg s := by
  obtain ⟨q, ring, hring, -, rfl⟩ := complete_cases ht
  obtain ⟨hq, rfl⟩ := complete_eq_some.mp hring
  obtain ⟨hi, -⟩ := List.getElem?_eq_some_iff.mp hq
  have hlen := List.length_eraseIdx_of_lt hi
  have hstage : stage { s with
      ring := { s.ring with
        outstanding := s.ring.outstanding.eraseIdx i
        completed := s.ring.completed ++ [(q, res)] }
      log := .done q res :: s.log
      dst := s.dst.write q.off (pattern q.buf res.toNat)
      overrun := s.overrun || decide (cfg.maxBufferSize < res.toNat) } ≤ stage s := by
    unfold stage
    cases s.phase with
    | reap =>
      simp only [List.append_eq_nil_iff, List.cons_ne_self, and_false, if_false]
      split <;> omega
    | _ => exact Nat.le_refl _
  simp only [toDo, hlen, List.length_append, List.length_singleton] at hstage ⊢
  omega

theorem toDo_fill (hqd : 0 < cfg.qd) (hblock : 0 < cfg.blockSize) (hroom : cfg.qd ≤ cfg.sqEntries)
    (hloop : Looping cfg s) (hphase : s.phase = .head) (hcont : s.Continues cfg) (r : ℤ)
    (hle : (fill cfg r s).nextOff ≤ cfg.totalBytes) : toDo cfg (fill cfg r s) < toDo cfg s := by
  obtain ⟨henq, -, -⟩ := enqueue_spec hqd hblock cfg.qd hloop.accounts
  have hgrow := henq.grow
  rw [hloop.queued, List.length_nil] at hgrow
  have hstage : stage s = 4 := by rw [stage, hphase]
  rcases fill_cases hloop hqd hblock r with ⟨-, heq⟩ | ⟨-, u, heq, hu, hout, hcomp, hoff, -⟩
  · rw [heq]
    have hwork : toDo cfg ((enqueue cfg cfg.qd s).goOut r) =
        6 * (cfg.totalBytes - (enqueue cfg cfg.qd s).nextOff) +
          5 * (enqueue cfg cfg.qd s).ring.outstanding.length +
          4 * (enqueue cfg cfg.qd s).ring.completed.length + 1 := rfl
    rw [hwork, toDo, hstage, henq.outstanding, henq.completed]
    omega
  · have hin := fill_inflight hloop hqd hblock hroom hcont hu hout hcomp
    have hwait : u.awaitAny.phase = .wait := by
      rcases awaitAny_phase u with ⟨-, h0⟩ | ⟨hp, -⟩
      · exact absurd h0 hin
      · exact hp
    rw [heq] at hle ⊢
    have hstage' : stage u.awaitAny = 3 := by rw [stage, hwait]
    have hle : u.nextOff ≤ cfg.totalBytes := hle
    have hwork : toDo cfg u.awaitAny = 6 * (cfg.totalBytes - u.nextOff) +
        5 * u.ring.outstanding.length + 4 * u.ring.completed.length + stage u.awaitAny := rfl
    rw [hwork, toDo, hstage, hstage', hout, hcomp, List.length_append]
    omega

theorem toDo_reap (hloop : Looping cfg s) (hphase : s.phase = .reap) :
    toDo cfg (reap cfg s) < toDo cfg s := by
  obtain ⟨hkept, hcase⟩ := reap_cases hloop
  obtain ⟨-, hout, hlen, -, -⟩ := reap_frame cfg s
  have hstage : stage s = if s.ring.completed = [] then 5 else 2 := by rw [stage, hphase]
  rcases hcase with ⟨-, hfail⟩ | ⟨-, hloop', ⟨hp, hidle, hring⟩ | ⟨hp, -, hne, hcomp⟩⟩
  · have hstage' : stage (reap cfg s) = 1 := by rw [stage, hfail.phase]
    have hpos : 2 ≤ stage s := by
      rw [hstage]
      split <;> omega
    simp only [toDo, hkept.nextOff, hout, hstage']
    omega
  · have hnil : s.ring.completed = [] := by
      rcases hidle with h0 | hnil
      · have := hloop.accounts.inflight
        exact List.length_eq_zero_iff.mp (by omega)
      · exact hnil
    have hstage' : stage (reap cfg s) = 4 := by rw [stage, hp]
    rw [if_pos hnil] at hstage
    simp only [toDo, hkept.nextOff, hring, hstage, hstage']
    omega
  · have hstage' : stage (reap cfg s) ≤ 5 := by
      rw [stage, hp, hphase]
      simp only
      split <;> omega
    rw [if_neg hne] at hstage
    have hpos := List.length_pos_iff.mpr hne
    simp only [toDo, hkept.nextOff, hout, hcomp, List.length_drop, batchSize, hstage]
    omega

/-- **Every step leaves less to do**, also one that fails, and whatever the writes moved. -/
theorem toDo_lt (hqd : 0 < cfg.qd) (hblock : 0 < cfg.blockSize) (hroom : cfg.qd ≤ cfg.sqEntries)
    (hgood : Good cfg s) (hchunk : ∃ k, Chunked cfg s k) {e : Event} (hdel : Delivers s e)
    (ht : step cfg s e = some t) : toDo cfg t < toDo cfg s := by
  have hchunk' := (step_good hqd hblock hgood ht).2 hroom hchunk
  cases step_cases ht with
  | complete _ hc => exact toDo_complete hc
  | fill hphase hcont =>
    obtain ⟨k, hk⟩ := hchunk'
    exact toDo_fill hqd hblock hroom (hgood.of_head hphase) hphase hcont _ hk.nextOff_le
  | waitFails hphase => simp only [toDo, stage, hphase, State.goOut]; omega
  | waits hphase hret =>
    simp only [toDo, stage, hphase, if_neg (hdel hret)]
    omega
  | reap hphase => exact toDo_reap (hgood.of_reap hphase) hphase
  | @finish e hphase hend =>
    have hframe : (finish cfg e s).nextOff = s.nextOff ∧ (finish cfg e s).ring = s.ring ∧
        (finish cfg e s).phase = .out := by
      unfold finish
      cases cfg.doFsync <;> cases e <;> exact ⟨rfl, rfl, rfl⟩
    simp only [toDo, stage, hframe, hphase]
    omega
  | cleanup hphase => simp only [toDo, stage, hphase]; omega

/-! ## The end -/

/-- No call fails, no write fails, and a wait returns when there is something to reap.  A write
may move nothing. -/
def Smooth (s : State) : Event → Prop
  | .complete _ res => 0 ≤ res
  | .fill submitRet => 0 ≤ submitRet
  | .wait waitRet => 0 ≤ waitRet ∧ s.ring.completed ≠ []
  | .reap => True
  | .finish fsyncErr => fsyncErr = none
  | .cleanup => True

theorem Smooth.delivers {e : Event} (h : Smooth s e) : Delivers s e := by
  cases e with
  | wait w => exact fun _ => h.2
  | _ => trivial

/-- The program waits only when writes are in flight. -/
def WaitsForSome (s : State) : Prop := s.phase = .wait → s.inflight ≠ 0

/-- Everything that holds in every run with room in the submission queue. -/
structure Sound (cfg : Config) (s : State) : Prop where
  good : Good cfg s
  chunked : ∃ k, Chunked cfg s k
  filed : Filed s
  tallied : Failing s ∨ Tallied s
  waits : WaitsForSome s

theorem waitsForSome_step (hqd : 0 < cfg.qd) (hblock : 0 < cfg.blockSize)
    (hroom : cfg.qd ≤ cfg.sqEntries) (h : WaitsForSome s) (hgood : Good cfg s) {e : Event}
    (ht : step cfg s e = some t) : WaitsForSome t := by
  cases step_cases ht with
  | complete _ hc =>
    obtain ⟨q, ring, -, -, rfl⟩ := complete_cases hc
    exact h
  | @fill r hphase hcont =>
    have hloop := hgood.of_head hphase
    rcases fill_cases hloop hqd hblock r with ⟨-, heq⟩ | ⟨-, u, heq, hu, hout, hcomp, -⟩
    · rw [heq]
      exact fun hwait => absurd hwait (by simp [State.goOut])
    · have hin := fill_inflight hloop hqd hblock hroom hcont hu hout hcomp
      rw [heq]
      exact fun _ => hin
  | waitFails => exact fun hwait => absurd hwait (by simp [State.goOut])
  | waits => exact fun hwait => absurd hwait (by simp)
  | reap hphase =>
    rcases (reap_cases (hgood.of_reap hphase)).2 with ⟨-, hfail⟩ | ⟨-, -, ⟨hp, -⟩ | ⟨hp, -⟩⟩ <;>
      intro hwait
    · exact absurd (hwait.symm.trans hfail.phase) (by simp)
    · exact absurd (hwait.symm.trans hp) (by simp)
    · exact absurd (hwait.symm.trans (hp.trans hphase)) (by simp)
  | @finish e =>
    have hout : (finish cfg e s).phase = .out := by
      unfold finish
      cases cfg.doFsync <;> cases e <;> rfl
    exact fun hwait => absurd (hwait.symm.trans hout) (by simp)
  | cleanup => exact fun hwait => absurd hwait (by simp)

theorem Sound.step (h : Sound cfg s) (hqd : 0 < cfg.qd) (hblock : 0 < cfg.blockSize)
    (hroom : cfg.qd ≤ cfg.sqEntries) {e : Event} (ht : step cfg s e = some t) : Sound cfg t := by
  obtain ⟨hgood, hchunk⟩ := step_good hqd hblock h.good ht
  exact ⟨hgood, hchunk hroom h.chunked, h.filed.step ht, tallied_step h.tallied h.good ht,
    waitsForSome_step hqd hblock hroom h.waits h.good ht⟩

theorem sound_start : Sound cfg (start cfg) := by
  refine ⟨good_start, ⟨0, chunked_blank _⟩,
    ⟨balanced_nil, rfl, by simp [Native.prepped, start, blank]⟩, Or.inr rfl, ?_⟩
  intro hwait
  rcases entry_cases cfg with ⟨hentry, -⟩ | ⟨r, -, hentry⟩
  · exact absurd (hwait.symm.trans hentry) (by simp)
  · exact absurd (hwait.symm.trans hentry) (by simp)

theorem sound_reach {P : State → Event → Prop} (hroom : cfg.qd ≤ cfg.sqEntries)
    (h : Reach (step cfg) P (start cfg) s) : Sound cfg s := by
  rcases entry_cases cfg with ⟨-, -, hblock, hqd⟩ | ⟨r, -, hentry⟩
  · exact h.invariant sound_start fun _ _ _ hs _ ht => hs.step hqd hblock hroom ht
  · rw [h.eq_of_stuck (step_of_returned (r := r) hentry)]
    exact sound_start

/-- There is something to wait for. -/
theorem Sound.awaited (h : Sound cfg s) (hphase : s.phase = .wait) :
    s.ring.outstanding ≠ [] ∨ s.ring.completed ≠ [] := by
  have hcount := (h.good.of_wait hphase).accounts.inflight
  have hne := h.waits hphase
  by_contra hnone
  obtain ⟨hout, hcomp⟩ := not_or.mp hnone
  rw [not_not.mp hout, not_not.mp hcomp, List.length_nil] at hcount
  exact hne hcount

/-- Writes that have not returned can go on, and nothing has to fail for it. -/
theorem Sound.exists_smooth (h : Sound cfg s) (hs : ¬ Returned s) :
    ∃ e t, Smooth s e ∧ WriteNewfile.step cfg s e = some t := by
  cases hphase : s.phase with
  | head =>
    by_cases hcont : s.Continues cfg
    · exact ⟨.fill 0, _, Int.le_refl 0, if_pos ⟨hphase, hcont⟩⟩
    · exact ⟨.finish none, _, rfl, if_pos ⟨hphase, hcont⟩⟩
  | wait =>
    by_cases hcs : s.ring.completed = []
    · -- nothing to reap, so a write is outstanding: let it move nothing
      obtain ⟨q, qs, hout⟩ :=
        List.exists_cons_of_ne_nil ((h.awaited hphase).resolve_right (not_not.mpr hcs))
      have hq : s.ring.outstanding[0]? = some q := by rw [hout]; rfl
      have hc : s.ring.complete 0 0 = some (q, _) := complete_eq_some.mpr ⟨hq, rfl⟩
      obtain ⟨t, ht⟩ : ∃ t, WriteNewfile.step cfg s (.complete 0 0) = some t := by
        simp only [WriteNewfile.step, hphase, WriteNewfile.complete, hc]
        exact ⟨_, if_pos (by omega)⟩
      exact ⟨.complete 0 0, t, Int.le_refl 0, ht⟩
    · exact ⟨.wait 0, _, ⟨Int.le_refl 0, hcs⟩, if_pos hphase⟩
  | reap => exact ⟨.reap, _, trivial, if_pos hphase⟩
  | out => exact ⟨.cleanup, _, trivial, if_pos hphase⟩
  | returned r => exact absurd ⟨r, hphase⟩ hs

/-- **Every call ends**, whatever the kernel moves. -/
theorem ends (hroom : cfg.qd ≤ cfg.sqEntries) :
    Terminates (step cfg) Smooth Returned (start cfg) := by
  rcases entry_cases cfg with ⟨-, -, hblock, hqd⟩ | ⟨r, -, hentry⟩
  · exact terminates_of_measure (toDo cfg) sound_start
      (fun _ _ _ hs _ ht => hs.step hqd hblock hroom ht)
      (fun _ _ _ hs hsm ht => toDo_lt hqd hblock hroom hs.good hs.chunked hsm.delivers ht)
      (fun _ hs hnot => hs.exists_smooth hnot)
  · exact terminates_of_stuck (step_of_returned (r := r) hentry) ⟨r, hentry⟩

/-- **At most one completion for each chunk.** -/
theorem dones_le {P : State → Event → Prop} (hroom : cfg.qd ≤ cfg.sqEntries)
    (h : Reach (step cfg) P (start cfg) s) :
    ∃ k, (∀ i < k, cfg.sizing.offset i < cfg.totalBytes) ∧ (dones s.log).length ≤ k := by
  have hs := sound_reach hroom h
  obtain ⟨k, hk⟩ := hs.chunked
  refine ⟨k, hk.offset_lt, ?_⟩
  have hlen := congrArg List.length hk.prepped
  simp only [Sizing.chunks, List.length_map, List.length_range] at hlen
  exact hlen ▸ hs.filed.balanced.length_le

end WriteNewfile
end Native
end Pyuring
