import Pyuring.Native.Progress
import Pyuring.Native.CopyPathExact
import Pyuring.Native.CopyPathEnds
import Pyuring.Native.WriteNewfileExact
import Pyuring.Native.WriteNewfileEnds

/-!
# Progress and cancellation

The reports of the two pipelines that have a progress callback, in the runs in which every
transfer completes in full and nothing fails but for the callback.

Up to the report at which the callback asks to stop, such a run is one of the same call with
a callback that never asks: `quiet`.  So what is known of undisturbed runs holds up to there,
and what comes after is the way out.
-/

namespace Pyuring
namespace Native

open CompletionRing Trace

namespace CopyPath

/-- The same call, with a callback that never asks to stop. -/
def quiet (cfg : Config) : Config :=
  { cfg with progressCb := cfg.progressCb.map fun _ _ _ _ => false }

/-- The bytes of the writes completed and not reaped. -/
def waiting (ring : CompletionRing Sqe) : List ℕ :=
  (ring.completed.filter fun x => x.1.opcode = .write).map fun x => x.2.toNat

/-- The reports are right, and the callback has not asked to stop. -/
structure Tells (cb : PyProgressCb) (cfg : Config) (s : State) : Prop where
  told : Told cfg.fileSize s.log (waiting s.ring) s.copied s.reports
  silent : Silent cb (reports s.log)

/-- The callback has asked to stop. -/
structure Cancelled (cb : PyProgressCb) (cfg : Config) (s : State) : Prop where
  told : ∃ waiting done count, Told cfg.fileSize s.log waiting done count
  stopped : Stopped cb (reports s.log)
  phase : s.phase = .out ∧ s.ret = ECANCELED.neg ∨ s.phase = .returned ECANCELED.neg

variable {cb : PyProgressCb} {cfg : Config} {s t : State}

/-- Nothing is counted past the end of the file. -/
theorem Moves.copied_le (hm : Moves cfg s) (ha : Accounts cfg s) : s.copied ≤ cfg.fileSize := by
  have htotal := ha.tiles.total_le hm.moved_le
  have hcopied := hm.copied
  have hle := ha.nextOff_le
  omega

/-! ## Reports along a step -/

theorem Tells.congr (h : Tells cb cfg s) (hlog : t.log = s.log)
    (hcomp : t.ring.completed = s.ring.completed) (hcopied : t.copied = s.copied)
    (hreports : t.reports = s.reports) : Tells cb cfg t where
  told := by
    rw [hlog, hcopied, hreports, waiting, hcomp]
    exact h.told
  silent := by rw [hlog]; exact h.silent

theorem Tells.submit (h : Tells cb cfg s) (r : ℤ) : Tells cb cfg (s.submit r) := by
  unfold State.submit
  split
  · exact h.congr rfl rfl rfl rfl
  · exact h.congr rfl rfl rfl rfl

theorem Tells.andSubmit (h : Tells cb cfg s) (r : ℤ) : Tells cb cfg (s.andSubmit r) := by
  unfold State.andSubmit
  split
  · exact h
  · exact h.submit r

theorem Tells.enqueueRead (h : Tells cb cfg s) (i : ℕ) : Tells cb cfg (enqueueRead cfg i s) := by
  unfold CopyPath.enqueueRead
  simp only
  split
  · exact h.congr rfl rfl rfl rfl
  · next hpush =>
    obtain ⟨-, rfl⟩ := push_eq_some.mp hpush
    exact ⟨h.told.prep _, h.silent⟩

theorem Tells.primeLoop : ∀ (is : List ℕ) {s : State}, Tells cb cfg s →
    Tells cb cfg (primeLoop cfg is s)
  | [], _, h => h
  | i :: is, s, h => by
    rw [CopyPath.primeLoop]
    split
    · have hactive : Tells cb cfg (s.setActive i true) := h.congr rfl rfl rfl rfl
      exact Tells.primeLoop is (hactive.enqueueRead i)
    · exact h

theorem Tells.onRead (h : Tells cb cfg s) (slot : ℕ) (res r : ℤ) :
    Tells cb cfg (onRead cfg slot res r s) := by
  unfold CopyPath.onRead
  split
  · exact h.congr rfl rfl rfl rfl
  split
  · exact h.congr rfl rfl rfl rfl
  · next hpush =>
    obtain ⟨-, rfl⟩ := push_eq_some.mp hpush
    have htells : Tells cb cfg { s with
        ring := { s.ring with
          queued := s.ring.queued ++ [writeSqe slot res.toNat (s.slots slot).off] }
        inflight := s.inflight + 1
        log := .prep (writeSqe slot res.toNat (s.slots slot).off) :: s.log } :=
      ⟨h.told.prep _, h.silent⟩
    exact htells.submit r

theorem Tells.complete (h : Tells cb cfg s) {i : ℕ} {res : ℤ} (ht : complete cfg i res s = some t) :
    Tells cb cfg t := by
  obtain ⟨q, ring, hring, -, hcase⟩ := complete_cases ht
  obtain ⟨-, rfl⟩ := complete_eq_some.mp hring
  rcases hcase with ⟨hop, -, rfl⟩ | ⟨hop, rfl⟩
  · have hwait : waiting ⟨s.ring.queued, s.ring.outstanding.eraseIdx i,
        s.ring.completed ++ [(q, res)]⟩ = waiting s.ring := by
      simp [waiting, List.filter_append, hop]
    exact ⟨by rw [hwait]; exact h.told.doneRead hop res, h.silent⟩
  · have hwait : waiting ⟨s.ring.queued, s.ring.outstanding.eraseIdx i,
        s.ring.completed ++ [(q, res)]⟩ = waiting s.ring ++ [res.toNat] := by
      simp [waiting, List.filter_append, hop]
    exact ⟨by rw [hwait]; exact h.told.doneWrite hop res, h.silent⟩

theorem Tells.finish (h : Tells cb cfg s) (ok : Bool) (e : Option Errno) :
    Tells cb cfg (finish cfg ok e s) := by
  have hcut : Tells cb cfg (if ok then { s with dst := s.dst.truncate s.copied } else s) := by
    split
    · exact h.congr rfl rfl rfl rfl
    · exact h
  unfold CopyPath.finish
  simp only
  split
  · split
    · exact hcut.congr rfl rfl rfl rfl
    · exact ⟨hcut.told.fsync _, hcut.silent⟩
  · exact hcut.congr rfl rfl rfl rfl

/-- The report of a completed write, and what the program does then: it leaves, or goes on as
with a callback that never asks to stop. -/
theorem told_onWrite {n : ℕ} (hcb : cfg.progressCb = some (progressWrapper cb))
    (h : Told cfg.fileSize s.log (n :: waiting s.ring) s.copied s.reports)
    (hsilent : Silent cb (reports s.log)) {res : ℤ} (hn : res.toNat = n) (hpos : 0 < n)
    (hle : s.copied + n ≤ cfg.fileSize) (slot : ℕ) (r : ℤ) :
    (onWrite cfg slot res r s = onWrite (quiet cfg) slot res r s ∧
        Tells cb cfg (onWrite cfg slot res r s)) ∨
      Cancelled cb cfg (onWrite cfg slot res r s) := by
  have htold := h.report hpos hle
  have hcount := h.count
  rw [← hn] at htold
  unfold onWrite
  simp only [report, quiet, hcb, Option.map_some]
  by_cases hask : progressWrapper cb s.reports (s.copied + res.toNat) cfg.fileSize = true
  · refine Or.inr ?_
    rw [if_pos hask]
    refine ⟨⟨_, _, _, htold⟩, ⟨reports s.log, _, rfl, hsilent, ?_⟩, Or.inl ⟨rfl, rfl⟩⟩
    rw [hcount]
    exact progressWrapper_eq_true.mp hask
  · refine Or.inl ?_
    rw [if_neg hask, if_neg Bool.false_ne_true]
    have htells : Tells cb cfg { s with
        copied := s.copied + res.toNat
        reports := s.reports + 1
        log := .progress (s.copied + res.toNat) cfg.fileSize :: s.log } := by
      refine ⟨htold, hsilent.snoc ?_⟩
      rw [hcount]
      exact fun hasks => hask (progressWrapper_eq_true.mpr hasks)
    refine ⟨rfl, ?_⟩
    split
    · exact (htells.enqueueRead slot).andSubmit r
    · exact htells.congr rfl rfl rfl rfl

/-! ## The run -/

/-- The reports so far are right, and either the run is one of the call whose callback never
asks, or the callback has asked to stop. -/
def Progressing (cb : PyProgressCb) (cfg : Config) (s : State) : Prop :=
  Running (quiet cfg) Sqe.len s ∧ Tells cb cfg s ∨ Cancelled cb cfg s

theorem primeLoop_quiet (cfg : Config) : ∀ (is : List ℕ) (s : State),
    primeLoop (quiet cfg) is s = primeLoop cfg is s
  | [], _ => rfl
  | i :: is, s => by
    rw [primeLoop, primeLoop, primeLoop_quiet cfg is]
    rfl

/-- A step other than that of the loop does not look at the callback. -/
theorem step_quiet {e : Event} (he : ∀ w r, e ≠ .iterate w r) (s : State) :
    step (quiet cfg) s e = step cfg s e := by
  cases e with
  | iterate w r => exact absurd rfl (he w r)
  | prime r =>
    simp only [step]
    rw [primeLoop_quiet]
    rfl
  | _ => rfl

theorem Cancelled.step (h : Cancelled cb cfg s) {e : Event} (ht : step cfg s e = some t) :
    Cancelled cb cfg t := by
  obtain ⟨waiting, done, count, htold⟩ := h.told
  rcases h.phase with ⟨hphase, hret⟩ | hphase
  · cases step_cases ht with
    | complete _ hc =>
      obtain ⟨hph, hr, -⟩ := complete_frame hc
      have hout : t.phase = .out ∧ t.ret = ECANCELED.neg := ⟨hph.trans hphase, hr.trans hret⟩
      obtain ⟨q, ring, -, -, hcase⟩ := complete_cases hc
      rcases hcase with ⟨hop, -, rfl⟩ | ⟨hop, rfl⟩
      · exact ⟨⟨_, _, _, htold.doneRead hop _⟩, h.stopped, Or.inl hout⟩
      · exact ⟨⟨_, _, _, htold.doneWrite hop _⟩, h.stopped, Or.inl hout⟩
    | cleanup =>
      have hneg : s.ret < 0 := by rw [hret]; exact Errno.neg_lt _
      exact ⟨h.told, h.stopped, Or.inr (by rw [State.result, if_pos hneg, hret])⟩
    | _ => simp_all
  · rw [step_of_returned hphase] at ht
    exact absurd ht (by simp)

theorem onCqe_of_reaped {q : Sqe} {res r : ℤ} (hq : Reaped cfg s q res) (hres : 0 ≤ res) :
    onCqe cfg q.userData res r s =
      if q.opcode = .read then onRead cfg q.buf res r s else onWrite cfg q.buf res r s := by
  have hqd := Nat.not_le.mpr hq.slot_lt
  simp only [onCqe, hq.slot_eq, hq.op_eq, hq.active, hqd, false_or, Bool.true_eq_false, if_false]
  rw [if_neg (Int.not_lt.mpr hres)]

/-- What the loop does with a completion: it leaves, or goes on as with a callback that never
asks to stop. -/
theorem Tells.iterate (h : Tells cb cfg s) (hcb : cfg.progressCb = some (progressWrapper cb))
    (hloop : Looping (quiet cfg) s) (hlive : Lively (quiet cfg) Sqe.len s) {w r : ℤ} (hw : 0 ≤ w)
    (ht : iterate cfg w r s = some t) :
    (iterate (quiet cfg) w r s = some t ∧ Tells cb cfg t) ∨ Cancelled cb cfg t := by
  unfold CopyPath.iterate at ht ⊢
  rw [if_neg (Int.not_lt.mpr hw)] at ht ⊢
  obtain ⟨⟨⟨q, res⟩, ring⟩, hreap, rfl⟩ := Option.map_eq_some_iff.mp ht
  have hq : Reaped (quiet cfg) _ q res := reaped (w := w) hreap hloop.accounts hloop.moves
  have ha := hloop.accounts.reap (w := w) hreap
  have hm := hloop.moves.reap (w := w) hreap
  obtain ⟨cs, hcs, rfl⟩ := reap_eq_some.mp hreap
  obtain ⟨hlen, hres⟩ := hlive.answered (q, res) (by rw [hcs]; exact List.mem_cons_self)
  simp only at hlen hres
  have htold := h.told
  rw [hreap, Option.map_some, Option.some.injEq]
  have hq : Reaped (quiet cfg) (afterReap cs w s) q res := hq
  have hq' : Reaped cfg (afterReap cs w s) q res := { hq with }
  show onCqe (quiet cfg) q.userData res r (afterReap cs w s) =
      onCqe cfg q.userData res r (afterReap cs w s) ∧
        Tells cb cfg (onCqe cfg q.userData res r (afterReap cs w s)) ∨
      Cancelled cb cfg (onCqe cfg q.userData res r (afterReap cs w s))
  rw [onCqe_of_reaped hq (by omega), onCqe_of_reaped hq' (by omega)]
  cases hop : q.opcode with
  | read =>
    have hwait : waiting s.ring = waiting (afterReap cs w s).ring := by
      simp [waiting, hcs, afterReap, hop]
    rw [if_pos rfl, if_pos rfl]
    have htells : Tells cb cfg (afterReap cs w s) := ⟨hwait ▸ htold, h.silent⟩
    exact Or.inl ⟨rfl, htells.onRead q.buf res r⟩
  | write =>
    have hwait : waiting s.ring = res.toNat :: waiting (afterReap cs w s).ring := by
      simp [waiting, hcs, afterReap, hop]
    have hle := Moves.copied_le hm { ha with }
    simp only [movedBy, hop] at hle
    rw [if_neg (by simp), if_neg (by simp)]
    rcases told_onWrite (s := afterReap cs w s) hcb (hwait ▸ htold) h.silent rfl (by omega)
      hle q.buf r with ⟨heq, htells⟩ | hcancelled
    · exact Or.inl ⟨heq.symm, htells⟩
    · exact Or.inr hcancelled

theorem Progressing.step (h : Progressing cb cfg s) (hcfg : Undisturbed (quiet cfg))
    (hcb : cfg.progressCb = some (progressWrapper cb)) {e : Event} (hans : Answers Sqe.len s e)
    (ht : step cfg s e = some t) : Progressing cb cfg t := by
  rcases h with ⟨hrun, htells⟩ | hcancelled
  swap
  · exact Or.inr (hcancelled.step ht)
  have hquiet : (∀ w r, e ≠ .iterate w r) → Running (quiet cfg) Sqe.len t := fun he =>
    hrun.step hcfg fair_len hans ((step_quiet he s).trans ht)
  cases step_cases ht with
  | complete _ hc => exact Or.inl ⟨hquiet (by simp), htells.complete hc⟩
  | @prime r _ =>
    exact Or.inl ⟨hquiet (by simp), (htells.primeLoop (List.range cfg.qd)).andSubmit r⟩
  | @iterate w r t hphase hne hit =>
    obtain ⟨hloop, hlive⟩ := hrun.looping hphase
    rcases htells.iterate hcb hloop hlive hans.1 hit with ⟨hit', htells'⟩ | hcancelled
    · refine Or.inl ⟨hrun.step hcfg fair_len (e := .iterate w r) hans ?_, htells'⟩
      rw [CopyPath.step, if_pos ⟨hphase, hne⟩]
      exact hit'
    · exact Or.inr hcancelled
  | finish => exact Or.inl ⟨hquiet (by simp), htells.finish _ _⟩
  | cleanup => exact Or.inl ⟨hquiet (by simp), htells.congr rfl rfl rfl rfl⟩

/-- The two callbacks leave the same steps open. -/
theorem isSome_step_quiet (cfg : Config) (s : State) (e : Event) :
    (step (quiet cfg) s e).isSome = (step cfg s e).isSome := by
  by_cases he : ∀ w r, e ≠ .iterate w r
  · rw [step_quiet he]
  obtain ⟨w, r, rfl⟩ : ∃ w r, e = .iterate w r := by simpa using he
  simp only [step, iterate]
  split
  · split
    · rfl
    · simp only [Option.isSome_map]
  · rfl

theorem Progressing.moves (h : Progressing cb cfg s) (hs : ¬ Returned s) :
    ∃ e t, Answers Sqe.len s e ∧ CopyPath.step cfg s e = some t := by
  rcases h with ⟨hrun, -⟩ | hcancelled
  · obtain ⟨e, t, hans, ht⟩ := hrun.moves fair_len hs
    have hsome : (CopyPath.step cfg s e).isSome = true := by
      rw [← isSome_step_quiet, ht]
      rfl
    obtain ⟨u, hu⟩ := Option.isSome_iff_exists.mp hsome
    exact ⟨e, u, hans, hu⟩
  · rcases hcancelled.phase with ⟨hphase, -⟩ | hphase
    · exact ⟨.cleanup, _, trivial, by rw [CopyPath.step, if_pos hphase]⟩
    · exact absurd ⟨_, hphase⟩ hs

theorem Progressing.reportsRight (h : Progressing cb cfg s) :
    ReportsRight cb cfg.fileSize s.log := by
  rcases h with ⟨-, htells⟩ | hcancelled
  · exact htells.told.reportsRight (Or.inl htells.silent)
  · obtain ⟨waiting, done, count, htold⟩ := hcancelled.told
    exact htold.reportsRight (Or.inr hcancelled.stopped)

end CopyPath

namespace WriteNewfile

/-- The same call, with a callback that never asks to stop. -/
def quiet (cfg : Config) : Config :=
  { cfg with progressCb := cfg.progressCb.map fun _ _ _ _ => false }

/-- The bytes of the writes completed and not reaped. -/
def waiting (ring : CompletionRing Sqe) : List ℕ := ring.completed.map fun x => x.2.toNat

/-- The reports are right, and the callback has not asked to stop. -/
structure Tells (cb : PyProgressCb) (cfg : Config) (s : State) : Prop where
  told : Told cfg.totalBytes s.log (waiting s.ring) s.written s.reports
  silent : Silent cb (reports s.log)

/-- The callback has asked to stop. -/
structure Cancelled (cb : PyProgressCb) (cfg : Config) (s : State) : Prop where
  told : ∃ waiting done count, Told cfg.totalBytes s.log waiting done count
  stopped : Stopped cb (reports s.log)
  phase : s.phase = .out ∧ s.ret = ECANCELED.neg ∨ s.phase = .returned ECANCELED.neg

variable {cb : PyProgressCb} {cfg : Config} {s t : State}

theorem Tells.congr (h : Tells cb cfg s) (hlog : t.log = s.log)
    (hcomp : t.ring.completed = s.ring.completed) (hwritten : t.written = s.written)
    (hreports : t.reports = s.reports) : Tells cb cfg t where
  told := by
    rw [hlog, hwritten, hreports, waiting, hcomp]
    exact h.told
  silent := by rw [hlog]; exact h.silent

theorem Tells.enqueueOne (h : Tells cb cfg s) : Tells cb cfg (enqueueOne cfg s).2 := by
  unfold WriteNewfile.enqueueOne
  simp only
  split
  · exact h.congr rfl rfl rfl rfl
  · next hpush =>
    obtain ⟨-, rfl⟩ := push_eq_some.mp hpush
    exact ⟨h.told.prep _, h.silent⟩

theorem Tells.enqueue : ∀ (n : ℕ) {s : State}, Tells cb cfg s → Tells cb cfg (enqueue cfg n s)
  | 0, _, h => h
  | n + 1, s, h => by
    rw [WriteNewfile.enqueue]
    split
    · have hone := h.enqueueOne
      cases hstep : WriteNewfile.enqueueOne cfg s with
      | mk ok t =>
        rw [hstep] at hone
        cases ok with
        | true => exact Tells.enqueue n hone
        | false => exact hone
    · exact h

theorem Tells.fill (h : Tells cb cfg s) (r : ℤ) : Tells cb cfg (fill cfg r s) := by
  have hqueued := Tells.enqueue cfg.qd h
  unfold WriteNewfile.fill
  simp only
  split
  · exact hqueued.congr rfl rfl rfl rfl
  split
  · exact hqueued.congr rfl rfl rfl rfl
  · exact hqueued.congr rfl rfl rfl rfl

theorem Tells.complete (h : Tells cb cfg s) (hfiled : Filed s) {i : ℕ} {res : ℤ}
    (ht : complete cfg i res s = some t) : Tells cb cfg t := by
  obtain ⟨q, ring, hring, -, rfl⟩ := complete_cases ht
  have hop := (hfiled.outstanding (mem_outstanding_of_complete hring)).1
  obtain ⟨-, rfl⟩ := complete_eq_some.mp hring
  have hwait : waiting ⟨s.ring.queued, s.ring.outstanding.eraseIdx i,
      s.ring.completed ++ [(q, res)]⟩ = waiting s.ring ++ [res.toNat] := by
    simp [waiting]
  exact ⟨by rw [hwait]; exact h.told.doneWrite hop res, h.silent⟩

theorem Tells.finish (h : Tells cb cfg s) (e : Option Errno) : Tells cb cfg (finish cfg e s) := by
  unfold WriteNewfile.finish
  split
  · split
    · exact h.congr rfl rfl rfl rfl
    · exact ⟨h.told.fsync _, h.silent⟩
  · exact h.congr rfl rfl rfl rfl

theorem reapBatch_cons (cfg : Config) {got i : ℕ} {q : Sqe} {res : ℤ} {cs : List (Sqe × ℤ)}
    (htag : ¬ (udOp q.userData ≠ 1 ∨ cfg.qd ≤ (udSlot q.userData).toNat)) (hneg : ¬ res < 0) :
    reapBatch cfg got i ((q, res) :: cs) s =
      let (cancel, u) := report cfg { s with written := s.written + res.toNat }
      if cancel then { u.advance got with inflight := u.inflight - got }.goOut ECANCELED.neg
      else reapBatch cfg got (i + 1) cs u := by
  rw [reapBatch, if_neg htag, if_neg hneg]

/-- The reports of one batch, and what the program does then: it leaves, or goes on as with a
callback that never asks to stop. -/
theorem told_reapBatch (hcb : cfg.progressCb = some (progressWrapper cb)) (got : ℕ)
    (rest : List ℕ) : ∀ (cs : List (Sqe × ℤ)) (i : ℕ) (s : State),
    Told cfg.totalBytes s.log ((cs.map fun x => x.2.toNat) ++ rest) s.written s.reports →
    Silent cb (reports s.log) → (∀ x ∈ cs, 0 < x.2) →
    s.written + (cs.map fun x => x.2.toNat).sum ≤ cfg.totalBytes →
    ¬ BatchAborts (quiet cfg) cs s.reports s.written →
    (reapBatch cfg got i cs s = reapBatch (quiet cfg) got i cs s ∧
        Told cfg.totalBytes (reapBatch cfg got i cs s).log rest
          (reapBatch cfg got i cs s).written (reapBatch cfg got i cs s).reports ∧
        Silent cb (reports (reapBatch cfg got i cs s).log)) ∨
      Cancelled cb cfg (reapBatch cfg got i cs s)
  | [], i, s, htold, hsilent, _, _, _ => Or.inl ⟨rfl, htold, hsilent⟩
  | (q, res) :: cs, i, s, htold, hsilent, hpos, hle, hab => by
    obtain ⟨htag, hab⟩ := not_or.mp hab
    obtain ⟨hneg, hab⟩ := not_or.mp hab
    obtain ⟨-, hrest⟩ := not_or.mp hab
    have hres : 0 < res := hpos (q, res) List.mem_cons_self
    simp only [List.map_cons, List.sum_cons] at hle
    have hone := htold.report (n := res.toNat) (by omega) (by omega)
    have hcount := htold.count
    have hquiet : report (quiet cfg) { s with written := s.written + res.toNat } = (false, { s with
        written := s.written + res.toNat
        reports := s.reports + 1
        log := .progress (s.written + res.toNat) cfg.totalBytes :: s.log }) := by
      simp only [report, quiet, hcb, Option.map_some]
      rfl
    rw [reapBatch_cons cfg htag hneg, reapBatch_cons (quiet cfg) htag hneg, hquiet]
    simp only [report, hcb, Bool.false_eq_true, if_false]
    by_cases hask : progressWrapper cb s.reports (s.written + res.toNat) cfg.totalBytes = true
    · refine Or.inr ?_
      rw [if_pos hask]
      refine ⟨⟨_, _, _, hone⟩, ⟨reports s.log, _, rfl, hsilent, ?_⟩, Or.inl ⟨rfl, rfl⟩⟩
      rw [hcount]
      exact progressWrapper_eq_true.mp hask
    · rw [if_neg hask]
      have hsilent' : Silent cb
          (reports (.progress (s.written + res.toNat) cfg.totalBytes :: s.log)) := by
        refine hsilent.snoc ?_
        rw [hcount]
        exact fun hasks => hask (progressWrapper_eq_true.mpr hasks)
      exact told_reapBatch hcb got rest cs (i + 1)
        { s with
          written := s.written + res.toNat
          reports := s.reports + 1
          log := .progress (s.written + res.toNat) cfg.totalBytes :: s.log }
        hone hsilent' (fun x hx => hpos x (List.mem_cons_of_mem _ hx)) (by simp only; omega) hrest

/-- The round of the inner loop: it leaves, or goes on as with a callback that never asks to
stop. -/
theorem Tells.reap (h : Tells cb cfg s) (hcb : cfg.progressCb = some (progressWrapper cb))
    (hpos : ∀ x ∈ s.ring.completed, 0 < x.2)
    (hle : s.written + (waiting s.ring).sum ≤ cfg.totalBytes)
    (hab : ¬ Aborts (quiet cfg) s .reap) :
    (reap cfg s = reap (quiet cfg) s ∧ Tells cb cfg (reap cfg s)) ∨
      Cancelled cb cfg (reap cfg s) := by
  by_cases hidle : s.inflight = 0 ∨ s.ring.completed.take batchSize = []
  · have hreap : ∀ c : Config, WriteNewfile.reap c s = { s with phase := .head } :=
      fun c => if_pos hidle
    rw [hreap, hreap]
    exact Or.inl ⟨rfl, h.congr rfl rfl rfl rfl⟩
  have hreap : ∀ c : Config, WriteNewfile.reap c s = reapBatch c
      (s.ring.completed.take batchSize).length 0 (s.ring.completed.take batchSize) s :=
    fun c => if_neg hidle
  obtain ⟨hin, -⟩ := not_or.mp hidle
  have hab : ¬ BatchAborts (quiet cfg) (s.ring.completed.take batchSize) s.reports s.written :=
    fun habort => hab ⟨hin, habort⟩
  have hsplit : waiting s.ring = ((s.ring.completed.take batchSize).map fun x => x.2.toNat) ++
      (s.ring.completed.drop batchSize).map fun x => x.2.toNat := by
    rw [← List.map_append, List.take_append_drop, waiting]
  have hsum := congrArg List.sum hsplit
  rw [List.sum_append] at hsum
  have hring := reapBatch_cases (quiet cfg) (s.ring.completed.take batchSize).length
    (s.ring.completed.take batchSize) 0 s
  rcases told_reapBatch hcb (s.ring.completed.take batchSize).length
    ((s.ring.completed.drop batchSize).map fun x => x.2.toNat) (s.ring.completed.take batchSize)
    0 s (hsplit ▸ h.told) h.silent (fun x hx => hpos x (List.mem_of_mem_take hx)) (by omega) hab
    with ⟨heq, htold, hsilent⟩ | hcancelled
  · have hwait : waiting (reapBatch cfg (s.ring.completed.take batchSize).length 0
        (s.ring.completed.take batchSize) s).ring =
          (s.ring.completed.drop batchSize).map fun x => x.2.toNat := by
      rcases hring with ⟨habort, -⟩ | ⟨-, n, log, -, hafter⟩
      · exact absurd habort hab
      · rw [heq, hafter, advance_length_take]
        rfl
    rw [hreap, hreap]
    exact Or.inl ⟨heq, hwait ▸ htold, hsilent⟩
  · rw [hreap]
    exact Or.inr hcancelled

/-! ## The run -/

/-- The reports so far are right, and either the run is one of the call whose callback never
asks, or the callback has asked to stop. -/
def Progressing (cb : PyProgressCb) (cfg : Config) (s : State) : Prop :=
  Running (quiet cfg) Sqe.len s ∧ Tells cb cfg s ∨ Cancelled cb cfg s

theorem enqueue_quiet (cfg : Config) : ∀ (n : ℕ) (s : State),
    enqueue (quiet cfg) n s = enqueue cfg n s
  | 0, _ => rfl
  | n + 1, s => by
    rw [enqueue, enqueue]
    simp only [enqueue_quiet cfg n]
    rfl

/-- A step other than that of reaping does not look at the callback. -/
theorem step_quiet {e : Event} (he : e ≠ .reap) (s : State) :
    step (quiet cfg) s e = step cfg s e := by
  cases e with
  | reap => exact absurd rfl he
  | fill r =>
    simp only [step, fill]
    rw [enqueue_quiet]
    rfl
  | _ => rfl

theorem Cancelled.step (h : Cancelled cb cfg s) (hfiled : Filed s) {e : Event}
    (ht : step cfg s e = some t) : Cancelled cb cfg t := by
  obtain ⟨waiting, done, count, htold⟩ := h.told
  rcases h.phase with ⟨hphase, hret⟩ | hphase
  · cases step_cases ht with
    | complete _ hc =>
      obtain ⟨q, ring, hring, -, rfl⟩ := complete_cases hc
      have hwrite := (hfiled.outstanding (mem_outstanding_of_complete hring)).1
      exact ⟨⟨_, _, _, htold.doneWrite hwrite _⟩, h.stopped, Or.inl ⟨hphase, hret⟩⟩
    | cleanup =>
      have hneg : s.ret < 0 := by rw [hret]; exact Errno.neg_lt _
      exact ⟨h.told, h.stopped, Or.inr (by rw [State.result, if_pos hneg, hret])⟩
    | _ => simp_all
  · rw [step_of_returned hphase] at ht
    exact absurd ht (by simp)

/-- Nothing is counted past the end of the file. -/
theorem Sound.written_le (h : Sound cfg s) (hblock : 0 < cfg.blockSize) (hnot : ¬ Failing s) :
    s.written + (waiting s.ring).sum ≤ cfg.totalBytes := by
  have htally : s.written + (waiting s.ring).sum = _ := h.tallied.resolve_left hnot
  have hle := h.filed.balanced.sum_le
  obtain ⟨k, hk⟩ := h.chunked
  rw [hk.sum_len hblock] at hle
  have hoff : cfg.sizing.offset k ≤ cfg.totalBytes := Sizing.offset_le_total k
  omega

theorem Progressing.step (h : Progressing cb cfg s) (hsound : Sound cfg s)
    (hcfg : Undisturbed (quiet cfg)) (hcb : cfg.progressCb = some (progressWrapper cb)) {e : Event}
    (hans : Answers Sqe.len s e) (ht : step cfg s e = some t) : Progressing cb cfg t := by
  rcases h with ⟨hrun, htells⟩ | hcancelled
  swap
  · exact Or.inr (hcancelled.step hsound.filed ht)
  have hquiet : e ≠ .reap → Running (quiet cfg) Sqe.len t := fun he =>
    (hrun.step hcfg hans ((step_quiet he s).trans ht)).1
  cases step_cases ht with
  | complete _ hc => exact Or.inl ⟨hquiet (by simp), htells.complete hsound.filed hc⟩
  | fill => exact Or.inl ⟨hquiet (by simp), htells.fill _⟩
  | waitFails _ hneg => exact absurd hneg (Int.not_lt.mpr hans.1)
  | waits => exact Or.inl ⟨hquiet (by simp), htells.congr rfl rfl rfl rfl⟩
  | reap hphase =>
    have hloop := hrun.good.of_reap hphase
    have hpos : ∀ x ∈ s.ring.completed, 0 < x.2 := by
      intro x hx
      have hlen := (hloop.accounts.write x.1 (mem_pending.mpr (Or.inr (Or.inr ⟨x.2, hx⟩)))).2
      rw [hrun.answered x hx]
      exact_mod_cast hlen
    have hnot : ¬ Failing s := not_failing_of_phase (by simp [hphase]) (by simp [hphase])
    rcases htells.reap hcb hpos (hsound.written_le hcfg.blockSize_pos hnot)
      (hrun.not_aborts_reap hcfg hphase) with ⟨heq, htells'⟩ | hcancelled
    · have hstep : step (quiet cfg) s .reap = some (reap (quiet cfg) s) := if_pos hphase
      exact Or.inl ⟨heq ▸ (hrun.step hcfg hans hstep).1, htells'⟩
    · exact Or.inr hcancelled
  | finish => exact Or.inl ⟨hquiet (by simp), htells.finish _⟩
  | cleanup => exact Or.inl ⟨hquiet (by simp), htells.congr rfl rfl rfl rfl⟩

theorem Progressing.moves (h : Progressing cb cfg s) (hs : ¬ Returned s) :
    ∃ e t, Answers Sqe.len s e ∧ WriteNewfile.step cfg s e = some t := by
  rcases h with ⟨hrun, -⟩ | hcancelled
  · obtain ⟨e, t, hans, ht⟩ := hrun.moves (fun q _ => Nat.le_refl _) hs
    by_cases he : e = .reap
    · subst he
      obtain ⟨hphase, -⟩ := Option.ite_none_right_eq_some.mp ht
      exact ⟨.reap, _, hans, if_pos hphase⟩
    · exact ⟨e, t, hans, (step_quiet he s).symm.trans ht⟩
  · rcases hcancelled.phase with ⟨hphase, -⟩ | hphase
    · exact ⟨.cleanup, _, trivial, if_pos hphase⟩
    · exact absurd ⟨_, hphase⟩ hs

/-- Every write done was done in full. -/
def AllFull (s : State) : Prop := ∀ x ∈ dones s.log, x.2 = x.1.len

theorem AllFull.step (h : AllFull s) {e : Event} (hans : Answers Sqe.len s e)
    (ht : step cfg s e = some t) : AllFull t := by
  cases step_cases ht with
  | complete _ hc =>
    obtain ⟨q, ring, hring, -, rfl⟩ := complete_cases hc
    intro x hx
    rcases List.mem_cons.mp hx with rfl | hx
    · exact hans _ (complete_eq_some.mp hring).1
    · exact h x hx
  | @fill r _ _ =>
    have hdone : dones (fill cfg r s).log = dones (enqueue cfg cfg.qd s).log := by
      unfold fill
      simp only
      split
      · rfl
      split <;> rfl
    intro x hx
    rw [hdone, (enqueue_tally cfg cfg.qd s).2.2] at hx
    exact h x hx
  | waitFails => exact h
  | waits => exact h
  | reap =>
    obtain ⟨-, -, -, -, hlog⟩ := reap_frame cfg s
    intro x hx
    rw [hlog.dones_eq] at hx
    exact h x hx
  | finish =>
    unfold finish
    split
    · split <;> exact h
    · exact h
  | cleanup => exact h

theorem Progressing.reportsRight (h : Progressing cb cfg s) :
    ReportsRight cb cfg.totalBytes s.log := by
  rcases h with ⟨-, htells⟩ | hcancelled
  · exact htells.told.reportsRight (Or.inl htells.silent)
  · obtain ⟨waiting, done, count, htold⟩ := hcancelled.told
    exact htold.reportsRight (Or.inr hcancelled.stopped)

/-- All that is kept along a run in which nothing fails but the callback. -/
structure Steady (cb : PyProgressCb) (cfg : Config) (s : State) : Prop where
  sound : Sound cfg s
  progressing : Progressing cb cfg s
  full : AllFull s

theorem Steady.step (h : Steady cb cfg s) (hcfg : Undisturbed (quiet cfg))
    (hcb : cfg.progressCb = some (progressWrapper cb)) {e : Event} (hans : Answers Sqe.len s e)
    (ht : step cfg s e = some t) : Steady cb cfg t where
  sound := h.sound.step hcfg.qd_pos hcfg.blockSize_pos hcfg.room ht
  progressing := h.progressing.step h.sound hcfg hcb hans ht
  full := h.full.step hans ht

theorem Answers.delivers {pick : Sqe → ℕ} {e : Event} (h : Answers pick s e) : Delivers s e := by
  cases e with
  | wait w => exact fun _ => h.2
  | _ => trivial

end WriteNewfile

end Native
end Pyuring
