import Pyuring.Native.WriteManyfilesExact

/-!
# Every write of many files ends

What is true of `uring_write_manyfiles` however it goes, as long as the submission queue has
room for `qd` entries: system calls fail or not, and the kernel moves any number of bytes of
each write, also none.

`Acts` says what a step can be then; it differs from the steps of undisturbed writes in the
results of the writes, and in the steps that fail.
-/

namespace Pyuring
namespace Native
namespace WriteManyfiles

open CompletionRing Trace

variable (cfg : Config)

/-- The write `q` is completed with `res`. -/
def State.moved (i : ℕ) (q : Sqe) (res : ℤ) (s : State) : State :=
  { s with
    ring := { s.ring with
      outstanding := s.ring.outstanding.eraseIdx i
      completed := s.ring.completed ++ [(q, res)] }
    log := .done q res :: s.log
    files := Function.update s.files q.file
      ((s.files q.file).write q.off (pattern q.buf res.toNat)) }

/-- What a step that fails leaves alone after it has queued the chunks that lead to `u`. -/
structure Fails (s u t : State) : Prop where
  failed : Failed t
  rounds : Relation.ReflTransGen (Round cfg) s u
  log : ∃ l, (∀ e ∈ l, ∃ f, e = Ev.fsync f) ∧ t.log = l ++ u.log
  files : t.files = s.files
  queued : t.ring.queued = u.ring.queued
  outstanding : t.ring.outstanding = s.ring.outstanding
  completed : t.ring.completed.length ≤ s.ring.completed.length

/-- The steps of all runs. -/
inductive Acts (s : State) : State → Prop
  | complete {i : ℕ} {q : Sqe} {res : ℤ} (phase : ∀ r, s.phase ≠ .returned r)
      (outstanding : s.ring.outstanding[i]? = some q) (le : res ≤ q.len) : Acts s (s.moved i q res)
  | fill {u : State} {rr : ℕ} {ret : ℤ} (phase : s.phase = .head) (continues : s.Continues cfg)
      (rounds : Relation.ReflTransGen (Round cfg) s u) (ret_nonneg : 0 ≤ ret) :
      Acts s { u with rr := rr, ring := u.ring.submit, ret := ret }.awaitAny
  | leave (phase : s.phase = .head) (stops : ¬ s.Continues cfg) : Acts s { s with phase := .tail }
  | wait {ret : ℤ} (phase : s.phase = .wait) (ret_nonneg : 0 ≤ ret) :
      Acts s { s with ret := ret, phase := .reap }
  | nothing (phase : s.phase = .reap) : Acts s { s with phase := .fallback }
  | reap {n : ℕ} {ret : ℤ} (phase : s.phase = .reap ∨ s.phase = .fallback) (pos : 0 < n)
      (le : n ≤ s.ring.completed.length) (ret_nonneg : 0 ≤ ret) : Acts s (s.reaped n ret)
  | finish {l : List Ev} (phase : s.phase = .tail) (fsyncs : ∀ e ∈ l, ∃ f, e = Ev.fsync f) :
      Acts s { s with log := l ++ s.log, phase := .out }
  | cleanup (phase : s.phase = .out) : Acts s { s with phase := .returned s.result }
  | fails {u t : State} (phase : s.phase ≠ .out ∧ ∀ r, s.phase ≠ .returned r)
      (fails : Fails cfg s u t) : Acts s t

/-- An error is returned, or on its way. -/
def Failing (s : State) : Prop := s.phase = .out ∧ s.ret < 0 ∨ ∃ r < 0, s.phase = .returned r

/-- What holds until something fails. -/
structure Alive (s : State) : Prop where
  plan : Plan cfg s
  pieces : ∀ f, (fileSpans f s.log).length * cfg.blockSize < s.fileOff f + cfg.blockSize
  posted : ∀ x ∈ s.ring.completed, x ∈ dones s.log
  counted : s.written + (s.ring.completed.map fun x => x.2.toNat).sum =
    ((dones s.log).map fun x => x.2.toNat).sum
  ret : 0 ≤ s.ret
  waits : s.phase = .wait ∨ s.phase = .reap ∨ s.phase = .fallback → s.inflight ≠ 0

/-- Everything that holds in every run with room in the submission queue. -/
structure Sound (s : State) : Prop where
  good : Good cfg s
  balanced : Balanced s.log s.ring
  files : ∀ f, s.files f = SparseFile.ofWrites (blocks pattern f s.log)
  le_chunks : (prepped s.log).length ≤ cfg.chunks
  alive : Failing s ∨ Alive cfg s

variable {cfg} {s t u : State}

/-! ## What fails -/

theorem not_failing_of_phase (hout : s.phase ≠ .out) (hreturned : ∀ r, s.phase ≠ .returned r) :
    ¬ Failing s := by
  rintro (⟨hphase, -⟩ | ⟨r, -, hphase⟩)
  · exact hout hphase
  · exact hreturned r hphase

theorem not_failing_of_returned {r : ℤ} (hr : 0 ≤ r) (hret : s.phase = .returned r) :
    ¬ Failing s := by
  rintro (⟨hout, -⟩ | ⟨r', hneg, hret'⟩)
  · exact absurd (hret.symm.trans hout) (by simp)
  · rw [hret, Phase.returned.injEq] at hret'
    omega

/-- What handling a batch leaves alone, also when it stops half-way. -/
theorem reapBatch_frame (cfg : Config) (got : ℕ) : ∀ (cs : List (Sqe × ℤ)) (i : ℕ) (s : State),
    (reapBatch cfg got i cs s).ring.queued = s.ring.queued ∧
      (reapBatch cfg got i cs s).ring.completed.length ≤ s.ring.completed.length ∧
      (reapBatch cfg got i cs s).files = s.files ∧ (reapBatch cfg got i cs s).log = s.log
  | [], _, s => ⟨rfl, by simp [reapBatch, State.advance, advance], rfl, rfl⟩
  | (q, res) :: cs, i, s => by
    rw [reapBatch]
    split
    · exact ⟨rfl, by simp [State.advance, advance, State.goOut], rfl, rfl⟩
    split
    · exact ⟨rfl, by simp [State.advance, advance, State.goOut], rfl, rfl⟩
    · exact reapBatch_frame cfg got cs (i + 1) _

theorem Fails.of_self (hfailed : Failed t) (hlog : t.log = s.log) (hfiles : t.files = s.files)
    (hqueued : t.ring.queued = s.ring.queued) (hout : t.ring.outstanding = s.ring.outstanding)
    (hcomp : t.ring.completed.length ≤ s.ring.completed.length) : Fails cfg s s t :=
  ⟨hfailed, .refl, ⟨[], by simp, hlog⟩, hfiles, hqueued, hout, hcomp⟩

theorem fails_goOut {r : ℤ} (hr : r < 0) : Fails cfg s s (s.goOut r) :=
  .of_self ⟨rfl, hr⟩ rfl rfl rfl rfl (Nat.le_refl _)

/-- The oldest completions are reaped, or one of them is an error. -/
theorem acts_of_batch (halive : Alive cfg s) (hprep : ∀ x ∈ s.ring.completed, x.1 ∈ prepped s.log)
    (hphase : s.phase = .reap ∨ s.phase = .fallback) (n : ℕ) (hne : s.ring.completed.take n ≠ [])
    {ret : ℤ} (hret : 0 ≤ ret) : Acts cfg s
      (reapBatch cfg (s.ring.completed.take n).length 0 (s.ring.completed.take n)
        { s with ret := ret }) := by
  obtain ⟨hqueued, hlen, hfiles, hlog⟩ := reapBatch_frame cfg (s.ring.completed.take n).length
    (s.ring.completed.take n) 0 { s with ret := ret }
  rcases @reapBatch_cases cfg (s.ring.completed.take n).length (s.ring.completed.take n) 0
    { s with ret := ret } with ⟨-, hfailed, hout⟩ | ⟨hab, -⟩
  · exact .fails (by rcases hphase with hp | hp <;> simp [hp])
      (.of_self hfailed hlog hfiles hqueued hout hlen)
  · have hres : ∀ x ∈ s.ring.completed.take n, 0 ≤ x.2 := fun x hx =>
      Int.not_lt.mp fun hneg => hab ⟨x, hx, Or.inr hneg⟩
    rw [reapBatch_take (fun _ hq => halive.plan.tagged hq) n ret hprep hres]
    exact .reap hphase (List.length_pos_iff.mpr hne) (List.length_take_le' _ _) hret

theorem fails_fsyncAll (err : ℕ → Option Errno) : ∀ (is : List ℕ) (s : State),
    (∃ l, (∀ e ∈ l, ∃ f, e = Ev.fsync f) ∧
      fsyncAll err is s = { s with log := l ++ s.log, phase := .out }) ∨
    ∃ l r, (∀ e ∈ l, ∃ f, e = Ev.fsync f) ∧ r < 0 ∧
      fsyncAll err is s = { s with log := l ++ s.log, ret := r, phase := .out }
  | [], s => Or.inl ⟨[], by simp, rfl⟩
  | i :: is, s => by
    rw [fsyncAll]
    cases err i with
    | some e => exact Or.inr ⟨[], e.neg, by simp, Errno.neg_lt e, rfl⟩
    | none =>
      have hsnoc : ∀ l : List Ev, (∀ e ∈ l, ∃ f, e = Ev.fsync f) →
          ∀ e ∈ l ++ [Ev.fsync i], ∃ f, e = Ev.fsync f := by
        intro l hl e he
        rcases List.mem_append.mp he with he | he
        · exact hl e he
        · exact ⟨i, List.mem_singleton.mp he⟩
      rcases fails_fsyncAll err is { s with log := .fsync i :: s.log } with
        ⟨l, hl, heq⟩ | ⟨l, r, hl, hr, heq⟩
      · exact Or.inl ⟨l ++ [.fsync i], hsnoc l hl, by simp [heq]⟩
      · exact Or.inr ⟨l ++ [.fsync i], r, hsnoc l hl, hr, by simp [heq]⟩

/-- The queueing loop completes nothing. -/
theorem rounds_done (h : Relation.ReflTransGen (Round cfg) s u) :
    dones u.log = dones s.log ∧ u.files = s.files := by
  induction h with
  | refl => exact ⟨rfl, rfl⟩
  | tail _ hround ih =>
    cases hround
    exact ih

/-- **What a step does**, whatever fails and whatever the writes moved. -/
theorem acts_of_step (hpos : 0 < cfg.nfiles) (hroom : cfg.qd ≤ cfg.sqEntries) (hgood : Good cfg s)
    (hbalanced : Balanced s.log s.ring) (halive : Alive cfg s) {e : Event}
    (ht : step cfg s e = some t) : Acts cfg s t := by
  have hprep : ∀ x ∈ s.ring.completed, x.1 ∈ prepped s.log :=
    fun x hx => hbalanced.mem_prepped (halive.posted x hx)
  cases step_cases ht with
  | complete hrun hc =>
    obtain ⟨q, ring, hring, hle, rfl⟩ := complete_cases hc
    obtain ⟨hq, rfl⟩ := complete_eq_some.mp hring
    exact .complete hrun hq hle
  | @fill r hphase =>
    by_cases hcont : s.Continues cfg
    · obtain ⟨u, rr, hrounds, -, ⟨ret, hret, heq⟩ | ⟨hneg, heq⟩⟩ :=
        fill_rounds hpos hroom (hgood.looping (Or.inl hphase)) halive.plan hcont r <;> rw [heq]
      · exact .fill hphase hcont hrounds hret
      · obtain ⟨-, -, hout, hcomp⟩ := rounds_frame hrounds
        have hfiles := (rounds_done hrounds).2
        exact .fails (by simp [hphase]) ⟨⟨rfl, hneg⟩, hrounds, ⟨[], by simp, rfl⟩, hfiles, rfl, hout,
          Nat.le_of_eq (congrArg List.length hcomp)⟩
    · unfold fill
      rw [if_neg hcont]
      exact .leave hphase hcont
  | waitFails hphase hneg => exact .fails (by simp [hphase]) (fails_goOut hneg)
  | waits hphase hret => exact .wait hphase hret
  | reap hphase =>
    unfold WriteManyfiles.reap
    simp only
    split
    · exact .nothing hphase
    · next hne => exact acts_of_batch halive hprep (Or.inl hphase) batchSize hne halive.ret
  | waitOneFails hphase hneg => exact .fails (by simp [hphase]) (fails_goOut hneg)
  | @waitOneReaps w hphase hret hlen =>
    have hbatch := acts_of_batch halive hprep (Or.inr hphase) 1
      (List.length_pos_iff.mp (by omega)) hret
    rwa [hlen] at hbatch
  | @finish err hphase =>
    unfold WriteManyfiles.finish
    split
    · rcases fails_fsyncAll err (List.range cfg.nfiles) s with
        ⟨l, hl, heq⟩ | ⟨l, r, hl, hr, heq⟩ <;> rw [heq]
      · exact .finish hphase hl
      · exact .fails (by simp [hphase])
          ⟨⟨rfl, hr⟩, .refl, ⟨l, hl, rfl⟩, rfl, rfl, rfl, Nat.le_refl _⟩
    · exact Acts.finish (l := []) hphase (by simp)
  | cleanup hphase => exact .cleanup hphase

/-! ## The queueing loop -/

theorem balanced_round (h : Balanced s.log s.ring) (hround : Round cfg s t) :
    Balanced t.log t.ring := by
  cases hround with
  | @queue slot rest f rr _ _ _ => exact h.push (push_queue cfg s slot rest f rr)

theorem balanced_rounds (h : Balanced s.log s.ring)
    (hrounds : Relation.ReflTransGen (Round cfg) s t) : Balanced t.log t.ring :=
  rounds_keep (I := fun u => Balanced u.log u.ring) balanced_round hrounds h

theorem Alive.round (h : Alive cfg s) (hblock : 0 < cfg.blockSize) (hround : Round cfg s t) :
    Alive cfg t := by
  have hplan := h.plan.round hblock hround
  cases hround with
  | @queue slot rest f rr _ _ hpicks =>
    refine ⟨hplan, ?_, h.posted, h.counted, h.ret, fun _ => Nat.succ_ne_zero _⟩
    have hoff := h.plan.table.lt_of_notDone hpicks.notDone
    have hwant := want_pos hblock hoff
    intro g
    simp only [State.queue, State.take, fileSpans_prep, writeSqe]
    by_cases hg : g = f
    · subst hg
      obtain ⟨m, hm⟩ := (h.plan.grid g).resolve_left (Nat.ne_of_lt hoff)
      have hpieces := h.pieces g
      have hlen : (fileSpans g s.log).length ≤ m := by
        rw [hm, Nat.mul_comm cfg.blockSize, ← Nat.succ_mul] at hpieces
        exact Nat.le_of_lt_succ (Nat.lt_of_mul_lt_mul_right hpieces)
      have hmul := Nat.mul_le_mul_right cfg.blockSize hlen
      rw [Nat.mul_comm m, ← hm] at hmul
      rw [Function.update_self, if_pos rfl, List.length_append, List.length_singleton, Nat.succ_mul]
      omega
    · rw [Function.update_of_ne hg, if_neg (Ne.symm hg), List.append_nil]
      exact h.pieces g

theorem Alive.rounds (h : Alive cfg s) (hblock : 0 < cfg.blockSize)
    (hrounds : Relation.ReflTransGen (Round cfg) s t) : Alive cfg t :=
  rounds_keep (fun halive => halive.round hblock) hrounds h

/-- At most one request for each chunk. -/
theorem Alive.le_chunks (h : Alive cfg s) (hblock : 0 < cfg.blockSize) :
    (prepped s.log).length ≤ cfg.chunks := by
  rw [length_prepped (n := cfg.nfiles) fun q hq => (h.plan.write q hq).2.2.1]
  have hfile : ∀ f ∈ Finset.range cfg.nfiles,
      (fileSpans f s.log).length ≤ cfg.perFileBytes ⌈/⌉ cfg.blockSize := by
    intro f _
    have hpieces := h.pieces f
    have hoff := h.plan.table.off_le f
    by_contra hlt
    have hle : cfg.perFileBytes ⌈/⌉ cfg.blockSize ≤ (fileSpans f s.log).length - 1 := by omega
    have hmul := (ceilDiv_le_iff_le_smul hblock).mp hle
    have hone : cfg.blockSize ≤ (fileSpans f s.log).length * cfg.blockSize :=
      Nat.le_mul_of_pos_left cfg.blockSize (by omega)
    rw [smul_eq_mul, Nat.mul_comm, Nat.sub_mul] at hmul
    omega
  refine (Finset.sum_le_sum hfile).trans (Nat.le_of_eq ?_)
  rw [Finset.sum_const, Finset.card_range, smul_eq_mul, Config.chunks]

/-! ## The steps -/

/-- A step that queues, completes and reaps nothing. -/
theorem Alive.congr (h : Alive cfg s) (hoff : t.fileOff = s.fileOff)
    (hdone : t.fileDone = s.fileDone) (hcount : t.doneFiles = s.doneFiles)
    (hprep : prepped t.log = prepped s.log) (hdones : dones t.log = dones s.log)
    (hfree : t.freeSlots = s.freeSlots) (hring : t.ring = s.ring)
    (hwritten : t.written = s.written) (hret : 0 ≤ t.ret)
    (hwaits : t.phase = .wait ∨ t.phase = .reap ∨ t.phase = .fallback → t.inflight ≠ 0) :
    Alive cfg t where
  plan := {
    table := ⟨by rw [hoff]; exact h.plan.table.off_le, by rw [hoff, hdone]; exact h.plan.table.done,
      by rw [hcount, hdone]; exact h.plan.table.doneFiles⟩
    write := by rw [hprep]; exact h.plan.write
    tiles := fun f => by rw [fileSpans, hprep, hoff]; exact h.plan.tiles f
    grid := by rw [hoff]; exact h.plan.grid
    reserved := by rw [hprep, hoff]; exact h.plan.reserved
    slots := by rw [hfree, hring]; exact h.plan.slots }
  pieces f := by rw [fileSpans, hprep, hoff]; exact h.pieces f
  posted := by rw [hring, hdones]; exact h.posted
  counted := by rw [hwritten, hring, hdones]; exact h.counted
  ret := hret
  waits := hwaits

theorem Alive.moved (h : Alive cfg s) {i : ℕ} {q : Sqe} {res : ℤ}
    (hq : s.ring.outstanding[i]? = some q) : Alive cfg (s.moved i q res) := by
  have hring : s.ring.complete i res = some (q, _) := complete_eq_some.mpr ⟨hq, rfl⟩
  refine ⟨{ h.plan with table := { h.plan.table with }, slots := ?_ }, h.pieces, ?_,
    counted_done h.counted q res, h.ret, h.waits⟩
  · simp only [State.moved]
    rw [pending_complete hring, h.plan.slots]
  · intro x hx
    rcases List.mem_append.mp hx with hx | hx
    · exact List.mem_cons_of_mem _ (h.posted x hx)
    · exact List.mem_cons.mpr (Or.inl (List.mem_singleton.mp hx))

theorem Alive.reaped (h : Alive cfg s) (n : ℕ) {ret : ℤ} (hret : 0 ≤ ret) :
    Alive cfg (s.reaped n ret) := by
  refine ⟨{ h.plan with table := { h.plan.table with }, slots := ?_ }, h.pieces,
    fun x hx => h.posted x (List.mem_of_mem_drop hx), ?_, hret, by simp [State.reaped]⟩
  · exact (s.slots_reaped n ret).trans h.plan.slots
  · exact (counted_reap n s.written s.ring.completed).trans h.counted

/-- The files are what the writes done have made of them, and the books stay balanced. -/
theorem Sound.complete (h : Sound cfg s) {i : ℕ} {q : Sqe} {res : ℤ}
    (hq : s.ring.outstanding[i]? = some q) (hle : res ≤ q.len) :
    Balanced (s.moved i q res).log (s.moved i q res).ring ∧
      ∀ f, (s.moved i q res).files f =
        SparseFile.ofWrites (blocks pattern f (s.moved i q res).log) := by
  have hring : s.ring.complete i res = some (q, _) := complete_eq_some.mpr ⟨hq, rfl⟩
  exact ⟨h.balanced.complete hring hle, ofWrites_done h.files q res⟩

/-- A step that prepares nothing and completes nothing. -/
theorem Sound.congr (h : Sound cfg s) (hgood : Good cfg t) (hprep : prepped t.log = prepped s.log)
    (hdones : dones t.log = dones s.log) (hqueued : t.ring.queued = s.ring.queued)
    (hout : t.ring.outstanding = s.ring.outstanding) (hfiles : t.files = s.files)
    (halive : Failing t ∨ Alive cfg t) : Sound cfg t where
  good := hgood
  balanced := h.balanced.congr hprep hdones hqueued hout
  files f := by rw [hfiles, h.files, blocks, blocks, hdones]
  le_chunks := by rw [hprep]; exact h.le_chunks
  alive := halive

/-- While it fails, the program does nothing but return. -/
theorem Sound.step_failing (h : Sound cfg s) (hfail : Failing s) {e : Event}
    (ht : step cfg s e = some t) : Sound cfg t := by
  have hgood := good_step h.good ht
  rcases hfail with ⟨hphase, hret⟩ | ⟨r, -, hphase⟩
  · cases step_cases ht with
    | complete _ hc =>
      obtain ⟨q, ring, hring, hle, rfl⟩ := complete_cases hc
      obtain ⟨hq, rfl⟩ := complete_eq_some.mp hring
      obtain ⟨hbalanced, hfiles⟩ := h.complete hq hle
      exact ⟨hgood, hbalanced, hfiles, h.le_chunks, Or.inl (Or.inl ⟨hphase, hret⟩)⟩
    | cleanup =>
      exact h.congr hgood rfl rfl rfl rfl rfl
        (Or.inl (Or.inr ⟨s.ret, hret, by rw [State.result, if_pos hret]⟩))
    | _ => simp_all
  · rw [step_of_returned hphase] at ht
    exact absurd ht (by simp)

theorem Sound.acts (h : Sound cfg s) (halive : Alive cfg s) (hblock : 0 < cfg.blockSize)
    (hgood : Good cfg t) (hacts : Acts cfg s t) : Sound cfg t := by
  cases hacts with
  | complete _ hq hle =>
    obtain ⟨hbalanced, hfiles⟩ := h.complete hq hle
    exact ⟨hgood, hbalanced, hfiles, h.le_chunks, Or.inr (halive.moved hq)⟩
  | @fill u rr ret _ _ hrounds hret =>
    have hu := halive.rounds hblock hrounds
    obtain ⟨hdones, hfiles⟩ := rounds_done hrounds
    refine ⟨hgood, (balanced_rounds h.balanced hrounds).submit, ?_, hu.le_chunks hblock,
      Or.inr ⟨{ hu.plan with table := { hu.plan.table with }, slots := ?_ }, hu.pieces, hu.posted,
        hu.counted, hret, ?_⟩⟩
    · intro f
      show u.files f = SparseFile.ofWrites (blocks pattern f u.log)
      rw [hfiles, h.files, blocks, blocks, hdones]
    · simp only [State.awaitAny, pending_submit]
      exact hu.plan.slots
    · rcases awaitAny_cases { u with rr := rr, ring := u.ring.submit, ret := ret } with
        ⟨-, heq⟩ | ⟨hne, heq⟩ <;> rw [heq]
      · simp
      · exact fun _ => hne
  | leave =>
    exact h.congr hgood rfl rfl rfl rfl rfl
      (Or.inr (halive.congr rfl rfl rfl rfl rfl rfl rfl rfl halive.ret (by simp)))
  | wait hphase hret =>
    exact h.congr hgood rfl rfl rfl rfl rfl (Or.inr (halive.congr rfl rfl rfl rfl rfl rfl rfl rfl
      hret fun _ => halive.waits (Or.inl hphase)))
  | nothing hphase =>
    exact h.congr hgood rfl rfl rfl rfl rfl (Or.inr (halive.congr rfl rfl rfl rfl rfl rfl rfl rfl
      halive.ret fun _ => halive.waits (Or.inr (Or.inl hphase))))
  | reap _ _ _ hret =>
    exact h.congr hgood rfl rfl rfl rfl rfl (Or.inr (halive.reaped _ hret))
  | finish _ hl =>
    obtain ⟨hprep, hdones⟩ := prepped_dones_of_fsyncs s.log hl
    exact h.congr hgood hprep hdones rfl rfl rfl
      (Or.inr (halive.congr rfl rfl rfl hprep hdones rfl rfl rfl halive.ret (by simp)))
  | cleanup =>
    exact h.congr hgood rfl rfl rfl rfl rfl
      (Or.inr (halive.congr rfl rfl rfl rfl rfl rfl rfl rfl halive.ret (by simp)))
  | @fails u t _ hfails =>
    obtain ⟨l, hl, hlog⟩ := hfails.log
    obtain ⟨hprep, hdones⟩ := prepped_dones_of_fsyncs u.log hl
    obtain ⟨-, -, hout, -⟩ := rounds_frame hfails.rounds
    have hdones' := (rounds_done hfails.rounds).1
    refine ⟨hgood, ?_, ?_, ?_, Or.inl (Or.inl ⟨hfails.failed.phase, hfails.failed.ret⟩)⟩
    · rw [hlog]
      exact (balanced_rounds h.balanced hfails.rounds).congr hprep hdones hfails.queued
        (hfails.outstanding.trans hout.symm)
    · intro f
      rw [hfails.files, h.files, blocks, blocks, hlog, hdones, hdones']
    · rw [hlog, hprep]
      exact (halive.rounds hblock hfails.rounds).le_chunks hblock

theorem Sound.step (h : Sound cfg s) (hcfg : Undisturbed cfg) {e : Event}
    (ht : step cfg s e = some t) : Sound cfg t := by
  rcases h.alive with hfail | halive
  · exact h.step_failing hfail ht
  · exact h.acts halive hcfg.pos.2.2.1 (good_step h.good ht)
      (acts_of_step hcfg.pos.1 hcfg.room h.good h.balanced halive ht)

theorem sound_start (hcfg : Undisturbed cfg) : Sound cfg (start cfg) := by
  have hbooks := books_start hcfg.pos.2.1
  refine ⟨good_start, hbooks.ledger.balanced, hbooks.files, Nat.zero_le _,
    Or.inr ⟨hbooks.plan, ?_, hbooks.posted, hbooks.counted, Int.le_refl 0, ?_⟩⟩
  · intro f
    have hpos := hcfg.pos.2.2.1
    simp only [start, blank, fileSpans, prepped, List.filter_nil, List.map_nil, List.length_nil]
    omega
  · rw [hcfg.phase_start]
    simp

theorem sound_reach {P : State → Event → Prop} (hcfg : Undisturbed cfg)
    (h : Reach (step cfg) P (start cfg) s) : Sound cfg s :=
  h.invariant (sound_start hcfg) fun _ _ _ hs _ ht => hs.step hcfg ht

/-! ## The measure -/

/-- What is left of a round of the loop, and of the way out. -/
def stage : Phase → ℕ
  | .head => 5
  | .wait => 4
  | .reap => 3
  | .fallback => 2
  | .tail => 2
  | .out => 1
  | .returned _ => 0

def toDo (cfg : Config) (s : State) : ℕ :=
  6 * unasked cfg s + 5 * s.ring.outstanding.length + 4 * s.ring.completed.length + stage s.phase

theorem toDo_moved {i : ℕ} {q : Sqe} {res : ℤ} (hq : s.ring.outstanding[i]? = some q) :
    toDo cfg (s.moved i q res) < toDo cfg s := by
  have hpos := (List.getElem?_eq_some_iff.mp hq).1
  have hlen := List.length_eraseIdx_of_lt hpos
  simp only [toDo, unasked, State.moved, prepped, hlen, List.length_append, List.length_singleton]
  omega

theorem unasked_le (h : Relation.ReflTransGen (Round cfg) s u) : unasked cfg u ≤ unasked cfg s := by
  induction h with
  | refl => exact Nat.le_refl _
  | tail _ hround ih =>
    cases hround
    simp only [unasked, State.queue, prepped, List.map_append, List.sum_append] at ih ⊢
    omega

/-- **Every step leaves less to do**, also one that fails, and whatever the writes moved. -/
theorem Acts.toDo_lt (hacts : Acts cfg s t) (hgood : Good cfg s) (halive : Alive cfg s)
    (hblock : 0 < cfg.blockSize) : toDo cfg t < toDo cfg s := by
  cases hacts with
  | complete _ hq => exact toDo_moved hq
  | @fill u rr ret hphase _ hrounds =>
    have hqueued := halive.plan.queued_le hblock hrounds
    obtain ⟨-, -, hout, hcomp⟩ := rounds_frame hrounds
    rw [(hgood.looping (Or.inl hphase)).queued, List.length_nil] at hqueued
    rcases awaitAny_cases { u with rr := rr, ring := u.ring.submit, ret := ret } with
      ⟨-, heq⟩ | ⟨-, heq⟩ <;> rw [heq] <;>
      simp only [toDo, unasked, stage, hphase, outstanding_submit, completed_submit, hout, hcomp,
        List.length_append] at hqueued ⊢ <;> omega
  | leave hphase => simp [toDo, unasked, stage, hphase]
  | wait hphase => simp [toDo, unasked, stage, hphase]
  | nothing hphase => simp [toDo, unasked, stage, hphase]
  | @reap n ret hphase hpos hle =>
    have hstage : 2 ≤ stage s.phase := by rcases hphase with hp | hp <;> simp [hp, stage]
    have hstage' : stage Phase.head = 5 := rfl
    simp only [toDo, unasked, State.reaped, hstage', advance, List.length_drop]
    omega
  | finish hphase hl =>
    simp only [toDo, unasked, stage, hphase, (prepped_dones_of_fsyncs s.log hl).1]
    omega
  | cleanup hphase => simp [toDo, unasked, stage, hphase]
  | @fails u t hphase hfails =>
    obtain ⟨l, hl, hlog⟩ := hfails.log
    have hunasked := unasked_le hfails.rounds
    have hcomp := hfails.completed
    have hstage : 2 ≤ stage s.phase := by
      cases hp : s.phase with
      | out => exact absurd hp hphase.1
      | returned r => exact absurd hp (hphase.2 r)
      | _ => simp [stage]
    simp only [unasked] at hunasked
    have hout : stage Phase.out = 1 := rfl
    simp only [toDo, unasked, hfails.failed.phase, hlog, (prepped_dones_of_fsyncs u.log hl).1,
      hfails.outstanding, hout]
    omega

/-- While the program fails, less is left to do as well. -/
theorem toDo_lt_failing (hfail : Failing s) {e : Event} (ht : step cfg s e = some t) :
    toDo cfg t < toDo cfg s := by
  rcases hfail with ⟨hphase, -⟩ | ⟨r, -, hphase⟩
  · cases step_cases ht with
    | complete _ hc =>
      obtain ⟨q, ring, hring, -, rfl⟩ := complete_cases hc
      obtain ⟨hq, rfl⟩ := complete_eq_some.mp hring
      exact toDo_moved hq
    | cleanup => simp [toDo, unasked, stage, hphase]
    | _ => simp_all
  · rw [step_of_returned hphase] at ht
    exact absurd ht (by simp)

theorem Sound.toDo_lt (h : Sound cfg s) (hcfg : Undisturbed cfg) {e : Event}
    (ht : WriteManyfiles.step cfg s e = some t) : toDo cfg t < toDo cfg s := by
  rcases h.alive with hfail | halive
  · exact toDo_lt_failing hfail ht
  · exact (acts_of_step hcfg.pos.1 hcfg.room h.good h.balanced halive ht).toDo_lt h.good halive
      hcfg.pos.2.2.1

/-! ## The end -/

/-- No call fails, and no write fails.  A write may move nothing. -/
def Smooth (cfg : Config) (_ : State) : Event → Prop
  | .complete _ res => 0 ≤ res
  | .fill submitRet => 0 ≤ submitRet
  | .wait waitRet => 0 ≤ waitRet
  | .reap => True
  | .waitOne waitRet => 0 ≤ waitRet
  | .finish fsyncErr => ∀ i < cfg.nfiles, fsyncErr i = none
  | .cleanup => True

/-- The program waits for a completion. -/
def Waits (s : State) : Prop := s.phase = .wait ∨ s.phase = .fallback

/-- There is something to wait for. -/
theorem Sound.awaited (h : Sound cfg s) (hs : Waits s) :
    s.ring.outstanding ≠ [] ∨ s.ring.completed ≠ [] := by
  have hnot : ¬ Failing s := by
    rcases hs with hp | hp <;> exact not_failing_of_phase (by simp [hp]) (by simp [hp])
  have halive : Alive cfg s := h.alive.resolve_left hnot
  have hloop : Looping s := h.good.looping (by
    rcases hs with hp | hp
    · exact Or.inr (Or.inl hp)
    · exact Or.inr (Or.inr (Or.inr (Or.inl hp))))
  have hne := halive.waits (hs.imp_right Or.inr)
  by_contra hnone
  obtain ⟨hout, hcomp⟩ := not_or.mp hnone
  have hcard := hloop.accounts.inflight
  rw [card_pending, hloop.queued, not_not.mp hout, not_not.mp hcomp] at hcard
  exact hne hcard

/-- Writes that have not returned can go on, and nothing has to fail for it. -/
theorem Sound.exists_smooth (h : Sound cfg s) (hs : ¬ Returned s) :
    ∃ e t, Smooth cfg s e ∧ WriteManyfiles.step cfg s e = some t := by
  cases hphase : s.phase with
  | head => exact ⟨.fill 0, _, Int.le_refl 0, if_pos hphase⟩
  | wait => exact ⟨.wait 0, _, Int.le_refl 0, if_pos hphase⟩
  | reap => exact ⟨.reap, _, trivial, if_pos hphase⟩
  | fallback =>
    cases hcs : s.ring.completed with
    | cons c cs =>
      refine ⟨.waitOne 0, reapBatch cfg 1 0 [c] { s with ret := 0 }, Int.le_refl 0, ?_⟩
      simp only [WriteManyfiles.step, if_pos hphase, waitOne, hcs]
      rfl
    | nil =>
      -- nothing to reap, so a write is outstanding: let it move nothing
      obtain ⟨q, qs, hout⟩ := List.exists_cons_of_ne_nil
        ((h.awaited (Or.inr hphase)).resolve_right (not_not.mpr hcs))
      have hq : s.ring.outstanding[0]? = some q := by rw [hout]; rfl
      have hc : s.ring.complete 0 0 = some (q, _) := complete_eq_some.mpr ⟨hq, rfl⟩
      obtain ⟨t, ht⟩ : ∃ t, WriteManyfiles.step cfg s (.complete 0 0) = some t := by
        simp only [WriteManyfiles.step, hphase, WriteManyfiles.complete, hc]
        exact ⟨_, if_pos (by omega)⟩
      exact ⟨.complete 0 0, t, Int.le_refl 0, ht⟩
  | tail => exact ⟨.finish fun _ => none, _, fun _ _ => rfl, if_pos hphase⟩
  | out => exact ⟨.cleanup, _, trivial, if_pos hphase⟩
  | returned r => exact absurd ⟨r, hphase⟩ hs

/-- A call that is refused at its entry has returned. -/
theorem undisturbed_or_returned (hroom : cfg.qd ≤ cfg.sqEntries) :
    Undisturbed cfg ∨ ∃ r < 0, (start cfg).phase = .returned r := by
  rcases entry_cases cfg with ⟨hentry, -⟩ | hentry
  · exact Or.inl ⟨hentry, hroom⟩
  · exact Or.inr hentry

/-- **Every call ends**, whatever the kernel moves. -/
theorem ends (hroom : cfg.qd ≤ cfg.sqEntries) :
    Terminates (step cfg) (Smooth cfg) Returned (start cfg) := by
  rcases undisturbed_or_returned hroom with hcfg | ⟨r, -, hphase⟩
  · exact terminates_of_measure (toDo cfg) (sound_start hcfg)
      (fun _ _ _ hs _ ht => hs.step hcfg ht) (fun _ _ _ hs _ ht => hs.toDo_lt hcfg ht)
      (fun _ hs hnot => hs.exists_smooth hnot)
  · exact terminates_of_stuck (step_of_returned hphase) ⟨r, hphase⟩

/-- **At most one completion for each chunk.** -/
theorem dones_le {P : State → Event → Prop} (hroom : cfg.qd ≤ cfg.sqEntries)
    (h : Reach (step cfg) P (start cfg) s) : (dones s.log).length ≤ cfg.chunks := by
  rcases undisturbed_or_returned hroom with hcfg | ⟨r, -, hphase⟩
  · have hs := sound_reach hcfg h
    exact Nat.le_trans hs.balanced.length_le hs.le_chunks
  · rw [h.eq_of_stuck (step_of_returned hphase)]
    exact Nat.zero_le _

end WriteManyfiles
end Native
end Pyuring
