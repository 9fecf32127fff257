import Pyuring.Native.WriteNewfileInvariant

/-!
# Writes that run to their end

How `uring_write_newfile_dynamic` ends when nothing goes wrong around it: the
set-up succeeds, the submission queue has room for `qd` entries, no system call
fails, a wait returns only when there is something to reap, and the progress
callback lets the writes go on.  The kernel completes the outstanding writes in
any order, each with `pick q`, and at any time, so the batches reaped are of any
size.

Such a run terminates, and it has by then written every chunk of the chunk
sequence.
-/

namespace Pyuring
namespace Native
namespace WriteNewfile

open CompletionRing Trace

variable (cfg : Config)

/-- Nothing around the writes goes wrong. -/
structure Undisturbed : Prop where
  setup : cfg.setup = .ok
  totalMb_pos : 0 < cfg.totalMb
  blockSize_pos : 0 < cfg.blockSize
  qd_pos : 0 < cfg.qd
  room : cfg.qd ≤ cfg.sqEntries
  progress : ∀ n written, ¬ CancelsAt cfg n written

/-- No system call fails, a wait returns when there is something to reap, and the
kernel completes request `q` with `pick q`. -/
def Answers (pick : Sqe → ℕ) (s : State) : Event → Prop
  | .complete i res => ∀ q, s.ring.outstanding[i]? = some q → res = pick q
  | .fill submitRet => 0 ≤ submitRet
  | .wait waitRet => 0 ≤ waitRet ∧ s.ring.completed ≠ []
  | .reap => True
  | .finish fsyncErr => fsyncErr = none
  | .cleanup => True

def Returned (s : State) : Prop := ∃ r, s.phase = .returned r

/-- The invariant of undisturbed writes. -/
structure Running (pick : Sqe → ℕ) (s : State) : Prop where
  good : Good cfg s
  chunked : ∃ k, Chunked cfg s k
  wait : s.phase = .wait → s.inflight ≠ 0
  answered : ∀ x ∈ s.ring.completed, x.2 = pick x.1
  ret : 0 ≤ s.ret
  returned : ∀ r, s.phase = .returned r → r = s.written ∧ Finished cfg s

/-- Between two waits the program reaps until nothing is left; reaping is done when
nothing is left to reap. -/
def rank (s : State) : ℕ :=
  match s.phase with
  | .head => 2
  | .wait => 1
  | .reap => if s.ring.completed = [] then 3 else 0
  | .out => 1
  | .returned _ => 0

def workLeft (s : State) : ℕ :=
  6 * (cfg.totalBytes - s.nextOff) + 5 * s.ring.outstanding.length +
    4 * s.ring.completed.length + rank s

variable {cfg} {pick : Sqe → ℕ} {s : State}

theorem rank_le (s : State) : rank s ≤ 3 := by
  unfold rank
  split <;> try split
  all_goals omega

/-- A batch of answered writes does not stop the loop. -/
theorem not_batchAborts (hcfg : Undisturbed cfg) : ∀ {cs : List (Sqe × ℤ)} {n written : ℕ},
    (∀ x ∈ cs, x.2 = pick x.1) →
    (∀ x ∈ cs, x.1.buf < cfg.qd ∧ x.1.userData = packUd 1 (UInt32.ofNat x.1.buf)) →
    ¬ BatchAborts cfg cs n written
  | [], _, _, _, _ => id
  | (q, res) :: cs, n, written, hans, htag => by
    obtain ⟨hbuf, hud⟩ : q.buf < cfg.qd ∧ q.userData = packUd 1 (UInt32.ofNat q.buf) :=
      htag (q, res) List.mem_cons_self
    have hres : res = pick q := hans (q, res) List.mem_cons_self
    have hslot : (udSlot q.userData).toNat = q.buf := by
      rw [hud]
      exact toNat_udSlot_packUd 1 (Nat.lt_trans hbuf cfg.qd_lt)
    have hop : udOp q.userData = 1 := by rw [hud, udOp_packUd]
    rintro ((hop' | hqd) | hneg | hcancel | hrest)
    · exact hop' hop
    · omega
    · omega
    · exact hcfg.progress _ _ hcancel
    · exact not_batchAborts hcfg (fun x hx => hans x (List.mem_cons_of_mem _ hx))
        (fun x hx => htag x (List.mem_cons_of_mem _ hx)) hrest

theorem running_start (h : Undisturbed cfg) : Running cfg pick (start cfg) := by
  have hentry : entry cfg = .head := by
    have := h.totalMb_pos
    have := h.blockSize_pos
    have := h.qd_pos
    simp only [entry, h.setup, Setup.ok]
    rw [if_neg (by omega)]
    simp
  refine ⟨good_start, ⟨0, chunked_blank _⟩, ?_, by simp [start, blank], Int.le_refl 0, ?_⟩
  · rw [start, hentry]
    exact fun hwait => absurd hwait (by simp [blank])
  · rw [start, hentry]
    exact fun r hr => absurd hr (by simp [blank])

/-- When the loop goes on, a round of it hands over a write or has one to wait
for. -/
theorem fill_inflight (h : Looping cfg s) (hqd : 0 < cfg.qd) (hblock : 0 < cfg.blockSize)
    (hroom : cfg.qd ≤ cfg.sqEntries) (hcont : s.Continues cfg) {u : State} (hu : Looping cfg u)
    (hout : u.ring.outstanding = s.ring.outstanding ++ (enqueue cfg cfg.qd s).ring.queued)
    (hcomp : u.ring.completed = s.ring.completed) : u.inflight ≠ 0 := by
  obtain ⟨henq, _, hgrow⟩ := enqueue_spec hqd hblock cfg.qd h.accounts
  have hs := h.accounts.inflight
  have hu' := hu.accounts.inflight
  rw [hout, hcomp, List.length_append] at hu'
  have hpend := h.accounts.pending
  rw [h.queued, List.length_nil] at hpend
  have hpend' := henq.accounts.pending
  rcases hcont with hlt | hne | hne
  · by_cases hin : s.inflight = 0
    · have := hgrow (by omega) hlt (by omega) (by rw [h.queued, List.length_nil]; omega)
      omega
    · omega
  · omega
  · exact absurd hpend hne

/-! ## The steps -/

theorem Running.complete (h : Running cfg pick s) {i : ℕ} {res : ℤ} {t : State}
    (hrun : ∀ r, s.phase ≠ .returned r) (hc : WriteNewfile.complete cfg i res s = some t)
    (hans : ∀ q, s.ring.outstanding[i]? = some q → res = pick q) (hgood : Good cfg t)
    (hchunk : ∃ k, Chunked cfg t k) : Running cfg pick t ∧ workLeft cfg t < workLeft cfg s := by
  obtain ⟨q, ring, hring, _, rfl⟩ := complete_cases hc
  obtain ⟨hq, rfl⟩ := complete_eq_some.mp hring
  refine ⟨⟨hgood, hchunk, h.wait, ?_, h.ret, fun r hr => absurd hr (hrun r)⟩, ?_⟩
  · intro x hx
    rcases List.mem_append.mp hx with hx | hx
    · exact h.answered x hx
    · rw [List.mem_singleton.mp hx]
      exact hans q hq
  · obtain ⟨hi, _⟩ := List.getElem?_eq_some_iff.mp hq
    have hlen := List.length_eraseIdx_of_lt hi
    have hrank : rank { s with
        ring := { s.ring with
          outstanding := s.ring.outstanding.eraseIdx i
          completed := s.ring.completed ++ [(q, res)] }
        log := .done q res :: s.log
        dst := s.dst.write q.off (pattern q.buf res.toNat)
        overrun := s.overrun || decide (cfg.maxBufferSize < res.toNat) } ≤ rank s := by
      unfold rank
      cases s.phase <;> simp
    simp only [workLeft, hlen, List.length_append, List.length_singleton] at hrank ⊢
    omega

/-- A round hands over what it prepares, and that covers at least a byte each. -/
theorem Running.fill (h : Running cfg pick s) (hcfg : Undisturbed cfg) (hphase : s.phase = .head)
    (hcont : s.Continues cfg) {r : ℤ} (hret : 0 ≤ r) (hgood : Good cfg (fill cfg r s))
    (hchunk : ∃ k, Chunked cfg (fill cfg r s) k) :
    Running cfg pick (fill cfg r s) ∧ workLeft cfg (fill cfg r s) < workLeft cfg s := by
  have hqd := hcfg.qd_pos
  have hblock := hcfg.blockSize_pos
  have hloop := h.good.of_head hphase
  obtain ⟨henq, _, _⟩ := enqueue_spec hqd hblock cfg.qd hloop.accounts
  rcases fill_cases hloop hqd hblock r with ⟨hab, _⟩ | ⟨_, u, heq, hu, hout, hcomp, hoff, _⟩
  · exact absurd hab.2 (Int.not_lt.mpr hret)
  have hin := fill_inflight hloop hqd hblock hcfg.room hcont hu hout hcomp
  have hwait : u.awaitAny.phase = .wait := by
    rcases awaitAny_phase u with ⟨_, h0⟩ | ⟨hp, _⟩
    · exact absurd h0 hin
    · exact hp
  rw [heq] at hgood hchunk ⊢
  refine ⟨⟨hgood, hchunk, fun _ => hin, ?_, hu.accounts.ret, ?_⟩, ?_⟩
  · show ∀ x ∈ u.ring.completed, _
    rw [hcomp]
    exact h.answered
  · rw [hwait]
    exact fun r hr => absurd hr (by simp)
  · have hgrow := henq.grow
    rw [hloop.queued, List.length_nil] at hgrow
    obtain ⟨k, hk⟩ := hchunk
    have hle : u.nextOff ≤ cfg.totalBytes := by
      have hoffset : cfg.sizing.offset k = u.nextOff := congrArg Prod.fst hk.chunk
      have := Sizing.offset_le_total (z := cfg.sizing) k
      rwa [hoffset] at this
    have hrank : rank u.awaitAny = 1 := by rw [rank, hwait]
    have hrank' : rank s = 2 := by rw [rank, hphase]
    have hwork : workLeft cfg u.awaitAny = 6 * (cfg.totalBytes - u.nextOff) +
        5 * u.ring.outstanding.length + 4 * u.ring.completed.length + rank u.awaitAny := rfl
    rw [hwork, workLeft, hrank, hrank', hout, hcomp, List.length_append]
    omega

/-- No answered write stops the reaping of a batch. -/
theorem Running.not_aborts_reap (h : Running cfg pick s) (hcfg : Undisturbed cfg)
    (hphase : s.phase = .reap) : ¬ Aborts cfg s .reap := by
  intro hab
  refine not_batchAborts hcfg (fun x hx => h.answered x (List.mem_of_mem_take hx))
    ?_ hab.2
  intro x hx
  exact (h.good.of_reap hphase).accounts.tag _
    (mem_pending.mpr (Or.inr (Or.inr ⟨x.2, List.mem_of_mem_take hx⟩)))

theorem Running.reap (h : Running cfg pick s) (hcfg : Undisturbed cfg) (hphase : s.phase = .reap)
    (hgood : Good cfg (reap cfg s)) (hchunk : ∃ k, Chunked cfg (reap cfg s) k) :
    Running cfg pick (reap cfg s) ∧ workLeft cfg (reap cfg s) < workLeft cfg s := by
  have hloop := h.good.of_reap hphase
  obtain ⟨hkept, hcase⟩ := reap_cases hloop
  rcases hcase with ⟨hab, _⟩ | ⟨_, hloop', hcase⟩
  · exact absurd hab (h.not_aborts_reap hcfg hphase)
  rcases hcase with ⟨hp, hidle, hring⟩ | ⟨hp, _, hne, hcomp⟩
  · refine ⟨⟨hgood, hchunk, by rw [hp]; exact fun hw => absurd hw (by simp),
      by rw [hring]; exact h.answered, hloop'.accounts.ret,
      by rw [hp]; exact fun r hr => absurd hr (by simp)⟩, ?_⟩
    have hnil : s.ring.completed = [] := by
      rcases hidle with h0 | hnil
      · have := hloop.accounts.inflight
        exact List.length_eq_zero_iff.mp (by omega)
      · exact hnil
    have hrank : rank s = 3 := by rw [rank, hphase]; exact if_pos hnil
    have hrank' : rank (WriteNewfile.reap cfg s) = 2 := by rw [rank, hp]
    simp only [workLeft, hkept.nextOff, hring, hrank, hrank']
    omega
  · rw [hphase] at hp
    refine ⟨⟨hgood, hchunk, by rw [hp]; exact fun hw => absurd hw (by simp), ?_,
      hloop'.accounts.ret, by rw [hp]; exact fun r hr => absurd hr (by simp)⟩, ?_⟩
    · rw [hcomp]
      exact fun x hx => h.answered x (List.mem_of_mem_drop hx)
    · have hrank := rank_le (WriteNewfile.reap cfg s)
      have hlen := List.length_pos_iff.mpr hne
      simp only [workLeft, hkept.nextOff, hkept.outstanding, hcomp, List.length_drop, batchSize]
      omega

/-- **The step of undisturbed writes**: it keeps the invariant and leaves less to
do. -/
theorem Running.step (h : Running cfg pick s) (hcfg : Undisturbed cfg) {e : Event} {t : State}
    (hans : Answers pick s e) (ht : step cfg s e = some t) :
    Running cfg pick t ∧ workLeft cfg t < workLeft cfg s := by
  obtain ⟨hgood, hchunk⟩ := step_good hcfg.qd_pos hcfg.blockSize_pos h.good ht
  have hchunk := hchunk hcfg.room h.chunked
  cases step_cases ht with
  | complete hrun hc => exact h.complete hrun hc hans hgood hchunk
  | fill hphase hcont => exact h.fill hcfg hphase hcont hans hgood hchunk
  | waitFails _ hneg => exact absurd hneg (Int.not_lt.mpr hans.1)
  | waits hphase hret =>
    refine ⟨⟨hgood, hchunk, fun hw => absurd hw (by simp), h.answered, hret,
      fun r hr => absurd hr (by simp)⟩, ?_⟩
    simp only [workLeft, rank, hphase, if_neg hans.2]
    omega
  | reap hphase => exact h.reap hcfg hphase hgood hchunk
  | @finish e hphase hend =>
    have hnone : e = none := hans
    have hframe : (finish cfg e s).nextOff = s.nextOff ∧ (finish cfg e s).ring = s.ring := by
      rw [hnone]
      unfold finish
      cases cfg.doFsync <;> exact ⟨rfl, rfl⟩
    rcases finish_cases (h.good.of_head hphase) hend e with ⟨_, hne, _⟩ | ⟨hp, hret, _⟩
    · exact absurd hnone hne
    · refine ⟨⟨hgood, hchunk, by rw [hp]; exact fun hw => absurd hw (by simp),
        by rw [hframe.2]; exact h.answered, hret,
        by rw [hp]; exact fun r hr => absurd hr (by simp)⟩, ?_⟩
      simp only [workLeft, rank, hp, hphase, hframe.1, hframe.2]
      omega
  | cleanup hphase =>
    refine ⟨⟨hgood, hchunk, fun hw => absurd hw (by simp), h.answered, h.ret, ?_⟩, ?_⟩
    · intro r hr
      rcases h.good.of_out hphase with hneg | ⟨hret, hfin⟩
      · exact absurd h.ret (Int.not_le.mpr hneg)
      · refine ⟨?_, { hfin with }⟩
        rw [← Phase.returned.inj hr, State.result, if_neg (Int.not_lt.mpr hret)]
    · simp only [workLeft, rank, hphase]
      omega

/-- Writes that have not returned can move, whatever the kernel answers. -/
theorem Running.moves (h : Running cfg pick s) (hle : ∀ q, 0 < q.len → pick q ≤ q.len)
    (hs : ¬ Returned s) : ∃ e t, Answers pick s e ∧ WriteNewfile.step cfg s e = some t := by
  cases hphase : s.phase with
  | head =>
    by_cases hcont : s.Continues cfg
    · exact ⟨.fill 0, _, Int.le_refl 0, if_pos ⟨hphase, hcont⟩⟩
    · exact ⟨.finish none, _, rfl, if_pos ⟨hphase, hcont⟩⟩
  | wait =>
    cases hcs : s.ring.completed with
    | cons c cs =>
      exact ⟨.wait 0, _, ⟨Int.le_refl 0, by rw [hcs]; simp⟩, if_pos hphase⟩
    | nil =>
      -- nothing to reap, so some write is outstanding
      have hloop := h.good.of_wait hphase
      have hcount := hloop.accounts.inflight
      have hne := h.wait hphase
      rw [hcs, List.length_nil] at hcount
      obtain ⟨q, hq⟩ : ∃ q, s.ring.outstanding[0]? = some q :=
        ⟨_, List.getElem?_eq_getElem (by omega)⟩
      have hmem : q ∈ s.ring.pending :=
        mem_pending.mpr (Or.inr (Or.inl (List.mem_of_getElem? hq)))
      have hlen := hle q (hloop.accounts.write q hmem).2
      have hring : s.ring.complete 0 (pick q) = some (q, _) := complete_eq_some.mpr ⟨hq, rfl⟩
      have hans : Answers pick s (.complete 0 (pick q)) := fun q' hq' => by
        rw [Option.some.inj (hq.symm.trans hq')]
      obtain ⟨t, ht⟩ : ∃ t, WriteNewfile.step cfg s (.complete 0 (pick q)) = some t := by
        simp only [WriteNewfile.step, hphase, WriteNewfile.complete, hring]
        exact ⟨_, if_pos (by omega)⟩
      exact ⟨_, t, hans, ht⟩
  | reap => exact ⟨.reap, _, trivial, if_pos hphase⟩
  | out => exact ⟨.cleanup, _, trivial, if_pos hphase⟩
  | returned r => exact absurd ⟨r, hphase⟩ hs

theorem running_reach (hcfg : Undisturbed cfg)
    (h : Reach (WriteNewfile.step cfg) (Answers pick) (start cfg) s) : Running cfg pick s :=
  h.invariant (running_start hcfg) fun _ _ _ hrun hans ht => (hrun.step hcfg hans ht).1

/-- **Undisturbed writes terminate.** -/
theorem terminates (hcfg : Undisturbed cfg) (hle : ∀ q, 0 < q.len → pick q ≤ q.len) :
    Terminates (WriteNewfile.step cfg) (Answers pick) Returned (start cfg) :=
  terminates_of_measure (workLeft cfg) (running_start hcfg)
    (fun _ _ _ hrun hans ht => (hrun.step hcfg hans ht).1)
    (fun _ _ _ hrun hans ht => (hrun.step hcfg hans ht).2)
    (fun _ hrun hs => hrun.moves hle hs)

end WriteNewfile
end Native
end Pyuring
