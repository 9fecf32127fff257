import Pyuring.Native.WriteManyfiles

/-!
# The invariant of the many-files loop

The bookkeeping of `uring_write_manyfiles`, in every run: between two points where
the program waits everything it queued was handed over, and `inflight` counts the
writes that were queued and not reaped.  After the loop it is zero, so a run that
gets to the end without an error has nothing in flight when it syncs the files.
-/

namespace Pyuring
namespace Native
namespace WriteManyfiles

open CompletionRing

variable (cfg : Config)

/-- A completion of the batch stops the loop. -/
def BatchAborts (batch : List (Sqe × ℤ)) : Prop :=
  ∃ x ∈ batch, (udOp x.1.userData ≠ 1 ∨ cfg.qd ≤ (udSlot x.1.userData).toNat) ∨ x.2 < 0

/-- What makes a step of the loop leave for `out:`. -/
def Aborts (s : State) : Event → Prop
  | .complete _ _ => False
  | .fill submitRet => s.Continues cfg ∧
      (enqueue cfg s.freeSlots.length s).ring.queued ≠ [] ∧ submitRet < 0
  | .wait waitRet => waitRet < 0
  | .reap => BatchAborts cfg (s.ring.completed.take batchSize)
  | .waitOne waitRet => waitRet < 0 ∨ BatchAborts cfg (s.ring.completed.take 1)
  | .finish _ => False
  | .cleanup => False

/-- The bookkeeping of the loop. -/
structure Accounts (s : State) : Prop where
  inflight : s.inflight = Multiset.card s.ring.pending
  unsynced : ∀ f, Ev.fsync f ∉ s.log
  ret : 0 ≤ s.ret

/-- Everything queued was handed over. -/
structure Looping (s : State) : Prop where
  accounts : Accounts s
  queued : s.ring.queued = []

/-- The program left the loop with an error. -/
structure Failed (s : State) : Prop where
  phase : s.phase = .out
  ret : s.ret < 0

/-- The loop has ended and nothing went wrong: the files were synced if that was
asked for. -/
structure Finished (s : State) : Prop where
  idle : s.ring.Idle
  synced : ∀ f < cfg.nfiles, SyncedAfterWrites f s.log ↔ cfg.doFsyncEnd = true

/-- The invariant at each point of the program. -/
def Good (s : State) : Prop :=
  match s.phase with
  | .head | .wait | .reap | .fallback => Looping s
  | .tail => Looping s ∧ s.inflight = 0
  | .out => s.ret < 0 ∨ 0 ≤ s.ret ∧ Finished cfg s
  | .returned r => r < 0 ∨ r = s.written ∧ Finished cfg s

variable {cfg} {s : State}

/-! ## Queueing writes -/

variable (cfg) in
/-- What looking for a file leaves alone. -/
theorem pick_frame : ∀ (n : ℕ) (s : State),
    (pick cfg n s).2.ring = s.ring ∧ (pick cfg n s).2.inflight = s.inflight ∧
      (pick cfg n s).2.log = s.log ∧ (pick cfg n s).2.ret = s.ret ∧
      (pick cfg n s).2.phase = s.phase
  | 0, s => ⟨rfl, rfl, rfl, rfl, rfl⟩
  | n + 1, s => by
    rw [pick]
    simp only
    split
    · exact pick_frame n { s with rr := (s.rr + 1) % 2 ^ 32 }
    split
    · exact pick_frame n { s with
        rr := (s.rr + 1) % 2 ^ 32
        fileDone := Function.update s.fileDone (s.rr % cfg.nfiles) true
        doneFiles := s.doneFiles + 1 }
    split <;> split <;> exact ⟨rfl, rfl, rfl, rfl, rfl⟩

theorem Accounts.of_frame {t : State} (h : Accounts s) (hring : t.ring = s.ring)
    (hin : t.inflight = s.inflight) (hlog : t.log = s.log) (hret : t.ret = s.ret) :
    Accounts t where
  inflight := by rw [hring, hin, h.inflight]
  unsynced := by rw [hlog]; exact h.unsynced
  ret := hret ▸ h.ret

variable (cfg) in
/-- Queueing one chunk keeps the bookkeeping and hands nothing over. -/
theorem enqueueOne_frame (h : Accounts s) (slot : ℕ) (rest : List ℕ) (f off len : ℕ) :
    Accounts (enqueueOne cfg slot rest f off len s).2 ∧
      (enqueueOne cfg slot rest f off len s).2.ring.outstanding = s.ring.outstanding ∧
      (enqueueOne cfg slot rest f off len s).2.ring.completed = s.ring.completed ∧
      (enqueueOne cfg slot rest f off len s).2.phase = s.phase := by
  unfold enqueueOne
  simp only
  cases hpush : s.ring.push cfg.sqEntries (writeSqe slot f len off) with
  | none => exact ⟨{ h with }, rfl, rfl, rfl⟩
  | some ring =>
    have hpend := pending_push hpush
    obtain ⟨_, rfl⟩ := push_eq_some.mp hpush
    refine ⟨⟨?_, by simpa using h.unsynced, h.ret⟩, rfl, rfl, rfl⟩
    rw [hpend, Multiset.card_cons, h.inflight]

variable (cfg) in
theorem enqueue_frame : ∀ (n : ℕ) {s : State}, Accounts s →
    Accounts (enqueue cfg n s) ∧
      (enqueue cfg n s).ring.outstanding = s.ring.outstanding ∧
      (enqueue cfg n s).ring.completed = s.ring.completed ∧
      (enqueue cfg n s).phase = s.phase
  | 0, _, h => ⟨h, rfl, rfl, rfl⟩
  | n + 1, s, h => by
    rw [enqueue]
    split
    · exact ⟨h, rfl, rfl, rfl⟩
    next slot rest hslots =>
    split
    · obtain ⟨hring, hin, hlog, hret, hphase⟩ := pick_frame cfg cfg.nfiles s
      have hpick := h.of_frame hring hin hlog hret
      split
      · next t heq =>
        rw [heq] at hring hphase hpick
        exact ⟨hpick, by rw [hring], by rw [hring], hphase⟩
      · next f off len t heq =>
        rw [heq] at hring hphase hpick
        obtain ⟨hacc, hout, hcomp, hph⟩ := enqueueOne_frame cfg hpick slot rest f off len
        simp only at hring hphase hacc hout hcomp hph
        cases hone : enqueueOne cfg slot rest f off len t with
        | mk ok u =>
          rw [hone] at hacc hout hcomp hph
          rw [hring] at hout hcomp
          rw [hphase] at hph
          cases ok with
          | false => exact ⟨hacc, hout, hcomp, hph⟩
          | true =>
            obtain ⟨hacc', hout', hcomp', hph'⟩ := enqueue_frame n hacc
            exact ⟨hacc', hout'.trans hout, hcomp'.trans hcomp, hph'.trans hph⟩
    · exact ⟨h, rfl, rfl, rfl⟩

/-! ## One iteration -/

theorem Looping.awaitAny (h : Looping s) : Looping s.awaitAny :=
  ⟨{ h.accounts with }, h.queued⟩

theorem awaitAny_phase (s : State) :
    s.awaitAny.phase = .tail ∧ s.inflight = 0 ∨ s.awaitAny.phase = .wait := by
  unfold State.awaitAny
  split
  · next h0 => exact Or.inl ⟨rfl, h0⟩
  · exact Or.inr rfl

theorem Accounts.submit (h : Accounts s) {r : ℤ} (hr : 0 ≤ r) :
    Looping { s with ring := s.ring.submit, ret := r } :=
  ⟨⟨by simpa using h.inflight, h.unsynced, hr⟩, rfl⟩

/-- What the head of the loop leads to. -/
theorem fill_cases (h : Looping s) (r : ℤ) :
    (Aborts cfg s (.fill r) ∧ Failed (fill cfg r s) ∧
      (fill cfg r s).ring.outstanding = s.ring.outstanding) ∨
    (¬ Aborts cfg s (.fill r) ∧ Good cfg (fill cfg r s) ∧ (fill cfg r s).phase ≠ .out) := by
  obtain ⟨hacc, hout, _⟩ := enqueue_frame cfg s.freeSlots.length h.accounts
  have hgood : ∀ {u : State}, Looping u → Good cfg u.awaitAny ∧ u.awaitAny.phase ≠ .out := by
    intro u hu
    rcases awaitAny_phase u with ⟨hp, h0⟩ | hp
    · exact ⟨by simp only [Good, hp]; exact ⟨hu.awaitAny, h0⟩, by simp [hp]⟩
    · exact ⟨by simp only [Good, hp]; exact hu.awaitAny, by simp [hp]⟩
  unfold fill Aborts
  by_cases hcont : s.Continues cfg
  · rw [if_pos hcont]
    simp only
    generalize enqueue cfg s.freeSlots.length s = t at hacc hout
    by_cases hq : t.ring.queued = []
    · rw [if_pos hq]
      exact Or.inr ⟨fun hand => hand.2.1 hq, hgood ⟨hacc, hq⟩⟩
    · rw [if_neg hq]
      by_cases hr : r < 0
      · rw [if_pos hr]
        exact Or.inl ⟨⟨hcont, hq, hr⟩, ⟨rfl, hr⟩, hout⟩
      · rw [if_neg hr]
        exact Or.inr ⟨fun hand => hr hand.2.2, hgood (hacc.submit (Int.not_lt.mp hr))⟩
  · rw [if_neg hcont]
    obtain ⟨_, h0⟩ := not_or.mp hcont
    exact Or.inr ⟨fun hand => hcont hand.1, ⟨⟨{ h.accounts with }, h.queued⟩, not_not.mp h0⟩,
      by simp⟩

theorem reapBatch_cases (got : ℕ) : ∀ (cs : List (Sqe × ℤ)) (i : ℕ) (s : State),
    (BatchAborts cfg cs ∧ Failed (reapBatch cfg got i cs s) ∧
      (reapBatch cfg got i cs s).ring.outstanding = s.ring.outstanding) ∨
    (¬ BatchAborts cfg cs ∧ ∃ free, reapBatch cfg got i cs s = { s with
      ring := s.ring.advance got
      inflight := s.inflight - cs.length
      written := s.written + (cs.map fun x => x.2.toNat).sum
      freeSlots := free
      phase := .head })
  | [], _, s => Or.inr ⟨by simp [BatchAborts], s.freeSlots, rfl⟩
  | (q, res) :: cs, i, s => by
    rw [reapBatch]
    by_cases htag : udOp q.userData ≠ 1 ∨ cfg.qd ≤ (udSlot q.userData).toNat
    · rw [if_pos htag]
      exact Or.inl ⟨⟨_, List.mem_cons_self, Or.inl htag⟩, ⟨rfl, Errno.neg_lt _⟩, rfl⟩
    rw [if_neg htag]
    by_cases hneg : res < 0
    · rw [if_pos hneg]
      exact Or.inl ⟨⟨_, List.mem_cons_self, Or.inr hneg⟩, ⟨rfl, hneg⟩, rfl⟩
    rw [if_neg hneg]
    rcases reapBatch_cases got cs (i + 1) { s with
        written := s.written + res.toNat
        inflight := s.inflight - 1
        freeSlots := (udSlot q.userData).toNat :: s.freeSlots } with
      ⟨⟨x, hx, hab⟩, hfail, hout⟩ | ⟨hab, free, heq⟩
    · exact Or.inl ⟨⟨x, List.mem_cons_of_mem _ hx, hab⟩, hfail, hout⟩
    · refine Or.inr ⟨?_, free, ?_⟩
      · rintro ⟨x, hx, hx'⟩
        rcases List.mem_cons.mp hx with rfl | hx
        · exact hx'.elim htag hneg
        · exact hab ⟨x, hx, hx'⟩
      · rw [heq]
        simp only [List.map_cons, List.sum_cons, List.length_cons, Nat.add_assoc]
        congr 1
        omega

variable (cfg) in
/-- Handling the `n` oldest completions leaves the loop with an error, or leads
back to its head. -/
theorem reapTake_cases (h : Looping s) (n : ℕ) {w : ℤ} (hw : 0 ≤ w) :
    let batch := s.ring.completed.take n
    let t := reapBatch cfg batch.length 0 batch { s with ret := w }
    (BatchAborts cfg batch ∧ Failed t ∧ t.ring.outstanding = s.ring.outstanding) ∨
    (¬ BatchAborts cfg batch ∧ Looping t ∧ t.phase = .head) := by
  intro batch t
  rcases reapBatch_cases batch.length batch 0 { s with ret := w } with
    hab | ⟨hab, free, heq⟩
  · exact Or.inl hab
  · refine Or.inr ⟨hab, ?_, ?_⟩
    · rw [show t = _ from heq]
      refine ⟨⟨?_, h.accounts.unsynced, hw⟩, h.queued⟩
      have hcard := h.accounts.inflight
      rw [card_pending] at hcard ⊢
      have hlen : batch.length ≤ s.ring.completed.length := List.length_take_le' _ _
      simp only [advance, List.length_drop]
      omega
    · rw [show t = _ from heq]

/-! ## The kernel's step -/

/-- What the kernel's step does. -/
theorem complete_cases {i : ℕ} {res : ℤ} {t : State} (ht : complete i res s = some t) :
    ∃ q ring, s.ring.complete i res = some (q, ring) ∧ res ≤ q.len ∧ t = { s with
      ring := ring
      log := .done q res :: s.log
      files := Function.update s.files q.file
        ((s.files q.file).write q.off (pattern q.buf res.toNat)) } := by
  unfold complete at ht
  cases hc : s.ring.complete i res with
  | none => simp only [hc, reduceCtorEq] at ht
  | some qr =>
    obtain ⟨q, ring⟩ := qr
    simp only [hc] at ht
    split at ht
    · next hle => exact ⟨q, ring, rfl, hle, (Option.some.inj ht).symm⟩
    · exact absurd ht (by simp)

theorem Looping.complete (h : Looping s) {i : ℕ} {res : ℤ} {t : State}
    (ht : complete i res s = some t) : Looping t := by
  obtain ⟨q, ring, hc, _, rfl⟩ := complete_cases ht
  have hpend := pending_complete hc
  obtain ⟨_, rfl⟩ := complete_eq_some.mp hc
  exact ⟨⟨by rw [hpend]; exact h.accounts.inflight, by simpa using h.accounts.unsynced,
    h.accounts.ret⟩, h.queued⟩

/-! ## The end of the loop -/

theorem Looping.idle (h : Looping s) (h0 : s.inflight = 0) : s.ring.Idle := by
  have hcard := h.accounts.inflight
  rw [h0] at hcard
  exact pending_eq_zero.mp (Multiset.card_eq_zero.mp hcard.symm)

/-- Syncing the files in turn fails, or syncs each of them. -/
theorem fsyncAll_cases (err : ℕ → Option Errno) : ∀ (is : List ℕ) (s : State),
    (fsyncAll err is s).ring = s.ring ∧
    (Failed (fsyncAll err is s) ∨
      (fsyncAll err is s).phase = .out ∧ (fsyncAll err is s).ret = s.ret ∧
        ∃ l, (fsyncAll err is s).log = l ++ s.log ∧
          (∀ e ∈ l, ∃ i, e = Ev.fsync i) ∧ ∀ i ∈ is, Ev.fsync i ∈ l)
  | [], s => ⟨rfl, Or.inr ⟨rfl, rfl, [], rfl, by simp, by simp⟩⟩
  | i :: is, s => by
    rw [fsyncAll]
    cases hi : err i with
    | some e => exact ⟨rfl, Or.inl ⟨rfl, Errno.neg_lt e⟩⟩
    | none =>
      obtain ⟨hring, hcase⟩ := fsyncAll_cases err is { s with log := .fsync i :: s.log }
      refine ⟨hring, ?_⟩
      rcases hcase with hfail | ⟨hp, hret, l, hl, hsync, hall⟩
      · exact Or.inl hfail
      · refine Or.inr ⟨hp, hret, l ++ [.fsync i], by simpa using hl, ?_, ?_⟩
        · intro e he
          rcases List.mem_append.mp he with he | he
          · exact hsync e he
          · exact ⟨i, List.mem_singleton.mp he⟩
        · intro j hj
          rcases List.mem_cons.mp hj with rfl | hj
          · exact List.mem_append_right _ List.mem_cons_self
          · exact List.mem_append_left _ (hall j hj)

/-- A trace of syncs only, on top of any trace, syncs its files after their
writes. -/
theorem synced_of_fsyncs {l log : List Ev} (hsync : ∀ e ∈ l, ∃ i, e = Ev.fsync i) {f : ℕ}
    (hf : Ev.fsync f ∈ l) : SyncedAfterWrites f (l ++ log) := by
  obtain ⟨newer, older, rfl⟩ := List.append_of_mem hf
  refine ⟨newer, older ++ log, by simp, ?_⟩
  intro q res hmem
  obtain ⟨i, hi⟩ := hsync _ (List.mem_append_left _ hmem)
  exact absurd hi (by simp)

theorem not_synced {f : ℕ} {log : List Ev} (h : ∀ f, Ev.fsync f ∉ log) :
    ¬ SyncedAfterWrites f log := by
  rintro ⟨newer, older, rfl, _⟩
  exact h f (List.mem_append_right _ List.mem_cons_self)

/-- The code after the loop ends with an error on its way or finished. -/
theorem finish_cases (h : Looping s) (h0 : s.inflight = 0) (err : ℕ → Option Errno) :
    (finish cfg err s).ring = s.ring ∧
    (Failed (finish cfg err s) ∨
      (finish cfg err s).phase = .out ∧ 0 ≤ (finish cfg err s).ret ∧
        Finished cfg (finish cfg err s)) := by
  unfold finish
  by_cases hsync : cfg.doFsyncEnd = true
  · rw [if_pos hsync]
    obtain ⟨hring, hcase⟩ := fsyncAll_cases err (List.range cfg.nfiles) s
    refine ⟨hring, ?_⟩
    rcases hcase with hfail | ⟨hp, hret, l, hl, honly, hall⟩
    · exact Or.inl hfail
    · refine Or.inr ⟨hp, hret ▸ h.accounts.ret, hring ▸ h.idle h0, ?_⟩
      intro f hf
      rw [hl]
      exact ⟨fun _ => hsync, fun _ => synced_of_fsyncs honly (hall f (List.mem_range.mpr hf))⟩
  · rw [if_neg hsync]
    refine ⟨rfl, Or.inr ⟨rfl, h.accounts.ret, h.idle h0, ?_⟩⟩
    intro f _
    exact ⟨fun hs => absurd hs (not_synced h.accounts.unsynced), fun hs => absurd hs hsync⟩

/-! ## Every state reached is good -/

theorem Failed.good (h : Failed s) : Good cfg s := by
  simp only [Good, h.phase]
  exact Or.inl h.ret

theorem step_of_returned {r : ℤ} (h : s.phase = .returned r) (e : Event) :
    step cfg s e = none := by
  cases e <;> simp [step, h]

theorem entry_cases (cfg : Config) :
    (entry cfg = .head ∧ 0 < cfg.nfiles ∧ 0 < cfg.mbPerFile ∧ 0 < cfg.blockSize ∧ 0 < cfg.qd) ∨
      ∃ r < 0, entry cfg = .returned r := by
  unfold entry
  split
  · exact Or.inr ⟨_, Errno.neg_lt _, rfl⟩
  next hpos =>
  split
  · exact Or.inr ⟨_, Errno.neg_lt _, rfl⟩
  cases hopen : (List.range cfg.nfiles).findSome? (openOne cfg) with
  | some r =>
    obtain ⟨i, _, hi⟩ := List.exists_of_findSome?_eq_some hopen
    refine Or.inr ⟨r, ?_, rfl⟩
    unfold openOne at hi
    split at hi
    · rw [← Option.some.inj hi]
      exact Errno.neg_lt _
    · obtain ⟨e, _, rfl⟩ := Option.map_eq_some_iff.mp hi
      exact Errno.neg_lt e
  | none =>
    simp only
    split
    · next hinit => exact Or.inr ⟨_, hinit, rfl⟩
    split
    · exact Or.inr ⟨_, Errno.neg_lt _, rfl⟩
    · exact Or.inl ⟨rfl, by omega, by omega, by omega, by omega⟩

theorem good_start : Good cfg (start cfg) := by
  rcases entry_cases cfg with ⟨h, _⟩ | ⟨r, hr, h⟩ <;> rw [start, h]
  · exact ⟨⟨rfl, by simp [blank], Int.le_refl 0⟩, rfl⟩
  · exact Or.inl hr

/-! ## The steps -/

/-- Everything a step can do. -/
inductive Steps (cfg : Config) (s : State) : Event → State → Prop where
  | complete {i : ℕ} {res : ℤ} {t : State} (hrun : ∀ r, s.phase ≠ .returned r)
      (hc : complete i res s = some t) : Steps cfg s (.complete i res) t
  | fill {submitRet : ℤ} (hphase : s.phase = .head) :
      Steps cfg s (.fill submitRet) (fill cfg submitRet s)
  | waitFails {waitRet : ℤ} (hphase : s.phase = .wait) (hneg : waitRet < 0) :
      Steps cfg s (.wait waitRet) (s.goOut waitRet)
  | waits {waitRet : ℤ} (hphase : s.phase = .wait) (hret : 0 ≤ waitRet) :
      Steps cfg s (.wait waitRet) { s with ret := waitRet, phase := .reap }
  | reap (hphase : s.phase = .reap) : Steps cfg s .reap (reap cfg s)
  | waitOneFails {waitRet : ℤ} (hphase : s.phase = .fallback) (hneg : waitRet < 0) :
      Steps cfg s (.waitOne waitRet) (s.goOut waitRet)
  | waitOneReaps {waitRet : ℤ} (hphase : s.phase = .fallback) (hret : 0 ≤ waitRet)
      (hlen : (s.ring.completed.take 1).length = 1) : Steps cfg s (.waitOne waitRet)
        (reapBatch cfg 1 0 (s.ring.completed.take 1) { s with ret := waitRet })
  | finish {fsyncErr : ℕ → Option Errno} (hphase : s.phase = .tail) :
      Steps cfg s (.finish fsyncErr) (finish cfg fsyncErr s)
  | cleanup (hphase : s.phase = .out) : Steps cfg s .cleanup { s with phase := .returned s.result }

theorem step_cases {e : Event} {t : State} (ht : step cfg s e = some t) : Steps cfg s e t := by
  cases e with
  | complete i res =>
    cases hphase : s.phase with
    | returned r => exact absurd (ht.symm.trans (step_of_returned hphase _)) (by simp)
    | _ => exact .complete (by simp [hphase]) (by simpa [step, hphase] using ht)
  | fill submitRet =>
    obtain ⟨hphase, ht⟩ := Option.ite_none_right_eq_some.mp ht
    rw [← Option.some.inj ht]
    exact .fill hphase
  | wait waitRet =>
    obtain ⟨hphase, ht⟩ := Option.ite_none_right_eq_some.mp ht
    rw [← Option.some.inj ht]
    split
    · next hneg => exact .waitFails hphase hneg
    · next hret => exact .waits hphase (Int.not_lt.mp hret)
  | reap =>
    obtain ⟨hphase, ht⟩ := Option.ite_none_right_eq_some.mp ht
    rw [← Option.some.inj ht]
    exact .reap hphase
  | waitOne waitRet =>
    obtain ⟨hphase, ht⟩ := Option.ite_none_right_eq_some.mp ht
    unfold waitOne at ht
    split at ht
    · next hneg =>
      rw [← Option.some.inj ht]
      exact .waitOneFails hphase hneg
    · next hret =>
      split at ht
      · exact absurd ht (by simp)
      · next c cs hcs =>
        have htake : s.ring.completed.take 1 = [c] := by rw [hcs]; rfl
        rw [← Option.some.inj ht, ← htake]
        exact .waitOneReaps hphase (Int.not_lt.mp hret) (by rw [htake]; rfl)
  | finish fsyncErr =>
    obtain ⟨hphase, ht⟩ := Option.ite_none_right_eq_some.mp ht
    rw [← Option.some.inj ht]
    exact .finish hphase
  | cleanup =>
    obtain ⟨hphase, ht⟩ := Option.ite_none_right_eq_some.mp ht
    rw [← Option.some.inj ht]
    exact .cleanup hphase

theorem Good.looping (h : Good cfg s) (hphase : s.phase = .head ∨ s.phase = .wait ∨
    s.phase = .reap ∨ s.phase = .fallback ∨ s.phase = .tail) : Looping s := by
  rcases hphase with hp | hp | hp | hp | hp <;> simp only [Good, hp] at h
  · exact h
  · exact h
  · exact h
  · exact h
  · exact h.1

theorem Good.of_tail (h : Good cfg s) (hphase : s.phase = .tail) : s.inflight = 0 := by
  simp only [Good, hphase] at h
  exact h.2

theorem Good.of_out (h : Good cfg s) (hphase : s.phase = .out) :
    s.ret < 0 ∨ 0 ≤ s.ret ∧ Finished cfg s := by
  simpa [Good, hphase] using h

/-- The kernel's step, in the loop or on the way out. -/
theorem Good.complete (h : Good cfg s) {i : ℕ} {res : ℤ} {t : State}
    (hrun : ∀ r, s.phase ≠ .returned r) (hc : complete i res s = some t) : Good cfg t := by
  obtain ⟨q, ring, hring, _, heq⟩ := complete_cases hc
  have hp : t.phase = s.phase := by rw [heq]
  have hin : t.inflight = s.inflight := by rw [heq]
  cases hphase : s.phase with
  | returned r => exact absurd hphase (hrun r)
  | out =>
    rcases h.of_out hphase with hneg | ⟨_, hfin⟩
    · rw [heq]
      simp only [Good, hphase]
      exact Or.inl hneg
    · exact absurd hfin.idle.2.1 (List.ne_nil_of_mem (mem_outstanding_of_complete hring))
  | tail =>
    simp only [Good, hp, hphase, hin]
    exact ⟨(h.looping (by simp [hphase])).complete hc, h.of_tail hphase⟩
  | head | wait | reap | fallback =>
    have hloop : Looping s := h.looping (by simp [hphase])
    simp only [Good, hp, hphase]
    exact hloop.complete hc

/-- **What a step leads to.**  A step that aborts leaves for `out:` and leaves alone
what is outstanding; no other step gets to `out:` with a request outstanding; and
every step keeps the invariant. -/
theorem step_leaves (h : Good cfg s) {e : Event} {t : State} (ht : step cfg s e = some t)
    (hs : s.phase ≠ .out) :
    (Aborts cfg s e ∧ Failed t ∧ t.ring.outstanding = s.ring.outstanding) ∨
      (¬ Aborts cfg s e ∧ Good cfg t ∧ (t.phase = .out → t.ring.outstanding = [])) := by
  cases step_cases ht with
  | complete hrun hc =>
    refine Or.inr ⟨id, h.complete hrun hc, fun hout => absurd ?_ hs⟩
    obtain ⟨q, ring, _, _, rfl⟩ := complete_cases hc
    exact hout
  | @fill r hphase =>
    rcases fill_cases (h.looping (Or.inl hphase)) r with hab | ⟨hab, hgood, hout⟩
    · exact Or.inl hab
    · exact Or.inr ⟨hab, hgood, fun ho => absurd ho hout⟩
  | waitFails _ hneg => exact Or.inl ⟨hneg, ⟨rfl, hneg⟩, rfl⟩
  | waits hphase hret =>
    have hloop := h.looping (Or.inr (Or.inl hphase))
    exact Or.inr ⟨Int.not_lt.mpr hret, ⟨{ hloop.accounts with ret := hret }, hloop.queued⟩,
      fun ho => absurd ho (by simp)⟩
  | reap hphase =>
    have hloop := h.looping (Or.inr (Or.inr (Or.inl hphase)))
    unfold WriteManyfiles.reap
    simp only [Aborts]
    by_cases hnil : s.ring.completed.take batchSize = []
    · rw [if_pos hnil, hnil]
      exact Or.inr ⟨by simp [BatchAborts], ⟨{ hloop.accounts with }, hloop.queued⟩,
        fun ho => absurd ho (by simp)⟩
    · rw [if_neg hnil]
      rcases reapTake_cases cfg hloop batchSize hloop.accounts.ret with
        hab | ⟨hab, hloop', hp⟩
      · exact Or.inl hab
      · refine Or.inr ⟨hab, ?_, fun ho => absurd (hp.symm.trans ho) (by simp)⟩
        simp only [Good]
        rw [hp]
        exact hloop'
  | waitOneFails _ hneg => exact Or.inl ⟨Or.inl hneg, ⟨rfl, hneg⟩, rfl⟩
  | waitOneReaps hphase hret hlen =>
    have hloop := h.looping (Or.inr (Or.inr (Or.inr (Or.inl hphase))))
    have hcase := reapTake_cases cfg hloop 1 hret
    simp only [hlen] at hcase
    rcases hcase with ⟨hab, hfail⟩ | ⟨hab, hloop', hp⟩
    · exact Or.inl ⟨Or.inr hab, hfail⟩
    · refine Or.inr ⟨fun hor => hor.elim (Int.not_lt.mpr hret) hab, ?_,
        fun ho => absurd (hp.symm.trans ho) (by simp)⟩
      simp only [Good, hp]
      exact hloop'
  | @finish err hphase =>
    have hloop := h.looping (Or.inr (Or.inr (Or.inr (Or.inr hphase))))
    have hzero := h.of_tail hphase
    obtain ⟨hring, hcase⟩ := finish_cases hloop hzero err
    refine Or.inr ⟨id, ?_, fun _ => by rw [hring]; exact (hloop.idle hzero).2.1⟩
    rcases hcase with hfail | ⟨hp, hret, hfin⟩
    · exact hfail.good
    · simp only [Good, hp]
      exact Or.inr ⟨hret, hfin⟩
  | cleanup hphase => exact absurd hphase hs

theorem good_step (h : Good cfg s) {e : Event} {t : State} (ht : step cfg s e = some t) :
    Good cfg t := by
  by_cases hs : s.phase = .out
  · cases step_cases ht with
    | complete hrun hc => exact h.complete hrun hc
    | cleanup =>
      rcases h.of_out hs with hneg | ⟨hret, hfin⟩
      · rw [State.result, if_pos hneg]
        exact Or.inl hneg
      · rw [State.result, if_neg (Int.not_lt.mpr hret)]
        exact Or.inr ⟨rfl, { hfin with }⟩
    | _ => simp_all
  · rcases step_leaves h ht hs with ⟨_, hfail, _⟩ | ⟨_, hgood, _⟩
    · exact hfail.good
    · exact hgood

open Trace

/-- **The invariant of the many-files loop**, in every run and whatever the kernel
answers. -/
theorem good_reach {P : State → Event → Prop} (h : Reach (step cfg) P (start cfg) s) :
    Good cfg s :=
  h.invariant good_start fun _ _ _ hgood _ ht => good_step hgood ht

end WriteManyfiles
end Native
end Pyuring
