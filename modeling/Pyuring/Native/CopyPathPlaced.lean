import Pyuring.Native.CopyPathInvariant

/-!
# No byte in the wrong place

The invariant of the copy loop is gone when an error is on its way: requests are abandoned
where they are, and the kernel goes on with them.  What they write is still right until the slot
buffers are freed, which is the last step of a run.  `Placed` is what is left of the invariant, and
holds at every point of every run: the pending requests sit in different slots, a write that is
still to come has the source's bytes in its slot, and the destination has no byte that the source
has not at the same place (`within_of_reach`).

A slot is read into only by a request of its own, so that no read that comes late can reach the
bytes of a write.
-/

namespace Pyuring
namespace Native
namespace CopyPath

open CompletionRing Trace

variable (cfg : Config)

/-- The blocks are within the bounds of the slot buffers. -/
def Config.Bounded : Prop := cfg.bufferSizeCb = none ∨ cfg.blockSize ≤ bufferLimit

/-- Where the bytes are, errors or not. -/
structure Placed (s : State) : Prop where
  bufs_nodup : (s.ring.pending.map Sqe.buf).Nodup
  len_le : ∀ q ∈ s.ring.pending, q.len ≤ cfg.maxBufferSize
  write_buf : ∀ q, q ∈ s.ring.queued ∨ q ∈ s.ring.outstanding → q.opcode = .write →
    q.off + q.len ≤ cfg.fileSize ∧ (s.bufs q.buf).take q.len = cfg.slice q.off q.len
  within : s.dst.Within cfg.src
  overrun : s.overrun = false

variable {cfg} {s t : State}

/-- The ring, the slot buffers and the destination are as they were. -/
def SameBytes (s t : State) : Prop :=
  t.ring = s.ring ∧ t.bufs = s.bufs ∧ t.dst = s.dst ∧ t.overrun = s.overrun

theorem SameBytes.refl (s : State) : SameBytes s s := ⟨rfl, rfl, rfl, rfl⟩

theorem SameBytes.trans {u : State} (h : SameBytes s t) (h' : SameBytes t u) : SameBytes s u :=
  ⟨h'.1.trans h.1, h'.2.1.trans h.2.1, h'.2.2.1.trans h.2.2.1, h'.2.2.2.trans h.2.2.2⟩

theorem Placed.congr (h : Placed cfg s) (hsame : SameBytes s t) : Placed cfg t := by
  obtain ⟨hring, hbufs, hdst, hover⟩ := hsame
  constructor
  · rw [hring]
    exact h.bufs_nodup
  · rw [hring]
    exact h.len_le
  · rw [hring, hbufs]
    exact h.write_buf
  · rw [hdst]
    exact h.within
  · rw [hover]
    exact h.overrun

/-- A request is no longer than the chunk it belongs to. -/
theorem Moves.exists_span (h : Moves cfg s) {q : Sqe} (hq : q ∈ s.ring.pending) :
    ∃ c ∈ spans s.log, c.off = q.off ∧ q.len ≤ c.len := by
  rcases mem_pending.mp hq with hq | hq | ⟨res, hq⟩
  · obtain ⟨c, hc, hoff, hlen, _⟩ := h.openSpan q (Or.inl hq)
    exact ⟨c, hc, hoff, hlen⟩
  · obtain ⟨c, hc, hoff, hlen, _⟩ := h.openSpan q (Or.inr hq)
    exact ⟨c, hc, hoff, hlen⟩
  · obtain ⟨c, hc, hoff, hlen, _⟩ := h.doneSpan _ hq
    exact ⟨c, hc, hoff, hlen⟩

theorem Moves.within (h : Moves cfg s) (ha : Accounts cfg s) : s.dst.Within cfg.src := by
  refine ⟨?_, fun p b hp => ?_⟩
  · rcases h.size_attained with h0 | ⟨c, hc, -, hsize⟩
    · rw [h0]
      exact Nat.zero_le _
    · have hmoved := h.moved_le c hc
      have hend := (ha.tiles.bounds hc).2.1
      have hle := ha.nextOff_le
      unfold Config.fileSize at hle
      omega
  · rw [h.byte] at hp
    split at hp
    · exact hp
    · exact absurd hp (by simp)

/-- As long as the program works, its invariant says where the bytes are. -/
theorem Accounts.placed (ha : Accounts cfg s) (hm : Moves cfg s) (hfit : cfg.Bounded)
    (hover : s.overrun = false) : Placed cfg s where
  bufs_nodup := ha.slots_nodup
  len_le q hq := by
    obtain ⟨c, hc, -, hlen⟩ := hm.exists_span hq
    obtain ⟨k, hk, hchunk⟩ := ha.exists_chunk hc
    exact hlen.trans (hchunk ▸ (Sizing.want_le_maxBufferSize_iff hk _).mpr (hfit.imp_right Or.inl))
  write_buf := hm.write_buf
  within := hm.within ha
  overrun := hover

/-! ## The steps -/

theorem Placed.submit (h : Placed cfg s) (r : ℤ) : Placed cfg (s.submit r) := by
  rcases Int.lt_or_le r 0 with hr | hr
  · rw [submit_of_neg hr]
    exact h.congr (SameBytes.refl _)
  · rw [submit_of_nonneg hr]
    constructor
    · rw [pending_submit]
      exact h.bufs_nodup
    · rw [pending_submit]
      exact h.len_le
    · intro q hq
      refine h.write_buf q ?_
      simpa [or_comm] using hq
    · exact h.within
    · exact h.overrun

theorem Placed.andSubmit (h : Placed cfg s) (r : ℤ) : Placed cfg (s.andSubmit r) := by
  unfold State.andSubmit
  split
  · exact h
  · exact h.submit r

/-- The kernel's step. -/
theorem Placed.complete (h : Placed cfg s) {i : ℕ} {res : ℤ}
    (ht : complete cfg i res s = some t) : Placed cfg t := by
  obtain ⟨q, ring, hc, hle, hcase⟩ := complete_cases ht
  have hpend := pending_complete hc
  have hnodup := h.bufs_nodup
  rw [pending_eq_cons_of_complete hc] at hnodup
  have hq : q ∈ s.ring.pending := mem_pending.mpr (Or.inr (Or.inl (mem_outstanding_of_complete hc)))
  have hout := mem_outstanding_of_complete hc
  obtain ⟨-, rfl⟩ := complete_eq_some.mp hc
  have hsub : ∀ q', q' ∈ s.ring.queued ∨ q' ∈ s.ring.outstanding.eraseIdx i →
      q' ∈ s.ring.queued ∨ q' ∈ s.ring.outstanding := fun q' hq' =>
    hq'.imp_right List.mem_of_mem_eraseIdx
  rcases hcase with ⟨hop, hfit, rfl⟩ | ⟨hop, rfl⟩
  · refine ⟨by rw [hpend]; exact h.bufs_nodup, by rw [hpend]; exact h.len_le, ?_, h.within, ?_⟩
    · intro q' hq' hop'
      -- the slot of a write is not the one that is read into
      have hbuf : q'.buf ≠ q.buf := by
        refine key_ne_of_nodup hnodup ?_
        simpa [or_assoc] using hq'.imp_right Or.inl
      simp only [Function.update_of_ne hbuf]
      exact h.write_buf q' (hsub q' hq') hop'
    · have hlen := h.len_le q hq
      have hkept : ¬ cfg.maxBufferSize < res.toNat := by omega
      simp [h.overrun, hkept]
  · obtain ⟨hroom, hbuf⟩ := h.write_buf q (Or.inr hout) hop
    have hbytes : (s.bufs q.buf).take res.toNat = cfg.slice q.off res.toNat := by
      have htake : (s.bufs q.buf).take res.toNat = ((s.bufs q.buf).take q.len).take res.toNat := by
        rw [List.take_take, Nat.min_eq_left (by omega)]
      rw [htake, hbuf, Config.slice, List.take_take, Nat.min_eq_left (by omega), Config.slice]
    have hlen : (cfg.slice q.off res.toNat).length = res.toNat := by
      rw [length_slice]
      omega
    refine ⟨by rw [hpend]; exact h.bufs_nodup, by rw [hpend]; exact h.len_le,
      fun q' hq' => h.write_buf q' (hsub q' hq'), ?_, h.overrun⟩
    simp only [hbytes]
    refine h.within.write ?_ ?_
    · rw [hlen]
      unfold Config.fileSize at hroom
      omega
    · rw [hlen, Config.slice]

variable (cfg) in
/-- A read that found no room in the queue. -/
theorem sameBytes_enqueueRead {i : ℕ} (hfull : cfg.sqEntries ≤ s.ring.queued.length) :
    SameBytes s (enqueueRead cfg i s) := by
  have hpush := push_eq_none (q := readSqe i (cfg.sizing.want s.nextOff s.calls) s.nextOff)
    |>.mpr hfull
  simp only [enqueueRead, hpush]
  exact SameBytes.refl _

/-- The read of the next chunk, whether there is room for it or not. -/
theorem placed_enqueueRead {i : ℕ} (ha : Accounts cfg s) (hm : Moves cfg s)
    (hblock : 0 < cfg.blockSize) (hlt : s.nextOff < cfg.fileSize) (hi : i < cfg.qd)
    (hact : (s.slots i).active = true) (hfree : ∀ q ∈ s.ring.pending, q.buf ≠ i)
    (hfit : cfg.Bounded) (hover : s.overrun = false) : Placed cfg (enqueueRead cfg i s) := by
  rcases Nat.lt_or_ge s.ring.queued.length cfg.sqEntries with hroom | hfull
  · refine (ha.enqueueRead hroom hblock hlt hi hact hfree).placed (hm.enqueueRead hroom ha) hfit ?_
    rcases enqueueRead_cases cfg i s with ⟨hfull, -⟩ | ⟨-, heq⟩
    · omega
    · rw [heq]
      exact hover
  · exact (ha.placed hm hfit hover).congr (sameBytes_enqueueRead cfg hfull)

/-- The priming loop, also when it leaves in the middle. -/
theorem Priming.placed_primeLoop (hblock : 0 < cfg.blockSize) (hfit : cfg.Bounded) :
    ∀ {is : List ℕ} {s : State}, Priming cfg s → is.Nodup →
      (∀ i ∈ is, i < cfg.qd ∧ ∀ q ∈ s.ring.pending, q.buf ≠ i) →
        Placed cfg (CopyPath.primeLoop cfg is s)
  | [], s, h, _, _ => h.accounts.placed h.moves hfit h.overrun
  | i :: is, s, h, hnodup, hfree => by
    obtain ⟨hi, his⟩ := List.nodup_cons.mp hnodup
    obtain ⟨hiqd, hifree⟩ := hfree i List.mem_cons_self
    rw [CopyPath.primeLoop]
    split
    swap
    · exact h.accounts.placed h.moves hfit h.overrun
    next hmore =>
    have hnext := placed_enqueueRead (h.accounts.setActive (b := true) hifree)
      (h.moves.setActive i true) hblock hmore.1 hiqd (by simp [State.setActive]) hifree hfit
      h.overrun
    rcases h.enqueueRead hblock hiqd hifree hmore.1 with ⟨hfail, -⟩ | ⟨hprime, hmem, -, -⟩
    · -- the loop stops at once: the phase is no longer `priming`
      cases is with
      | nil => exact hnext
      | cons j js =>
        rw [CopyPath.primeLoop, if_neg fun hand => by simp [hfail.phase] at hand]
        exact hnext
    · refine hprime.placed_primeLoop hblock hfit his fun j hj => ?_
      obtain ⟨hjqd, hjfree⟩ := hfree j (List.mem_cons_of_mem i hj)
      refine ⟨hjqd, fun q hq => ?_⟩
      rcases hmem q hq with hq | hq
      · exact hjfree q hq
      · rw [hq]
        rintro rfl
        exact hi hj

section Handle

variable {q : Sqe} {res r : ℤ} (ha : Accounts cfg s) (hq : Reaped cfg s q res)
  (hfit : cfg.Bounded) (hover : s.overrun = false)

include ha hq hfit hover

theorem placed_onRead (hm : Moves cfg s) (hop : q.opcode = .read) (hres : 0 ≤ res) :
    Placed cfg (onRead cfg q.buf res r s) := by
  have hplaced := ha.placed hm hfit hover
  rcases onRead_cases cfg q.buf res r s with ⟨-, heq⟩ | ⟨-, heq⟩ | ⟨hne, heq⟩ <;> rw [heq]
  · exact hplaced.congr (SameBytes.refl _)
  · exact hplaced.congr (SameBytes.refl _)
  · have hpos : 0 < res := by omega
    exact ((ha.pushWrite hq).placed (hm.pushWrite hq hop hpos) hfit hover).submit r

theorem placed_onWrite (hm : Moves cfg { s with copied := s.copied + res.toNat })
    (hblock : 0 < cfg.blockSize) : Placed cfg (onWrite cfg q.buf res r s) := by
  -- the state after counting and reporting the write
  obtain ⟨cancel, n, log, -, -, -, hrep⟩ := report_cases cfg { s with
    copied := s.copied + res.toNat }
  have ha₀ : Accounts cfg { s with copied := s.copied + res.toNat } := { ha with }
  have ha' := ha₀.report
  have hm' := hm.report
  rw [hrep] at ha' hm'
  have hplaced := ha'.placed hm' hfit hover
  simp only [onWrite, hrep]
  split
  · exact hplaced.congr (SameBytes.refl _)
  split
  · next hmore =>
    exact (placed_enqueueRead ha' hm' hblock hmore hq.slot_lt hq.active hq.free hfit
      hover).andSubmit r
  · exact hplaced.congr (SameBytes.refl _)

theorem placed_onCqe (hm : Moves cfg { s with copied := s.copied + movedBy (q, res) })
    (hblock : 0 < cfg.blockSize) : Placed cfg (onCqe cfg q.userData res r s) := by
  have hplaced : Placed cfg s :=
    (Accounts.placed (s := { s with copied := s.copied + movedBy (q, res) }) { ha with } hm hfit
      hover).congr (SameBytes.refl _)
  simp only [onCqe, hq.slot_eq]
  split
  · exact hplaced.congr (SameBytes.refl _)
  split
  · exact hplaced.congr (SameBytes.refl _)
  next hres =>
  have hpos : 0 ≤ res := Int.not_lt.mp hres
  cases hop : q.opcode with
  | read =>
    rw [if_pos (hq.op_eq.mpr hop)]
    have hmoved : movedBy (q, res) = 0 := by rw [movedBy, hop]
    rw [hmoved] at hm
    exact placed_onRead ha hq hfit hover hm hop hpos
  | write =>
    have hmoved : movedBy (q, res) = res.toNat := by rw [movedBy, hop]
    rw [hmoved] at hm
    rw [if_neg fun hzero => by simp [hq.op_eq.mp hzero] at hop]
    exact placed_onWrite ha hq hfit hover hm hblock

end Handle

theorem placed_iterate (h : Looping cfg s) (hblock : 0 < cfg.blockSize) (hfit : cfg.Bounded)
    (hover : s.overrun = false) {w r : ℤ} (ht : iterate cfg w r s = some t) : Placed cfg t := by
  unfold iterate at ht
  split at ht
  · rw [← Option.some.inj ht]
    exact (h.accounts.placed h.moves hfit hover).congr (SameBytes.refl _)
  obtain ⟨⟨⟨q, res⟩, ring⟩, hreap, rfl⟩ := Option.map_eq_some_iff.mp ht
  exact placed_onCqe (h.accounts.reap (w := w) hreap) (reaped (w := w) hreap h.accounts h.moves)
    hfit hover (h.moves.reap (w := w) hreap) hblock

theorem placed_finish (h : Looping cfg s) (hfit : cfg.Bounded) (hover : s.overrun = false)
    (ok : Bool) (e : Option Errno) : Placed cfg (finish cfg ok e s) := by
  have hplaced := h.accounts.placed h.moves hfit hover
  have hcopied : s.copied ≤ cfg.src.length := by
    have htotal := h.accounts.tiles.total_le h.moves.moved_le
    have hcount := h.moves.copied
    have hle := h.accounts.nextOff_le
    unfold Config.fileSize at hle
    omega
  have hcut : Placed cfg (if ok then { s with dst := s.dst.truncate s.copied } else s) := by
    split
    · exact { hplaced with within := hplaced.within.truncate hcopied }
    · exact hplaced
  unfold finish
  simp only
  split
  · split
    · exact hcut.congr (SameBytes.refl _)
    · exact hcut.congr (SameBytes.refl _)
  · exact hcut.congr (SameBytes.refl _)

theorem placed_step (hblock : 0 < cfg.blockSize) (hfit : cfg.Bounded) {e : Event}
    (h : Good cfg s ∧ Placed cfg s) (ht : step cfg s e = some t) : Good cfg t ∧ Placed cfg t := by
  refine ⟨good_step hblock h.1 ht, ?_⟩
  cases step_cases ht with
  | complete hrun hc => exact h.2.complete hc
  | prime hphase =>
    rw [h.1.of_priming hphase]
    exact ((priming_blank cfg).placed_primeLoop hblock hfit List.nodup_range fun i hi =>
      ⟨List.mem_range.mp hi, by simp [blank]⟩).andSubmit _
  | iterate hphase _ hit =>
    exact placed_iterate (h.1.of_loop hphase) hblock hfit h.2.overrun hit
  | finish hphase hend => exact placed_finish (h.1.of_loop hphase) hfit h.2.overrun _ _
  | cleanup hphase => exact h.2.congr (SameBytes.refl _)

theorem placed_blank (cfg : Config) (phase : Phase) : Placed cfg (blank cfg phase) where
  bufs_nodup := by simp [blank]
  len_le := by simp [blank]
  write_buf := by simp [blank]
  within := SparseFile.within_empty _
  overrun := rfl

/-- **No byte in the wrong place**: at every point of every run up to the end of the slot buffers,
whatever fails in it and whenever it is cancelled, the destination is no longer than the source and
has no byte that the source has not at the same place, and the slot buffers are intact. -/
theorem within_of_reach (hfit : cfg.Bounded) {P : State → Event → Prop}
    (h : Reach (step cfg) P (start cfg) s) : s.dst.Within cfg.src ∧ s.overrun = false := by
  rcases Nat.eq_zero_or_pos cfg.blockSize with h0 | hblock
  · have hentry : entry cfg = .returned EINVAL.neg := by rw [entry, if_pos (Or.inr h0)]
    rw [h.eq_of_stuck (step_of_returned (r := EINVAL.neg) (by rw [start, hentry]; rfl))]
    exact ⟨SparseFile.within_empty _, rfl⟩
  · obtain ⟨-, hplaced⟩ := h.invariant (I := fun s => Good cfg s ∧ Placed cfg s)
      ⟨good_start, placed_blank cfg _⟩ fun t e u ht _ hu => placed_step hblock hfit ht hu
    exact ⟨hplaced.within, hplaced.overrun⟩

end CopyPath
end Native
end Pyuring
