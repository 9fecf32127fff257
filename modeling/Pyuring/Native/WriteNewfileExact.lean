import Pyuring.Native.WriteNewfileRun
import Pyuring.Native.WriteLedger

/-!
# New files are exact

Undisturbed writes of one new file, each completed in full.  The chunk sequence tiles the
file, each chunk is prepared once and from the slot that its offset names, and each request
prepared is done once: so the file does not depend on the order of the completions, on the
batches in which they are reaped, nor on which writes share a slot.
-/

namespace Pyuring
namespace Native
namespace WriteNewfile

open CompletionRing Trace

variable (cfg : Config)

/-- The books of the function: its file is what the writes done have made of it, every write
is prepared from the slot of its offset and fits the slot's buffer, and `written` counts
what is done and reaped. -/
structure Booked (s : State) : Prop where
  ledger : Ledger s.log s.ring
  dst : s.dst = SparseFile.ofWrites (blocks pattern dfd s.log)
  prepped : ∀ q ∈ prepped s.log, q.file = dfd ∧ q.buf = q.off / cfg.blockSize % cfg.qd ∧
    q.len ≤ cfg.maxBufferSize
  counted : s.written + (s.ring.completed.map fun x => x.2.toNat).sum =
    ((dones s.log).map fun x => x.2.toNat).sum
  overrun : s.overrun = false

variable {cfg} {s t : State}

theorem length_pattern (slot n : ℕ) : (pattern slot n).length = n := by
  simp [pattern]

theorem getElem?_pattern {slot n k : ℕ} (hk : k < n) :
    (pattern slot n)[k]? = some (UInt8.ofNat (65 + (slot + k) % 26)) := by
  simp [pattern, hk]

theorem booked_blank (phase : Phase) : Booked cfg (blank cfg phase) :=
  ⟨ledger_nil, rfl, by simp [Native.prepped, blank], rfl, rfl⟩

/-- A step that prepares nothing and completes nothing. -/
theorem Booked.congr (h : Booked cfg s) (hprep : Native.prepped t.log = Native.prepped s.log)
    (hdone : dones t.log = dones s.log) (hledger : Ledger t.log t.ring) (hdst : t.dst = s.dst)
    (hcounted : t.written + (t.ring.completed.map fun x => x.2.toNat).sum =
      s.written + (s.ring.completed.map fun x => x.2.toNat).sum)
    (hoverrun : t.overrun = s.overrun) : Booked cfg t where
  ledger := hledger
  dst := by rw [hdst, h.dst, blocks, blocks, hdone]
  prepped := by rw [hprep]; exact h.prepped
  counted := by rw [hcounted, hdone, h.counted]
  overrun := hoverrun.trans h.overrun

/-! ## The steps -/

theorem Booked.enqueueOne (h : Booked cfg s)
    (hblock : cfg.bufferSizeCb = none ∨ cfg.blockSize ≤ bufferLimit)
    (hlt : s.nextOff < cfg.totalBytes) : Booked cfg (enqueueOne cfg s).2 := by
  have hfits : cfg.sizing.want s.nextOff s.calls ≤ cfg.maxBufferSize :=
    (Sizing.want_le_maxBufferSize_iff hlt _).mpr (hblock.imp_right Or.inl)
  unfold WriteNewfile.enqueueOne
  simp only
  cases hpush : s.ring.push cfg.sqEntries (writeSqe cfg (s.slot cfg)
      (cfg.sizing.want s.nextOff s.calls) s.nextOff) with
  | none => exact h.congr rfl rfl h.ledger rfl rfl rfl
  | some ring =>
    have hledger := h.ledger.push hpush
    obtain ⟨-, rfl⟩ := push_eq_some.mp hpush
    refine ⟨hledger, h.dst, ?_, h.counted, h.overrun⟩
    intro q hq
    rcases List.mem_append.mp hq with hq | hq
    · exact h.prepped q hq
    · obtain rfl := List.mem_singleton.mp hq
      exact ⟨rfl, rfl, hfits⟩

theorem Booked.enqueue (hblock : cfg.bufferSizeCb = none ∨ cfg.blockSize ≤ bufferLimit) :
    ∀ (n : ℕ) {s : State}, Booked cfg s → Booked cfg (enqueue cfg n s)
  | 0, _, h => h
  | n + 1, s, h => by
    rw [WriteNewfile.enqueue]
    split
    · next hcond =>
      have hone := h.enqueueOne hblock hcond.1
      cases hstep : WriteNewfile.enqueueOne cfg s with
      | mk ok t =>
        rw [hstep] at hone
        cases ok with
        | true => exact Booked.enqueue hblock n hone
        | false => exact hone
    · exact h

theorem Booked.fill (h : Booked cfg s)
    (hblock : cfg.bufferSizeCb = none ∨ cfg.blockSize ≤ bufferLimit) {r : ℤ} (hr : 0 ≤ r) :
    Booked cfg (fill cfg r s) := by
  have hqueued := h.enqueue hblock cfg.qd
  unfold WriteNewfile.fill
  simp only
  split
  · exact hqueued.congr rfl rfl hqueued.ledger rfl rfl rfl
  · rw [if_neg (Int.not_lt.mpr hr)]
    exact hqueued.congr rfl rfl hqueued.ledger.submit rfl rfl rfl

theorem Booked.complete (h : Booked cfg s) {i : ℕ} {res : ℤ} (ht : complete cfg i res s = some t)
    (hres : ∀ q, s.ring.outstanding[i]? = some q → res = q.len) : Booked cfg t := by
  obtain ⟨q, ring, hring, hle, rfl⟩ := complete_cases ht
  have hfull := hres q (complete_eq_some.mp hring).1
  have hledger := h.ledger.complete hring hfull
  have hmem : q ∈ Native.prepped s.log := by
    rw [← Multiset.mem_coe, h.ledger.perm]
    exact Multiset.mem_add.mpr (Or.inr (mem_outstanding_of_complete hring))
  obtain ⟨hfile, hslot, hfits⟩ := h.prepped q hmem
  obtain ⟨-, rfl⟩ := complete_eq_some.mp hring
  refine ⟨hledger, ?_, h.prepped, counted_done h.counted q res, ?_⟩
  · simp only [blocks, dones, List.filter_cons, hfile, decide_true, if_true, List.map_cons,
      SparseFile.ofWrites, h.dst]
  · simp only [h.overrun, Bool.false_or, decide_eq_false_iff_not]
    omega

theorem Booked.reap (h : Booked cfg s) (hab : ¬ Aborts cfg s .reap) : Booked cfg (reap cfg s) := by
  unfold WriteNewfile.reap
  simp only
  split
  · exact h.congr rfl rfl h.ledger rfl rfl rfl
  next hidle =>
  rcases reapBatch_cases cfg (s.ring.completed.take batchSize).length
    (s.ring.completed.take batchSize) 0 s with ⟨habort, -⟩ | ⟨-, n, log, hlog, heq⟩
  · exact absurd ⟨(not_or.mp hidle).1, habort⟩ hab
  · rw [heq, advance_length_take]
    have hledger : Ledger log (s.ring.advance batchSize) :=
      h.ledger.congr hlog.prepped_eq hlog.dones_eq rfl rfl
    exact h.congr hlog.prepped_eq hlog.dones_eq hledger rfl (counted_reap batchSize _ _) rfl

theorem Booked.finish (h : Booked cfg s) (e : Option Errno) : Booked cfg (finish cfg e s) := by
  unfold WriteNewfile.finish
  split
  · split
    · exact h.congr rfl rfl h.ledger rfl rfl rfl
    · exact h.congr rfl rfl (h.ledger.congr rfl rfl rfl rfl) rfl rfl rfl
  · exact h.congr rfl rfl h.ledger rfl rfl rfl

/-- A step of undisturbed writes keeps the books. -/
theorem Booked.step (h : Booked cfg s) (hcfg : Undisturbed cfg)
    (hblock : cfg.bufferSizeCb = none ∨ cfg.blockSize ≤ bufferLimit)
    (hrun : Running cfg Sqe.len s) {e : Event} (hans : Answers Sqe.len s e)
    (ht : step cfg s e = some t) : Booked cfg t := by
  cases step_cases ht with
  | complete _ hc => exact h.complete hc hans
  | fill => exact h.fill hblock hans
  | waitFails _ hneg => exact absurd hneg (Int.not_lt.mpr hans.1)
  | waits => exact h.congr rfl rfl h.ledger rfl rfl rfl
  | reap hphase => exact h.reap (hrun.not_aborts_reap hcfg hphase)
  | finish => exact h.finish _
  | cleanup => exact h.congr rfl rfl h.ledger rfl rfl rfl

theorem booked_reach (hcfg : Undisturbed cfg)
    (hblock : cfg.bufferSizeCb = none ∨ cfg.blockSize ≤ bufferLimit)
    (h : Reach (step cfg) (Answers Sqe.len) (start cfg) s) : Booked cfg s := by
  have hinv := h.invariant (I := fun s => Running cfg Sqe.len s ∧ Booked cfg s)
    ⟨running_start hcfg, booked_blank _⟩ fun _ _ _ hu hans hv =>
      ⟨(hu.1.step hcfg hans hv).1, hu.2.step hcfg hblock hu.1 hans hv⟩
  exact hinv.2

/-! ## What is left at the end -/

/-- The chunks tile the file as far as they go. -/
theorem tiles_chunks {z : Sizing} (hblock : 0 < z.blockSize) : ∀ {k : ℕ},
    (∀ i < k, z.offset i < z.total) →
    Tiles 0 ((z.chunks k).map fun x => ⟨x.1, x.2, x.2⟩) (z.offset k)
  | 0, _ => rfl
  | k + 1, h => by
    have hlt := h k (Nat.lt_succ_self k)
    have ih := tiles_chunks hblock fun i hi => h i (Nat.lt_succ_of_lt hi)
    rw [Sizing.chunks_succ (k := k) rfl, List.map_append, Sizing.offset_succ]
    exact ih.snoc (Sizing.want_pos hblock hlt _)

/-- All chunks of the file are prepared when the program returns. -/
theorem Running.exists_chunked {pick : Sqe → ℕ} (h : Running cfg pick s) {r : ℤ}
    (hret : s.phase = .returned r) :
    ∃ k, Chunked cfg s k ∧ cfg.sizing.offset k = cfg.totalBytes := by
  obtain ⟨k, hk⟩ := h.chunked
  have hoff : cfg.sizing.offset k = s.nextOff := congrArg Prod.fst hk.chunk
  have hle : cfg.sizing.offset k ≤ cfg.totalBytes := Sizing.offset_le_total k
  have hge := (h.returned r hret).2.nextOff
  exact ⟨k, hk, by omega⟩

theorem exists_chunked (hcfg : Undisturbed cfg)
    (h : Reach (step cfg) (Answers Sqe.len) (start cfg) s) {r : ℤ}
    (hret : s.phase = .returned r) :
    ∃ k, Chunked cfg s k ∧ cfg.sizing.offset k = cfg.totalBytes :=
  (running_reach hcfg h).exists_chunked hret

/-- The writes prepared ask for the bytes up to where their chunks end. -/
theorem Chunked.sum_len {k : ℕ} (h : Chunked cfg s k) (hblock : 0 < cfg.blockSize) :
    ((Native.prepped s.log).map Sqe.len).sum = cfg.sizing.offset k := by
  have hsum := (tiles_chunks (z := cfg.sizing) hblock h.offset_lt).sum_len
  rw [← h.prepped, List.map_map, List.map_map] at hsum
  have hmap : (Native.prepped s.log).map ((Span.len ∘ fun x => (⟨x.1, x.2, x.2⟩ : Span)) ∘
      fun q => (q.off, q.len)) = (Native.prepped s.log).map Sqe.len := rfl
  rw [hmap] at hsum
  omega

theorem Booked.tiles (h : Booked cfg s) (hcfg : Undisturbed cfg) {k : ℕ} (hk : Chunked cfg s k)
    (hend : cfg.sizing.offset k = cfg.totalBytes) :
    Tiles 0 (fileSpans dfd s.log) cfg.totalBytes := by
  have htiles := tiles_chunks (z := cfg.sizing) hcfg.blockSize_pos hk.offset_lt
  rw [← hk.prepped, List.map_map, hend] at htiles
  have hfiles : (Native.prepped s.log).filter (fun q => q.file = dfd) = Native.prepped s.log :=
    List.filter_eq_self.mpr fun q hq => by simpa using (h.prepped q hq).1
  rw [fileSpans, hfiles]
  exact htiles

/-- The bytes that were counted are those of the file. -/
theorem Booked.written_eq (h : Booked cfg s) (hidle : s.ring.Idle)
    (htiles : Tiles 0 (fileSpans dfd s.log) cfg.totalBytes) : s.written = cfg.totalBytes := by
  have hcounted := h.counted
  rw [hidle.2.2, List.map_nil, List.sum_nil, Nat.add_zero] at hcounted
  have hfiles : (Native.prepped s.log).filter (fun q => q.file = dfd) = Native.prepped s.log :=
    List.filter_eq_self.mpr fun q hq => by simpa using (h.prepped q hq).1
  have hsum := htiles.sum_len
  rw [fileSpans, hfiles, List.map_map] at hsum
  rw [hcounted, h.ledger.sum_of_idle hidle]
  have hmap : (Native.prepped s.log).map (Span.len ∘ fun q => (⟨q.off, q.len, q.len⟩ : Span)) =
      (Native.prepped s.log).map Sqe.len := rfl
  rw [hmap] at hsum
  omega

theorem totalBytes_eq (cfg : Config) :
    cfg.totalBytes = max (cfg.totalMb * 2 ^ 20) cfg.blockSize := by
  unfold Config.totalBytes
  simp only
  split
  · omega
  · omega

/-- What a run leaves when it has returned. -/
structure Exact (cfg : Config) (s : State) : Prop where
  written : s.written = cfg.totalBytes
  size : s.dst.size = cfg.totalBytes
  once : ∀ p, (dones s.log).countP (fun x => decide (Writes dfd p x)) =
    if p < cfg.totalBytes then 1 else 0
  outside : ∀ p, cfg.totalBytes ≤ p → s.dst.byte p = none
  done : ∀ x ∈ dones s.log, ∀ k < x.1.len, s.dst.byte (x.1.off + k) =
    some (UInt8.ofNat (65 + (x.1.off / cfg.blockSize % cfg.qd + k) % 26))
  chunk : ∀ i, cfg.sizing.offset i < cfg.totalBytes → ∀ k < cfg.sizing.chunkLen i,
    s.dst.byte (cfg.sizing.offset i + k) =
      some (UInt8.ofNat (65 + (cfg.sizing.offset i / cfg.blockSize % cfg.qd + k) % 26))

theorem exact_of_returned (hcfg : Undisturbed cfg)
    (hblock : cfg.bufferSizeCb = none ∨ cfg.blockSize ≤ bufferLimit)
    (h : Reach (step cfg) (Answers Sqe.len) (start cfg) s) {r : ℤ}
    (hret : s.phase = .returned r) : Exact cfg s := by
  have hbooked := booked_reach hcfg hblock h
  obtain ⟨k, hk, hend⟩ := exists_chunked hcfg h hret
  have hidle := ((running_reach hcfg h).returned r hret).2.idle
  have htiles := hbooked.tiles hcfg hk hend
  obtain ⟨hsize, honce, houtside, hbyte⟩ := hbooked.ledger.settled length_pattern hidle htiles
  have hprep : ∀ q ∈ Native.prepped s.log, ∀ k < q.len, s.dst.byte (q.off + k) =
      some (UInt8.ofNat (65 + (q.off / cfg.blockSize % cfg.qd + k) % 26)) := by
    intro q hq k hlt
    obtain ⟨hfile, hslot, -⟩ := hbooked.prepped q hq
    rw [hbooked.dst, hbyte q hq hfile k hlt, getElem?_pattern hlt, hslot]
  refine ⟨hbooked.written_eq hidle htiles, by rw [hbooked.dst, hsize], honce,
    fun p hp => by rw [hbooked.dst, houtside p hp], ?_, ?_⟩
  · intro x hx
    exact hprep x.1 ((hbooked.ledger.perm_of_idle hidle).mem_iff.mp (List.mem_map_of_mem hx))
  · intro i hi
    have hlt : cfg.sizing.offset i < cfg.sizing.offset k := by rw [hend]; exact hi
    have hmem := Sizing.mem_chunks hlt
    rw [← hk.prepped] at hmem
    obtain ⟨q, hq, heq⟩ := List.mem_map.mp hmem
    obtain ⟨hoff, hlen⟩ := Prod.mk.inj heq
    rw [← hoff, ← hlen]
    exact hprep q hq

/-- Every position of the file lies in a chunk. -/
theorem exists_chunk_covering (hcfg : Undisturbed cfg)
    (h : Reach (step cfg) (Answers Sqe.len) (start cfg) s) {r : ℤ}
    (hret : s.phase = .returned r) {p : ℕ} (hp : p < cfg.totalBytes) :
    ∃ i, cfg.sizing.offset i < cfg.totalBytes ∧ ∃ k < cfg.sizing.chunkLen i,
      p = cfg.sizing.offset i + k := by
  obtain ⟨n, hn, hend⟩ := exists_chunked hcfg h hret
  have htiles := tiles_chunks (z := cfg.sizing) hcfg.blockSize_pos hn.offset_lt
  obtain ⟨c, hc, hle, hlt⟩ := htiles.exists_mem (Nat.zero_le p) (by rw [hend]; exact hp)
  obtain ⟨x, hx, rfl⟩ := List.mem_map.mp hc
  obtain ⟨i, hi, rfl⟩ := List.mem_map.mp hx
  simp only at hle hlt
  exact ⟨i, hn.offset_lt i (List.mem_range.mp hi), p - cfg.sizing.offset i, by omega, by omega⟩

/-- Two runs with the same chunk sizes and queue depth leave the same file. -/
theorem dst_eq_of_returned {cfg' : Config} (hcfg : Undisturbed cfg) (hcfg' : Undisturbed cfg')
    (hblock : cfg.bufferSizeCb = none ∨ cfg.blockSize ≤ bufferLimit)
    (hsizing : cfg'.sizing = cfg.sizing) (hqd : cfg'.qd = cfg.qd) {r r' : ℤ}
    (h : Reach (step cfg) (Answers Sqe.len) (start cfg) s) (hret : s.phase = .returned r)
    (h' : Reach (step cfg') (Answers Sqe.len) (start cfg') t) (hret' : t.phase = .returned r') :
    t.dst = s.dst := by
  have hcb : cfg'.bufferSizeCb = cfg.bufferSizeCb := congrArg Sizing.bufferSizeCb hsizing
  have hbs : cfg'.blockSize = cfg.blockSize := congrArg Sizing.blockSize hsizing
  have htotal : cfg'.totalBytes = cfg.totalBytes := congrArg Sizing.total hsizing
  have hex := exact_of_returned hcfg hblock h hret
  have hex' := exact_of_returned hcfg' (by rw [hcb, hbs]; exact hblock) h' hret'
  refine SparseFile.ext_of (by rw [hex.size, hex'.size, htotal]) ?_
  intro p
  rcases Nat.lt_or_ge p cfg.totalBytes with hp | hp
  · obtain ⟨i, hi, k, hk, rfl⟩ := exists_chunk_covering hcfg h hret hp
    have hchunk' := hex'.chunk i (by rw [hsizing, htotal]; exact hi) k (by rw [hsizing]; exact hk)
    rw [hsizing, hbs, hqd] at hchunk'
    rw [hex.chunk i hi k hk, hchunk']
  · rw [hex.outside p hp, hex'.outside p (by rw [htotal]; exact hp)]

/-- **New files are exact.**  When nothing around the writes goes wrong and each is
completed in full, in whatever order and however they are reaped, the function terminates
and returns the size of the file; every position of the file was written by exactly one
write and no other position was; each byte is the one that the place of its chunk in the
file says; and any two runs with the same chunk sizes and queue depth leave the same file. -/
theorem write_newfile_exact (cfg : Config) (hcfg : Undisturbed cfg)
    (hblock : cfg.bufferSizeCb = none ∨ cfg.blockSize ≤ bufferLimit) :
    Terminates (step cfg) (Answers Sqe.len) Returned (start cfg) ∧
      (∀ s r, Reach (step cfg) (Answers Sqe.len) (start cfg) s → s.phase = .returned r →
        r = (max (cfg.totalMb * 2 ^ 20) cfg.blockSize : ℕ) ∧
        (∀ p, (dones s.log).countP (fun x => decide (Writes dfd p x)) =
          if p < max (cfg.totalMb * 2 ^ 20) cfg.blockSize then 1 else 0) ∧
        ∀ x ∈ dones s.log, ∀ k < x.1.len, s.dst.byte (x.1.off + k) =
          some (UInt8.ofNat (65 + (x.1.off / cfg.blockSize % cfg.qd + k) % 26))) ∧
      ∀ cfg', Undisturbed cfg' → cfg'.sizing = cfg.sizing → cfg'.qd = cfg.qd → ∀ s s' r r',
        Reach (step cfg) (Answers Sqe.len) (start cfg) s → s.phase = .returned r →
        Reach (step cfg') (Answers Sqe.len) (start cfg') s' → s'.phase = .returned r' →
        s'.dst = s.dst := by
  refine ⟨terminates hcfg fun q _ => Nat.le_refl _, ?_,
    fun cfg' hcfg' hsizing hqd s s' r r' h hret h' hret' =>
      dst_eq_of_returned hcfg hcfg' hblock hsizing hqd h hret h' hret'⟩
  intro s r h hret
  have hex := exact_of_returned hcfg hblock h hret
  rw [← totalBytes_eq]
  refine ⟨?_, hex.once, hex.done⟩
  rw [((running_reach hcfg h).returned r hret).1, hex.written]

/-- One MiB in chunks of 600000 bytes, two at a time. -/
def twoChunks : Config where
  totalMb := 1
  blockSize := 600000
  qd := 2
  doFsync := false
  dsyncEachWrite := false
  bufferSizeCb := none
  progressCb := none
  sqEntries := 2
  setup := .ok
  totalMb_lt := one_lt_uint32
  blockSize_lt := by decide
  qd_lt := two_lt_uint32

theorem undisturbed_twoChunks : Undisturbed twoChunks where
  setup := rfl
  totalMb_pos := by decide
  blockSize_pos := by decide
  qd_pos := by decide
  room := by decide
  progress n written := not_cancelsAt_of_none rfl n written

theorem write_newfile_exact_twoChunks :
    Terminates (step twoChunks) (Answers Sqe.len) Returned (start twoChunks) ∧
      (∀ s r, Reach (step twoChunks) (Answers Sqe.len) (start twoChunks) s →
        s.phase = .returned r →
        r = (max (twoChunks.totalMb * 2 ^ 20) twoChunks.blockSize : ℕ) ∧
        (∀ p, (dones s.log).countP (fun x => decide (Writes dfd p x)) =
          if p < max (twoChunks.totalMb * 2 ^ 20) twoChunks.blockSize then 1 else 0) ∧
        ∀ x ∈ dones s.log, ∀ k < x.1.len, s.dst.byte (x.1.off + k) =
          some (UInt8.ofNat (65 + (x.1.off / twoChunks.blockSize % twoChunks.qd + k) % 26))) ∧
      ∀ cfg', Undisturbed cfg' → cfg'.sizing = twoChunks.sizing → cfg'.qd = twoChunks.qd →
        ∀ s s' r r',
        Reach (step twoChunks) (Answers Sqe.len) (start twoChunks) s → s.phase = .returned r →
        Reach (step cfg') (Answers Sqe.len) (start cfg') s' → s'.phase = .returned r' →
        s'.dst = s.dst :=
  write_newfile_exact twoChunks undisturbed_twoChunks (Or.inl rfl)

end WriteNewfile
end Native
end Pyuring
