import Pyuring.Native.CopyPath
import Pyuring.Lib.WrittenFile

/-!
# The invariant of the copy loop

Two facts carry the copy pipeline, and both hold whatever the kernel answers.

`Accounts` is the bookkeeping: `inflight` counts the pending requests, each sits
in a slot of its own which is active and remembers its offset, its tag names that
slot, and the chunks reserved so far tile the source from `0` to `next_off` and
are the first ones of the chunk sequence.

`Moves` says where the bytes are.  Each pending request belongs to a chunk that
has not moved anything unless its write has completed; a completed read has left
the source's bytes in the buffer, a write not yet completed will find them there;
and the destination consists of exactly what the chunks have moved.

Both are stated for the states in which the program is still working.  `Good`
puts them together with what is left of them at the end: on the way out the
function either reports an error or has finished, with no request pending.
-/

namespace Pyuring
namespace Native
namespace CopyPath

open CompletionRing

variable (cfg : Config)

/-- What the trace shows at any point before the final `fsync`, error or not: no
prepared request is longer than a chunk, and the slot buffers were overrun
exactly when a read returned more than they hold. -/
structure Traced (log : List Ev) (overrun : Bool) : Prop where
  prep : ∀ q, Ev.prep q ∈ log →
    ∃ k, cfg.sizing.offset k < cfg.fileSize ∧ q.len ≤ cfg.sizing.chunkLen k
  overrun : overrun = false ↔
    ∀ q res, Ev.done q res ∈ log → q.opcode = .read → res.toNat ≤ cfg.maxBufferSize
  unsynced : ∀ f, Ev.fsync f ∉ log

/-- An error is on its way out. -/
structure Failed (s : State) : Prop where
  phase : s.phase = .out
  ret : s.ret < 0
  traced : Traced cfg s.log s.overrun

/-- The bookkeeping of the loop. -/
structure Accounts (s : State) : Prop where
  inflight : s.inflight = Multiset.card s.ring.pending
  slot_lt : ∀ q ∈ s.ring.pending, q.buf < cfg.qd
  tag : ∀ q ∈ s.ring.pending, q.userData = packUd q.opcode.code (UInt32.ofNat q.buf)
  active : ∀ q ∈ s.ring.pending, (s.slots q.buf).active = true
  slot_off : ∀ q ∈ s.ring.pending, (s.slots q.buf).off = q.off
  slots_nodup : (s.ring.pending.map Sqe.buf).Nodup
  tiles : Tiles 0 (spans s.log) s.nextOff
  nextOff_le : s.nextOff ≤ cfg.fileSize
  chunked : ∃ k, cfg.sizing.chunk k = (s.nextOff, s.calls) ∧
    Span.asked (spans s.log) = cfg.sizing.chunks k
  traced : Traced cfg s.log s.overrun

/-- What a completed request moved into the destination. -/
def movedBy (c : Sqe × ℤ) : ℕ :=
  match c.1.opcode with
  | .read => 0
  | .write => c.2.toNat

/-- Where the bytes are. -/
structure Moves (s : State) : Prop where
  offs_nodup : (s.ring.pending.map Sqe.off).Nodup
  openSpan : ∀ q, q ∈ s.ring.queued ∨ q ∈ s.ring.outstanding →
    ∃ c ∈ spans s.log, c.off = q.off ∧ q.len ≤ c.len ∧ c.moved = 0
  doneSpan : ∀ x ∈ s.ring.completed,
    ∃ c ∈ spans s.log, c.off = x.1.off ∧ x.1.len ≤ c.len ∧ c.moved = movedBy x
  done_le : ∀ x ∈ s.ring.completed, x.2 ≤ x.1.len
  read_buf : ∀ x ∈ s.ring.completed, x.1.opcode = .read →
    x.2 ≤ (cfg.fileSize - x.1.off : ℕ) ∧
      (s.bufs x.1.buf).take x.2.toNat = cfg.slice x.1.off x.2.toNat
  write_buf : ∀ q, q ∈ s.ring.queued ∨ q ∈ s.ring.outstanding → q.opcode = .write →
    q.off + q.len ≤ cfg.fileSize ∧ (s.bufs q.buf).take q.len = cfg.slice q.off q.len
  moved_le : ∀ c ∈ spans s.log, c.moved ≤ c.len
  byte : ∀ p, s.dst.byte p =
    if ∃ c ∈ spans s.log, c.Covers p then cfg.src[p]? else none
  le_size : ∀ c ∈ spans s.log, 0 < c.moved → c.off + c.moved ≤ s.dst.size
  size_attained : s.dst.size = 0 ∨
    ∃ c ∈ spans s.log, 0 < c.moved ∧ c.off + c.moved = s.dst.size
  copied : s.copied + (s.ring.completed.map movedBy).sum = Span.total (spans s.log)

/-- What is left when the loop has ended: nothing pending, the counter is the
number of bytes moved, and the destination holds what was moved below it. -/
structure Finished (s : State) : Prop where
  idle : s.ring.Idle
  tiles : Tiles 0 (spans s.log) s.nextOff
  nextOff_le : s.nextOff ≤ cfg.fileSize
  moved_le : ∀ c ∈ spans s.log, c.moved ≤ c.len
  copied : s.copied = Span.total (spans s.log)
  byte : ∀ p < s.copied, s.dst.byte p =
    if ∃ c ∈ spans s.log, c.Covers p then cfg.src[p]? else none
  size : s.dst.size = s.copied ∨
    ((∀ c ∈ spans s.log, 0 < c.moved → c.off + c.moved ≤ s.dst.size) ∧
      (s.dst.size = 0 ∨ ∃ c ∈ spans s.log, 0 < c.moved ∧ c.off + c.moved = s.dst.size))
  chunked : ∃ k, cfg.sizing.chunk k = (s.nextOff, s.calls) ∧
    Span.asked (spans s.log) = cfg.sizing.chunks k
  traced : ∃ log, Traced cfg log s.overrun ∧
    (s.log = .fsync dfd :: log ∧ cfg.doFsync = true ∨
      s.log = log ∧ (cfg.doFsync = false ∨ cfg.fileSize = 0))

/-- The loop is running: the invariant holds, everything queued was handed over,
and no error is on its way. -/
structure Looping (s : State) : Prop where
  accounts : Accounts cfg s
  moves : Moves cfg s
  queued : s.ring.queued = []
  ret : 0 ≤ s.ret

/-- The invariant at each point of the program. -/
def Good (s : State) : Prop :=
  match s.phase with
  | .priming => s = blank cfg .priming
  | .loop => Looping cfg s
  | .out => Failed cfg s ∨ 0 ≤ s.ret ∧ Finished cfg s
  | .returned r => r < 0 ∧ Traced cfg s.log s.overrun ∨ r = s.copied ∧ Finished cfg s

variable {cfg} {s : State}

/-! ## Requests and slots -/

@[simp] theorem toNat_udSlot_readSqe {i len off : ℕ} (h : i < 2 ^ 32) :
    (udSlot (readSqe i len off).userData).toNat = i :=
  toNat_udSlot_packUd 0 h

theorem Accounts.toNat_udSlot (h : Accounts cfg s) {q : Sqe} (hq : q ∈ s.ring.pending) :
    (udSlot q.userData).toNat = q.buf := by
  rw [h.tag q hq]
  exact toNat_udSlot_packUd _ (Nat.lt_trans (h.slot_lt q hq) cfg.qd_lt)

theorem Accounts.udOp_eq_zero_iff (h : Accounts cfg s) {q : Sqe} (hq : q ∈ s.ring.pending) :
    udOp q.userData = 0 ↔ q.opcode = .read := by
  rw [h.tag q hq, udOp_packUd]
  cases q.opcode <;> decide

variable (cfg) in
/-- A read of the next chunk for slot `i`, spelled out. -/
theorem enqueueRead_cases (i : ℕ) (s : State) :
    (cfg.sqEntries ≤ s.ring.queued.length ∧
      (Traced cfg s.log s.overrun → Failed cfg (enqueueRead cfg i s))) ∨
    (s.ring.queued.length < cfg.sqEntries ∧
      enqueueRead cfg i s =
        let want := cfg.sizing.want s.nextOff s.calls
        { s with
          calls := cfg.sizing.nextCalls s.calls
          slots := Function.update s.slots i { s.slots i with off := s.nextOff, len := want }
          ring := { s.ring with queued := s.ring.queued ++ [readSqe i want s.nextOff] }
          inflight := s.inflight + 1
          nextOff := s.nextOff + want
          log := .prep (readSqe i want s.nextOff) :: s.log }) := by
  rcases Nat.lt_or_ge s.ring.queued.length cfg.sqEntries with hroom | hfull
  · have hpush := push_eq_some (q := readSqe i (cfg.sizing.want s.nextOff s.calls) s.nextOff)
      |>.mpr ⟨hroom, rfl⟩
    exact Or.inr ⟨hroom, by simp only [enqueueRead, hpush]⟩
  · have hpush := push_eq_none (q := readSqe i (cfg.sizing.want s.nextOff s.calls) s.nextOff)
      |>.mpr hfull
    refine Or.inl ⟨hfull, ?_⟩
    intro htr
    simp only [enqueueRead, hpush, State.goOut]
    exact ⟨rfl, Errno.neg_lt _, htr⟩

/-- The chunk a read of the next chunk reserves is new. -/
theorem Accounts.span_off_lt (h : Accounts cfg s) {c : Span} (hc : c ∈ spans s.log) :
    c.off < s.nextOff :=
  h.tiles.off_lt hc

theorem Moves.off_lt (hm : Moves cfg s) (ha : Accounts cfg s) {q : Sqe}
    (hq : q ∈ s.ring.pending) : q.off < s.nextOff := by
  rcases mem_pending.mp hq with hq | hq | ⟨res, hq⟩
  · obtain ⟨c, hc, hoff, _⟩ := hm.openSpan q (Or.inl hq)
    exact hoff ▸ ha.span_off_lt hc
  · obtain ⟨c, hc, hoff, _⟩ := hm.openSpan q (Or.inr hq)
    exact hoff ▸ ha.span_off_lt hc
  · obtain ⟨c, hc, hoff, _⟩ := hm.doneSpan _ hq
    exact hoff ▸ ha.span_off_lt hc

theorem Traced.prep_cons {log : List Ev} {overrun : Bool} (h : Traced cfg log overrun) {q : Sqe}
    {k : ℕ} (hk : cfg.sizing.offset k < cfg.fileSize) (hlen : q.len ≤ cfg.sizing.chunkLen k) :
    Traced cfg (.prep q :: log) overrun where
  prep := by
    intro q' hq'
    rcases List.mem_cons.mp hq' with hq' | hq'
    · rw [Ev.prep.inj hq']
      exact ⟨k, hk, hlen⟩
    · exact h.prep q' hq'
  overrun := by simpa using h.overrun
  unsynced := by simpa using h.unsynced

/-- A piece that was reserved is one of the chunks. -/
theorem Accounts.exists_chunk (h : Accounts cfg s) {c : Span} (hc : c ∈ spans s.log) :
    ∃ k, cfg.sizing.offset k < cfg.fileSize ∧ cfg.sizing.chunkLen k = c.len := by
  obtain ⟨n, _, hasked⟩ := h.chunked
  have hmem : (c.off, c.len) ∈ cfg.sizing.chunks n := by
    rw [← hasked]
    exact List.mem_map.mpr ⟨c, hc, rfl⟩
  obtain ⟨k, _, hk⟩ := List.mem_map.mp hmem
  obtain ⟨hoff, hlen⟩ := Prod.mk.inj hk
  refine ⟨k, ?_, hlen⟩
  rw [hoff]
  exact Nat.lt_of_lt_of_le (h.span_off_lt hc) h.nextOff_le

section EnqueueRead

/-! ## Reading the next chunk -/

variable {i : ℕ} (hroom : s.ring.queued.length < cfg.sqEntries)

include hroom

theorem Accounts.enqueueRead (h : Accounts cfg s) (hblock : 0 < cfg.blockSize)
    (hlt : s.nextOff < cfg.fileSize) (hi : i < cfg.qd) (hact : (s.slots i).active = true)
    (hfree : ∀ q ∈ s.ring.pending, q.buf ≠ i) : Accounts cfg (enqueueRead cfg i s) := by
  rcases enqueueRead_cases cfg i s with ⟨hfull, _⟩ | ⟨_, heq⟩
  · omega
  rw [heq]
  have hpos : 0 < cfg.sizing.want s.nextOff s.calls := Sizing.want_pos hblock hlt _
  have hle : cfg.sizing.want s.nextOff s.calls ≤ cfg.fileSize - s.nextOff :=
    Sizing.want_le_remain _ _
  have hpend := pending_push
    (push_eq_some (q := readSqe i (cfg.sizing.want s.nextOff s.calls) s.nextOff)
      |>.mpr ⟨hroom, rfl⟩)
  have hslot : ∀ q ∈ s.ring.pending, Function.update s.slots i
      { s.slots i with off := s.nextOff, len := cfg.sizing.want s.nextOff s.calls } q.buf =
        s.slots q.buf :=
    fun q hq => Function.update_of_ne (hfree q hq) _ _
  constructor
  · simp only [hpend, Multiset.card_cons, h.inflight]
  · simp only [hpend, Multiset.mem_cons, forall_eq_or_imp]
    exact ⟨hi, h.slot_lt⟩
  · simp only [hpend, Multiset.mem_cons, forall_eq_or_imp]
    exact ⟨rfl, h.tag⟩
  · simp only [hpend, Multiset.mem_cons, forall_eq_or_imp]
    refine ⟨?_, ?_⟩
    · simpa [readSqe] using hact
    · intro q hq
      rw [hslot q hq]
      exact h.active q hq
  · simp only [hpend, Multiset.mem_cons, forall_eq_or_imp]
    refine ⟨?_, ?_⟩
    · simp [readSqe]
    · intro q hq
      rw [hslot q hq]
      exact h.slot_off q hq
  · simp only [hpend, Multiset.map_cons, Multiset.nodup_cons]
    refine ⟨?_, h.slots_nodup⟩
    intro hmem
    obtain ⟨q, hq, hbuf⟩ := Multiset.mem_map.mp hmem
    exact hfree q hq hbuf
  · exact h.tiles.snoc hpos
  · simp only
    omega
  · obtain ⟨k, hk, hasked⟩ := h.chunked
    refine ⟨k + 1, Sizing.chunk_succ hk, ?_⟩
    rw [Sizing.chunks_succ hk, ← hasked]
    exact Span.asked_append _ _
  · obtain ⟨k, hk, _⟩ := h.chunked
    refine h.traced.prep_cons (k := k) ?_ (Nat.le_of_eq ?_)
    · rwa [Sizing.offset, hk]
    · rw [Sizing.chunkLen, hk]
      rfl

theorem Moves.enqueueRead (h : Moves cfg s) (ha : Accounts cfg s) :
    Moves cfg (enqueueRead cfg i s) := by
  rcases enqueueRead_cases cfg i s with ⟨hfull, _⟩ | ⟨_, heq⟩
  · omega
  rw [heq]
  generalize cfg.sizing.want s.nextOff s.calls = want
  have hpend := pending_push (push_eq_some (q := readSqe i want s.nextOff) |>.mpr ⟨hroom, rfl⟩)
  have hspans : ∀ c, c ∈ spans (.prep (readSqe i want s.nextOff) :: s.log) ↔
      c ∈ spans s.log ∨ c = ⟨s.nextOff, want, 0⟩ := by
    simp [spans, readSqe]
  have hcov : ∀ p, (∃ c ∈ spans (.prep (readSqe i want s.nextOff) :: s.log), c.Covers p) ↔
      ∃ c ∈ spans s.log, c.Covers p := by
    intro p
    constructor
    · rintro ⟨c, hc, hcp⟩
      rcases (hspans c).mp hc with hc | rfl
      · exact ⟨c, hc, hcp⟩
      · have h₁ := hcp.1
        have h₂ := hcp.2
        simp only at h₁ h₂
        omega
    · rintro ⟨c, hc, hcp⟩
      exact ⟨c, (hspans c).mpr (Or.inl hc), hcp⟩
  constructor
  · simp only [hpend, Multiset.map_cons, Multiset.nodup_cons]
    refine ⟨?_, h.offs_nodup⟩
    intro hmem
    obtain ⟨q, hq, hoff⟩ := Multiset.mem_map.mp hmem
    have := h.off_lt ha hq
    rw [hoff] at this
    exact absurd this (Nat.lt_irrefl _)
  · intro q hq
    simp only [List.mem_append, List.mem_singleton] at hq
    rcases hq with (hq | rfl) | hq
    · obtain ⟨c, hc, hrest⟩ := h.openSpan q (Or.inl hq)
      exact ⟨c, (hspans c).mpr (Or.inl hc), hrest⟩
    · exact ⟨⟨s.nextOff, want, 0⟩, (hspans _).mpr (Or.inr rfl), rfl, Nat.le_refl _, rfl⟩
    · obtain ⟨c, hc, hrest⟩ := h.openSpan q (Or.inr hq)
      exact ⟨c, (hspans c).mpr (Or.inl hc), hrest⟩
  · intro x hx
    obtain ⟨c, hc, hrest⟩ := h.doneSpan x hx
    exact ⟨c, (hspans c).mpr (Or.inl hc), hrest⟩
  · exact h.done_le
  · exact h.read_buf
  · intro q hq hop
    simp only [List.mem_append, List.mem_singleton] at hq
    rcases hq with (hq | rfl) | hq
    · exact h.write_buf q (Or.inl hq) hop
    · exact absurd hop (by simp [readSqe])
    · exact h.write_buf q (Or.inr hq) hop
  · intro c hc
    rcases (hspans c).mp hc with hc | rfl
    · exact h.moved_le c hc
    · exact Nat.zero_le _
  · intro p
    simp only [hcov]
    exact h.byte p
  · intro c hc hpos
    rcases (hspans c).mp hc with hc | rfl
    · exact h.le_size c hc hpos
    · exact absurd hpos (Nat.lt_irrefl 0)
  · rcases h.size_attained with h0 | ⟨c, hc, hrest⟩
    · exact Or.inl h0
    · exact Or.inr ⟨c, (hspans c).mpr (Or.inl hc), hrest⟩
  · simpa [spans, readSqe] using h.copied

end EnqueueRead

/-! ## The other primitive steps -/

theorem Accounts.setActive (h : Accounts cfg s) {i : ℕ} {b : Bool}
    (hfree : ∀ q ∈ s.ring.pending, q.buf ≠ i) : Accounts cfg (s.setActive i b) := by
  have hslot : ∀ q ∈ s.ring.pending, (s.setActive i b).slots q.buf = s.slots q.buf :=
    fun q hq => Function.update_of_ne (hfree q hq) _ _
  exact { h with
    active := fun q hq => by rw [hslot q hq]; exact h.active q hq
    slot_off := fun q hq => by rw [hslot q hq]; exact h.slot_off q hq }

theorem Moves.setActive (h : Moves cfg s) (i : ℕ) (b : Bool) : Moves cfg (s.setActive i b) :=
  { h with }

/-- Handing over what is queued, when that does not fail. -/
theorem submit_of_nonneg {r : ℤ} (hr : 0 ≤ r) :
    s.submit r = { s with ring := s.ring.submit, ret := r, phase := .loop } := by
  rw [State.submit, if_neg (Int.not_lt.mpr hr)]

theorem submit_of_neg {r : ℤ} (hr : r < 0) : s.submit r = s.goOut r := by
  rw [State.submit, if_pos hr]

theorem looping_submit (ha : Accounts cfg s) (hm : Moves cfg s) {r : ℤ} (hr : 0 ≤ r) :
    Looping cfg (s.submit r) := by
  rw [submit_of_nonneg hr]
  refine ⟨?_, ?_, rfl, hr⟩
  · exact { ha with
      inflight := by rw [pending_submit]; exact ha.inflight
      slot_lt := by simpa using ha.slot_lt
      tag := by simpa using ha.tag
      active := by simpa using ha.active
      slot_off := by simpa using ha.slot_off
      slots_nodup := by simpa using ha.slots_nodup }
  · have hopen : ∀ q, q ∈ s.ring.submit.queued ∨ q ∈ s.ring.submit.outstanding →
        q ∈ s.ring.queued ∨ q ∈ s.ring.outstanding := by
      intro q hq
      simpa [or_comm] using hq
    exact { hm with
      offs_nodup := by simpa using hm.offs_nodup
      openSpan := fun q hq => hm.openSpan q (hopen q hq)
      write_buf := fun q hq => hm.write_buf q (hopen q hq) }

variable (cfg) in
/-- What is known of a completion that has just been reaped. -/
structure Reaped (s : State) (q : Sqe) (res : ℤ) : Prop where
  slot_lt : q.buf < cfg.qd
  slot_eq : (udSlot q.userData).toNat = q.buf
  op_eq : udOp q.userData = 0 ↔ q.opcode = .read
  active : (s.slots q.buf).active = true
  off_eq : (s.slots q.buf).off = q.off
  free : ∀ q' ∈ s.ring.pending, q'.buf ≠ q.buf
  off_free : ∀ q' ∈ s.ring.pending, q'.off ≠ q.off
  span : ∃ c ∈ spans s.log, c.off = q.off ∧ q.len ≤ c.len ∧ c.moved = movedBy (q, res)
  le : res ≤ q.len
  read_buf : q.opcode = .read → res ≤ (cfg.fileSize - q.off : ℕ) ∧
    (s.bufs q.buf).take res.toNat = cfg.slice q.off res.toNat

section Reap

variable {q : Sqe} {res w : ℤ} {ring : CompletionRing Sqe}
  (hreap : s.ring.reap = some ((q, res), ring))

include hreap

theorem Accounts.reap (h : Accounts cfg s) :
    Accounts cfg { s with ring := ring, inflight := s.inflight - 1, ret := w } := by
  have hpend := pending_reap hreap
  have hmem : ∀ q' ∈ ring.pending, q' ∈ s.ring.pending := fun q' hq' => by
    rw [hpend]
    exact Multiset.mem_cons_of_mem hq'
  exact { h with
    inflight := by
      have hcard := h.inflight
      rw [hpend, Multiset.card_cons] at hcard
      simp only
      omega
    slot_lt := fun q' hq' => h.slot_lt q' (hmem q' hq')
    tag := fun q' hq' => h.tag q' (hmem q' hq')
    active := fun q' hq' => h.active q' (hmem q' hq')
    slot_off := fun q' hq' => h.slot_off q' (hmem q' hq')
    slots_nodup := by
      have hnodup := h.slots_nodup
      rw [hpend, Multiset.map_cons, Multiset.nodup_cons] at hnodup
      exact hnodup.2 }

theorem Moves.reap (h : Moves cfg s) :
    Moves cfg { s with
      ring := ring
      inflight := s.inflight - 1
      ret := w
      copied := s.copied + movedBy (q, res) } := by
  have hpend := pending_reap hreap
  obtain ⟨cs, hcs, rfl⟩ := reap_eq_some.mp hreap
  have hmem : ∀ x ∈ cs, x ∈ s.ring.completed := fun x hx => hcs ▸ List.mem_cons_of_mem _ hx
  exact { h with
    offs_nodup := by
      have hnodup := h.offs_nodup
      rw [hpend, Multiset.map_cons, Multiset.nodup_cons] at hnodup
      exact hnodup.2
    doneSpan := fun x hx => h.doneSpan x (hmem x hx)
    done_le := fun x hx => h.done_le x (hmem x hx)
    read_buf := fun x hx => h.read_buf x (hmem x hx)
    copied := by
      have hcopied := h.copied
      rw [hcs, List.map_cons, List.sum_cons] at hcopied
      simp only
      omega }

theorem reaped (ha : Accounts cfg s) (hm : Moves cfg s) :
    Reaped cfg { s with ring := ring, inflight := s.inflight - 1, ret := w } q res := by
  have hpend := pending_reap hreap
  have hq : q ∈ s.ring.pending := by rw [hpend]; exact Multiset.mem_cons_self _ _
  have hx : (q, res) ∈ s.ring.completed := by
    obtain ⟨cs, hcs, _⟩ := reap_eq_some.mp hreap
    rw [hcs]
    exact List.mem_cons_self
  exact {
    slot_lt := ha.slot_lt q hq
    slot_eq := ha.toNat_udSlot hq
    op_eq := ha.udOp_eq_zero_iff hq
    active := ha.active q hq
    off_eq := ha.slot_off q hq
    free := fun q' hq' => key_ne_of_nodup (hpend ▸ ha.slots_nodup) hq'
    off_free := fun q' hq' => key_ne_of_nodup (hpend ▸ hm.offs_nodup) hq'
    span := hm.doneSpan _ hx
    le := hm.done_le _ hx
    read_buf := hm.read_buf _ hx }

end Reap

/-! ## Writing what was read -/

/-- The state with the write of `res` bytes of slot `slot` queued. -/
def pushWrite (slot : ℕ) (res : ℤ) (s : State) : State :=
  let q := writeSqe slot res.toNat (s.slots slot).off
  { s with
    ring := { s.ring with queued := s.ring.queued ++ [q] }
    inflight := s.inflight + 1
    log := .prep q :: s.log }

theorem spans_pushWrite (slot : ℕ) (res : ℤ) (s : State) :
    spans (pushWrite slot res s).log = spans s.log := rfl

section PushWrite

variable {q : Sqe} {res : ℤ}

theorem pending_pushWrite : (pushWrite q.buf res s).ring.pending =
    writeSqe q.buf res.toNat (s.slots q.buf).off ::ₘ s.ring.pending :=
  pending_push (push_eq_some.mpr ⟨Nat.lt_succ_self s.ring.queued.length, rfl⟩)

theorem Accounts.pushWrite (h : Accounts cfg s) (hq : Reaped cfg s q res) :
    Accounts cfg (pushWrite q.buf res s) := by
  have hpend := @pending_pushWrite s q res
  constructor
  · rw [hpend, Multiset.card_cons, ← h.inflight]
    rfl
  · rw [hpend]
    simp only [Multiset.mem_cons, forall_eq_or_imp]
    exact ⟨hq.slot_lt, h.slot_lt⟩
  · rw [hpend]
    simp only [Multiset.mem_cons, forall_eq_or_imp]
    exact ⟨rfl, h.tag⟩
  · rw [hpend]
    simp only [Multiset.mem_cons, forall_eq_or_imp]
    exact ⟨hq.active, h.active⟩
  · rw [hpend]
    simp only [Multiset.mem_cons, forall_eq_or_imp]
    exact ⟨rfl, h.slot_off⟩
  · rw [hpend, Multiset.map_cons, Multiset.nodup_cons]
    refine ⟨?_, h.slots_nodup⟩
    intro hmem
    obtain ⟨q', hq', hbuf⟩ := Multiset.mem_map.mp hmem
    exact hq.free q' hq' hbuf
  · exact h.tiles
  · exact h.nextOff_le
  · exact h.chunked
  · obtain ⟨c, hc, _, hlen, _⟩ := hq.span
    obtain ⟨k, hk, hck⟩ := h.exists_chunk hc
    refine h.traced.prep_cons hk ?_
    have := hq.le
    simp only [writeSqe]
    omega

theorem Moves.pushWrite (h : Moves cfg s) (hq : Reaped cfg s q res)
    (hop : q.opcode = .read) (hres : 0 < res) : Moves cfg (pushWrite q.buf res s) := by
  have hpend := @pending_pushWrite s q res
  obtain ⟨hfit, hbuf⟩ := hq.read_buf hop
  have hle := hq.le
  have hopen : ∀ q', q' ∈ (CopyPath.pushWrite q.buf res s).ring.queued ∨
      q' ∈ (CopyPath.pushWrite q.buf res s).ring.outstanding →
      q' = writeSqe q.buf res.toNat q.off ∨ (q' ∈ s.ring.queued ∨ q' ∈ s.ring.outstanding) := by
    intro q' hq'
    rw [← hq.off_eq]
    simp only [CopyPath.pushWrite, List.mem_append, List.mem_singleton] at hq'
    tauto
  exact { h with
    offs_nodup := by
      rw [hpend, Multiset.map_cons, Multiset.nodup_cons]
      refine ⟨?_, h.offs_nodup⟩
      intro hmem
      obtain ⟨q', hq', hoff⟩ := Multiset.mem_map.mp hmem
      exact hq.off_free q' hq' (hoff.trans hq.off_eq)
    openSpan := by
      intro q' hq'
      rw [spans_pushWrite]
      rcases hopen q' hq' with rfl | hq'
      · obtain ⟨c, hc, hoff, hlen, hmoved⟩ := hq.span
        refine ⟨c, hc, hoff, ?_, ?_⟩
        · simp only [writeSqe]
          omega
        · rw [hmoved, movedBy, hop]
      · exact h.openSpan q' hq'
    write_buf := by
      intro q' hq' hop'
      rcases hopen q' hq' with rfl | hq'
      · refine ⟨?_, hbuf⟩
        simp only [writeSqe]
        omega
      · exact h.write_buf q' hq' hop' }

end PushWrite

variable (cfg) in
theorem onRead_cases (slot : ℕ) (res r : ℤ) (s : State) :
    (res = 0 ∧ onRead cfg slot res r s = s.setActive slot false) ∨
    (cfg.sqEntries ≤ s.ring.queued.length ∧ onRead cfg slot res r s = s.goOut EAGAIN.neg) ∨
    (res ≠ 0 ∧ onRead cfg slot res r s = (pushWrite slot res s).submit r) := by
  by_cases hres : res = 0
  · exact Or.inl ⟨hres, by rw [onRead, if_pos hres]⟩
  refine Or.inr ?_
  rcases Nat.lt_or_ge s.ring.queued.length cfg.sqEntries with hroom | hfull
  · have hpush := push_eq_some (q := writeSqe slot res.toNat (s.slots slot).off)
      |>.mpr ⟨hroom, rfl⟩
    refine Or.inr ⟨hres, ?_⟩
    rw [onRead, if_neg hres]
    simp only [hpush, pushWrite]
  · have hpush := push_eq_none (q := writeSqe slot res.toNat (s.slots slot).off) |>.mpr hfull
    refine Or.inl ⟨hfull, ?_⟩
    rw [onRead, if_neg hres]
    simp only [hpush]

/-! ## Counting what was written -/

/-- The progress callback asks to abort at its call number `n`, for `done` bytes. -/
def CancelsAt (cfg : Config) (n done : ℕ) : Prop :=
  ∃ cb, cfg.progressCb = some cb ∧ cb n done cfg.fileSize = true

/-- The progress callback asks to abort at some call. -/
def Cancels (cfg : Config) : Prop := ∃ n done, CancelsAt cfg n done

variable (cfg) in
theorem report_cases (s : State) : ∃ cancel n log, spans log = spans s.log ∧
    (Traced cfg s.log s.overrun → Traced cfg log s.overrun) ∧
    (cancel = true ↔ CancelsAt cfg s.reports s.copied) ∧
    report cfg s = (cancel, { s with reports := n, log := log }) := by
  unfold report CancelsAt
  cases hcb : cfg.progressCb with
  | none => exact ⟨_, s.reports, s.log, rfl, id, by simp, rfl⟩
  | some cb =>
    exact ⟨_, s.reports + 1, .progress s.copied cfg.fileSize :: s.log, rfl,
      fun h => ⟨by simpa using h.prep, by simpa using h.overrun, by simpa using h.unsynced⟩,
      by simp, rfl⟩

theorem Accounts.report (h : Accounts cfg s) : Accounts cfg (report cfg s).2 := by
  obtain ⟨cancel, n, log, hlog, htr, _, heq⟩ := report_cases cfg s
  rw [heq]
  exact { h with
    traced := htr h.traced
    tiles := by simpa only [hlog] using h.tiles
    chunked := by simpa only [hlog] using h.chunked }

theorem Moves.report (h : Moves cfg s) : Moves cfg (report cfg s).2 := by
  obtain ⟨cancel, n, log, hlog, _, _, heq⟩ := report_cases cfg s
  rw [heq]
  exact { h with
    openSpan := by simpa only [hlog] using h.openSpan
    doneSpan := by simpa only [hlog] using h.doneSpan
    moved_le := by simpa only [hlog] using h.moved_le
    byte := by simpa only [hlog] using h.byte
    le_size := by simpa only [hlog] using h.le_size
    size_attained := by simpa only [hlog] using h.size_attained
    copied := by simpa only [hlog] using h.copied }

/-! ## The kernel's step -/

/-- What the kernel's step does. -/
theorem complete_cases {i : ℕ} {res : ℤ} {t : State} (ht : complete cfg i res s = some t) :
    ∃ q ring, s.ring.complete i res = some (q, ring) ∧ res ≤ q.len ∧
      ((q.opcode = .read ∧ res ≤ (cfg.fileSize - q.off : ℕ) ∧
          t = { s with
            ring := ring
            log := .done q res :: s.log
            bufs := Function.update s.bufs q.buf
              (cfg.slice q.off res.toNat ++ (s.bufs q.buf).drop res.toNat)
            overrun := s.overrun || decide (cfg.maxBufferSize < res.toNat) }) ∨
        (q.opcode = .write ∧
          t = { s with
            ring := ring
            log := .done q res :: s.log
            dst := s.dst.write q.off ((s.bufs q.buf).take res.toNat) })) := by
  unfold CopyPath.complete at ht
  cases hc : s.ring.complete i res with
  | none => simp only [hc, reduceCtorEq] at ht
  | some qr =>
    obtain ⟨q, ring⟩ := qr
    simp only [hc] at ht
    cases hop : q.opcode with
    | read =>
      simp only [hop] at ht
      split at ht
      · next hle => exact ⟨q, ring, rfl, hle.1, Or.inl ⟨hop, hle.2, (Option.some.inj ht).symm⟩⟩
      · exact absurd ht (by simp)
    | write =>
      simp only [hop] at ht
      split at ht
      · next hle => exact ⟨q, ring, rfl, hle, Or.inr ⟨hop, (Option.some.inj ht).symm⟩⟩
      · exact absurd ht (by simp)

theorem spans_done_read {q : Sqe} (hop : q.opcode = .read) (res : ℤ) (log : List Ev) :
    spans (.done q res :: log) = spans log := by
  simp only [spans, hop]

theorem spans_done_write {q : Sqe} (hop : q.opcode = .write) (res : ℤ) (log : List Ev) :
    spans (.done q res :: log) = Span.setMoved q.off res.toNat (spans log) := by
  simp only [spans, hop]

theorem Traced.complete {i : ℕ} {res : ℤ} {t : State} (h : Traced cfg s.log s.overrun)
    (ht : complete cfg i res s = some t) : Traced cfg t.log t.overrun := by
  obtain ⟨q, ring, _, _, hcase⟩ := complete_cases ht
  rcases hcase with ⟨hop, _, rfl⟩ | ⟨hop, rfl⟩
  · refine ⟨by simpa using h.prep, ?_, by simpa using h.unsynced⟩
    simp only [Bool.or_eq_false_iff, decide_eq_false_iff_not, Nat.not_lt, h.overrun,
      List.mem_cons, Ev.done.injEq]
    constructor
    · rintro ⟨hold, hle⟩ q' res' (⟨rfl, rfl⟩ | hmem) hop'
      · exact hle
      · exact hold q' res' hmem hop'
    · intro hall
      exact ⟨fun q' res' hmem => hall q' res' (Or.inr hmem), hall q res (Or.inl ⟨rfl, rfl⟩) hop⟩
  · refine ⟨by simpa using h.prep, ?_, by simpa using h.unsynced⟩
    simp only [h.overrun, List.mem_cons, Ev.done.injEq]
    constructor
    · rintro hold q' res' (⟨rfl, rfl⟩ | hmem) hop'
      · exact absurd (hop.symm.trans hop') (by simp)
      · exact hold q' res' hmem hop'
    · exact fun hall q' res' hmem => hall q' res' (Or.inr hmem)

theorem Accounts.complete (h : Accounts cfg s) {i : ℕ} {res : ℤ} {t : State}
    (ht : complete cfg i res s = some t) : Accounts cfg t := by
  have htr := h.traced.complete ht
  obtain ⟨q, ring, hc, _, hcase⟩ := complete_cases ht
  have hpend := pending_complete hc
  have htiles : Tiles 0 (spans (.done q res :: s.log)) s.nextOff := by
    rcases hcase with ⟨hop, _⟩ | ⟨hop, _⟩
    · rw [spans_done_read hop]
      exact h.tiles
    · rw [spans_done_write hop]
      exact h.tiles.setMoved _ _
  have hasked : Span.asked (spans (.done q res :: s.log)) = Span.asked (spans s.log) := by
    rcases hcase with ⟨hop, _⟩ | ⟨hop, _⟩
    · rw [spans_done_read hop]
    · rw [spans_done_write hop, Span.asked_setMoved]
  rcases hcase with ⟨_, _, rfl⟩ | ⟨_, rfl⟩ <;> exact {
    inflight := by rw [hpend]; exact h.inflight
    slot_lt := by rw [hpend]; exact h.slot_lt
    tag := by rw [hpend]; exact h.tag
    active := by rw [hpend]; exact h.active
    slot_off := by rw [hpend]; exact h.slot_off
    slots_nodup := by rw [hpend]; exact h.slots_nodup
    tiles := htiles
    nextOff_le := h.nextOff_le
    chunked := by simpa only [hasked] using h.chunked
    traced := htr }

theorem length_slice (off len : ℕ) :
    (cfg.slice off len).length = min len (cfg.fileSize - off) := by
  simp [Config.slice, Config.fileSize]

section Complete

variable {i : ℕ} {res : ℤ} {q : Sqe} {ring : CompletionRing Sqe}
  (hc : s.ring.complete i res = some (q, ring))

include hc

/-- The other pending requests sit in other slots and at other offsets. -/
theorem ne_of_complete (ha : Accounts cfg s) (hm : Moves cfg s) {q' : Sqe}
    (hq' : q' ∈ ring.queued ∨ q' ∈ ring.outstanding ∨ ∃ r, (q', r) ∈ s.ring.completed) :
    q'.buf ≠ q.buf ∧ q'.off ≠ q.off := by
  have hpend := pending_eq_cons_of_complete hc
  have hmem : q' ∈ (ring.queued : Multiset Sqe) + ring.outstanding +
      s.ring.completed.map Prod.fst := by
    simpa [or_assoc] using hq'
  exact ⟨key_ne_of_nodup (hpend ▸ ha.slots_nodup) hmem,
    key_ne_of_nodup (hpend ▸ hm.offs_nodup) hmem⟩

theorem Moves.completeRead (h : Moves cfg s) (ha : Accounts cfg s) (hle : res ≤ q.len)
    (hop : q.opcode = .read) (hfit : res ≤ (cfg.fileSize - q.off : ℕ)) (overrun : Bool) :
    Moves cfg { s with
      ring := ring
      log := .done q res :: s.log
      bufs := Function.update s.bufs q.buf
        (cfg.slice q.off res.toNat ++ (s.bufs q.buf).drop res.toNat)
      overrun := overrun } := by
  have hne := fun {q'} => @ne_of_complete _ _ _ _ _ _ hc ha h q'
  have hpend := pending_complete hc
  have hout := mem_outstanding_of_complete hc
  obtain ⟨_, rfl⟩ := complete_eq_some.mp hc
  have hsub : ∀ q' ∈ s.ring.outstanding.eraseIdx i, q' ∈ s.ring.outstanding :=
    fun q' hq' => List.mem_of_mem_eraseIdx hq'
  constructor
  · rw [hpend]
    exact h.offs_nodup
  · intro q' hq'
    simp only [spans_done_read hop]
    exact h.openSpan q' (hq'.imp_right (hsub q'))
  · intro x hx
    simp only [spans_done_read hop]
    rcases List.mem_append.mp hx with hx | hx
    · exact h.doneSpan x hx
    · obtain rfl := List.mem_singleton.mp hx
      obtain ⟨c, hcm, hoff, hlen, hmoved⟩ := h.openSpan q (Or.inr hout)
      exact ⟨c, hcm, hoff, hlen, by rw [hmoved, movedBy, hop]⟩
  · intro x hx
    rcases List.mem_append.mp hx with hx | hx
    · exact h.done_le x hx
    · obtain rfl := List.mem_singleton.mp hx
      exact hle
  · intro x hx hxop
    rcases List.mem_append.mp hx with hx | hx
    · have hbuf := (hne (Or.inr (Or.inr ⟨x.2, hx⟩))).1
      simp only [Function.update_of_ne hbuf]
      exact h.read_buf x hx hxop
    · obtain rfl := List.mem_singleton.mp hx
      refine ⟨hfit, ?_⟩
      have hlen : (cfg.slice q.off res.toNat).length = res.toNat := by
        rw [length_slice]
        omega
      simp only [Function.update_self]
      rw [List.take_append_of_le_length (by omega), List.take_of_length_le (by omega)]
  · intro q' hq' hop'
    have hbuf := (hne (hq'.imp_right Or.inl)).1
    simp only [Function.update_of_ne hbuf]
    exact h.write_buf q' (hq'.imp_right (hsub q')) hop'
  · simpa only [spans_done_read hop] using h.moved_le
  · simpa only [spans_done_read hop] using h.byte
  · simpa only [spans_done_read hop] using h.le_size
  · simpa only [spans_done_read hop] using h.size_attained
  · simp only [spans_done_read hop, List.map_append, List.sum_append, List.map_cons, List.map_nil,
      List.sum_singleton, movedBy, hop, Nat.add_zero]
    exact h.copied

theorem Moves.completeWrite (h : Moves cfg s) (ha : Accounts cfg s) (hle : res ≤ q.len)
    (hop : q.opcode = .write) :
    Moves cfg { s with
      ring := ring
      log := .done q res :: s.log
      dst := s.dst.write q.off ((s.bufs q.buf).take res.toNat) } := by
  have hne := fun {q'} => @ne_of_complete _ _ _ _ _ _ hc ha h q'
  have hpend := pending_complete hc
  have hout := mem_outstanding_of_complete hc
  obtain ⟨c, hcm, hoff, hlen, hmoved⟩ := h.openSpan q (Or.inr hout)
  obtain ⟨hfit, hbuf⟩ := h.write_buf q (Or.inr hout) hop
  obtain ⟨_, rfl⟩ := complete_eq_some.mp hc
  have hsub : ∀ q' ∈ s.ring.outstanding.eraseIdx i, q' ∈ s.ring.outstanding :=
    fun q' hq' => List.mem_of_mem_eraseIdx hq'
  -- the bytes written are the source's
  have hbytes : (s.bufs q.buf).take res.toNat = cfg.slice q.off res.toNat := by
    have htake : (s.bufs q.buf).take res.toNat = ((s.bufs q.buf).take q.len).take res.toNat := by
      rw [List.take_take, Nat.min_eq_left (by omega)]
    rw [htake, hbuf, Config.slice, List.take_take, Nat.min_eq_left (by omega), Config.slice]
  have hblen : (cfg.slice q.off res.toNat).length = res.toNat := by
    rw [length_slice]
    omega
  -- the chunk of this request, with its move recorded
  have hmem : ∀ d, d ∈ spans (.done q res :: s.log) ↔
      d = { c with moved := res.toNat } ∨ d ∈ spans s.log ∧ d.off ≠ q.off := by
    intro d
    rw [spans_done_write hop, ← hoff]
    exact ha.tiles.mem_setMoved_iff hcm
  have hcov : ∀ p, (∃ d ∈ spans (.done q res :: s.log), d.Covers p) ↔
      (q.off ≤ p ∧ p < q.off + res.toNat) ∨ ∃ d ∈ spans s.log, d.Covers p := by
    intro p
    rw [spans_done_write hop, ← hoff]
    exact ha.tiles.exists_covers_setMoved_iff hcm hmoved _ _
  have hstay : ∀ {q' : Sqe}, q'.off ≠ q.off → ∀ {d}, d ∈ spans s.log → d.off = q'.off →
      d ∈ spans (.done q res :: s.log) := by
    intro q' hq' d hd hdo
    exact (hmem d).mpr (Or.inr ⟨hd, by rwa [hdo]⟩)
  constructor
  · rw [hpend]
    exact h.offs_nodup
  · intro q' hq'
    obtain ⟨d, hd, hdo, hrest⟩ := h.openSpan q' (hq'.imp_right (hsub q'))
    exact ⟨d, hstay (hne (hq'.imp_right Or.inl)).2 hd hdo, hdo, hrest⟩
  · intro x hx
    rcases List.mem_append.mp hx with hx | hx
    · obtain ⟨d, hd, hdo, hrest⟩ := h.doneSpan x hx
      exact ⟨d, hstay (hne (Or.inr (Or.inr ⟨x.2, hx⟩))).2 hd hdo, hdo, hrest⟩
    · obtain rfl := List.mem_singleton.mp hx
      exact ⟨{ c with moved := res.toNat }, (hmem _).mpr (Or.inl rfl), hoff, hlen,
        by rw [movedBy, hop]⟩
  · intro x hx
    rcases List.mem_append.mp hx with hx | hx
    · exact h.done_le x hx
    · obtain rfl := List.mem_singleton.mp hx
      exact hle
  · intro x hx hxop
    rcases List.mem_append.mp hx with hx | hx
    · exact h.read_buf x hx hxop
    · obtain rfl := List.mem_singleton.mp hx
      exact absurd hxop (by simp [hop])
  · intro q' hq' hop'
    exact h.write_buf q' (hq'.imp_right (hsub q')) hop'
  · intro d hd
    rcases (hmem d).mp hd with rfl | ⟨hd, _⟩
    · simp only
      omega
    · exact h.moved_le d hd
  · intro p
    simp only [hcov, hbytes]
    by_cases hp : q.off ≤ p ∧ p < q.off + res.toNat
    · rw [SparseFile.byte_write_of_mem (by rw [hblen]; exact hp), if_pos (Or.inl hp)]
      have hsrc := Nat.add_sub_cancel' hp.1
      rw [Config.slice, List.getElem?_take_of_lt (by omega), List.getElem?_drop, hsrc]
    · rw [SparseFile.byte_write_of_notMem (by rw [hblen]; exact hp), h.byte p]
      simp only [hp, false_or]
  · have hsize := SparseFile.le_size_write_of_moved (cfg.slice q.off res.toNat) ha.tiles hcm
      h.le_size
    rwa [hblen, hoff, ← spans_done_write hop res s.log, ← hbytes] at hsize
  · have hsize := SparseFile.size_write_of_moved (cfg.slice q.off res.toNat) ha.tiles hcm hmoved
      h.size_attained
    rwa [hblen, hoff, ← spans_done_write hop res s.log, ← hbytes] at hsize
  · have htotal := ha.tiles.total_setMoved hcm hmoved res.toNat
    rw [hoff] at htotal
    simp only [spans_done_write hop, htotal, List.map_append, List.sum_append, List.map_cons,
      List.map_nil, List.sum_singleton, movedBy, hop]
    have := h.copied
    omega

end Complete

theorem Moves.complete (h : Moves cfg s) (ha : Accounts cfg s) {i : ℕ} {res : ℤ} {t : State}
    (ht : complete cfg i res s = some t) : Moves cfg t := by
  obtain ⟨q, ring, hc, hle, hcase⟩ := complete_cases ht
  rcases hcase with ⟨hop, hfit, rfl⟩ | ⟨hop, rfl⟩
  · exact h.completeRead hc ha hle hop hfit _
  · exact h.completeWrite hc ha hle hop

/-! ## Priming -/

variable (cfg) in
/-- While the queue is primed nothing has been handed over. -/
structure Priming (s : State) : Prop where
  accounts : Accounts cfg s
  moves : Moves cfg s
  outstanding : s.ring.outstanding = []
  completed : s.ring.completed = []
  queued_read : ∀ q ∈ s.ring.queued, q.opcode = .read ∧ 0 < q.len
  queued_span : spans s.log = s.ring.queued.map fun q => ⟨q.off, q.len, 0⟩
  overrun : s.overrun = false
  phase : s.phase = .priming

theorem traced_nil : Traced cfg [] false where
  prep := by simp
  overrun := by simp
  unsynced := by simp

variable (cfg) in
theorem priming_blank : Priming cfg (blank cfg .priming) where
  accounts := {
    inflight := rfl
    slot_lt := by simp [blank]
    tag := by simp [blank]
    active := by simp [blank]
    slot_off := by simp [blank]
    slots_nodup := by simp [blank]
    tiles := rfl
    nextOff_le := Nat.zero_le _
    chunked := ⟨0, rfl, rfl⟩
    traced := traced_nil }
  moves := {
    offs_nodup := by simp [blank]
    openSpan := by simp [blank]
    doneSpan := by simp [blank]
    done_le := by simp [blank]
    read_buf := by simp [blank]
    write_buf := by simp [blank]
    moved_le := by simp [blank, spans]
    byte := by simp [blank, spans, SparseFile.empty]
    le_size := by simp [blank, spans]
    size_attained := Or.inl rfl
    copied := rfl }
  outstanding := rfl
  completed := rfl
  queued_read := by simp [blank]
  queued_span := rfl
  overrun := rfl
  phase := rfl

/-- Priming one slot that is still free. -/
theorem Priming.enqueueRead (h : Priming cfg s) (hblock : 0 < cfg.blockSize) {i : ℕ}
    (hi : i < cfg.qd) (hfree : ∀ q ∈ s.ring.pending, q.buf ≠ i)
    (hlt : s.nextOff < cfg.fileSize) :
    let t := enqueueRead cfg i (s.setActive i true)
    (Failed cfg t ∧ cfg.sqEntries ≤ s.ring.queued.length) ∨
      (Priming cfg t ∧ (∀ q ∈ t.ring.pending, q ∈ s.ring.pending ∨ q.buf = i) ∧
        0 < t.inflight ∧ t.ring.queued.length = s.ring.queued.length + 1) := by
  intro t
  have ha := h.accounts.setActive (b := true) hfree
  have hm := h.moves.setActive i true
  rcases enqueueRead_cases cfg i (s.setActive i true) with
    ⟨hfull, hout⟩ | ⟨hroom, heq⟩
  · exact Or.inl ⟨hout ha.traced, hfull⟩
  · refine Or.inr ⟨⟨?_, ?_, ?_, ?_, ?_, ?_, ?_, ?_⟩, ?_, ?_, ?_⟩
    · exact ha.enqueueRead hroom hblock hlt hi (by simp [State.setActive]) hfree
    · exact hm.enqueueRead hroom ha
    · show t.ring.outstanding = []
      rw [show t = _ from heq]
      exact h.outstanding
    · show t.ring.completed = []
      rw [show t = _ from heq]
      exact h.completed
    · intro q hq
      rw [show t = _ from heq] at hq
      rcases List.mem_append.mp hq with hq | hq
      · exact h.queued_read q hq
      · obtain rfl := List.mem_singleton.mp hq
        exact ⟨rfl, Sizing.want_pos hblock hlt _⟩
    · rw [show t = _ from heq]
      have hspan := h.queued_span
      simp only [spans, readSqe, List.map_append, List.map_cons, List.map_nil, State.setActive,
        hspan]
    · rw [show t = _ from heq]
      exact h.overrun
    · show t.phase = .priming
      rw [show t = _ from heq]
      exact h.phase
    · intro q hq
      rw [show t = _ from heq] at hq
      simp only [mem_pending, List.mem_append, List.mem_singleton] at hq
      rcases hq with (hq | rfl) | hq | ⟨res, hq⟩
      · exact Or.inl (mem_pending.mpr (Or.inl hq))
      · exact Or.inr rfl
      · exact Or.inl (mem_pending.mpr (Or.inr (Or.inl hq)))
      · exact Or.inl (mem_pending.mpr (Or.inr (Or.inr ⟨res, hq⟩)))
    · rw [show t = _ from heq]
      exact Nat.succ_pos _
    · rw [show t = _ from heq]
      exact List.length_append

/-- The priming loop ends with an error on its way, or with the invariant; and a
queue that was primed is not empty unless the file was read to its end. -/
theorem Priming.primeLoop (hblock : 0 < cfg.blockSize) : ∀ {is : List ℕ} {s : State},
    Priming cfg s → is.Nodup → (∀ i ∈ is, i < cfg.qd ∧ ∀ q ∈ s.ring.pending, q.buf ≠ i) →
    let t := primeLoop cfg is s
    (Failed cfg t ∧ cfg.sqEntries < s.ring.queued.length + is.length) ∨
      (Priming cfg t ∧ (is ≠ [] → s.nextOff < cfg.fileSize → 0 < t.inflight) ∧
        s.inflight ≤ t.inflight)
  | [], s, h, _, _ => Or.inr ⟨h, fun h => absurd rfl h, Nat.le_refl _⟩
  | i :: is, s, h, hnodup, hfree => by
    intro t
    obtain ⟨hi, his⟩ := List.nodup_cons.mp hnodup
    have hi' := hfree i List.mem_cons_self
    by_cases hlt : s.nextOff < cfg.fileSize
    · have ht : t = CopyPath.primeLoop cfg is (CopyPath.enqueueRead cfg i (s.setActive i true)) := by
        show CopyPath.primeLoop cfg (i :: is) s = _
        rw [CopyPath.primeLoop, if_pos ⟨hlt, h.phase⟩]
      rw [ht]
      rcases h.enqueueRead hblock hi'.1 hi'.2 hlt with ⟨hout, hfull⟩ | ⟨hp, hmem, hpos, hlen⟩
      · -- the loop stops at once: the phase is no longer `priming`
        refine Or.inl ⟨?_, by simp only [List.length_cons]; omega⟩
        cases is with
        | nil => exact hout
        | cons j js =>
          rw [CopyPath.primeLoop, if_neg (fun hand => by simp [hout.phase] at hand)]
          exact hout
      · have hle : s.inflight ≤ (CopyPath.enqueueRead cfg i (s.setActive i true)).inflight := by
          rcases enqueueRead_cases cfg i (s.setActive i true) with ⟨_, hout⟩ | ⟨_, heq⟩
          · exact absurd (hp.phase.symm.trans (hout h.accounts.traced).phase) (by simp)
          · rw [heq]
            exact Nat.le_succ _
        have hfree' : ∀ j ∈ is, j < cfg.qd ∧
            ∀ q ∈ (CopyPath.enqueueRead cfg i (s.setActive i true)).ring.pending, q.buf ≠ j := by
          intro j hj
          refine ⟨(hfree j (List.mem_cons_of_mem i hj)).1, ?_⟩
          intro q hq
          rcases hmem q hq with hq | hq
          · exact (hfree j (List.mem_cons_of_mem i hj)).2 q hq
          · rw [hq]
            rintro rfl
            exact hi hj
        rcases Priming.primeLoop hblock hp his hfree' with ⟨hout, hfull⟩ | ⟨hp', _, hle'⟩
        · exact Or.inl ⟨hout, by rw [hlen] at hfull; simp only [List.length_cons]; omega⟩
        · exact Or.inr ⟨hp', fun _ _ => Nat.lt_of_lt_of_le hpos hle', Nat.le_trans hle hle'⟩
    · have ht : t = s := by
        show CopyPath.primeLoop cfg (i :: is) s = s
        rw [CopyPath.primeLoop, if_neg (fun hand => hlt hand.1)]
      rw [ht]
      exact Or.inr ⟨h, fun _ hlt' => absurd hlt' hlt, Nat.le_refl _⟩

variable (cfg) in
/-- The loop is about to start: reads of the first chunks are outstanding, and
nothing else is. -/
structure Primed (s : State) : Prop where
  completed : s.ring.completed = []
  read : ∀ q ∈ s.ring.outstanding, q.opcode = .read ∧ 0 < q.len
  span : spans s.log = s.ring.outstanding.map fun q => ⟨q.off, q.len, 0⟩
  overrun : s.overrun = false
  inflight : 0 < cfg.qd → 0 < cfg.fileSize → 0 < s.inflight

/-- What the priming step leads to. -/
theorem prime_cases (hblock : 0 < cfg.blockSize) (r : ℤ) :
    let t := (primeLoop cfg (List.range cfg.qd) (blank cfg .priming)).andSubmit r
    (Failed cfg t ∧ (r < 0 ∨ cfg.sqEntries < cfg.qd)) ∨
      (Looping cfg t ∧ t.phase = .loop ∧ Primed cfg t) := by
  intro t
  rcases Priming.primeLoop hblock (priming_blank cfg) List.nodup_range
    (fun i hi => ⟨List.mem_range.mp hi, by simp [blank]⟩) with ⟨hout, hfull⟩ | ⟨hp, hpos, _⟩
  · have ht : t = CopyPath.primeLoop cfg (List.range cfg.qd) (blank cfg .priming) := by
      show State.andSubmit r _ = _
      rw [State.andSubmit, if_pos hout.phase]
    rw [ht]
    exact Or.inl ⟨hout, Or.inr (by simpa [blank] using hfull)⟩
  · have ht : t = (CopyPath.primeLoop cfg (List.range cfg.qd) (blank cfg .priming)).submit r := by
      show State.andSubmit r _ = _
      rw [State.andSubmit, if_neg (by simp [hp.phase])]
    rw [ht]
    rcases Int.lt_or_le r 0 with hr | hr
    · rw [submit_of_neg hr]
      exact Or.inl ⟨⟨rfl, hr, hp.accounts.traced⟩, Or.inl hr⟩
    · refine Or.inr ⟨looping_submit hp.accounts hp.moves hr, ?_, ?_⟩
      · rw [submit_of_nonneg hr]
      · rw [submit_of_nonneg hr]
        exact {
          completed := hp.completed
          read := by simpa [hp.outstanding] using hp.queued_read
          span := by simpa [hp.outstanding] using hp.queued_span
          overrun := hp.overrun
          inflight := fun hqd hsize => hpos (by simp; omega) hsize }

/-! ## One iteration -/

variable (cfg) in
/-- What handling the completion `(q, res)` without an error does to the ring and
to the counters: a read at the end of the file and a write
with nothing left to read retire their slot, a read leads to the write of what
was read, a write to the read of the next chunk. -/
inductive Handled (q : Sqe) (res : ℤ) (s t : State) : Prop where
  | readEof (hop : q.opcode = .read) (hres : res = 0) (hoff : t.nextOff = s.nextOff)
      (hcopied : t.copied = s.copied) (hring : t.ring = s.ring) (hover : t.overrun = s.overrun)
  | readData (hop : q.opcode = .read) (hres : 0 < res) (hoff : t.nextOff = s.nextOff)
      (hcopied : t.copied = s.copied)
      (hring : t.ring =
        ⟨[], s.ring.outstanding ++ [writeSqe q.buf res.toNat q.off], s.ring.completed⟩)
      (hover : t.overrun = s.overrun)
  | writeMore (hop : q.opcode = .write) (hlt : s.nextOff < cfg.fileSize)
      (hoff : t.nextOff = s.nextOff + cfg.sizing.want s.nextOff s.calls)
      (hcopied : t.copied = s.copied + res.toNat)
      (hring : t.ring = ⟨[], s.ring.outstanding ++
        [readSqe q.buf (cfg.sizing.want s.nextOff s.calls) s.nextOff], s.ring.completed⟩)
      (hover : t.overrun = s.overrun)
  | writeLast (hop : q.opcode = .write) (heof : cfg.fileSize ≤ s.nextOff)
      (hoff : t.nextOff = s.nextOff) (hcopied : t.copied = s.copied + res.toNat)
      (hring : t.ring = s.ring) (hover : t.overrun = s.overrun)

theorem looping_setActive (ha : Accounts cfg s) (hm : Moves cfg s) (hqueued : s.ring.queued = [])
    (hret : 0 ≤ s.ret) {i : ℕ} {b : Bool} (hfree : ∀ q ∈ s.ring.pending, q.buf ≠ i) :
    Looping cfg (s.setActive i b) :=
  ⟨ha.setActive hfree, hm.setActive i b, hqueued, hret⟩

variable (cfg) in
/-- What can stop the program while it handles a completion. -/
def Obstacle (res r : ℤ) (s : State) : Prop :=
  r < 0 ∨ res < 0 ∨ cfg.sqEntries ≤ s.ring.queued.length ∨ Cancels cfg

variable (cfg) in
/-- Handling a completion ends with an error on its way or with the invariant. -/
def Handles (q : Sqe) (res r : ℤ) (s t : State) : Prop :=
  (Failed cfg t ∧ Obstacle cfg res r s) ∨
    (Looping cfg t ∧ t.phase = .loop ∧ Handled cfg q res s t)

section Handle

variable {q : Sqe} {res r : ℤ} (ha : Accounts cfg s) (hq : Reaped cfg s q res)
  (hqueued : s.ring.queued = []) (hret : 0 ≤ s.ret) (hphase : s.phase = .loop)

include ha hq hqueued hret hphase

theorem handles_onRead (hm : Moves cfg s) (hop : q.opcode = .read) (hres : 0 ≤ res) :
    Handles cfg q res r s (onRead cfg q.buf res r s) := by
  rcases onRead_cases cfg q.buf res r s with
    ⟨h0, heq⟩ | ⟨hfull, heq⟩ | ⟨hne, heq⟩
  · rw [heq]
    exact Or.inr ⟨looping_setActive ha hm hqueued hret hq.free, hphase,
      .readEof hop h0 rfl rfl rfl rfl⟩
  · rw [heq]
    exact Or.inl ⟨⟨rfl, Errno.neg_lt _, ha.traced⟩, Or.inr (Or.inr (Or.inl hfull))⟩
  · have hpos : 0 < res := by omega
    rw [heq]
    rcases Int.lt_or_le r 0 with hr | hr
    · rw [submit_of_neg hr]
      exact Or.inl ⟨⟨rfl, hr, (ha.pushWrite hq).traced⟩, Or.inl hr⟩
    refine Or.inr ⟨looping_submit (ha.pushWrite hq) (hm.pushWrite hq hop hpos) hr, ?_,
      .readData hop hpos ?_ ?_ ?_ ?_⟩ <;> rw [submit_of_nonneg hr]
    · rfl
    · rfl
    · simp only [pushWrite, submit, hqueued, List.nil_append, hq.off_eq]
    · rfl

/-- The end of `onWrite`, after the write was counted and reported. -/
theorem handles_nextChunk {s₀ : State} (hring : s₀.ring = s.ring) (hoff : s₀.nextOff = s.nextOff)
    (hcalls : s₀.calls = s.calls) (hcopied : s.copied = s₀.copied + res.toNat)
    (hover : s.overrun = s₀.overrun) (hm : Moves cfg s) (hblock : 0 < cfg.blockSize)
    (hop : q.opcode = .write) :
    Handles cfg q res r s₀
      (if s.nextOff < cfg.fileSize then (enqueueRead cfg q.buf s).andSubmit r
        else s.setActive q.buf false) := by
  rcases Nat.lt_or_ge s.nextOff cfg.fileSize with hlt | hge
  · rw [if_pos hlt]
    rcases enqueueRead_cases cfg q.buf s with ⟨hfull, hout⟩ | ⟨hroom, heq⟩
    · rw [State.andSubmit, if_pos (hout ha.traced).phase]
      exact Or.inl ⟨hout ha.traced, Or.inr (Or.inr (Or.inl (hring ▸ hfull)))⟩
    · have hphase' : (enqueueRead cfg q.buf s).phase ≠ .out := by
        rw [heq]
        simp [hphase]
      rw [State.andSubmit, if_neg hphase']
      have ha' := ha.enqueueRead hroom hblock hlt hq.slot_lt hq.active hq.free
      have hm' := hm.enqueueRead (i := q.buf) hroom ha
      rcases Int.lt_or_le r 0 with hr | hr
      · rw [submit_of_neg hr]
        exact Or.inl ⟨⟨rfl, hr, ha'.traced⟩, Or.inl hr⟩
      · refine Or.inr ⟨looping_submit ha' hm' hr, ?_, .writeMore hop ?_ ?_ ?_ ?_ ?_⟩
        · rw [submit_of_nonneg hr]
        · rwa [hoff]
        · rw [submit_of_nonneg hr, heq, hoff, hcalls]
        · rw [submit_of_nonneg hr, heq, ← hcopied]
        · rw [submit_of_nonneg hr, heq, hoff, hcalls, hring]
          simp only [submit, hqueued, List.nil_append]
        · rw [submit_of_nonneg hr, heq, ← hover]
  · rw [if_neg (Nat.not_lt.mpr hge)]
    exact Or.inr ⟨looping_setActive ha hm hqueued hret hq.free, hphase,
      .writeLast hop (hoff ▸ hge) hoff.symm hcopied hring.symm hover⟩

theorem handles_onWrite (hm : Moves cfg { s with copied := s.copied + res.toNat })
    (hblock : 0 < cfg.blockSize) (hop : q.opcode = .write) :
    Handles cfg q res r s (onWrite cfg q.buf res r s) := by
  -- the state after counting and reporting the write
  obtain ⟨cancel, n, log, hlog, htr, hcancel, hrep⟩ := report_cases cfg { s with
    copied := s.copied + res.toNat }
  have ha₀ : Accounts cfg { s with copied := s.copied + res.toNat } := { ha with }
  have ha' := ha₀.report
  have hm' := hm.report
  rw [hrep] at ha' hm'
  simp only [onWrite, hrep]
  split
  · next hc =>
    exact Or.inl ⟨⟨rfl, Errno.neg_lt _, htr ha.traced⟩, Or.inr (Or.inr (Or.inr ⟨_, _, hcancel.mp hc⟩))⟩
  · have hspan : ∃ c ∈ spans log, c.off = q.off ∧ q.len ≤ c.len ∧ c.moved = movedBy (q, res) := by
      rw [hlog]
      exact hq.span
    exact @handles_nextChunk _ _ q res r ha' { hq with span := hspan } hqueued hret hphase s
      rfl rfl rfl rfl rfl hm' hblock hop

theorem handles_onCqe (hm : Moves cfg { s with copied := s.copied + movedBy (q, res) })
    (hblock : 0 < cfg.blockSize) :
    Handles cfg q res r s (onCqe cfg q.userData res r s) := by
  simp only [onCqe, hq.slot_eq]
  rw [if_neg (not_or.mpr ⟨Nat.not_le.mpr hq.slot_lt, by simp [hq.active]⟩)]
  rcases Int.lt_or_le res 0 with hneg | hpos
  · rw [if_pos hneg]
    exact Or.inl ⟨⟨rfl, hneg, ha.traced⟩, Or.inr (Or.inl hneg)⟩
  rw [if_neg (Int.not_lt.mpr hpos)]
  cases hop : q.opcode with
  | read =>
    rw [if_pos (hq.op_eq.mpr hop)]
    have hmoved : movedBy (q, res) = 0 := by rw [movedBy, hop]
    rw [hmoved] at hm
    exact handles_onRead ha hq hqueued hret hphase hm hop hpos
  | write =>
    have hmoved : movedBy (q, res) = res.toNat := by rw [movedBy, hop]
    rw [hmoved] at hm
    rw [if_neg fun hzero => by simp [hq.op_eq.mp hzero] at hop]
    exact handles_onWrite ha hq hqueued hret hphase hm hblock hop

end Handle

/-- The state in which a reaped completion is handled. -/
def afterReap (cs : List (Sqe × ℤ)) (w : ℤ) (s : State) : State :=
  { s with ring := { s.ring with completed := cs }, inflight := s.inflight - 1, ret := w }

/-- What an iteration does. -/
theorem iterate_cases (h : Looping cfg s) (hblock : 0 < cfg.blockSize) (hphase : s.phase = .loop)
    {w r : ℤ} {t : State} (ht : iterate cfg w r s = some t) :
    (Failed cfg t ∧ (w < 0 ∨ ∃ q res cs, s.ring.completed = (q, res) :: cs ∧
        Obstacle cfg res r (afterReap cs w s))) ∨
      ∃ q res cs, s.ring.completed = (q, res) :: cs ∧ Looping cfg t ∧ t.phase = .loop ∧
        Handled cfg q res (afterReap cs w s) t := by
  unfold iterate at ht
  rcases Int.lt_or_le w 0 with hw | hw
  · rw [if_pos hw] at ht
    rw [← Option.some.inj ht]
    exact Or.inl ⟨⟨rfl, hw, h.accounts.traced⟩, Or.inl hw⟩
  rw [if_neg (Int.not_lt.mpr hw)] at ht
  obtain ⟨⟨⟨q, res⟩, ring⟩, hreap, rfl⟩ := Option.map_eq_some_iff.mp ht
  have hq := reaped (w := w) hreap h.accounts h.moves
  have ha := h.accounts.reap (w := w) hreap
  have hm := h.moves.reap (w := w) hreap
  obtain ⟨cs, hcs, rfl⟩ := reap_eq_some.mp hreap
  have hqueued := h.queued
  rcases handles_onCqe (r := r) ha hq hqueued hw hphase hm hblock with
    ⟨hout, hobst⟩ | ⟨hloop, hph, hcase⟩
  · exact Or.inl ⟨hout, Or.inr ⟨q, res, cs, hcs, hobst⟩⟩
  · exact Or.inr ⟨q, res, cs, hcs, hloop, hph, hcase⟩

/-! ## The end of the loop -/

theorem Looping.idle (h : Looping cfg s) (h0 : s.inflight = 0) : s.ring.Idle := by
  have hcard := h.accounts.inflight
  rw [h0] at hcard
  exact pending_eq_zero.mp (Multiset.card_eq_zero.mp hcard.symm)

/-- Nothing is written past the end of the destination. -/
theorem Moves.byte_of_size_le (h : Moves cfg s) {p : ℕ} (hp : s.dst.size ≤ p) :
    s.dst.byte p = none := by
  rw [h.byte, if_neg]
  rintro ⟨c, hc, hcp⟩
  have h₁ := hcp.1
  have h₂ := hcp.2
  have := h.le_size c hc (by omega)
  omega

/-- What the code after the loop leaves. -/
theorem Looping.finished (h : Looping cfg s) (h0 : s.inflight = 0) (ok : Bool) {t : State}
    (hring : t.ring = s.ring) (hspans : spans t.log = spans s.log) (hoff : t.nextOff = s.nextOff)
    (hcalls : t.calls = s.calls) (hcopied : t.copied = s.copied)
    (hdst : t.dst = if ok then s.dst.truncate s.copied else s.dst)
    (htraced : ∃ log, Traced cfg log t.overrun ∧ (t.log = .fsync dfd :: log ∧ cfg.doFsync = true ∨
      t.log = log ∧ (cfg.doFsync = false ∨ cfg.fileSize = 0))) :
    Finished cfg t where
  idle := hring ▸ h.idle h0
  tiles := by rw [hspans, hoff]; exact h.accounts.tiles
  nextOff_le := hoff ▸ h.accounts.nextOff_le
  moved_le := by rw [hspans]; exact h.moves.moved_le
  copied := by
    have := h.moves.copied
    rw [(h.idle h0).2.2] at this
    rw [hspans, hcopied]
    exact this
  byte := by
    intro p hp
    rw [hspans, ← h.moves.byte p, hdst]
    rw [hcopied] at hp
    split
    · rcases Nat.lt_or_ge p s.dst.size with hlt | hge
      · exact SparseFile.byte_truncate hp hlt
      · rw [h.moves.byte_of_size_le hge]
        exact if_neg fun hand => absurd hand.2 (Nat.not_lt.mpr hge)
    · rfl
  size := by
    rw [hspans, hdst, hcopied]
    split
    · exact Or.inl rfl
    · exact Or.inr ⟨h.moves.le_size, h.moves.size_attained⟩
  chunked := by rw [hspans, hoff, hcalls]; exact h.accounts.chunked
  traced := htraced

/-- The loop's exit ends with an error on its way or finished. -/
theorem finish_cases (h : Looping cfg s) (h0 : s.inflight = 0) (ok : Bool) (e : Option Errno) :
    Failed cfg (finish cfg ok e s) ∧ e ≠ none ∨
      (finish cfg ok e s).phase = .out ∧ (finish cfg ok e s).ret = s.ret ∧
        Finished cfg (finish cfg ok e s) := by
  have htr := h.accounts.traced
  unfold finish
  by_cases hsync : cfg.doFsync = true
  · simp only [hsync, if_true]
    cases e with
    | some e =>
      refine Or.inl ⟨⟨rfl, Errno.neg_lt e, ?_⟩, by simp⟩
      cases ok <;> exact htr
    | none =>
      refine Or.inr ⟨rfl, by cases ok <;> rfl, ?_⟩
      cases ok
      · exact h.finished h0 false rfl rfl rfl rfl rfl rfl
          ⟨s.log, htr, Or.inl ⟨rfl, hsync⟩⟩
      · exact h.finished h0 true rfl rfl rfl rfl rfl rfl
          ⟨s.log, htr, Or.inl ⟨rfl, hsync⟩⟩
  · simp only [hsync]
    refine Or.inr ⟨rfl, by cases ok <;> rfl, ?_⟩
    cases ok
    · exact h.finished h0 false rfl rfl rfl rfl rfl rfl
        ⟨s.log, htr, Or.inr ⟨rfl, Or.inl (by simpa using hsync)⟩⟩
    · exact h.finished h0 true rfl rfl rfl rfl rfl rfl
        ⟨s.log, htr, Or.inr ⟨rfl, Or.inl (by simpa using hsync)⟩⟩

/-! ## Every state reached is good -/

theorem step_of_returned {r : ℤ} (h : s.phase = .returned r) (e : Event) :
    step cfg s e = none := by
  cases e <;> simp [step, h]

theorem entry_eq_priming (h : entry cfg = .priming) :
    0 < cfg.qd ∧ 0 < cfg.blockSize ∧ 0 < cfg.fileSize := by
  unfold entry at h
  split at h
  · exact absurd h (by simp)
  · next hpos =>
    obtain ⟨hqd, hblock⟩ := not_or.mp hpos
    refine ⟨Nat.pos_of_ne_zero hqd, Nat.pos_of_ne_zero hblock, Nat.pos_of_ne_zero ?_⟩
    intro hsize
    simp only [hsize, if_true] at h
    cases hs : cfg.setup.openSrc <;> simp only [hs, reduceCtorEq] at h
    cases hd : cfg.setup.openDst <;> simp only [hd, reduceCtorEq] at h
    cases hf : cfg.setup.fstat <;> simp only [hf, reduceCtorEq] at h

/-- Before priming the function has failed, or returned zero for an empty source. -/
theorem entry_cases (cfg : Config) :
    entry cfg = .priming ∨ (∃ r < 0, entry cfg = .returned r) ∨
      (entry cfg = .returned 0 ∧ cfg.fileSize = 0) := by
  unfold entry
  split
  · exact Or.inr (Or.inl ⟨_, Errno.neg_lt _, rfl⟩)
  cases cfg.setup.openSrc with
  | some e => exact Or.inr (Or.inl ⟨_, Errno.neg_lt e, rfl⟩)
  | none =>
    cases cfg.setup.openDst with
    | some e => exact Or.inr (Or.inl ⟨_, Errno.neg_lt e, rfl⟩)
    | none =>
      cases cfg.setup.fstat with
      | some e => exact Or.inr (Or.inl ⟨_, Errno.neg_lt e, rfl⟩)
      | none =>
        simp only
        split
        · next hsize => exact Or.inr (Or.inr ⟨rfl, hsize⟩)
        split
        · next hinit => exact Or.inr (Or.inl ⟨_, hinit, rfl⟩)
        split
        · exact Or.inr (Or.inl ⟨_, Errno.neg_lt _, rfl⟩)
        · exact Or.inl rfl

theorem finished_blank (h0 : cfg.fileSize = 0) (phase : Phase) :
    Finished cfg (blank cfg phase) where
  idle := ⟨rfl, rfl, rfl⟩
  tiles := rfl
  nextOff_le := Nat.zero_le _
  moved_le := by simp [blank, spans]
  copied := rfl
  byte := fun p hp => absurd hp (Nat.not_lt_zero p)
  size := Or.inl rfl
  chunked := ⟨0, rfl, rfl⟩
  traced := ⟨[], traced_nil, Or.inr ⟨rfl, Or.inr h0⟩⟩

theorem good_start : Good cfg (start cfg) := by
  rcases entry_cases cfg with h | ⟨r, hr, h⟩ | ⟨h, h0⟩ <;> rw [start, h]
  · exact rfl
  · exact Or.inl ⟨hr, traced_nil⟩
  · exact Or.inr ⟨rfl, finished_blank h0 _⟩

/-- The kernel's step keeps the loop's invariant. -/
theorem Looping.complete (h : Looping cfg s) {i : ℕ} {res : ℤ} {t : State}
    (ht : complete cfg i res s = some t) : Looping cfg t := by
  obtain ⟨q, ring, hc, _, hcase⟩ := complete_cases ht
  refine ⟨h.accounts.complete ht, h.moves.complete h.accounts ht, ?_, ?_⟩
  · obtain ⟨_, rfl⟩ := complete_eq_some.mp hc
    rcases hcase with ⟨_, _, rfl⟩ | ⟨_, rfl⟩ <;> exact h.queued
  · rcases hcase with ⟨_, _, rfl⟩ | ⟨_, rfl⟩ <;> exact h.ret

/-- The kernel's step changes neither the point the program is at nor what it
counts. -/
theorem complete_frame {i : ℕ} {res : ℤ} {t : State} (ht : complete cfg i res s = some t) :
    t.phase = s.phase ∧ t.ret = s.ret ∧ t.copied = s.copied ∧ t.nextOff = s.nextOff ∧
      t.inflight = s.inflight := by
  obtain ⟨q, ring, _, _, hcase⟩ := complete_cases ht
  rcases hcase with ⟨_, _, rfl⟩ | ⟨_, rfl⟩ <;> exact ⟨rfl, rfl, rfl, rfl, rfl⟩

/-- A request the kernel completes was outstanding. -/
theorem outstanding_ne_nil_of_complete {i : ℕ} {res : ℤ} {t : State}
    (ht : complete cfg i res s = some t) : s.ring.outstanding ≠ [] := by
  obtain ⟨q, ring, hc, _⟩ := complete_cases ht
  exact List.ne_nil_of_mem (mem_outstanding_of_complete hc)

/-! ## The steps -/

/-- Everything a step can do. -/
inductive Steps (cfg : Config) (s : State) : Event → State → Prop where
  | complete {i : ℕ} {res : ℤ} {t : State} (hrun : s.phase = .loop ∨ s.phase = .out)
      (hc : complete cfg i res s = some t) : Steps cfg s (.complete i res) t
  | prime {submitRet : ℤ} (hphase : s.phase = .priming) : Steps cfg s (.prime submitRet)
      ((primeLoop cfg (List.range cfg.qd) s).andSubmit submitRet)
  | iterate {waitRet submitRet : ℤ} {t : State} (hphase : s.phase = .loop) (hne : s.inflight ≠ 0)
      (hit : iterate cfg waitRet submitRet s = some t) : Steps cfg s (.iterate waitRet submitRet) t
  | finish {ftruncateOk : Bool} {fsyncErr : Option Errno} (hphase : s.phase = .loop)
      (hend : s.inflight = 0) :
      Steps cfg s (.finish ftruncateOk fsyncErr) (finish cfg ftruncateOk fsyncErr s)
  | cleanup (hphase : s.phase = .out) : Steps cfg s .cleanup { s with phase := .returned s.result }

theorem step_cases {e : Event} {t : State} (ht : step cfg s e = some t) : Steps cfg s e t := by
  cases e with
  | complete i res =>
    simp only [step] at ht
    cases hphase : s.phase <;> simp only [hphase, reduceCtorEq] at ht
    · exact .complete (Or.inl hphase) ht
    · exact .complete (Or.inr hphase) ht
  | prime submitRet =>
    obtain ⟨hphase, ht⟩ := Option.ite_none_right_eq_some.mp ht
    rw [← Option.some.inj ht]
    exact .prime hphase
  | iterate waitRet submitRet =>
    obtain ⟨⟨hphase, hne⟩, ht⟩ := Option.ite_none_right_eq_some.mp ht
    exact .iterate hphase hne ht
  | finish ftruncateOk fsyncErr =>
    obtain ⟨⟨hphase, hend⟩, ht⟩ := Option.ite_none_right_eq_some.mp ht
    rw [← Option.some.inj ht]
    exact .finish hphase hend
  | cleanup =>
    obtain ⟨hphase, ht⟩ := Option.ite_none_right_eq_some.mp ht
    rw [← Option.some.inj ht]
    exact .cleanup hphase

theorem Good.of_priming (h : Good cfg s) (hphase : s.phase = .priming) :
    s = blank cfg .priming := by
  simpa [Good, hphase] using h

theorem Good.of_loop (h : Good cfg s) (hphase : s.phase = .loop) : Looping cfg s := by
  simpa [Good, hphase] using h

theorem Good.of_out (h : Good cfg s) (hphase : s.phase = .out) :
    Failed cfg s ∨ 0 ≤ s.ret ∧ Finished cfg s := by
  simpa [Good, hphase] using h

theorem Looping.good (h : Looping cfg s) (hphase : s.phase = .loop) : Good cfg s := by
  simpa [Good, hphase] using h

theorem Failed.good (h : Failed cfg s) : Good cfg s := by
  simp only [Good, h.phase]
  exact Or.inl h

theorem good_step (hblock : 0 < cfg.blockSize) {e : Event} {t : State} (h : Good cfg s)
    (ht : step cfg s e = some t) : Good cfg t := by
  cases step_cases ht with
  | complete hrun hc =>
    obtain ⟨hph, hret, _⟩ := complete_frame hc
    rcases hrun with hphase | hphase
    · exact ((h.of_loop hphase).complete hc).good (hph.trans hphase)
    · rcases h.of_out hphase with hfail | ⟨_, hfin⟩
      · exact Failed.good ⟨hph.trans hphase, hret ▸ hfail.ret, hfail.traced.complete hc⟩
      · exact absurd hfin.idle.2.1 (outstanding_ne_nil_of_complete hc)
  | prime hphase =>
    rw [h.of_priming hphase]
    rcases prime_cases hblock _ with ⟨hfail, _⟩ | ⟨hloop, hph, _⟩
    · exact hfail.good
    · exact hloop.good hph
  | iterate hphase _ hit =>
    rcases iterate_cases (h.of_loop hphase) hblock hphase hit with
      ⟨hfail, _⟩ | ⟨_, _, _, _, hloop', hph, _⟩
    · exact hfail.good
    · exact hloop'.good hph
  | @finish ok e hphase hend =>
    have hloop := h.of_loop hphase
    rcases finish_cases hloop hend ok e with ⟨hfail, _⟩ | ⟨hph, hret, hfin⟩
    · exact hfail.good
    · simp only [Good, hph]
      exact Or.inr ⟨hret ▸ hloop.ret, hfin⟩
  | cleanup hphase =>
    rcases h.of_out hphase with hfail | ⟨hret, hfin⟩
    · rw [State.result, if_pos hfail.ret]
      exact Or.inl ⟨hfail.ret, hfail.traced⟩
    · rw [State.result, if_neg (Int.not_lt.mpr hret)]
      exact Or.inr ⟨rfl, { hfin with }⟩

/-- At every point the trace is one without a sync, or such a trace and the final
sync. -/
theorem Good.traced (h : Good cfg s) :
    ∃ log, Traced cfg log s.overrun ∧ (s.log = .fsync dfd :: log ∨ s.log = log) := by
  cases hphase : s.phase <;> simp only [Good, hphase] at h
  · exact ⟨[], h ▸ traced_nil, Or.inr (h ▸ rfl)⟩
  · exact ⟨s.log, h.accounts.traced, Or.inr rfl⟩
  · rcases h with hfail | ⟨_, hfin⟩
    · exact ⟨s.log, hfail.traced, Or.inr rfl⟩
    · obtain ⟨log, htr, hlog⟩ := hfin.traced
      exact ⟨log, htr, hlog.imp And.left And.left⟩
  · rcases h with ⟨_, htr⟩ | ⟨_, hfin⟩
    · exact ⟨s.log, htr, Or.inr rfl⟩
    · obtain ⟨log, htr, hlog⟩ := hfin.traced
      exact ⟨log, htr, hlog.imp And.left And.left⟩

/-- Every prepared request is no longer than one of the chunks. -/
theorem Good.prep (h : Good cfg s) {q : Sqe} (hq : Ev.prep q ∈ s.log) :
    ∃ k, cfg.sizing.offset k < cfg.fileSize ∧ q.len ≤ cfg.sizing.chunkLen k := by
  obtain ⟨log, htr, hlog | hlog⟩ := h.traced <;> rw [hlog] at hq
  · exact htr.prep q (by simpa using hq)
  · exact htr.prep q hq

theorem Good.overrun (h : Good cfg s) : s.overrun = false ↔
    ∀ q res, Ev.done q res ∈ s.log → q.opcode = .read → res.toNat ≤ cfg.maxBufferSize := by
  obtain ⟨log, htr, hlog | hlog⟩ := h.traced <;> rw [hlog]
  · simpa using htr.overrun
  · exact htr.overrun

open Trace

/-- **The invariant of the copy pipeline**, in every run and whatever the kernel
and the callbacks answer. -/
theorem good_reach {P : State → Event → Prop} (h : Reach (step cfg) P (start cfg) s) :
    Good cfg s := by
  rcases Nat.eq_zero_or_pos cfg.blockSize with h0 | hblock
  · -- the call fails at once, and a state that has returned does not move
    have hentry : ∃ r < 0, entry cfg = .returned r :=
      ⟨EINVAL.neg, Errno.neg_lt _, by rw [entry, if_pos (Or.inr h0)]⟩
    obtain ⟨r, hr, hentry⟩ := hentry
    rw [h.eq_of_stuck (step_of_returned (r := r) (by rw [start, hentry]; rfl))]
    exact good_start
  · exact h.invariant good_start fun t e u hgood _ hu => good_step hblock hgood hu

end CopyPath
end Native
end Pyuring
