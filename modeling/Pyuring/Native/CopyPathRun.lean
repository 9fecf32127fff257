import Pyuring.Native.CopyPathInvariant

/-!
# Copies that run to their end

How a copy ends when nothing goes wrong around it: the set-up succeeds, the
submission queue has room for `qd` entries, no system call fails and the progress
callback lets it go on.  What remains open is the kernel: it completes the
outstanding requests in any order, each with `pick q`.

Such a copy terminates and has by then reserved the whole source.  Nothing here
says that the requests are completed in full, only that something is moved each
time; a kernel that moves a single byte per request is one of the cases.

The measure weighs what is left to do: each byte not reserved yet counts more
than the read and the write it can lead to, an outstanding request counts more
than the same request completed, and a read more than the write that follows it.
-/

namespace Pyuring
namespace Native
namespace CopyPath

open CompletionRing Trace

variable (cfg : Config)

/-- Nothing around the copy goes wrong. -/
structure Undisturbed : Prop where
  setup : cfg.setup = .ok
  qd_pos : 0 < cfg.qd
  blockSize_pos : 0 < cfg.blockSize
  room : cfg.qd ≤ cfg.sqEntries
  progress : ¬ Cancels cfg

/-- No system call fails, and the kernel completes request `q` with `pick q`. -/
def Answers (pick : Sqe → ℕ) (s : State) : Event → Prop
  | .complete i res => ∀ q, s.ring.outstanding[i]? = some q → res = pick q
  | .prime submitRet => 0 ≤ submitRet
  | .iterate waitRet submitRet => 0 ≤ waitRet ∧ 0 ≤ submitRet
  | .finish _ fsyncErr => fsyncErr = none
  | .cleanup => True

instance (pick : Sqe → ℕ) (s : State) : ∀ e, Decidable (Answers pick s e)
  | .complete i res =>
    inferInstanceAs (Decidable (∀ q ∈ s.ring.outstanding[i]?, res = (pick q : ℤ)))
  | .prime submitRet => inferInstanceAs (Decidable (0 ≤ submitRet))
  | .iterate waitRet submitRet => inferInstanceAs (Decidable (0 ≤ waitRet ∧ 0 ≤ submitRet))
  | .finish _ fsyncErr => inferInstanceAs (Decidable (fsyncErr = none))
  | .cleanup => inferInstanceAs (Decidable True)

/-- A kernel that moves something, and no more than asked for. -/
structure Fair (pick : Sqe → ℕ) : Prop where
  pos : ∀ q, 0 < q.len → 0 < pick q
  le : ∀ q, 0 < q.len → pick q ≤ q.len

/-- No more is moved of a chunk than the slot buffers hold. -/
def Fits (pick : Sqe → ℕ) : Prop :=
  ∀ q k, cfg.sizing.offset k < cfg.fileSize → q.len ≤ cfg.sizing.chunkLen k →
    pick q ≤ cfg.maxBufferSize

def Returned (s : State) : Prop := ∃ r, s.phase = .returned r

/-- Every pending request asks for something and every completed one was given
`pick`, the loop does not run dry before the source is reserved, and a kernel
that completes requests in full has the reserved bytes copied or pending. -/
structure Lively (pick : Sqe → ℕ) (s : State) : Prop where
  len_pos : ∀ q ∈ s.ring.outstanding, 0 < q.len
  answered : ∀ x ∈ s.ring.completed, 0 < x.1.len ∧ x.2 = pick x.1
  more : s.nextOff < cfg.fileSize → 0 < s.inflight
  overrun : Fits cfg pick → s.overrun = false
  sum : (∀ q, pick q = q.len) → s.copied + (s.ring.pending.map Sqe.len).sum = s.nextOff

/-- The whole source was reserved. -/
structure Reserved (pick : Sqe → ℕ) (s : State) : Prop where
  nextOff : s.nextOff = cfg.fileSize
  overrun : Fits cfg pick → s.overrun = false
  copied : (∀ q, pick q = q.len) → s.copied = cfg.fileSize

/-- The invariant of an undisturbed copy. -/
def Running (pick : Sqe → ℕ) (s : State) : Prop :=
  Good cfg s ∧ match s.phase with
  | .priming => True
  | .loop => Lively cfg pick s
  | .out => 0 ≤ s.ret ∧ Reserved cfg pick s
  | .returned r => r = s.copied ∧ Reserved cfg pick s

/-! ## The measure -/

/-- What an outstanding request may still lead to. -/
def cost (q : Sqe) : ℕ :=
  match q.opcode with
  | .read => 4
  | .write => 2

def load (r : CompletionRing Sqe) : ℕ :=
  (r.outstanding.map cost).sum + (r.completed.map fun x => cost x.1 - 1).sum

def Phase.rank : Phase → ℕ
  | .priming => 3
  | .loop => 2
  | .out => 1
  | .returned _ => 0

def workLeft (s : State) : ℕ :=
  5 * (cfg.fileSize - s.nextOff) + load s.ring + s.phase.rank

variable {cfg} {pick : Sqe → ℕ} {s : State}

theorem cost_le (q : Sqe) : 2 ≤ cost q ∧ cost q ≤ 4 := by
  unfold cost
  split <;> omega

theorem load_complete {i : ℕ} {res : ℤ} {q : Sqe} {r r' : CompletionRing Sqe}
    (h : r.complete i res = some (q, r')) : load r = load r' + 1 := by
  obtain ⟨hq, rfl⟩ := complete_eq_some.mp h
  have hcost := cost_le q
  simp only [load, sum_map_eraseIdx hq cost, List.map_append, List.map_cons, List.map_nil,
    List.sum_append, List.sum_singleton]
  omega

theorem load_snoc (out : List Sqe) (q : Sqe) (cs : List (Sqe × ℤ)) :
    load ⟨[], out ++ [q], cs⟩ = load ⟨[], out, cs⟩ + cost q := by
  simp only [load, List.map_append, List.map_cons, List.map_nil, List.sum_append,
    List.sum_singleton]
  omega

theorem load_cons (r : CompletionRing Sqe) {q : Sqe} {res : ℤ} {cs : List (Sqe × ℤ)}
    (h : r.completed = (q, res) :: cs) :
    load r = load ⟨r.queued, r.outstanding, cs⟩ + (cost q - 1) := by
  simp only [load, h, List.map_cons, List.sum_cons]
  omega

/-! ## The loop makes progress -/

theorem Looping.inflight_pos (h : Looping cfg s) {q : Sqe} (hq : q ∈ s.ring.pending) :
    0 < s.inflight := by
  rw [h.accounts.inflight]
  exact Multiset.card_pos_iff_exists_mem.mpr ⟨q, hq⟩

theorem Primed.lively (h : Primed cfg s) (hloop : Looping cfg s)
    (hcfg : Undisturbed cfg) : Lively cfg pick s where
  len_pos q hq := (h.read q hq).2
  answered := by simp [h.completed]
  more hlt := h.inflight hcfg.qd_pos (by omega)
  overrun _ := h.overrun
  sum _ := by
    have hcopied := hloop.moves.copied
    have hlen := hloop.accounts.tiles.sum_len
    have hpend : s.ring.pending = s.ring.outstanding := by
      simp [pending, hloop.queued, h.completed]
    have htotal : Span.total (spans s.log) = 0 := by
      rw [h.span, Span.total_eq_zero]
      intro c hc
      obtain ⟨q, _, rfl⟩ := List.mem_map.mp hc
      rfl
    rw [h.completed, List.map_nil, List.sum_nil, htotal] at hcopied
    rw [h.span, List.map_map] at hlen
    rw [hpend, Multiset.map_coe, Multiset.sum_coe, ← hlen]
    show s.copied + (s.ring.outstanding.map Sqe.len).sum =
      0 + (s.ring.outstanding.map Sqe.len).sum
    omega

theorem Lively.complete (h : Lively cfg pick s) (hloop : Looping cfg s)
    {i : ℕ} {res : ℤ} {t : State} (ht : complete cfg i res s = some t)
    (hres : ∀ q, s.ring.outstanding[i]? = some q → res = pick q) : Lively cfg pick t := by
  obtain ⟨q, ring, hc, _, hcase⟩ := complete_cases ht
  have hpend := pending_complete hc
  have hout := mem_outstanding_of_complete hc
  obtain ⟨hq, rfl⟩ := complete_eq_some.mp hc
  obtain ⟨c, hcm, _, hlen, _⟩ := hloop.moves.openSpan q (Or.inr hout)
  obtain ⟨k, hk, hck⟩ := hloop.accounts.exists_chunk hcm
  have hpick := hres q hq
  have hlenpos : ∀ q' ∈ s.ring.outstanding.eraseIdx i, 0 < q'.len :=
    fun q' hq' => h.len_pos q' (List.mem_of_mem_eraseIdx hq')
  have hanswered : ∀ x ∈ s.ring.completed ++ [(q, res)], 0 < x.1.len ∧ x.2 = pick x.1 := by
    intro x hx
    rcases List.mem_append.mp hx with hx | hx
    · exact h.answered x hx
    · obtain rfl := List.mem_singleton.mp hx
      exact ⟨h.len_pos q hout, hpick⟩
  rcases hcase with ⟨_, _, rfl⟩ | ⟨_, rfl⟩
  · refine ⟨hlenpos, hanswered, h.more, ?_, ?_⟩
    · intro hfits
      have hle := hfits q k hk (hck ▸ hlen)
      simp only [h.overrun hfits, Bool.false_or, decide_eq_false_iff_not]
      omega
    · intro hall
      rw [hpend]
      exact h.sum hall
  · refine ⟨hlenpos, hanswered, h.more, h.overrun, ?_⟩
    intro hall
    rw [hpend]
    exact h.sum hall

/-- Handling a completion leaves less to do, whatever it moved. -/
theorem Handled.load_lt {t : State} {q : Sqe} {res w : ℤ} {cs : List (Sqe × ℤ)}
    (h : Handled cfg q res (afterReap cs w s) t) (hblock : 0 < cfg.blockSize)
    (hcs : s.ring.completed = (q, res) :: cs) (hqueued : s.ring.queued = [])
    (hle : t.nextOff ≤ cfg.fileSize) :
    5 * (cfg.fileSize - t.nextOff) + load t.ring <
      5 * (cfg.fileSize - s.nextOff) + load s.ring := by
  have hload := load_cons s.ring hcs
  have hcost := cost_le q
  cases h with
  | readEof _ _ hoff _ hring =>
    have hoff : t.nextOff = s.nextOff := hoff
    have hring : t.ring = ⟨s.ring.queued, s.ring.outstanding, cs⟩ := hring
    rw [hring, hoff]
    omega
  | readData hop _ hoff _ hring =>
    have hoff : t.nextOff = s.nextOff := hoff
    have hread : cost q = 4 := by rw [cost, hop]
    have hwrite : cost (writeSqe q.buf res.toNat q.off) = 2 := rfl
    rw [hring, load_snoc, hoff]
    simp only [afterReap, hload, hqueued]
    omega
  | writeMore _ hlt hoff _ hring =>
    have hwant : 0 < cfg.sizing.want s.nextOff s.calls := Sizing.want_pos hblock hlt _
    have hoff : t.nextOff = s.nextOff + cfg.sizing.want s.nextOff s.calls := hoff
    have hread : cost (readSqe q.buf (cfg.sizing.want s.nextOff s.calls) s.nextOff) = 4 := rfl
    rw [hring, load_snoc]
    simp only [afterReap, hload, hqueued]
    omega
  | writeLast _ _ hoff _ hring =>
    have hoff : t.nextOff = s.nextOff := hoff
    have hring : t.ring = ⟨s.ring.queued, s.ring.outstanding, cs⟩ := hring
    rw [hring, hoff]
    omega

/-! ## Leaving the loop -/

/-- What is outstanding and what is completed stay, and no reserved byte is given back. -/
structure Held (s t : State) : Prop where
  outstanding : t.ring.outstanding = s.ring.outstanding
  completed : t.ring.completed = s.ring.completed
  nextOff : s.nextOff ≤ t.nextOff

theorem Held.refl (s : State) : Held s s := ⟨rfl, rfl, Nat.le_refl _⟩

theorem Held.trans {t u : State} (h₁ : Held s t) (h₂ : Held t u) : Held s u :=
  ⟨h₂.outstanding.trans h₁.outstanding, h₂.completed.trans h₁.completed,
    Nat.le_trans h₁.nextOff h₂.nextOff⟩

theorem Held.load_eq {t : State} (h : Held s t) : load t.ring = load s.ring := by
  rw [load, h.outstanding, h.completed, load]

theorem held_enqueueRead (cfg : Config) (i : ℕ) (s : State) : Held s (enqueueRead cfg i s) := by
  unfold enqueueRead
  simp only
  split
  · exact ⟨rfl, rfl, Nat.le_refl _⟩
  · next hpush =>
    obtain ⟨-, rfl⟩ := push_eq_some.mp hpush
    exact ⟨rfl, rfl, Nat.le_add_right _ _⟩

theorem held_primeLoop (cfg : Config) : ∀ (is : List ℕ) (s : State), Held s (primeLoop cfg is s)
  | [], s => Held.refl s
  | i :: is, s => by
    rw [primeLoop]
    split
    · have hfirst : Held s (enqueueRead cfg i (s.setActive i true)) :=
        { held_enqueueRead cfg i (s.setActive i true) with }
      exact hfirst.trans (held_primeLoop cfg is _)
    · exact Held.refl s

theorem held_goOut (r : ℤ) (s : State) : Held s (s.goOut r) := ⟨rfl, rfl, Nat.le_refl _⟩

theorem held_submit {r : ℤ} : (s.submit r).phase = .out → Held s (s.submit r) := by
  rcases Int.lt_or_le r 0 with hr | hr
  · rw [submit_of_neg hr]
    exact fun _ => held_goOut r s
  · rw [submit_of_nonneg hr]
    exact fun hout => absurd hout (by simp)

theorem held_andSubmit {r : ℤ} : (s.andSubmit r).phase = .out → Held s (s.andSubmit r) := by
  unfold State.andSubmit
  split
  · exact fun _ => Held.refl s
  · exact held_submit

/-- A completion whose handling leaves for `out:` hands nothing over. -/
theorem held_onCqe {ud : UInt64} {res r : ℤ} (hphase : s.phase = .loop) :
    (onCqe cfg ud res r s).phase = .out → Held s (onCqe cfg ud res r s) := by
  unfold onCqe
  simp only
  split
  · exact fun _ => held_goOut _ s
  split
  · exact fun _ => held_goOut _ s
  split
  · rcases onRead_cases cfg (udSlot ud).toNat res r s with ⟨-, heq⟩ | ⟨-, heq⟩ | ⟨-, heq⟩ <;>
      rw [heq]
    · exact fun hout => absurd (hphase.symm.trans hout) (by simp)
    · exact fun _ => held_goOut _ s
    · have hpush : Held s (pushWrite (udSlot ud).toNat res s) := ⟨rfl, rfl, Nat.le_refl _⟩
      exact fun hout => hpush.trans (held_submit hout)
  · obtain ⟨cancel, n, log, -, -, -, hrep⟩ := report_cases cfg { s with
      copied := s.copied + res.toNat }
    simp only [onWrite, hrep]
    split
    · exact fun _ => ⟨rfl, rfl, Nat.le_refl _⟩
    split
    · have hread : Held s (enqueueRead cfg (udSlot ud).toNat
          { s with copied := s.copied + res.toNat, reports := n, log := log }) :=
        { held_enqueueRead cfg (udSlot ud).toNat
          { s with copied := s.copied + res.toNat, reports := n, log := log } with }
      exact fun hout => hread.trans (held_andSubmit hout)
    · exact fun hout => absurd (hphase.symm.trans hout) (by simp)

/-- An iteration that leaves for `out:` has reaped at most one completion. -/
theorem held_iterate {w r : ℤ} {t : State} (hphase : s.phase = .loop)
    (ht : iterate cfg w r s = some t) (hout : t.phase = .out) :
    load t.ring ≤ load s.ring ∧ s.nextOff ≤ t.nextOff := by
  unfold iterate at ht
  split at ht
  · rw [← Option.some.inj ht]
    exact ⟨Nat.le_refl _, Nat.le_refl _⟩
  obtain ⟨⟨⟨q, res⟩, ring⟩, hreap, rfl⟩ := Option.map_eq_some_iff.mp ht
  obtain ⟨cs, hcs, rfl⟩ := reap_eq_some.mp hreap
  have hload := load_cons s.ring hcs
  have hheld := held_onCqe (s := afterReap cs w s) hphase hout
  refine ⟨Nat.le_trans (Nat.le_of_eq hheld.load_eq) ?_, hheld.nextOff⟩
  simp only [afterReap]
  omega

/-- Each read primed covers at least one byte, and so pays for what it leads to. -/
theorem Primed.load_le (h : Primed cfg s) (hloop : Looping cfg s) :
    load s.ring ≤ 4 * s.nextOff := by
  have hload : load s.ring ≤ 4 * s.ring.outstanding.length := by
    have hcost : s.ring.outstanding.map cost = s.ring.outstanding.map fun _ => 4 :=
      List.map_congr_left fun q hq => by rw [cost, (h.read q hq).1]
    simp only [load, h.completed, hcost, List.map_nil, List.sum_nil, List.map_const',
      List.sum_replicate, Nat.nsmul_eq_mul]
    omega
  have hlen : s.ring.outstanding.length ≤ s.nextOff := by
    have hsum := hloop.accounts.tiles.sum_len
    rw [h.span, List.map_map] at hsum
    have hone := List.length_le_sum_of_one_le (s.ring.outstanding.map Sqe.len) fun n hn => by
      obtain ⟨q, hq, rfl⟩ := List.mem_map.mp hn
      exact (h.read q hq).2
    rw [List.length_map] at hone
    have hsum : 0 + (s.ring.outstanding.map Sqe.len).sum = s.nextOff := hsum
    omega
  omega

/-- **Every step leaves less to do**, also one that fails, and whatever the requests
moved. -/
theorem workLeft_lt (hblock : 0 < cfg.blockSize) (h : Good cfg s) {e : Event} {t : State}
    (ht : step cfg s e = some t) : workLeft cfg t < workLeft cfg s := by
  cases step_cases ht with
  | complete _ hc =>
    obtain ⟨hph, _, _, hoff, _⟩ := complete_frame hc
    obtain ⟨q, ring, hring, _, hcase⟩ := complete_cases hc
    have hload := load_complete hring
    have hring' : t.ring = ring := by rcases hcase with ⟨_, _, rfl⟩ | ⟨_, rfl⟩ <;> rfl
    simp only [workLeft, hph, hoff, hring']
    omega
  | @prime r hphase =>
    have hheld := held_primeLoop cfg (List.range cfg.qd) s
    have hs := h.of_priming hphase
    have hwork : workLeft cfg s = 5 * cfg.fileSize + 3 := by
      rw [hs]
      simp [workLeft, blank, load, CompletionRing.empty, Phase.rank]
    have hload : load s.ring = 0 := by
      rw [hs]
      rfl
    rw [hwork, hs]
    rcases prime_cases hblock r with ⟨hfail, -⟩ | ⟨hloop, hph, hprimed⟩
    · have hload' := ((hs ▸ hheld).trans (held_andSubmit hfail.phase)).load_eq
      rw [← hs, hload] at hload'
      rw [← hs] at hfail ⊢
      simp only [workLeft, hfail.phase, hload', Phase.rank]
      omega
    · have hload' := hprimed.load_le hloop
      have hle := hloop.accounts.nextOff_le
      simp only [workLeft, hph, Phase.rank]
      omega
  | @iterate w r t hphase _ hit =>
    have hloop := h.of_loop hphase
    rcases iterate_cases hloop hblock hphase hit with
      ⟨hfail, -⟩ | ⟨q, res, cs, hcs, hloop', hph, hcase⟩
    · obtain ⟨hload, hoff⟩ := held_iterate hphase hit hfail.phase
      simp only [workLeft, hfail.phase, hphase, Phase.rank]
      omega
    · have hlt := hcase.load_lt hblock hcs hloop.queued hloop'.accounts.nextOff_le
      simp only [workLeft, hph, hphase]
      omega
  | @finish ok e hphase _ =>
    have hframe : (finish cfg ok e s).nextOff = s.nextOff ∧ (finish cfg ok e s).ring = s.ring ∧
        (finish cfg ok e s).phase = .out := by
      unfold finish
      cases ok <;> cases cfg.doFsync <;> cases e <;> exact ⟨rfl, rfl, rfl⟩
    simp only [workLeft, hframe, hphase, Phase.rank]
    omega
  | cleanup hphase =>
    simp only [workLeft, hphase, Phase.rank]
    omega

/-- One iteration keeps the loop lively. -/
theorem Lively.handled (h : Lively cfg pick s) (hfair : Fair pick) (hblock : 0 < cfg.blockSize)
    {q : Sqe} {res w : ℤ} {cs : List (Sqe × ℤ)} (hcs : s.ring.completed = (q, res) :: cs)
    (hqueued : s.ring.queued = []) {t : State} (hloop : Looping cfg t)
    (ht : Handled cfg q res (afterReap cs w s) t) : Lively cfg pick t := by
  have hans := h.answered (q, res) (by rw [hcs]; exact List.mem_cons_self)
  have hlen : 0 < q.len := hans.1
  have hres : res = pick q := hans.2
  have hnat : res.toNat = pick q := by rw [hres]; exact Int.toNat_natCast _
  have hpos := hfair.pos q hlen
  have hcs' : ∀ x ∈ cs, 0 < x.1.len ∧ x.2 = pick x.1 :=
    fun x hx => h.answered x (by rw [hcs]; exact List.mem_cons_of_mem _ hx)
  have hpend := pending_reap (reap_eq_some.mpr ⟨cs, hcs, rfl⟩)
  have hsum : (∀ q, pick q = q.len) → s.copied + (q.len +
      ((⟨s.ring.queued, s.ring.outstanding, cs⟩ : CompletionRing Sqe).pending.map Sqe.len).sum) =
        s.nextOff := fun hall => by
    have := h.sum hall
    rwa [hpend, Multiset.map_cons, Multiset.sum_cons] at this
  -- what pushing the request `q'` after the reap does to the sum
  have hpush : ∀ q' : Sqe, ((⟨[], s.ring.outstanding ++ [q'], cs⟩ : CompletionRing Sqe).pending.map
      Sqe.len).sum = q'.len +
        ((⟨s.ring.queued, s.ring.outstanding, cs⟩ : CompletionRing Sqe).pending.map Sqe.len).sum := by
    intro q'
    simp only [pending, hqueued, Multiset.map_add, Multiset.sum_add, Multiset.map_coe,
      Multiset.sum_coe, List.map_append, List.map_cons, List.map_nil, List.sum_append,
      List.sum_singleton, Multiset.coe_nil, Multiset.map_zero, Multiset.sum_zero]
    omega
  have hmem : ∀ q' : Sqe, q' ∈
      (⟨[], s.ring.outstanding ++ [q'], cs⟩ : CompletionRing Sqe).pending :=
    fun q' => mem_pending.mpr (Or.inr (Or.inl (by simp)))
  have houtstanding : ∀ q' : Sqe, 0 < q'.len → ∀ p ∈ s.ring.outstanding ++ [q'], 0 < p.len := by
    intro q' hq' p hp
    rcases List.mem_append.mp hp with hp | hp
    · exact h.len_pos p hp
    · rwa [List.mem_singleton.mp hp]
  cases ht with
  | readEof _ hzero => omega
  | readData hop hres' hoff hcopied hring hover =>
    have hring : t.ring = ⟨[], s.ring.outstanding ++ [writeSqe q.buf res.toNat q.off], cs⟩ := hring
    have hwrite : 0 < (writeSqe q.buf res.toNat q.off).len := by
      simp only [writeSqe]
      omega
    refine ⟨?_, ?_, fun _ => hloop.inflight_pos (hring ▸ hmem _),
      fun hfits => hover.trans (h.overrun hfits), ?_⟩
    · rw [hring]
      exact houtstanding _ hwrite
    · rw [hring]
      exact hcs'
    · intro hall
      rw [hring, hpush, hcopied, hoff]
      simp only [writeSqe, hnat, hall q]
      exact hsum hall
  | writeMore hop hlt hoff hcopied hring hover =>
    have hwant : 0 < cfg.sizing.want s.nextOff s.calls := Sizing.want_pos hblock hlt _
    have hring : t.ring = ⟨[], s.ring.outstanding ++
      [readSqe q.buf (cfg.sizing.want s.nextOff s.calls) s.nextOff], cs⟩ := hring
    have hoff : t.nextOff = s.nextOff + cfg.sizing.want s.nextOff s.calls := hoff
    refine ⟨?_, ?_, fun _ => hloop.inflight_pos (hring ▸ hmem _),
      fun hfits => hover.trans (h.overrun hfits), ?_⟩
    · rw [hring]
      exact houtstanding _ hwant
    · rw [hring]
      exact hcs'
    · intro hall
      have := hsum hall
      rw [hring, hpush, hcopied, hoff, hnat, hall q]
      show s.copied + q.len + (cfg.sizing.want s.nextOff s.calls + _) = s.nextOff + _
      omega
  | writeLast hop heof hoff hcopied hring hover =>
    have hring : t.ring = ⟨s.ring.queued, s.ring.outstanding, cs⟩ := hring
    have heof : cfg.fileSize ≤ s.nextOff := heof
    have hoff : t.nextOff = s.nextOff := hoff
    refine ⟨?_, ?_, fun hlt => absurd hlt (by omega),
      fun hfits => hover.trans (h.overrun hfits), ?_⟩
    · rw [hring]
      exact h.len_pos
    · rw [hring]
      exact hcs'
    · intro hall
      have := hsum hall
      rw [hring, hcopied, hoff, hnat, hall q]
      show s.copied + q.len + _ = s.nextOff
      omega

/-! ## The run -/

theorem entry_of_undisturbed (h : Undisturbed cfg) :
    entry cfg = if cfg.fileSize = 0 then .returned 0 else .priming := by
  have hqd := h.qd_pos
  have hblock := h.blockSize_pos
  simp only [entry, h.setup, Setup.ok]
  rw [if_neg (by omega)]
  split
  · rfl
  · simp

theorem running_start (h : Undisturbed cfg) : Running cfg pick (start cfg) := by
  refine ⟨good_start, ?_⟩
  have hentry := entry_of_undisturbed h
  by_cases h0 : cfg.fileSize = 0
  · rw [start, hentry, if_pos h0]
    exact ⟨rfl, h0.symm, fun _ => rfl, fun _ => h0.symm⟩
  · rw [start, hentry, if_neg h0]
    trivial

theorem Running.looping (h : Running cfg pick s) (hphase : s.phase = .loop) :
    Looping cfg s ∧ Lively cfg pick s := by
  obtain ⟨hgood, hrun⟩ := h
  rw [hphase] at hrun
  exact ⟨hgood.of_loop hphase, hrun⟩

theorem Running.out (h : Running cfg pick s) (hphase : s.phase = .out) :
    0 ≤ s.ret ∧ Finished cfg s ∧ Reserved cfg pick s := by
  obtain ⟨hgood, hrun⟩ := h
  rw [hphase] at hrun
  rcases hgood.of_out hphase with hfail | ⟨hret, hfin⟩
  · exact absurd hfail.ret (Int.not_lt.mpr hrun.1)
  · exact ⟨hret, hfin, hrun.2⟩

/-- Nothing obstructs an iteration of an undisturbed copy. -/
theorem Lively.not_obstructed (h : Lively cfg pick s) (hloop : Looping cfg s)
    (hcfg : Undisturbed cfg) (hfair : Fair pick) {q : Sqe} {res w r : ℤ} {cs : List (Sqe × ℤ)}
    (hcs : s.ring.completed = (q, res) :: cs) (hr : 0 ≤ r) :
    ¬ Obstacle cfg res r (afterReap cs w s) := by
  obtain ⟨hlen, hres⟩ := h.answered (q, res) (by rw [hcs]; exact List.mem_cons_self)
  have hpos := hfair.pos q hlen
  have hres : res = pick q := hres
  rintro (hneg | hneg | hfull | hcancel)
  · exact absurd hneg (Int.not_lt.mpr hr)
  · omega
  · have hqd := hcfg.qd_pos
    have hroom := hcfg.room
    simp only [afterReap, hloop.queued, List.length_nil] at hfull
    omega
  · exact absurd hcancel hcfg.progress

/-- **The step of an undisturbed copy** keeps the invariant. -/
theorem Running.step (h : Running cfg pick s) (hcfg : Undisturbed cfg) (hfair : Fair pick)
    {e : Event} {t : State} (hans : Answers pick s e) (ht : step cfg s e = some t) :
    Running cfg pick t := by
  have hblock := hcfg.blockSize_pos
  have hgood := good_step hblock h.1 ht
  cases step_cases ht with
  | complete hrun hc =>
    rcases hrun with hphase | hphase
    · obtain ⟨hloop, hlive⟩ := h.looping hphase
      have hlive' := hlive.complete hloop hc hans
      exact ⟨hgood, by rw [(complete_frame hc).1, hphase]; exact hlive'⟩
    · obtain ⟨_, hfin, _⟩ := h.out hphase
      exact absurd hfin.idle.2.1 (outstanding_ne_nil_of_complete hc)
  | @prime r hphase =>
    have hs := h.1.of_priming hphase
    rw [hs] at hgood ⊢
    rcases prime_cases hblock r with ⟨_, hr | hroom⟩ | ⟨hloop, hph, hprimed⟩
    · exact absurd hr (Int.not_lt.mpr hans)
    · exact absurd hcfg.room (Nat.not_le.mpr hroom)
    · exact ⟨hgood, by rw [hph]; exact hprimed.lively hloop hcfg⟩
  | @iterate w r t hphase hne hit =>
    obtain ⟨hloop, hlive⟩ := h.looping hphase
    rcases iterate_cases hloop hblock hphase hit with
      ⟨_, hw | ⟨q, res, cs, hcs, hobst⟩⟩ | ⟨q, res, cs, hcs, hloop', hph, hcase⟩
    · exact absurd hw (Int.not_lt.mpr hans.1)
    · exact absurd hobst (hlive.not_obstructed hloop hcfg hfair hcs hans.2)
    · have hlive' := hlive.handled hfair hblock hcs hloop.queued hloop' hcase
      exact ⟨hgood, by rw [hph]; exact hlive'⟩
  | @finish ok e hphase hend =>
    obtain ⟨hloop, hlive⟩ := h.looping hphase
    have hnone : e = none := hans
    rcases finish_cases hloop hend ok e with ⟨_, hne⟩ | ⟨hph, hret, hfin⟩
    · exact absurd hnone hne
    · have hoff : s.nextOff = cfg.fileSize := by
        have hle := hloop.accounts.nextOff_le
        have hmore := hlive.more
        omega
      obtain ⟨hoff', hcopied', hover'⟩ : (finish cfg ok e s).nextOff = s.nextOff ∧
          (finish cfg ok e s).copied = s.copied ∧
          (finish cfg ok e s).overrun = s.overrun := by
        rw [hnone]
        unfold finish
        cases ok <;> cases cfg.doFsync <;> exact ⟨rfl, rfl, rfl⟩
      refine ⟨hgood, ?_⟩
      rw [hph]
      refine ⟨hret ▸ hloop.ret, hoff'.trans hoff, fun hfits => hover'.trans (hlive.overrun hfits), ?_⟩
      intro hall
      have hsum := hlive.sum hall
      rw [pending_eq_zero.mpr (hloop.idle hend)] at hsum
      rw [hcopied']
      simpa [hoff] using hsum
  | cleanup hphase =>
    obtain ⟨hret, _, hres⟩ := h.out hphase
    refine ⟨hgood, ?_, hres.nextOff, hres.overrun, hres.copied⟩
    rw [State.result, if_neg (Int.not_lt.mpr hret)]

/-- A copy that has not returned can move, whatever the kernel answers. -/
theorem Running.moves (h : Running cfg pick s) (hfair : Fair pick) (hs : ¬ Returned s) :
    ∃ e t, Answers pick s e ∧ CopyPath.step cfg s e = some t := by
  cases hphase : s.phase with
  | priming =>
    exact ⟨.prime 0, _, Int.le_refl 0, by rw [CopyPath.step, if_pos hphase]⟩
  | out => exact ⟨.cleanup, _, trivial, by rw [CopyPath.step, if_pos hphase]⟩
  | returned r => exact absurd ⟨r, hphase⟩ hs
  | loop =>
    obtain ⟨hloop, hlive⟩ := h.looping hphase
    rcases Nat.eq_zero_or_pos s.inflight with h0 | hpos
    · exact ⟨.finish true none, _, rfl, by rw [CopyPath.step, if_pos ⟨hphase, h0⟩]⟩
    cases hcs : s.ring.completed with
    | cons c cs =>
      obtain ⟨t, ht⟩ : ∃ t, CopyPath.step cfg s (.iterate 0 0) = some t := by
        rw [CopyPath.step, if_pos ⟨hphase, by omega⟩, iterate, if_neg (by omega),
          reap_eq_some.mpr ⟨cs, hcs, rfl⟩]
        exact ⟨_, rfl⟩
      exact ⟨.iterate 0 0, t, ⟨Int.le_refl 0, Int.le_refl 0⟩, ht⟩
    | nil =>
      -- nothing to reap, so some request is outstanding
      have hcard := hloop.accounts.inflight
      rw [card_pending, hloop.queued, hcs] at hcard
      simp only [List.length_nil] at hcard
      cases hout : s.ring.outstanding with
      | nil => simp [hout] at hcard; omega
      | cons q qs =>
        have hmem : q ∈ s.ring.outstanding := hout ▸ List.mem_cons_self
        have hlen := hlive.len_pos q hmem
        have hle := hfair.le q hlen
        obtain ⟨c, hc, hoff, hclen, _⟩ := hloop.moves.openSpan q (Or.inr hmem)
        have hbounds := hloop.accounts.tiles.bounds hc
        have hnext := hloop.accounts.nextOff_le
        have h0 : s.ring.outstanding[0]? = some q := by rw [hout]; rfl
        have hc : s.ring.complete 0 (pick q) = some (q, _) := complete_eq_some.mpr ⟨h0, rfl⟩
        have hans : Answers pick s (.complete 0 (pick q)) := fun q' hq' => by
          rw [Option.some.inj (h0.symm.trans hq')]
        obtain ⟨t, ht⟩ : ∃ t, CopyPath.step cfg s (.complete 0 (pick q)) = some t := by
          simp only [CopyPath.step, hphase, CopyPath.complete, hc]
          cases q.opcode with
          | read => exact ⟨_, if_pos ⟨by omega, by omega⟩⟩
          | write => exact ⟨_, if_pos (by omega)⟩
        exact ⟨.complete 0 (pick q), t, hans, ht⟩

theorem running_reach (hcfg : Undisturbed cfg) (hfair : Fair pick)
    (h : Reach (CopyPath.step cfg) (Answers pick) (start cfg) s) : Running cfg pick s :=
  h.invariant (running_start hcfg) fun _ _ _ hrun hans ht => hrun.step hcfg hfair hans ht

/-- **An undisturbed copy terminates.** -/
theorem terminates (hcfg : Undisturbed cfg) (hfair : Fair pick) :
    Terminates (CopyPath.step cfg) (Answers pick) Returned (start cfg) :=
  terminates_of_measure (workLeft cfg) (running_start hcfg)
    (fun _ _ _ hrun hans ht => hrun.step hcfg hfair hans ht)
    (fun _ _ _ hrun _ ht => workLeft_lt hcfg.blockSize_pos hrun.1 ht)
    (fun _ hrun hs => hrun.moves hfair hs)

end CopyPath
end Native
end Pyuring
