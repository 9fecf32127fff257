import Pyuring.Native.WriteManyfilesExact

/-!
# What is in the files

The buffer of a slot holds the pattern of the slot, and a chunk is written from the slot
that is free when its turn comes.  Slots are freed as writes complete, so the order of the
completions decides what is in the files, unless there is nothing to choose: there is one
slot only, there is a slot for every chunk, or nothing is written at all.

## What is proved

`deterministic_iff` says that these are the only cases.  For the others, `exists_slot_run`
has a run for every slot in which the first chunk that waits for a slot gets that one.  For
the first case the runs are runs of a deterministic relation (`Turn`) and come to the same
end; this is also true when the counter of the scan overflows.
-/

namespace Pyuring
namespace Native
namespace WriteManyfiles

open CompletionRing Trace

/-- The sizes that a call is asked for are the same. -/
structure SameSizes (cfg cfg' : Config) : Prop where
  nfiles : cfg'.nfiles = cfg.nfiles
  mbPerFile : cfg'.mbPerFile = cfg.mbPerFile
  blockSize : cfg'.blockSize = cfg.blockSize
  qd : cfg'.qd = cfg.qd

theorem SameSizes.refl (cfg : Config) : SameSizes cfg cfg := ⟨rfl, rfl, rfl, rfl⟩

variable (cfg : Config)

/-- Any two undisturbed calls with these sizes leave the same files. -/
def Deterministic : Prop :=
  ∀ cfg', SameSizes cfg cfg' → Undisturbed cfg' → ∀ s s',
    Reach (step cfg) (Answers cfg) (start cfg) s → Returned s →
    Reach (step cfg') (Answers cfg') (start cfg') s' → Returned s' →
    ∀ f < cfg.nfiles, s'.files f = s.files f

variable {cfg} {s t : State}

/-! ## Bytes and chunks -/

theorem rounds_grow (hrounds : Relation.ReflTransGen (Round cfg) s t) :
    prepped s.log <+: prepped t.log := by
  induction hrounds with
  | refl => exact List.prefix_rfl
  | tail _ hround ih =>
    cases hround
    exact ih.trans (List.prefix_append _ _)

/-- What has been prepared is not forgotten. -/
theorem Moves.prepped_grows (hmove : Moves cfg s t) : prepped s.log <+: prepped t.log := by
  cases hmove with
  | @fill u _ _ _ _ hrounds => exact (rounds_grow hrounds : _ <+: prepped u.log)
  | finish _ hl => rw [(prepped_dones_of_fsyncs s.log hl).1]
  | complete => exact List.prefix_rfl
  | leave => exact List.prefix_rfl
  | wait => exact List.prefix_rfl
  | nothing => exact List.prefix_rfl
  | reap => exact List.prefix_rfl
  | cleanup => exact List.prefix_rfl

/-- A file at the end: it is as long as what was asked for, and each of its bytes is there as
the slot of its chunk has it. -/
structure Content (s : State) : Prop where
  size : ∀ f, (s.files f).size = s.fileOff f
  outside : ∀ f p, s.fileOff f ≤ p → (s.files f).byte p = none
  chunk : ∀ q ∈ prepped s.log, ∀ k < q.len,
    (s.files q.file).byte (q.off + k) = some (UInt8.ofNat (97 + (q.buf + k) % 26))

theorem Running.content (h : Running cfg s) (hret : Returned s) : Content s := by
  obtain ⟨r, hret⟩ := hret
  have hidle := (h.returned_eq hret).2
  have hsettled := fun f => h.books.ledger.settled length_pattern hidle (h.books.tiles f)
  refine ⟨?_, ?_, ?_⟩
  · intro f
    rw [h.books.files]
    exact (hsettled f).1
  · intro f p hp
    rw [h.books.files]
    exact (hsettled f).2.2.1 p hp
  · intro q hq k hk
    rw [h.books.files, (hsettled q.file).2.2.2 q hq rfl k hk, getElem?_pattern hk]

/-- Every byte lies in a chunk on the grid of the blocks. -/
theorem Running.exists_chunk (h : Running cfg s) {f p : ℕ} (hp : p < s.fileOff f) :
    ∃ q ∈ prepped s.log, q.file = f ∧ q.off = cfg.blockSize * (p / cfg.blockSize) ∧
      p % cfg.blockSize < q.len := by
  obtain ⟨c, hc, hle, hlt⟩ := (h.books.tiles f).exists_mem (Nat.zero_le p) hp
  obtain ⟨q, hq, rfl⟩ := List.mem_map.mp hc
  obtain ⟨hq, hfile⟩ := List.mem_filter.mp hq
  obtain ⟨-, -, -, ⟨n, hn⟩, hlen, -⟩ := h.books.write q hq
  have hwant : q.len ≤ cfg.blockSize := by
    rw [hlen, Config.want]
    split <;> omega
  simp only at hle hlt
  have hdiv : p / cfg.blockSize = n := by
    refine Nat.div_eq_of_lt_le ?_ ?_
    · rw [Nat.mul_comm]
      omega
    · rw [Nat.mul_comm, Nat.mul_add, Nat.mul_one]
      omega
  have hsplit := Nat.div_add_mod p cfg.blockSize
  rw [hdiv] at hsplit
  exact ⟨q, hq, by simpa using hfile, by rw [hdiv, hn], by omega⟩

/-! ## One slot -/

/-- What the scan round the files depends on. -/
def State.core (s : State) : (ℕ → ℕ) × (ℕ → Bool) × ℕ × ℕ :=
  (s.fileOff, s.fileDone, s.doneFiles, s.rr)

/-- A write that is made while no other is in flight. -/
def Turn (cfg : Config) (c d : (ℕ → ℕ) × (ℕ → Bool) × ℕ × ℕ) : Prop :=
  ∑ f ∈ Finset.range cfg.nfiles, c.1 f < cfg.totalBytes ∧
    ∃ s t x, s.core = c ∧ t.core = d ∧ s.doneFiles < cfg.nfiles ∧
      pick cfg cfg.nfiles s = (some x, t)

theorem pick_core {cfg' : Config} (hsizes : SameSizes cfg cfg') : ∀ (n : ℕ) {s t : State},
    s.core = t.core → (pick cfg' n t).1 = (pick cfg n s).1 ∧
      (pick cfg' n t).2.core = (pick cfg n s).2.core
  | 0, s, t, h => ⟨rfl, h.symm⟩
  | n + 1, s, t, h => by
    have hper : cfg'.perFileBytes = cfg.perFileBytes := by
      rw [Config.perFileBytes, hsizes.mbPerFile, Config.perFileBytes]
    simp only [State.core, Prod.mk.injEq] at h
    obtain ⟨hoff, hdone, hcount, hrr⟩ := h
    simp only [pick, hsizes.nfiles, hsizes.blockSize, hper, hoff, hdone, hcount, hrr]
    split
    · exact pick_core hsizes n rfl
    split
    · exact pick_core hsizes n rfl
    · split <;> split <;> exact ⟨rfl, by simp [State.core]⟩

theorem turn_rightUnique : Relator.RightUnique (Turn cfg) := by
  rintro c d d' ⟨-, s, t, x, rfl, rfl, -, heq⟩ ⟨-, s', t', x', hcore, rfl, -, heq'⟩
  have hsame := (pick_core (.refl cfg) cfg.nfiles hcore).2
  rwa [heq, heq'] at hsame

/-- Turns depend on the sizes only. -/
theorem Turn.congr {cfg' : Config} (hsizes : SameSizes cfg cfg')
    {c d : (ℕ → ℕ) × (ℕ → Bool) × ℕ × ℕ} (h : Turn cfg' c d) : Turn cfg c d := by
  obtain ⟨hsum, s, t, x, rfl, rfl, hundone, heq⟩ := h
  have hper : cfg'.totalBytes = cfg.totalBytes := by
    simp only [Config.totalBytes, Config.perFileBytes, hsizes.mbPerFile, hsizes.nfiles]
  rw [hsizes.nfiles, hper] at hsum
  rw [hsizes.nfiles] at hundone heq
  obtain ⟨hfound, hcore⟩ := pick_core hsizes cfg.nfiles (rfl : s.core = s.core)
  rw [heq] at hfound hcore
  exact ⟨hsum, s, _, x, rfl, hcore.symm, hundone, Prod.ext hfound.symm rfl⟩

def Ended (s : State) : Prop := s.phase = .tail ∨ s.phase = .out ∨ Returned s

/-- With one slot the writes are made one after the other. -/
structure Single (cfg : Config) (s : State) : Prop where
  head : s.phase = .head → s.inflight = 0
  turns : ∃ c, Relation.ReflTransGen (Turn cfg) (start cfg).core c ∧ c.1 = s.fileOff ∧
    (¬ Ended s → c = s.core) ∧ (Ended s → ∀ d, ¬ Turn cfg c d)

theorem not_ended_of_head (h : s.phase = .head) : ¬ Ended s := by
  simp [Ended, Returned, h]

theorem single_start (hcfg : Undisturbed cfg) : Single cfg (start cfg) := by
  exact ⟨fun _ => rfl, _, .refl, rfl, fun _ => rfl,
    fun hend => absurd hend (not_ended_of_head hcfg.phase_start)⟩

/-- The loop does not go on: nothing is left to be counted, or to be found. -/
theorem not_turn_of_stop (hstop : cfg.totalBytes ≤ ∑ f ∈ Finset.range cfg.nfiles, s.fileOff f ∨
    cfg.nfiles ≤ s.doneFiles ∨ (pick cfg cfg.nfiles s).1 = none) (d) : ¬ Turn cfg s.core d := by
  rintro ⟨hsum, u, t, x, hcore, -, hundone, heq⟩
  have hcore' := hcore
  simp only [State.core, Prod.mk.injEq] at hcore'
  rcases hstop with hbytes | hdone | hnone
  · exact absurd hsum (Nat.not_lt.mpr hbytes)
  · omega
  · have hfound := (pick_core (.refl cfg) cfg.nfiles hcore).1
    rw [heq, hnone] at hfound
    exact absurd hfound (by simp)

/-- With one slot the head of the loop makes one write, or the loop ends. -/
theorem Single.fill (h : Single cfg s) (hqd : cfg.qd = 1)
    (hrun : Running cfg s) (hphase : s.phase = .head) (hcont : s.Continues cfg) {u : State}
    {rr : ℕ} {ret : ℤ} (hrounds : Relation.ReflTransGen (Round cfg) s u)
    (hex : Exhausted cfg u rr) :
    Single cfg (State.awaitAny { u with rr := rr, ring := u.ring.submit, ret := ret }) := by
  have hzero := h.head hphase
  have hidle := (hrun.good.looping (Or.inl hphase)).idle hzero
  have hfree := hrun.books.plan.length_freeSlots
  rw [pending_eq_zero.mpr hidle, Multiset.card_zero, Nat.add_zero, hqd] at hfree
  obtain ⟨slot, hslot⟩ := List.length_eq_one_iff.mp hfree
  obtain ⟨c, hturns, -, hcore, -⟩ := h.turns
  obtain rfl := hcore (not_ended_of_head hphase)
  rcases hrounds.cases_head with rfl | ⟨w, hround, hrounds⟩
  · -- no file was found
    have hstop : cfg.nfiles ≤ s.doneFiles ∨ (pick cfg cfg.nfiles s).1 = none := by
      rcases hex with ⟨hnil | hdone, -⟩ | hmiss
      · rw [hslot] at hnil
        exact absurd hnil (by simp)
      · exact Or.inl hdone
      · exact Or.inr (by rw [hmiss.eq])
    have htail : State.awaitAny { s with rr := rr, ring := s.ring.submit, ret := ret } =
        { s with rr := rr, ring := s.ring.submit, ret := ret, phase := .tail } := by
      simp only [State.awaitAny, hzero, if_true]
    rw [htail]
    exact ⟨by simp, _, hturns, rfl, fun hnot => absurd (Or.inl rfl) hnot,
      fun _ => not_turn_of_stop (Or.inr hstop)⟩
  · cases hround with
    | @queue slot' rest f rr' hfree' hundone hpicks =>
      rw [hslot] at hfree'
      obtain ⟨rfl, rfl⟩ := List.cons.inj hfree'
      -- the only slot is taken
      have hlast : s.queue cfg slot [] f rr' = u := by
        rcases hrounds.cases_head with heq | ⟨v, hround, -⟩
        · exact heq
        · cases hround with
          | queue hnil => exact absurd hnil (by simp [State.queue])
      subst hlast
      obtain ⟨-, rfl⟩ := hex.resolve_right fun hmiss => hmiss.free rfl
      have hturn : Turn cfg s.core (s.queue cfg slot [] f rr).core := by
        have hlt := hcont.resolve_right (not_not.mpr hzero)
        rw [hrun.books.written_eq hidle] at hlt
        exact ⟨hlt, s, { s.take cfg f with rr := rr }, _, rfl, rfl, hundone, hpicks.eq⟩
      rcases awaitAny_cases { s.queue cfg slot [] f rr with
        rr := rr, ring := (s.queue cfg slot [] f rr).ring.submit, ret := ret } with
        ⟨hone, -⟩ | ⟨-, heq⟩
      · exact absurd hone (Nat.succ_ne_zero s.inflight)
      · rw [heq]
        exact ⟨by simp, _, hturns.tail hturn, rfl, fun _ => rfl,
          fun hend => absurd hend (by simp [Ended, Returned])⟩

/-- With one slot, at most one write is in flight. -/
theorem inflight_le_one (hqd : cfg.qd = 1) (h : Running cfg s) (hloop : Looping s) :
    s.inflight ≤ 1 := by
  have hfree := h.books.plan.length_freeSlots
  have hcount := hloop.accounts.inflight
  omega

theorem Single.moves (h : Single cfg s) (hqd : cfg.qd = 1)
    (hrun : Running cfg s) (hmove : Moves cfg s t) : Single cfg t := by
  obtain ⟨c, hturns, hoff, hcore, hstop⟩ := h.turns
  cases hmove with
  | complete => exact ⟨h.head, c, hturns, hoff, hcore, hstop⟩
  | fill hphase hcont hrounds hex => exact h.fill hqd hrun hphase hcont hrounds hex
  | leave hphase hstops =>
    obtain ⟨hwritten, hzero⟩ := not_or.mp hstops
    obtain rfl := hcore (not_ended_of_head hphase)
    have hidle := (hrun.good.looping (Or.inl hphase)).idle (not_not.mp hzero)
    rw [hrun.books.written_eq hidle, Nat.not_lt] at hwritten
    exact ⟨by simp, _, hturns, rfl, fun hnot => absurd (Or.inl rfl) hnot,
      fun _ => not_turn_of_stop (Or.inl hwritten)⟩
  | wait hphase =>
    obtain rfl := hcore (by simp [Ended, Returned, hphase])
    exact ⟨by simp, _, hturns, rfl, fun _ => rfl,
      fun hend => absurd hend (by simp [Ended, Returned])⟩
  | nothing hphase =>
    obtain rfl := hcore (by simp [Ended, Returned, hphase])
    exact ⟨by simp, _, hturns, rfl, fun _ => rfl,
      fun hend => absurd hend (by simp [Ended, Returned])⟩
  | @reap n ret hphase hpos hle =>
    obtain rfl := hcore (by rcases hphase with hp | hp <;> simp [Ended, Returned, hp])
    have hone := inflight_le_one hqd hrun (hrun.good.looping (by tauto))
    refine ⟨?_, _, hturns, rfl, fun _ => rfl,
      fun hend => absurd hend (by simp [Ended, Returned, State.reaped])⟩
    intro _
    change s.inflight - n = 0
    omega
  | finish hphase =>
    exact ⟨by simp, c, hturns, hoff, fun hnot => absurd (Or.inr (Or.inl rfl)) hnot,
      fun _ => hstop (Or.inl hphase)⟩
  | cleanup hphase =>
    exact ⟨by simp, c, hturns, hoff, fun hnot => absurd (Or.inr (Or.inr ⟨_, rfl⟩)) hnot,
      fun _ => hstop (Or.inr (Or.inl hphase))⟩

theorem single_reach (hcfg : Undisturbed cfg) (hqd : cfg.qd = 1)
    (h : Reach (step cfg) (Answers cfg) (start cfg) s) : Single cfg s := by
  have hinv := h.invariant (I := fun s => Running cfg s ∧ Single cfg s)
    ⟨running_start hcfg, single_start hcfg⟩ fun _ _ _ hu hans hv =>
      ⟨hu.1.step hcfg hans hv, hu.2.moves hqd hu.1 (moves_of_step hcfg hu.1 hans hv)⟩
  exact hinv.2

/-- A deterministic relation leads to one end only. -/
theorem eq_of_stuck {α : Type*} {R : α → α → Prop} (hdet : Relator.RightUnique R) {a b c : α}
    (hab : Relation.ReflTransGen R a b) (hac : Relation.ReflTransGen R a c)
    (hb : ∀ d, ¬ R b d) (hc : ∀ d, ¬ R c d) : b = c := by
  rcases Relation.ReflTransGen.total_of_right_unique hdet hab hac with hbc | hcb
  · exact (hbc.cases_head.resolve_right fun ⟨d, hbd, _⟩ => hb d hbd)
  · exact (hcb.cases_head.resolve_right fun ⟨d, hcd, _⟩ => hc d hcd).symm

/-- With one slot two calls ask for the same. -/
theorem fileOff_eq_of_single {cfg' : Config} (hsizes : SameSizes cfg cfg')
    (h : Single cfg s) (hret : Returned s) (h' : Single cfg' t) (hret' : Returned t) :
    t.fileOff = s.fileOff := by
  obtain ⟨c, hturns, hoff, -, hstop⟩ := h.turns
  obtain ⟨c', hturns', hoff', -, hstop'⟩ := h'.turns
  have hsizes' : SameSizes cfg' cfg :=
    ⟨hsizes.nfiles.symm, hsizes.mbPerFile.symm, hsizes.blockSize.symm, hsizes.qd.symm⟩
  have hturns'' : Relation.ReflTransGen (Turn cfg) (start cfg).core c' :=
    Relation.ReflTransGen.mono (fun _ _ hturn => Turn.congr hsizes hturn) _ _ hturns'
  have heq := eq_of_stuck turn_rightUnique hturns hturns'' (hstop (Or.inr (Or.inr hret)))
    fun d hturn => hstop' (Or.inr (Or.inr hret')) d (hturn.congr hsizes')
  rw [← hoff, ← hoff', heq]

/-! ## Filling the slots -/

/-- The slots are taken from the highest to the lowest, until none is left. -/
structure Filling (cfg : Config) (s : State) : Prop where
  regular : Regular cfg s
  table : Table cfg s
  le : (prepped s.log).length ≤ cfg.qd
  free : s.freeSlots = (List.range (cfg.qd - (prepped s.log).length)).reverse
  bufs : ∀ i q, (prepped s.log)[i]? = some q → q.buf = cfg.qd - 1 - i

theorem filling_start (hcfg : Undisturbed cfg) : Filling cfg (start cfg) :=
  ⟨regular_start, (books_start hcfg.pos.2.1).table, Nat.zero_le _, rfl,
    by simp [start, blank, prepped]⟩

theorem Filling.round (h : Filling cfg s) (hcfg : Undisturbed cfg) (hround : Round cfg s t) :
    Filling cfg t := by
  have htable := hround.table h.table
  have hregular := fun hlt => h.regular.round hcfg h.table hlt hround
  cases hround with
  | @queue slot rest f rr hfree hundone hpicks =>
    have hfree' := hfree
    rw [h.free] at hfree'
    obtain ⟨n, hn⟩ : ∃ n, cfg.qd - (prepped s.log).length = n + 1 := by
      refine Nat.exists_eq_add_one.mpr (Nat.pos_of_ne_zero ?_)
      intro hzero
      rw [hzero] at hfree'
      exact absurd hfree' (by simp)
    rw [hn, List.range_succ, List.reverse_append, List.reverse_singleton,
      List.singleton_append] at hfree'
    obtain ⟨rfl, rfl⟩ := List.cons.inj hfree'
    have hqd := cfg.qd_lt
    refine ⟨hregular (by omega), htable, ?_, ?_, ?_⟩
    · simp only [State.queue, prepped, List.length_append, List.length_singleton]
      omega
    · simp only [State.queue, prepped, List.length_append, List.length_singleton]
      rw [show cfg.qd - ((prepped s.log).length + 1) = n from by omega]
    · intro i q hq
      rw [State.queue, prepped] at hq
      rcases Nat.lt_trichotomy i (prepped s.log).length with hi | rfl | hi
      · exact h.bufs i q (by rwa [List.getElem?_append_left hi] at hq)
      · rw [List.getElem?_concat_length] at hq
        rw [← Option.some.inj hq]
        simp only [writeSqe]
        omega
      · rw [List.getElem?_eq_none (by simpa using hi)] at hq
        exact absurd hq (by simp)

theorem Filling.rounds (h : Filling cfg s) (hcfg : Undisturbed cfg)
    (hrounds : Relation.ReflTransGen (Round cfg) s t) : Filling cfg t :=
  rounds_keep (fun hfilling => hfilling.round hcfg) hrounds h

/-- While chunks are left, a file is. -/
theorem Regular.undone (h : Regular cfg s) (hcfg : Undisturbed cfg) (htable : Table cfg s)
    (hlt : (prepped s.log).length < cfg.chunks) : s.doneFiles < cfg.nfiles := by
  by_contra hdone
  have hturn := (h.turn_off hcfg htable hlt).2
  have hoff := htable.all_done (Nat.not_lt.mp hdone) (Nat.mod_lt s.rr hcfg.pos.1)
  have hlt' := htable.lt_of_notDone hturn
  omega

/-- Filling ends when there is no slot or no chunk left. -/
theorem Filling.le_of_exhausted (h : Filling cfg s) (hcfg : Undisturbed cfg) {rr : ℕ}
    (hex : Exhausted cfg s rr) :
    cfg.qd ≤ (prepped s.log).length ∨ cfg.chunks ≤ (prepped s.log).length := by
  rcases (hex.resolve_right (h.regular.not_misses hcfg h.table)).1 with hnil | hdone
  · left
    have hlen := congrArg List.length h.free
    rw [hnil, List.length_reverse, List.length_range, List.length_nil] at hlen
    omega
  · right
    by_contra hlt
    have hundone := h.regular.undone hcfg h.table (Nat.not_le.mp hlt)
    omega

/-! ## A slot for every chunk -/

/-- The first chunks take their slots once and for all. -/
structure Assigned (cfg : Config) (s : State) : Prop where
  regular : Regular cfg s
  bufs : ∀ i q, (prepped s.log)[i]? = some q → q.buf = cfg.qd - 1 - i
  all : s = start cfg ∨ cfg.chunks ≤ (prepped s.log).length

theorem Assigned.congr (h : Assigned cfg s) (hne : s ≠ start cfg) (hrr : t.rr = s.rr)
    (hoff : t.fileOff = s.fileOff) (hprep : prepped t.log = prepped s.log) : Assigned cfg t where
  regular := ⟨by rw [hrr, hprep]; exact h.regular.turn, by rw [hprep]; exact h.regular.le,
    by rw [hoff, hprep]; exact h.regular.off, by rw [hprep]; exact h.regular.placed⟩
  bufs := by rw [hprep]; exact h.bufs
  all := Or.inr (by rw [hprep]; exact h.all.resolve_left hne)

/-- With all chunks asked for, no round is left. -/
theorem Regular.eq_of_rounds (h : Regular cfg s) (hcfg : Undisturbed cfg) (htable : Table cfg s)
    (hall : cfg.chunks ≤ (prepped s.log).length)
    (hrounds : Relation.ReflTransGen (Round cfg) s t) : s = t := by
  rcases hrounds.cases_head with heq | ⟨u, hround, -⟩
  · exact heq
  · cases hround with
    | queue _ hundone _ =>
      have hlt := h.lt_chunks hcfg htable hundone
      omega

theorem Assigned.moves (h : Assigned cfg s) (hcfg : Undisturbed cfg) (hle : cfg.chunks ≤ cfg.qd)
    (hbytes : 0 < cfg.totalBytes) (hrun : Running cfg s) (hmove : Moves cfg s t) :
    Assigned cfg t := by
  have hne : s.phase ≠ .head → s ≠ start cfg := fun hphase heq => hphase (heq ▸ hcfg.phase_start)
  cases hmove with
  | complete _ hq =>
    refine h.congr ?_ rfl rfl rfl
    intro heq
    subst heq
    exact absurd hq (by simp [start, blank])
  | @fill u rr ret hphase _ hrounds hex =>
    rcases h.all with rfl | hall
    · have hu := (filling_start hcfg).rounds hcfg hrounds
      have hlen := hu.le_of_exhausted hcfg hex
      obtain ⟨-, rfl⟩ := hex.resolve_right (hu.regular.not_misses hcfg hu.table)
      exact ⟨{ hu.regular with }, hu.bufs, Or.inr (hlen.elim hle.trans id)⟩
    · obtain rfl := h.regular.eq_of_rounds hcfg hrun.books.table hall hrounds
      obtain ⟨-, rfl⟩ := hex.resolve_right (h.regular.not_misses hcfg hrun.books.table)
      exact ⟨{ h.regular with }, h.bufs, Or.inr hall⟩
  | leave hphase hstops =>
    refine h.congr (fun heq => hstops ?_) rfl rfl rfl
    rw [heq]
    exact Or.inl hbytes
  | wait hphase => exact h.congr (hne (by simp [hphase])) rfl rfl rfl
  | nothing hphase => exact h.congr (hne (by simp [hphase])) rfl rfl rfl
  | reap hphase =>
    exact h.congr (hne (by rcases hphase with hp | hp <;> simp [hp])) rfl rfl rfl
  | finish hphase hl =>
    exact h.congr (hne (by simp [hphase])) rfl rfl (prepped_dones_of_fsyncs s.log hl).1
  | cleanup hphase => exact h.congr (hne (by simp [hphase])) rfl rfl rfl

theorem assigned_reach (hcfg : Undisturbed cfg) (hle : cfg.chunks ≤ cfg.qd)
    (hbytes : 0 < cfg.totalBytes) (h : Reach (step cfg) (Answers cfg) (start cfg) s) :
    Assigned cfg s := by
  have hstart : Assigned cfg (start cfg) :=
    ⟨regular_start, (filling_start hcfg).bufs, Or.inl rfl⟩
  have hinv := h.invariant (I := fun s => Running cfg s ∧ Assigned cfg s)
    ⟨running_start hcfg, hstart⟩ fun _ _ _ hu hans hv =>
      ⟨hu.1.step hcfg hans hv,
        hu.2.moves hcfg hle hbytes hu.1 (moves_of_step hcfg hu.1 hans hv)⟩
  exact hinv.2

/-- With all chunks asked for, all files are asked for to their end. -/
theorem Regular.allAsked (h : Regular cfg s) (hcfg : Undisturbed cfg)
    (hall : cfg.chunks ≤ (prepped s.log).length) : AllAsked cfg s := by
  intro f hf
  have hcount : cfg.perFileBytes ⌈/⌉ cfg.blockSize ≤
      (prepped s.log).length.count (· ≡ f [MOD cfg.nfiles]) := by
    rw [Nat.count_modEq_card _ hcfg.pos.1]
    have hdiv : cfg.perFileBytes ⌈/⌉ cfg.blockSize ≤ (prepped s.log).length / cfg.nfiles := by
      rw [Nat.le_div_iff_mul_le hcfg.pos.1, Nat.mul_comm]
      exact hall
    omega
  rw [h.off f hf]
  exact Nat.min_eq_left ((ceilDiv_le_iff_le_smul hcfg.pos.2.2.1).mp hcount)

theorem Assigned.allAsked (h : Assigned cfg s) (hcfg : Undisturbed cfg) (hret : Returned s) :
    AllAsked cfg s := by
  refine h.regular.allAsked hcfg (h.all.resolve_left ?_)
  intro heq
  obtain ⟨r, hret⟩ := hret
  rw [heq, hcfg.phase_start] at hret
  exact absurd hret (by simp)

/-- The place of a chunk says which one it is, and so which slot it has. -/
theorem Assigned.buf_eq (h : Assigned cfg s) (hcfg : Undisturbed cfg) {q : Sqe}
    (hq : q ∈ prepped s.log) :
    q.buf = cfg.qd - 1 - (q.file + cfg.nfiles * (q.off / cfg.blockSize)) := by
  obtain ⟨i, hi⟩ := List.getElem?_of_mem hq
  obtain ⟨hfile, hoff⟩ := h.regular.placed i q hi
  rw [h.bufs i q hi, hfile, hoff, Nat.mul_div_cancel_left _ hcfg.pos.2.2.1, Nat.mod_add_div]

/-! ## Nothing to write -/

/-- The total overflows to zero: nothing is written. -/
structure Untouched (cfg : Config) (s : State) : Prop where
  point : s = start cfg ∨ Ended s
  outstanding : s.ring.outstanding = []
  files : ∀ f, s.files f = .empty

theorem Untouched.moves (h : Untouched cfg s) (hcfg : Undisturbed cfg)
    (hbytes : cfg.totalBytes = 0) (hmove : Moves cfg s t) :
    Untouched cfg t := by
  have hhead : s.phase = .head → s = start cfg := fun hphase =>
    h.point.resolve_right (not_ended_of_head hphase)
  have hloop : ¬ (s.phase = .wait ∨ s.phase = .reap ∨ s.phase = .fallback) := by
    rcases h.point with rfl | hphase | hphase | ⟨r, hphase⟩
    · rw [hcfg.phase_start]
      simp
    all_goals simp [hphase]
  cases hmove with
  | complete _ hq =>
    rw [h.outstanding] at hq
    exact absurd hq (by simp)
  | fill hphase hcont =>
    have heq := hhead hphase
    subst heq
    rw [State.Continues, hbytes] at hcont
    exact absurd hcont (by simp [start, blank])
  | leave => exact ⟨Or.inr (Or.inl rfl), h.outstanding, h.files⟩
  | wait hphase => exact absurd (Or.inl hphase) hloop
  | nothing hphase => exact absurd (Or.inr (Or.inl hphase)) hloop
  | reap hphase => exact absurd (Or.inr hphase) hloop
  | finish => exact ⟨Or.inr (Or.inr (Or.inl rfl)), h.outstanding, h.files⟩
  | cleanup => exact ⟨Or.inr (Or.inr (Or.inr ⟨_, rfl⟩)), h.outstanding, h.files⟩

theorem untouched_reach (hcfg : Undisturbed cfg) (hbytes : cfg.totalBytes = 0)
    (h : Reach (step cfg) (Answers cfg) (start cfg) s) : Untouched cfg s := by
  have hinv := h.invariant (I := fun s => Running cfg s ∧ Untouched cfg s)
    ⟨running_start hcfg, Or.inl rfl, rfl, fun f => rfl⟩ fun _ _ _ hu hans hv =>
      ⟨hu.1.step hcfg hans hv,
        hu.2.moves hcfg hbytes (moves_of_step hcfg hu.1 hans hv)⟩
  exact hinv.2

/-! ## The same files -/

/-- Two calls that ask for the same and have the slots in the same places leave the same. -/
theorem files_eq_of {cfg' : Config} (hblock : cfg'.blockSize = cfg.blockSize)
    (h : Running cfg s) (hret : Returned s) (h' : Running cfg' t) (hret' : Returned t) {f : ℕ}
    (hoff : t.fileOff f = s.fileOff f)
    (hbuf : ∀ q ∈ prepped s.log, ∀ q' ∈ prepped t.log, q'.file = q.file → q'.off = q.off →
      q'.buf = q.buf) : t.files f = s.files f := by
  have hcontent := h.content hret
  have hcontent' := h'.content hret'
  refine SparseFile.ext_of (by rw [hcontent'.size, hcontent.size, hoff]) ?_
  intro p
  rcases Nat.lt_or_ge p (s.fileOff f) with hp | hp
  · obtain ⟨q, hq, rfl, hqoff, hk⟩ := h.exists_chunk hp
    obtain ⟨q', hq', hfile, hqoff', hk'⟩ := h'.exists_chunk (by rw [hoff]; exact hp)
    rw [hblock] at hqoff' hk'
    have hbyte := hcontent.chunk q hq _ hk
    have hbyte' := hcontent'.chunk q' hq' _ hk'
    rw [hqoff, Nat.div_add_mod] at hbyte
    rw [hqoff', Nat.div_add_mod, hfile, hbuf q hq q' hq' hfile (hqoff'.trans hqoff.symm)] at hbyte'
    rw [hbyte, hbyte']
  · rw [hcontent.outside f p hp, hcontent'.outside f p (by rw [hoff]; exact hp)]

/-- **Where there is nothing to choose, the files are determined.** -/
theorem deterministic_of (hcfg : Undisturbed cfg)
    (h : cfg.qd = 1 ∨ cfg.chunks ≤ cfg.qd ∨ cfg.totalBytes = 0) : Deterministic cfg := by
  intro cfg' hsizes hcfg' s s' hreach hret hreach' hret' f hf
  have hrun := running_reach hcfg hreach
  have hrun' := running_reach hcfg' hreach'
  have hper : cfg'.perFileBytes = cfg.perFileBytes := by
    simp only [Config.perFileBytes, hsizes.mbPerFile]
  have htotal : cfg'.totalBytes = cfg.totalBytes := by
    simp only [Config.totalBytes, hper, hsizes.nfiles]
  have hchunks : cfg'.chunks = cfg.chunks := by
    simp only [Config.chunks, hper, hsizes.nfiles, hsizes.blockSize]
  by_cases hbytes : cfg.totalBytes = 0
  · rw [(untouched_reach hcfg hbytes hreach).files,
      (untouched_reach hcfg' (htotal.trans hbytes) hreach').files]
  rcases h with hqd | hle | hzero
  · have hqd' := hsizes.qd.trans hqd
    have hoff := fileOff_eq_of_single hsizes (single_reach hcfg hqd hreach) hret
      (single_reach hcfg' hqd' hreach') hret'
    refine files_eq_of hsizes.blockSize hrun hret hrun' hret' (by rw [hoff]) ?_
    intro q hq q' hq' _ _
    have hbuf := (hrun.books.write q hq).2.1
    have hbuf' := (hrun'.books.write q' hq').2.1
    omega
  · have hassigned := assigned_reach hcfg hle (Nat.pos_of_ne_zero hbytes) hreach
    have hassigned' := assigned_reach hcfg' (by rw [hchunks, hsizes.qd]; exact hle)
      (by rw [htotal]; exact Nat.pos_of_ne_zero hbytes) hreach'
    have hall := hassigned.allAsked hcfg hret
    have hall' := hassigned'.allAsked hcfg' hret'
    refine files_eq_of hsizes.blockSize hrun hret hrun' hret' ?_ ?_
    · rw [hall f hf, hall' f (by rw [hsizes.nfiles]; exact hf), hper]
    · intro q hq q' hq' hfile hoff
      rw [hassigned.buf_eq hcfg hq, hassigned'.buf_eq hcfg' hq', hfile, hoff, hsizes.qd,
        hsizes.nfiles, hsizes.blockSize]
  · exact absurd hzero hbytes

/-! ## A choice -/

/-- A prepared chunk is in its file at the end. -/
theorem exists_returned (hcfg : Undisturbed cfg) (h : Running cfg s) {q : Sqe}
    (hq : q ∈ prepped s.log) : ∃ t, Reach (step cfg) (Answers cfg) s t ∧ Returned t ∧
      (t.files q.file).byte q.off = some (UInt8.ofNat (97 + q.buf % 26)) := by
  obtain ⟨t, hreach, hret⟩ := (terminates hcfg h).exists_final
  have hinv := hreach.invariant (I := fun t => Running cfg t ∧ prepped s.log <+: prepped t.log)
    ⟨h, List.prefix_rfl⟩ fun _ _ _ hu hans hv =>
      ⟨hu.1.step hcfg hans hv, hu.2.trans (moves_of_step hcfg hu.1 hans hv).prepped_grows⟩
  have hmem := hinv.2.mem hq
  exact ⟨t, hreach, hret, (hinv.1.content hret).chunk q hmem 0 (hinv.1.books.write q hmem).2.2.2.2.2⟩

theorem step_complete {i : ℕ} {q : Sqe} (hphase : ∀ r, s.phase ≠ .returned r)
    (hq : s.ring.outstanding[i]? = some q) :
    step cfg s (.complete i q.len) = some (s.completed i q) := by
  have hring : s.ring.complete i q.len = some (q, _) := complete_eq_some.mpr ⟨hq, rfl⟩
  have hc : complete i q.len s = some (s.completed i q) := by
    simp only [complete, hring]
    exact if_pos (Int.le_refl _)
  cases hp : s.phase with
  | returned r => exact absurd hp (hphase r)
  | _ => simpa [step, hp] using hc

/-- When all slots are taken, any of them may be the first that is free again. -/
theorem exists_freed (hcfg : Undisturbed cfg) (h : Running cfg s) (hphase : s.phase = .wait)
    (hfree : s.freeSlots = []) (hnone : s.ring.completed = []) {slot : ℕ} (hslot : slot < cfg.qd) :
    ∃ i q, q.buf = slot ∧ s.ring.outstanding[i]? = some q ∧
      Reach (step cfg) (Answers cfg) s ((s.completed i q).reaped 1 0) := by
  have hslots := h.books.slots
  rw [hfree, Multiset.coe_nil, zero_add] at hslots
  have hmem := Multiset.mem_range.mpr hslot
  rw [← hslots] at hmem
  obtain ⟨q, hq, rfl⟩ := Multiset.mem_map.mp hmem
  have hout : q ∈ s.ring.outstanding := by
    have hqueued := (h.good.looping (Or.inr (Or.inl hphase))).queued
    simpa [mem_pending, hqueued, hnone] using hq
  obtain ⟨i, hi⟩ := List.getElem?_of_mem hout
  refine ⟨i, q, rfl, hi, ?_⟩
  have hcomplete : step cfg s (.complete i q.len) = some (s.completed i q) :=
    step_complete (by simp [hphase]) hi
  have hans : Answers cfg s (.complete i q.len) := fun q' hq' => by
    rw [Option.some.inj (hi.symm.trans hq')]
  have hwait : step cfg (s.completed i q) (.wait 0) =
      some { s.completed i q with ret := 0, phase := .reap } := if_pos hphase
  have hwaits : Answers cfg (s.completed i q) (.wait 0) := Int.le_refl 0
  have hbooks := ((h.step hcfg hans hcomplete).step hcfg hwaits hwait).books
  have htake : (s.completed i q).ring.completed.take batchSize = [(q, (q.len : ℤ))] := by
    simp [State.completed, hnone, batchSize]
  have hreap : step cfg { s.completed i q with ret := 0, phase := .reap } .reap =
      some ((s.completed i q).reaped 1 0) := by
    have hbatch := hbooks.reapBatch_take batchSize 0
    simp only [htake, List.length_singleton] at hbatch
    simp only [step, if_true, reap, htake, List.length_singleton, hbatch]
    rfl
  exact .head hans hcomplete (.head hwaits hwait (.single (e := .reap) trivial hreap))

/-- All slots are taken at first, where there are chunks for all of them. -/
theorem exists_filled (hcfg : Undisturbed cfg) (hlt : cfg.qd < cfg.chunks)
    (hbytes : 0 < cfg.totalBytes) : ∃ s, Reach (step cfg) (Answers cfg) (start cfg) s ∧
      s.phase = .wait ∧ s.freeSlots = [] ∧ s.ring.completed = [] ∧ Regular cfg s ∧
      (prepped s.log).length = cfg.qd := by
  have hrun := running_start hcfg
  obtain ⟨u, rr, ret, hrounds, hex, -, heq⟩ :=
    fill_eq hcfg hrun hcfg.phase_start (Or.inl hbytes) (Int.le_refl 0)
  have hu := (filling_start hcfg).rounds hcfg hrounds
  have hle := hu.le
  have hlen : (prepped u.log).length = cfg.qd := by
    rcases hu.le_of_exhausted hcfg hex with hge | hge <;> omega
  obtain ⟨-, rfl⟩ := hex.resolve_right (hu.regular.not_misses hcfg hu.table)
  have hfree : u.freeSlots = [] := by
    rw [hu.free, hlen, Nat.sub_self, List.range_zero, List.reverse_nil]
  have hstep : step cfg (start cfg) (.fill 0) = some (fill cfg 0 (start cfg)) :=
    if_pos hcfg.phase_start
  have hans : Answers cfg (start cfg) (.fill 0) := Int.le_refl 0
  have hrun' := hrun.step hcfg hans hstep
  have hreach := Reach.single hans hstep
  rw [heq] at hrun' hreach
  rcases awaitAny_cases { u with ring := u.ring.submit, ret := ret } with
    ⟨hzero, hphase⟩ | ⟨-, hphase⟩ <;> rw [hphase] at hrun' hreach
  · -- slots are taken, so something is in flight
    have hcount := hrun'.books.plan.length_freeSlots
    rw [pending_eq_zero.mpr ((hrun'.good.looping (by simp)).idle hzero)] at hcount
    simp only [hfree, List.length_nil, Multiset.card_zero] at hcount
    exact absurd hcount (Nat.ne_of_lt hcfg.pos.2.2.2)
  · exact ⟨_, hreach, rfl, hfree, (rounds_frame hrounds).2.2.2, { hu.regular with }, hlen⟩

/-- The next chunk gets the slot that is free. -/
theorem exists_next (hcfg : Undisturbed cfg) (h : Running cfg s) (hreg : Regular cfg s)
    (hphase : s.phase = .head) (hcont : s.Continues cfg) {slot : ℕ} (hfree : s.freeSlots = [slot])
    (hlt : (prepped s.log).length < cfg.chunks) :
    ∃ t, Reach (step cfg) (Answers cfg) s t ∧ ∃ q ∈ prepped t.log,
      q.file = (prepped s.log).length % cfg.nfiles ∧
      q.off = cfg.blockSize * ((prepped s.log).length / cfg.nfiles) ∧ q.buf = slot := by
  have htable := h.books.table
  obtain ⟨u, rr, ret, hrounds, hex, -, heq⟩ := fill_eq hcfg h hphase hcont (Int.le_refl 0)
  have hstep : step cfg s (.fill 0) = some (fill cfg 0 s) := if_pos hphase
  refine ⟨fill cfg 0 s, .single (e := .fill 0) (Int.le_refl 0) hstep, ?_⟩
  rw [heq]
  change ∃ q ∈ prepped u.log, _
  have hundone := hreg.undone hcfg htable hlt
  rcases hrounds.cases_head with rfl | ⟨w, hround, hrounds⟩
  · rcases (hex.resolve_right (hreg.not_misses hcfg htable)).1 with hnil | hdone
    · rw [hfree] at hnil
      exact absurd hnil (by simp)
    · omega
  · cases hround with
    | @queue slot' rest f rr' hfree' _ hpicks =>
      rw [hfree] at hfree'
      obtain ⟨rfl, rfl⟩ := List.cons.inj hfree'
      obtain ⟨rfl, rfl⟩ := hreg.picks_eq hcfg htable hundone hpicks
      refine ⟨_, (rounds_grow hrounds).mem (List.mem_append_right _ (List.mem_singleton_self _)),
        ?_, ?_, rfl⟩
      · rw [← hreg.turn]
        rfl
      · rw [← hreg.turn]
        exact (hreg.turn_off hcfg htable hlt).1

/-- **Any slot may serve the first chunk that has to wait for one.** -/
theorem exists_slot_run (hcfg : Undisturbed cfg) (hqd : 2 ≤ cfg.qd) (hlt : cfg.qd < cfg.chunks)
    (hbytes : 0 < cfg.totalBytes) {slot : ℕ} (hslot : slot < cfg.qd) :
    ∃ t, Reach (step cfg) (Answers cfg) (start cfg) t ∧ Returned t ∧
      (t.files (cfg.qd % cfg.nfiles)).byte (cfg.blockSize * (cfg.qd / cfg.nfiles)) =
        some (UInt8.ofNat (97 + slot % 26)) := by
  obtain ⟨s, hreach, hphase, hfree, hnone, hreg, hlen⟩ := exists_filled hcfg hlt hbytes
  have hrun := running_reach hcfg hreach
  obtain ⟨i, q, rfl, -, hfreed⟩ := exists_freed hcfg hrun hphase hfree hnone hslot
  have hreach' := hreach.trans hfreed
  have hrun' := running_reach hcfg hreach'
  have hfree' : ((s.completed i q).reaped 1 0).freeSlots = [q.buf] := by
    simp [State.reaped, State.completed, hnone, hfree]
  have hcont : ((s.completed i q).reaped 1 0).Continues cfg := by
    right
    have hcount := hrun'.books.plan.length_freeSlots
    rw [← (hrun'.good.looping (Or.inl rfl)).accounts.inflight, hfree', List.length_singleton] at hcount
    omega
  obtain ⟨u, hnext, q', hq', hfile, hoff, hbuf⟩ :=
    exists_next hcfg hrun' { hreg with } rfl hcont hfree' (by
      change (prepped s.log).length < _
      omega)
  have hlast := hreach'.trans hnext
  obtain ⟨t, hend, hret, hbyte⟩ := exists_returned hcfg (running_reach hcfg hlast) hq'
  rw [hfile, hoff, hbuf] at hbyte
  change (t.files ((prepped s.log).length % _)).byte (_ * ((prepped s.log).length / _)) = _ at hbyte
  rw [hlen] at hbyte
  exact ⟨t, hlast.trans hend, hret, hbyte⟩

theorem not_deterministic (hcfg : Undisturbed cfg) (hqd : 2 ≤ cfg.qd) (hlt : cfg.qd < cfg.chunks)
    (hbytes : 0 < cfg.totalBytes) : ¬ Deterministic cfg := by
  intro hdet
  obtain ⟨s, hreach, hret, hbyte⟩ := exists_slot_run hcfg hqd hlt hbytes (show 0 < cfg.qd by omega)
  obtain ⟨t, hreach', hret', hbyte'⟩ :=
    exists_slot_run hcfg hqd hlt hbytes (show 1 < cfg.qd by omega)
  have heq := hdet cfg (.refl cfg) hcfg s t hreach hret hreach' hret' _
    (Nat.mod_lt cfg.qd hcfg.pos.1)
  rw [heq, hbyte] at hbyte'
  exact absurd hbyte' (by decide)

/-- **Exactly when the files are determined**: there is one slot, there is a slot for every
chunk, or the total overflows to zero. -/
theorem deterministic_iff (cfg : Config) (hcfg : Undisturbed cfg) :
    Deterministic cfg ↔ cfg.qd = 1 ∨ cfg.chunks ≤ cfg.qd ∨ cfg.totalBytes = 0 := by
  refine ⟨?_, deterministic_of hcfg⟩
  intro hdet
  by_contra hnot
  obtain ⟨hone, hnot⟩ := not_or.mp hnot
  obtain ⟨hlt, hbytes⟩ := not_or.mp hnot
  have hqd := hcfg.pos.2.2.2
  exact not_deterministic hcfg (by omega) (Nat.not_le.mp hlt) (Nat.pos_of_ne_zero hbytes) hdet

theorem deterministic_iff_twoFiles : Deterministic twoFiles ↔
    twoFiles.qd = 1 ∨ twoFiles.chunks ≤ twoFiles.qd ∨ twoFiles.totalBytes = 0 :=
  deterministic_iff twoFiles undisturbed_twoFiles

/-- The second chunk of the first file begins with one letter or another. -/
theorem content_undetermined : ∃ s t, Reach (step twoFiles) (Answers twoFiles) (start twoFiles) s ∧
    Returned s ∧ Reach (step twoFiles) (Answers twoFiles) (start twoFiles) t ∧ Returned t ∧
    (s.files 0).byte (2 ^ 19 + 1) = some 97 ∧ (t.files 0).byte (2 ^ 19 + 1) = some 98 := by
  obtain ⟨s, hreach, hret, hbyte⟩ := exists_slot_run undisturbed_twoFiles
    (by decide) (by decide) (by decide) (show 0 < twoFiles.qd by decide)
  obtain ⟨t, hreach', hret', hbyte'⟩ := exists_slot_run undisturbed_twoFiles
    (by decide) (by decide) (by decide) (show 1 < twoFiles.qd by decide)
  exact ⟨s, t, hreach, hret, hreach', hret', hbyte, hbyte'⟩

end WriteManyfiles
end Native
end Pyuring
