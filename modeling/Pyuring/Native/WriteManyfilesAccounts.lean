import Pyuring.Native.WriteManyfilesEnds

/-!
# The accounts of the many-files loop

The stack of free slots, the counters, the flags and the offsets of `uring_write_manyfiles`,
in every run and whatever room the submission queue has.

Of a round of the queueing loop, `attempt` says whether the queue had an entry.  `enqueue_cases`
says how the loop ends: it stops, or a round finds the queue full and puts the slot back
(`Refuses`).  `Held` is what every step keeps until something fails, and `slots_and_files` reads
the accounts off it, between two iterations and between two rounds of the queueing loop.
-/

namespace Pyuring
namespace Native
namespace WriteManyfiles

open CompletionRing Trace

variable (cfg : Config)

/-- One round of the queueing loop: whether the submission queue had an entry, and the state
after it.  There is none when the loop stops. -/
def attempt (s : State) : Option (Bool × State) :=
  match s.freeSlots with
  | [] => none
  | slot :: rest =>
    if s.doneFiles < cfg.nfiles then
      match pick cfg cfg.nfiles s with
      | (none, _) => none
      | (some (f, off, len), s) => some (enqueueOne cfg slot rest f off len s)
    else none

/-- The round of the queueing loop that finds the submission queue full, of at most `n` rounds:
the states before and after it. -/
def refusal : ℕ → State → Option (State × State)
  | 0, _ => none
  | n + 1, s =>
    match attempt cfg s with
    | none => none
    | some (true, t) => refusal n t
    | some (false, t) => some (s, t)

/-- The next chunk of file `f` is asked for, from the slot on top of the stack, and the slot is
put back. -/
def State.refuse (slot f rr : ℕ) (s : State) : State :=
  { s.take cfg f with
    rr := rr
    slotFile := Function.update s.slotFile slot f
    slots := Function.update s.slots slot
      { s.slots slot with off := s.fileOff f, len := cfg.want (s.fileOff f) } }

/-- One round of the queueing loop, which finds the submission queue full. -/
inductive Refuses : State → State → Prop where
  | refuse {s : State} {slot : ℕ} {rest : List ℕ} {f rr : ℕ} (free : s.freeSlots = slot :: rest)
      (undone : s.doneFiles < cfg.nfiles) (picks : Picks cfg s f rr)
      (full : cfg.sqEntries ≤ s.ring.queued.length) : Refuses s (s.refuse cfg slot f rr)

/-- What holds until something fails, whatever room the submission queue has. -/
structure Held (s : State) : Prop where
  table : Table cfg s
  slots : (s.freeSlots : Multiset ℕ) + s.ring.pending.map Sqe.buf = Multiset.range cfg.qd
  write : ∀ q ∈ prepped s.log, q.userData = packUd 1 (UInt32.ofNat q.buf) ∧ q.buf < cfg.qd
  below : ∀ q ∈ prepped s.log, q.off + q.len ≤ s.fileOff q.file
  balanced : Balanced s.log s.ring
  posted : ∀ x ∈ s.ring.completed, x ∈ dones s.log

/-- The accounts at a point of the loop.  `enqueued` uses that a queue made for `qd` entries has
at least as many. -/
structure Accounted (s : State) : Prop where
  slots : (s.freeSlots : Multiset ℕ) + s.ring.pending.map Sqe.buf = Multiset.range cfg.qd
  count : s.inflight + s.freeSlots.length = cfg.qd
  doneFiles : s.doneFiles = ((Finset.range cfg.nfiles).filter fun f => s.fileDone f = true).card
  done : ∀ f < cfg.nfiles, s.fileDone f = true ↔ cfg.perFileBytes ≤ s.fileOff f
  enqueued : cfg.qd ≤ cfg.sqEntries → ∀ f < cfg.nfiles,
    s.fileOff f = (((prepped s.log).filter fun q => q.file = f).map Sqe.len).sum

variable {cfg} {s t u : State}

/-! ## A round of the queueing loop -/

theorem enqueue_of_attempt {n : ℕ} {ok : Bool} (h : attempt cfg s = some (ok, t)) :
    enqueue cfg (n + 1) s = if ok then enqueue cfg n t else t := by
  unfold attempt at h
  rw [enqueue]
  cases hfree : s.freeSlots with
  | nil =>
    rw [hfree] at h
    exact absurd h (by simp)
  | cons slot rest =>
    rw [hfree] at h
    by_cases hundone : s.doneFiles < cfg.nfiles
    · simp only [if_pos hundone] at h ⊢
      rcases hpick : pick cfg cfg.nfiles s with ⟨_ | ⟨f, off, len⟩, v⟩
      · rw [hpick] at h
        exact absurd h (by simp)
      · rw [hpick] at h
        have hone := Option.some.inj h
        simp only [hone]
    · simp only [if_neg hundone] at h
      exact absurd h (by simp)

theorem attempt_of_picks {slot f rr : ℕ} {rest : List ℕ} (hfree : s.freeSlots = slot :: rest)
    (hundone : s.doneFiles < cfg.nfiles) (hpicks : Picks cfg s f rr) :
    attempt cfg s = some (enqueueOne cfg slot rest f (s.fileOff f) (cfg.want (s.fileOff f))
      { s.take cfg f with rr := rr }) := by
  unfold attempt
  simp only [hfree, if_pos hundone, hpicks.eq]

/-- What a round of the queueing loop does. -/
theorem attempt_cases (htable : Table cfg s) (hpos : 0 < cfg.nfiles) :
    (attempt cfg s = none ∧ ∃ rr, Exhausted cfg s rr ∧
        ∀ n, s.freeSlots.length ≤ n → enqueue cfg n s = { s with rr := rr }) ∨
      (∃ t, attempt cfg s = some (true, t) ∧ Round cfg s t) ∨
      ∃ t, attempt cfg s = some (false, t) ∧ Refuses cfg s t := by
  by_cases hstop : s.freeSlots = [] ∨ cfg.nfiles ≤ s.doneFiles
  · refine Or.inl ⟨?_, s.rr, Or.inl ⟨hstop, rfl⟩, ?_⟩
    · unfold attempt
      split
      · rfl
      · next hfree =>
        rw [if_neg (Nat.not_lt.mpr (hstop.resolve_left (by simp [hfree])))]
    · intro n _
      cases n with
      | zero => rfl
      | succ n => exact enqueue_of_stop hstop
  obtain ⟨hne, hundone⟩ := not_or.mp hstop
  rw [Nat.not_le] at hundone
  obtain ⟨slot, rest, hfree⟩ := List.exists_cons_of_ne_nil hne
  rcases picks_or_misses htable hpos hne hundone with ⟨rr, hmiss⟩ | ⟨f, rr, hpicks⟩
  · refine Or.inl ⟨?_, rr, Or.inr hmiss, ?_⟩
    · unfold attempt
      simp only [hfree, if_pos hundone, hmiss.eq]
    · intro n hn
      obtain ⟨m, rfl⟩ := Nat.exists_eq_succ_of_ne_zero (n := n) (by
        rw [hfree, List.length_cons] at hn
        omega)
      exact enqueue_of_misses hfree hmiss
  have hone := attempt_of_picks hfree hundone hpicks
  rcases Nat.lt_or_ge s.ring.queued.length cfg.sqEntries with hroom | hfull
  · rw [enqueueOne_eq slot rest f rr hroom] at hone
    exact Or.inr (Or.inl ⟨_, hone, .queue hfree hundone hpicks⟩)
  · refine Or.inr (Or.inr ⟨s.refuse cfg slot f rr, hone.trans ?_, ?_⟩)
    swap
    · exact .refuse hfree hundone hpicks hfull
    have hpush : s.ring.push cfg.sqEntries (writeSqe slot f (cfg.want (s.fileOff f))
        (s.fileOff f)) = none := push_eq_none.mpr hfull
    unfold enqueueOne
    simp only [State.take, hpush, State.refuse, hfree]

/-- **The queueing loop ends** exhausted, or with a round that finds the submission queue
full. -/
theorem enqueue_cases (hpos : 0 < cfg.nfiles) (n : ℕ) (htable : Table cfg s)
    (hlen : s.freeSlots.length ≤ n) : ∃ u, Relation.ReflTransGen (Round cfg) s u ∧
      ((∃ rr, Exhausted cfg u rr ∧ enqueue cfg n s = { u with rr := rr } ∧
          refusal cfg n s = none) ∨
        Refuses cfg u (enqueue cfg n s) ∧ refusal cfg n s = some (u, enqueue cfg n s)) := by
  induction n generalizing s with
  | zero =>
    refine ⟨s, .refl, Or.inl ⟨s.rr, Or.inl ⟨Or.inl ?_, rfl⟩, rfl, rfl⟩⟩
    exact List.length_eq_zero_iff.mp (Nat.le_zero.mp hlen)
  | succ n ih =>
    rw [refusal]
    rcases attempt_cases htable hpos with ⟨hnone, rr, hex, heq⟩ | ⟨t, hsome, hround⟩ |
      ⟨t, hsome, hrefuses⟩
    · rw [hnone, heq (n + 1) hlen]
      exact ⟨s, .refl, Or.inl ⟨rr, hex, rfl, rfl⟩⟩
    · have hlen' : t.freeSlots.length ≤ n := by
        cases hround with
        | queue hfree =>
          rw [hfree, List.length_cons] at hlen
          exact Nat.le_of_succ_le_succ hlen
      obtain ⟨u, hrounds, hend⟩ := ih (hround.table htable) hlen'
      rw [enqueue_of_attempt hsome, hsome, if_pos rfl]
      exact ⟨u, .head hround hrounds, hend⟩
    · rw [enqueue_of_attempt hsome, hsome, if_neg (by simp)]
      exact ⟨s, .refl, Or.inr ⟨hrefuses, rfl⟩⟩

/-! ## What is held -/

/-- A step of the books that queues, completes and reaps nothing. -/
theorem Held.congr (h : Held cfg s) (hoff : t.fileOff = s.fileOff)
    (hdone : t.fileDone = s.fileDone) (hcount : t.doneFiles = s.doneFiles)
    (hprep : prepped t.log = prepped s.log) (hdones : dones t.log = dones s.log)
    (hfree : t.freeSlots = s.freeSlots) (hring : t.ring = s.ring) : Held cfg t where
  table := ⟨by rw [hoff]; exact h.table.off_le, by rw [hoff, hdone]; exact h.table.done,
    by rw [hcount, hdone]; exact h.table.doneFiles⟩
  slots := by rw [hfree, hring]; exact h.slots
  write := by rw [hprep]; exact h.write
  below := by rw [hprep, hoff]; exact h.below
  balanced := h.balanced.congr hprep hdones (by rw [hring]) (by rw [hring])
  posted := by rw [hring, hdones]; exact h.posted

/-- The offsets only go up. -/
theorem fileOff_le_take (cfg : Config) (s : State) (f g : ℕ) :
    s.fileOff g ≤ (s.take cfg f).fileOff g := by
  by_cases hg : g = f
  · subst hg
    simp only [State.take, Function.update_self]
    omega
  · simp only [State.take, Function.update_of_ne hg]
    exact Nat.le_refl _

theorem Held.round (h : Held cfg s) (hround : Round cfg s t) : Held cfg t := by
  have htable := hround.table h.table
  have hbalanced := balanced_round h.balanced hround
  cases hround with
  | @queue slot rest f rr hfree _ _ =>
    refine ⟨htable, (slots_queue f rr hfree).trans h.slots, ?_, ?_, hbalanced, h.posted⟩
    · intro q hq
      rcases List.mem_append.mp hq with hq | hq
      · exact h.write q hq
      · obtain rfl := List.mem_singleton.mp hq
        exact ⟨rfl, slot_lt h.slots hfree⟩
    · intro q hq
      rcases List.mem_append.mp hq with hq | hq
      · exact Nat.le_trans (h.below q hq) (fileOff_le_take cfg s f q.file)
      · obtain rfl := List.mem_singleton.mp hq
        simp [State.queue, State.take, writeSqe]

theorem Held.rounds (h : Held cfg s) (hrounds : Relation.ReflTransGen (Round cfg) s t) :
    Held cfg t :=
  rounds_keep Held.round hrounds h

/-- A round that finds the submission queue full keeps what is held. -/
theorem Held.refuses (h : Held cfg s) (hrefuses : Refuses cfg s t) : Held cfg t := by
  cases hrefuses with
  | @refuse slot rest f rr _ _ hpicks _ =>
    have htable := h.table.take hpicks.lt hpicks.notDone
    exact ⟨{ htable with }, h.slots, h.write,
      fun q hq => Nat.le_trans (h.below q hq) (fileOff_le_take cfg s f q.file), h.balanced,
      h.posted⟩

theorem Held.enqueue (h : Held cfg s) (hpos : 0 < cfg.nfiles) :
    Held cfg (enqueue cfg s.freeSlots.length s) := by
  obtain ⟨u, hrounds, ⟨rr, -, heq, -⟩ | ⟨hrefuses, -⟩⟩ :=
    enqueue_cases hpos s.freeSlots.length h.table (Nat.le_refl _)
  · rw [heq]
    exact (h.rounds hrounds).congr rfl rfl rfl rfl rfl rfl rfl
  · exact (h.rounds hrounds).refuses hrefuses

theorem Held.submit (h : Held cfg s) (ret : ℤ) :
    Held cfg (State.awaitAny { s with ring := s.ring.submit, ret := ret }) := by
  refine ⟨{ h.table with }, ?_, h.write, h.below, h.balanced.submit, h.posted⟩
  simp only [State.awaitAny, pending_submit]
  exact h.slots

theorem Held.moved (h : Held cfg s) {i : ℕ} {q : Sqe} {res : ℤ}
    (hq : s.ring.outstanding[i]? = some q) (hle : res ≤ q.len) : Held cfg (s.moved i q res) := by
  have hring : s.ring.complete i res = some (q, _) := complete_eq_some.mpr ⟨hq, rfl⟩
  refine ⟨{ h.table with }, ?_, h.write, h.below, h.balanced.complete hring hle, ?_⟩
  · simp only [State.moved]
    rw [pending_complete hring, h.slots]
  · intro x hx
    rcases List.mem_append.mp hx with hx | hx
    · exact List.mem_cons_of_mem _ (h.posted x hx)
    · exact List.mem_cons.mpr (Or.inl (List.mem_singleton.mp hx))

theorem Held.reaped (h : Held cfg s) (n : ℕ) (ret : ℤ) : Held cfg (s.reaped n ret) :=
  ⟨{ h.table with }, (s.slots_reaped n ret).trans h.slots, h.write, h.below,
    h.balanced.congr rfl rfl rfl rfl, fun x hx => h.posted x (List.mem_of_mem_drop hx)⟩

/-- Handling the oldest completions fails, or gives their slots back. -/
theorem Held.batch (h : Held cfg s) (n : ℕ) (ret : ℤ) :
    let t := reapBatch cfg (s.ring.completed.take n).length 0 (s.ring.completed.take n)
      { s with ret := ret }
    Failing t ∨ Held cfg t := by
  intro t
  rcases @reapBatch_cases cfg (s.ring.completed.take n).length (s.ring.completed.take n) 0
    { s with ret := ret } with ⟨-, hfailed, -⟩ | ⟨hab, -⟩
  · exact Or.inl (Or.inl ⟨hfailed.phase, hfailed.ret⟩)
  · have hres : ∀ x ∈ s.ring.completed.take n, 0 ≤ x.2 := fun x hx =>
      Int.not_lt.mp fun hneg => hab ⟨x, hx, Or.inr hneg⟩
    have hbatch := reapBatch_take h.write n ret
      (fun x hx => h.balanced.mem_prepped (h.posted x hx)) hres
    rw [show t = _ from hbatch]
    exact Or.inr (h.reaped _ ret)

/-! ## Every step -/

/-- A failure is returned. -/
theorem Failing.step (h : Failing s) {e : Event} (ht : step cfg s e = some t) : Failing t := by
  rcases h with ⟨hphase, hret⟩ | ⟨r, -, hphase⟩
  · cases step_cases ht with
    | complete _ hc =>
      obtain ⟨q, ring, -, -, rfl⟩ := complete_cases hc
      exact Or.inl ⟨hphase, hret⟩
    | cleanup => exact Or.inr ⟨s.ret, hret, by rw [State.result, if_pos hret]⟩
    | _ => simp_all
  · rw [step_of_returned hphase] at ht
    exact absurd ht (by simp)

theorem Held.step (h : Held cfg s) (hpos : 0 < cfg.nfiles) (hgood : Good cfg s) {e : Event}
    (ht : step cfg s e = some t) : Failing t ∨ Held cfg t := by
  cases step_cases ht with
  | complete _ hc =>
    obtain ⟨q, ring, hring, hle, rfl⟩ := complete_cases hc
    obtain ⟨hq, rfl⟩ := complete_eq_some.mp hring
    exact Or.inr (h.moved hq hle)
  | @fill r hphase =>
    by_cases hcont : s.Continues cfg
    · rcases fill_of_continues (hgood.looping (Or.inl hphase)) hcont r with ⟨ret, -, heq⟩ |
        ⟨hneg, heq⟩ <;> rw [heq]
      · exact Or.inr ((h.enqueue hpos).submit ret)
      · exact Or.inl (Or.inl ⟨rfl, hneg⟩)
    · unfold fill
      rw [if_neg hcont]
      exact Or.inr (h.congr rfl rfl rfl rfl rfl rfl rfl)
  | waitFails _ hneg => exact Or.inl (Or.inl ⟨rfl, hneg⟩)
  | waits => exact Or.inr (h.congr rfl rfl rfl rfl rfl rfl rfl)
  | reap =>
    unfold WriteManyfiles.reap
    simp only
    split
    · exact Or.inr (h.congr rfl rfl rfl rfl rfl rfl rfl)
    · exact h.batch batchSize s.ret
  | waitOneFails _ hneg => exact Or.inl (Or.inl ⟨rfl, hneg⟩)
  | @waitOneReaps w _ _ hlen =>
    have hbatch := h.batch 1 w
    rwa [hlen] at hbatch
  | @finish err =>
    unfold WriteManyfiles.finish
    split
    · rcases fails_fsyncAll err (List.range cfg.nfiles) s with
        ⟨l, hl, heq⟩ | ⟨l, r, -, hr, heq⟩ <;> rw [heq]
      · obtain ⟨hprep, hdones⟩ := prepped_dones_of_fsyncs s.log hl
        exact Or.inr (h.congr rfl rfl rfl hprep hdones rfl rfl)
      · exact Or.inl (Or.inl ⟨rfl, hr⟩)
    · exact Or.inr (h.congr rfl rfl rfl rfl rfl rfl rfl)
  | cleanup => exact Or.inr (h.congr rfl rfl rfl rfl rfl rfl rfl)

variable (cfg) in
/-- What holds in every run. -/
structure Kept (s : State) : Prop where
  good : Good cfg s
  held : Failing s ∨ Held cfg s

theorem Kept.step (h : Kept cfg s) (hpos : 0 < cfg.nfiles) {e : Event}
    (ht : WriteManyfiles.step cfg s e = some t) : Kept cfg t := by
  refine ⟨good_step h.good ht, ?_⟩
  rcases h.held with hfail | hheld
  · exact Or.inl (hfail.step ht)
  · exact hheld.step hpos h.good ht

theorem kept_start (hentry : entry cfg = .head) : Kept cfg (start cfg) := by
  have hbooks := books_start (pos_of_entry hentry).2.1
  exact ⟨good_start, Or.inr ⟨hbooks.table, hbooks.slots, fun _ hq => hbooks.plan.tagged hq,
    by simp [start, blank, prepped], hbooks.ledger.balanced, hbooks.posted⟩⟩

/-- **What is held in every run** that gets to the loop. -/
theorem kept_reach {P : State → Event → Prop} (hentry : entry cfg = .head)
    (h : Reach (step cfg) P (start cfg) s) : Kept cfg s :=
  h.invariant (kept_start hentry) fun _ _ _ hkept _ ht => hkept.step (pos_of_entry hentry).1 ht

/-- A run that is in the loop got to it. -/
theorem entry_of_reach {P : State → Event → Prop} (h : Reach (step cfg) P (start cfg) s)
    (hphase : ∀ r, s.phase ≠ .returned r) : entry cfg = .head := by
  rcases entry_cases cfg with ⟨hentry, -⟩ | ⟨r, -, hentry⟩
  · exact hentry
  · have hstart : (start cfg).phase = .returned r := hentry
    rw [h.eq_of_stuck (step_of_returned hstart)] at hphase
    exact absurd hstart (hphase r)

theorem Kept.held_of_phase (h : Kept cfg s) (hout : s.phase ≠ .out)
    (hreturned : ∀ r, s.phase ≠ .returned r) : Held cfg s :=
  h.held.resolve_left (not_failing_of_phase hout hreturned)

/-! ## The search -/

/-- A search that finds nothing goes on past the file it looks at, which is finished. -/
theorem pick_succ_of_none (h : Table cfg s) {tries rr : ℕ}
    (hnone : (pick cfg (tries + 1) { s with rr := rr }).1 = none) :
    s.fileDone (rr % cfg.nfiles) = true ∧ pick cfg (tries + 1) { s with rr := rr } =
      pick cfg tries { s with rr := (rr + 1) % 2 ^ 32 } := by
  rw [pick] at hnone ⊢
  simp only at hnone ⊢
  by_cases hdone : s.fileDone (rr % cfg.nfiles) = true
  · rw [if_pos hdone]
    exact ⟨hdone, rfl⟩
  · have hoff := h.lt_of_notDone (Bool.eq_false_iff.mpr hdone)
    rw [if_neg hdone, if_neg (Nat.not_le.mpr hoff)] at hnone
    split at hnone <;> split at hnone <;> exact absurd hnone (by simp)

/-- A search that finds nothing has gone as far as it may, past finished files only. -/
theorem pick_none (h : Table cfg s) (tries rr : ℕ)
    (hnone : (pick cfg (tries + 1) { s with rr := rr }).1 = none) :
    (pick cfg (tries + 1) { s with rr := rr }).2.rr = (rr + (tries + 1)) % 2 ^ 32 ∧
      (rr + (tries + 1) < 2 ^ 32 → ∀ k ≤ tries, s.fileDone ((rr + k) % cfg.nfiles) = true) := by
  induction tries generalizing rr with
  | zero =>
    obtain ⟨hdone, heq⟩ := pick_succ_of_none h hnone
    rw [heq]
    refine ⟨rfl, fun _ k hk => ?_⟩
    rw [Nat.le_zero.mp hk]
    exact hdone
  | succ tries ih =>
    obtain ⟨hdone, heq⟩ := pick_succ_of_none h hnone
    rw [heq] at hnone ⊢
    obtain ⟨hrr, hall⟩ := ih ((rr + 1) % 2 ^ 32) hnone
    refine ⟨by rw [hrr, Nat.mod_add_mod]; congr 1; omega, ?_⟩
    intro hlt k hk
    rw [Nat.mod_eq_of_lt (by omega)] at hall
    cases k with
    | zero => exact hdone
    | succ k =>
      have hlater := hall (by omega) k (by omega)
      rwa [Nat.add_right_comm, Nat.add_assoc] at hlater

/-- Going on by so much leads to `f`. -/
theorem add_mod_eq {n f : ℕ} (rr : ℕ) (hf : f < n) : (rr + (f + n - rr % n) % n) % n = f := by
  have hsum : rr + (f + n - rr % n) = f + n * (rr / n + 1) := by
    have hdiv := Nat.div_add_mod rr n
    have hlt := Nat.mod_lt rr (Nat.zero_lt_of_lt hf)
    rw [Nat.mul_add]
    omega
  rw [Nat.add_mod_mod, hsum, Nat.add_mul_mod_self_left, Nat.mod_eq_of_lt hf]

/-- **The search finds a file** while there is one, if the counter does not wrap in it. -/
theorem Table.search (h : Table cfg s) (hundone : s.doneFiles < cfg.nfiles)
    (hrr : s.rr ≤ (pick cfg cfg.nfiles s).2.rr) : (pick cfg cfg.nfiles s).1 ≠ none := by
  intro hnone
  obtain ⟨f, hf, hnot⟩ := h.exists_notDone hundone
  obtain ⟨n, hn⟩ := Nat.exists_eq_succ_of_ne_zero (Nat.ne_zero_of_lt hf)
  have hsucc : pick cfg cfg.nfiles s = pick cfg (n + 1) s := congrArg (pick cfg · s) hn
  rw [hsucc] at hnone hrr
  obtain ⟨hnext, hall⟩ := pick_none h n s.rr hnone
  have hnext' : (pick cfg (n + 1) s).2.rr = (s.rr + cfg.nfiles) % 2 ^ 32 := by
    rw [hn]
    exact hnext
  have hlt : s.rr + cfg.nfiles < 2 ^ 32 := by
    have hfiles := cfg.nfiles_lt
    omega
  -- the search came past the file that is not finished
  have hpast := hall (by omega) ((f + cfg.nfiles - s.rr % cfg.nfiles) % cfg.nfiles) (by
    have := Nat.mod_lt (f + cfg.nfiles - s.rr % cfg.nfiles) (Nat.zero_lt_of_lt hf)
    omega)
  rw [add_mod_eq s.rr hf, hnot] at hpast
  exact absurd hpast (by simp)

/-! ## The accounts -/

/-- A chunk that is queued is one more in flight. -/
theorem Accounts.round (h : Accounts s) (hround : Round cfg s t) : Accounts t := by
  cases hround with
  | @queue slot rest f rr _ _ _ =>
    refine ⟨?_, by simpa [State.queue] using h.unsynced, h.ret⟩
    rw [pending_push (push_queue cfg s slot rest f rr), Multiset.card_cons, ← h.inflight]
    rfl

theorem Accounts.rounds (h : Accounts s) (hrounds : Relation.ReflTransGen (Round cfg) s t) :
    Accounts t :=
  rounds_keep Accounts.round hrounds h

/-- The rounds of the queueing loop that got an entry. -/
theorem rounds_of_attempts (htable : Table cfg s) (hpos : 0 < cfg.nfiles)
    (h : Relation.ReflTransGen (fun s t => attempt cfg s = some (true, t)) s u) :
    Relation.ReflTransGen (Round cfg) s u ∧ Table cfg u := by
  induction h with
  | refl => exact ⟨.refl, htable⟩
  | tail _ hattempt ih =>
    obtain ⟨hrounds, htab⟩ := ih
    rcases attempt_cases htab hpos with ⟨hnone, -⟩ | ⟨t, hsome, hround⟩ | ⟨t, hsome, -⟩
    · rw [hnone] at hattempt
      exact absurd hattempt (by simp)
    · rw [hsome] at hattempt
      obtain ⟨-, rfl⟩ := Prod.mk.inj (Option.some.inj hattempt)
      exact ⟨hrounds.tail hround, hround.table htab⟩
    · rw [hsome] at hattempt
      exact absurd hattempt (by simp)

/-- Every slot is free or in flight. -/
theorem Held.count (h : Held cfg s) (haccounts : Accounts s) :
    s.inflight + s.freeSlots.length = cfg.qd := by
  have hcard := congrArg Multiset.card h.slots
  rw [Multiset.card_add, Multiset.card_map, Multiset.coe_card, Multiset.card_range] at hcard
  rw [haccounts.inflight, Nat.add_comm]
  exact hcard

/-- While the submission queue has room, each file was asked for up to its offset. -/
theorem Plan.enqueued (h : Plan cfg s) (f : ℕ) :
    s.fileOff f = (((prepped s.log).filter fun q => q.file = f).map Sqe.len).sum := by
  have hsum := (h.tiles f).sum_len
  rw [fileSpans, List.map_map, Nat.zero_add] at hsum
  exact hsum.symm

/-- **Slots and files are accounted for**, at the head of the loop and wherever its queueing loop
has got to from there; its search finds a file while there is one, if the counter does not wrap
in it.  And a batch can be given back: as many writes are in flight, and as many slots taken, as
there are completions. -/
theorem slots_and_files (cfg : Config) (s : State)
    (h : Reach (step cfg) AnyStep (start cfg) s) :
    (s.phase = .head → ∀ u,
      Relation.ReflTransGen (fun s t => attempt cfg s = some (true, t)) s u →
        Accounted cfg u ∧ (u.doneFiles < cfg.nfiles → u.rr ≤ (pick cfg cfg.nfiles u).2.rr →
          (pick cfg cfg.nfiles u).1 ≠ none)) ∧
    (s.phase = .reap ∨ s.phase = .fallback → s.inflight + s.freeSlots.length = cfg.qd ∧
      s.ring.completed.length ≤ s.inflight) := by
  constructor
  · intro hphase u hu
    have hentry := entry_of_reach h (by simp [hphase])
    have hkept := kept_reach hentry h
    have hheld := hkept.held_of_phase (by simp [hphase]) (by simp [hphase])
    have hloop := hkept.good.looping (Or.inl hphase)
    obtain ⟨hrounds, htable⟩ := rounds_of_attempts hheld.table (pos_of_entry hentry).1 hu
    have hheld' := hheld.rounds hrounds
    have hcount := hheld'.count (hloop.accounts.rounds hrounds)
    refine ⟨⟨hheld'.slots, hcount, htable.doneFiles, ?_, ?_⟩, htable.search⟩
    · intro f _
      rw [htable.done f]
      exact ⟨fun heq => Nat.le_of_eq heq.symm, fun hle => Nat.le_antisymm (htable.off_le f) hle⟩
    · intro hroom f _
      have hcfg : Undisturbed cfg := ⟨hentry, hroom⟩
      have hnot : ¬ Failing s := not_failing_of_phase (by simp [hphase]) (by simp [hphase])
      have hplan := ((sound_reach hcfg h).alive.resolve_left hnot).plan
      exact (hplan.rounds hcfg.pos.2.2.1 hrounds).enqueued f
  · intro hphase
    have hrun : s.phase ≠ .out ∧ ∀ r, s.phase ≠ .returned r := by
      rcases hphase with hp | hp <;> simp [hp]
    have hkept := kept_reach (entry_of_reach h hrun.2) h
    have hloop := hkept.good.looping (Or.inr (Or.inr (hphase.imp_right Or.inl)))
    refine ⟨(hkept.held_of_phase hrun.1 hrun.2).count hloop.accounts, ?_⟩
    rw [hloop.accounts.inflight, card_pending]
    exact Nat.le_add_left _ _

/-- A write of one of two files is queued and done, and one of the other file is queued. -/
def firstDone : List Event :=
  [.fill 2, .complete 0 (2 ^ 19 + 1), .wait 0, .reap]

theorem firstDone_isSome : (exec (step twoFiles) (start twoFiles) firstDone).isSome = true := by
  decide

/-- The state they lead to. -/
def afterFirst : State := (exec (step twoFiles) (start twoFiles) firstDone).get firstDone_isSome

theorem slots_and_files_afterFirst : Accounted twoFiles afterFirst ∧
    (pick twoFiles twoFiles.nfiles afterFirst).1 ≠ none := by
  obtain ⟨haccounted, hsearch⟩ := (slots_and_files twoFiles afterFirst
    (reach_anyStep_of_exec (Option.some_get _).symm)).1 (by decide) afterFirst .refl
  exact ⟨haccounted, hsearch (by decide) (by decide)⟩

end WriteManyfiles
end Native
end Pyuring
