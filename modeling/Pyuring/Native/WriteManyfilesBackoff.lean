import Pyuring.Native.WriteManyfilesAccounts

/-!
# A full submission queue loses a chunk

When the submission queue is full, the queueing loop of `uring_write_manyfiles` puts the slot of
the chunk back and goes on to submit and reap.  The offset of the file, its flag and the count of
finished files were moved on before the queue was asked, and stay so: the chunk is not asked for
again.

`stepRoom` is a step with the room that the submission queue has in it, so that the queue may be
found full in any pass of the queueing loop, after any number of chunks.  The chunk of a refused
round is a `Hole`, which no later step fills.  `backoff_iff` says for which runs nothing is lost.

A queue made for `qd` entries has at least as many, and is never found full
(`Kept.unrefused_of_room`).
-/

namespace Pyuring
namespace Native
namespace WriteManyfiles

open CompletionRing Trace

variable (cfg : Config)

/-- The submission queue has `room` entries. -/
def Config.withRoom (room : ℕ) : Config := { cfg with sqEntries := room }

/-- A step, and the room that the submission queue has in it. -/
def stepRoom (s : State) (e : ℕ × Event) : Option State := step (cfg.withRoom e.1) s e.2

/-- From `u` to `v` the books were put back. -/
structure Restored (u v : State) : Prop where
  fileOff : v.fileOff = u.fileOff
  fileDone : v.fileDone = u.fileDone
  doneFiles : v.doneFiles = u.doneFiles
  freeSlots : v.freeSlots = u.freeSlots

/-- A round that finds the submission queue full puts the books back. -/
def Restores (s : State) (e : ℕ × Event) : Prop :=
  match e.2 with
  | .fill _ => s.Continues cfg → ∀ u v,
      refusal (cfg.withRoom e.1) s.freeSlots.length s = some (u, v) → Restored u v
  | _ => True

/-- No round finds the submission queue full. -/
def Unrefused (s : State) (e : ℕ × Event) : Prop :=
  match e.2 with
  | .fill _ => s.Continues cfg → refusal (cfg.withRoom e.1) s.freeSlots.length s = none
  | _ => True

/-- With nothing in flight and files that are not finished, the loop goes on and its search
finds one of them. -/
def GoesOn (s : State) (e : ℕ × Event) : Prop :=
  match e.2 with
  | .fill _ => s.inflight = 0 → s.doneFiles < cfg.nfiles →
      s.written < cfg.totalBytes ∧ (pick cfg cfg.nfiles s).1 ≠ none
  | _ => True

/-- Every position of every file was written. -/
def AllWritten (s : State) : Prop :=
  ∀ f < cfg.nfiles, ∀ p < cfg.perFileBytes, ∃ x ∈ dones s.log, Writes f p x

/-- A position that the offset of its file has passed, and no request covers. -/
def Hole (s : State) : Prop :=
  ∃ f < cfg.nfiles, ∃ p < s.fileOff f,
    ∀ q ∈ prepped s.log, q.file = f → p < q.off ∨ q.off + q.len ≤ p

/-- The program has left its loop. -/
def Left (s : State) : Prop := s.phase = .tail ∨ s.phase = .out ∨ Returned s

/-- The run fails, or something is not written in it. -/
def Flawed (s : State) : Prop := Failing s ∨ Hole cfg s ∨ Left s ∧ s.doneFiles < cfg.nfiles

/-- The books of the files are the same. -/
structure SameBooks (s t : State) : Prop where
  fileOff : t.fileOff = s.fileOff
  fileDone : t.fileDone = s.fileDone
  doneFiles : t.doneFiles = s.doneFiles
  rr : t.rr = s.rr
  prepped : prepped t.log = prepped s.log

variable {cfg} {s t u v : State} {e : ℕ × Event} {es : List (ℕ × Event)}

/-! ## The room of the queue

Only the attempt to queue a request depends on it. -/

@[simp] theorem nfiles_withRoom (room : ℕ) : (cfg.withRoom room).nfiles = cfg.nfiles := rfl

theorem pick_withRoom (room n : ℕ) (s : State) :
    pick (cfg.withRoom room) n s = pick cfg n s := by
  induction n generalizing s with
  | zero => rfl
  | succ n ih =>
    rw [pick, pick]
    simp only [ih]
    rfl

theorem table_withRoom {room : ℕ} : Table (cfg.withRoom room) s ↔ Table cfg s :=
  ⟨fun h => ⟨h.off_le, h.done, h.doneFiles⟩, fun h => ⟨h.off_le, h.done, h.doneFiles⟩⟩

theorem picks_withRoom {room f rr : ℕ} : Picks (cfg.withRoom room) s f rr ↔ Picks cfg s f rr := by
  constructor <;> rintro ⟨hlt, hnot, heq⟩
  · exact ⟨hlt, hnot, (pick_withRoom room _ s).symm.trans heq⟩
  · exact ⟨hlt, hnot, (pick_withRoom room _ s).trans heq⟩

theorem good_withRoom {room : ℕ} : Good (cfg.withRoom room) s ↔ Good cfg s := by
  have hfinished : Finished (cfg.withRoom room) s ↔ Finished cfg s :=
    ⟨fun h => ⟨h.idle, h.synced⟩, fun h => ⟨h.idle, h.synced⟩⟩
  cases hphase : s.phase with
  | head | wait | reap | fallback | tail => simp only [Good, hphase]
  | out | returned r => simp only [Good, hphase, hfinished]

theorem held_withRoom {room : ℕ} : Held (cfg.withRoom room) s ↔ Held cfg s :=
  ⟨fun h => ⟨table_withRoom.mp h.table, h.slots, h.write, h.below, h.balanced, h.posted⟩,
    fun h => ⟨table_withRoom.mpr h.table, h.slots, h.write, h.below, h.balanced, h.posted⟩⟩

theorem kept_withRoom {room : ℕ} : Kept (cfg.withRoom room) s ↔ Kept cfg s :=
  ⟨fun h => ⟨good_withRoom.mp h.good, h.held.imp_right held_withRoom.mp⟩,
    fun h => ⟨good_withRoom.mpr h.good, h.held.imp_right held_withRoom.mpr⟩⟩

theorem Kept.stepRoom (h : Kept cfg s) (hpos : 0 < cfg.nfiles)
    (ht : WriteManyfiles.stepRoom cfg s e = some t) : Kept cfg t := by
  have hroom : Kept (cfg.withRoom e.1) s := kept_withRoom.mpr h
  exact kept_withRoom.mp (hroom.step hpos ht)

theorem reapBatch_withRoom (room got i : ℕ) (cs : List (Sqe × ℤ)) (s : State) :
    reapBatch (cfg.withRoom room) got i cs s = reapBatch cfg got i cs s := by
  induction cs generalizing i s with
  | nil => rfl
  | cons c cs ih =>
    rw [reapBatch, reapBatch]
    simp only [ih]
    rfl

/-- What is queued with some room is queued with more. -/
theorem enqueueOne_withRoom {room more slot f off len : ℕ} {rest : List ℕ}
    (hok : (enqueueOne (cfg.withRoom room) slot rest f off len s).1 = true)
    (hmore : s.ring.queued.length < more) :
    enqueueOne (cfg.withRoom more) slot rest f off len s =
        enqueueOne (cfg.withRoom room) slot rest f off len s ∧
      (enqueueOne (cfg.withRoom room) slot rest f off len s).2.ring.queued.length =
        s.ring.queued.length + 1 := by
  unfold enqueueOne at hok ⊢
  simp only at hok ⊢
  cases hroom : s.ring.push room (writeSqe slot f len off) with
  | none => simp [Config.withRoom, hroom] at hok
  | some ring =>
    obtain ⟨-, rfl⟩ := push_eq_some.mp hroom
    have hpush : s.ring.push more (writeSqe slot f len off) = some _ :=
      push_eq_some.mpr ⟨hmore, rfl⟩
    simp [Config.withRoom, hroom, hpush]

/-- A queueing loop that does not find the queue full is the same with more room. -/
theorem enqueue_withRoom {room more : ℕ} (n : ℕ) (hnone : refusal (cfg.withRoom room) n s = none)
    (hmore : n + s.ring.queued.length ≤ more) :
    enqueue (cfg.withRoom more) n s = enqueue (cfg.withRoom room) n s := by
  induction n generalizing s with
  | zero => rfl
  | succ n ih =>
  rw [refusal] at hnone
  unfold attempt at hnone
  rw [enqueue, enqueue]
  simp only [nfiles_withRoom, pick_withRoom] at hnone ⊢
  cases hfree : s.freeSlots with
  | nil => rfl
  | cons slot rest =>
  by_cases hundone : s.doneFiles < cfg.nfiles
  · simp only [hfree, if_pos hundone] at hnone ⊢
    have hring := (pick_frame cfg cfg.nfiles s).1
    rcases hpick : pick cfg cfg.nfiles s with ⟨_ | ⟨f, off, len⟩, w⟩
    · rfl
    rw [hpick] at hnone hring
    simp only at hnone hring ⊢
    rcases hone : enqueueOne (cfg.withRoom room) slot rest f off len w with ⟨ok, w'⟩
    rw [hone] at hnone
    cases ok with
    | false => exact absurd hnone (by simp)
    | true =>
      -- the chunk was queued, so it is with more room
      obtain ⟨hsame, hlen⟩ := enqueueOne_withRoom (by rw [hone])
        (show w.ring.queued.length < more by rw [hring]; omega)
      rw [hone] at hlen
      rw [hsame, hone]
      simp only at hnone hlen ⊢
      exact ih hnone (by rw [hlen, hring]; omega)
  · simp only [if_neg hundone]

/-! ## The books of a step -/

theorem reapBatch_books (cfg : Config) (got i : ℕ) (cs : List (Sqe × ℤ)) (s : State) :
    SameBooks s (reapBatch cfg got i cs s) := by
  induction cs generalizing i s with
  | nil => exact ⟨rfl, rfl, rfl, rfl, rfl⟩
  | cons c cs ih =>
    rw [reapBatch]
    split
    · exact ⟨rfl, rfl, rfl, rfl, rfl⟩
    split
    · exact ⟨rfl, rfl, rfl, rfl, rfl⟩
    · obtain ⟨hoff, hdone, hcount, hrr, hprep⟩ := ih (i + 1) _
      exact ⟨hoff, hdone, hcount, hrr, hprep⟩

/-- Only the head of the loop touches the books of the files. -/
theorem step_books {e : Event} (he : ∀ r, e ≠ .fill r) (ht : step cfg s e = some t) :
    SameBooks s t := by
  cases step_cases ht with
  | complete _ hc =>
    obtain ⟨q, ring, -, -, rfl⟩ := complete_cases hc
    exact ⟨rfl, rfl, rfl, rfl, rfl⟩
  | @fill r => exact absurd rfl (he r)
  | waitFails => exact ⟨rfl, rfl, rfl, rfl, rfl⟩
  | waits => exact ⟨rfl, rfl, rfl, rfl, rfl⟩
  | reap =>
    unfold WriteManyfiles.reap
    simp only
    split
    · exact ⟨rfl, rfl, rfl, rfl, rfl⟩
    · exact reapBatch_books cfg _ _ _ s
  | waitOneFails => exact ⟨rfl, rfl, rfl, rfl, rfl⟩
  | @waitOneReaps w =>
    obtain ⟨hoff, hdone, hcount, hrr, hprep⟩ :=
      reapBatch_books cfg 1 0 (s.ring.completed.take 1) { s with ret := w }
    exact ⟨hoff, hdone, hcount, hrr, hprep⟩
  | @finish err =>
    unfold WriteManyfiles.finish
    split
    · rcases fails_fsyncAll err (List.range cfg.nfiles) s with
        ⟨l, hl, heq⟩ | ⟨l, r, hl, -, heq⟩ <;> rw [heq] <;>
        exact ⟨rfl, rfl, rfl, rfl, (prepped_dones_of_fsyncs s.log hl).1⟩
    · exact ⟨rfl, rfl, rfl, rfl, rfl⟩
  | cleanup => exact ⟨rfl, rfl, rfl, rfl, rfl⟩

/-- The head of the loop leaves the books as the queueing loop does. -/
theorem fill_books (hcont : s.Continues cfg) (r : ℤ) :
    SameBooks (enqueue cfg s.freeSlots.length s) (fill cfg r s) := by
  unfold fill
  rw [if_pos hcont]
  simp only
  split
  · exact ⟨rfl, rfl, rfl, rfl, rfl⟩
  split <;> exact ⟨rfl, rfl, rfl, rfl, rfl⟩

/-- **What a step leads to**: the books stay the same and the queue is not asked, or the queueing
loop is run. -/
theorem stepRoom_cases (ht : stepRoom cfg s e = some t) :
    (SameBooks s t ∧ Unrefused cfg s e) ∨
      ∃ r, e.2 = .fill r ∧ s.phase = .head ∧ s.Continues cfg ∧ t = fill (cfg.withRoom e.1) r s := by
  obtain ⟨room, e⟩ := e
  by_cases he : ∃ r, e = .fill r
  · obtain ⟨r, rfl⟩ := he
    obtain ⟨hphase, ht⟩ := Option.ite_none_right_eq_some.mp ht
    by_cases hcont : s.Continues cfg
    · exact Or.inr ⟨r, rfl, hphase, hcont, (Option.some.inj ht).symm⟩
    · refine Or.inl ⟨?_, fun h => absurd h hcont⟩
      rw [← Option.some.inj ht]
      unfold fill
      rw [if_neg (show ¬ s.Continues (cfg.withRoom room) from hcont)]
      exact ⟨rfl, rfl, rfl, rfl, rfl⟩
  · rw [not_exists] at he
    refine Or.inl ⟨step_books he ht, ?_⟩
    cases e with
    | fill r => exact absurd rfl (he r)
    | _ => trivial

/-! ## Holes -/

theorem Hole.congr (h : Hole cfg s) (hoff : t.fileOff = s.fileOff)
    (hprep : prepped t.log = prepped s.log) : Hole cfg t := by
  obtain ⟨f, hf, p, hp, hno⟩ := h
  exact ⟨f, hf, p, by rw [hoff]; exact hp, by rw [hprep]; exact hno⟩

/-- A chunk that is queued leaves the holes, since it starts at the offset of its file. -/
theorem Hole.round (h : Hole cfg s) (hround : Round cfg s t) : Hole cfg t := by
  obtain ⟨f, hf, p, hp, hno⟩ := h
  cases hround with
  | @queue slot rest g rr _ _ _ =>
    refine ⟨f, hf, p, Nat.lt_of_lt_of_le hp (fileOff_le_take cfg s g f), ?_⟩
    intro q hq hfile
    rcases List.mem_append.mp hq with hq | hq
    · exact hno q hq hfile
    · obtain rfl := List.mem_singleton.mp hq
      obtain rfl : g = f := hfile
      exact Or.inl hp

theorem Hole.rounds (h : Hole cfg s) (hrounds : Relation.ReflTransGen (Round cfg) s t) :
    Hole cfg t :=
  rounds_keep Hole.round hrounds h

theorem Hole.refuses (h : Hole cfg s) (hrefuses : Refuses cfg s t) : Hole cfg t := by
  obtain ⟨f, hf, p, hp, hno⟩ := h
  cases hrefuses with
  | @refuse slot rest g rr _ _ _ _ =>
    exact ⟨f, hf, p, Nat.lt_of_lt_of_le hp (fileOff_le_take cfg s g f), hno⟩

/-- **The chunk of a refused round is a hole.** -/
theorem Refuses.hole (hrefuses : Refuses cfg s t) (h : Held cfg s) (hblock : 0 < cfg.blockSize) :
    Hole cfg t := by
  cases hrefuses with
  | @refuse slot rest f rr _ _ hpicks _ =>
    have hwant := want_pos hblock (h.table.lt_of_notDone hpicks.notDone)
    refine ⟨f, hpicks.lt, s.fileOff f, ?_, ?_⟩
    · simp only [State.refuse, State.take, Function.update_self]
      omega
    · rintro q hq rfl
      exact Or.inr (h.below q hq)

/-- The offset of its file is not what it was. -/
theorem Refuses.not_restored (hrefuses : Refuses cfg s t) (h : Table cfg s)
    (hblock : 0 < cfg.blockSize) : ¬ Restored s t := by
  cases hrefuses with
  | @refuse slot rest f rr _ _ hpicks _ =>
    have hwant := want_pos hblock (h.lt_of_notDone hpicks.notDone)
    intro hrestored
    have hoff := congrFun hrestored.fileOff f
    simp only [State.refuse, State.take, Function.update_self] at hoff
    omega

/-- Whatever the step does to the queue, its files and its chunks are those of the call. -/
theorem round_withRoom {room : ℕ} (h : Round (cfg.withRoom room) s t) : Round cfg s t := by
  cases h with
  | queue hfree hundone hpicks => exact .queue hfree hundone (picks_withRoom.mp hpicks)

/-! ## The head of the loop -/

theorem not_failing_of_head (hphase : s.phase = .head) : ¬ Failing s :=
  not_failing_of_phase (by simp [hphase]) (by simp [hphase])

theorem Kept.held_of_head (h : Kept cfg s) (hphase : s.phase = .head) : Held cfg s :=
  h.held.resolve_left (not_failing_of_head hphase)

/-- How the queueing loop ends at the head of the loop, whatever room the queue has. -/
theorem Kept.enqueue_cases (h : Kept cfg s) (hpos : 0 < cfg.nfiles) (hphase : s.phase = .head)
    (room : ℕ) : ∃ u, Relation.ReflTransGen (Round cfg) s u ∧
      (refusal (cfg.withRoom room) s.freeSlots.length s = none ∧
          (∃ rr, enqueue (cfg.withRoom room) s.freeSlots.length s = { u with rr := rr }) ∨
        Refuses (cfg.withRoom room) u (enqueue (cfg.withRoom room) s.freeSlots.length s) ∧
          refusal (cfg.withRoom room) s.freeSlots.length s =
            some (u, enqueue (cfg.withRoom room) s.freeSlots.length s)) := by
  have htable : Table (cfg.withRoom room) s := table_withRoom.mpr (h.held_of_head hphase).table
  obtain ⟨u, hrounds, hend⟩ := WriteManyfiles.enqueue_cases (show 0 < (cfg.withRoom room).nfiles
    from hpos) s.freeSlots.length htable (Nat.le_refl _)
  refine ⟨u, Relation.ReflTransGen.mono (fun _ _ => round_withRoom) _ _ hrounds, hend.imp_left ?_⟩
  rintro ⟨rr, -, heq, hnone⟩
  exact ⟨hnone, rr, heq⟩

/-- A queue with room for `qd` entries is not found full. -/
theorem Refuses.room_lt (h : Refuses cfg s t) (hheld : Held cfg s) (haccounts : Accounts s) :
    cfg.sqEntries < cfg.qd := by
  have hcount := hheld.count haccounts
  rw [haccounts.inflight, card_pending] at hcount
  cases h with
  | refuse hfree _ _ hfull =>
    rw [hfree, List.length_cons] at hcount
    omega

/-- **A queue with room for `qd` entries is never found full.** -/
theorem Kept.unrefused_of_room (h : Kept cfg s) (hpos : 0 < cfg.nfiles) (hphase : s.phase = .head)
    (hroom : cfg.qd ≤ e.1) : Unrefused cfg s e := by
  unfold Unrefused
  split
  · intro _
    obtain ⟨u, hrounds, ⟨hnone, -⟩ | ⟨hrefuses, -⟩⟩ := h.enqueue_cases hpos hphase e.1
    · exact hnone
    · have hloop := h.good.looping (Or.inl hphase)
      have hu := (h.held_of_head hphase).rounds hrounds
      have hheld : Held (cfg.withRoom e.1) u := held_withRoom.mpr hu
      have hlt := hrefuses.room_lt hheld (hloop.accounts.rounds hrounds)
      exact absurd hroom (Nat.not_le.mpr hlt)
  · trivial

theorem Hole.stepRoom (h : Hole cfg s) (hkept : Kept cfg s) (hpos : 0 < cfg.nfiles)
    (ht : stepRoom cfg s e = some t) : Hole cfg t := by
  rcases stepRoom_cases ht with ⟨hbooks, -⟩ | ⟨r, -, hphase, hcont, rfl⟩
  · exact h.congr hbooks.fileOff hbooks.prepped
  · have hbooks : SameBooks _ (fill (cfg.withRoom e.1) r s) :=
      fill_books (show s.Continues (cfg.withRoom e.1) from hcont) r
    refine Hole.congr ?_ hbooks.fileOff hbooks.prepped
    obtain ⟨u, hrounds, ⟨-, rr, heq⟩ | ⟨hrefuses, -⟩⟩ := hkept.enqueue_cases hpos hphase e.1
    · rw [heq]
      exact (h.rounds hrounds).congr rfl rfl
    · have hhole : Hole (cfg.withRoom e.1) u := h.rounds hrounds
      exact hhole.refuses hrefuses

/-! ## What is lost stays lost -/

theorem Left.step (h : Left s) {e : Event} (ht : step cfg s e = some t) : Left t := by
  cases step_cases ht with
  | complete _ hc =>
    obtain ⟨q, ring, -, -, rfl⟩ := complete_cases hc
    exact h
  | @finish err =>
    unfold WriteManyfiles.finish
    split
    · rcases fails_fsyncAll err (List.range cfg.nfiles) s with
        ⟨l, -, heq⟩ | ⟨l, r, -, -, heq⟩ <;> rw [heq] <;> exact Or.inr (Or.inl rfl)
    · exact Or.inr (Or.inl rfl)
  | cleanup => exact Or.inr (Or.inr ⟨_, rfl⟩)
  | fill hphase | waitFails hphase | waits hphase | reap hphase | waitOneFails hphase
  | waitOneReaps hphase => exact absurd h (by simp [Left, Returned, hphase])

theorem left_batch {got i : ℕ} {cs : List (Sqe × ℤ)} (h : Left (reapBatch cfg got i cs s)) :
    Left s ∨ Failing (reapBatch cfg got i cs s) := by
  rcases @reapBatch_cases cfg got cs i s with ⟨-, hfailed, -⟩ | ⟨-, free, heq⟩
  · exact Or.inr (Or.inl ⟨hfailed.phase, hfailed.ret⟩)
  · rw [heq] at h
    exact absurd h (by simp [Left, Returned])

/-- Where the loop is left in another place than its head, something fails. -/
theorem left_cases {e : Event} (he : ∀ r, e ≠ .fill r) (ht : step cfg s e = some t) (h : Left t) :
    Left s ∨ Failing t := by
  cases step_cases ht with
  | complete _ hc =>
    obtain ⟨q, ring, -, -, rfl⟩ := complete_cases hc
    exact Or.inl h
  | @fill r => exact absurd rfl (he r)
  | waitFails _ hneg => exact Or.inr (Or.inl ⟨rfl, hneg⟩)
  | waits => exact absurd h (by simp [Left, Returned])
  | reap =>
    unfold WriteManyfiles.reap at h ⊢
    simp only at h ⊢
    split at h
    · exact absurd h (by simp [Left, Returned])
    next hne =>
    rw [if_neg hne]
    exact left_batch h
  | waitOneFails _ hneg => exact Or.inr (Or.inl ⟨rfl, hneg⟩)
  | waitOneReaps => exact left_batch h
  | finish hphase => exact Or.inl (Or.inl hphase)
  | cleanup hphase => exact Or.inl (Or.inr (Or.inl hphase))

theorem Flawed.stepRoom (h : Flawed cfg s) (hkept : Kept cfg s) (hpos : 0 < cfg.nfiles)
    (ht : stepRoom cfg s e = some t) : Flawed cfg t := by
  rcases h with hfail | hhole | ⟨hleft, hundone⟩
  · exact Or.inl (hfail.step ht)
  · exact Or.inr (Or.inl (hhole.stepRoom hkept hpos ht))
  · rcases stepRoom_cases ht with ⟨hbooks, -⟩ | ⟨r, -, hphase, -⟩
    · exact Or.inr (Or.inr ⟨hleft.step ht, by rw [hbooks.doneFiles]; exact hundone⟩)
    · exact absurd hleft (by simp [Left, Returned, hphase])

/-- A refused round leaves a hole. -/
theorem hole_of_refused (hkept : Kept cfg s) (hpos : 0 < cfg.nfiles) (hblock : 0 < cfg.blockSize)
    (ht : stepRoom cfg s e = some t) (h : ¬ Unrefused cfg s e) : Hole cfg t := by
  rcases stepRoom_cases ht with ⟨-, hun⟩ | ⟨r, he, hphase, hcont, rfl⟩
  · exact absurd hun h
  · have hbooks : SameBooks _ (fill (cfg.withRoom e.1) r s) :=
      fill_books (show s.Continues (cfg.withRoom e.1) from hcont) r
    refine Hole.congr ?_ hbooks.fileOff hbooks.prepped
    obtain ⟨u, hrounds, ⟨hnone, -⟩ | ⟨hrefuses, -⟩⟩ := hkept.enqueue_cases hpos hphase e.1
    · refine absurd ?_ h
      rw [Unrefused, he]
      exact fun _ => hnone
    · have hu := (hkept.held_of_head hphase).rounds hrounds
      have hheld : Held (cfg.withRoom e.1) u := held_withRoom.mpr hu
      exact hrefuses.hole hheld hblock

/-- With nothing in flight and a search that finds nothing, nothing is queued. -/
theorem Kept.enqueue_of_none (h : Kept cfg s) (hpos : 0 < cfg.nfiles) (hqd : 0 < cfg.qd)
    (hphase : s.phase = .head) (hzero : s.inflight = 0) (hundone : s.doneFiles < cfg.nfiles)
    (hnone : (pick cfg cfg.nfiles s).1 = none) (room : ℕ) :
    ∃ rr, enqueue (cfg.withRoom room) s.freeSlots.length s = { s with rr := rr } := by
  have hheld := h.held_of_head hphase
  have hcount := hheld.count (h.good.looping (Or.inl hphase)).accounts
  rw [hzero, Nat.zero_add] at hcount
  have hne : s.freeSlots ≠ [] := List.length_pos_iff.mp (hcount ▸ hqd)
  obtain ⟨slot, rest, hfree⟩ := List.exists_cons_of_ne_nil hne
  rcases pick_cases hheld.table hpos cfg.nfiles s.rr with ⟨rr, heq⟩ | ⟨f, rr, -, -, heq⟩
  · have hmiss : Misses (cfg.withRoom room) s rr :=
      ⟨hne, hundone, (pick_withRoom room _ s).trans heq⟩
    have hlen : s.freeSlots.length = rest.length + 1 := by rw [hfree, List.length_cons]
    exact ⟨rr, hlen ▸ enqueue_of_misses hfree hmiss⟩
  · have hfound : (pick cfg cfg.nfiles s).1 = some _ := congrArg Prod.fst heq
    rw [hnone] at hfound
    exact absurd hfound (by simp)

/-- Where the loop does not go on, it is left, or something fails. -/
theorem left_of_not_goesOn (hkept : Kept cfg s) (hpos : 0 < cfg.nfiles) (hqd : 0 < cfg.qd)
    (ht : stepRoom cfg s e = some t) (h : ¬ GoesOn cfg s e) :
    Failing t ∨ Left t ∧ t.doneFiles < cfg.nfiles := by
  obtain ⟨room, e⟩ := e
  cases e with
  | fill r =>
    simp only [GoesOn, Classical.not_imp] at h
    obtain ⟨hzero, hundone, hstops⟩ := h
    obtain ⟨hphase, ht⟩ := Option.ite_none_right_eq_some.mp ht
    rw [← Option.some.inj ht]
    by_cases hcont : s.Continues cfg
    · have hnone : (pick cfg cfg.nfiles s).1 = none :=
        not_not.mp fun hne => hstops ⟨hcont.resolve_right (not_not.mpr hzero), hne⟩
      obtain ⟨rr, henqueue⟩ := hkept.enqueue_of_none hpos hqd hphase hzero hundone hnone room
      rcases fill_of_continues (hkept.good.looping (Or.inl hphase))
        (show s.Continues (cfg.withRoom room) from hcont) r with ⟨ret, -, heq⟩ | ⟨hneg, heq⟩
      · rw [heq, henqueue, State.awaitAny, if_pos hzero]
        exact Or.inr ⟨Or.inl rfl, hundone⟩
      · rw [heq]
        exact Or.inl (Or.inl ⟨rfl, hneg⟩)
    · unfold fill
      rw [if_neg (show ¬ s.Continues (cfg.withRoom room) from hcont)]
      exact Or.inr ⟨Or.inl rfl, hundone⟩
  | _ => exact absurd trivial h

/-! ## What is not lost is written -/

theorem stepRoom_of_unrefused (hkept : Kept cfg s) (hun : Unrefused cfg s e)
    (ht : stepRoom cfg s e = some t) : step (cfg.withRoom cfg.qd) s e.2 = some t := by
  obtain ⟨room, e⟩ := e
  cases e with
  | fill r =>
    obtain ⟨hphase, ht⟩ := Option.ite_none_right_eq_some.mp ht
    refine Option.ite_none_right_eq_some.mpr ⟨hphase, ?_⟩
    rw [← ht]
    unfold fill
    by_cases hcont : s.Continues cfg
    · have hloop := hkept.good.looping (Or.inl hphase)
      have hcount := (hkept.held_of_head hphase).count hloop.accounts
      have henqueue : enqueue (cfg.withRoom cfg.qd) s.freeSlots.length s =
          enqueue (cfg.withRoom room) s.freeSlots.length s :=
        enqueue_withRoom _ (hun hcont) (by rw [hloop.queued, List.length_nil]; omega)
      rw [henqueue]
      rfl
    · rw [if_neg (show ¬ s.Continues (cfg.withRoom cfg.qd) from hcont),
        if_neg (show ¬ s.Continues (cfg.withRoom room) from hcont)]
  | reap =>
    obtain ⟨hphase, ht⟩ := Option.ite_none_right_eq_some.mp ht
    refine Option.ite_none_right_eq_some.mpr ⟨hphase, ?_⟩
    rw [← ht]
    unfold reap
    simp only [reapBatch_withRoom]
  | waitOne r =>
    obtain ⟨hphase, ht⟩ := Option.ite_none_right_eq_some.mp ht
    refine Option.ite_none_right_eq_some.mpr ⟨hphase, ?_⟩
    rw [← ht]
    unfold waitOne
    simp only [reapBatch_withRoom]
  | _ => exact ht

theorem eq_of_rounds_of_inflight (h : Relation.ReflTransGen (Round cfg) s u)
    (hzero : u.inflight = 0) : u = s := by
  cases h with
  | refl => rfl
  | tail _ hround =>
    cases hround
    exact absurd hzero (Nat.succ_ne_zero _)

/-- What holds as long as the queue is not found full and the loop goes on. -/
structure Going (cfg : Config) (s : State) : Prop where
  kept : Kept cfg s
  sound : Sound (cfg.withRoom cfg.qd) s
  finished : Left s → Failing s ∨ cfg.nfiles ≤ s.doneFiles

theorem Going.plan (h : Going cfg s) (hphase : s.phase = .head) :
    Plan (cfg.withRoom cfg.qd) s :=
  (h.sound.alive.resolve_left (not_failing_of_head hphase)).plan

/-- The loop is left at its head with all files finished. -/
theorem Going.finished_fill (h : Going cfg s) (hcfg : Undisturbed (cfg.withRoom cfg.qd))
    (hphase : s.phase = .head) {room : ℕ} {r : ℤ} (hgo : GoesOn cfg s (room, .fill r)) (r' : ℤ)
    (hleft : Left (fill (cfg.withRoom cfg.qd) r' s)) :
    Failing (fill (cfg.withRoom cfg.qd) r' s) ∨
      cfg.nfiles ≤ (fill (cfg.withRoom cfg.qd) r' s).doneFiles := by
  have hloop := h.kept.good.looping (Or.inl hphase)
  by_cases hcont : s.Continues (cfg.withRoom cfg.qd)
  · obtain ⟨u, rr, hrounds, hex, ⟨ret, -, heq⟩ | ⟨hneg, heq⟩⟩ :=
      fill_rounds hcfg.pos.1 hcfg.room hloop (h.plan hphase) hcont r' <;> rw [heq] at hleft ⊢
    · rcases awaitAny_cases { u with rr := rr, ring := u.ring.submit, ret := ret } with
        ⟨hzero, heq⟩ | ⟨-, heq⟩ <;> rw [heq] at hleft ⊢
      · -- nothing is in flight, so nothing was queued
        obtain rfl := eq_of_rounds_of_inflight hrounds hzero
        have hcount := (h.kept.held_of_head hphase).count hloop.accounts
        rcases hex with ⟨hnil | hdone, -⟩ | hmiss
        · rw [hnil, List.length_nil, hzero] at hcount
          exact absurd hcount (Nat.ne_of_lt hcfg.pos.2.2.2)
        · exact Or.inr hdone
        · refine absurd ?_ (hgo hzero hmiss.undone).2
          have hnone := congrArg Prod.fst hmiss.eq
          rwa [pick_withRoom] at hnone
      · exact absurd hleft (by simp [Left, Returned])
    · exact Or.inl (Or.inl ⟨rfl, hneg⟩)
  · obtain ⟨hwritten, hzero⟩ := not_or.mp hcont
    refine Or.inr ?_
    unfold fill
    rw [if_neg hcont]
    by_contra hundone
    exact hwritten (hgo (not_not.mp hzero) (Nat.not_le.mp hundone)).1

theorem Going.stepRoom (h : Going cfg s) (hentry : entry cfg = .head) (hun : Unrefused cfg s e)
    (hgo : GoesOn cfg s e) (ht : stepRoom cfg s e = some t) : Going cfg t := by
  have hcfg : Undisturbed (cfg.withRoom cfg.qd) := ⟨hentry, Nat.le_refl _⟩
  have hstep := stepRoom_of_unrefused h.kept hun ht
  refine ⟨h.kept.stepRoom hcfg.pos.1 ht, h.sound.step hcfg hstep, ?_⟩
  obtain ⟨room, e⟩ := e
  cases e with
  | fill r =>
    intro hleft
    obtain ⟨hphase, ht⟩ := Option.ite_none_right_eq_some.mp hstep
    rw [← Option.some.inj ht] at hleft ⊢
    exact h.finished_fill hcfg hphase hgo r hleft
  | _ =>
    intro hleft
    have hbooks := step_books (by simp) hstep
    rw [hbooks.doneFiles]
    rcases left_cases (by simp) hstep hleft with hs | hfail
    · exact (h.finished hs).imp_left fun hfail => hfail.step hstep
    · exact Or.inl hfail

/-- Everything is written at the end. -/
theorem Going.allWritten (h : Going cfg s) {r : ℤ} (hr : 0 ≤ r) (hret : s.phase = .returned r)
    (hfull : ∀ x ∈ dones s.log, x.2 = x.1.len) : AllWritten cfg s := by
  have hnot := not_failing_of_returned hr hret
  have hdone := (h.finished (Or.inr (Or.inr ⟨r, hret⟩))).resolve_left hnot
  have hplan := (h.sound.alive.resolve_left hnot).plan
  have hledger : Ledger s.log s.ring := ⟨h.sound.balanced.perm, hfull⟩
  have hidle : s.ring.Idle := by
    have hgood := h.kept.good
    simp only [Good, hret] at hgood
    exact (hgood.resolve_left (Int.not_lt.mpr hr)).2.idle
  intro f hf p hp
  have htiles := hplan.tiles f
  rw [(h.kept.held.resolve_left hnot).table.all_done hdone hf] at htiles
  have hcount := (hledger.settled length_pattern hidle htiles).2.1 p
  rw [if_pos hp] at hcount
  obtain ⟨x, hx, hwrites⟩ := List.countP_pos_iff.mp (Nat.lt_of_lt_of_eq Nat.one_pos hcount.symm)
  exact ⟨x, hx, of_decide_eq_true hwrites⟩

/-- Where everything is written there is no flaw. -/
theorem Kept.not_flawed (h : Kept cfg s) {r : ℤ} (hr : 0 ≤ r) (hret : s.phase = .returned r)
    (hall : AllWritten cfg s) : ¬ Flawed cfg s := by
  have hnot := not_failing_of_returned hr hret
  have hheld := h.held.resolve_left hnot
  -- what writes a position of a file was asked for
  have hasked : ∀ f < cfg.nfiles, ∀ p < cfg.perFileBytes,
      ∃ q ∈ prepped s.log, q.file = f ∧ q.off ≤ p ∧ p < q.off + q.len := by
    intro f hf p hp
    obtain ⟨x, hx, hfile, hoff, hlt⟩ := hall f hf p hp
    have hle := hheld.balanced.le x hx
    exact ⟨x.1, hheld.balanced.mem_prepped hx, hfile, hoff, by omega⟩
  rintro (hfail | ⟨f, hf, p, hp, hno⟩ | ⟨-, hundone⟩)
  · exact hnot hfail
  · obtain ⟨q, hq, hfile, hoff, hlt⟩ := hasked f hf p (Nat.lt_of_lt_of_le hp (hheld.table.off_le f))
    have := hno q hq hfile
    omega
  · obtain ⟨f, hf, hnotDone⟩ := hheld.table.exists_notDone hundone
    obtain ⟨q, hq, rfl, -, hlt⟩ := hasked f hf _ (hheld.table.lt_of_notDone hnotDone)
    exact absurd hlt (Nat.not_lt.mpr (hheld.below q hq))

/-! ## Sizes that do not overflow -/

/-- What holds as long as the queue is not found full. -/
structure Turning (cfg : Config) (s : State) : Prop where
  kept : Kept cfg s
  sound : Sound (cfg.withRoom cfg.qd) s
  regular : Failing s ∨ Regular (cfg.withRoom cfg.qd) s

theorem Regular.congr (h : Regular cfg s) (hbooks : SameBooks s t) : Regular cfg t where
  turn := by rw [hbooks.rr, hbooks.prepped]; exact h.turn
  le := by rw [hbooks.prepped]; exact h.le
  off := by rw [hbooks.fileOff, hbooks.prepped]; exact h.off
  placed := by rw [hbooks.prepped]; exact h.placed

theorem Turning.alive (h : Turning cfg s) (hphase : s.phase = .head) :
    Alive (cfg.withRoom cfg.qd) s ∧ Regular (cfg.withRoom cfg.qd) s :=
  ⟨h.sound.alive.resolve_left (not_failing_of_head hphase),
    h.regular.resolve_left (not_failing_of_head hphase)⟩

theorem Turning.stepRoom (h : Turning cfg s) (hcfg : Undisturbed (cfg.withRoom cfg.qd))
    (hchunks : cfg.chunks < 2 ^ 32) (hun : Unrefused cfg s e)
    (ht : stepRoom cfg s e = some t) : Turning cfg t := by
  have hstep := stepRoom_of_unrefused h.kept hun ht
  refine ⟨h.kept.stepRoom hcfg.pos.1 ht, h.sound.step hcfg hstep, ?_⟩
  obtain ⟨room, e⟩ := e
  cases e with
  | fill r =>
    obtain ⟨hphase, ht⟩ := Option.ite_none_right_eq_some.mp hstep
    rw [← Option.some.inj ht]
    obtain ⟨halive, hregular⟩ := h.alive hphase
    by_cases hcont : s.Continues (cfg.withRoom cfg.qd)
    · obtain ⟨u, rr, hrounds, hex, ⟨ret, -, heq⟩ | ⟨hneg, heq⟩⟩ := fill_rounds hcfg.pos.1 hcfg.room
        (h.kept.good.looping (Or.inl hphase)) halive.plan hcont r <;> rw [heq]
      · obtain ⟨hu, htable⟩ := hregular.rounds hcfg hchunks halive.plan.table hrounds
        obtain ⟨-, rfl⟩ := hex.resolve_right (hu.not_misses hcfg htable)
        exact Or.inr { hu with }
      · exact Or.inl (Or.inl ⟨rfl, hneg⟩)
    · unfold fill
      rw [if_neg hcont]
      exact Or.inr { hregular with }
  | _ =>
    exact h.regular.imp (fun hfail => hfail.step hstep)
      fun hregular => hregular.congr (step_books (by simp) hstep)

/-- Files that are not finished were not asked for in full. -/
theorem Plan.asked_lt (h : Plan cfg s) (hundone : s.doneFiles < cfg.nfiles) :
    ((prepped s.log).map Sqe.len).sum < cfg.nfiles * cfg.perFileBytes := by
  obtain ⟨f, hf, hnot⟩ := h.table.exists_notDone hundone
  have hlt : ∑ f ∈ Finset.range cfg.nfiles, s.fileOff f <
      ∑ _f ∈ Finset.range cfg.nfiles, cfg.perFileBytes :=
    Finset.sum_lt_sum (fun g _ => h.table.off_le g)
      ⟨f, Finset.mem_range.mpr hf, h.table.lt_of_notDone hnot⟩
  rw [Finset.sum_const, Finset.card_range, smul_eq_mul] at hlt
  rw [h.reserved]
  exact hlt

/-- **With sizes that do not overflow the loop goes on** while there are files to write. -/
theorem Turning.goesOn (h : Turning cfg s) (hcfg : Undisturbed (cfg.withRoom cfg.qd))
    (hbytes : cfg.nfiles * cfg.mbPerFile * 2 ^ 20 < 2 ^ 63)
    (ht : WriteManyfiles.stepRoom cfg s e = some t) : GoesOn cfg s e := by
  obtain ⟨room, e⟩ := e
  cases e with
  | fill r =>
    intro _ hundone
    obtain ⟨hphase, -⟩ := Option.ite_none_right_eq_some.mp ht
    obtain ⟨halive, hregular⟩ := h.alive hphase
    constructor
    · have hlt : _ < cfg.nfiles * cfg.perFileBytes := halive.plan.asked_lt hundone
      have hle := h.sound.balanced.sum_le
      have hcounted := halive.counted
      rw [totalBytes_eq hbytes]
      omega
    · have hpicks := picks_withRoom.mp (hregular.picks hcfg halive.plan.table hundone)
      rw [hpicks.eq]
      simp
  | _ => trivial

/-! ## Runs -/

theorem undisturbed_withRoom (hentry : entry cfg = .head) : Undisturbed (cfg.withRoom cfg.qd) :=
  ⟨hentry, Nat.le_refl _⟩

theorem turning_start (hentry : entry cfg = .head) : Turning cfg (start cfg) :=
  ⟨kept_start hentry, sound_start (undisturbed_withRoom hentry), Or.inr regular_start⟩

theorem going_start (hentry : entry cfg = .head) : Going cfg (start cfg) := by
  refine ⟨kept_start hentry, sound_start (undisturbed_withRoom hentry), ?_⟩
  intro hleft
  have hphase : (start cfg).phase = .head := hentry
  exact absurd hleft (by simp [Left, Returned, hphase])

section Runs

variable (hentry : entry cfg = .head) (hrun : exec (stepRoom cfg) (start cfg) es = some t)

include hentry hrun

/-- A round that finds the queue full does not put the books back. -/
theorem restores_iff_unrefused : Meets (stepRoom cfg) (Restores cfg) (start cfg) es ↔
    Meets (stepRoom cfg) (Unrefused cfg) (start cfg) es := by
  have hpos := pos_of_entry hentry
  constructor
  · refine meets_of_exec (I := Kept cfg) ?_ (kept_start hentry) hrun
    intro s e t hkept hrestores ht
    refine ⟨?_, hkept.stepRoom hpos.1 ht⟩
    rcases stepRoom_cases ht with ⟨-, hun⟩ | ⟨r, he, hphase, hcont, -⟩
    · exact hun
    rw [Restores, he] at hrestores
    rw [Unrefused, he]
    intro _
    obtain ⟨u, hrounds, ⟨hnone, -⟩ | ⟨hrefuses, hsome⟩⟩ := hkept.enqueue_cases hpos.1 hphase e.1
    · exact hnone
    · have hu := (hkept.held_of_head hphase).rounds hrounds
      have htable : Table (cfg.withRoom e.1) u := table_withRoom.mpr hu.table
      exact absurd (hrestores hcont u _ hsome) (hrefuses.not_restored htable hpos.2.2.1)
  · refine meets_of_exec (I := fun _ => True) ?_ trivial hrun
    intro s e t _ hun _
    refine ⟨?_, trivial⟩
    obtain ⟨room, e⟩ := e
    cases e with
    | fill r =>
      intro hcont u v hsome
      rw [hun hcont] at hsome
      exact absurd hsome (by simp)
    | _ => trivial

/-- What a run writes. -/
theorem allWritten_iff {r : ℤ} (hr : 0 ≤ r) (hret : t.phase = .returned r)
    (hfull : ∀ x ∈ dones t.log, x.2 = x.1.len) : AllWritten cfg t ↔
      Meets (stepRoom cfg) (fun s e => Unrefused cfg s e ∧ GoesOn cfg s e) (start cfg) es := by
  obtain ⟨hpos, -, hblock, hqd⟩ := pos_of_entry hentry
  constructor
  · intro hall
    have hkept : Kept cfg t := (reach_anyStep_of_exec hrun).invariant (kept_start hentry)
      fun _ _ _ hkept _ ht => hkept.stepRoom hpos ht
    refine meets_of_flawless (I := Kept cfg) (F := Flawed cfg)
      (fun _ _ _ hkept ht => hkept.stepRoom hpos ht)
      (fun _ _ _ hkept ht hflawed => hflawed.stepRoom hkept hpos ht) ?_ (kept_start hentry) hrun
      (hkept.not_flawed hr hret hall)
    intro s e u hkept hu hnot
    by_cases hun : Unrefused cfg s e
    · have hgo : ¬ GoesOn cfg s e := fun hgo => hnot ⟨hun, hgo⟩
      exact (left_of_not_goesOn hkept hpos hqd hu hgo).imp_right Or.inr
    · exact Or.inr (Or.inl (hole_of_refused hkept hpos hblock hu hun))
  · intro hmeets
    have hgoing : Going cfg t := (reach_of_exec hmeets hrun).invariant (going_start hentry)
      fun _ _ _ hgoing hand ht => hgoing.stepRoom hentry hand.1 hand.2 ht
    exact hgoing.allWritten hr hret hfull

/-- With sizes that do not overflow the loop goes on. -/
theorem meets_goesOn_iff (hbytes : cfg.nfiles * cfg.mbPerFile * 2 ^ 20 < 2 ^ 63)
    (hchunks : cfg.chunks < 2 ^ 32) :
    Meets (stepRoom cfg) (fun s e => Unrefused cfg s e ∧ GoesOn cfg s e) (start cfg) es ↔
      Meets (stepRoom cfg) (Unrefused cfg) (start cfg) es := by
  have hcfg := undisturbed_withRoom hentry
  constructor
  · exact meets_of_exec (I := fun _ => True) (fun _ _ _ _ hand _ => ⟨hand.1, trivial⟩) trivial hrun
  · exact meets_of_exec (I := Turning cfg) (fun _ _ _ hturning hun ht =>
      ⟨⟨hun, hturning.goesOn hcfg hbytes ht⟩, hturning.stepRoom hcfg hchunks hun ht⟩)
      (turning_start hentry) hrun

end Runs

/-- **When the back-off loses nothing.**  The books are put back after each round that finds the
queue full exactly when there is none, since the offset of the file is never put back.  A run
that returns a count, and in which every write was completed in full, has written every position
of every file exactly when the queue was never found full and the loop went on while there were
files to write; with sizes that do not overflow the latter is always so. -/
theorem backoff_iff (cfg : Config) (es : List (ℕ × Event)) (t : State)
    (hrun : exec (stepRoom cfg) (start cfg) es = some t) :
    (Meets (stepRoom cfg) (Restores cfg) (start cfg) es ↔
      Meets (stepRoom cfg) (Unrefused cfg) (start cfg) es) ∧
    ∀ r : ℤ, 0 ≤ r → t.phase = .returned r → (∀ x ∈ dones t.log, x.2 = x.1.len) →
      (AllWritten cfg t ↔ Meets (stepRoom cfg) (fun s e => Unrefused cfg s e ∧ GoesOn cfg s e)
        (start cfg) es) ∧
      (cfg.nfiles * cfg.mbPerFile * 2 ^ 20 < 2 ^ 63 → cfg.chunks < 2 ^ 32 →
        (AllWritten cfg t ↔ Meets (stepRoom cfg) (Unrefused cfg) (start cfg) es)) := by
  rcases entry_cases cfg with ⟨hentry, -⟩ | ⟨r', hneg, hentry⟩
  · refine ⟨restores_iff_unrefused hentry hrun, fun r hr hret hfull => ?_⟩
    have hall := allWritten_iff hentry hrun hr hret hfull
    exact ⟨hall, fun hbytes hchunks => hall.trans (meets_goesOn_iff hentry hrun hbytes hchunks)⟩
  · have hstart : (start cfg).phase = .returned r' := hentry
    obtain rfl := eq_nil_of_exec (fun e => step_of_returned hstart e.2) hrun
    obtain rfl := Option.some.inj hrun
    refine ⟨Iff.rfl, fun r hr hret _ => ?_⟩
    rw [hstart, Phase.returned.injEq] at hret
    omega

/-- One file of one MiB in four chunks, two at a time. -/
def fourChunks : Config where
  dirPath := "out"
  nfiles := 1
  mbPerFile := 1
  blockSize := 2 ^ 18
  qd := 2
  doFsyncEnd := false
  sqEntries := 2
  setup := .ok
  nfiles_lt := one_lt_uint32
  mbPerFile_lt := one_lt_uint32
  blockSize_lt := by decide
  qd_lt := two_lt_uint32

/-- The end of the first pass, and the second pass, which is the last. -/
def secondPass : List Event :=
  [.wait 0, .reap, .fill 2, .complete 0 (2 ^ 18), .complete 0 (2 ^ 18), .wait 0, .reap, .fill 0,
    .finish fun _ => none, .cleanup]

/-- The first pass has room for `room` chunks. -/
def twoPasses (room : ℕ) : List (ℕ × Event) :=
  let writes := List.replicate room (Event.complete 0 (2 ^ 18))
  (room, .fill 1) :: (writes ++ secondPass).map (Prod.mk 2)

theorem twoPasses_isSome :
    (exec (stepRoom fourChunks) (start fourChunks) (twoPasses 2)).isSome = true := by
  decide

/-- Where the run with room for both chunks ends. -/
def fourWritten : State :=
  (exec (stepRoom fourChunks) (start fourChunks) (twoPasses 2)).get twoPasses_isSome

theorem backoff_iff_fourWritten :
    (Meets (stepRoom fourChunks) (Restores fourChunks) (start fourChunks) (twoPasses 2) ↔
      Meets (stepRoom fourChunks) (Unrefused fourChunks) (start fourChunks) (twoPasses 2)) ∧
    (AllWritten fourChunks fourWritten ↔ Meets (stepRoom fourChunks)
      (fun s e => Unrefused fourChunks s e ∧ GoesOn fourChunks s e) (start fourChunks)
      (twoPasses 2)) ∧
    (AllWritten fourChunks fourWritten ↔
      Meets (stepRoom fourChunks) (Unrefused fourChunks) (start fourChunks) (twoPasses 2)) := by
  obtain ⟨hbooks, hall⟩ :=
    backoff_iff fourChunks (twoPasses 2) fourWritten (Option.some_get _).symm
  obtain ⟨hwritten, hsizes⟩ := hall (2 ^ 20) (by decide) (by decide) (by decide)
  exact ⟨hbooks, hwritten, hsizes (by decide) (by decide)⟩

theorem refused_isSome :
    (exec (stepRoom fourChunks) (start fourChunks) (twoPasses 1)).isSome = true := by
  decide

/-- Where the run with room for one chunk ends. -/
def threeWritten : State :=
  (exec (stepRoom fourChunks) (start fourChunks) (twoPasses 1)).get refused_isSome

/-- **The second chunk is lost**: the first pass has room for one chunk of two, the second pass
writes the third and the fourth, and the sizes of three are returned. -/
theorem second_chunk_lost :
    exec (stepRoom fourChunks) (start fourChunks) (twoPasses 1) = some threeWritten ∧
      threeWritten.phase = .returned (3 * 2 ^ 18) ∧
      (∀ x ∈ dones threeWritten.log, x.2 = x.1.len) ∧
      ¬ AllWritten fourChunks threeWritten ∧
      ¬ Meets (stepRoom fourChunks) (Restores fourChunks) (start fourChunks) (twoPasses 1) := by
  refine ⟨(Option.some_get _).symm, by decide, by decide, ?_, ?_⟩
  · intro hall
    obtain ⟨x, hx, hwrites⟩ := hall 0 (by decide) (2 ^ 18) (by decide)
    have hno : ∀ x ∈ dones threeWritten.log, ¬ Writes 0 (2 ^ 18) x := by decide
    exact hno x hx hwrites
  · intro hmeets
    have hfirst : Restores fourChunks (start fourChunks) (1, .fill 1) := hmeets.1
    have hsome : (refusal (fourChunks.withRoom 1) 2 (start fourChunks)).isSome = true := by decide
    have hmoved : ∀ x ∈ refusal (fourChunks.withRoom 1) 2 (start fourChunks),
        x.2.fileOff 0 ≠ x.1.fileOff 0 := by decide
    obtain ⟨⟨u, v⟩, huv⟩ := Option.isSome_iff_exists.mp hsome
    exact hmoved _ huv (congrFun (hfirst (by decide) u v huv).fileOff 0)

end WriteManyfiles
end Native
end Pyuring
