import Pyuring.Native.WriteManyfilesInvariant
import Pyuring.Native.WriteLedger

/-!
# Many files, written to their end

How `uring_write_manyfiles` ends when nothing goes wrong around it: it gets to its loop,
the submission queue has room for `qd` entries, no system call fails, and the kernel
completes every write in full, in any order and at any time.

`Books` is what all such runs have in common, however long.  The table of the files says
how much of each file was asked for; what was asked for tiles the file up to there; and
every slot is either free or that of one pending request.
-/

namespace Pyuring
namespace Native
namespace WriteManyfiles

open CompletionRing Trace

variable (cfg : Config)

/-- Nothing around the writes goes wrong. -/
structure Undisturbed : Prop where
  entry : entry cfg = .head
  room : cfg.qd ≤ cfg.sqEntries

/-- No system call fails, and the kernel completes every write in full. -/
def Answers (s : State) : Event → Prop
  | .complete i res => ∀ q, s.ring.outstanding[i]? = some q → res = q.len
  | .fill submitRet => 0 ≤ submitRet
  | .wait waitRet => 0 ≤ waitRet
  | .reap => True
  | .waitOne waitRet => 0 ≤ waitRet
  | .finish fsyncErr => ∀ i < cfg.nfiles, fsyncErr i = none
  | .cleanup => True

def Returned (s : State) : Prop := ∃ r, s.phase = .returned r

/-- The length of the chunk at `off`. -/
def Config.want (off : ℕ) : ℕ :=
  if cfg.perFileBytes - off < cfg.blockSize then cfg.perFileBytes - off else cfg.blockSize

/-- The table of the files: how much of each was asked for, and which are finished. -/
structure Table (s : State) : Prop where
  off_le : ∀ f, s.fileOff f ≤ cfg.perFileBytes
  done : ∀ f, s.fileDone f = true ↔ s.fileOff f = cfg.perFileBytes
  doneFiles : s.doneFiles = ((Finset.range cfg.nfiles).filter fun f => s.fileDone f = true).card

/-- The next chunk of file `f` is asked for. -/
def State.take (f : ℕ) (s : State) : State :=
  let off := s.fileOff f + cfg.want (s.fileOff f)
  { s with
    fileOff := Function.update s.fileOff f off
    fileDone := if cfg.perFileBytes ≤ off then Function.update s.fileDone f true else s.fileDone
    doneFiles := if cfg.perFileBytes ≤ off then s.doneFiles + 1 else s.doneFiles }

/-- The scan round the files finds file `f`, and goes on at `rr`. -/
structure Picks (s : State) (f rr : ℕ) : Prop where
  lt : f < cfg.nfiles
  notDone : s.fileDone f = false
  eq : pick cfg cfg.nfiles s =
    (some (f, s.fileOff f, cfg.want (s.fileOff f)), { s.take cfg f with rr := rr })

/-- For a free slot, the scan round the files finds none that is not finished, and goes on at
`rr`. -/
structure Misses (s : State) (rr : ℕ) : Prop where
  free : s.freeSlots ≠ []
  undone : s.doneFiles < cfg.nfiles
  eq : pick cfg cfg.nfiles s = (none, { s with rr := rr })

/-- The next chunk of file `f` is queued, from the slot on top of the stack. -/
def State.queue (slot : ℕ) (rest : List ℕ) (f rr : ℕ) (s : State) : State :=
  let q := writeSqe slot f (cfg.want (s.fileOff f)) (s.fileOff f)
  { s.take cfg f with
    rr := rr
    freeSlots := rest
    slotFile := Function.update s.slotFile slot f
    slots := Function.update s.slots slot
      { s.slots slot with off := s.fileOff f, len := cfg.want (s.fileOff f) }
    ring := { s.ring with queued := s.ring.queued ++ [q] }
    inflight := s.inflight + 1
    log := .prep q :: s.log }

/-- One round of the queueing loop, which queues a chunk. -/
inductive Round : State → State → Prop where
  | queue {s : State} {slot : ℕ} {rest : List ℕ} {f rr : ℕ} (free : s.freeSlots = slot :: rest)
      (undone : s.doneFiles < cfg.nfiles) (picks : Picks cfg s f rr) :
      Round s (s.queue cfg slot rest f rr)

/-- The queueing loop stops and goes on at `rr`: there is no slot, no file left to write, or
none was found. -/
def Exhausted (s : State) (rr : ℕ) : Prop :=
  (s.freeSlots = [] ∨ cfg.nfiles ≤ s.doneFiles) ∧ rr = s.rr ∨ Misses cfg s rr

/-- The `n` oldest completions are reaped. -/
def State.reaped (n : ℕ) (ret : ℤ) (s : State) : State :=
  { s with
    ring := s.ring.advance n
    inflight := s.inflight - n
    written := s.written + ((s.ring.completed.take n).map fun x => x.2.toNat).sum
    freeSlots := ((s.ring.completed.take n).map fun x => x.1.buf).reverse ++ s.freeSlots
    ret := ret
    phase := .head }

/-- The write `q` is completed in full. -/
def State.completed (i : ℕ) (q : Sqe) (s : State) : State :=
  { s with
    ring := { s.ring with
      outstanding := s.ring.outstanding.eraseIdx i
      completed := s.ring.completed ++ [(q, (q.len : ℤ))] }
    log := .done q q.len :: s.log
    files := Function.update s.files q.file
      ((s.files q.file).write q.off (pattern q.buf q.len)) }

/-- The steps of undisturbed writes. -/
inductive Moves (s : State) : State → Prop where
  | complete {i : ℕ} {q : Sqe} (phase : ∀ r, s.phase ≠ .returned r)
      (outstanding : s.ring.outstanding[i]? = some q) : Moves s (s.completed i q)
  | fill {u : State} {rr : ℕ} {ret : ℤ} (phase : s.phase = .head) (continues : s.Continues cfg)
      (rounds : Relation.ReflTransGen (Round cfg) s u) (exhausted : Exhausted cfg u rr)
      (ret_nonneg : 0 ≤ ret) :
      Moves s { u with rr := rr, ring := u.ring.submit, ret := ret }.awaitAny
  | leave (phase : s.phase = .head) (stops : ¬ s.Continues cfg) : Moves s { s with phase := .tail }
  | wait {ret : ℤ} (phase : s.phase = .wait) (ret_nonneg : 0 ≤ ret) :
      Moves s { s with ret := ret, phase := .reap }
  | nothing (phase : s.phase = .reap) : Moves s { s with phase := .fallback }
  | reap {n : ℕ} {ret : ℤ} (phase : s.phase = .reap ∨ s.phase = .fallback) (pos : 0 < n)
      (le : n ≤ s.ring.completed.length) (ret_nonneg : 0 ≤ ret) : Moves s (s.reaped n ret)
  | finish {l : List Ev} (phase : s.phase = .tail) (fsyncs : ∀ e ∈ l, ∃ f, e = Ev.fsync f) :
      Moves s { s with log := l ++ s.log, phase := .out }
  | cleanup (phase : s.phase = .out) : Moves s { s with phase := .returned s.written }

/-- What was asked for, and from which slots, whatever was moved. -/
structure Plan (s : State) : Prop where
  table : Table cfg s
  write : ∀ q ∈ prepped s.log, q.userData = packUd 1 (UInt32.ofNat q.buf) ∧ q.buf < cfg.qd ∧
    q.file < cfg.nfiles ∧ cfg.blockSize ∣ q.off ∧ q.len = cfg.want q.off ∧ 0 < q.len
  tiles : ∀ f, Tiles 0 (fileSpans f s.log) (s.fileOff f)
  grid : ∀ f, s.fileOff f = cfg.perFileBytes ∨ cfg.blockSize ∣ s.fileOff f
  reserved : ((prepped s.log).map Sqe.len).sum = ∑ f ∈ Finset.range cfg.nfiles, s.fileOff f
  slots : (s.freeSlots : Multiset ℕ) + s.ring.pending.map Sqe.buf = Multiset.range cfg.qd

/-- The books of the function. -/
structure Books (s : State) : Prop where
  table : Table cfg s
  ledger : Ledger s.log s.ring
  files : ∀ f, s.files f = SparseFile.ofWrites (blocks pattern f s.log)
  write : ∀ q ∈ prepped s.log, q.userData = packUd 1 (UInt32.ofNat q.buf) ∧ q.buf < cfg.qd ∧
    q.file < cfg.nfiles ∧ cfg.blockSize ∣ q.off ∧ q.len = cfg.want q.off ∧ 0 < q.len
  tiles : ∀ f, Tiles 0 (fileSpans f s.log) (s.fileOff f)
  grid : ∀ f, s.fileOff f = cfg.perFileBytes ∨ cfg.blockSize ∣ s.fileOff f
  reserved : ((prepped s.log).map Sqe.len).sum = ∑ f ∈ Finset.range cfg.nfiles, s.fileOff f
  slots : (s.freeSlots : Multiset ℕ) + s.ring.pending.map Sqe.buf = Multiset.range cfg.qd
  posted : ∀ x ∈ s.ring.completed, x ∈ dones s.log
  counted : s.written + (s.ring.completed.map fun x => x.2.toNat).sum =
    ((dones s.log).map fun x => x.2.toNat).sum

variable {cfg} {s t : State}

/-- A call that gets to its loop has something to do. -/
theorem pos_of_entry (hentry : entry cfg = .head) :
    0 < cfg.nfiles ∧ 0 < cfg.perFileBytes ∧ 0 < cfg.blockSize ∧ 0 < cfg.qd := by
  rcases entry_cases cfg with ⟨-, hn, hmb, hblock, hqd⟩ | ⟨r, -, hr⟩
  · refine ⟨hn, ?_, hblock, hqd⟩
    unfold Config.perFileBytes
    omega
  · rw [hentry] at hr
    exact absurd hr (by simp)

theorem Undisturbed.pos (hcfg : Undisturbed cfg) :
    0 < cfg.nfiles ∧ 0 < cfg.perFileBytes ∧ 0 < cfg.blockSize ∧ 0 < cfg.qd :=
  pos_of_entry hcfg.entry

theorem Undisturbed.phase_start (hcfg : Undisturbed cfg) : (start cfg).phase = .head := hcfg.entry

theorem length_pattern (slot n : ℕ) : (pattern slot n).length = n := by
  simp [pattern]

theorem getElem?_pattern {slot n k : ℕ} (hk : k < n) :
    (pattern slot n)[k]? = some (UInt8.ofNat (97 + (slot + k) % 26)) := by
  simp [pattern, hk]

theorem want_le (cfg : Config) (off : ℕ) : cfg.want off ≤ cfg.perFileBytes - off := by
  unfold Config.want
  split
  · exact Nat.le_refl _
  · omega

theorem want_pos (hblock : 0 < cfg.blockSize) {off : ℕ} (hoff : off < cfg.perFileBytes) :
    0 < cfg.want off := by
  unfold Config.want
  split
  · omega
  · exact hblock

/-! ## Looking for a file -/

theorem Table.lt_of_notDone (h : Table cfg s) {f : ℕ} (hf : s.fileDone f = false) :
    s.fileOff f < cfg.perFileBytes := by
  refine Nat.lt_of_le_of_ne (h.off_le f) ?_
  intro heq
  have hdone := (h.done f).mpr heq
  rw [hf] at hdone
  exact absurd hdone (by simp)

theorem Table.take (h : Table cfg s) {f : ℕ} (hlt : f < cfg.nfiles) (hf : s.fileDone f = false) :
    Table cfg (s.take cfg f) := by
  have hoff := h.lt_of_notDone hf
  have hwant := want_le cfg (s.fileOff f)
  refine ⟨?_, ?_, ?_⟩
  · intro g
    by_cases hg : g = f
    · subst hg
      simp only [State.take, Function.update_self]
      omega
    · simp only [State.take, Function.update_of_ne hg]
      exact h.off_le g
  · intro g
    by_cases hg : g = f
    · subst hg
      simp only [State.take, Function.update_self]
      split
      · next hge =>
        rw [Function.update_self]
        exact iff_of_true rfl (by omega)
      · next hlt' => exact iff_of_false (by simp [hf]) (by omega)
    · simp only [State.take, Function.update_of_ne hg]
      split
      · rw [Function.update_of_ne hg]
        exact h.done g
      · exact h.done g
  · simp only [State.take]
    split
    · have hfilter : (Finset.range cfg.nfiles).filter
          (fun g => Function.update s.fileDone f true g = true) =
          insert f ((Finset.range cfg.nfiles).filter fun g => s.fileDone g = true) := by
        ext g
        by_cases hg : g = f
        · subst hg
          simp [hlt]
        · simp [hg]
      rw [hfilter, Finset.card_insert_of_notMem (by simp [hf]), h.doneFiles]
    · exact h.doneFiles

/-- A scan finds nothing, or a file that is not finished. -/
theorem pick_cases (h : Table cfg s) (hpos : 0 < cfg.nfiles) : ∀ (tries rr : ℕ),
    (∃ rr', pick cfg tries { s with rr := rr } = (none, { s with rr := rr' })) ∨
      ∃ f rr', f < cfg.nfiles ∧ s.fileDone f = false ∧ pick cfg tries { s with rr := rr } =
        (some (f, s.fileOff f, cfg.want (s.fileOff f)), { s.take cfg f with rr := rr' })
  | 0, rr => Or.inl ⟨rr, rfl⟩
  | tries + 1, rr => by
    have hlt := Nat.mod_lt rr hpos
    rw [pick]
    simp only
    split
    · exact pick_cases h hpos tries _
    next hnot =>
    have hf : s.fileDone (rr % cfg.nfiles) = false := by simpa using hnot
    rw [if_neg (Nat.not_le.mpr (h.lt_of_notDone hf))]
    refine Or.inr ⟨rr % cfg.nfiles, (rr + 1) % 2 ^ 32, hlt, hf, ?_⟩
    simp only [State.take, Config.want]
    split <;> split <;> rfl

theorem picks_or_misses (h : Table cfg s) (hpos : 0 < cfg.nfiles) (hfree : s.freeSlots ≠ [])
    (hundone : s.doneFiles < cfg.nfiles) :
    (∃ rr, Misses cfg s rr) ∨ ∃ f rr, Picks cfg s f rr := by
  rcases pick_cases h hpos cfg.nfiles s.rr with ⟨rr, hnone⟩ | ⟨f, rr, hlt, hf, hsome⟩
  · exact Or.inl ⟨rr, hfree, hundone, hnone⟩
  · exact Or.inr ⟨f, rr, hlt, hf, hsome⟩

/-- Where the file whose turn it is has bytes left, it is the one that is found. -/
theorem picks_of_turn (h : Table cfg s) (hpos : 0 < cfg.nfiles)
    (hturn : s.fileDone (s.rr % cfg.nfiles) = false) :
    Picks cfg s (s.rr % cfg.nfiles) ((s.rr + 1) % 2 ^ 32) := by
  refine ⟨Nat.mod_lt s.rr hpos, hturn, ?_⟩
  obtain ⟨n, hn⟩ := Nat.exists_eq_succ_of_ne_zero (Nat.pos_iff_ne_zero.mp hpos)
  have hoff := h.lt_of_notDone hturn
  have hsucc : pick cfg cfg.nfiles s = pick cfg (n + 1) s := congrArg (pick cfg · s) hn
  rw [hsucc, pick]
  simp only [hturn, Bool.false_eq_true, if_false, if_neg (Nat.not_le.mpr hoff), State.take,
    Config.want]
  split <;> split <;> rfl

/-! ## The queueing loop -/

theorem Round.table (h : Table cfg s) (hround : Round cfg s t) : Table cfg t := by
  obtain ⟨-, -, hpicks⟩ := hround
  exact { h.take hpicks.lt hpicks.notDone with }

/-- What every round keeps, the queueing loop keeps. -/
theorem rounds_keep {I : State → Prop} (hround : ∀ {t u}, I t → Round cfg t u → I u)
    (hrounds : Relation.ReflTransGen (Round cfg) s t) (h : I s) : I t := by
  induction hrounds with
  | refl => exact h
  | tail _ hlast ih => exact hround ih hlast

/-- The chunk of a round goes to the end of the submission queue. -/
theorem push_queue (cfg : Config) (s : State) (slot : ℕ) (rest : List ℕ) (f rr : ℕ) :
    s.ring.push (s.ring.queued.length + 1)
        (writeSqe slot f (cfg.want (s.fileOff f)) (s.fileOff f)) =
      some (s.queue cfg slot rest f rr).ring :=
  push_eq_some.mpr ⟨Nat.lt_succ_self _, rfl⟩

/-- Queueing the chunk that was found succeeds while the submission queue has room. -/
theorem enqueueOne_eq (slot : ℕ) (rest : List ℕ) (f rr : ℕ)
    (hroom : s.ring.queued.length < cfg.sqEntries) :
    enqueueOne cfg slot rest f (s.fileOff f) (cfg.want (s.fileOff f))
      { s.take cfg f with rr := rr } = (true, s.queue cfg slot rest f rr) := by
  have hpush : s.ring.push cfg.sqEntries (writeSqe slot f (cfg.want (s.fileOff f)) (s.fileOff f)) =
      some _ := push_eq_some.mpr ⟨hroom, rfl⟩
  unfold enqueueOne
  simp only [State.take, hpush]
  rfl

theorem enqueue_of_stop {n : ℕ} (hstop : s.freeSlots = [] ∨ cfg.nfiles ≤ s.doneFiles) :
    enqueue cfg (n + 1) s = s := by
  rw [enqueue]
  split
  · rfl
  next slot rest hfree =>
  rcases hstop with hnil | hdone
  · rw [hnil] at hfree
    exact absurd hfree (by simp)
  · rw [if_neg (Nat.not_lt.mpr hdone)]

theorem enqueue_of_misses {n slot rr : ℕ} {rest : List ℕ} (hfree : s.freeSlots = slot :: rest)
    (hmiss : Misses cfg s rr) : enqueue cfg (n + 1) s = { s with rr := rr } := by
  rw [enqueue]
  split
  · next hnil =>
    rw [hnil] at hfree
    exact absurd hfree (by simp)
  · rw [if_pos hmiss.undone, hmiss.eq]

theorem enqueue_of_picks {n slot f rr : ℕ} {rest : List ℕ} (hfree : s.freeSlots = slot :: rest)
    (hundone : s.doneFiles < cfg.nfiles) (hpicks : Picks cfg s f rr)
    (hroom : s.ring.queued.length < cfg.sqEntries) :
    enqueue cfg (n + 1) s = enqueue cfg n (s.queue cfg slot rest f rr) := by
  rw [enqueue]
  split
  · next hnil =>
    rw [hnil] at hfree
    exact absurd hfree (by simp)
  next slot' rest' hfree' =>
  rw [hfree] at hfree'
  obtain ⟨rfl, rfl⟩ := List.cons.inj hfree'
  rw [if_pos hundone, hpicks.eq]
  simp only
  rw [enqueueOne_eq slot rest f rr hroom]
  rfl

/-- **The queueing loop is made of rounds**, and goes on until it is exhausted. -/
theorem enqueue_rounds (hpos : 0 < cfg.nfiles) : ∀ (n : ℕ) {s : State}, Table cfg s →
    s.freeSlots.length ≤ n → s.freeSlots.length + s.ring.queued.length ≤ cfg.sqEntries →
    ∃ u rr, Relation.ReflTransGen (Round cfg) s u ∧ Exhausted cfg u rr ∧
      enqueue cfg n s = { u with rr := rr }
  | 0, s, _, hlen, _ =>
    ⟨s, s.rr, .refl, Or.inl ⟨Or.inl (List.length_eq_zero_iff.mp (Nat.le_zero.mp hlen)), rfl⟩, rfl⟩
  | n + 1, s, htable, hlen, hroom => by
    by_cases hstop : s.freeSlots = [] ∨ cfg.nfiles ≤ s.doneFiles
    · exact ⟨s, s.rr, .refl, Or.inl ⟨hstop, rfl⟩, enqueue_of_stop hstop⟩
    obtain ⟨hne, hundone⟩ := not_or.mp hstop
    rw [Nat.not_le] at hundone
    obtain ⟨slot, rest, hfree⟩ := List.exists_cons_of_ne_nil hne
    rcases picks_or_misses htable hpos hne hundone with ⟨rr, hmiss⟩ | ⟨f, rr, hpicks⟩
    · exact ⟨s, rr, .refl, Or.inr hmiss, enqueue_of_misses hfree hmiss⟩
    rw [hfree, List.length_cons] at hlen hroom
    have hround : Round cfg s (s.queue cfg slot rest f rr) := .queue hfree hundone hpicks
    have hroom' : rest.length + (s.ring.queued ++ [writeSqe slot f (cfg.want (s.fileOff f))
        (s.fileOff f)]).length ≤ cfg.sqEntries := by
      rw [List.length_append, List.length_singleton]
      omega
    obtain ⟨u, rr', hrounds, hex, heq⟩ := enqueue_rounds hpos n (hround.table htable)
      (show rest.length ≤ n by omega) hroom'
    refine ⟨u, rr', .head hround hrounds, hex, ?_⟩
    rw [enqueue_of_picks hfree hundone hpicks (by omega), heq]

/-! ## The books -/

/-- A step that prepares nothing, completes nothing and reaps nothing. -/
theorem Books.congr (h : Books cfg s) (hoff : t.fileOff = s.fileOff)
    (hdone : t.fileDone = s.fileDone) (hcount : t.doneFiles = s.doneFiles)
    (hprep : prepped t.log = prepped s.log) (hdones : dones t.log = dones s.log)
    (hfiles : t.files = s.files) (hfree : t.freeSlots = s.freeSlots) (hring : t.ring = s.ring)
    (hwritten : t.written = s.written) : Books cfg t where
  table := ⟨by rw [hoff]; exact h.table.off_le, by rw [hoff, hdone]; exact h.table.done,
    by rw [hcount, hdone]; exact h.table.doneFiles⟩
  ledger := h.ledger.congr hprep hdones (by rw [hring]) (by rw [hring])
  files f := by rw [hfiles, h.files, blocks, blocks, hdones]
  write := by rw [hprep]; exact h.write
  tiles f := by rw [fileSpans, hprep, hoff]; exact h.tiles f
  grid := by rw [hoff]; exact h.grid
  reserved := by rw [hprep, hoff]; exact h.reserved
  slots := by rw [hfree, hring]; exact h.slots
  posted := by rw [hring, hdones]; exact h.posted
  counted := by rw [hwritten, hring, hdones]; exact h.counted

theorem books_start (hper : 0 < cfg.perFileBytes) : Books cfg (start cfg) := by
  refine ⟨⟨fun f => Nat.zero_le _, ?_, ?_⟩, ledger_nil, fun f => rfl, ?_, fun f => rfl,
    fun f => Or.inr (Nat.dvd_zero _), ?_, ?_, ?_, rfl⟩
  · intro f
    exact iff_of_false (by simp [start, blank]) (Nat.ne_of_lt hper)
  · simp [start, blank]
  · simp [start, blank, prepped]
  · simp [start, blank, prepped]
  · simp [start, blank, Multiset.range]
  · simp [start, blank]

theorem fileSpans_prep (file : ℕ) (q : Sqe) (log : List Ev) :
    fileSpans file (.prep q :: log) =
      fileSpans file log ++ if q.file = file then [⟨q.off, q.len, q.len⟩] else [] := by
  simp only [fileSpans, prepped, List.filter_append, List.map_append, List.filter_cons,
    List.filter_nil, decide_eq_true_iff]
  split <;> rfl

theorem add_want (cfg : Config) {off : ℕ} (hoff : off ≤ cfg.perFileBytes) :
    off + cfg.want off = cfg.perFileBytes ∨ off + cfg.want off = off + cfg.blockSize := by
  unfold Config.want
  split
  · exact Or.inl (by omega)
  · exact Or.inr rfl

theorem Books.plan (h : Books cfg s) : Plan cfg s :=
  ⟨h.table, h.write, h.tiles, h.grid, h.reserved, h.slots⟩

/-- The slot on top of the stack is one of the slots. -/
theorem slot_lt {slot : ℕ} {rest : List ℕ}
    (hslots : (s.freeSlots : Multiset ℕ) + s.ring.pending.map Sqe.buf = Multiset.range cfg.qd)
    (hfree : s.freeSlots = slot :: rest) : slot < cfg.qd := by
  rw [← Multiset.mem_range, ← hslots, hfree]
  simp

/-- The slot of a chunk that is queued goes from the stack to the request. -/
theorem slots_queue {slot : ℕ} {rest : List ℕ} (f rr : ℕ) (hfree : s.freeSlots = slot :: rest) :
    ((s.queue cfg slot rest f rr).freeSlots : Multiset ℕ) +
        (s.queue cfg slot rest f rr).ring.pending.map Sqe.buf =
      s.freeSlots + s.ring.pending.map Sqe.buf := by
  rw [pending_push (push_queue cfg s slot rest f rr), Multiset.map_cons, hfree,
    ← Multiset.cons_coe]
  simp only [Multiset.cons_add, Multiset.add_cons]
  rfl

/-- A round of the queueing loop keeps the plan. -/
theorem Plan.round (h : Plan cfg s) (hblock : 0 < cfg.blockSize) (hround : Round cfg s t) :
    Plan cfg t := by
  have htable := hround.table h.table
  cases hround with
  | @queue slot rest f rr hfree _ hpicks =>
  have hoff := h.table.lt_of_notDone hpicks.notDone
  have hslot := slot_lt h.slots hfree
  have hdvd : cfg.blockSize ∣ s.fileOff f :=
    (h.grid f).resolve_left (Nat.ne_of_lt hoff)
  refine ⟨htable, ?_, ?_, ?_, ?_, ?_⟩
  · intro q hq
    rcases List.mem_append.mp hq with hq | hq
    · exact h.write q hq
    · obtain rfl := List.mem_singleton.mp hq
      exact ⟨rfl, hslot, hpicks.lt, hdvd, rfl, want_pos hblock hoff⟩
  · intro g
    simp only [State.queue, State.take, fileSpans_prep, writeSqe]
    by_cases hg : g = f
    · subst hg
      rw [Function.update_self, if_pos rfl]
      exact (h.tiles g).snoc (want_pos hblock hoff)
    · rw [Function.update_of_ne hg, if_neg (Ne.symm hg), List.append_nil]
      exact h.tiles g
  · intro g
    simp only [State.queue, State.take]
    by_cases hg : g = f
    · subst hg
      rw [Function.update_self]
      rcases add_want cfg (h.table.off_le g) with hend | hnext
      · exact Or.inl hend
      · exact Or.inr (hnext ▸ dvd_add hdvd dvd_rfl)
    · rw [Function.update_of_ne hg]
      exact h.grid g
  · simp only [State.queue, State.take, prepped, List.map_append, List.sum_append, List.map_cons,
      List.map_nil, List.sum_cons, List.sum_nil, h.reserved, writeSqe]
    rw [Finset.sum_update_of_mem (Finset.mem_range.mpr hpicks.lt),
      ← Finset.add_sum_erase _ _ (Finset.mem_range.mpr hpicks.lt), Finset.sdiff_singleton_eq_erase]
    omega
  · exact (slots_queue f rr hfree).trans h.slots

theorem Plan.rounds (h : Plan cfg s) (hblock : 0 < cfg.blockSize)
    (hrounds : Relation.ReflTransGen (Round cfg) s t) : Plan cfg t :=
  rounds_keep (fun hplan => hplan.round hblock) hrounds h

/-- A round of the queueing loop keeps the books. -/
theorem Books.round (h : Books cfg s) (hblock : 0 < cfg.blockSize) (hround : Round cfg s t) :
    Books cfg t := by
  have hplan := h.plan.round hblock hround
  cases hround with
  | @queue slot rest f rr _ _ _ =>
  exact { hplan with
    ledger := h.ledger.push (push_queue cfg s slot rest f rr)
    files := h.files
    posted := h.posted
    counted := h.counted }

theorem Books.rounds (h : Books cfg s) (hblock : 0 < cfg.blockSize)
    (hrounds : Relation.ReflTransGen (Round cfg) s t) : Books cfg t :=
  rounds_keep (fun hbooks => hbooks.round hblock) hrounds h

theorem Books.mem_prepped_of_completed (h : Books cfg s) {x : Sqe × ℤ}
    (hx : x ∈ s.ring.completed) : x.1 ∈ prepped s.log :=
  h.ledger.balanced.mem_prepped (h.posted x hx)

theorem Plan.length_freeSlots (h : Plan cfg s) :
    s.freeSlots.length + Multiset.card s.ring.pending = cfg.qd := by
  have hcard := congrArg Multiset.card h.slots
  rwa [Multiset.card_add, Multiset.card_map, Multiset.coe_card, Multiset.card_range] at hcard

/-! ## The steps -/

/-- A batch of writes completed in full is reaped to its end. -/
theorem reapBatch_eq (got : ℕ) : ∀ (cs : List (Sqe × ℤ)) (i : ℕ) (s : State),
    (∀ x ∈ cs, x.1.userData = packUd 1 (UInt32.ofNat x.1.buf) ∧ x.1.buf < cfg.qd ∧ 0 ≤ x.2) →
    reapBatch cfg got i cs s = { s with
      ring := s.ring.advance got
      inflight := s.inflight - cs.length
      written := s.written + (cs.map fun x => x.2.toNat).sum
      freeSlots := (cs.map fun x => x.1.buf).reverse ++ s.freeSlots
      phase := .head }
  | [], _, _, _ => rfl
  | (q, res) :: cs, i, s, h => by
    obtain ⟨hud, hbuf, hres⟩ := h (q, res) List.mem_cons_self
    simp only at hud hbuf hres
    have hslot : (udSlot q.userData).toNat = q.buf := by
      rw [hud]
      exact toNat_udSlot_packUd 1 (Nat.lt_trans hbuf cfg.qd_lt)
    have hop : udOp q.userData = 1 := by rw [hud, udOp_packUd]
    rw [reapBatch, if_neg (by rw [hop, hslot]; simpa using hbuf), if_neg (Int.not_lt.mpr hres),
      reapBatch_eq got cs (i + 1) _ fun x hx => h x (List.mem_cons_of_mem _ hx), hslot]
    simp only [List.map_cons, List.sum_cons, List.length_cons, List.reverse_cons,
      List.append_assoc, List.singleton_append, Nat.add_assoc]
    congr 1
    omega

/-- The oldest completions are reaped when none of them is an error. -/
theorem reapBatch_take
    (hwrite : ∀ q ∈ prepped s.log, q.userData = packUd 1 (UInt32.ofNat q.buf) ∧ q.buf < cfg.qd)
    (n : ℕ) (ret : ℤ) (hprep : ∀ x ∈ s.ring.completed, x.1 ∈ prepped s.log)
    (hres : ∀ x ∈ s.ring.completed.take n, 0 ≤ x.2) :
    reapBatch cfg (s.ring.completed.take n).length 0 (s.ring.completed.take n)
      { s with ret := ret } = s.reaped (s.ring.completed.take n).length ret := by
  rw [reapBatch_eq _ _ _ _ fun x hx => ?_]
  · simp only [State.reaped, List.length_take, ← List.take_eq_take_min]
  · obtain ⟨hud, hbuf⟩ := hwrite _ (hprep x (List.mem_of_mem_take hx))
    exact ⟨hud, hbuf, hres x hx⟩

theorem Plan.tagged (h : Plan cfg s) {q : Sqe} (hq : q ∈ prepped s.log) :
    q.userData = packUd 1 (UInt32.ofNat q.buf) ∧ q.buf < cfg.qd :=
  ⟨(h.write q hq).1, (h.write q hq).2.1⟩

theorem Books.reapBatch_take (h : Books cfg s) (n : ℕ) (ret : ℤ) :
    reapBatch cfg (s.ring.completed.take n).length 0 (s.ring.completed.take n)
      { s with ret := ret } = s.reaped (s.ring.completed.take n).length ret := by
  refine WriteManyfiles.reapBatch_take (fun _ hq => h.plan.tagged hq) n ret
    (fun x hx => h.mem_prepped_of_completed hx) ?_
  intro x hx
  rw [h.ledger.full x (h.posted x (List.mem_of_mem_take hx))]
  exact Int.natCast_nonneg _

theorem fsyncAll_eq {err : ℕ → Option Errno} : ∀ {is : List ℕ} {s : State},
    (∀ i ∈ is, err i = none) → ∃ l, (∀ e ∈ l, ∃ f, e = Ev.fsync f) ∧
      fsyncAll err is s = { s with log := l ++ s.log, phase := .out }
  | [], _, _ => ⟨[], by simp, rfl⟩
  | i :: is, s, h => by
    obtain ⟨l, hl, heq⟩ := fsyncAll_eq (s := { s with log := .fsync i :: s.log })
      fun j hj => h j (List.mem_cons_of_mem _ hj)
    refine ⟨l ++ [.fsync i], ?_, ?_⟩
    · intro e he
      rcases List.mem_append.mp he with he | he
      · exact hl e he
      · exact ⟨i, List.mem_singleton.mp he⟩
    · rw [fsyncAll, h i List.mem_cons_self]
      simp only [heq, List.append_assoc, List.singleton_append]

/-- The invariant of undisturbed writes. -/
structure Running (cfg : Config) (s : State) : Prop where
  good : Good cfg s
  books : Books cfg s
  ret : 0 ≤ s.ret
  waits : s.phase = .wait ∨ s.phase = .reap ∨ s.phase = .fallback → s.inflight ≠ 0
  returned : ∀ r, s.phase = .returned r → 0 ≤ r

theorem running_start (hcfg : Undisturbed cfg) : Running cfg (start cfg) := by
  refine ⟨good_start, books_start hcfg.pos.2.1, Int.le_refl 0, ?_, ?_⟩ <;>
    rw [hcfg.phase_start] <;> simp

theorem submit_eq_self {r : CompletionRing Sqe} (h : r.queued = []) : r.submit = r := by
  simp only [submit, h, List.append_nil]
  rw [← h]

/-- What the queueing loop leaves alone. -/
theorem rounds_frame {u : State} (h : Relation.ReflTransGen (Round cfg) s u) :
    u.ret = s.ret ∧ u.written = s.written ∧ u.ring.outstanding = s.ring.outstanding ∧
      u.ring.completed = s.ring.completed := by
  induction h with
  | refl => exact ⟨rfl, rfl, rfl, rfl⟩
  | tail _ hround ih =>
    cases hround
    exact ih

/-- What the head of the loop leads to when the loop goes on: the queueing loop, and then the wait
or an error. -/
theorem fill_of_continues (hloop : Looping s) (hcont : s.Continues cfg) (r : ℤ) :
    (∃ ret, 0 ≤ ret ∧ fill cfg r s = State.awaitAny { enqueue cfg s.freeSlots.length s with
        ring := (enqueue cfg s.freeSlots.length s).ring.submit, ret := ret }) ∨
      r < 0 ∧ fill cfg r s = State.goOut r (enqueue cfg s.freeSlots.length s) := by
  have hret := (enqueue_frame cfg s.freeSlots.length hloop.accounts).1.ret
  unfold fill
  rw [if_pos hcont]
  simp only
  generalize enqueue cfg s.freeSlots.length s = u at hret ⊢
  by_cases hnil : u.ring.queued = []
  · refine Or.inl ⟨u.ret, hret, ?_⟩
    rw [if_pos hnil, submit_eq_self hnil]
  · rw [if_neg hnil]
    rcases Int.lt_or_le r 0 with hr | hr
    · exact Or.inr ⟨hr, if_pos hr⟩
    · exact Or.inl ⟨r, hr, if_neg (Int.not_lt.mpr hr)⟩

/-- While the submission queue has room, the queueing loop goes on until it is exhausted. -/
theorem fill_rounds (hpos : 0 < cfg.nfiles) (hroom : cfg.qd ≤ cfg.sqEntries) (hloop : Looping s)
    (hplan : Plan cfg s) (hcont : s.Continues cfg) (r : ℤ) :
    ∃ u rr, Relation.ReflTransGen (Round cfg) s u ∧ Exhausted cfg u rr ∧
      ((∃ ret, 0 ≤ ret ∧
          fill cfg r s = State.awaitAny { u with rr := rr, ring := u.ring.submit, ret := ret }) ∨
        r < 0 ∧ fill cfg r s = State.goOut r { u with rr := rr }) := by
  have hfree := hplan.length_freeSlots
  obtain ⟨u, rr, hrounds, hex, heq⟩ := enqueue_rounds hpos s.freeSlots.length hplan.table
    (Nat.le_refl _) (by rw [hloop.queued, List.length_nil]; omega)
  refine ⟨u, rr, hrounds, hex, ?_⟩
  have hfill := fill_of_continues hloop hcont r
  rwa [heq] at hfill

theorem fill_eq (hcfg : Undisturbed cfg) (h : Running cfg s) (hphase : s.phase = .head)
    (hcont : s.Continues cfg) {r : ℤ} (hr : 0 ≤ r) :
    ∃ u rr ret, Relation.ReflTransGen (Round cfg) s u ∧ Exhausted cfg u rr ∧ 0 ≤ ret ∧
      fill cfg r s = State.awaitAny { u with rr := rr, ring := u.ring.submit, ret := ret } := by
  obtain ⟨u, rr, hrounds, hex, ⟨ret, hret, heq⟩ | ⟨hneg, -⟩⟩ := fill_rounds hcfg.pos.1 hcfg.room
    (h.good.looping (Or.inl hphase)) h.books.plan hcont r
  · exact ⟨u, rr, ret, hrounds, hex, hret, heq⟩
  · exact absurd hneg (Int.not_lt.mpr hr)

theorem moves_of_fill (hcfg : Undisturbed cfg) (h : Running cfg s) (hphase : s.phase = .head)
    {r : ℤ} (hr : 0 ≤ r) : Moves cfg s (fill cfg r s) := by
  by_cases hcont : s.Continues cfg
  · obtain ⟨u, rr, ret, hrounds, hex, hret, heq⟩ := fill_eq hcfg h hphase hcont hr
    rw [heq]
    exact .fill hphase hcont hrounds hex hret
  · unfold fill
    rw [if_neg hcont]
    exact .leave hphase hcont

/-- **What a step of undisturbed writes does.** -/
theorem moves_of_step (hcfg : Undisturbed cfg) (h : Running cfg s) {e : Event}
    (hans : Answers cfg s e) (ht : step cfg s e = some t) : Moves cfg s t := by
  cases step_cases ht with
  | complete hrun hc =>
    obtain ⟨q, ring, hring, -, rfl⟩ := complete_cases hc
    obtain ⟨hq, rfl⟩ := complete_eq_some.mp hring
    obtain rfl := hans q hq
    exact .complete hrun hq
  | fill hphase => exact moves_of_fill hcfg h hphase hans
  | waitFails _ hneg => exact absurd hneg (Int.not_lt.mpr hans)
  | waits hphase hret => exact .wait hphase hret
  | reap hphase =>
    unfold WriteManyfiles.reap
    simp only
    split
    · exact .nothing hphase
    · next hne =>
      rw [h.books.reapBatch_take batchSize s.ret]
      exact .reap (Or.inl hphase) (List.length_pos_iff.mpr hne) (List.length_take_le' _ _) h.ret
  | waitOneFails _ hneg => exact absurd hneg (Int.not_lt.mpr hans)
  | @waitOneReaps w hphase hret hlen =>
    have hbatch := h.books.reapBatch_take 1 w
    rw [hlen] at hbatch
    rw [hbatch]
    exact .reap (Or.inr hphase) Nat.one_pos (hlen ▸ List.length_take_le' _ _) hret
  | finish hphase =>
    unfold WriteManyfiles.finish
    split
    · obtain ⟨l, hl, heq⟩ := fsyncAll_eq (s := s) fun i hi => hans i (List.mem_range.mp hi)
      rw [heq]
      exact .finish hphase hl
    · exact Moves.finish (l := []) hphase (by simp)
  | cleanup hphase =>
    rw [State.result, if_neg (Int.not_lt.mpr h.ret)]
    exact .cleanup hphase

/-! ## The invariant -/

theorem Books.completed (h : Books cfg s) {i : ℕ} {q : Sqe}
    (hq : s.ring.outstanding[i]? = some q) : Books cfg (s.completed i q) := by
  have hring : s.ring.complete i q.len = some (q, _) := complete_eq_some.mpr ⟨hq, rfl⟩
  refine ⟨{ h.table with }, h.ledger.complete hring rfl, ofWrites_done h.files q q.len, h.write,
    h.tiles, h.grid, h.reserved, ?_, ?_, counted_done h.counted q q.len⟩
  · simp only [State.completed]
    rw [pending_complete hring, h.slots]
  · intro x hx
    rcases List.mem_append.mp hx with hx | hx
    · exact List.mem_cons_of_mem _ (h.posted x hx)
    · exact List.mem_cons.mpr (Or.inl (List.mem_singleton.mp hx))

/-- Reaping gives the slots of the writes back. -/
theorem State.slots_reaped (n : ℕ) (ret : ℤ) (s : State) :
    ((s.reaped n ret).freeSlots : Multiset ℕ) + (s.reaped n ret).ring.pending.map Sqe.buf =
      s.freeSlots + s.ring.pending.map Sqe.buf := by
  simp only [State.reaped, pending_advance n s.ring, Multiset.map_add, Multiset.map_coe,
    List.map_map, ← Multiset.coe_add, Multiset.coe_reverse]
  simp only [Function.comp_def]
  ac_rfl

theorem Books.reaped (h : Books cfg s) (n : ℕ) (ret : ℤ) : Books cfg (s.reaped n ret) := by
  refine ⟨{ h.table with }, h.ledger.congr rfl rfl rfl rfl, h.files, h.write, h.tiles, h.grid,
    h.reserved, (s.slots_reaped n ret).trans h.slots,
    fun x hx => h.posted x (List.mem_of_mem_drop hx), ?_⟩
  exact (counted_reap n s.written s.ring.completed).trans h.counted

/-- Syncs are no entries of the books. -/
theorem prepped_dones_of_fsyncs {l : List Ev} (log : List Ev) (hl : ∀ e ∈ l, ∃ f, e = Ev.fsync f) :
    prepped (l ++ log) = prepped log ∧ dones (l ++ log) = dones log := by
  induction l with
  | nil => exact ⟨rfl, rfl⟩
  | cons e l ih =>
    obtain ⟨f, rfl⟩ := hl e List.mem_cons_self
    exact ih fun e he => hl e (List.mem_cons_of_mem _ he)

theorem Books.moves (h : Books cfg s) (hblock : 0 < cfg.blockSize) (hmove : Moves cfg s t) :
    Books cfg t := by
  cases hmove with
  | complete _ hq => exact h.completed hq
  | fill _ _ hrounds =>
    have hu := h.rounds hblock hrounds
    exact ⟨{ hu.table with }, hu.ledger.submit, hu.files, hu.write, hu.tiles, hu.grid,
      hu.reserved, by simp only [State.awaitAny, pending_submit]; exact hu.slots, hu.posted,
      hu.counted⟩
  | leave => exact h.congr rfl rfl rfl rfl rfl rfl rfl rfl rfl
  | wait => exact h.congr rfl rfl rfl rfl rfl rfl rfl rfl rfl
  | nothing => exact h.congr rfl rfl rfl rfl rfl rfl rfl rfl rfl
  | reap => exact h.reaped _ _
  | finish _ hl =>
    obtain ⟨hprep, hdones⟩ := prepped_dones_of_fsyncs s.log hl
    exact h.congr rfl rfl rfl hprep hdones rfl rfl rfl rfl
  | cleanup => exact h.congr rfl rfl rfl rfl rfl rfl rfl rfl rfl

theorem awaitAny_cases (s : State) :
    (s.inflight = 0 ∧ s.awaitAny = { s with phase := .tail }) ∨
      (s.inflight ≠ 0 ∧ s.awaitAny = { s with phase := .wait }) := by
  unfold State.awaitAny
  split
  · next hzero => exact Or.inl ⟨hzero, rfl⟩
  · next hne => exact Or.inr ⟨hne, rfl⟩

/-- A step of undisturbed writes keeps the invariant. -/
theorem Running.step (h : Running cfg s) (hcfg : Undisturbed cfg) {e : Event}
    (hans : Answers cfg s e) (ht : step cfg s e = some t) : Running cfg t := by
  have hgood := good_step h.good ht
  have hmove := moves_of_step hcfg h hans ht
  have hbooks := h.books.moves hcfg.pos.2.2.1 hmove
  cases hmove with
  | complete hphase hq => exact ⟨hgood, hbooks, h.ret, h.waits, fun r hr => absurd hr (hphase r)⟩
  | @fill u rr ret hphase hcont hrounds hex hret =>
    rcases awaitAny_cases { u with rr := rr, ring := u.ring.submit, ret := ret } with
      ⟨-, heq⟩ | ⟨hne, heq⟩ <;> rw [heq] at hgood hbooks ⊢
    · exact ⟨hgood, hbooks, hret, by simp, by simp⟩
    · exact ⟨hgood, hbooks, hret, fun _ => hne, by simp⟩
  | leave hphase => exact ⟨hgood, hbooks, h.ret, by simp, by simp⟩
  | wait hphase hret =>
    exact ⟨hgood, hbooks, hret, fun _ => h.waits (Or.inl hphase), by simp⟩
  | nothing hphase =>
    exact ⟨hgood, hbooks, h.ret, fun _ => h.waits (Or.inr (Or.inl hphase)), by simp⟩
  | reap _ _ _ hret => exact ⟨hgood, hbooks, hret, by simp [State.reaped], by simp [State.reaped]⟩
  | finish => exact ⟨hgood, hbooks, h.ret, by simp, by simp⟩
  | cleanup =>
    refine ⟨hgood, hbooks, h.ret, by simp, ?_⟩
    intro r hr
    rw [← Phase.returned.inj hr]
    exact Int.natCast_nonneg _

/-! ## Runs end -/

def rank : Phase → ℕ
  | .head => 3
  | .wait => 2
  | .reap => 1
  | .fallback => 0
  | .tail => 2
  | .out => 1
  | .returned _ => 0

/-- The bytes not asked for yet. -/
def unasked (cfg : Config) (s : State) : ℕ :=
  cfg.nfiles * cfg.perFileBytes - ((prepped s.log).map Sqe.len).sum

def workLeft (cfg : Config) (s : State) : ℕ :=
  6 * unasked cfg s + 5 * s.ring.outstanding.length + 4 * s.ring.completed.length + rank s.phase

theorem Plan.asked_le (h : Plan cfg s) :
    ((prepped s.log).map Sqe.len).sum ≤ cfg.nfiles * cfg.perFileBytes := by
  rw [h.reserved]
  refine (Finset.sum_le_sum fun f _ => h.table.off_le f).trans (Nat.le_of_eq ?_)
  rw [Finset.sum_const, Finset.card_range, smul_eq_mul]

/-- Every chunk queued is asked for. -/
theorem Plan.queued_le (h : Plan cfg s) (hblock : 0 < cfg.blockSize)
    (hrounds : Relation.ReflTransGen (Round cfg) s t) :
    unasked cfg t + t.ring.queued.length ≤ unasked cfg s + s.ring.queued.length := by
  induction hrounds with
  | refl => exact Nat.le_refl _
  | tail hrounds hround ih =>
    have hplan := h.rounds hblock hrounds
    have hle := (hplan.round hblock hround).asked_le
    cases hround with
    | @queue slot rest f rr _ _ hpicks =>
      have hpos := want_pos hblock (hplan.table.lt_of_notDone hpicks.notDone)
      simp only [unasked, State.queue, prepped, List.map_append, List.sum_append, List.map_cons,
        List.map_nil, List.sum_cons, List.sum_nil, List.length_append, List.length_singleton,
        writeSqe] at ih hle ⊢
      omega

/-- A step of undisturbed writes leaves less to do. -/
theorem Moves.workLeft_lt (h : Running cfg s) (hblock : 0 < cfg.blockSize)
    (hmove : Moves cfg s t) : workLeft cfg t < workLeft cfg s := by
  cases hmove with
  | @complete i q _ hq =>
    have hlen := List.length_eraseIdx_of_lt (List.getElem?_eq_some_iff.mp hq).1
    have hpos := (List.getElem?_eq_some_iff.mp hq).1
    simp only [workLeft, unasked, State.completed, prepped, hlen, List.length_append,
      List.length_singleton]
    omega
  | @fill u rr ret hphase _ hrounds =>
    have hqueued := h.books.plan.queued_le hblock hrounds
    obtain ⟨-, -, hout, hcomp⟩ := rounds_frame hrounds
    rw [(h.good.looping (Or.inl hphase)).queued, List.length_nil] at hqueued
    rcases awaitAny_cases { u with rr := rr, ring := u.ring.submit, ret := ret } with
      ⟨-, heq⟩ | ⟨-, heq⟩ <;> rw [heq] <;>
      simp only [workLeft, unasked, rank, hphase, outstanding_submit, completed_submit, hout,
        hcomp, List.length_append] at hqueued ⊢ <;> omega
  | leave hphase => simp [workLeft, unasked, rank, hphase]
  | wait hphase => simp [workLeft, unasked, rank, hphase]
  | nothing hphase => simp [workLeft, unasked, rank, hphase]
  | @reap n ret hphase hpos hle =>
    have hrank : rank s.phase = 1 ∨ rank s.phase = 0 := by
      rcases hphase with hp | hp <;> simp [hp, rank]
    simp only [workLeft, unasked, State.reaped, rank, advance, List.length_drop]
    omega
  | finish hphase hl =>
    simp only [workLeft, unasked, rank, hphase, (prepped_dones_of_fsyncs s.log hl).1]
    omega
  | cleanup hphase => simp [workLeft, unasked, rank, hphase]

/-- Writes that have not returned can move. -/
theorem Running.moves (h : Running cfg s) (hs : ¬ Returned s) :
    ∃ e t, Answers cfg s e ∧ WriteManyfiles.step cfg s e = some t := by
  cases hphase : s.phase with
  | head => exact ⟨.fill 0, _, Int.le_refl 0, if_pos hphase⟩
  | wait => exact ⟨.wait 0, _, Int.le_refl 0, if_pos hphase⟩
  | reap => exact ⟨.reap, _, trivial, if_pos hphase⟩
  | fallback =>
    cases hcs : s.ring.completed with
    | cons c cs =>
      refine ⟨.waitOne 0, reapBatch cfg 1 0 [c] { s with ret := 0 }, Int.le_refl 0, ?_⟩
      simp only [WriteManyfiles.step, if_pos hphase, waitOne, hcs]
      rfl
    | nil =>
      -- nothing to reap, so some write is outstanding
      have hloop := h.good.looping (Or.inr (Or.inr (Or.inr (Or.inl hphase))))
      have hcount := hloop.accounts.inflight
      have hne := h.waits (Or.inr (Or.inr hphase))
      rw [card_pending, hloop.queued, hcs, List.length_nil, List.length_nil] at hcount
      obtain ⟨q, hq⟩ : ∃ q, s.ring.outstanding[0]? = some q :=
        ⟨_, List.getElem?_eq_getElem (by omega)⟩
      have hring : s.ring.complete 0 q.len = some (q, _) := complete_eq_some.mpr ⟨hq, rfl⟩
      obtain ⟨t, ht⟩ : ∃ t, WriteManyfiles.step cfg s (.complete 0 q.len) = some t := by
        simp only [WriteManyfiles.step, hphase, complete, hring]
        exact ⟨_, if_pos (Int.le_refl _)⟩
      exact ⟨_, t, fun q' hq' => by rw [Option.some.inj (hq.symm.trans hq')], ht⟩
  | tail => exact ⟨.finish fun _ => none, _, fun _ _ => rfl, if_pos hphase⟩
  | out => exact ⟨.cleanup, _, trivial, if_pos hphase⟩
  | returned r => exact absurd ⟨r, hphase⟩ hs

theorem running_reach (hcfg : Undisturbed cfg)
    (h : Reach (step cfg) (Answers cfg) (start cfg) s) : Running cfg s :=
  h.invariant (running_start hcfg) fun _ _ _ hrun hans ht => hrun.step hcfg hans ht

/-- **Undisturbed writes terminate**, from any state that they get to. -/
theorem terminates (hcfg : Undisturbed cfg) (h : Running cfg s) :
    Terminates (step cfg) (Answers cfg) Returned s :=
  terminates_of_measure (workLeft cfg) h (fun _ _ _ hrun hans ht => hrun.step hcfg hans ht)
    (fun _ _ _ hrun hans ht => (moves_of_step hcfg hrun hans ht).workLeft_lt hrun hcfg.pos.2.2.1)
    (fun _ hrun hs => hrun.moves hs)

end WriteManyfiles
end Native
end Pyuring
