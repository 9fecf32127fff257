import Pyuring.Native.UringCtxCalls

/-!
# The entries of a call that is refused

A synchronous function takes its entries with `io_uring_get_sqe` and returns `-EAGAIN` when one
is not to be had.  What it took before stays in the queue, and the next submit hands it over.

The queue is modelled here apart from the rest of the ring, since its room does not only depend
on what is queued: it may be smaller than the number of entries the ring was asked for, and with
a polling thread the kernel may not have read yet what was handed over.  An entry that was taken
and not filled in is `none`.  `acquire_matches` says that this is the queue of `UringCtx`, where
the room is that of an ordinary ring.
-/

namespace Pyuring
namespace Native
namespace UringCtx

/-- A submission queue of `size` entries: the kernel has not read `unread` of those that were
handed over, and `queued` were taken since, oldest first. -/
@[ext] structure SubmissionQueue where
  size : ℕ
  unread : ℕ
  queued : List (Option Prep)
  fits : unread + queued.length ≤ size

namespace SubmissionQueue

variable (cfg : Config) (q : SubmissionQueue)

/-- The queue of a ring on which nothing was done. -/
def empty (size : ℕ) : SubmissionQueue := ⟨size, 0, [], Nat.zero_le _⟩

/-- The entries that can be taken. -/
def free : ℕ := q.size - (q.unread + q.queued.length)

/-- `io_uring_get_sqe`; `false` stands for the null pointer. -/
def getSqe : Bool × SubmissionQueue :=
  if h : q.unread + q.queued.length < q.size then
    (true, { q with
      queued := q.queued ++ [none]
      fits := by rw [List.length_append, List.length_singleton]; omega })
  else (false, q)

/-- `io_uring_prep_*` and the tag, for the entry that is `back` entries before the last. -/
def prep (back : ℕ) (p : Prep) : SubmissionQueue :=
  { q with
    queued := q.queued.set (q.queued.length - 1 - back) (some p)
    fits := by rw [List.length_set]; exact q.fits }

/-- The entries of a batch, of the timeout pair or of a call with one entry: each is filled in
before the next is taken. -/
def takeEach : List Prep → SubmissionQueue → Bool × SubmissionQueue
  | [], q => (true, q)
  | p :: ps, q => match q.getSqe with
    | (false, q) => (false, q)
    | (true, q) => takeEach ps (q.prep 0 p)

/-- The entries of the linked pair: both are taken before either is filled in. -/
def takeBoth (p₁ p₂ : Prep) : Bool × SubmissionQueue :=
  let (sqe₁, q) := q.getSqe
  let (sqe₂, q) := q.getSqe
  if sqe₁ = false ∨ sqe₂ = false then (false, q) else (true, (q.prep 1 p₁).prep 0 p₂)

/-- A synchronous function takes its entries. -/
def acquire (fn : SyncFn) : Bool × SubmissionQueue :=
  match fn with
  | .linkReadWrite fdIn len offIn fdOut offOut =>
    q.takeBoth ⟨.read fdIn 0 len.toNat offIn, 301, .one⟩ ⟨.write fdOut 0 len.toNat offOut, 302, .one⟩
  | _ => takeEach fn.preps q

/-- A synchronous function up to its submit: what it returns if it does not get there.  Of the
configuration only the number of entries that was asked for is looked at. -/
def call (fn : SyncFn) : Option ℤ × SubmissionQueue :=
  if fn.valid cfg = false then (some EINVAL.neg, q)
  else match q.acquire fn with
    | (false, q) => (some EAGAIN.neg, q)
    | (true, q) => (none, q)

/-- The next submit: the entries that the kernel executes. -/
def submit : List (Option Prep) × SubmissionQueue :=
  (q.queued, { q with
    unread := q.unread + q.queued.length
    queued := []
    fits := q.fits })

/-- A call that is refused for want of an entry leaves the queue as it was, and nothing of it is
executed later. -/
def QueuesNothing (fn : SyncFn) : Prop :=
  (q.call cfg fn).1 = some EAGAIN.neg →
    (q.call cfg fn).2 = q ∧ (q.call cfg fn).2.submit.1 = q.queued

variable {cfg} {q}

/-! ## What the calls leave -/

/-- Entries were added to the queue and nothing else has changed. -/
structure Grown (q q' : SubmissionQueue) (es : List (Option Prep)) : Prop where
  size : q'.size = q.size
  unread : q'.unread = q.unread
  queued : q'.queued = q.queued ++ es

theorem Grown.free {q' : SubmissionQueue} {es : List (Option Prep)} (h : Grown q q' es) :
    q'.free = q.free - es.length := by
  unfold SubmissionQueue.free
  rw [h.size, h.unread, h.queued, List.length_append]
  omega

theorem Grown.trans {q' q'' : SubmissionQueue} {es es' : List (Option Prep)} (h : Grown q q' es)
    (h' : Grown q' q'' es') : Grown q q'' (es ++ es') :=
  ⟨h'.size.trans h.size, h'.unread.trans h.unread, by rw [h'.queued, h.queued, List.append_assoc]⟩

theorem getSqe_cases (q : SubmissionQueue) :
    (0 < q.free ∧ ∃ q', q.getSqe = (true, q') ∧ Grown q q' [none]) ∨
      q.free = 0 ∧ q.getSqe = (false, q) := by
  unfold getSqe SubmissionQueue.free
  split
  · exact Or.inl ⟨by omega, _, rfl, rfl, rfl, rfl⟩
  · exact Or.inr ⟨by omega, rfl⟩

theorem Grown.prep {q' : SubmissionQueue} (h : Grown q q' [none]) (p : Prep) :
    Grown q (q'.prep 0 p) [some p] := by
  refine ⟨h.size, h.unread, ?_⟩
  simp [SubmissionQueue.prep, h.queued]

theorem Grown.prepBoth {q' : SubmissionQueue} (h : Grown q q' [none, none]) (p₁ p₂ : Prep) :
    Grown q ((q'.prep 1 p₁).prep 0 p₂) [some p₁, some p₂] := by
  refine ⟨h.size, h.unread, ?_⟩
  simp [SubmissionQueue.prep, h.queued]

/-- As many of the entries are taken as there is room for. -/
theorem takeEach_spec (ps : List Prep) (q : SubmissionQueue) :
    (takeEach ps q).1 = decide (ps.length ≤ q.free) ∧
      Grown q (takeEach ps q).2 ((ps.take q.free).map some) := by
  induction ps generalizing q with
  | nil => exact ⟨by simp [takeEach], rfl, rfl, by simp [takeEach]⟩
  | cons p ps ih =>
    rw [takeEach]
    rcases getSqe_cases q with ⟨hfree, q', hget, hgrown⟩ | ⟨hfree, hget⟩
    · rw [hget]
      have hprep := hgrown.prep p
      obtain ⟨hok, hrest⟩ := ih (q'.prep 0 p)
      rw [hprep.free, List.length_singleton] at hok hrest
      obtain ⟨k, hk⟩ := Nat.exists_eq_add_of_lt hfree
      simp only [Nat.zero_add] at hk
      refine ⟨?_, ?_⟩
      · rw [hok, hk, List.length_cons]
        simp
      · rw [hk, List.take_succ_cons, List.map_cons]
        rw [hk] at hrest
        exact hprep.trans hrest
    · rw [hget, hfree]
      exact ⟨by simp, rfl, rfl, by simp⟩

theorem takeBoth_spec (p₁ p₂ : Prep) (q : SubmissionQueue) :
    (q.takeBoth p₁ p₂).1 = decide (2 ≤ q.free) ∧
      Grown q (q.takeBoth p₁ p₂).2
        (if 2 ≤ q.free then [some p₁, some p₂] else List.replicate q.free none) := by
  unfold takeBoth
  rcases getSqe_cases q with ⟨hfree, q', hget, hgrown⟩ | ⟨hfree, hget⟩
  · have hfree' : q'.free = q.free - 1 := hgrown.free
    simp only [hget]
    rcases getSqe_cases q' with ⟨hroom, q'', hget', hgrown'⟩ | ⟨hroom, hget'⟩
    · have htwo : 2 ≤ q.free := by omega
      simp only [hget', htwo, Bool.true_eq_false, or_self, if_false, if_true, decide_true]
      exact ⟨trivial, (hgrown.trans hgrown').prepBoth p₁ p₂⟩
    · have hone : q.free = 1 := by omega
      simp only [hget', hone, or_true, if_true]
      exact ⟨rfl, hgrown⟩
  · simp only [hget, hfree, true_or, if_true]
    exact ⟨rfl, rfl, rfl, by simp⟩

/-- A call takes all its entries, or as many as there are. -/
theorem acquire_cases (fn : SyncFn) (q : SubmissionQueue) :
    (fn.preps.length ≤ q.free ∧ (q.acquire fn).1 = true) ∨
      q.free < fn.preps.length ∧ (q.acquire fn).1 = false ∧
        ∃ es, es.length = q.free ∧ Grown q (q.acquire fn).2 es := by
  have heach : q.acquire fn = takeEach fn.preps q →
      (fn.preps.length ≤ q.free ∧ (q.acquire fn).1 = true) ∨
        q.free < fn.preps.length ∧ (q.acquire fn).1 = false ∧
          ∃ es, es.length = q.free ∧ Grown q (q.acquire fn).2 es := by
    intro heq
    obtain ⟨hok, hgrown⟩ := takeEach_spec fn.preps q
    rw [heq]
    rcases Nat.lt_or_ge q.free fn.preps.length with hlt | hle
    · refine Or.inr ⟨hlt, by rw [hok, decide_eq_false (by omega)], _, ?_, hgrown⟩
      rw [List.length_map, List.length_take]
      omega
    · exact Or.inl ⟨hle, by rw [hok, decide_eq_true hle]⟩
  cases fn with
  | submitWaitOne w => exact heach rfl
  | readBatch fd blockSize blocks offset => exact heach rfl
  | readOffsets fd blockSize offsets => exact heach rfl
  | timeoutArmRemovePair sec nsec timeoutUserData => exact heach rfl
  | linkReadWrite fdIn len offIn fdOut offOut =>
    obtain ⟨hok, hgrown⟩ := takeBoth_spec ⟨.read fdIn 0 len.toNat offIn, 301, .one⟩
      ⟨.write fdOut 0 len.toNat offOut, 302, .one⟩ q
    rcases Nat.lt_or_ge q.free 2 with hlt | hle
    · refine Or.inr ⟨hlt, hok.trans (decide_eq_false (by omega)), _, ?_, hgrown⟩
      rw [if_neg (by omega), List.length_replicate]
    · exact Or.inl ⟨hle, hok.trans (decide_eq_true hle)⟩

/-- **A refused call queues nothing** exactly when the queue was full before it; with some of
the entries it needs to be had, it takes those.  A call whose arguments are not valid takes
none, and one with room for its entries is not refused. -/
theorem queuesNothing_iff (cfg : Config) (fn : SyncFn) (q : SubmissionQueue)
    (hidle : q.queued = []) : QueuesNothing cfg q fn ↔
      fn.valid cfg = false ∨ q.free = 0 ∨ fn.preps.length ≤ q.free := by
  unfold QueuesNothing call
  by_cases hvalid : fn.valid cfg = false
  · simp only [hvalid, if_true, true_or, iff_true]
    exact fun _ => ⟨trivial, rfl⟩
  rw [if_neg hvalid]
  rcases acquire_cases fn q with ⟨hle, hok⟩ | ⟨hlt, hok, es, hes, hgrown⟩
  · cases hacq : q.acquire fn with
    | mk ok q' =>
      obtain rfl : ok = true := by rwa [hacq] at hok
      simp [hle]
  cases hacq : q.acquire fn with
  | mk ok q' =>
    obtain rfl : ok = false := by rwa [hacq] at hok
    rw [hacq] at hgrown
    simp only [true_imp_iff]
    constructor
    · rintro ⟨-, hsub⟩
      have hnil : es = [] := by
        have := hgrown.queued.symm.trans hsub
        rwa [hidle, List.nil_append] at this
      exact Or.inr (Or.inl (by rw [← hes, hnil, List.length_nil]))
    · rintro (h | h | h)
      · exact absurd h hvalid
      · have hnil : es = [] := List.length_eq_zero_iff.mp (hes.trans h)
        subst hnil
        have hqueued := hgrown.queued.trans (List.append_nil _)
        exact ⟨SubmissionQueue.ext hgrown.size hgrown.unread hqueued, hqueued⟩
      · omega

def oneEntry : Config := ⟨1, 1, by decide, by decide⟩

def twoEntries : Config := ⟨2, 2, Nat.two_pos, Nat.two_pos⟩

/-- A linked pair on a ring of two entries is not refused, and a timeout pair on a ring whose
two entries the kernel has still to read takes none. -/
theorem queuesNothing_iff_two :
    QueuesNothing twoEntries (empty 2) (.linkReadWrite 3 8 0 4 0) ∧
      QueuesNothing twoEntries ⟨2, 2, [], by decide⟩ (.timeoutArmRemovePair 60 0 7) :=
  ⟨(queuesNothing_iff twoEntries (.linkReadWrite 3 8 0 4 0) (empty 2) rfl).mpr (by decide),
    (queuesNothing_iff twoEntries (.timeoutArmRemovePair 60 0 7) ⟨2, 2, [], by decide⟩ rfl).mpr
      (by decide)⟩

/-- On a ring of one entry the linked pair leaves the first of its two, not filled in. -/
theorem refused_pair_queues : ¬ ∀ (cfg : Config) (fn : SyncFn) (q : SubmissionQueue),
    q.queued = [] → QueuesNothing cfg q fn := by
  intro h
  have hleft := (h oneEntry (.linkReadWrite 3 8 0 4 0) (empty 1) rfl (by decide)).2
  exact absurd hleft (by decide)

/-! ## The queue of an ordinary ring -/

/-- The queue of a ring that was not clamped, without a polling thread. -/
structure Matches (cfg : Config) (stale : Prep) (s : State) (q : SubmissionQueue) : Prop where
  size : q.size = cfg.sqEntries
  unread : q.unread = 0
  queued : s.ring.queued.map CtxSqe.toPrep = q.queued.map fun e => e.getD stale

variable {stale : Prep} {s : State}

theorem Matches.length (h : Matches cfg stale s q) : s.ring.queued.length = q.queued.length := by
  simpa using congrArg List.length h.queued

theorem Matches.free (h : Matches cfg stale s q) : q.free = room cfg s := by
  rw [SubmissionQueue.free, room, h.size, h.unread, h.length, Nat.zero_add]

theorem map_entries (n : ℕ) (ps : List Prep) : (entries n ps).map CtxSqe.toPrep = ps := by
  induction ps generalizing n with
  | nil => rfl
  | cons p ps ih => rw [entries, List.map_cons, ih]

/-- Adding entries on both sides, filled in or not. -/
theorem Matches.grown (h : Matches cfg stale s q) {q' : SubmissionQueue} {es : List (Option Prep)}
    (hgrown : Grown q q' es) {n : ℕ} {ps : List Prep} (hes : ps = es.map fun e => e.getD stale) :
    Matches cfg stale (s.withTaken (entries n ps)) q' := by
  refine ⟨hgrown.size.trans h.size, hgrown.unread.trans h.unread, ?_⟩
  rw [State.withTaken, List.map_append, h.queued, map_entries, hgrown.queued, List.map_append, hes]

/-- **The two models of a call that takes its entries agree**, on whether it gets them and on
what it leaves in the queue. -/
theorem acquire_matches (h : Matches cfg stale s q) (fn : SyncFn) :
    (s.takeEntries cfg fn stale).1 = (q.acquire fn).1 ∧
      Matches cfg stale (s.takeEntries cfg fn stale).2 (q.acquire fn).2 := by
  have heach : (s.takeAll cfg fn.preps).1 = (takeEach fn.preps q).1 ∧
      Matches cfg stale (s.takeAll cfg fn.preps).2 (takeEach fn.preps q).2 := by
    obtain ⟨hok, hgrown⟩ := takeEach_spec fn.preps q
    rw [takeAll_eq]
    refine ⟨by rw [hok, h.free], h.grown hgrown ?_⟩
    rw [List.map_map, h.free]
    exact (List.map_id _).symm
  cases fn with
  | submitWaitOne w => exact heach
  | readBatch fd blockSize blocks offset => exact heach
  | readOffsets fd blockSize offsets => exact heach
  | timeoutArmRemovePair sec nsec timeoutUserData => exact heach
  | linkReadWrite fdIn len offIn fdOut offOut =>
    obtain ⟨hok, hgrown⟩ := takeBoth_spec ⟨.read fdIn 0 len.toNat offIn, 301, .one⟩
      ⟨.write fdOut 0 len.toNat offOut, 302, .one⟩ q
    have hroom : s.ring.queued.length + 2 ≤ cfg.sqEntries ↔ 2 ≤ q.free := by
      rw [h.free, room]
      omega
    unfold State.takeEntries acquire
    simp only [hroom]
    rw [hok]
    split_ifs with htwo
    · rw [if_pos htwo] at hgrown
      rw [takeAll_eq]
      refine ⟨?_, h.grown hgrown ?_⟩
      · rw [← h.free]
        rfl
      · rw [← h.free, List.take_of_length_le htwo]
        rfl
    · rw [if_neg htwo] at hgrown
      rw [takeAll_eq]
      refine ⟨(decide_eq_false htwo).symm, h.grown hgrown ?_⟩
      rw [← h.free]
      interval_cases q.free <;> rfl

end SubmissionQueue

end UringCtx
end Native
end Pyuring
