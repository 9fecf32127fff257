import Pyuring.Native.SyncIdle

/-!
# How a batch reaps its completions

`uring_read_batch_sync` and `uring_read_offsets_sync` submit a read for each block and
reap the completions in whatever portions they come in: up to 256 of them at a time when
there are some, one at a time after waiting when there are none.  The two differ in the
entries they prepare and in nothing else.

On an idle ring the completions are those of the batch.  Each of them is reaped once
(`BatchAt`), so a batch none of whose reads fails returns when the last one is in, with
the sum of all results as an `int` adds them up; and it does return, whatever the kernel's
order (`batch_terminates`).  The sum is the exact one as long as it fits into an `int`,
which no check of the two functions sees to.
-/

namespace Pyuring
namespace Native
namespace UringCtx

open CompletionRing Trace

/-- The block size and the number of blocks of a batch. -/
def SyncFn.batch? : SyncFn → Option (ℕ × ℕ)
  | .readBatch _ blockSize blocks _ => some (blockSize.toNat, blocks.toNat)
  | .readOffsets _ blockSize offsets => some (blockSize.toNat, offsets.length)
  | .submitWaitOne _ => none
  | .linkReadWrite _ _ _ _ _ => none
  | .timeoutArmRemovePair _ _ _ => none

/-- The results added up in the order in which they were reaped, in an `int`. -/
def intSum (reaped : List (CtxSqe × ℤ)) : ℤ :=
  reaped.foldl (fun total c => addInt total c.2) 0

/-- The sum of the results. -/
def exactSum (reaped : List (CtxSqe × ℤ)) : ℤ := (reaped.map Prod.snd).sum

@[simp] theorem intSum_nil : intSum [] = 0 := rfl

@[simp] theorem intSum_concat (reaped : List (CtxSqe × ℤ)) (c : CtxSqe × ℤ) :
    intSum (reaped ++ [c]) = addInt (intSum reaped) c.2 := by
  simp [intSum]

@[simp] theorem exactSum_concat (reaped : List (CtxSqe × ℤ)) (c : CtxSqe × ℤ) :
    exactSum (reaped ++ [c]) = exactSum reaped + c.2 := by
  simp [exactSum]

theorem addInt_eq {a b : ℤ} (h₀ : 0 ≤ a + b) (h : a + b < 2 ^ 31) : addInt a b = a + b := by
  refine Int.bmod_eq_of_le_mul_two ?_ ?_
  · push_cast
    omega
  · push_cast
    omega

theorem addInt_lt (a b : ℤ) : addInt a b < 2 ^ 31 := by
  have h := Int.bmod_lt (x := a + b) (m := 2 ^ 32) (by decide)
  unfold addInt
  omega

/-- A sum of results that fits into an `int` is the one that the function computes. -/
theorem intSum_eq {reaped : List (CtxSqe × ℤ)} (hnonneg : ∀ c ∈ reaped, 0 ≤ c.2)
    (h : exactSum reaped < 2 ^ 31) : intSum reaped = exactSum reaped := by
  induction reaped using List.reverseRecOn with
  | nil => rfl
  | append_singleton reaped c ih =>
    have hc := hnonneg c (List.mem_append_right _ (List.mem_singleton_self c))
    have hrest : ∀ d ∈ reaped, 0 ≤ d.2 := fun d hd => hnonneg d (List.mem_append_left _ hd)
    have hsum : 0 ≤ exactSum reaped := List.sum_nonneg fun r hr => by
      obtain ⟨d, hd, rfl⟩ := List.mem_map.mp hr
      exact hrest d hd
    rw [exactSum_concat] at h ⊢
    rw [intSum_concat, ih hrest (by omega), addInt_eq (by omega) h]

/-- The steps of one batch: the kernel completes each read once, with a result that `ok`
allows for it, no wait fails, and no other call is made. -/
def Answered (ok : CtxSqe → ℤ → Prop) (s : State) : Event → Prop
  | .complete i res more => more = false ∧ ∀ q, s.ring.outstanding[i]? = some q → ok q res
  | .peek => True
  | .wait waitRet => 0 ≤ waitRet
  | .sync _ _ _ => False
  | .async _ _ _ _ _ => False
  | .waitCompletion _ => False
  | .peekCompletion _ => False

/-- What a synchronous function reaped, and what it returned. -/
def Ev.returned? : Ev → Option (List (CtxSqe × ℤ) × ℤ)
  | .syncReturn _ _ reaped value => some (reaped, value)
  | .taken _ => none
  | .posted _ _ => none
  | .handed _ _ _ => none
  | .asyncReturn _ => none

theorem answered_complete {ok : CtxSqe → ℤ → Prop} {s : State} {res : ℤ} (h : ∀ q, ok q res)
    (i : ℕ) : Answered ok s (.complete i res false) := ⟨rfl, fun q _ => h q⟩

theorem Answered.mono {ok ok' : CtxSqe → ℤ → Prop} {s : State} {e : Event}
    (h : Answered ok s e) (hok : ∀ q res, ok q res → ok' q res) : Answered ok' s e := by
  cases e with
  | complete i res more => exact ⟨h.1, fun q hq => hok q res (h.2 q hq)⟩
  | peek => exact h
  | wait waitRet => exact h
  | sync fn stale submitRet => exact h
  | async op posts userData tracked submitRet => exact h
  | waitCompletion waitRet => exact h
  | peekCompletion peekRet => exact h

/-- The entries `qs` of a batch are on the ring or were reaped. -/
structure Batching (ok : CtxSqe → ℤ → Prop) (qs : List CtxSqe) (reaped : List (CtxSqe × ℤ))
    (s : State) : Prop where
  queued : s.ring.queued = []
  pending : s.ring.pending + reaped.map Prod.fst = (qs : Multiset CtxSqe)
  good : ∀ c ∈ s.ring.completed ++ reaped, ok c.1 c.2

/-- How far a batch has got: it waits for the entries that are on the ring, or it has
reaped them all and returned the sum, or it has returned a failed read's result. -/
inductive BatchAt (ok : CtxSqe → ℤ → Prop) (fn : SyncFn) (fst : ℕ) (qs : List CtxSqe)
    (s : State) : Prop where
  | waits {reaped : List (CtxSqe × ℤ)} {left : ℕ} {waiting : Bool}
      (hbatch : Batching ok qs reaped s)
      (hcall : s.call = some ⟨fn, fst, .batch left (intSum reaped) waiting, reaped⟩)
      (hleft : left = s.ring.outstanding.length + s.ring.completed.length) (hpos : 0 < left)
      (hnonneg : ∀ c ∈ reaped, 0 ≤ c.2)
  | returns {reaped : List (CtxSqe × ℤ)} (hbatch : Batching ok qs reaped s)
      (hcall : s.call = none) (hidle : s.ring.Idle)
      (hreturn : s.log.findSome? Ev.returned? = some (reaped, intSum reaped))
      (hnonneg : ∀ c ∈ reaped, 0 ≤ c.2)
  | fails {reaped : List (CtxSqe × ℤ)} {value : ℤ} (hbatch : Batching ok qs reaped s)
      (hcall : s.call = none) (hreturn : s.log.findSome? Ev.returned? = some (reaped, value))
      (hneg : value < 0) (hfailed : ∃ c ∈ reaped, c.2 < 0)

variable {cfg : Config} {ok : CtxSqe → ℤ → Prop} {fn : SyncFn} {fst : ℕ} {qs : List CtxSqe}
  {s t : State} {n k : ℕ}

/-- What lets a batch in, and what it then submits and waits for. -/
theorem batch_spec (h : fn.batch? = some (n, k)) (hvalid : fn.valid cfg = true) :
    fn.preps.length = k ∧ fn.reaping = .batch k 0 false ∧ 0 < k ∧
      ∀ p ∈ fn.preps, p.posts = .one := by
  cases fn with
  | readBatch fd blockSize blocks offset =>
    obtain ⟨rfl, rfl⟩ := Prod.mk.inj (Option.some.inj h)
    simp only [SyncFn.valid, Bool.and_eq_true, bne_iff_ne, ne_eq, decide_eq_true_eq,
      ← UInt32.toNat_inj] at hvalid
    refine ⟨by simp [SyncFn.preps], rfl, Nat.pos_of_ne_zero hvalid.1.2, ?_⟩
    intro p hp
    obtain ⟨i, -, rfl⟩ := List.mem_map.mp hp
    rfl
  | readOffsets fd blockSize offsets =>
    obtain ⟨rfl, rfl⟩ := Prod.mk.inj (Option.some.inj h)
    simp only [SyncFn.valid, Bool.and_eq_true, bne_iff_ne, ne_eq, decide_eq_true_eq,
      ← UInt32.toNat_inj] at hvalid
    refine ⟨by simp [SyncFn.preps], rfl, Nat.pos_of_ne_zero hvalid.1.2, ?_⟩
    intro p hp
    obtain ⟨i, hi, rfl⟩ := List.mem_mapIdx.mp hp
    rfl
  | submitWaitOne w => exact absurd h (by simp [SyncFn.batch?])
  | linkReadWrite fdIn len offIn fdOut offOut => exact absurd h (by simp [SyncFn.batch?])
  | timeoutArmRemovePair sec nsec ud => exact absurd h (by simp [SyncFn.batch?])

/-! ## The start -/

/-- On an idle ring a batch that is let in and finds room submits its entries and waits. -/
theorem start_batch (h : fn.batch? = some (n, k)) (hvalid : fn.valid cfg = true)
    (hroom : k ≤ cfg.sqEntries) (hidle : s.ring.Idle) (stale : Prep) {submitRet : ℤ}
    (hret : 0 ≤ submitRet) :
    s.start cfg fn stale submitRet = s.started fn := by
  obtain ⟨hlen, -, -, -⟩ := batch_spec h hvalid
  have hempty : room cfg s = cfg.sqEntries := by
    rw [room, hidle.1, List.length_nil, Nat.sub_zero]
  rcases start_cases (s := s) hvalid stale submitRet with ⟨hlt, -⟩ | ⟨-, hneg, -⟩ | ⟨-, -, heq⟩
  · omega
  · omega
  · exact heq

theorem batchAt_started (h : fn.batch? = some (n, k)) (hvalid : fn.valid cfg = true)
    (hidle : s.ring.Idle) :
    BatchAt ok fn s.serial (entries s.serial fn.preps) (s.started fn) := by
  obtain ⟨hlen, hreaping, hpos, -⟩ := batch_spec h hvalid
  obtain ⟨hq, ho, hc⟩ := hidle
  have hcall : (s.started fn).call = some ⟨fn, s.serial, .batch k (intSum []) false, []⟩ := by
    simp [State.started, hreaping]
  refine .waits ⟨rfl, ?_, ?_⟩ hcall ?_ hpos ?_
  · simp [State.started, State.withTaken, CompletionRing.pending, hq, ho, hc]
  · simp [State.started, State.withTaken, hc]
  · simp [State.started, State.withTaken, hq, ho, hc, hlen]
  · simp

theorem batchAt_start (h : fn.batch? = some (n, k)) (hvalid : fn.valid cfg = true)
    (hroom : k ≤ cfg.sqEntries) (hidle : s.ring.Idle) (stale : Prep) {submitRet : ℤ}
    (hret : 0 ≤ submitRet) :
    BatchAt ok fn s.serial (entries s.serial fn.preps) (s.start cfg fn stale submitRet) := by
  rw [start_batch h hvalid hroom hidle stale hret]
  exact batchAt_started h hvalid hidle

/-- Each entry of a batch posts one completion. -/
theorem posts_of_batch (h : fn.batch? = some (n, k)) (hvalid : fn.valid cfg = true) {m : ℕ}
    {q : CtxSqe} (hq : q ∈ entries m fn.preps) : q.posts = .one := by
  obtain ⟨-, -, -, hmem, -⟩ := mem_entries hq
  obtain ⟨-, -, -, hposts⟩ := batch_spec h hvalid
  exact hposts q.toPrep hmem

/-! ## One completion reaped -/

/-- The next completion is one of the batch. -/
theorem Batching.reap {reaped : List (CtxSqe × ℤ)} {c : CtxSqe × ℤ} {cs : List (CtxSqe × ℤ)}
    (h : Batching ok qs reaped s) (hcs : s.ring.completed = c :: cs)
    (ht : t.ring = { s.ring with completed := cs }) : Batching ok qs (reaped ++ [c]) t := by
  refine ⟨?_, ?_, ?_⟩
  · rw [ht]
    exact h.queued
  · have hreap := pending_reap (reap_eq_some.mpr ⟨cs, hcs, rfl⟩)
    rw [ht, ← h.pending, hreap, List.map_append, ← Multiset.coe_add, List.map_singleton,
      Multiset.coe_singleton, ← Multiset.singleton_add]
    ac_rfl
  · intro d hd
    refine h.good d ?_
    rw [ht] at hd
    rw [hcs]
    simp only [List.mem_append, List.mem_cons, List.not_mem_nil, or_false] at hd ⊢
    tauto

/-- A batch that reaps one completion has one fewer to wait for, or returns. -/
theorem batchAt_reapOne {reaped : List (CtxSqe × ℤ)} {left : ℕ} {waiting : Bool}
    {c : CtxSqe × ℤ} {cs : List (CtxSqe × ℤ)} (hbatch : Batching ok qs reaped s)
    (hleft : left = s.ring.outstanding.length + s.ring.completed.length)
    (hnonneg : ∀ d ∈ reaped, 0 ≤ d.2) (hcs : s.ring.completed = c :: cs) :
    BatchAt ok fn fst qs
      (s.reapOne ⟨fn, fst, .batch left (intSum reaped) waiting, reaped⟩ c cs) := by
  have hlen : s.ring.completed.length = cs.length + 1 := by rw [hcs, List.length_cons]
  have hreaped : 0 ≤ c.2 → ∀ d ∈ reaped ++ [c], 0 ≤ d.2 := by
    intro hc d hd
    rcases List.mem_append.mp hd with hd | hd
    · exact hnonneg d hd
    · rw [List.mem_singleton.mp hd]
      exact hc
  obtain ⟨q, res⟩ := c
  unfold State.reapOne
  simp only [Reaping.feed]
  by_cases hres : res < 0
  · simp only [if_pos hres]
    exact .fails (hbatch.reap hcs rfl) rfl rfl hres
      ⟨(q, res), List.mem_append_right _ (List.mem_singleton_self _), hres⟩
  simp only [if_neg hres]
  by_cases hlast : left ≤ 1
  · simp only [if_pos hlast]
    have hout : s.ring.outstanding = [] := List.eq_nil_of_length_eq_zero (by omega)
    have hnil : cs = [] := List.eq_nil_of_length_eq_zero (by omega)
    refine .returns (hbatch.reap hcs rfl) rfl ⟨hbatch.queued, hout, hnil⟩ ?_
      (hreaped (Int.not_lt.mp hres))
    rw [intSum_concat]
    rfl
  · simp only [if_neg hlast]
    refine .waits (hbatch.reap hcs rfl)
      (show _ = some (Running.mk _ _ (.batch (left - 1) _ false) _) from ?_) ?_ (by omega)
      (hreaped (Int.not_lt.mp hres))
    · rw [intSum_concat]
    · simp only
      omega

/-! ## The work left -/

/-- A bound on the steps that are left. -/
def batchWork (s : State) : ℕ :=
  3 * s.ring.outstanding.length + 2 * s.ring.completed.length +
    match s.call with
    | some ⟨_, _, .batch _ _ false, _⟩ => 1
    | _ => 0

theorem batchWork_le (s : State) :
    batchWork s ≤ 3 * s.ring.outstanding.length + 2 * s.ring.completed.length + 1 := by
  unfold batchWork
  split <;> omega

theorem batchWork_reapOne {r : Running} {c : CtxSqe × ℤ} {cs : List (CtxSqe × ℤ)}
    (hcs : s.ring.completed = c :: cs) : batchWork (s.reapOne r c cs) < batchWork s := by
  have hle := batchWork_le (s.reapOne r c cs)
  obtain ⟨hring, -, -⟩ := reapOne_frame (s := s) r c cs
  rw [hring] at hle
  have hlen : s.ring.completed.length = cs.length + 1 := by rw [hcs, List.length_cons]
  have hge : 3 * s.ring.outstanding.length + 2 * s.ring.completed.length ≤ batchWork s :=
    Nat.le_add_right _ _
  simp only at hle
  omega

/-- Going through completions keeps a batch a batch, and takes work off. -/
theorem batchAt_drain : ∀ {m : ℕ} {s : State}, BatchAt ok fn fst qs s →
    BatchAt ok fn fst qs (s.drain m) ∧ batchWork (s.drain m) ≤ batchWork s ∧
      (s.call ≠ none → 0 < m → s.ring.completed ≠ [] → batchWork (s.drain m) < batchWork s)
  | 0, s, h => ⟨h, Nat.le_refl _, fun _ h0 => absurd h0 (Nat.lt_irrefl 0)⟩
  | m + 1, s, h => by
    cases h with
    | @waits reaped left waiting hbatch hcall hleft hpos hnonneg =>
      cases hcs : s.ring.completed with
      | nil =>
        have hdrain : s.drain (m + 1) = s := by simp only [State.drain, hcall, hcs]
        rw [hdrain]
        exact ⟨.waits hbatch hcall hleft hpos hnonneg, Nat.le_refl _, fun _ _ h => absurd rfl h⟩
      | cons c cs =>
        have hdrain : s.drain (m + 1) = (s.reapOne
            ⟨fn, fst, .batch left (intSum reaped) waiting, reaped⟩ c cs).drain m := by
          simp only [State.drain, hcall, hcs]
        rw [hdrain]
        have hat : BatchAt ok fn fst qs (s.reapOne
            ⟨fn, fst, .batch left (intSum reaped) waiting, reaped⟩ c cs) :=
          batchAt_reapOne hbatch hleft hnonneg hcs
        have hlt := batchWork_reapOne
          (r := ⟨fn, fst, .batch left (intSum reaped) waiting, reaped⟩) hcs
        obtain ⟨hat', hle, -⟩ := batchAt_drain (m := m) hat
        exact ⟨hat', Nat.le_trans hle (Nat.le_of_lt hlt), fun _ _ _ => Nat.lt_of_le_of_lt hle hlt⟩
    | returns hbatch hcall hidle hreturn hnonneg =>
      have hdrain : s.drain (m + 1) = s := by simp only [State.drain, hcall]
      rw [hdrain]
      exact ⟨.returns hbatch hcall hidle hreturn hnonneg, Nat.le_refl _,
        fun hrunning => absurd hcall hrunning⟩
    | fails hbatch hcall hreturn hneg hfailed =>
      have hdrain : s.drain (m + 1) = s := by simp only [State.drain, hcall]
      rw [hdrain]
      exact ⟨.fails hbatch hcall hreturn hneg hfailed, Nat.le_refl _,
        fun hrunning => absurd hcall hrunning⟩

/-! ## One step -/

/-- A read completed is one of the batch. -/
theorem complete_false {i : ℕ} {res : ℤ} (h : s.complete i res false = some t) :
    ∃ q, s.ring.outstanding[i]? = some q ∧
      t = { s with
        ring := { s.ring with
          outstanding := s.ring.outstanding.eraseIdx i
          completed := s.ring.completed ++ [(q, res)] }
        log := .posted q res :: s.log } := by
  unfold State.complete at h
  split at h
  · exact absurd h (by simp)
  · split at h
    · obtain ⟨⟨q, ring⟩, hring, rfl⟩ := Option.map_eq_some_iff.mp h
      obtain ⟨hq, rfl⟩ := complete_eq_some.mp
        (show s.ring.complete i res = some (q, ring) from hring)
      exact ⟨q, hq, rfl⟩
    · exact absurd h (by simp)

/-- The kernel can complete any read that is outstanding. -/
theorem complete_of_one {i : ℕ} {q : CtxSqe} (hq : s.ring.outstanding[i]? = some q)
    (hone : q.posts = .one) (res : ℤ) : ∃ t, s.complete i res false = some t := by
  have hring : s.ring.complete i res = some (q, _) := complete_eq_some.mpr ⟨hq, rfl⟩
  simp only [State.complete, hq, hone, Posts.allows, Bool.not_false, if_true]
  rw [if_neg (by simp), hring]
  exact ⟨_, rfl⟩

theorem Batching.complete {reaped : List (CtxSqe × ℤ)} {i : ℕ} {q : CtxSqe} {res : ℤ}
    (h : Batching ok qs reaped s) (hq : s.ring.outstanding[i]? = some q) (hok : ok q res)
    (ht : t.ring = { s.ring with
      outstanding := s.ring.outstanding.eraseIdx i
      completed := s.ring.completed ++ [(q, res)] }) : Batching ok qs reaped t := by
  refine ⟨?_, ?_, ?_⟩
  · rw [ht]
    exact h.queued
  · rw [← h.pending, ← pending_complete (complete_eq_some.mpr ⟨hq, rfl⟩), ht]
  · intro c hc
    rw [ht] at hc
    simp only [List.mem_append, List.mem_singleton] at hc
    rcases hc with (hc | rfl) | hc
    · exact h.good c (List.mem_append_left _ hc)
    · exact hok
    · exact h.good c (List.mem_append_right _ hc)

/-- **A batch stays a batch**: a step takes work off it, and leaves what is to be reaped
and what was reaped as its entries. -/
theorem batchAt_step {e : Event} (h : BatchAt ok fn fst qs s) (he : Answered ok s e)
    (ht : step cfg s e = some t) : BatchAt ok fn fst qs t ∧ batchWork t < batchWork s := by
  cases step_cases ht with
  | @complete i res more _ hcomplete =>
    obtain ⟨rfl, hok⟩ := he
    obtain ⟨q, hq, rfl⟩ := complete_false hcomplete
    have hlen := List.length_eraseIdx_of_lt (List.getElem?_eq_some_iff.mp hq).1
    have hlt := (List.getElem?_eq_some_iff.mp hq).1
    refine ⟨?_, ?_⟩
    · cases h with
      | waits hbatch hcall hleft hpos hnonneg =>
        refine .waits (hbatch.complete hq (hok q hq) rfl) hcall ?_ hpos hnonneg
        rw [hleft, hlen, List.length_append, List.length_singleton]
        omega
      | returns hbatch hcall hidle hreturn hnonneg =>
        rw [hidle.2.1] at hq
        exact absurd hq (by simp)
      | fails hbatch hcall hreturn hneg hfailed =>
        exact .fails (hbatch.complete hq (hok q hq) rfl) hcall hreturn hneg hfailed
    · simp only [batchWork, hlen, List.length_append, List.length_singleton]
      omega
  | batchWaits hr hreap hnil =>
    cases h with
    | waits hbatch hcall hleft hpos hnonneg =>
      obtain rfl := Option.some.inj (hr.symm.trans hcall)
      obtain ⟨rfl, rfl, rfl⟩ := Reaping.batch.inj hreap
      refine ⟨.waits ⟨hbatch.queued, hbatch.pending, hbatch.good⟩ rfl hleft hpos hnonneg, ?_⟩
      simp only [batchWork, hcall]
      omega
    | returns hbatch hcall hidle hreturn hnonneg => exact absurd (hcall.symm.trans hr) (by simp)
    | fails hbatch hcall hreturn hneg hfailed => exact absurd (hcall.symm.trans hr) (by simp)
  | @batchDrains r remaining total hr hreap hne =>
    have hrunning : s.call ≠ none := fun hnone => by simp [hnone] at hr
    have hleft : 0 < remaining := by
      cases h with
      | waits hbatch hcall hleft hpos hnonneg =>
        obtain rfl := Option.some.inj (hr.symm.trans hcall)
        obtain ⟨rfl, -, -⟩ := Reaping.batch.inj hreap
        exact hpos
      | returns hbatch hcall hidle hreturn hnonneg => exact absurd hcall hrunning
      | fails hbatch hcall hreturn hneg hfailed => exact absurd hcall hrunning
    have hlen := List.length_pos_of_ne_nil hne
    obtain ⟨hat, -, hlt⟩ := batchAt_drain (m := min (min remaining 256) s.ring.completed.length) h
    exact ⟨hat, hlt hrunning (by omega) hne⟩
  | waitFails hr hret => exact absurd he (Int.not_le.mpr hret)
  | waitReaps hr hret hcs =>
    cases h with
    | waits hbatch hcall hleft hpos hnonneg =>
      obtain rfl := Option.some.inj (hr.symm.trans hcall)
      exact ⟨batchAt_reapOne hbatch hleft hnonneg hcs, batchWork_reapOne hcs⟩
    | returns hbatch hcall hidle hreturn hnonneg => exact absurd (hcall.symm.trans hr) (by simp)
    | fails hbatch hcall hreturn hneg hfailed => exact absurd (hcall.symm.trans hr) (by simp)
  | sync hcall => exact he.elim
  | async hcall => exact he.elim
  | waitRaises hcall => exact he.elim
  | waitHands hcall hcs => exact he.elim
  | peekNone hcall => exact he.elim
  | peekHands hcall hcs => exact he.elim

/-! ## A whole call -/

/-- Wherever a batch has got to, its entries are on the ring or were reaped. -/
theorem batchAt_of_reach (hfn : fn.batch? = some (n, k)) (hvalid : fn.valid cfg = true)
    (hroom : k ≤ cfg.sqEntries) (hidle : s.ring.Idle) {stale : Prep} {submitRet : ℤ}
    (hret : 0 ≤ submitRet)
    (hreach : Reach (step cfg) (Answered ok) (s.start cfg fn stale submitRet) t) :
    BatchAt ok fn s.serial (entries s.serial fn.preps) t := by
  refine hreach.invariant (batchAt_start hfn hvalid hroom hidle stale hret) ?_
  intro t e u h he hu
  exact (batchAt_step h he hu).1

theorem Batching.mem_of_outstanding {reaped : List (CtxSqe × ℤ)} (h : Batching ok qs reaped s)
    {q : CtxSqe} (hq : q ∈ s.ring.outstanding) : q ∈ qs := by
  rw [← Multiset.mem_coe, ← h.pending]
  exact Multiset.mem_add.mpr (Or.inl (mem_pending.mpr (Or.inr (Or.inl hq))))

/-- A batch that has not returned goes on: with a completion if there is one, else with
the kernel's next one. -/
theorem batchAt_moves (hone : ∀ q ∈ qs, q.posts = .one) (hok : ∀ q ∈ qs, ∃ res, ok q res)
    (h : BatchAt ok fn fst qs s) (hcall : s.call ≠ none) :
    ∃ e t, Answered ok s e ∧ step cfg s e = some t := by
  cases h with
  | @waits reaped left waiting hbatch hrunning hleft hpos hnonneg =>
    cases hcs : s.ring.completed with
    | nil =>
      obtain ⟨q, out, hout⟩ : ∃ q out, s.ring.outstanding = q :: out :=
        List.exists_cons_of_length_pos (by rw [hcs, List.length_nil] at hleft; omega)
      have hq : s.ring.outstanding[0]? = some q := by rw [hout, List.getElem?_cons_zero]
      have hmem := hbatch.mem_of_outstanding (List.mem_of_getElem? hq)
      obtain ⟨res, hres⟩ := hok q hmem
      obtain ⟨t, ht⟩ := complete_of_one hq (hone q hmem) res
      refine ⟨.complete 0 res false, t, ⟨rfl, ?_⟩, ht⟩
      intro q' hq'
      rw [← Option.some.inj (hq.symm.trans hq')]
      exact hres
    | cons c cs =>
      cases waiting with
      | false =>
        refine ⟨.peek, s.peekBatch ⟨fn, fst, .batch left (intSum reaped) false, reaped⟩ left
          (intSum reaped), trivial, ?_⟩
        simp only [step, hrunning]
      | true =>
        refine ⟨.wait 0, s.reapOne ⟨fn, fst, .batch left (intSum reaped) true, reaped⟩ c cs,
          Int.le_refl 0, ?_⟩
        simp only [step, hrunning, State.waitCqe, hcs]
        rfl
  | returns hbatch hnone hidle hreturn hnonneg => exact absurd hnone hcall
  | fails hbatch hnone hreturn hneg hfailed => exact absurd hnone hcall

/-- **A batch returns**, whatever the order in which its reads complete and the portions
in which it reaps them. -/
theorem batch_terminates (hfn : fn.batch? = some (n, k)) (hvalid : fn.valid cfg = true)
    (hroom : k ≤ cfg.sqEntries) (hidle : s.ring.Idle) (stale : Prep) {submitRet : ℤ}
    (hret : 0 ≤ submitRet)
    (hok : ∀ q ∈ entries s.serial fn.preps, ∃ res, ok q res) :
    Terminates (step cfg) (Answered ok) (fun t => t.call = none)
      (s.start cfg fn stale submitRet) := by
  refine terminates_of_measure (I := BatchAt ok fn s.serial (entries s.serial fn.preps))
    batchWork (batchAt_start hfn hvalid hroom hidle stale hret) ?_ ?_ ?_
  · intro t e u h he hu
    exact (batchAt_step h he hu).1
  · intro t e u h he hu
    exact (batchAt_step h he hu).2
  · intro t h hcall
    exact batchAt_moves (fun q hq => posts_of_batch hfn hvalid hq) hok h hcall

/-! ## The total -/

/-- The most bytes that one read transfers. -/
def maxRwCount : ℕ := 2 ^ 31 - 4096

/-- Reads of `n` bytes each that transfer all they can. -/
def Full (n : ℕ) (_ : CtxSqe) (res : ℤ) : Prop := res = ((min n maxRwCount : ℕ) : ℤ)

/-- The results of reads of `n` bytes each that succeed. -/
def Within (n : ℕ) (_ : CtxSqe) (res : ℤ) : Prop := 0 ≤ res ∧ res ≤ ((min n maxRwCount : ℕ) : ℤ)

/-- The total of a running batch is the sum of the results reaped, and so is what it
returns. -/
structure ExactTotal (s : State) : Prop where
  running : ∀ fn fst left total waiting reaped,
    s.call = some ⟨fn, fst, .batch left total waiting, reaped⟩ → total = exactSum reaped
  returned : s.call = none → ∀ reaped value,
    s.log.findSome? Ev.returned? = some (reaped, value) → value = exactSum reaped

theorem intSum_lt (reaped : List (CtxSqe × ℤ)) : intSum reaped < 2 ^ 31 := by
  cases reaped using List.reverseRecOn with
  | nil => decide
  | append_singleton reaped c =>
    rw [intSum_concat]
    exact addInt_lt _ _

theorem Batching.length_le {reaped : List (CtxSqe × ℤ)} (h : Batching ok qs reaped s) :
    reaped.length ≤ qs.length := by
  have hcard := congrArg Multiset.card h.pending
  simp only [Multiset.card_add, Multiset.coe_card, List.length_map] at hcard
  omega

theorem exactSum_le {m : ℕ} {reaped : List (CtxSqe × ℤ)} (h : ∀ c ∈ reaped, c.2 ≤ m) :
    exactSum reaped ≤ reaped.length * m := by
  have hsum := List.sum_le_card_nsmul (reaped.map Prod.snd) (m : ℤ) fun r hr => by
    obtain ⟨c, hc, rfl⟩ := List.mem_map.mp hr
    exact h c hc
  simpa [exactSum] using hsum

/-- Once all entries were reaped with the same result, the sum is that many times it. -/
theorem Batching.exactSum_eq {m : ℕ} {reaped : List (CtxSqe × ℤ)} (h : Batching ok qs reaped s)
    (hidle : s.ring.Idle) (hok : ∀ q res, ok q res → res = m) :
    exactSum reaped = ((qs.length * m : ℕ) : ℤ) := by
  have hcard := congrArg Multiset.card h.pending
  rw [pending_eq_zero.mpr hidle] at hcard
  simp only [Multiset.card_add, Multiset.coe_card, List.length_map, Multiset.card_zero,
    Nat.zero_add] at hcard
  have hall : reaped.map Prod.snd = List.replicate reaped.length (m : ℤ) := by
    refine List.eq_replicate_iff.mpr ⟨List.length_map _, ?_⟩
    intro r hr
    obtain ⟨c, hc, rfl⟩ := List.mem_map.mp hr
    exact hok c.1 c.2 (h.good c (List.mem_append_right _ hc))
  rw [exactSum, hall, List.sum_replicate, hcard]
  simp

/-- While `k` results of at most `m` bytes fit into an `int`, so does the sum of those
reaped. -/
theorem Batching.intSum_eq {m : ℕ} {reaped : List (CtxSqe × ℤ)} (h : Batching ok qs reaped s)
    (hok : ∀ q res, ok q res → 0 ≤ res ∧ res ≤ m) (hfit : qs.length * m < 2 ^ 31) :
    intSum reaped = exactSum reaped := by
  have hgood : ∀ c ∈ reaped, 0 ≤ c.2 ∧ c.2 ≤ m := fun c hc =>
    hok c.1 c.2 (h.good c (List.mem_append_right _ hc))
  have hle := exactSum_le fun c hc => (hgood c hc).2
  have hlen := Nat.mul_le_mul_right m h.length_le
  refine UringCtx.intSum_eq (fun c hc => (hgood c hc).1) ?_
  calc exactSum reaped ≤ ((reaped.length * m : ℕ) : ℤ) := by exact_mod_cast hle
    _ ≤ ((qs.length * m : ℕ) : ℤ) := by exact_mod_cast hlen
    _ < 2 ^ 31 := by exact_mod_cast hfit

/-- **The total of a batch is exact**, in every run of a batch that is let in, finds room for
its entries and none of whose reads fails, exactly when the bytes that its reads can transfer
at most fit into an `int`. -/
theorem batch_total_exact_iff (cfg : Config) (s : State) (fn : SyncFn) (stale : Prep)
    (submitRet : ℤ) (n k : ℕ) (hfn : fn.batch? = some (n, k)) (hvalid : fn.valid cfg = true)
    (hroom : k ≤ cfg.sqEntries) (hidle : s.ring.Idle) (hret : 0 ≤ submitRet) :
    (∀ t, Reach (step cfg) (Answered (Within n)) (s.start cfg fn stale submitRet) t →
      ExactTotal t) ↔ k * min n maxRwCount < 2 ^ 31 := by
  have hlen : (entries s.serial fn.preps).length = k := by
    rw [length_entries, (batch_spec hfn hvalid).1]
  constructor
  · intro hexact
    refine Nat.lt_of_not_le ?_
    intro hlarge
    -- a run in which every read transfers all it can
    have hok : ∀ q ∈ entries s.serial fn.preps, ∃ res, Full n q res := fun _ _ => ⟨_, rfl⟩
    have hfull : ∀ q res, Full n q res → Within n q res := by
      rintro q res rfl
      exact ⟨Int.natCast_nonneg _, Int.le_refl _⟩
    obtain ⟨t, ht, hcall⟩ :=
      (batch_terminates hfn hvalid hroom hidle stale hret hok).exists_final
    have hat := batchAt_of_reach hfn hvalid hroom hidle hret ht
    have hret' := (hexact t (ht.mono fun u e he => he.mono hfull)).returned hcall
    cases hat with
    | waits hbatch hrunning hleft hpos hnonneg => exact absurd (hcall.symm.trans hrunning) (by simp)
    | @returns reaped hbatch hnone hidle' hreturn hnonneg =>
      have hsum := hret' reaped _ hreturn
      have hsmall := intSum_lt reaped
      have hmax := hbatch.exactSum_eq hidle' fun q res h => h
      rw [hlen] at hmax
      rw [hsum, hmax] at hsmall
      exact absurd (by exact_mod_cast hsmall) (Nat.not_lt.mpr hlarge)
    | fails hbatch hnone hreturn hneg hfailed =>
      obtain ⟨c, hc, hlt⟩ := hfailed
      have heq := hbatch.good c (List.mem_append_right _ hc)
      exact absurd (heq ▸ hlt) (Int.not_lt.mpr (Int.natCast_nonneg _))
  · intro hfit t ht
    have hat := batchAt_of_reach hfn hvalid hroom hidle hret ht
    have hok : ∀ q res, Within n q res → 0 ≤ res ∧ res ≤ ((min n maxRwCount : ℕ) : ℤ) :=
      fun q res h => h
    rw [← hlen] at hfit
    cases hat with
    | waits hbatch hcall hleft hpos hnonneg =>
      refine ⟨?_, fun hnone => absurd (hnone.symm.trans hcall) (by simp)⟩
      intro fn' fst left' total waiting' reaped' hcall'
      obtain ⟨-, -, hreaping, rfl⟩ := Running.mk.inj (Option.some.inj (hcall.symm.trans hcall'))
      obtain ⟨-, rfl, -⟩ := Reaping.batch.inj hreaping
      exact hbatch.intSum_eq hok hfit
    | returns hbatch hcall hidle' hreturn hnonneg =>
      refine ⟨?_, ?_⟩
      · intro fn' fst left' total waiting' reaped' hcall'
        exact absurd (hcall.symm.trans hcall') (by simp)
      · intro _ reaped' value hvalue
        obtain ⟨rfl, rfl⟩ := Prod.mk.inj (Option.some.inj (hreturn.symm.trans hvalue))
        exact hbatch.intSum_eq hok hfit
    | fails hbatch hcall hreturn hneg hfailed =>
      obtain ⟨c, hc, hlt⟩ := hfailed
      exact absurd (hok c.1 c.2 (hbatch.good c (List.mem_append_right _ hc))).1 (Int.not_le.mpr hlt)

theorem batch_total_exact_iff_read_batch :
    (∀ t, Reach (step fourEntries) (Answered (Within 512))
      (State.init.start fourEntries (.readBatch 3 512 4 0) blankPrep 4) t → ExactTotal t) ↔
        4 * min 512 maxRwCount < 2 ^ 31 :=
  batch_total_exact_iff fourEntries State.init _ blankPrep 4 512 4 rfl rfl (by decide)
    ⟨rfl, rfl, rfl⟩ (by decide)

/-- Two blocks of a gigabyte each. -/
theorem batch_total_overflows : ¬ ∀ (cfg : Config) (s : State) (fn : SyncFn) (stale : Prep)
    (submitRet : ℤ) (n k : ℕ), fn.batch? = some (n, k) → fn.valid cfg = true →
    k ≤ cfg.sqEntries → s.ring.Idle → 0 ≤ submitRet → ∀ t, Reach (step cfg) (Answered (Within n))
      (s.start cfg fn stale submitRet) t → ExactTotal t := by
  intro h
  have hres : ∀ q, Within 1073741824 q 1073741824 := fun q => ⟨by decide, by decide⟩
  obtain ⟨t, reaped, ht, hcall, hreturn, hsum⟩ : ∃ t reaped, exec (step fourEntries)
      (State.init.start fourEntries (.readBatch 3 1073741824 2 0) blankPrep 2)
      [.complete 0 1073741824 false, .complete 0 1073741824 false, .peek] = some t ∧
      t.call = none ∧ t.log.findSome? Ev.returned? = some (reaped, -2147483648) ∧
      exactSum reaped = 2147483648 := ⟨_, _, rfl, rfl, rfl, rfl⟩
  have hmeets : Meets (step fourEntries) (Answered (Within 1073741824))
      (State.init.start fourEntries (.readBatch 3 1073741824 2 0) blankPrep 2)
      [.complete 0 1073741824 false, .complete 0 1073741824 false, .peek] :=
    ⟨answered_complete hres 0, fun u hu => ⟨answered_complete hres 0,
      fun v hv => ⟨trivial, fun w hw => trivial⟩⟩⟩
  have hreach := reach_of_exec hmeets ht
  have hexact := h fourEntries State.init (.readBatch 3 1073741824 2 0) blankPrep 2 1073741824 2
    rfl rfl (by decide) ⟨rfl, rfl, rfl⟩ (by decide) t hreach
  have hvalue := hexact.returned hcall reaped _ hreturn
  rw [hsum] at hvalue
  exact absurd hvalue (by decide)

end UringCtx
end Native
end Pyuring
