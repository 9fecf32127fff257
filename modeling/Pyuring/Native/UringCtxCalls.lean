import Pyuring.Lib.Trace
import Pyuring.Native.UringCtx

/-!
# What a call does to the ring

One lemma for each way in which a call can go: a synchronous function that is
refused, that finds no room, whose submit fails, or that goes on to wait; and what
reaping one completion does.  The statements about whole runs are proved from these
without looking at the definitions again.
-/

namespace Pyuring
namespace Native
namespace UringCtx

open CompletionRing Trace

/-- The entries for `ps`, when `n` entries were taken before. -/
def entries : ℕ → List Prep → List CtxSqe
  | _, [] => []
  | n, p :: ps => ⟨p, n, true, 0⟩ :: entries (n + 1) ps

@[simp] theorem length_entries (n : ℕ) (ps : List Prep) : (entries n ps).length = ps.length := by
  induction ps generalizing n with
  | nil => rfl
  | cons p ps ih => simp [entries, ih]

theorem mem_entries {q : CtxSqe} {n : ℕ} {ps : List Prep} (h : q ∈ entries n ps) :
    q.sync = true ∧ n ≤ q.serial ∧ q.serial < n + ps.length ∧ q.toPrep ∈ ps ∧ q.posted = 0 := by
  induction ps generalizing n with
  | nil => exact absurd h (by simp [entries])
  | cons p ps ih =>
    rcases List.mem_cons.mp h with rfl | h
    · simp
    · obtain ⟨hsync, hle, hlt, hmem, hposted⟩ := ih h
      refine ⟨hsync, by omega, ?_, List.mem_cons_of_mem p hmem, hposted⟩
      rw [List.length_cons]
      omega

/-- The state after `qs` were taken. -/
def State.withTaken (qs : List CtxSqe) (s : State) : State :=
  { s with
    ring := { s.ring with queued := s.ring.queued ++ qs }
    serial := s.serial + qs.length
    log := (qs.map Ev.taken).reverse ++ s.log }

variable {cfg : Config} {s : State}

/-- The entries that can still be taken. -/
def room (cfg : Config) (s : State) : ℕ := cfg.sqEntries - s.ring.queued.length

theorem take_eq_some {sync : Bool} {p : Prep} {t : State} :
    s.take cfg sync p = some t ↔ s.ring.queued.length < cfg.sqEntries ∧
      t = { s with
        ring := { s.ring with queued := s.ring.queued ++ [⟨p, s.serial, sync, 0⟩] }
        serial := s.serial + 1
        log := .taken ⟨p, s.serial, sync, 0⟩ :: s.log } := by
  unfold State.take
  rw [Option.map_eq_some_iff]
  constructor
  · rintro ⟨ring, hring, rfl⟩
    obtain ⟨hlt, rfl⟩ := push_eq_some.mp hring
    exact ⟨hlt, rfl⟩
  · rintro ⟨hlt, rfl⟩
    exact ⟨_, push_eq_some.mpr ⟨hlt, rfl⟩, rfl⟩

theorem take_eq_none {sync : Bool} {p : Prep} :
    s.take cfg sync p = none ↔ cfg.sqEntries ≤ s.ring.queued.length := by
  rw [State.take, Option.map_eq_none_iff, push_eq_none]

theorem takeAll_eq (ps : List Prep) : s.takeAll cfg ps =
    (decide (ps.length ≤ room cfg s), s.withTaken (entries s.serial (ps.take (room cfg s)))) := by
  induction ps generalizing s with
  | nil => simp [State.takeAll, entries, State.withTaken]
  | cons p ps ih =>
    unfold State.takeAll
    cases htake : s.take cfg true p with
    | none =>
      have hfull := take_eq_none.mp htake
      have hroom : room cfg s = 0 := by unfold room; omega
      simp [hroom, entries, State.withTaken]
    | some t =>
      obtain ⟨hlt, rfl⟩ := take_eq_some.mp htake
      simp only [ih]
      obtain ⟨k, hk⟩ : ∃ k, room cfg s = k + 1 := ⟨room cfg s - 1, by unfold room; omega⟩
      have hk' : room cfg { s with
          ring := { s.ring with queued := s.ring.queued ++ [⟨p, s.serial, true, 0⟩] }
          serial := s.serial + 1
          log := .taken ⟨p, s.serial, true, 0⟩ :: s.log } = k := by
        unfold room at hk ⊢
        simp only [List.length_append, List.length_singleton]
        omega
      rw [hk', hk]
      simp [entries, State.withTaken, Nat.add_assoc, Nat.add_comm 1]

/-- Without room for all of its entries a function takes as many as there is room
for. -/
theorem takeEntries_eq (cfg : Config) (fn : SyncFn) (stale : Prep) (s : State) :
    (fn.preps.length ≤ room cfg s ∧
      s.takeEntries cfg fn stale = (true, s.withTaken (entries s.serial fn.preps))) ∨
    (room cfg s < fn.preps.length ∧ ∃ ps, ps.length = room cfg s ∧
      s.takeEntries cfg fn stale = (false, s.withTaken (entries s.serial ps))) := by
  -- for a function that prepares each entry as it takes it
  have hplain : s.takeEntries cfg fn stale = s.takeAll cfg fn.preps →
      (fn.preps.length ≤ room cfg s ∧
        s.takeEntries cfg fn stale = (true, s.withTaken (entries s.serial fn.preps))) ∨
      (room cfg s < fn.preps.length ∧ ∃ ps, ps.length = room cfg s ∧
        s.takeEntries cfg fn stale = (false, s.withTaken (entries s.serial ps))) := by
    intro h
    rw [h, takeAll_eq]
    rcases Nat.lt_or_ge (room cfg s) fn.preps.length with hlt | hle
    · refine Or.inr ⟨hlt, fn.preps.take (room cfg s), ?_, ?_⟩
      · rw [List.length_take]
        omega
      · rw [decide_eq_false (by omega)]
    · refine Or.inl ⟨hle, ?_⟩
      rw [decide_eq_true hle, List.take_of_length_le hle]
  cases fn with
  | submitWaitOne w => exact hplain rfl
  | readBatch fd blockSize blocks offset => exact hplain rfl
  | readOffsets fd blockSize offsets => exact hplain rfl
  | timeoutArmRemovePair sec nsec timeoutUserData => exact hplain rfl
  | linkReadWrite fdIn len offIn fdOut offOut =>
    by_cases hfit : s.ring.queued.length + 2 ≤ cfg.sqEntries
    · refine hplain ?_
      simp only [State.takeEntries, if_pos hfit]
    · have hroom : room cfg s ≤ 1 := by unfold room; omega
      refine Or.inr ⟨?_, [stale].take (room cfg s), ?_, ?_⟩
      · simp only [SyncFn.preps, List.length_cons, List.length_nil]
        omega
      · simp only [List.length_take, List.length_cons, List.length_nil]
        omega
      · simp only [State.takeEntries, if_neg hfit, takeAll_eq]

@[simp] theorem log_hand (c : CtxSqe × ℤ) (cs : List (CtxSqe × ℤ)) :
    (s.hand c cs).log = .handed c.1 c.1.userData c.2 :: s.log := rfl

/-! ## The steps -/

/-- Everything a step can do. -/
inductive Steps (cfg : Config) (s : State) : Event → State → Prop where
  | complete {i : ℕ} {res : ℤ} {more : Bool} {t : State} (h : s.complete i res more = some t) :
      Steps cfg s (.complete i res more) t
  | sync {fn : SyncFn} {stale : Prep} {submitRet : ℤ} (hcall : s.call = none) :
      Steps cfg s (.sync fn stale submitRet) (s.start cfg fn stale submitRet)
  | async {op : SqeOp} {posts : Posts} {userData : ℤ} {tracked : Bool} {submitRet : ℤ}
      (hcall : s.call = none) : Steps cfg s (.async op posts userData tracked submitRet)
        (s.submitAsync cfg op posts userData tracked submitRet)
  | waitRaises {waitRet : ℤ} (hcall : s.call = none) : Steps cfg s (.waitCompletion waitRet) s
  | waitHands {waitRet : ℤ} {c : CtxSqe × ℤ} {cs : List (CtxSqe × ℤ)} (hcall : s.call = none)
      (hcs : s.ring.completed = c :: cs) : Steps cfg s (.waitCompletion waitRet) (s.hand c cs)
  | peekNone {peekRet : ℤ} (hcall : s.call = none) : Steps cfg s (.peekCompletion peekRet) s
  | peekHands {peekRet : ℤ} {c : CtxSqe × ℤ} {cs : List (CtxSqe × ℤ)} (hcall : s.call = none)
      (hcs : s.ring.completed = c :: cs) : Steps cfg s (.peekCompletion peekRet) (s.hand c cs)
  | batchWaits {r : Running} {remaining : ℕ} {total : ℤ} (hr : s.call = some r)
      (hreap : r.reaping = .batch remaining total false) (hnil : s.ring.completed = []) :
      Steps cfg s .peek { s with call := some { r with reaping := .batch remaining total true } }
  | batchDrains {r : Running} {remaining : ℕ} {total : ℤ} (hr : s.call = some r)
      (hreap : r.reaping = .batch remaining total false) (hne : s.ring.completed ≠ []) :
      Steps cfg s .peek (s.drain (min (min remaining 256) s.ring.completed.length))
  | waitFails {r : Running} {waitRet : ℤ} (hr : s.call = some r) (hret : waitRet < 0) :
      Steps cfg s (.wait waitRet) (s.finish r.fn r.fst r.reaped waitRet)
  | waitReaps {r : Running} {waitRet : ℤ} {c : CtxSqe × ℤ} {cs : List (CtxSqe × ℤ)}
      (hr : s.call = some r) (hret : 0 ≤ waitRet) (hcs : s.ring.completed = c :: cs) :
      Steps cfg s (.wait waitRet) (s.reapOne r c cs)

theorem step_cases {e : Event} {t : State} (h : step cfg s e = some t) : Steps cfg s e t := by
  cases e with
  | complete i res more => exact .complete h
  | sync fn stale submitRet =>
    obtain ⟨hcall, heq⟩ := Option.ite_none_right_eq_some.mp h
    rw [← Option.some.inj heq]
    exact .sync hcall
  | async op posts userData tracked submitRet =>
    obtain ⟨hcall, heq⟩ := Option.ite_none_right_eq_some.mp h
    rw [← Option.some.inj heq]
    exact .async hcall
  | waitCompletion waitRet =>
    obtain ⟨hcall, heq⟩ := Option.ite_none_right_eq_some.mp h
    unfold State.waitCompletion at heq
    split at heq
    · rw [← Option.some.inj heq]
      exact .waitRaises hcall
    · split at heq
      · exact absurd heq (by simp)
      · next c cs hcs =>
        rw [← Option.some.inj heq]
        exact .waitHands hcall hcs
  | peekCompletion peekRet =>
    obtain ⟨hcall, heq⟩ := Option.ite_none_right_eq_some.mp h
    rw [← Option.some.inj heq]
    unfold State.peekCompletion
    split
    · exact .peekNone hcall
    · split
      · exact .peekNone hcall
      · next c cs hcs => exact .peekHands hcall hcs
  | peek =>
    simp only [step] at h
    split at h
    · next r hr =>
      split at h
      · next remaining total hreap =>
        rw [← Option.some.inj h]
        unfold State.peekBatch
        split
        · next hnil => exact .batchWaits hr hreap hnil
        · next hne => exact .batchDrains hr hreap hne
      · exact absurd h (by simp)
    · exact absurd h (by simp)
  | wait waitRet =>
    simp only [step] at h
    split at h
    · next r hr =>
      split at h
      · exact absurd h (by simp)
      · unfold State.waitCqe at h
        split at h
        · next hret =>
          rw [← Option.some.inj h]
          exact .waitFails hr hret
        · next hret =>
          split at h
          · exact absurd h (by simp)
          · next c cs hcs =>
            rw [← Option.some.inj h]
            exact .waitReaps hr (Int.not_lt.mp hret) hcs
    · exact absurd h (by simp)

/-! ## The four ways a synchronous function starts -/

theorem start_of_invalid {fn : SyncFn} (h : fn.valid cfg = false) (stale : Prep) (submitRet : ℤ) :
    s.start cfg fn stale submitRet = s.finish fn s.serial [] EINVAL.neg := by
  rw [State.start, if_pos h]

/-- The state in which a function that was let in waits. -/
def State.started (fn : SyncFn) (s : State) : State :=
  { s.withTaken (entries s.serial fn.preps) with
    ring := (s.withTaken (entries s.serial fn.preps)).ring.submit
    call := some ⟨fn, s.serial, fn.reaping, []⟩ }

/-- A function that is let in finds no room for its entries, fails to submit them, or
goes on to wait. -/
theorem start_cases {fn : SyncFn} (h : fn.valid cfg = true) (stale : Prep) (submitRet : ℤ) :
    (room cfg s < fn.preps.length ∧ ∃ ps, ps.length = room cfg s ∧
      s.start cfg fn stale submitRet =
        (s.withTaken (entries s.serial ps)).finish fn s.serial [] EAGAIN.neg) ∨
    (fn.preps.length ≤ room cfg s ∧ submitRet < 0 ∧
      s.start cfg fn stale submitRet =
        (s.withTaken (entries s.serial fn.preps)).finish fn s.serial [] submitRet) ∨
    (fn.preps.length ≤ room cfg s ∧ 0 ≤ submitRet ∧
      s.start cfg fn stale submitRet = s.started fn) := by
  unfold State.start
  rw [if_neg (by simp [h])]
  rcases takeEntries_eq cfg fn stale s with ⟨hfit, heq⟩ | ⟨hlt, ps, hps, heq⟩
  · rw [heq]
    rcases Int.lt_or_le submitRet 0 with hr | hr
    · refine Or.inr (Or.inl ⟨hfit, hr, ?_⟩)
      simp only [if_pos hr]
    · refine Or.inr (Or.inr ⟨hfit, hr, ?_⟩)
      simp only [if_neg (Int.not_lt.mpr hr)]
      rfl
  · rw [heq]
    exact Or.inl ⟨hlt, ps, hps, rfl⟩

/-- A function waits for as many completions as it prepares entries. -/
theorem length_preps (fn : SyncFn) : fn.preps.length = fn.reaping.left := by
  cases fn <;> simp [SyncFn.preps, SyncFn.reaping, Reaping.left]

theorem left_pos_of_valid {fn : SyncFn} (h : fn.valid cfg = true) : 0 < fn.reaping.left := by
  cases fn with
  | submitWaitOne w => simp [SyncFn.reaping, Reaping.left]
  | readBatch fd blockSize blocks offset =>
    simp only [SyncFn.valid, Bool.and_eq_true, bne_iff_ne] at h
    simp only [SyncFn.reaping, Reaping.left]
    have hne : blocks.toNat ≠ 0 := fun h0 => h.1.2 (UInt32.toNat_inj.mp h0)
    omega
  | readOffsets fd blockSize offsets =>
    simp only [SyncFn.valid, Bool.and_eq_true, bne_iff_ne] at h
    simp only [SyncFn.reaping, Reaping.left]
    omega
  | linkReadWrite fdIn len offIn fdOut offOut => simp [SyncFn.reaping, Reaping.left]
  | timeoutArmRemovePair sec nsec ud => simp [SyncFn.reaping, Reaping.left]

/-! ## What a step carries over -/

theorem pending_withTaken (qs : List CtxSqe) (s : State) :
    (s.withTaken qs).ring.pending = s.ring.pending + qs := by
  simp only [CompletionRing.pending, State.withTaken, ← Multiset.coe_add]
  ac_rfl

/-- What was taken is numbered on from the entries before, and what else is on the ring after a
step was on it before. -/
structure Carries (s t : State) : Prop where
  serial : s.serial ≤ t.serial
  pending : ∀ q ∈ t.ring.pending, (s.serial ≤ q.serial ∧ q.serial < t.serial) ∨
    ∃ q' ∈ s.ring.pending, q'.serial = q.serial ∧ q'.toPrep = q.toPrep

variable {t u : State}

theorem Carries.of_sub (hserial : t.serial = s.serial)
    (hsub : ∀ q ∈ t.ring.pending, q ∈ s.ring.pending) : Carries s t :=
  ⟨hserial.ge, fun q hq => Or.inr ⟨q, hsub q hq, rfl, rfl⟩⟩

theorem Carries.refl (s : State) : Carries s s := .of_sub rfl fun _ hq => hq

theorem Carries.trans (hst : Carries s t) (htu : Carries t u) : Carries s u := by
  have hserial := hst.serial
  have hserial' := htu.serial
  refine ⟨by omega, ?_⟩
  intro q hq
  rcases htu.pending q hq with ⟨hle, hlt⟩ | ⟨q', hq', heq, hprep⟩
  · exact Or.inl ⟨by omega, hlt⟩
  · rcases hst.pending q' hq' with ⟨hle, hlt⟩ | ⟨q'', hq'', heq', hprep'⟩
    · exact Or.inl ⟨by omega, by omega⟩
    · exact Or.inr ⟨q'', hq'', heq'.trans heq, hprep'.trans hprep⟩

/-- A completion posted adds no request of another number. -/
theorem complete_cases {i : ℕ} {res : ℤ} {more : Bool} (h : s.complete i res more = some t) :
    t.call = s.call ∧ t.serial = s.serial ∧ t.asyncIoKeepalive = s.asyncIoKeepalive ∧
      ∀ q ∈ t.ring.pending, ∃ q' ∈ s.ring.pending,
        q'.serial = q.serial ∧ q'.toPrep = q.toPrep := by
  unfold State.complete at h
  split at h
  · exact absurd h (by simp)
  · split at h
    · obtain ⟨⟨q, ring⟩, hring, rfl⟩ := Option.map_eq_some_iff.mp h
      refine ⟨rfl, rfl, rfl, ?_⟩
      intro p hp
      cases more with
      | false =>
        have hpending := pending_complete (show s.ring.complete i res = some (q, ring) from hring)
        exact ⟨p, hpending ▸ hp, rfl, rfl⟩
      | true =>
        obtain ⟨hq, rfl⟩ := post_eq_some.mp hring
        have hmem : q ∈ s.ring.pending :=
          mem_pending.mpr (Or.inr (Or.inl (List.mem_of_getElem? hq)))
        rcases mem_pending.mp hp with hp | hp | ⟨r, hp⟩
        · exact ⟨p, mem_pending.mpr (Or.inl hp), rfl, rfl⟩
        · rcases List.mem_or_eq_of_mem_set hp with hp | rfl
          · exact ⟨p, mem_pending.mpr (Or.inr (Or.inl hp)), rfl, rfl⟩
          · exact ⟨q, hmem, rfl, rfl⟩
        · rcases List.mem_append.mp hp with hp | hp
          · exact ⟨p, mem_pending.mpr (Or.inr (Or.inr ⟨r, hp⟩)), rfl, rfl⟩
          · rw [(Prod.mk.inj (List.mem_singleton.mp hp)).1]
            exact ⟨q, hmem, rfl, rfl⟩
    · exact absurd h (by simp)

theorem mem_pending_of_reaped {q : CtxSqe} {c : CtxSqe × ℤ} {cs : List (CtxSqe × ℤ)}
    (hcs : s.ring.completed = c :: cs)
    (hq : q ∈ ({ s.ring with completed := cs } : CompletionRing CtxSqe).pending) :
    q ∈ s.ring.pending := by
  rw [pending_reap (reap_eq_some.mpr ⟨cs, hcs, rfl⟩)]
  exact Multiset.mem_cons_of_mem hq

theorem reapOne_frame (r : Running) (c : CtxSqe × ℤ) (cs : List (CtxSqe × ℤ)) :
    (s.reapOne r c cs).ring = { s.ring with completed := cs } ∧
      (s.reapOne r c cs).serial = s.serial ∧
      (s.reapOne r c cs).asyncIoKeepalive = s.asyncIoKeepalive := by
  unfold State.reapOne
  cases r.reaping.feed c <;> exact ⟨rfl, rfl, rfl⟩

theorem carries_reapOne (r : Running) {c : CtxSqe × ℤ} {cs : List (CtxSqe × ℤ)}
    (hcs : s.ring.completed = c :: cs) : Carries s (s.reapOne r c cs) := by
  obtain ⟨hring, hserial, -⟩ := reapOne_frame (s := s) r c cs
  exact .of_sub hserial fun q hq => mem_pending_of_reaped hcs (hring ▸ hq)

theorem carries_drain : ∀ (n : ℕ) (s : State),
    Carries s (s.drain n) ∧ (s.drain n).asyncIoKeepalive = s.asyncIoKeepalive
  | 0, s => ⟨.refl s, rfl⟩
  | n + 1, s => by
    unfold State.drain
    split
    · next r c cs hr hcs =>
      obtain ⟨hcarries, hpins⟩ := carries_drain n (s.reapOne r c cs)
      exact ⟨(carries_reapOne r hcs).trans hcarries, hpins.trans (reapOne_frame r c cs).2.2⟩
    · exact ⟨.refl s, rfl⟩

theorem carries_withTaken (ps : List Prep) (s : State) :
    Carries s (s.withTaken (entries s.serial ps)) := by
  have hlen := length_entries s.serial ps
  refine ⟨Nat.le_add_right _ _, ?_⟩
  intro q hq
  rw [pending_withTaken, Multiset.mem_add] at hq
  rcases hq with hq | hq
  · exact Or.inr ⟨q, hq, rfl, rfl⟩
  · obtain ⟨-, hle, hlt, -⟩ := mem_entries (Multiset.mem_coe.mp hq)
    refine Or.inl ⟨hle, ?_⟩
    change q.serial < s.serial + (entries s.serial ps).length
    omega

/-- A synchronous function takes entries, and pins nothing. -/
theorem carries_start (fn : SyncFn) (stale : Prep) (submitRet : ℤ) :
    Carries s (s.start cfg fn stale submitRet) ∧
      (s.start cfg fn stale submitRet).asyncIoKeepalive = s.asyncIoKeepalive := by
  cases hvalid : fn.valid cfg with
  | false =>
    rw [start_of_invalid hvalid]
    exact ⟨.of_sub rfl fun _ hq => hq, rfl⟩
  | true =>
    rcases start_cases hvalid stale submitRet with ⟨-, ps, -, heq⟩ | ⟨-, -, heq⟩ | ⟨-, -, heq⟩
    · rw [heq]
      exact ⟨(carries_withTaken ps s).trans (.of_sub rfl fun _ hq => hq), rfl⟩
    · rw [heq]
      exact ⟨(carries_withTaken fn.preps s).trans (.of_sub rfl fun _ hq => hq), rfl⟩
    · rw [heq]
      exact ⟨(carries_withTaken fn.preps s).trans
        (.of_sub rfl fun q hq => by simpa [State.started] using hq), rfl⟩

/-! ## Asynchronous submissions -/

/-- The entry that an asynchronous submission prepares. -/
def State.asyncEntry (op : SqeOp) (posts : Posts) (userData : ℤ) (s : State) : CtxSqe :=
  ⟨⟨op, UInt64.ofInt userData, posts⟩, s.serial, false, 0⟩

/-- The state after `q` was handed over. -/
def State.submitted (q : CtxSqe) (s : State) : State :=
  { s.withTaken [q] with ring := (s.withTaken [q]).ring.submit }

/-- What the native function returns for a tag when the request was handed over. -/
def signedTag (userData : ℤ) : ℤ := (UInt64.ofInt userData).toInt64.toInt

/-- Everything an asynchronous submission can come to. -/
inductive Submits (cfg : Config) (op : SqeOp) (posts : Posts) (userData : ℤ) (tracked : Bool)
    (submitRet : ℤ) (s : State) : State → Prop where
  | full (hfull : cfg.sqEntries ≤ s.ring.queued.length) :
      Submits cfg op posts userData tracked submitRet s
        (s.asyncReturn (.error (.uringError EAGAIN.neg)))
  | fails (hroom : s.ring.queued.length < cfg.sqEntries) (hret : submitRet < 0) :
      Submits cfg op posts userData tracked submitRet s
        ((s.withTaken [s.asyncEntry op posts userData]).asyncReturn (.error (.ofNegErrno submitRet)))
  | negative (hroom : s.ring.queued.length < cfg.sqEntries) (hret : 0 ≤ submitRet)
      (htag : signedTag userData < 0) : Submits cfg op posts userData tracked submitRet s
        ((s.submitted (s.asyncEntry op posts userData)).asyncReturn
          (.error (.ofNegErrno (signedTag userData))))
  | clash (hroom : s.ring.queued.length < cfg.sqEntries) (hret : 0 ≤ submitRet)
      (htag : 0 ≤ signedTag userData) (htracked : tracked = true)
      (hpinned : (s.asyncIoKeepalive.lookup userData).isSome) :
      Submits cfg op posts userData tracked submitRet s
        ((s.submitted (s.asyncEntry op posts userData)).asyncReturn (.error .valueError))
  | pins (hroom : s.ring.queued.length < cfg.sqEntries) (hret : 0 ≤ submitRet)
      (htag : 0 ≤ signedTag userData) (htracked : tracked = true)
      (hfree : s.asyncIoKeepalive.lookup userData = none) :
      Submits cfg op posts userData tracked submitRet s
        (({ s.submitted (s.asyncEntry op posts userData) with
          asyncIoKeepalive := (userData, s.serial) :: s.asyncIoKeepalive } : State).asyncReturn
            (.ok (signedTag userData)))
  | plain (hroom : s.ring.queued.length < cfg.sqEntries) (hret : 0 ≤ submitRet)
      (htag : 0 ≤ signedTag userData) (htracked : tracked = false) :
      Submits cfg op posts userData tracked submitRet s
        ((s.submitted (s.asyncEntry op posts userData)).asyncReturn (.ok (signedTag userData)))

theorem submits (op : SqeOp) (posts : Posts) (userData : ℤ) (tracked : Bool) (submitRet : ℤ) :
    Submits cfg op posts userData tracked submitRet s
      (s.submitAsync cfg op posts userData tracked submitRet) := by
  unfold State.submitAsync
  cases ht : s.take cfg false ⟨op, UInt64.ofInt userData, posts⟩ with
  | none => exact .full (take_eq_none.mp ht)
  | some t =>
    obtain ⟨hroom, rfl⟩ := take_eq_some.mp ht
    simp only
    by_cases hret : submitRet < 0
    · rw [if_pos hret, State.raiseForNegErrno, if_pos hret]
      exact .fails hroom hret
    rw [if_neg hret, State.raiseForNegErrno]
    by_cases htag : (UInt64.ofInt userData).toInt64.toInt < 0
    · rw [if_pos htag]
      exact .negative hroom (Int.not_lt.mp hret) htag
    rw [if_neg htag]
    cases htracked : tracked with
    | false => exact .plain hroom (Int.not_lt.mp hret) (Int.not_lt.mp htag) rfl
    | true =>
      simp only [if_true, State.trackAsyncIoBuffer]
      by_cases hpinned : (s.asyncIoKeepalive.lookup userData).isSome
      · rw [if_pos hpinned]
        exact .clash hroom (Int.not_lt.mp hret) (Int.not_lt.mp htag) rfl hpinned
      · rw [if_neg hpinned]
        exact .pins hroom (Int.not_lt.mp hret) (Int.not_lt.mp htag) rfl
          (Option.not_isSome_iff_eq_none.mp hpinned)

/-- What is on the ring after a submission. -/
theorem Submits.pending {op : SqeOp} {posts : Posts} {userData : ℤ} {tracked : Bool}
    {submitRet : ℤ} (h : Submits cfg op posts userData tracked submitRet s t) :
    (cfg.sqEntries ≤ s.ring.queued.length ∧ t.serial = s.serial ∧
      t.ring.pending = s.ring.pending) ∨
    (s.ring.queued.length < cfg.sqEntries ∧ t.serial = s.serial + 1 ∧
      t.ring.pending = s.asyncEntry op posts userData ::ₘ s.ring.pending) := by
  have htaken : (s.withTaken [s.asyncEntry op posts userData]).ring.pending =
      s.asyncEntry op posts userData ::ₘ s.ring.pending := by
    rw [pending_withTaken, Multiset.coe_singleton, add_comm, Multiset.singleton_add]
  have hsubmitted : (s.submitted (s.asyncEntry op posts userData)).ring.pending =
      s.asyncEntry op posts userData ::ₘ s.ring.pending := by
    rw [State.submitted, pending_submit, htaken]
  cases h with
  | full hfull => exact Or.inl ⟨hfull, rfl, rfl⟩
  | fails hroom => exact Or.inr ⟨hroom, rfl, htaken⟩
  | negative hroom => exact Or.inr ⟨hroom, rfl, hsubmitted⟩
  | clash hroom => exact Or.inr ⟨hroom, rfl, hsubmitted⟩
  | pins hroom => exact Or.inr ⟨hroom, rfl, hsubmitted⟩
  | plain hroom => exact Or.inr ⟨hroom, rfl, hsubmitted⟩

theorem Submits.carries {op : SqeOp} {posts : Posts} {userData : ℤ} {tracked : Bool}
    {submitRet : ℤ} (h : Submits cfg op posts userData tracked submitRet s t) : Carries s t := by
  rcases h.pending with ⟨-, hserial, hpending⟩ | ⟨-, hserial, hpending⟩
  · exact .of_sub hserial fun q hq => hpending ▸ hq
  · refine ⟨by omega, ?_⟩
    intro q hq
    rw [hpending, Multiset.mem_cons] at hq
    rcases hq with rfl | hq
    · exact Or.inl ⟨Nat.le_refl _, by rw [hserial]; exact Nat.lt_succ_self _⟩
    · exact Or.inr ⟨q, hq, rfl, rfl⟩

theorem carries_step {e : Event} (ht : step cfg s e = some t) : Carries s t := by
  cases step_cases ht with
  | complete hcomplete =>
    obtain ⟨-, hserial, -, hmem⟩ := complete_cases hcomplete
    exact ⟨hserial.ge, fun q hq => Or.inr (hmem q hq)⟩
  | sync hcall => exact (carries_start _ _ _).1
  | async hcall => exact (submits _ _ _ _ _).carries
  | waitRaises hcall => exact .refl s
  | waitHands hcall hcs => exact .of_sub rfl fun q hq => mem_pending_of_reaped hcs hq
  | peekNone hcall => exact .refl s
  | peekHands hcall hcs => exact .of_sub rfl fun q hq => mem_pending_of_reaped hcs hq
  | batchWaits hr hreap hnil => exact .of_sub rfl fun _ hq => hq
  | batchDrains hr hreap => exact (carries_drain _ s).1
  | waitFails hr hret => exact .of_sub rfl fun _ hq => hq
  | waitReaps hr hret hcs => exact carries_reapOne _ hcs

end UringCtx
end Native
end Pyuring
