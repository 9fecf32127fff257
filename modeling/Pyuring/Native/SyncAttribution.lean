import Pyuring.Native.UringCtxCalls

/-!
# Whose result a call returns

A synchronous function takes the completion at the head of the queue and never looks
at its tag; so does `wait_completion`, but that one hands the tag out.  Whether a
function gets its own result is therefore a question about what was on the ring when
it started.

On an idle ring the only requests that can complete while the function runs are its
own, so what it reaps is its own (`Serves`).  Asynchronous requests are then conserved:
every one that was taken is on the ring or has been handed out, and none is both.  On
a ring that is not idle the kernel is free to complete an older request first, and the
function returns that one's result.
-/

namespace Pyuring
namespace Native
namespace UringCtx

open CompletionRing Trace

/-- The request of an entry taken. -/
def Ev.takenReq? : Ev → Option CtxSqe
  | .taken q => some q
  | _ => none

/-- The request whose completion is handed out. -/
def Ev.handedReq? : Ev → Option CtxSqe
  | .handed q _ _ => some q
  | _ => none

/-- The requests of asynchronous submissions. -/
def asyncReqs (m : Multiset CtxSqe) : Multiset CtxSqe := m.filter fun q => q.sync = false

def takenReqs (log : List Ev) : Multiset CtxSqe := log.filterMap Ev.takenReq?

def handedReqs (log : List Ev) : Multiset CtxSqe := log.filterMap Ev.handedReq?

/-- `c` is the completion of an entry of the call of `fn` that took its first entry
after `fst` others. -/
def Own (log : List Ev) (fn : SyncFn) (fst : ℕ) (c : CtxSqe × ℤ) : Prop :=
  c.1.sync = true ∧ fst ≤ c.1.serial ∧ c.1.serial < fst + fn.preps.length ∧
    Ev.posted c.1 c.2 ∈ log

/-- A call of `fn` reaped completions of its own only, and a function with one entry
returns the result of that entry, unless it fails before it has one. -/
def ReturnsOwn (log : List Ev) (fn : SyncFn) (fst : ℕ) (reaped : List (CtxSqe × ℤ)) (value : ℤ) :
    Prop :=
  (∀ c ∈ reaped, Own log fn fst c) ∧
    ∀ w, fn = .submitWaitOne w → reaped = [] ∨ ∃ q, reaped = [(q, value)]

/-- Every synchronous call got its own completions, and every asynchronous request is
on the ring or was handed out, with its tag and the result that the kernel posted:
exactly once. -/
structure Attributed (s : State) : Prop where
  sync : ∀ fn fst reaped value, Ev.syncReturn fn fst reaped value ∈ s.log →
    ReturnsOwn s.log fn fst reaped value
  async : ∀ q, Ev.taken q ∈ s.log → q.sync = false →
    (q ∈ s.ring.pending ∧ (handedReqs s.log).count q = 0) ∨
      (q ∉ s.ring.pending ∧ (handedReqs s.log).count q = 1)
  handed : ∀ q userData res, Ev.handed q userData res ∈ s.log →
    userData = q.userData ∧ Ev.posted q res ∈ s.log

/-- Synchronous functions start on an idle ring, and every request has one completion. -/
def SyncOnIdle (s : State) : Event → Prop
  | .complete _ _ more => more = false
  | .sync _ _ _ => s.ring.Idle
  | .peek => True
  | .wait _ => True
  | .async _ _ _ _ _ => True
  | .waitCompletion _ => True
  | .peekCompletion _ => True

variable {cfg : Config} {s t : State}

@[simp] theorem asyncReqs_zero : asyncReqs 0 = 0 := rfl

theorem asyncReqs_add (m n : Multiset CtxSqe) : asyncReqs (m + n) = asyncReqs m + asyncReqs n :=
  Multiset.filter_add _ m n

theorem asyncReqs_cons (q : CtxSqe) (m : Multiset CtxSqe) :
    asyncReqs (q ::ₘ m) = if q.sync = false then q ::ₘ asyncReqs m else asyncReqs m := by
  unfold asyncReqs
  split
  · next h => exact Multiset.filter_cons_of_pos _ h
  · next h => exact Multiset.filter_cons_of_neg _ h

theorem asyncReqs_eq_zero {m : Multiset CtxSqe} (h : ∀ q ∈ m, q.sync = true) :
    asyncReqs m = 0 :=
  Multiset.filter_eq_nil.mpr fun q hq => by simp [h q hq]

theorem mem_asyncReqs {q : CtxSqe} {m : Multiset CtxSqe} :
    q ∈ asyncReqs m ↔ q ∈ m ∧ q.sync = false :=
  Multiset.mem_filter

theorem count_asyncReqs {q : CtxSqe} (hq : q.sync = false) (m : Multiset CtxSqe) :
    (asyncReqs m).count q = m.count q :=
  Multiset.count_filter_of_pos hq

theorem mem_takenReqs {q : CtxSqe} {log : List Ev} : q ∈ takenReqs log ↔ Ev.taken q ∈ log := by
  unfold takenReqs
  rw [Multiset.mem_coe, List.mem_filterMap]
  constructor
  · rintro ⟨e, he, heq⟩
    cases e with
    | taken q' =>
      obtain rfl := Option.some.inj heq
      exact he
    | posted q' res => exact absurd heq (by simp [Ev.takenReq?])
    | handed q' ud res => exact absurd heq (by simp [Ev.takenReq?])
    | syncReturn fn fst reaped value => exact absurd heq (by simp [Ev.takenReq?])
    | asyncReturn result => exact absurd heq (by simp [Ev.takenReq?])
  · exact fun h => ⟨.taken q, h, rfl⟩

theorem Own.mono {log log' : List Ev} {fn : SyncFn} {fst : ℕ} {c : CtxSqe × ℤ}
    (h : Own log fn fst c) (hsub : log ⊆ log') : Own log' fn fst c :=
  ⟨h.1, h.2.1, h.2.2.1, hsub h.2.2.2⟩

theorem ReturnsOwn.mono {log log' : List Ev} {fn : SyncFn} {fst : ℕ}
    {reaped : List (CtxSqe × ℤ)} {value : ℤ} (h : ReturnsOwn log fn fst reaped value)
    (hsub : log ⊆ log') : ReturnsOwn log' fn fst reaped value :=
  ⟨fun c hc => (h.1 c hc).mono hsub, h.2⟩

/-! ## The invariant -/

/-- The running function `r` is alone on the ring. -/
structure Serves (s : State) (r : Running) : Prop where
  ends : s.serial = r.fst + r.fn.preps.length
  own : ∀ q ∈ s.ring.pending, q.sync = true ∧ r.fst ≤ q.serial ∧ q.serial < s.serial
  reaped : ∀ c ∈ r.reaped, Own s.log r.fn r.fst c
  single : ∀ w, r.fn = .submitWaitOne w → r.reaping = .one ∧ r.reaped = []

structure Attributes (s : State) : Prop where
  fresh : ∀ q, Ev.taken q ∈ s.log → q.serial < s.serial
  nodup : (asyncReqs (takenReqs s.log)).Nodup
  conserved : asyncReqs (takenReqs s.log) =
    asyncReqs (handedReqs s.log) + asyncReqs s.ring.pending
  posted : ∀ c ∈ s.ring.completed, Ev.posted c.1 c.2 ∈ s.log
  running : ∀ r, s.call = some r → Serves s r
  handed : ∀ q userData res, Ev.handed q userData res ∈ s.log →
    userData = q.userData ∧ Ev.posted q res ∈ s.log
  returned : ∀ fn fst reaped value, Ev.syncReturn fn fst reaped value ∈ s.log →
    ReturnsOwn s.log fn fst reaped value

theorem Attributes.attributed (h : Attributes s) : Attributed s where
  sync := h.returned
  async q hq hasync := by
    have hcount := congrArg (Multiset.count q) h.conserved
    have hone : (asyncReqs (takenReqs s.log)).count q = 1 :=
      Multiset.count_eq_one_of_mem h.nodup (mem_asyncReqs.mpr ⟨mem_takenReqs.mpr hq, hasync⟩)
    rw [Multiset.count_add, hone, count_asyncReqs hasync, count_asyncReqs hasync] at hcount
    by_cases hmem : q ∈ s.ring.pending
    · have := Multiset.count_pos.mpr hmem
      exact Or.inl ⟨hmem, by omega⟩
    · have := Multiset.count_eq_zero.mpr hmem
      exact Or.inr ⟨hmem, by omega⟩
  handed := h.handed

theorem attributes_init : Attributes State.init where
  fresh q hq := absurd hq (by simp [State.init])
  nodup := Multiset.nodup_zero
  conserved := rfl
  posted c hc := absurd hc (by simp [State.init])
  running r hr := absurd hr (by simp [State.init])
  handed q ud res h := absurd h (by simp [State.init])
  returned fn fst reaped value h := absurd h (by simp [State.init])

/-! ## The calls -/

theorem Attributes.finish (h : Attributes s) {fn : SyncFn} {fst : ℕ}
    {reaped : List (CtxSqe × ℤ)} {value : ℤ} (hret : ReturnsOwn s.log fn fst reaped value) :
    Attributes (s.finish fn fst reaped value) where
  fresh q hq := h.fresh q (by simpa [State.finish] using hq)
  nodup := h.nodup
  conserved := h.conserved
  posted c hc := List.mem_cons_of_mem _ (h.posted c hc)
  running r hr := absurd hr (by simp [State.finish])
  handed q ud res hmem := by
    obtain ⟨hud, hposted⟩ := h.handed q ud res (by simpa [State.finish] using hmem)
    exact ⟨hud, List.mem_cons_of_mem _ hposted⟩
  returned fn' fst' reaped' value' hmem := by
    rcases List.mem_cons.mp hmem with heq | hmem
    · obtain ⟨rfl, rfl, rfl, rfl⟩ := Ev.syncReturn.inj heq
      exact hret.mono (List.subset_cons_self _ _)
    · exact (h.returned fn' fst' reaped' value' hmem).mono (List.subset_cons_self _ _)

/-- The pinned buffers do not matter here, nor does the result of a submission. -/
theorem Attributes.asyncReturn (h : Attributes s) (hcall : s.call = none)
    (keepalive : List (ℤ × ℕ)) (result : Except SubmitError ℤ) :
    Attributes (({ s with asyncIoKeepalive := keepalive } : State).asyncReturn result) where
  fresh q hq := h.fresh q (by simpa [State.asyncReturn] using hq)
  nodup := h.nodup
  conserved := h.conserved
  posted c hc := List.mem_cons_of_mem _ (h.posted c hc)
  running r hr := absurd (hcall.symm.trans hr) (by simp)
  handed q ud res hmem := by
    obtain ⟨hud, hposted⟩ := h.handed q ud res (by simpa [State.asyncReturn] using hmem)
    exact ⟨hud, List.mem_cons_of_mem _ hposted⟩
  returned fn fst reaped value hmem :=
    (h.returned fn fst reaped value (by simpa [State.asyncReturn] using hmem)).mono
      (List.subset_cons_self _ _)

theorem Attributes.submit (h : Attributes s) (hcall : s.call = none) :
    Attributes { s with ring := s.ring.submit } where
  fresh := h.fresh
  nodup := h.nodup
  conserved := by simpa using h.conserved
  posted := h.posted
  running r hr := absurd (hcall.symm.trans hr) (by simp)
  handed := h.handed
  returned := h.returned

theorem Attributes.take (h : Attributes s) (hcall : s.call = none) {p : Prep}
    (ht : s.take cfg false p = some t) : Attributes t := by
  obtain ⟨hroom, rfl⟩ := take_eq_some.mp ht
  have hpending := pending_push (push_eq_some.mpr
    ⟨hroom, rfl⟩ : s.ring.push cfg.sqEntries ⟨p, s.serial, false, 0⟩ = some _)
  have htaken : takenReqs (Ev.taken ⟨p, s.serial, false, 0⟩ :: s.log) =
      ⟨p, s.serial, false, 0⟩ ::ₘ takenReqs s.log := rfl
  refine ⟨?_, ?_, ?_, fun c hc => List.mem_cons_of_mem _ (h.posted c hc),
    fun r hr => absurd (hcall.symm.trans hr) (by simp), ?_,
    ?_⟩
  · intro q hq
    rcases List.mem_cons.mp hq with heq | hq
    · obtain rfl := Ev.taken.inj heq
      exact Nat.lt_succ_self _
    · exact Nat.lt_succ_of_lt (h.fresh q hq)
  · rw [htaken, asyncReqs_cons, if_pos rfl, Multiset.nodup_cons]
    refine ⟨?_, h.nodup⟩
    intro hmem
    exact absurd (h.fresh _ (mem_takenReqs.mp (mem_asyncReqs.mp hmem).1)) (Nat.lt_irrefl _)
  · rw [htaken, asyncReqs_cons, if_pos rfl, h.conserved, hpending, asyncReqs_cons, if_pos rfl,
      Multiset.add_cons]
    rfl
  · intro q ud res hmem
    obtain ⟨hud, hposted⟩ := h.handed q ud res (by simpa using hmem)
    exact ⟨hud, List.mem_cons_of_mem _ hposted⟩
  · intro fn fst reaped value hmem
    exact (h.returned fn fst reaped value (by simpa using hmem)).mono (List.subset_cons_self _ _)

theorem Attributes.submitAsync (h : Attributes s) (hcall : s.call = none) (op : SqeOp)
    (posts : Posts) (userData : ℤ) (tracked : Bool) (submitRet : ℤ) :
    Attributes (s.submitAsync cfg op posts userData tracked submitRet) := by
  have htake : s.ring.queued.length < cfg.sqEntries →
      Attributes (s.withTaken [s.asyncEntry op posts userData]) := fun hroom =>
    h.take hcall (take_eq_some.mpr ⟨hroom, rfl⟩)
  have hsub : s.ring.queued.length < cfg.sqEntries →
      Attributes (s.submitted (s.asyncEntry op posts userData)) := fun hroom =>
    (htake hroom).submit hcall
  have hcases : Submits cfg op posts userData tracked submitRet s
      (s.submitAsync cfg op posts userData tracked submitRet) := submits _ _ _ _ _
  generalize s.submitAsync cfg op posts userData tracked submitRet = t at hcases
  cases hcases with
  | full => exact h.asyncReturn hcall s.asyncIoKeepalive _
  | fails hroom => exact (htake hroom).asyncReturn hcall s.asyncIoKeepalive _
  | negative hroom => exact (hsub hroom).asyncReturn hcall s.asyncIoKeepalive _
  | clash hroom => exact (hsub hroom).asyncReturn hcall s.asyncIoKeepalive _
  | pins hroom => exact (hsub hroom).asyncReturn hcall _ _
  | plain hroom => exact (hsub hroom).asyncReturn hcall s.asyncIoKeepalive _

theorem Attributes.hand (h : Attributes s) (hcall : s.call = none) {c : CtxSqe × ℤ}
    {cs : List (CtxSqe × ℤ)} (hcs : s.ring.completed = c :: cs) : Attributes (s.hand c cs) := by
  have hpending := pending_reap (reap_eq_some.mpr ⟨cs, hcs, rfl⟩)
  have hhanded : handedReqs (Ev.handed c.1 c.1.userData c.2 :: s.log) =
      c.1 ::ₘ handedReqs s.log := rfl
  have hposted : Ev.posted c.1 c.2 ∈ s.log := h.posted c (by rw [hcs]; exact List.mem_cons_self)
  refine ⟨fun q hq => h.fresh q (by simpa using hq), h.nodup, ?_,
    fun d hd => List.mem_cons_of_mem _ (h.posted d (by rw [hcs]; exact List.mem_cons_of_mem c hd)),
    fun r hr => absurd (hcall.symm.trans hr) (by simp), ?_,
    ?_⟩
  · have heq := h.conserved
    rw [hpending, asyncReqs_cons] at heq
    change asyncReqs (takenReqs s.log) =
      asyncReqs (handedReqs (Ev.handed c.1 c.1.userData c.2 :: s.log)) + _
    rw [hhanded, asyncReqs_cons, heq]
    split
    · rw [Multiset.add_cons, Multiset.cons_add]
      rfl
    · rfl
  · intro q ud res hmem
    rcases List.mem_cons.mp hmem with heq | hmem
    · obtain ⟨rfl, rfl, rfl⟩ := Ev.handed.inj heq
      exact ⟨rfl, List.mem_cons_of_mem _ hposted⟩
    · obtain ⟨hud, hp⟩ := h.handed q ud res hmem
      exact ⟨hud, List.mem_cons_of_mem _ hp⟩
  · intro fn fst reaped value hmem
    exact (h.returned fn fst reaped value (by simpa using hmem)).mono (List.subset_cons_self _ _)

theorem takenReqs_append (qs : List CtxSqe) (log : List Ev) :
    takenReqs ((qs.map Ev.taken).reverse ++ log) = (qs : Multiset CtxSqe) + takenReqs log := by
  have hqs : (qs.map Ev.taken).reverse.filterMap Ev.takenReq? = qs.reverse := by
    rw [List.filterMap_reverse, List.filterMap_map]
    exact congrArg List.reverse List.filterMap_some
  unfold takenReqs
  rw [List.filterMap_append, hqs, ← Multiset.coe_add, Multiset.coe_reverse]

theorem handedReqs_append (qs : List CtxSqe) (log : List Ev) :
    handedReqs ((qs.map Ev.taken).reverse ++ log) = handedReqs log := by
  unfold handedReqs
  rw [List.filterMap_append, List.filterMap_eq_nil_iff.mpr, List.nil_append]
  intro e he
  obtain ⟨q, -, rfl⟩ := List.mem_map.mp (List.mem_reverse.mp he)
  rfl

theorem Attributes.withTaken (h : Attributes s) (hcall : s.call = none) (ps : List Prep) :
    Attributes (s.withTaken (entries s.serial ps)) := by
  have hsync : asyncReqs (entries s.serial ps : Multiset CtxSqe) = 0 :=
    asyncReqs_eq_zero fun q hq => (mem_entries hq).1
  have hsub : s.log ⊆ (s.withTaken (entries s.serial ps)).log := List.subset_append_right _ _
  refine ⟨?_, ?_, ?_, fun c hc => hsub (h.posted c hc),
    fun r hr => absurd (hcall.symm.trans hr) (by simp), ?_,
    ?_⟩
  · intro q hq
    change q.serial < s.serial + (entries s.serial ps).length
    rw [length_entries]
    rcases List.mem_append.mp hq with hq | hq
    · obtain ⟨q', hq', heq⟩ := List.mem_map.mp (List.mem_reverse.mp hq)
      rw [← Ev.taken.inj heq]
      exact (mem_entries hq').2.2.1
    · have := h.fresh q hq
      omega
  · change (asyncReqs (takenReqs (_ ++ _))).Nodup
    rw [takenReqs_append, asyncReqs_add, hsync, zero_add]
    exact h.nodup
  · change asyncReqs (takenReqs (_ ++ _)) = asyncReqs (handedReqs (_ ++ _)) + _
    rw [takenReqs_append, handedReqs_append, pending_withTaken, asyncReqs_add, asyncReqs_add,
      hsync, zero_add, add_zero]
    exact h.conserved
  · intro q ud res hmem
    rcases List.mem_append.mp hmem with hmem | hmem
    · obtain ⟨q', -, heq⟩ := List.mem_map.mp (List.mem_reverse.mp hmem)
      exact absurd heq (by simp)
    · obtain ⟨hud, hposted⟩ := h.handed q ud res hmem
      exact ⟨hud, hsub hposted⟩
  · intro fn fst reaped value hmem
    rcases List.mem_append.mp hmem with hmem | hmem
    · obtain ⟨q', -, heq⟩ := List.mem_map.mp (List.mem_reverse.mp hmem)
      exact absurd heq (by simp)
    · exact (h.returned fn fst reaped value hmem).mono hsub

theorem Attributes.start (h : Attributes s) (hcall : s.call = none) (hidle : s.ring.Idle)
    (fn : SyncFn) (stale : Prep) (submitRet : ℤ) :
    Attributes (s.start cfg fn stale submitRet) := by
  have hfail : ∀ {u : State} {value : ℤ}, Attributes u →
      Attributes (u.finish fn s.serial [] value) := fun hu =>
    hu.finish ⟨fun c hc => absurd hc (by simp), fun w hw => Or.inl rfl⟩
  cases hvalid : fn.valid cfg with
  | false =>
    rw [start_of_invalid hvalid]
    exact hfail h
  | true =>
    rcases start_cases hvalid stale submitRet with
      ⟨-, ps, -, heq⟩ | ⟨-, -, heq⟩ | ⟨-, -, heq⟩
    · rw [heq]
      exact hfail (h.withTaken hcall ps)
    · rw [heq]
      exact hfail (h.withTaken hcall fn.preps)
    · rw [heq]
      have hsub := (h.withTaken hcall fn.preps).submit hcall
      refine ⟨hsub.fresh, hsub.nodup, hsub.conserved, hsub.posted, ?_, hsub.handed,
        hsub.returned⟩
      intro r hr
      obtain rfl := Option.some.inj hr
      refine ⟨?_, ?_, fun c hc => absurd hc (by simp), ?_⟩
      · simp [State.started, State.withTaken]
      · intro q hq
        -- the ring was idle, so what is on it now was taken by this call
        simp only [State.started, pending_submit, pending_withTaken, pending_eq_zero.mpr hidle,
          zero_add, Multiset.mem_coe] at hq
        obtain ⟨hsync, hle, hlt, -, -⟩ := mem_entries hq
        refine ⟨hsync, hle, ?_⟩
        simpa [State.started, State.withTaken] using hlt
      · intro w hw
        have hw' : fn = .submitWaitOne w := hw
        rw [hw']
        exact ⟨rfl, rfl⟩

/-- What the running function reaps is its own. -/
theorem Attributes.own (h : Attributes s) {r : Running} (hr : s.call = some r)
    {c : CtxSqe × ℤ} (hc : c ∈ s.ring.completed) : Own s.log r.fn r.fst c := by
  have hserves := h.running r hr
  obtain ⟨hsync, hle, hlt⟩ := hserves.own c.1 (mem_pending.mpr (Or.inr (Or.inr ⟨c.2, hc⟩)))
  exact ⟨hsync, hle, by rw [← hserves.ends]; exact hlt, h.posted c hc⟩

theorem Attributes.reapOne (h : Attributes s) {r : Running} (hr : s.call = some r)
    {c : CtxSqe × ℤ} {cs : List (CtxSqe × ℤ)} (hcs : s.ring.completed = c :: cs) :
    Attributes (s.reapOne r c cs) := by
  have hserves := h.running r hr
  have hown : ∀ d ∈ r.reaped ++ [c], Own s.log r.fn r.fst d := by
    intro d hd
    rcases List.mem_append.mp hd with hd | hd
    · exact hserves.reaped d hd
    · rw [List.mem_singleton.mp hd]
      exact h.own hr (by rw [hcs]; exact List.mem_cons_self)
  have hpending := pending_reap (reap_eq_some.mpr ⟨cs, hcs, rfl⟩)
  have hcsync : c.1.sync = true := (hown c (by simp)).1
  have hreqs : asyncReqs s.ring.pending =
      asyncReqs ({ s.ring with completed := cs } : CompletionRing CtxSqe).pending := by
    rw [hpending, asyncReqs_cons, if_neg (by simp [hcsync])]
  have hsubset : ∀ q ∈ ({ s.ring with completed := cs } : CompletionRing CtxSqe).pending,
      q ∈ s.ring.pending := fun q hq => by
    rw [hpending]
    exact Multiset.mem_cons_of_mem hq
  -- the state with the completion reaped and the function where it was
  have hreaped : Attributes { s with ring := { s.ring with completed := cs } } :=
    ⟨h.fresh, h.nodup, hreqs ▸ h.conserved,
      fun d hd => h.posted d (by rw [hcs]; exact List.mem_cons_of_mem c hd),
      fun u hu => ⟨(h.running u hu).ends, fun q hq => (h.running u hu).own q (hsubset q hq),
        (h.running u hu).reaped, (h.running u hu).single⟩, h.handed, h.returned⟩
  unfold State.reapOne
  cases hfeed : r.reaping.feed c with
  | inl reaping =>
    refine ⟨hreaped.fresh, hreaped.nodup, hreaped.conserved, hreaped.posted, ?_,
      hreaped.handed, hreaped.returned⟩
    intro u hu
    obtain rfl := Option.some.inj hu
    refine ⟨hserves.ends, fun q hq => hserves.own q (hsubset q hq), hown, ?_⟩
    intro w hw
    rw [(hserves.single w hw).1] at hfeed
    exact absurd hfeed (by simp [Reaping.feed])
  | inr value =>
    refine hreaped.finish ⟨hown, fun w hw => Or.inr ⟨c.1, ?_⟩⟩
    obtain ⟨hone, hnil⟩ := hserves.single w hw
    rw [hone] at hfeed
    rw [hnil, ← Sum.inr.inj hfeed]
    rfl

theorem Attributes.drain : ∀ {n : ℕ} {s : State}, Attributes s → Attributes (s.drain n)
  | 0, _, h => h
  | n + 1, s, h => by
    unfold State.drain
    split
    · next r c cs hr hcs => exact (h.reapOne hr hcs).drain
    · exact h

theorem Attributes.complete (h : Attributes s) {i : ℕ} {res : ℤ}
    (ht : s.complete i res false = some t) : Attributes t := by
  unfold State.complete at ht
  split at ht
  · exact absurd ht (by simp)
  · split at ht
    · obtain ⟨⟨q, ring⟩, hring, rfl⟩ := Option.map_eq_some_iff.mp ht
      have hpending := pending_complete (show s.ring.complete i res = some (q, ring) from hring)
      obtain ⟨hq, rfl⟩ := complete_eq_some.mp hring
      refine ⟨fun p hp => h.fresh p (by simpa using hp), h.nodup, ?_, ?_,
        ?_, ?_, ?_⟩
      · simp only [hpending]
        exact h.conserved
      · intro c hc
        rcases List.mem_append.mp hc with hc | hc
        · exact List.mem_cons_of_mem _ (h.posted c hc)
        · rw [List.mem_singleton.mp hc]
          exact List.mem_cons_self
      · intro r hr
        have hserves := h.running r hr
        refine ⟨hserves.ends, fun p hp => hserves.own p (hpending ▸ hp),
          fun c hc => (hserves.reaped c hc).mono (List.subset_cons_self _ _), hserves.single⟩
      · intro p ud r hmem
        obtain ⟨hud, hposted⟩ := h.handed p ud r (by simpa using hmem)
        exact ⟨hud, List.mem_cons_of_mem _ hposted⟩
      · intro fn fst reaped value hmem
        exact (h.returned fn fst reaped value (by simpa using hmem)).mono
          (List.subset_cons_self _ _)
    · exact absurd ht (by simp)

/-- What one step preserves. -/
theorem attributes_step {e : Event} (h : Attributes s) (hP : SyncOnIdle s e)
    (ht : step cfg s e = some t) : Attributes t := by
  cases step_cases ht with
  | @complete i res more _ hcomplete =>
    have hmore : more = false := hP
    subst hmore
    exact h.complete hcomplete
  | sync hcall => exact h.start hcall hP _ _ _
  | async hcall => exact h.submitAsync hcall _ _ _ _ _
  | waitRaises hcall => exact h
  | waitHands hcall hcs => exact h.hand hcall hcs
  | peekNone hcall => exact h
  | peekHands hcall hcs => exact h.hand hcall hcs
  | batchWaits hr hreap hnil =>
    have hserves := h.running _ hr
    refine ⟨h.fresh, h.nodup, h.conserved, h.posted, ?_, h.handed, h.returned⟩
    intro u hu
    obtain rfl := Option.some.inj hu
    refine ⟨hserves.ends, hserves.own, hserves.reaped, ?_⟩
    intro w hw
    exact absurd ((hserves.single w hw).1.symm.trans hreap) (by simp)
  | batchDrains hr hreap => exact h.drain
  | waitFails hr hret =>
    have hserves := h.running _ hr
    exact h.finish ⟨hserves.reaped, fun w hw => Or.inl (hserves.single w hw).2⟩
  | waitReaps hr hret hcs => exact h.reapOne hr hcs

/-- What a whole run preserves. -/
theorem attributes_reach (h : Reach (step cfg) SyncOnIdle State.init s) : Attributes s :=
  h.invariant attributes_init fun _ _ _ hI hP ht => attributes_step hI hP ht

/-! ## A call on a ring that is not idle -/

/-- Steps taken while a synchronous function runs. -/
def InCall (s : State) : Event → Prop := fun _ => s.call ≠ none

/-- The call of the wrapper `w` that took entry `n` has just returned, with the result
of that entry if it reaped anything. -/
def ReturnedOwn (w : Wrapper) (n : ℕ) (s : State) : Prop :=
  ∃ reaped value, s.log.head? = some (.syncReturn (.submitWaitOne w) n reaped value) ∧
    (reaped = [] ∨ ∃ q, reaped = [(q, value)] ∧ q.serial = n)

/-- Requests on the ring were taken before. -/
def Fresh (s : State) : Prop := ∀ q ∈ s.ring.pending, q.serial < s.serial

theorem fresh_step {e : Event} (h : Fresh s) (ht : step cfg s e = some t) : Fresh t := by
  have hcarries := carries_step ht
  intro q hq
  rcases hcarries.pending q hq with ⟨-, hlt⟩ | ⟨q', hq', hserial, -⟩
  · exact hlt
  · have hlt := h q' hq'
    have hle := hcarries.serial
    omega

theorem fresh_reach {P : State → Event → Prop} (h : Reach (step cfg) P State.init s) : Fresh s :=
  h.invariant (fun q hq => absurd hq (by simp [State.init])) fun _ _ _ hI _ ht => fresh_step hI ht

/-- A wrapper that waits on a ring with no request but its own. -/
theorem returnedOwn_of_alone {w : Wrapper} {n : ℕ}
    (hrun : s.call = some ⟨.submitWaitOne w, n, .one, []⟩)
    (halone : ∀ q ∈ s.ring.pending, q.serial = n) (h : Reach (step cfg) InCall s t)
    (hret : t.call = none) : ReturnedOwn w n t := by
  have hinv := h.invariant (I := fun u => (∀ q ∈ u.ring.pending, q.serial = n) ∧
    (u.call = some ⟨.submitWaitOne w, n, .one, []⟩ ∨ (u.call = none ∧ ReturnedOwn w n u)))
    ⟨halone, Or.inl hrun⟩ ?_
  · rcases hinv.2 with hcall | ⟨-, hown⟩
    · exact absurd (hcall.symm.trans hret) (by simp)
    · exact hown
  · rintro u e v ⟨hserial, hcases⟩ hin hv
    have hcall : u.call = some ⟨.submitWaitOne w, n, .one, []⟩ :=
      hcases.resolve_right fun hor => hin hor.1
    cases step_cases hv with
    | complete hcomplete =>
      obtain ⟨hsame, -, -, hmem⟩ := complete_cases hcomplete
      refine ⟨?_, Or.inl (hsame.trans hcall)⟩
      intro q hq
      obtain ⟨q', hq', heq, -⟩ := hmem q hq
      rw [← heq]
      exact hserial q' hq'
    | sync hnone => exact absurd hnone hin
    | async hnone => exact absurd hnone hin
    | waitRaises hnone => exact absurd hnone hin
    | waitHands hnone hcs => exact absurd hnone hin
    | peekNone hnone => exact absurd hnone hin
    | peekHands hnone hcs => exact absurd hnone hin
    | batchWaits hr hreap hnil =>
      obtain rfl := Option.some.inj (hcall.symm.trans hr)
      exact absurd hreap (by simp)
    | batchDrains hr hreap =>
      obtain rfl := Option.some.inj (hcall.symm.trans hr)
      exact absurd hreap (by simp)
    | waitFails hr hneg =>
      obtain rfl := Option.some.inj (hcall.symm.trans hr)
      exact ⟨hserial, Or.inr ⟨rfl, [], _, rfl, Or.inl rfl⟩⟩
    | @waitReaps _ _ c cs hr hpos hcs =>
      obtain rfl := Option.some.inj (hcall.symm.trans hr)
      refine ⟨fun q hq => hserial q (mem_pending_of_reaped hcs hq), Or.inr ⟨rfl, _, _, rfl, ?_⟩⟩
      refine Or.inr ⟨c.1, rfl, hserial c.1 (mem_pending.mpr (Or.inr (Or.inr ⟨c.2, ?_⟩)))⟩
      rw [hcs]
      exact List.mem_cons_self

/-- The kernel may complete whatever is outstanding. -/
theorem exists_allows (p : Posts) (posted : ℕ) : ∃ more, p.allows posted more = true := by
  cases p with
  | one => exact ⟨false, rfl⟩
  | resultThenNotification => exact ⟨posted == 0, by simp [Posts.allows]⟩
  | message => exact ⟨false, by simp [Posts.allows]⟩
  | multishot => exact ⟨false, rfl⟩

variable (cfg) in
/-- A wrapper that waits while an older completion is at the head of the queue returns
that one's result. -/
theorem exists_foreign_of_completed {w : Wrapper} {n : ℕ} {c : CtxSqe × ℤ}
    {cs : List (CtxSqe × ℤ)} (hrun : s.call = some ⟨.submitWaitOne w, n, .one, []⟩)
    (hcs : s.ring.completed = c :: cs) (hne : c.1.serial ≠ n) :
    ∃ t, Reach (step cfg) InCall s t ∧ t.call = none ∧ ¬ ReturnedOwn w n t := by
  have hstep : step cfg s (.wait 0) =
      some (s.reapOne ⟨.submitWaitOne w, n, .one, []⟩ c cs) := by
    simp [step, hrun, State.waitCqe, hcs]
  refine ⟨_, Reach.single (by simp [InCall, hrun]) hstep, rfl, ?_⟩
  rintro ⟨reaped, value, hhead, hown⟩
  obtain ⟨-, -, hreaped, -⟩ := Ev.syncReturn.inj (Option.some.inj hhead)
  subst hreaped
  rcases hown with hnil | ⟨q, hq, hserial⟩
  · exact absurd hnil (by simp)
  · rw [List.nil_append, List.singleton_inj] at hq
    rw [hq] at hne
    exact hne hserial

/-- With anything older on the ring, the kernel can see to it that a wrapper returns
the result of that. -/
theorem exists_foreign_of_not_idle {w : Wrapper} (hfresh : Fresh s) (hidle : ¬ s.ring.Idle) :
    ∃ t, Reach (step cfg) InCall (s.started (.submitWaitOne w)) t ∧ t.call = none ∧
      ¬ ReturnedOwn w s.serial t := by
  have hold : ∀ q ∈ s.ring.pending, q.serial ≠ s.serial := fun q hq => Nat.ne_of_lt (hfresh q hq)
  cases hcs : s.ring.completed with
  | cons c cs =>
    refine exists_foreign_of_completed cfg rfl hcs (hold c.1 ?_)
    exact mem_pending.mpr (Or.inr (Or.inr ⟨c.2, by rw [hcs]; exact List.mem_cons_self⟩))
  | nil =>
    -- nothing is posted yet: the kernel completes the oldest request first
    obtain ⟨q, qs, hout⟩ : ∃ q qs, s.ring.outstanding ++ s.ring.queued = q :: qs := by
      refine List.exists_cons_of_ne_nil fun hnil => hidle ?_
      obtain ⟨ho, hq⟩ := List.append_eq_nil_iff.mp hnil
      exact ⟨hq, ho, hcs⟩
    have hqmem : q ∈ s.ring.pending := by
      have : q ∈ s.ring.outstanding ++ s.ring.queued := by rw [hout]; exact List.mem_cons_self
      rcases List.mem_append.mp this with h | h
      · exact mem_pending.mpr (Or.inr (Or.inl h))
      · exact mem_pending.mpr (Or.inl h)
    have hring : (s.started (.submitWaitOne w)).ring.outstanding[0]? = some q := by
      simp only [State.started, State.withTaken, outstanding_submit]
      rw [← List.append_assoc, hout]
      rfl
    obtain ⟨more, hallows⟩ := exists_allows q.posts q.posted
    obtain ⟨u, hu, hucall, hucs⟩ : ∃ u, step cfg (s.started (.submitWaitOne w))
        (.complete 0 0 more) = some u ∧ u.call = some ⟨.submitWaitOne w, s.serial, .one, []⟩ ∧
        u.ring.completed = [(q, 0)] := by
      cases more with
      | false =>
        refine ⟨_, by simp [step, State.complete, CompletionRing.complete, hring, hallows]; rfl,
          rfl, ?_⟩
        simp [State.started, State.withTaken, hcs]
      | true =>
        refine ⟨_, by simp [step, State.complete, CompletionRing.post, hring, hallows]; rfl,
          rfl, ?_⟩
        simp [State.started, State.withTaken, hcs]
    obtain ⟨t, ht, hret, hforeign⟩ := exists_foreign_of_completed cfg hucall hucs
      (hold q hqmem)
    exact ⟨t, Reach.head (by simp [InCall, State.started]) hu ht, hret, hforeign⟩

/-- **Results reach the calls they belong to** in every run in which synchronous
functions start on an idle ring; and on a ring that is not idle a wrapper is not safe
from the result of another request, whatever the ring holds. -/
theorem results_attributed (cfg : Config) :
    (∀ s, Reach (step cfg) SyncOnIdle State.init s → Attributed s) ∧
    ∀ (s s₁ : State) (w : Wrapper) (stale : Prep) (submitRet : ℤ),
      Reach (step cfg) AnyStep State.init s → s.call = none → w.valid = true →
      0 < room cfg s → 0 ≤ submitRet →
      step cfg s (.sync (.submitWaitOne w) stale submitRet) = some s₁ →
      ((∀ t, Reach (step cfg) InCall s₁ t → t.call = none → ReturnedOwn w s.serial t) ↔
        s.ring.Idle) := by
  refine ⟨fun s hs => (attributes_reach hs).attributed, ?_⟩
  intro s s₁ w stale submitRet hs hcall hvalid hroom hsub hstep
  -- the call has room and submits, so it goes on to wait
  have hs₁ : s₁ = s.started (.submitWaitOne w) := by
    obtain ⟨-, heq⟩ := Option.ite_none_right_eq_some.mp hstep
    rw [← Option.some.inj heq]
    rcases start_cases (show SyncFn.valid cfg (.submitWaitOne w) = true from hvalid) stale
        submitRet with
      ⟨hlt, -⟩ | ⟨-, hneg, -⟩ | ⟨-, -, h⟩
    · exact absurd (Nat.lt_of_lt_of_le hlt hroom) (Nat.lt_irrefl _)
    · omega
    · exact h
  subst hs₁
  constructor
  · intro hall
    refine Classical.byContradiction ?_
    intro hidle
    obtain ⟨t, ht, hret, hforeign⟩ := exists_foreign_of_not_idle (fresh_reach hs) hidle
    exact hforeign (hall t ht hret)
  · intro hidle t ht hret
    refine returnedOwn_of_alone rfl ?_ ht hret
    intro q hq
    simp only [State.started, pending_submit, pending_withTaken, pending_eq_zero.mpr hidle,
      zero_add, Multiset.mem_coe] at hq
    obtain ⟨-, hle, hlt, -, -⟩ := mem_entries hq
    simp only [SyncFn.preps, List.length_singleton] at hlt
    omega

/-- A read is submitted and completes with 100 while a no-op waits: the no-op returns
the read's result. -/
theorem results_not_attributed : ¬ ∀ (cfg : Config) (es : List Event) (s : State),
    (∀ e ∈ es, ∀ i res more, e = .complete i res more → more = false) →
    exec (step cfg) State.init es = some s → Attributed s := by
  intro h
  have hattr := h ⟨4, 4, by decide, by decide⟩
    [.async (.read 3 0 100 0) .one 7 true 1, .sync (.submitWaitOne nopSync) ⟨.other, 0, .one⟩ 1,
      .complete 0 100 false, .wait 0] _ (by simp) rfl
  have hown := (hattr.sync _ _ _ _ List.mem_cons_self).1 _ List.mem_cons_self
  exact absurd hown.1 (by decide)

end UringCtx
end Native
end Pyuring
