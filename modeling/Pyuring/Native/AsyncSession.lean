import Pyuring.Native.UringCtxCalls

/-!
# A context and its asynchronous submissions

The functions of `UringCtx` that submit a request and return at once, under their own
names, and the life of a context up to its `close`.  `read_async` and `write_async` pin the
buffer they are given in `_async_io_keepalive`, under the tag; their pointer forms, a splice
and the two multishot submissions have no buffer of Python's to pin.

A completion is put down to a request by the number of its entry, which the program never
sees; the tag is what the program goes by.

`close` clears the table and then destroys the ring.  Between the two the kernel may go on.
-/

namespace Pyuring
namespace Native
namespace AsyncSession

open UringCtx CompletionRing Trace

/-- A call that submits a request.  Of the arguments of the last three only the tag is
kept. -/
inductive Submission where
  | readAsync (fd : ℤ) (len : ℕ) (offset userData : ℤ)
  | writeAsync (fd : ℤ) (len : ℕ) (offset userData : ℤ)
  | readAsyncPtr (fd : ℤ) (bufLen : ℕ) (offset userData : ℤ)
  | writeAsyncPtr (fd : ℤ) (bufLen : ℕ) (offset userData : ℤ)
  | spliceSubmit (userData : ℤ)
  | multishotAcceptSubmit (userData : ℤ)
  | recvMultishotBufferGroupSubmit (userData : ℤ)
  deriving DecidableEq, Repr

namespace Submission

def op : Submission → SqeOp
  | readAsync fd len offset _ => .read fd 0 len offset
  | writeAsync fd len offset _ => .write fd 0 len offset
  | readAsyncPtr fd bufLen offset _ => .read fd 0 bufLen offset
  | writeAsyncPtr fd bufLen offset _ => .write fd 0 bufLen offset
  | spliceSubmit _ => .other
  | multishotAcceptSubmit _ => .other
  | recvMultishotBufferGroupSubmit _ => .other

def posts : Submission → Posts
  | multishotAcceptSubmit _ => .multishot
  | recvMultishotBufferGroupSubmit _ => .multishot
  | _ => .one

def userData : Submission → ℤ
  | readAsync _ _ _ userData => userData
  | writeAsync _ _ _ userData => userData
  | readAsyncPtr _ _ _ userData => userData
  | writeAsyncPtr _ _ _ userData => userData
  | spliceSubmit userData => userData
  | multishotAcceptSubmit userData => userData
  | recvMultishotBufferGroupSubmit userData => userData

/-- Whether the call pins a buffer. -/
def tracked : Submission → Bool
  | readAsync _ _ _ _ => true
  | writeAsync _ _ _ _ => true
  | _ => false

/-- The call as an event of the ring. -/
def event (submitRet : ℤ) (sub : Submission) : UringCtx.Event :=
  .async sub.op sub.posts sub.userData sub.tracked submitRet

end Submission

/-- A request for which an entry was taken: the number of the entry, the tag as the caller gave
it, and whether the call pins a buffer. -/
structure Request where
  serial : ℕ
  userData : ℤ
  tracked : Bool
  deriving DecidableEq, Repr

inductive Life where
  | opened
  /-- `close` has cleared the table. -/
  | closing
  | destroyed
  deriving DecidableEq, Repr

/-- A context, and the requests submitted to it, newest first. -/
structure Session where
  ctx : State
  requests : List Request
  life : Life

/-- What happens next: the kernel posts a completion, a call is made, or a synchronous function
that runs goes on. -/
inductive Action where
  | submit (sub : Submission) (submitRet : ℤ)
  | complete (i : ℕ) (res : ℤ) (more : Bool)
  | waitCompletion (waitRet : ℤ)
  | peekCompletion (peekRet : ℤ)
  | sync (fn : SyncFn) (stale : Prep) (submitRet : ℤ)
  | peek
  | wait (waitRet : ℤ)
  | close
  | destroy
  deriving DecidableEq

/-- A session before its first call. -/
def init : Session := ⟨.init, [], .opened⟩

variable (cfg : Config)

/-- A step of an open context. -/
def Session.call (e : UringCtx.Event) (s : Session) : Option Session :=
  if s.life = .opened then (UringCtx.step cfg s.ctx e).map fun ctx => { s with ctx := ctx }
  else none

/-- The request of a submission, when there is room for its entry. -/
def Session.request (sub : Submission) (s : Session) : List Request :=
  if s.ctx.ring.queued.length < cfg.sqEntries then
    [⟨s.ctx.serial, sub.userData, sub.tracked⟩]
  else []

def step (s : Session) : Action → Option Session
  | .submit sub submitRet => (s.call cfg (sub.event submitRet)).map fun t =>
      { t with requests := s.request cfg sub ++ s.requests }
  | .complete i res more =>
    if s.life = .destroyed then none
    else (s.ctx.complete i res more).map fun ctx => { s with ctx := ctx }
  | .waitCompletion waitRet => s.call cfg (.waitCompletion waitRet)
  | .peekCompletion peekRet => s.call cfg (.peekCompletion peekRet)
  | .sync fn stale submitRet => s.call cfg (.sync fn stale submitRet)
  | .peek => s.call cfg .peek
  | .wait waitRet => s.call cfg (.wait waitRet)
  | .close =>
    if s.life = .opened ∧ s.ctx.call = none then
      some { s with ctx := { s.ctx with asyncIoKeepalive := [] }, life := .closing }
    else none
  | .destroy => if s.life = .closing then some { s with life := .destroyed } else none

variable {cfg} {s t : Session}

theorem call_eq_some {e : UringCtx.Event} : s.call cfg e = some t ↔
    s.life = .opened ∧ ∃ ctx, UringCtx.step cfg s.ctx e = some ctx ∧ t = { s with ctx := ctx } := by
  unfold Session.call
  rw [Option.ite_none_right_eq_some, Option.map_eq_some_iff]
  constructor
  · rintro ⟨hlife, ctx, hctx, rfl⟩
    exact ⟨hlife, ctx, hctx, rfl⟩
  · rintro ⟨hlife, ctx, hctx, rfl⟩
    exact ⟨hlife, ctx, hctx, rfl⟩

/-! ## What a step does -/

/-- A step of a synchronous function. -/
def Action.ofSync : Action → Bool
  | .sync _ _ _ => true
  | .peek => true
  | .wait _ => true
  | _ => false

/-- The call may hand out a completion. -/
def Action.mayHand : Action → Bool
  | .waitCompletion waitRet => decide (0 ≤ waitRet)
  | .peekCompletion peekRet => decide (0 ≤ peekRet)
  | _ => false

/-- Everything a step of a session can do. -/
inductive Steps (cfg : Config) (s : Session) : Action → Session → Prop where
  | submit {sub : Submission} {submitRet : ℤ} {ctx : State} (hopen : s.life = .opened)
      (hsub : Submits cfg sub.op sub.posts sub.userData sub.tracked submitRet s.ctx ctx) :
      Steps cfg s (.submit sub submitRet) ⟨ctx, s.request cfg sub ++ s.requests, s.life⟩
  | complete {i : ℕ} {res : ℤ} {more : Bool} {ctx : State}
      (hcomplete : s.ctx.complete i res more = some ctx) :
      Steps cfg s (.complete i res more) { s with ctx := ctx }
  | hand {a : Action} {c : CtxSqe × ℤ} {cs : List (CtxSqe × ℤ)} (hopen : s.life = .opened)
      (hact : a.mayHand = true) (hcs : s.ctx.ring.completed = c :: cs) :
      Steps cfg s a { s with ctx := s.ctx.hand c cs }
  | nothing {a : Action} (hact : a.mayHand = true → s.ctx.ring.completed = [])
      (hquiet : ∀ sub r, a ≠ .submit sub r) (hclose : a ≠ .close) : Steps cfg s a s
  | sync {a : Action} {ctx : State} (hact : a.ofSync = true) (hcarries : Carries s.ctx ctx)
      (hpins : ctx.asyncIoKeepalive = s.ctx.asyncIoKeepalive) : Steps cfg s a { s with ctx := ctx }
  | close : Steps cfg s .close
      { s with ctx := { s.ctx with asyncIoKeepalive := [] }, life := .closing }
  | destroy : Steps cfg s .destroy { s with life := .destroyed }

/-- The steps of a synchronous function pin nothing and release nothing. -/
theorem keepalive_of_sync {e : UringCtx.Event} {u v : State} (h : UringCtx.step cfg u e = some v)
    (hsync : (∃ fn stale r, e = .sync fn stale r) ∨ e = .peek ∨ ∃ r, e = .wait r) :
    v.asyncIoKeepalive = u.asyncIoKeepalive := by
  cases UringCtx.step_cases h with
  | sync hcall => exact (carries_start _ _ _).2
  | batchWaits => rfl
  | batchDrains => exact (carries_drain _ u).2
  | waitFails => rfl
  | waitReaps => exact (reapOne_frame _ _ _).2.2
  | _ => exact absurd hsync (by simp)

theorem step_cases {a : Action} (h : step cfg s a = some t) : Steps cfg s a t := by
  have hsync : ∀ {e : UringCtx.Event}, ((∃ fn stale r, e = .sync fn stale r) ∨ e = .peek ∨
      ∃ r, e = .wait r) → a.ofSync = true → s.call cfg e = some t → Steps cfg s a t := by
    intro e he ha hcall
    obtain ⟨-, ctx, hctx, rfl⟩ := call_eq_some.mp hcall
    exact .sync ha (carries_step hctx) (keepalive_of_sync hctx he)
  cases a with
  | submit sub submitRet =>
    obtain ⟨u, hu, rfl⟩ := Option.map_eq_some_iff.mp h
    obtain ⟨hopen, ctx, hctx, rfl⟩ := call_eq_some.mp hu
    obtain ⟨-, heq⟩ := Option.ite_none_right_eq_some.mp hctx
    rw [← Option.some.inj heq]
    exact .submit hopen (submits _ _ _ _ _)
  | complete i res more =>
    obtain ⟨-, h⟩ := Option.ite_none_left_eq_some.mp h
    obtain ⟨ctx, hctx, rfl⟩ := Option.map_eq_some_iff.mp h
    exact .complete hctx
  | waitCompletion waitRet =>
    obtain ⟨hopen, ctx, hctx, rfl⟩ := call_eq_some.mp h
    obtain ⟨-, heq⟩ := Option.ite_none_right_eq_some.mp hctx
    unfold State.waitCompletion at heq
    split at heq
    · next hneg =>
      rw [← Option.some.inj heq]
      exact .nothing (fun hact => absurd (of_decide_eq_true hact) (Int.not_le.mpr hneg))
        (by simp) (by simp)
    · next hpos =>
      split at heq
      · exact absurd heq (by simp)
      · next c cs hcs =>
        rw [← Option.some.inj heq]
        exact .hand hopen (decide_eq_true (Int.not_lt.mp hpos)) hcs
  | peekCompletion peekRet =>
    obtain ⟨hopen, ctx, hctx, rfl⟩ := call_eq_some.mp h
    obtain ⟨-, heq⟩ := Option.ite_none_right_eq_some.mp hctx
    rw [← Option.some.inj heq]
    unfold State.peekCompletion
    split
    · next hneg =>
      exact .nothing (fun hact => absurd (of_decide_eq_true hact) (Int.not_le.mpr hneg))
        (by simp) (by simp)
    · next hpos =>
      split
      · next hnil => exact .nothing (fun _ => hnil) (by simp) (by simp)
      · next c cs hcs => exact .hand hopen (decide_eq_true (Int.not_lt.mp hpos)) hcs
  | sync fn stale submitRet => exact hsync (Or.inl ⟨_, _, _, rfl⟩) rfl h
  | peek => exact hsync (Or.inr (Or.inl rfl)) rfl h
  | wait waitRet => exact hsync (Or.inr (Or.inr ⟨_, rfl⟩)) rfl h
  | close =>
    obtain ⟨-, heq⟩ := Option.ite_none_right_eq_some.mp h
    rw [← Option.some.inj heq]
    exact .close
  | destroy =>
    obtain ⟨-, heq⟩ := Option.ite_none_right_eq_some.mp h
    rw [← Option.some.inj heq]
    exact .destroy

/-! ## Tags -/

/-- The tag as the submission entry has it. -/
theorem toNat_ofInt (userData : ℤ) : ((UInt64.ofInt userData).toNat : ℤ) = userData % 2 ^ 64 := by
  rw [UInt64.ofInt]
  simp
  omega

/-- The tag as the native function returns it. -/
theorem signedTag_eq (userData : ℤ) : signedTag userData =
    if userData % 2 ^ 64 < 2 ^ 63 then userData % 2 ^ 64 else userData % 2 ^ 64 - 2 ^ 64 := by
  have hnat := toNat_ofInt userData
  have hbits : (UInt64.ofInt userData).toInt64.toBitVec.toNat = (UInt64.ofInt userData).toNat := rfl
  rw [signedTag, ← Int64.toInt_toBitVec, BitVec.toInt_eq_toNat_cond, hbits]
  split <;> split <;> omega

theorem signedTag_neg_iff (userData : ℤ) : signedTag userData < 0 ↔ 2 ^ 63 ≤ userData % 2 ^ 64 := by
  rw [signedTag_eq]
  split <;> omega

/-! ## The records -/

/-- The requests are what is known of the asynchronous entries, and each pin is that of a
request, under its tag. -/
structure Recorded (s : Session) : Prop where
  fresh : ∀ q ∈ s.ctx.ring.pending, q.serial < s.ctx.serial
  serials : ∀ r ∈ s.requests, r.serial < s.ctx.serial
  tags : ∀ q ∈ s.ctx.ring.pending, ∀ r ∈ s.requests, r.serial = q.serial →
    q.userData = UInt64.ofInt r.userData
  pins : ∀ p ∈ s.ctx.asyncIoKeepalive, ∃ r ∈ s.requests, r.serial = p.2 ∧ r.userData = p.1
  pinned_once : (s.ctx.asyncIoKeepalive.map Prod.snd).Nodup

theorem recorded_init : Recorded init := by
  refine ⟨?_, ?_, ?_, ?_, List.nodup_nil⟩ <;> simp [init, State.init]

/-- A step that takes no asynchronous entry and pins nothing. -/
theorem Recorded.carry (h : Recorded s) {ctx : State} (hcarries : Carries s.ctx ctx)
    (hpins : ctx.asyncIoKeepalive.Sublist s.ctx.asyncIoKeepalive) (life : Life) :
    Recorded ⟨ctx, s.requests, life⟩ := by
  refine ⟨?_, ?_, ?_,
    fun p hp => h.pins p (hpins.subset hp), h.pinned_once.sublist (hpins.map _)⟩
  · intro q hq
    rcases hcarries.pending q hq with ⟨-, hlt⟩ | ⟨q', hq', hserial, -⟩
    · exact hlt
    · have hlt := h.fresh q' hq'
      have hle := hcarries.serial
      simp only
      omega
  · intro r hr
    exact Nat.lt_of_lt_of_le (h.serials r hr) hcarries.serial
  · intro q hq r hr heq
    rcases hcarries.pending q hq with ⟨hle, -⟩ | ⟨q', hq', hserial, hprep⟩
    · have hlt := h.serials r hr
      omega
    · rw [← hprep]
      exact h.tags q' hq' r hr (heq.trans hserial.symm)

/-- What a submission pins. -/
theorem keepalive_of_submits {op : SqeOp} {posts : Posts} {userData : ℤ} {tracked : Bool}
    {submitRet : ℤ} {u v : State} (h : Submits cfg op posts userData tracked submitRet u v) :
    v.asyncIoKeepalive = u.asyncIoKeepalive ∨
      (u.ring.queued.length < cfg.sqEntries ∧
        v.asyncIoKeepalive = (userData, u.serial) :: u.asyncIoKeepalive) := by
  cases h with
  | pins hroom => exact Or.inr ⟨hroom, rfl⟩
  | _ => exact Or.inl rfl

theorem Recorded.submit (h : Recorded s) {sub : Submission} {submitRet : ℤ} {ctx : State}
    (hsub : Submits cfg sub.op sub.posts sub.userData sub.tracked submitRet s.ctx ctx) :
    Recorded ⟨ctx, s.request cfg sub ++ s.requests, s.life⟩ := by
  rcases hsub.pending with ⟨hfull, -, -⟩ | ⟨hroom, hserial, hpending⟩
  · have hnone : s.request cfg sub = [] := if_neg (Nat.not_lt.mpr hfull)
    have hpins := (keepalive_of_submits hsub).resolve_right fun hor =>
      absurd hor.1 (Nat.not_lt.mpr hfull)
    rw [hnone]
    exact h.carry hsub.carries (hpins ▸ List.Sublist.refl _) _
  have hone : s.request cfg sub = [⟨s.ctx.serial, sub.userData, sub.tracked⟩] := if_pos hroom
  have hold : ∀ p ∈ s.ctx.asyncIoKeepalive, p.2 ≠ s.ctx.serial := by
    intro p hp
    obtain ⟨r, hr, heq, -⟩ := h.pins p hp
    exact heq ▸ Nat.ne_of_lt (h.serials r hr)
  rw [hone, List.singleton_append]
  refine ⟨?_, ?_, ?_, ?_, ?_⟩
  · intro q hq
    simp only at hq ⊢
    rw [hpending, Multiset.mem_cons] at hq
    rw [hserial]
    rcases hq with rfl | hq
    · exact Nat.lt_succ_self _
    · exact Nat.lt_succ_of_lt (h.fresh q hq)
  · intro r hr
    simp only at hr ⊢
    rw [hserial]
    rcases List.mem_cons.mp hr with rfl | hr
    · exact Nat.lt_succ_self _
    · exact Nat.lt_succ_of_lt (h.serials r hr)
  · intro q hq r hr heq
    simp only at hq hr
    rw [hpending, Multiset.mem_cons] at hq
    rcases hq with rfl | hq <;> rcases List.mem_cons.mp hr with rfl | hr
    · rfl
    · exact absurd heq (Nat.ne_of_lt (h.serials r hr))
    · exact absurd heq.symm (Nat.ne_of_lt (h.fresh q hq))
    · exact h.tags q hq r hr heq
  · intro p hp
    simp only at hp
    rcases keepalive_of_submits hsub with hkeep | ⟨-, hkeep⟩ <;> rw [hkeep] at hp
    · obtain ⟨r, hr, heq⟩ := h.pins p hp
      exact ⟨r, List.mem_cons_of_mem _ hr, heq⟩
    · rcases List.mem_cons.mp hp with rfl | hp
      · exact ⟨_, List.mem_cons_self, rfl, rfl⟩
      · obtain ⟨r, hr, heq⟩ := h.pins p hp
        exact ⟨r, List.mem_cons_of_mem _ hr, heq⟩
  · simp only
    rcases keepalive_of_submits hsub with hkeep | ⟨-, hkeep⟩ <;> rw [hkeep]
    · exact h.pinned_once
    · refine List.nodup_cons.mpr ⟨?_, h.pinned_once⟩
      intro hmem
      obtain ⟨p, hp, heq⟩ := List.mem_map.mp hmem
      exact hold p hp heq

theorem Recorded.step (h : Recorded s) {a : Action} (ht : step cfg s a = some t) : Recorded t := by
  cases step_cases ht with
  | submit _ hsub => exact h.submit hsub
  | complete hcomplete =>
    obtain ⟨-, hserial, hpins, hmem⟩ := complete_cases hcomplete
    exact h.carry ⟨hserial.ge, fun q hq => Or.inr (hmem q hq)⟩ (hpins ▸ List.Sublist.refl _) _
  | @hand _ c cs _ hact hcs =>
    have hcarries : Carries s.ctx (s.ctx.hand c cs) :=
      .of_sub rfl fun q hq => mem_pending_of_reaped hcs hq
    exact h.carry hcarries List.filter_sublist _
  | nothing => exact h
  | sync hact hcarries hpins => exact h.carry hcarries (hpins ▸ List.Sublist.refl _) _
  | close =>
    have hcarries : Carries s.ctx { s.ctx with asyncIoKeepalive := [] } :=
      .of_sub rfl fun _ hq => hq
    exact h.carry hcarries (List.nil_sublist _) _
  | destroy => exact h.carry (.refl _) (List.Sublist.refl _) _

/-- A ring with the default number of entries. -/
def defaultEntries : Config := ⟨64, 64, by decide, by decide⟩

end AsyncSession
end Native
end Pyuring
