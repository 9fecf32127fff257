import Pyuring.AsyncFileLoop
import Pyuring.AsyncFileSerial
import Pyuring.UringAsyncHandover
import Pyuring.Lib.Expansion
import Pyuring.Native.BufferPins

/-!
# A file on its ring

An `AsyncFile` on the io_uring path makes its requests on a `UringCtx` of its own, and its
`UringAsync` takes the completions out of the same context.  The model of the file keeps
the requests that are queued, those that the kernel has, and the completions that were
posted; the model of a context keeps submission entries, and a table of the buffers that
are pinned.  This file puts the one on top of the other.

`nativeCalls` lists the calls of `UringCtx` that a step of the file makes.  A completion
that the kernel posts is a step of the context too, as long as there is one.

## What is proved

`session_of_run`: in every run of a file, whatever the kernel answers and whoever is
cancelled, its calls are a run of the context, and at its end the two agree (`Stacked`):
the entries queued and outstanding are those of the file's requests, field by field and in
order, and the completions left to take out are the same.

`pinned_iff_tidy`: in such a run the buffers of all requests in flight are pinned at every
moment at which the ring exists if and only if every step is `Tidy`: no submission goes
through while an earlier one that failed has left its entry in the queue, and the file is
not closed while the ring has requests or completions.  So these two are the only ways in
which the kernel comes to write into a buffer that Python may have freed.
-/

namespace Pyuring
namespace AsyncFile

open Trace Native
open AsyncSession (Session Submission Action Recorded defaultEntries)

/-! ## The calls of the context -/

/-- The call of `UringCtx` that makes a request. -/
def Io.submission (fd : ℤ) (off ud : ℕ) : Io → Submission
  | .read loop => .readAsync fd loop.chunkSz off ud
  | .write data => .writeAsync fd (data.length % 2 ^ 32) off ud

/-- The calls of `peek_completion` in `_deliver_peek_chain`, for the waiters and the
completions that are left. -/
def peekCalls : List ℕ → Option ℕ → List (ℕ × ℤ) → List Action
  | [], _, _ => []
  | _ :: _, some 0, _ => [.peekCompletion (-1)]
  | _ :: _, _, [] => [.peekCompletion 0]
  | _ :: ws, peeks, _ :: cs => .peekCompletion 0 :: peekCalls ws (peeks.map Nat.pred) cs

/-- The calls in `_on_readable`. -/
def readerCalls (waitRet : ℤ) (peeks : Option ℕ) (ua : UringAsync.State (ℕ × ℤ)) : List Action :=
  match ua.ensureCtxOpen with
  | .error _ => []
  | .ok () => match ua.waiters with
    | [] => []
    | _ :: ws =>
      .waitCompletion waitRet ::
        if waitRet < 0 then [] else peekCalls ws peeks (ua.posted.drop (ua.reaped + 1))

namespace State

/-- The calls of a call of the file that has the lock.  `close` of a context clears its
table and then destroys the ring. -/
def lockedCalls (fd : ℤ) (t : ℕ) (submitRet : ℤ) (s : State) : List Action :=
  if s.op t = .aclose then
    if s.closed || !s.uring then [] else [.close, .destroy]
  else if s.fp.isSome || !s.uring then []
  else match (s.op t).start with
    | none => []
    | some io => [.submit (io.submission fd s.pos s.ud) submitRet]

/-- The calls of a call that was handed a completion: a read goes on with its next slice. -/
def completionCalls (fd : ℤ) (io : Io) (req : Request) (gotUd : ℕ) (res submitRet : ℤ)
    (s : State) : List Action :=
  if gotUd ≠ req.ud ∨ res < 0 then []
  else match io with
    | .read loop => match loop.feed ((s.buf req.ud).take res.toNat) with
      | .inl loop =>
        [.submit ((Io.read loop).submission fd (s.pos + res.toNat) s.ud) submitRet]
      | .inr _ => []
    | .write _ => []

def resumeCalls (fd : ℤ) (t : ℕ) (submitRet : ℤ) (s : State) : List Action :=
  match s.task t with
  | .awaiting io req w => match s.ua.call w with
    | .awaiting (.result _ (gotUd, res)) false => s.completionCalls fd io req gotUd res submitRet
    | _ => []
  | _ => []

end State

/-- The calls of `UringCtx` in one step of the file. -/
def nativeCalls (fd : ℤ) (s : State) : Event → List Action
  | .call _ => []
  | .acquire t submitRet => s.lockedCalls fd t submitRet
  | .complete i res => if s.uring then [.complete i res false] else []
  | .onReadable waitRet peeks => readerCalls waitRet peeks s.ua
  | .runJob _ _ => []
  | .resume t submitRet => s.resumeCalls fd t submitRet
  | .cancel _ => []

/-- The calls of a run. -/
def nativeRun (flags : Flags) (fd : ℤ) (s : State) (es : List Event) : List Action :=
  expand (step flags) (nativeCalls fd) s es

/-- A submission that goes through finds nothing in the queue, and the file is closed with
nothing on the ring. -/
def Tidy (fd : ℤ) (s : State) (e : Event) : Prop :=
  ∀ a ∈ nativeCalls fd s e, match a with
    | .submit _ submitRet => s.queued.length < 64 → 0 ≤ submitRet → s.queued = []
    | .close => s.inflight = [] ∧ s.ua.posted.drop s.ua.reaped = []
    | _ => True

/-! ## What the two have in common -/

/-- The submission entry of a request. -/
def Request.prep (fd : ℤ) (req : Request) : UringCtx.Prep :=
  match req.op with
  | .read len => ⟨.read fd 0 len req.off, UInt64.ofInt req.ud, .one⟩
  | .write data => ⟨.write fd 0 data.length req.off, UInt64.ofInt req.ud, .one⟩

/-- `q` is the entry of `req`. -/
def Entered (fd : ℤ) (rs : List AsyncSession.Request) (req : Request) (q : UringCtx.CtxSqe) :
    Prop :=
  q.toPrep = req.prep fd ∧ ⟨q.serial, req.ud, true⟩ ∈ rs

/-- `d` is the completion `c`, as the ring has it. -/
def Reported (rs : List AsyncSession.Request) (c : ℕ × ℤ) (d : UringCtx.CtxSqe × ℤ) : Prop :=
  d.1.userData = UInt64.ofInt c.1 ∧ d.2 = c.2 ∧ ⟨d.1.serial, c.1, true⟩ ∈ rs

/-- The file and its open context. -/
structure Linked (fd : ℤ) (s : State) (u : Session) : Prop where
  recorded : Recorded u
  life : u.life = .opened
  idle : u.ctx.call = none
  closed : s.ua.closed = false
  ctxOpen : s.ua.ctxOpen = true
  reaped : s.ua.reaped ≤ s.ua.posted.length
  known : ∀ r ∈ u.requests, r.tracked = true ∧ ∃ ud < s.ud, r.userData = (ud : ℤ)
  tags : (u.requests.map fun r => r.userData).Nodup
  queued : List.Forall₂ (Entered fd u.requests) s.queued u.ctx.ring.queued
  outstanding : List.Forall₂ (Entered fd u.requests) s.inflight u.ctx.ring.outstanding
  completed : List.Forall₂ (Reported u.requests) (s.ua.posted.drop s.ua.reaped)
    u.ctx.ring.completed

/-- The file and its context, which is destroyed when the file is closed. -/
structure Stacked (fd : ℤ) (s : State) (u : Session) : Prop where
  ledger : Ledger s
  linked : s.uring = true → Linked fd s u
  gone : s.uring = false → u.life = .destroyed ∧ s.ua.ctxOpen = false ∧
    ∀ v io req w, s.task v ≠ .awaiting io req w

variable {fd : ℤ} {flags : Flags} {s t : State} {u v : Session} {e : Event}
  {rs rs' : List AsyncSession.Request}

theorem Entered.mono (hsub : rs ⊆ rs') {req : Request} {q : UringCtx.CtxSqe}
    (h : Entered fd rs req q) : Entered fd rs' req q := ⟨h.1, hsub h.2⟩

theorem Reported.mono (hsub : rs ⊆ rs') {c : ℕ × ℤ} {d : UringCtx.CtxSqe × ℤ}
    (h : Reported rs c d) : Reported rs' c d := ⟨h.1, h.2.1, hsub h.2.2⟩

theorem posts_prep (fd : ℤ) (req : Request) : (req.prep fd).posts = .one := by
  unfold Request.prep
  split <;> rfl

theorem userData_prep (fd : ℤ) (req : Request) :
    (req.prep fd).userData = UInt64.ofInt req.ud := by
  unfold Request.prep
  split <;> rfl

/-- A call and the request it makes prepare the same entry. -/
theorem prep_submission (fd : ℤ) (io : Io) (off ud : ℕ) :
    (⟨(io.submission fd off ud).op, UInt64.ofInt (io.submission fd off ud).userData,
      (io.submission fd off ud).posts⟩ : UringCtx.Prep) =
      (⟨ud, io.reqOp, off⟩ : Request).prep fd := by
  cases io with
  | read loop => rfl
  | write data =>
    simp only [Io.submission, Io.reqOp, Request.prep, Submission.op, Submission.userData,
      Submission.posts, List.length_take, Nat.min_eq_left (Nat.mod_le _ _)]

@[simp] theorem userData_submission (fd : ℤ) (io : Io) (off ud : ℕ) :
    (io.submission fd off ud).userData = ud := by
  cases io <;> rfl

@[simp] theorem tracked_submission (fd : ℤ) (io : Io) (off ud : ℕ) :
    (io.submission fd off ud).tracked = true := by
  cases io <;> rfl

/-! ## The reader -/

theorem Linked.ensureCtxOpen (h : Linked fd s u) : s.ua.ensureCtxOpen = .ok () := by
  simp [UringAsync.State.ensureCtxOpen, h.closed, h.ctxOpen]

/-- What the file has besides its queues and its reader does not matter. -/
theorem Linked.congr (h : Linked fd s u) (hclosed : t.ua.closed = s.ua.closed)
    (hopen : t.ua.ctxOpen = s.ua.ctxOpen) (hposted : t.ua.posted = s.ua.posted)
    (hreaped : t.ua.reaped = s.ua.reaped) (hud : t.ud = s.ud) (hqueued : t.queued = s.queued)
    (hinflight : t.inflight = s.inflight) : Linked fd t u where
  recorded := h.recorded
  life := h.life
  idle := h.idle
  closed := hclosed.trans h.closed
  ctxOpen := hopen.trans h.ctxOpen
  reaped := by rw [hposted, hreaped]; exact h.reaped
  known := hud ▸ h.known
  tags := h.tags
  queued := hqueued ▸ h.queued
  outstanding := hinflight ▸ h.outstanding
  completed := by rw [hposted, hreaped]; exact h.completed

/-- A tag is that of one request. -/
theorem Linked.eq_of_tag (h : Linked fd s u) {r r' : AsyncSession.Request}
    (hr : r ∈ u.requests) (hr' : r' ∈ u.requests) (htag : r.userData = r'.userData) : r = r' :=
  List.inj_on_of_nodup_map h.tags hr hr' htag

/-- No tag is used twice, so no completion takes the pin of another request. -/
theorem Linked.harmless (h : Linked fd s u) (hud : s.ud ≤ 2 ^ 63) : AsyncSession.Harmless u := by
  intro d ds hds r hr htracked hne hin hpin
  have hcompleted := h.completed
  rw [hds] at hcompleted
  cases hcs : s.ua.posted.drop s.ua.reaped with
  | nil =>
    rw [hcs] at hcompleted
    cases hcompleted
  | cons c cs =>
    rw [hcs] at hcompleted
    obtain ⟨⟨htag, -, hmem⟩, -⟩ := List.forall₂_cons.mp hcompleted
    obtain ⟨-, ud, hlt, hud'⟩ := h.known _ hmem
    obtain ⟨r', hr', hserial, htag'⟩ := h.recorded.pins _ hpin
    have hnat : (d.1.userData.toNat : ℤ) = c.1 := by
      rw [htag, AsyncSession.toNat_ofInt]
      simp only at hud'
      omega
    have heq := h.eq_of_tag hr' hmem (htag'.trans hnat)
    rw [heq] at hserial
    exact hne hserial.symm

theorem Linked.step_peek (h : Linked fd s u) {d : UringCtx.CtxSqe × ℤ}
    {ds : List (UringCtx.CtxSqe × ℤ)} (hds : u.ctx.ring.completed = d :: ds) {ret : ℤ}
    (hret : 0 ≤ ret) : AsyncSession.step defaultEntries u (.peekCompletion ret) =
      some { u with ctx := u.ctx.hand d ds } := by
  refine AsyncSession.call_eq_some.mpr ⟨h.life, u.ctx.hand d ds, ?_, rfl⟩
  simp [UringCtx.step, h.idle, UringCtx.State.peekCompletion, hds, Int.not_lt.mpr hret]

/-- A peek that fails, or finds nothing. -/
theorem Linked.step_peek_none (h : Linked fd s u) (ret : ℤ)
    (hnone : 0 ≤ ret → u.ctx.ring.completed = []) :
    AsyncSession.step defaultEntries u (.peekCompletion ret) = some u := by
  refine AsyncSession.call_eq_some.mpr ⟨h.life, u.ctx, ?_, rfl⟩
  by_cases hret : ret < 0
  · simp [UringCtx.step, h.idle, UringCtx.State.peekCompletion, hret]
  · simp [UringCtx.step, h.idle, UringCtx.State.peekCompletion, hnone (Int.not_lt.mp hret)]

theorem Linked.step_wait (h : Linked fd s u) {d : UringCtx.CtxSqe × ℤ}
    {ds : List (UringCtx.CtxSqe × ℤ)} (hds : u.ctx.ring.completed = d :: ds) {ret : ℤ}
    (hret : 0 ≤ ret) : AsyncSession.step defaultEntries u (.waitCompletion ret) =
      some { u with ctx := u.ctx.hand d ds } := by
  refine AsyncSession.call_eq_some.mpr ⟨h.life, u.ctx.hand d ds, ?_, rfl⟩
  simp [UringCtx.step, h.idle, UringCtx.State.waitCompletion, hds, Int.not_lt.mpr hret]

theorem Linked.step_wait_fails (h : Linked fd s u) {ret : ℤ} (hret : ret < 0) :
    AsyncSession.step defaultEntries u (.waitCompletion ret) = some u := by
  refine AsyncSession.call_eq_some.mpr ⟨h.life, u.ctx, ?_, rfl⟩
  simp [UringCtx.step, h.idle, UringCtx.State.waitCompletion, hret]

/-- The next completion is taken out of the ring on both levels. -/
theorem Linked.hand (h : Linked fd s u) {c : ℕ × ℤ} (hc : s.ua.head = some c) :
    ∃ d ds, u.ctx.ring.completed = d :: ds ∧ ∀ t : State, t.ua.closed = false →
      t.ua.ctxOpen = true → t.ua.posted = s.ua.posted → t.ua.reaped = s.ua.reaped + 1 →
      t.ud = s.ud → t.queued = s.queued → t.inflight = s.inflight →
      Linked fd t { u with ctx := u.ctx.hand d ds } := by
  have hdrop : s.ua.posted.drop s.ua.reaped = c :: s.ua.posted.drop (s.ua.reaped + 1) := by
    obtain ⟨hlt, rfl⟩ := List.getElem?_eq_some_iff.mp hc
    exact List.drop_eq_getElem_cons hlt
  have hcompleted := h.completed
  rw [hdrop] at hcompleted
  cases hds : u.ctx.ring.completed with
  | nil =>
    rw [hds] at hcompleted
    cases hcompleted
  | cons d ds =>
    rw [hds] at hcompleted
    have hrest := (List.forall₂_cons.mp hcompleted).2
    refine ⟨d, ds, rfl, ?_⟩
    intro t hclosed hopen hposted hreaped hud hqueued hinflight
    refine ⟨h.recorded.step (h.step_peek hds (le_refl 0)), h.life, h.idle, hclosed, hopen, ?_,
      hud ▸ h.known, h.tags,
      hqueued ▸ h.queued, hinflight ▸ h.outstanding, ?_⟩
    · obtain ⟨hlt, -⟩ := List.getElem?_eq_some_iff.mp hc
      rw [hposted, hreaped]
      exact hlt
    · rw [hposted, hreaped]
      exact hrest

theorem peekCalls_nil {w : ℕ} {ws : List ℕ} {peeks : Option ℕ} (hzero : peeks ≠ some 0) :
    peekCalls (w :: ws) peeks [] = [.peekCompletion 0] := by
  match peeks, hzero with
  | none, _ => rfl
  | some 0, hzero => exact absurd rfl hzero
  | some (_ + 1), _ => rfl

theorem peekCalls_cons {w : ℕ} {ws : List ℕ} {peeks : Option ℕ} {c : ℕ × ℤ} {cs : List (ℕ × ℤ)}
    (hzero : peeks ≠ some 0) : peekCalls (w :: ws) peeks (c :: cs) =
      .peekCompletion 0 :: peekCalls ws (peeks.map Nat.pred) cs := by
  match peeks, hzero with
  | none, _ => rfl
  | some 0, hzero => exact absurd rfl hzero
  | some (_ + 1), _ => rfl

/-- `_deliver_peek_chain`, call by call. -/
theorem Linked.chain (hud : s.ud ≤ 2 ^ 63) : ∀ (ws : List ℕ) (peeks : Option ℕ)
    {ua : UringAsync.State (ℕ × ℤ)} {u : Session}, Linked fd { s with ua := ua } u →
    ∃ v, exec (AsyncSession.step defaultEntries) u
        (peekCalls ws peeks (ua.posted.drop ua.reaped)) = some v ∧
      Linked fd { s with ua := (ua.deliverPeekChain ws peeks).2 } v ∧
      Meets (AsyncSession.step defaultEntries) (AsyncSession.Safe defaultEntries) u
        (peekCalls ws peeks (ua.posted.drop ua.reaped))
  | [], _, _, u, h => ⟨u, rfl, h, trivial⟩
  | w :: ws, peeks, ua, u, h => by
    by_cases hzero : peeks = some 0
    · subst hzero
      refine ⟨u, ?_, h, ?_, fun _ _ => trivial⟩
      · simp only [peekCalls, exec_cons, exec_nil,
          h.step_peek_none (-1) (by omega), Option.bind_some]
      · intro hret
        exact absurd hret (by decide)
    have hchain : UringAsync.State.deliverPeekChain (w :: ws) peeks ua = _ :=
      UringAsync.deliverPeekChain_cons hzero ua
    cases hhead : ua.head with
    | none =>
      have hnil : ua.posted.drop ua.reaped = [] :=
        List.drop_eq_nil_iff.mpr (List.getElem?_eq_none_iff.mp hhead)
      have hempty : u.ctx.ring.completed = [] := by
        have hcompleted := h.completed
        simp only [hnil, List.forall₂_nil_left_iff] at hcompleted
        exact hcompleted
      rw [hchain, hhead, hnil, peekCalls_nil hzero]
      refine ⟨u, ?_, h, fun _ => h.harmless hud, fun _ _ => trivial⟩
      simp only [exec_cons, exec_nil, h.step_peek_none _ fun _ => hempty, Option.bind_some]
    | some c =>
      have hdrop : ua.posted.drop ua.reaped = c :: ua.posted.drop (ua.reaped + 1) := by
        obtain ⟨hlt, rfl⟩ := List.getElem?_eq_some_iff.mp hhead
        exact List.drop_eq_getElem_cons hlt
      obtain ⟨d, ds, hds, hnext⟩ := h.hand hhead
      have hlinked : Linked fd { s with ua := ua.deliver w ws c }
          { u with ctx := u.ctx.hand d ds } :=
        hnext _ h.closed h.ctxOpen rfl rfl rfl rfl rfl
      obtain ⟨v, hv, hlast, hmeets⟩ := Linked.chain hud ws (peeks.map Nat.pred) hlinked
      have hstep := h.step_peek hds (le_refl 0)
      rw [hchain, hhead, hdrop, peekCalls_cons hzero]
      refine ⟨v, ?_, hlast, fun _ => h.harmless hud, ?_⟩
      · rw [exec_cons, hstep]
        exact hv
      · intro x hx
        rw [← Option.some.inj (hstep.symm.trans hx)]
        exact hmeets

/-- `_on_readable`, call by call. -/
theorem Linked.onReadable (h : Linked fd s u) (hud : s.ud ≤ 2 ^ 63) {waitRet : ℤ}
    {peeks : Option ℕ} {ua : UringAsync.State (ℕ × ℤ)}
    (ht : s.ua.onReadable waitRet peeks = some ua) :
    ∃ v, exec (AsyncSession.step defaultEntries) u (readerCalls waitRet peeks s.ua) = some v ∧
      Linked fd { s with ua := ua } v ∧
      Meets (AsyncSession.step defaultEntries) (AsyncSession.Safe defaultEntries) u
        (readerCalls waitRet peeks s.ua) := by
  unfold UringAsync.State.onReadable at ht
  unfold readerCalls
  simp only [UringAsync.ensureCtxOpen_removeReader, h.ensureCtxOpen,
    UringAsync.waiters_removeReader, UringAsync.head_removeReader] at ht ⊢
  cases hws : s.ua.waiters with
  | nil =>
    simp only [hws, Option.some.injEq] at ht
    subst ht
    exact ⟨u, rfl, h.congr (by simp) (by simp) (by simp) (by simp) rfl rfl rfl, trivial⟩
  | cons w ws =>
    simp only [hws] at ht ⊢
    by_cases hret : waitRet < 0
    · rw [if_pos hret, Option.some.injEq] at ht
      subst ht
      rw [if_pos hret]
      refine ⟨u, ?_, ?_, fun hle => absurd hret (Int.not_lt.mpr hle), fun _ _ => trivial⟩
      · simp only [exec_cons, exec_nil, h.step_wait_fails hret, Option.bind_some]
      · exact h.congr (by simp [UringAsync.State.failAll, UringAsync.State.settleAll])
          (by simp [UringAsync.State.failAll, UringAsync.State.settleAll])
          (by simp [UringAsync.State.failAll, UringAsync.State.settleAll])
          (by simp [UringAsync.State.failAll, UringAsync.State.settleAll]) rfl rfl rfl
    rw [if_neg hret] at ht ⊢
    cases hhead : s.ua.head with
    | none =>
      rw [hhead] at ht
      exact absurd ht (by simp)
    | some c =>
      simp only [hhead] at ht
      obtain ⟨d, ds, hds, hnext⟩ := h.hand hhead
      have hlinked : Linked fd { s with ua := s.ua.removeReader.deliver w ws c }
          { u with ctx := u.ctx.hand d ds } :=
        hnext _ (by simpa [UringAsync.State.deliver] using h.closed)
          (by simpa [UringAsync.State.deliver] using h.ctxOpen)
          (by simp [UringAsync.State.deliver]) (by simp [UringAsync.State.deliver]) rfl rfl rfl
      obtain ⟨v, hv, hlast, hmeets⟩ := Linked.chain hud ws peeks hlinked
      have hleft : (s.ua.removeReader.deliver w ws c).posted.drop
          (s.ua.removeReader.deliver w ws c).reaped = s.ua.posted.drop (s.ua.reaped + 1) := by
        simp [UringAsync.State.deliver]
      rw [hleft] at hv hmeets
      have hstep := h.step_wait hds (Int.not_lt.mp hret)
      have hend : Linked fd { s with ua := ua } v := by
        cases hd : (s.ua.removeReader.deliver w ws c).deliverPeekChain ws peeks with
        | mk b x =>
          rw [hd] at ht hlast
          cases b with
          | true =>
            rw [← Option.some.inj ht]
            exact hlast.congr (by simp) (by simp) (by simp) (by simp) rfl rfl rfl
          | false =>
            rw [← Option.some.inj ht]
            exact hlast
      refine ⟨v, ?_, hend, fun _ => h.harmless hud, ?_⟩
      · rw [exec_cons, hstep]
        exact hv
      · intro x hx
        rw [← Option.some.inj (hstep.symm.trans hx)]
        exact hmeets

/-! ## A submission -/

theorem posted_waitCompletion (ua : UringAsync.State (ℕ × ℤ)) :
    ua.waitCompletion.posted = ua.posted ∧ ua.waitCompletion.reaped = ua.reaped ∧
      ua.waitCompletion.closed = ua.closed ∧ ua.waitCompletion.ctxOpen = ua.ctxOpen := by
  unfold UringAsync.State.waitCompletion
  split <;> simp

/-- What a submission leaves of the queues of the file. -/
theorem submit_queues (t : ℕ) (io : Io) (submitRet : ℤ) (s : State) :
    (s.submit t io submitRet).ud = s.ud + 1 ∧ (s.submit t io submitRet).uring = s.uring ∧
      (s.submit t io submitRet).ua.closed = s.ua.closed ∧
      (s.submit t io submitRet).ua.ctxOpen = s.ua.ctxOpen ∧
      (s.submit t io submitRet).ua.posted = s.ua.posted ∧
      (s.submit t io submitRet).ua.reaped = s.ua.reaped ∧
      (64 ≤ s.queued.length → (s.submit t io submitRet).queued = s.queued ∧
        (s.submit t io submitRet).inflight = s.inflight) ∧
      (s.queued.length < 64 → submitRet < 0 →
        (s.submit t io submitRet).queued = s.queued ++ [⟨s.ud, io.reqOp, s.pos⟩] ∧
        (s.submit t io submitRet).inflight = s.inflight) ∧
      (s.queued.length < 64 → 0 ≤ submitRet →
        (s.submit t io submitRet).queued = [] ∧ (s.submit t io submitRet).inflight =
          s.inflight ++ (s.queued ++ [⟨s.ud, io.reqOp, s.pos⟩])) := by
  obtain ⟨hposted, hreaped, hclosed, hopen⟩ := posted_waitCompletion s.ua
  unfold State.submit
  simp only
  split
  · next hfull =>
    exact ⟨rfl, rfl, rfl, rfl, rfl, rfl, fun _ => ⟨rfl, rfl⟩,
      fun hroom => absurd hroom (Nat.not_lt.mpr hfull),
      fun hroom => absurd hroom (Nat.not_lt.mpr hfull)⟩
  next hroom =>
  split
  · next hneg =>
    exact ⟨rfl, rfl, rfl, rfl, rfl, rfl, fun hfull => absurd hfull hroom,
      fun _ _ => ⟨rfl, rfl⟩, fun _ hret => absurd hneg (Int.not_lt.mpr hret)⟩
  next hret =>
  have hrest : ∀ P : Prop, (64 ≤ s.queued.length → P) ∧
      (s.queued.length < 64 → submitRet < 0 → P) :=
    fun P => ⟨fun hfull => absurd hfull hroom, fun _ hneg => absurd hneg hret⟩
  split
  · exact ⟨rfl, rfl, hclosed, hopen, hposted, hreaped, (hrest _).1, (hrest _).2,
      fun _ _ => ⟨rfl, rfl⟩⟩
  · exact ⟨rfl, rfl, hclosed, hopen, hposted, hreaped, (hrest _).1, (hrest _).2,
      fun _ _ => ⟨rfl, rfl⟩⟩

/-- The entry of a new request. -/
theorem entered_new (fd : ℤ) (io : Io) (s : State) (u : Session) (rs : List AsyncSession.Request) :
    Entered fd (⟨u.ctx.serial, (s.ud : ℤ), true⟩ :: rs) ⟨s.ud, io.reqOp, s.pos⟩
      (u.ctx.asyncEntry (io.submission fd s.pos s.ud).op (io.submission fd s.pos s.ud).posts
        (io.submission fd s.pos s.ud).userData) :=
  ⟨prep_submission fd io s.pos s.ud, List.mem_cons_self⟩

/-- A tag that was not used before is not that of a pin. -/
theorem Linked.lookup_eq_none (h : Linked fd s u) :
    u.ctx.asyncIoKeepalive.lookup (s.ud : ℤ) = none := by
  refine List.lookup_eq_none_iff.mpr ?_
  intro p hp
  obtain ⟨r, hr, -, htag⟩ := h.recorded.pins p hp
  obtain ⟨-, ud, hlt, hud⟩ := h.known r hr
  have hne : (s.ud : ℤ) ≠ p.1 := by omega
  simpa using hne

theorem Linked.tags_cons (h : Linked fd s u) (serial : ℕ) :
    (((⟨serial, (s.ud : ℤ), true⟩ : AsyncSession.Request) :: u.requests).map
      fun r => r.userData).Nodup := by
  refine List.nodup_cons.mpr ⟨?_, h.tags⟩
  intro hmem
  obtain ⟨r, hr, heq⟩ := List.mem_map.mp hmem
  obtain ⟨-, ud, hlt, hud⟩ := h.known r hr
  simp only at heq
  omega

theorem Linked.known_cons (h : Linked fd s u) (serial : ℕ) :
    ∀ r ∈ (⟨serial, (s.ud : ℤ), true⟩ : AsyncSession.Request) :: u.requests,
      r.tracked = true ∧ ∃ ud < s.ud + 1, r.userData = (ud : ℤ) := by
  intro r hr
  rcases List.mem_cons.mp hr with rfl | hr
  · exact ⟨rfl, s.ud, Nat.lt_succ_self _, rfl⟩
  · obtain ⟨htracked, ud, hlt, hud⟩ := h.known r hr
    exact ⟨htracked, ud, Nat.lt_succ_of_lt hlt, hud⟩

/-- The same completions, posted to a reader that is as open. -/
def SameReader (s t : State) : Prop :=
  t.ua.closed = s.ua.closed ∧ t.ua.ctxOpen = s.ua.ctxOpen ∧ t.ua.posted = s.ua.posted ∧
    t.ua.reaped = s.ua.reaped

theorem request_of_room (io : Io) (s : State)
    (hroom : u.ctx.ring.queued.length < defaultEntries.sqEntries) :
    u.request defaultEntries (io.submission fd s.pos s.ud) ++ u.requests =
      ⟨u.ctx.serial, (s.ud : ℤ), true⟩ :: u.requests := by
  rw [AsyncSession.Session.request, if_pos hroom, userData_submission, tracked_submission]
  rfl

/-- A request for which an entry was taken. -/
theorem Linked.extend (h : Linked fd s u) (hsame : SameReader s t) (hud : t.ud = s.ud + 1)
    {ctx : UringCtx.State}
    (hrec : Recorded ⟨ctx, ⟨u.ctx.serial, (s.ud : ℤ), true⟩ :: u.requests, u.life⟩)
    (hidle : ctx.call = none)
    (hqueued : List.Forall₂ (Entered fd (⟨u.ctx.serial, (s.ud : ℤ), true⟩ :: u.requests)) t.queued
      ctx.ring.queued)
    (houtstanding : List.Forall₂ (Entered fd (⟨u.ctx.serial, (s.ud : ℤ), true⟩ :: u.requests))
      t.inflight ctx.ring.outstanding)
    (hcompleted : ctx.ring.completed = u.ctx.ring.completed) :
    Linked fd t ⟨ctx, ⟨u.ctx.serial, (s.ud : ℤ), true⟩ :: u.requests, u.life⟩ := by
  obtain ⟨hclosed, hopen, hposted, hreaped⟩ := hsame
  refine ⟨hrec, h.life, hidle, hclosed.trans h.closed, hopen.trans h.ctxOpen, ?_,
    hud ▸ h.known_cons _, h.tags_cons _, hqueued, houtstanding, ?_⟩
  · rw [hposted, hreaped]
    exact h.reaped
  · rw [hposted, hreaped, hcompleted]
    exact h.completed.imp fun _ _ hc => hc.mono (List.subset_cons_self _ _)

/-- A submission, on both levels. -/
theorem Linked.submit (h : Linked fd s u) (hud : s.ud < 2 ^ 63) (t : ℕ) (io : Io)
    (submitRet : ℤ) :
    ∃ v, AsyncSession.step defaultEntries u (.submit (io.submission fd s.pos s.ud) submitRet) =
      some v ∧ Linked fd (s.submit t io submitRet) v := by
  have hlen : u.ctx.ring.queued.length = s.queued.length := h.queued.length_eq.symm
  obtain ⟨hud', -, hclosed, hopen, hposted, hreaped, hfull, hfails, haccepted⟩ :=
    submit_queues t io submitRet s
  have hsub := @UringCtx.submits defaultEntries u.ctx (io.submission fd s.pos s.ud).op
    (io.submission fd s.pos s.ud).posts
    (io.submission fd s.pos s.ud).userData (io.submission fd s.pos s.ud).tracked submitRet
  generalize hctx : u.ctx.submitAsync defaultEntries (io.submission fd s.pos s.ud).op
    (io.submission fd s.pos s.ud).posts (io.submission fd s.pos s.ud).userData
    (io.submission fd s.pos s.ud).tracked submitRet = ctx at hsub
  have hstep : AsyncSession.step defaultEntries u
      (.submit (io.submission fd s.pos s.ud) submitRet) =
      some ⟨ctx, u.request defaultEntries (io.submission fd s.pos s.ud) ++ u.requests, u.life⟩ := by
    simp only [AsyncSession.step, AsyncSession.Session.call, h.life, if_true, UringCtx.step,
      Submission.event, h.idle, hctx, Option.map_some]
  have hrec := h.recorded.step hstep
  refine ⟨_, hstep, ?_⟩
  have hsigned : 0 ≤ UringCtx.signedTag (s.ud : ℤ) := by
    rw [← not_lt, AsyncSession.signedTag_neg_iff]
    omega
  have hentry := entered_new fd io s u u.requests
  have hmono : u.requests ⊆ ⟨u.ctx.serial, (s.ud : ℤ), true⟩ :: u.requests :=
    List.subset_cons_self _ _
  have hqueue := h.queued.imp fun _ _ hq => hq.mono hmono
  have hflight := h.outstanding.imp fun _ _ hq => hq.mono hmono
  have hsame : SameReader s (s.submit t io submitRet) := ⟨hclosed, hopen, hposted, hreaped⟩
  cases hsub with
  | full hge =>
    have hnone : u.request defaultEntries (io.submission fd s.pos s.ud) = [] :=
      if_neg (Nat.not_lt.mpr hge)
    obtain ⟨hq, hi⟩ := hfull (hlen ▸ hge)
    rw [hnone, List.nil_append] at hrec ⊢
    refine ⟨hrec, h.life, h.idle, hclosed.trans h.closed, hopen.trans h.ctxOpen, ?_, ?_, h.tags,
      hq ▸ h.queued, hi ▸ h.outstanding, ?_⟩
    · rw [hposted, hreaped]
      exact h.reaped
    · intro r hr
      obtain ⟨htracked, ud, hlt, hr⟩ := h.known r hr
      exact ⟨htracked, ud, by omega, hr⟩
    · rw [hposted, hreaped]
      exact h.completed
  | fails hroom hret =>
    obtain ⟨hq, hi⟩ := hfails (hlen ▸ hroom) hret
    rw [request_of_room io s hroom] at hrec ⊢
    refine h.extend hsame hud' hrec h.idle ?_ ?_ rfl
    · rw [hq]
      exact List.rel_append hqueue (.cons hentry .nil)
    · rw [hi]
      exact hflight
  | negative _ _ hneg =>
    rw [userData_submission] at hneg
    exact absurd hsigned (Int.not_le.mpr hneg)
  | clash _ _ _ _ hpinned =>
    rw [userData_submission, h.lookup_eq_none] at hpinned
    exact absurd hpinned (by simp)
  | pins hroom hret =>
    obtain ⟨hq, hi⟩ := haccepted (hlen ▸ hroom) hret
    rw [request_of_room io s hroom] at hrec ⊢
    refine h.extend hsame hud' hrec h.idle ?_ ?_ rfl
    · rw [hq]
      exact .nil
    · rw [hi]
      exact List.rel_append hflight (List.rel_append hqueue (.cons hentry .nil))
  | plain _ _ _ hfalse =>
    rw [tracked_submission] at hfalse
    exact absurd hfalse (by simp)

/-- A submission is safe exactly when it is tidy: its own tag is new. -/
theorem Linked.safe_submit_iff (h : Linked fd s u) (hud : s.ud < 2 ^ 63) (io : Io)
    (submitRet : ℤ) :
    AsyncSession.Safe defaultEntries u (.submit (io.submission fd s.pos s.ud) submitRet) ↔
      (s.queued.length < 64 → 0 ≤ submitRet → s.queued = []) := by
  have hlen : u.ctx.ring.queued.length = s.queued.length := h.queued.length_eq.symm
  constructor
  · intro hsafe hroom hret
    obtain ⟨hleft, -⟩ := hsafe (hlen ▸ hroom) hret
    cases hq : u.ctx.ring.queued with
    | nil => exact List.length_eq_zero_iff.mp (by rw [← hlen, hq]; rfl)
    | cons q qs =>
      have hall := h.queued
      rw [hq] at hall
      cases hs : s.queued with
      | nil => rfl
      | cons req reqs =>
        rw [hs] at hall
        have hmem := (List.forall₂_cons.mp hall).1.2
        exact absurd rfl (hleft q (by rw [hq]; exact List.mem_cons_self) _ hmem rfl)
  · intro htidy hroom hret
    have hempty := htidy (hlen ▸ hroom) hret
    have hnone : u.ctx.ring.queued = [] := by
      rw [hempty, List.length_nil] at hlen
      exact List.length_eq_zero_iff.mp hlen
    refine ⟨by simp [hnone], fun _ => ⟨?_, ?_⟩⟩
    · rw [userData_submission]
      omega
    · rw [userData_submission]
      exact h.lookup_eq_none

/-- Closing the context is safe exactly when the ring is empty. -/
theorem Linked.safe_close_iff (h : Linked fd s u) :
    AsyncSession.Safe defaultEntries u .close ↔
      s.inflight = [] ∧ s.ua.posted.drop s.ua.reaped = [] := by
  constructor
  · intro hsafe
    have houtstanding := h.outstanding
    have hcompleted := h.completed
    constructor
    · cases hs : s.inflight with
      | nil => rfl
      | cons req reqs =>
        rw [hs] at houtstanding
        obtain ⟨q, qs, hentered, -, hq⟩ := List.forall₂_cons_left_iff.mp houtstanding
        exact absurd (Or.inl ⟨q, by rw [hq]; exact List.mem_cons_self, rfl⟩)
          (hsafe _ hentered.2 rfl)
    · cases hs : s.ua.posted.drop s.ua.reaped with
      | nil => rfl
      | cons c cs =>
        rw [hs] at hcompleted
        obtain ⟨d, ds, hreported, -, hd⟩ := List.forall₂_cons_left_iff.mp hcompleted
        exact absurd (Or.inr ⟨d, by rw [hd]; exact List.mem_cons_self, rfl⟩)
          (hsafe _ hreported.2.2 rfl)
  · rintro ⟨hinflight, hring⟩ r _ _ hin
    have houtstanding := h.outstanding
    have hcompleted := h.completed
    rw [hinflight, List.forall₂_nil_left_iff] at houtstanding
    rw [hring, List.forall₂_nil_left_iff] at hcompleted
    rcases hin with ⟨q, hq, -⟩ | ⟨d, hd, -⟩
    · rw [houtstanding] at hq
      exact absurd hq List.not_mem_nil
    · rw [hcompleted] at hd
      exact absurd hd List.not_mem_nil

/-! ## The steps -/

/-- The step of the file and its calls: they can be made, they lead to states that agree,
and they are safe exactly when the step is tidy. -/
def Follows (fd : ℤ) (s : State) (e : Event) (t : State) (u : Session) : Prop :=
  ∃ v, exec (AsyncSession.step defaultEntries) u (nativeCalls fd s e) = some v ∧
    Stacked fd t v ∧
    (Meets (AsyncSession.step defaultEntries) (AsyncSession.Safe defaultEntries) u
      (nativeCalls fd s e) ↔ Tidy fd s e)

/-- A step that makes no call. -/
theorem follows_of_nil (hcalls : nativeCalls fd s e = []) (h : Stacked fd t u) :
    Follows fd s e t u := by
  refine ⟨u, by rw [hcalls]; rfl, h, ?_⟩
  rw [hcalls]
  refine iff_of_true trivial ?_
  intro a ha
  rw [hcalls] at ha
  exact absurd ha List.not_mem_nil

/-- A step that leaves the ring and the reader as they are, and gives no call a completion to
wait for. -/
theorem Stacked.frame (h : Stacked fd s u) (hledger : Ledger t) (huring : t.uring = s.uring)
    (hsame : SameReader s t) (hud : t.ud = s.ud) (hqueued : t.queued = s.queued)
    (hinflight : t.inflight = s.inflight)
    (htask : ∀ v io req w, t.task v = .awaiting io req w → s.task v = .awaiting io req w) :
    Stacked fd t u where
  ledger := hledger
  linked hon := (h.linked (huring ▸ hon)).congr hsame.1 hsame.2.1 hsame.2.2.1 hsame.2.2.2 hud
    hqueued hinflight
  gone hoff := by
    obtain ⟨hlife, hopen, hnone⟩ := h.gone (huring ▸ hoff)
    exact ⟨hlife, hsame.2.1.trans hopen,
      fun v io req w hv => hnone v io req w (htask v io req w hv)⟩

theorem sameReader_of_eq (h : t.ua = s.ua) : SameReader s t := by
  unfold SameReader
  rw [h]
  exact ⟨rfl, rfl, rfl, rfl⟩

/-- A call that goes on to something else than a completion. -/
theorem awaiting_of_update {task : ℕ → Task} {x : Task} {w : ℕ}
    (hx : ∀ io req w, x ≠ .awaiting io req w) {v : ℕ} {io : Io} {req : Request} {w' : ℕ}
    (h : Function.update task w x v = .awaiting io req w') : task v = .awaiting io req w' := by
  by_cases hv : v = w
  · rw [hv, Function.update_self] at h
    exact absurd h (hx io req w')
  · rw [Function.update_of_ne hv] at h
    exact h

theorem Stacked.finish (h : Stacked fd s u) (t : ℕ) (o : Outcome)
    (hledger : Ledger (s.finish t o)) : Stacked fd (s.finish t o) u :=
  h.frame hledger rfl ⟨rfl, rfl, rfl, rfl⟩ rfl rfl rfl fun _ _ _ _ hv =>
    awaiting_of_update (by simp) hv

theorem Stacked.setTask (h : Stacked fd s u) (t : ℕ) {x : Task}
    (hx : ∀ io req w, x ≠ .awaiting io req w) (hledger : Ledger (s.setTask t x)) :
    Stacked fd (s.setTask t x) u :=
  h.frame hledger rfl ⟨rfl, rfl, rfl, rfl⟩ rfl rfl rfl fun _ _ _ _ hv => awaiting_of_update hx hv

theorem Stacked.call (h : Stacked fd s u) (op : Op) : Stacked fd (s.call op) u := by
  have hledger := h.ledger.call op
  unfold State.call at hledger ⊢
  simp only at hledger ⊢
  split at hledger
  · exact h.frame hledger rfl ⟨rfl, rfl, rfl, rfl⟩ rfl rfl rfl fun _ _ _ _ hv =>
      awaiting_of_update (by simp) hv
  · exact h.frame hledger rfl ⟨rfl, rfl, rfl, rfl⟩ rfl rfl rfl fun _ _ _ _ hv =>
      awaiting_of_update (by simp) hv

/-- The next request of a call that holds the lock. -/
theorem Linked.follows_submit (h : Linked fd s u) (huring : s.uring = true) {w : ℕ} {io : Io}
    {submitRet : ℤ} (hledger : Ledger (s.submit w io submitRet))
    (hud : (s.submit w io submitRet).ud ≤ 2 ^ 63) {s₀ : State} {e : Event}
    (hcalls : nativeCalls fd s₀ e = [.submit (io.submission fd s.pos s.ud) submitRet])
    (hqueued : s₀.queued = s.queued) : Follows fd s₀ e (s.submit w io submitRet) u := by
  obtain ⟨hud', huring', -⟩ := submit_queues w io submitRet s
  have hlt : s.ud < 2 ^ 63 := by omega
  obtain ⟨v, hv, hlinked⟩ := h.submit hlt w io submitRet
  refine ⟨v, ?_, ⟨hledger, fun _ => hlinked, fun hoff => ?_⟩, ?_⟩
  · rw [hcalls, exec_cons, hv]
    rfl
  · rw [huring', huring] at hoff
    exact absurd hoff (by simp)
  · rw [hcalls, meets_singleton, h.safe_submit_iff hlt, Tidy, hcalls, hqueued]
    simp only [List.mem_singleton, forall_eq]

/-- The state after a call took the lock and made no call of the context. -/
structure Offline (s t : State) (w : ℕ) : Prop where
  uring : t.uring = s.uring
  ua : t.ua = s.ua
  ud : t.ud = s.ud
  queued : t.queued = s.queued
  inflight : t.inflight = s.inflight
  task : ∃ x, (∀ io req w, x ≠ .awaiting io req w) ∧ t.task = Function.update s.task w x

theorem offline_finish (w : ℕ) (o : Outcome) (s : State) : Offline s (s.finish w o) w :=
  ⟨rfl, rfl, rfl, rfl, rfl, .done o, by simp, rfl⟩

theorem offline_inExecutor (w : ℕ) (s : State) : Offline s (s.setTask w .inExecutor) w :=
  ⟨rfl, rfl, rfl, rfl, rfl, .inExecutor, by simp, rfl⟩

theorem Stacked.offline (h : Stacked fd s u) {w : ℕ} (hledger : Ledger t) (ht : Offline s t w) :
    Stacked fd t u := by
  obtain ⟨x, hx, htask⟩ := ht.task
  exact h.frame hledger ht.uring (sameReader_of_eq ht.ua) ht.ud ht.queued ht.inflight
    fun _ _ _ _ hv => awaiting_of_update hx (htask ▸ hv)

/-- What a call does once it has the lock: it submits a request, closes the file and the
context, or makes no call of the context. -/
theorem locked_forms (fd : ℤ) (w : ℕ) (submitRet : ℤ) (s : State) :
    (∃ io, s.uring = true ∧ s.locked w submitRet = s.submit w io submitRet ∧
      s.lockedCalls fd w submitRet = [.submit (io.submission fd s.pos s.ud) submitRet]) ∨
    (s.uring = true ∧ (s.locked w submitRet).uring = false ∧
      (s.locked w submitRet).ua.ctxOpen = false ∧
      (∃ x, (∀ io req w, x ≠ .awaiting io req w) ∧
        (s.locked w submitRet).task = Function.update s.task w x) ∧
      s.lockedCalls fd w submitRet = [.close, .destroy]) ∨
    (Offline s (s.locked w submitRet) w ∧ s.lockedCalls fd w submitRet = []) := by
  by_cases hclose : s.op w = .aclose
  · have hlocked : s.locked w submitRet = s.acloseUnlocked w := by
      simp only [State.locked, hclose]
    rw [hlocked, State.lockedCalls, if_pos hclose, State.acloseUnlocked]
    cases hclosed : s.closed with
    | true => exact Or.inr (Or.inr ⟨offline_finish w _ s, rfl⟩)
    | false =>
      cases huring : s.uring with
      | true =>
        refine Or.inr (Or.inl ⟨rfl, ?_, ?_, ?_, rfl⟩)
        · simp only [Bool.false_eq_true, if_false, if_true]
          split <;> rfl
        · simp only [Bool.false_eq_true, if_false, if_true]
          split <;> rfl
        · simp only [Bool.false_eq_true, if_false, if_true]
          split
          · exact ⟨.inExecutor, by simp, rfl⟩
          · exact ⟨.done .none, by simp, rfl⟩
      | false =>
        refine Or.inr (Or.inr ⟨?_, rfl⟩)
        simp only [Bool.false_eq_true, if_false]
        split
        · exact ⟨huring.symm, rfl, rfl, rfl, rfl, .inExecutor, by simp, rfl⟩
        · exact ⟨huring.symm, rfl, rfl, rfl, rfl, .done .none, by simp, rfl⟩
  · rw [State.lockedCalls, if_neg hclose]
    cases hfp : s.fp with
    | some p =>
      refine Or.inr (Or.inr ⟨?_, rfl⟩)
      have hlocked : s.locked w submitRet = s.setTask w .inExecutor := by
        cases hop : s.op w <;> simp_all [State.locked]
      rw [hlocked]
      exact offline_inExecutor w s
    | none =>
      cases huring : s.uring with
      | false =>
        refine Or.inr (Or.inr ⟨?_, rfl⟩)
        have hlocked : s.locked w submitRet = s.finish w (.error .assertionError) := by
          cases hop : s.op w <;> simp_all [State.locked]
        rw [hlocked]
        exact offline_finish w _ s
      | true =>
        rcases locked_cases huring hfp hclose submitRet with ⟨hop, heq⟩ | ⟨io, hio, heq⟩
        · refine Or.inr (Or.inr ⟨?_, ?_⟩)
          · rw [heq]
            exact offline_finish w _ s
          · rw [hop]
            rfl
        · refine Or.inl ⟨io, rfl, heq, ?_⟩
          rw [hio]
          rfl

/-- The file is closed, and its context with it. -/
theorem Linked.follows_close (h : Linked fd s u) {e : Event} (hledger : Ledger t)
    (huring : t.uring = false) (hopen : t.ua.ctxOpen = false)
    (htask : ∀ v io req w, t.task v ≠ .awaiting io req w)
    (hcalls : nativeCalls fd s e = [.close, .destroy]) : Follows fd s e t u := by
  have hclose : AsyncSession.step defaultEntries u .close = some { u with
      ctx := { u.ctx with asyncIoKeepalive := [] }, life := .closing } :=
    if_pos ⟨h.life, h.idle⟩
  refine ⟨{ u with ctx := { u.ctx with asyncIoKeepalive := [] }, life := .destroyed }, ?_,
    ⟨hledger, fun hon => ?_, fun _ => ⟨rfl, hopen, htask⟩⟩, ?_⟩
  · rw [hcalls, exec_cons, hclose]
    rfl
  · rw [huring] at hon
    exact absurd hon (by simp)
  · rw [hcalls, Tidy, hcalls]
    simp only [List.mem_cons, List.not_mem_nil, or_false, forall_eq_or_imp, forall_eq, and_true]
    rw [← h.safe_close_iff]
    exact ⟨fun hmeets => hmeets.1, fun hsafe => ⟨hsafe, fun _ _ => ⟨trivial, fun _ _ => trivial⟩⟩⟩

/-- A call takes the lock. -/
theorem Stacked.acquire (h : Stacked fd s u) {w : ℕ} {submitRet : ℤ} (hud : t.ud ≤ 2 ^ 63)
    (ht : s.acquire w submitRet = some t) : Follows fd s (.acquire w submitRet) t u := by
  have hledger := h.ledger.acquire ht
  obtain ⟨hwait, hfree, rfl⟩ := acquire_cases ht
  rcases locked_forms fd w submitRet { s with lock := some w, log := .locked w :: s.log } with
    ⟨io, huring, heq, hcalls⟩ | ⟨huring, hoff, hopen, ⟨x, hx, htask⟩, hcalls⟩ | ⟨hoff, hcalls⟩
  · rw [heq] at hledger hud ⊢
    have hlinked := (h.linked huring).congr
      (t := { s with lock := some w, log := .locked w :: s.log }) rfl rfl rfl rfl rfl rfl rfl
    exact hlinked.follows_submit huring hledger hud hcalls rfl
  · refine (h.linked huring).follows_close hledger hoff hopen ?_ hcalls
    intro v io req w' hv
    rw [htask] at hv
    exact h.ledger.not_running hfree v (by rw [awaiting_of_update hx hv]; rfl)
  · refine follows_of_nil hcalls (h.offline (w := w) hledger ?_)
    exact ⟨hoff.uring, hoff.ua, hoff.ud, hoff.queued, hoff.inflight, hoff.task⟩

/-- A task that runs again leaves the ring to the reader. -/
theorem frame_resume {ua ua' : UringAsync.State (ℕ × ℤ)} {x : ℕ} (h : ua.resume x = some ua') :
    ua'.closed = ua.closed ∧ ua'.ctxOpen = ua.ctxOpen ∧ ua'.posted = ua.posted ∧
      ua'.reaped = ua.reaped := by
  have hcancelled : ∀ v : UringAsync.State (ℕ × ℤ), v = ua.onCancelled x →
      v.closed = ua.closed ∧ v.ctxOpen = ua.ctxOpen ∧ v.posted = ua.posted ∧
        v.reaped = ua.reaped := by
    rintro v rfl
    unfold UringAsync.State.onCancelled
    simp only
    split <;> simp
  unfold UringAsync.State.resume at h
  split at h
  · rw [← Option.some.inj h]
    exact ⟨rfl, rfl, rfl, rfl⟩
  · rw [← Option.some.inj h]
    exact ⟨rfl, rfl, rfl, rfl⟩
  · exact hcancelled _ (Option.some.inj h).symm
  · exact hcancelled _ (Option.some.inj h).symm
  · exact hcancelled _ (Option.some.inj h).symm
  · exact absurd h (by simp)
  · exact absurd h (by simp)
  · exact absurd h (by simp)
  · exact absurd h (by simp)

theorem frame_cancel {ua ua' : UringAsync.State (ℕ × ℤ)} {x : ℕ} (h : ua.cancel x = some ua') :
    ua'.closed = ua.closed ∧ ua'.ctxOpen = ua.ctxOpen ∧ ua'.posted = ua.posted ∧
      ua'.reaped = ua.reaped := by
  unfold UringAsync.State.cancel at h
  split at h
  · rw [← Option.some.inj h]
    exact ⟨rfl, rfl, rfl, rfl⟩
  · rw [← Option.some.inj h]
    exact ⟨rfl, rfl, rfl, rfl⟩
  · exact absurd h (by simp)
  · exact absurd h (by simp)
  · exact absurd h (by simp)

/-- A task that runs again returns the result of its future, or raises. -/
theorem resume_ends {ua ua' : UringAsync.State (ℕ × ℤ)} {x : ℕ} (h : ua.resume x = some ua') :
    (∃ n c, ua.call x = .awaiting (.result n c) false ∧ ua'.call x = .returned n c) ∨
      (∀ n c, ua.call x ≠ .awaiting (.result n c) false) ∧
        ((∃ exc, ua'.call x = .raised exc) ∨ ua'.call x = .cancelled) := by
  have hcancelled : ∀ v : UringAsync.State (ℕ × ℤ), some (ua.onCancelled x) = some v →
      v.call x = .cancelled := by
    intro v hv
    rw [← Option.some.inj hv, UringAsync.call_onCancelled]
    exact Function.update_self _ _ _
  unfold UringAsync.State.resume at h
  split at h
  · next n c hc =>
    rw [← Option.some.inj h]
    exact Or.inl ⟨n, c, hc, Function.update_self _ _ _⟩
  · next exc hc =>
    rw [← Option.some.inj h, hc]
    exact Or.inr ⟨by simp, Or.inl ⟨exc, Function.update_self _ _ _⟩⟩
  · next hc => exact Or.inr ⟨by simp [hc], Or.inr (hcancelled _ h)⟩
  · next hc => exact Or.inr ⟨by simp [hc], Or.inr (hcancelled _ h)⟩
  · next hc => exact Or.inr ⟨by simp [hc], Or.inr (hcancelled _ h)⟩
  · exact absurd h (by simp)
  · exact absurd h (by simp)
  · exact absurd h (by simp)
  · exact absurd h (by simp)

theorem noCalls_of_ne {call : UringAsync.Call (ℕ × ℤ)}
    (h : ∀ n gotUd res, call ≠ .awaiting (.result n (gotUd, res)) false)
    {f : ℕ → ℤ → List Action} : (match call with
      | .awaiting (.result _ (gotUd, res)) false => f gotUd res
      | _ => []) = [] := by
  split
  · exact absurd rfl (h _ _ _)
  · rfl

/-- A call that runs again was handed a completion, or returns with no call of the context. -/
theorem resume_forms (fd : ℤ) {w : ℕ} {submitRet : ℤ} (ht : s.resume w submitRet = some t) :
    ∃ ua : UringAsync.State (ℕ × ℤ), SameReader s { s with ua := ua } ∧
      ((∃ io req x gotUd res, s.task w = .awaiting io req x ∧
        t = ({ s with ua := ua } : State).onCompletion w io req gotUd res submitRet ∧
        s.resumeCalls fd w submitRet = s.completionCalls fd io req gotUd res submitRet) ∨
      ((∃ o, t = ({ s with ua := ua } : State).finish w o) ∧
        s.resumeCalls fd w submitRet = [])) := by
  unfold State.resume at ht
  unfold State.resumeCalls
  split at ht
  · next io req x hw =>
    obtain ⟨ua, hua, rfl⟩ := Option.map_eq_some_iff.mp ht
    refine ⟨ua, frame_resume hua, ?_⟩
    rcases resume_ends hua with ⟨n, ⟨gotUd, res⟩, hc, hret⟩ | ⟨hne, ⟨exc, hraise⟩ | hcancel⟩
    · simp only [hret]
      exact Or.inl ⟨io, req, x, gotUd, res, hw, rfl, by simp only [hw, hc]⟩
    · simp only [hraise]
      refine Or.inr ⟨⟨_, rfl⟩, ?_⟩
      rw [hw]
      exact noCalls_of_ne fun n gotUd res => hne n (gotUd, res)
    · simp only [hcancel]
      refine Or.inr ⟨⟨_, rfl⟩, ?_⟩
      rw [hw]
      exact noCalls_of_ne fun n gotUd res => hne n (gotUd, res)
  · next o hw =>
    obtain rfl := Option.some.inj ht
    exact ⟨s.ua, ⟨rfl, rfl, rfl, rfl⟩, Or.inr ⟨⟨o, rfl⟩, by rw [hw]⟩⟩
  · exact absurd ht (by simp)

/-- A call goes on with its completion. -/
theorem Stacked.resume (h : Stacked fd s u) {w : ℕ} {submitRet : ℤ} (hud : t.ud ≤ 2 ^ 63)
    (ht : s.resume w submitRet = some t) : Follows fd s (.resume w submitRet) t u := by
  have hledger := h.ledger.resume ht
  obtain ⟨ua, hsame, ⟨io, req, x, gotUd, res, hw, rfl, hcalls⟩ | ⟨⟨o, rfl⟩, hcalls⟩⟩ :=
    resume_forms fd ht
  · have hfinish : ∀ (t' : State) (o : Outcome), SameReader s t' → t'.uring = s.uring →
        t'.ud = s.ud → t'.queued = s.queued → t'.inflight = s.inflight → t'.task = s.task →
        Ledger (t'.finish w o) → s.completionCalls fd io req gotUd res submitRet = [] →
        Follows fd s (.resume w submitRet) (t'.finish w o) u := by
      intro t' o hsame huring hud hqueued hinflight htask hledger hnone
      refine follows_of_nil (hcalls.trans hnone)
        (h.frame hledger huring hsame hud hqueued hinflight fun _ _ _ _ hv => ?_)
      rw [← htask]
      exact awaiting_of_update (x := .done o) (by simp) hv
    have huring : s.uring = true := by
      cases hs : s.uring with
      | true => rfl
      | false => exact absurd hw ((h.gone hs).2.2 w io req x)
    unfold State.onCompletion at hledger hud ⊢
    simp only at hledger hud ⊢
    unfold State.completionCalls at hcalls hfinish
    split at hledger
    · next hne =>
      rw [if_pos hne]
      exact hfinish _ _ hsame rfl rfl rfl rfl rfl hledger (if_pos (Or.inl hne))
    next heq =>
    rw [if_neg heq] at hud ⊢
    split at hledger
    · next hneg =>
      rw [if_pos hneg]
      exact hfinish _ _ hsame rfl rfl rfl rfl rfl hledger (if_pos (Or.inr hneg))
    next hneg =>
    rw [if_neg hneg] at hud ⊢
    rw [if_neg (not_or.mpr ⟨heq, hneg⟩)] at hcalls hfinish
    cases io with
    | read loop =>
      simp only at hledger hud hcalls hfinish ⊢
      cases hfeed : loop.feed ((s.buf req.ud).take res.toNat) with
      | inl loop' =>
        simp only [hfeed] at hledger hud hcalls ⊢
        have hlinked := (h.linked huring).congr (t := { s with
          ua := ua, log := .got w req gotUd res :: s.log, pos := s.pos + res.toNat })
          hsame.1 hsame.2.1 hsame.2.2.1 hsame.2.2.2 rfl rfl rfl
        exact hlinked.follows_submit huring hledger hud hcalls rfl
      | inr out =>
        simp only [hfeed] at hledger hfinish ⊢
        exact hfinish _ _ hsame rfl rfl rfl rfl rfl hledger trivial
    | write data => exact hfinish _ _ hsame rfl rfl rfl rfl rfl hledger rfl
  · refine follows_of_nil hcalls (h.frame hledger rfl hsame rfl rfl rfl fun _ _ _ _ hv => ?_)
    exact awaiting_of_update (by simp) hv

theorem readerCalls_of_closed {waitRet : ℤ} {peeks : Option ℕ} {ua : UringAsync.State (ℕ × ℤ)}
    (h : ua.ctxOpen = false) : readerCalls waitRet peeks ua = [] := by
  unfold readerCalls
  split
  · rfl
  · next hok =>
    unfold UringAsync.State.ensureCtxOpen at hok
    cases hclosed : ua.closed <;> simp [hclosed, h] at hok

theorem mem_peekCalls {a : Action} : ∀ {ws : List ℕ} {peeks : Option ℕ} {cs : List (ℕ × ℤ)},
    a ∈ peekCalls ws peeks cs → ∃ ret, a = .peekCompletion ret
  | [], _, _, h => absurd h List.not_mem_nil
  | w :: ws, peeks, cs, h => by
    by_cases hzero : peeks = some 0
    · subst hzero
      exact ⟨_, List.mem_singleton.mp h⟩
    cases cs with
    | nil =>
      rw [peekCalls_nil hzero] at h
      exact ⟨_, List.mem_singleton.mp h⟩
    | cons c cs =>
      rw [peekCalls_cons hzero] at h
      rcases List.mem_cons.mp h with rfl | h
      · exact ⟨_, rfl⟩
      · exact mem_peekCalls h

theorem mem_readerCalls {a : Action} {waitRet : ℤ} {peeks : Option ℕ}
    {ua : UringAsync.State (ℕ × ℤ)} (ha : a ∈ readerCalls waitRet peeks ua) :
    (∃ ret, a = .waitCompletion ret) ∨ ∃ ret, a = .peekCompletion ret := by
  unfold readerCalls at ha
  split at ha
  · exact absurd ha List.not_mem_nil
  · split at ha
    · exact absurd ha List.not_mem_nil
    · rcases List.mem_cons.mp ha with rfl | ha
      · exact Or.inl ⟨_, rfl⟩
      · split at ha
        · exact absurd ha List.not_mem_nil
        · exact Or.inr (mem_peekCalls ha)

/-- The reader submits nothing and closes nothing. -/
theorem tidy_onReadable (fd : ℤ) (s : State) (waitRet : ℤ) (peeks : Option ℕ) :
    Tidy fd s (.onReadable waitRet peeks) := by
  intro a ha
  rcases mem_readerCalls ha with ⟨ret, rfl⟩ | ⟨ret, rfl⟩ <;> trivial

/-- The kernel completes a request. -/
theorem Stacked.complete (h : Stacked fd s u) {i : ℕ} {res : ℤ}
    (ht : s.complete flags i res = some t) : Follows fd s (.complete i res) t u := by
  obtain ⟨req, file, data, hreq, -, rfl⟩ := complete_cases ht
  rcases s.uring.eq_false_or_eq_true with huring | huring
  swap
  · have hoff := h.gone huring
    refine follows_of_nil (if_neg (by simp [huring])) ⟨h.ledger.congr rfl, fun hon => ?_,
      fun _ => hoff⟩
    exact absurd (huring.symm.trans hon) (by simp)
  · have hl := h.linked huring
    have hcalls : nativeCalls fd s (.complete i res) = [.complete i res false] := if_pos huring
    obtain ⟨hi, hget⟩ := List.getElem?_eq_some_iff.mp hreq
    have hlen := hl.outstanding.length_eq
    have hentered : Entered fd u.requests req u.ctx.ring.outstanding[i] := by
      rw [← hget]
      exact hl.outstanding.get hi (hlen ▸ hi)
    obtain ⟨hprep, hmem⟩ := hentered
    have hstep : AsyncSession.step defaultEntries u (.complete i res false) = some { u with
        ctx := { u.ctx with
          ring := { u.ctx.ring with
            outstanding := u.ctx.ring.outstanding.eraseIdx i
            completed := u.ctx.ring.completed ++ [(u.ctx.ring.outstanding[i], res)] }
          log := .posted u.ctx.ring.outstanding[i] res :: u.ctx.log } } := by
      have hposts : u.ctx.ring.outstanding[i].posts = .one := by rw [hprep, posts_prep]
      have hsome : u.ctx.ring.outstanding[i]? = some u.ctx.ring.outstanding[i] :=
        List.getElem?_eq_getElem (hlen ▸ hi)
      simp [AsyncSession.step, hl.life, UringCtx.State.complete, hsome, hposts, Posts.allows,
        CompletionRing.complete]
    have hreaped := hl.reaped
    refine ⟨_, by rw [hcalls, exec_cons, hstep]; rfl, ⟨h.ledger.congr rfl, fun _ => ?_, ?_⟩, ?_⟩
    · refine ⟨hl.recorded.step hstep, hl.life, hl.idle, hl.closed, hl.ctxOpen, ?_, hl.known,
        hl.tags, hl.queued, ?_, ?_⟩
      · change s.ua.reaped ≤ (s.ua.posted ++ [(req.ud, res)]).length
        rw [List.length_append]
        omega
      · change List.Forall₂ _ (s.inflight.eraseIdx i) (u.ctx.ring.outstanding.eraseIdx i)
        rw [List.eraseIdx_eq_take_drop_succ, List.eraseIdx_eq_take_drop_succ]
        exact List.rel_append (List.forall₂_take i hl.outstanding)
          (List.forall₂_drop (i + 1) hl.outstanding)
      · change List.Forall₂ _ ((s.ua.posted ++ [(req.ud, res)]).drop s.ua.reaped) _
        rw [List.drop_append_of_le_length hreaped]
        refine List.rel_append hl.completed (.cons ⟨?_, rfl, hmem⟩ .nil)
        rw [hprep, userData_prep]
    · intro hoff
      exact absurd (huring.symm.trans hoff) (by simp)
    · rw [hcalls, meets_singleton, Tidy, hcalls]
      simp [AsyncSession.Safe]

/-- **Each step of the file is made of steps of its context.** -/
theorem Stacked.step (h : Stacked fd s u) (hud : t.ud ≤ 2 ^ 63) (ht : step flags s e = some t) :
    Follows fd s e t u := by
  cases e with
  | call op =>
    rw [← Option.some.inj ht]
    exact follows_of_nil rfl (h.call op)
  | acquire w submitRet => exact h.acquire hud ht
  | complete i res => exact h.complete ht
  | onReadable waitRet peeks =>
    obtain ⟨ua, hua, rfl⟩ := Option.map_eq_some_iff.mp ht
    obtain ⟨-, hua⟩ := Option.ite_none_right_eq_some.mp hua
    rcases s.uring.eq_false_or_eq_true with huring | huring
    · obtain ⟨v, hv, hlinked, hmeets⟩ := (h.linked huring).onReadable hud hua
      refine ⟨v, hv, ⟨h.ledger.congr rfl, fun _ => hlinked, fun hoff => ?_⟩,
        iff_of_true hmeets (tidy_onReadable fd s waitRet peeks)⟩
      exact absurd (huring.symm.trans hoff) (by simp)
    · obtain ⟨hlife, hopen, hnone⟩ := h.gone huring
      refine follows_of_nil (readerCalls_of_closed hopen) ⟨h.ledger.congr rfl, fun hon => ?_,
        fun _ => ⟨hlife, (UringAsync.sameOpen_onReadable hua).2.trans hopen, hnone⟩⟩
      exact absurd (huring.symm.trans hon) (by simp)
  | runJob w most =>
    have hledger := h.ledger.runJob ht
    obtain ⟨-, file, fp, o, -, -, rfl⟩ := runJob_cases ht
    exact follows_of_nil rfl (h.frame hledger rfl ⟨rfl, rfl, rfl, rfl⟩ rfl rfl rfl
      fun _ _ _ _ hv => awaiting_of_update (by simp) hv)
  | resume w submitRet => exact h.resume hud ht
  | cancel w =>
    have hledger := ledger_step h.ledger ht
    rcases cancel_cases ht with ⟨-, rfl⟩ | ⟨io, req, x, ua, -, hua, rfl⟩
    · exact follows_of_nil rfl (h.frame hledger rfl ⟨rfl, rfl, rfl, rfl⟩ rfl rfl rfl
        fun _ _ _ _ hv => awaiting_of_update (by simp) hv)
    · exact follows_of_nil rfl (h.frame hledger rfl (frame_cancel hua) rfl rfl rfl
        fun _ _ _ _ hv => hv)

/-! ## Whole runs -/

theorem ud_submit (t : ℕ) (io : Io) (submitRet : ℤ) (s : State) :
    s.ud ≤ (s.submit t io submitRet).ud :=
  (submit_queues t io submitRet s).1 ▸ Nat.le_succ _

theorem ud_locked (t : ℕ) (submitRet : ℤ) (s : State) : s.ud ≤ (s.locked t submitRet).ud := by
  rcases locked_forms 0 t submitRet s with ⟨io, -, heq, -⟩ | ⟨-, -, -, -, hcalls⟩ | ⟨hoff, -⟩
  · rw [heq]
    exact ud_submit t io submitRet s
  · have hclose : s.op t = .aclose := by
      by_contra hop
      rw [State.lockedCalls, if_neg hop] at hcalls
      split at hcalls
      · exact absurd hcalls (by simp)
      · split at hcalls <;> exact absurd hcalls (by simp)
    simp only [State.locked, hclose, State.acloseUnlocked]
    split
    · exact Nat.le_refl _
    · split <;> split <;> exact Nat.le_refl _
  · exact hoff.ud.ge

/-- Tags go up. -/
theorem ud_step (ht : step flags s e = some t) : s.ud ≤ t.ud := by
  cases e with
  | call op =>
    rw [← Option.some.inj ht]
    unfold State.call
    simp only
    split <;> exact Nat.le_refl _
  | acquire w submitRet =>
    obtain ⟨-, -, rfl⟩ := acquire_cases ht
    exact ud_locked w submitRet { s with lock := some w, log := .locked w :: s.log }
  | complete i res =>
    obtain ⟨req, file, data, -, -, rfl⟩ := complete_cases ht
    exact Nat.le_refl _
  | onReadable waitRet peeks =>
    obtain ⟨ua, -, rfl⟩ := Option.map_eq_some_iff.mp ht
    exact Nat.le_refl _
  | runJob w most =>
    obtain ⟨-, file, fp, o, -, -, rfl⟩ := runJob_cases ht
    exact Nat.le_refl _
  | resume w submitRet =>
    obtain ⟨ua, -, ⟨io, req, x, gotUd, res, -, rfl, -⟩ | ⟨⟨o, rfl⟩, -⟩⟩ := resume_forms 0 ht
    · unfold State.onCompletion
      simp only
      split
      · exact Nat.le_refl _
      · split
        · exact Nat.le_refl _
        · split
          · split
            · next loop _ => exact ud_submit w (.read loop) submitRet { s with
                ua := ua, log := .got w req gotUd res :: s.log, pos := s.pos + res.toNat }
            · exact Nat.le_refl _
          · exact Nat.le_refl _
    · exact Nat.le_refl _
  | cancel w =>
    rcases cancel_cases ht with ⟨-, rfl⟩ | ⟨io, req, x, ua, -, -, rfl⟩
    · exact Nat.le_refl _
    · exact Nat.le_refl _

theorem stacked_aenter (flags : Flags) (fd : ℤ) (content : List UInt8) :
    Stacked fd (aenter flags true content) AsyncSession.init where
  ledger := ledger_aenter flags true content
  linked _ := ⟨AsyncSession.recorded_init, rfl, rfl, rfl, rfl, Nat.le_refl _,
    fun r hr => absurd hr List.not_mem_nil, List.nodup_nil, .nil, .nil, .nil⟩
  gone h := absurd h (by simp [aenter])

/-- The last tag of a run bounds the tags of all its states. -/
theorem meets_ud {es : List Event} (h : exec (step flags) s es = some t) (hud : t.ud ≤ 2 ^ 63) :
    Meets (step flags) (fun s e => ∀ t, step flags s e = some t → t.ud ≤ 2 ^ 63) s es :=
  (meets_of_end (C := fun s => s.ud ≤ 2 ^ 63) (fun _ _ _ ht hle => (ud_step ht).trans hle) h hud).2

/-- **A file is a client of its context**: the calls of `UringCtx` in a run of a file are a run
of the context, and at its end the queues of the two agree, entry by entry and completion by
completion, up to the tag 2^63. -/
theorem session_of_run (flags : Flags) (fd : ℤ) (content : List UInt8) (es : List Event) (t : State)
    (h : exec (step flags) (aenter flags true content) es = some t) (hud : t.ud ≤ 2 ^ 63) :
    ∃ u, exec (AsyncSession.step defaultEntries) AsyncSession.init
        (nativeRun flags fd (aenter flags true content) es) = some u ∧ Stacked fd t u := by
  refine exec_expand (R := Stacked fd) ?_ (stacked_aenter flags fd content) (meets_ud h hud) h
  intro s e t u hs hC ht
  obtain ⟨v, hv, hstacked, -⟩ := hs.step (hC t ht) ht
  exact ⟨v, hv, hstacked⟩

/-- A slice is read on the ring and its completion handed to the call. -/
theorem session_of_run_read : ∃ t, exec (step ⟨true, false, false, false, false⟩)
      (aenter ⟨true, false, false, false, false⟩ true [1, 2, 3])
      [.call (.read 2), .acquire 0 1, .complete 0 2, .onReadable 1 none, .resume 0 1] = some t ∧
    ∃ u, exec (AsyncSession.step defaultEntries) AsyncSession.init
      (nativeRun ⟨true, false, false, false, false⟩ 3
        (aenter ⟨true, false, false, false, false⟩ true [1, 2, 3])
        [.call (.read 2), .acquire 0 1, .complete 0 2, .onReadable 1 none, .resume 0 1]) =
      some u ∧ Stacked 3 t u :=
  ⟨_, rfl, session_of_run ⟨true, false, false, false, false⟩ 3 [1, 2, 3] _ _ rfl (by decide)⟩

/-- A file makes no call of the context that waits for its own request. -/
theorem ofSync_nativeCalls {a : Action} (ha : a ∈ nativeCalls fd s e) : a.ofSync = false := by
  cases e with
  | call op => exact absurd ha List.not_mem_nil
  | acquire w submitRet =>
    change a ∈ s.lockedCalls fd w submitRet at ha
    rcases locked_forms fd w submitRet s with
      ⟨io, -, -, hcalls⟩ | ⟨-, -, -, -, hcalls⟩ | ⟨-, hcalls⟩
    · rw [hcalls, List.mem_singleton] at ha
      rw [ha]
      rfl
    · rw [hcalls, List.mem_cons, List.mem_singleton] at ha
      rcases ha with rfl | rfl <;> rfl
    · rw [hcalls] at ha
      exact absurd ha List.not_mem_nil
  | complete i res =>
    change a ∈ (if s.uring then [.complete i res false] else []) at ha
    split at ha
    · rw [List.mem_singleton.mp ha]
      rfl
    · exact absurd ha List.not_mem_nil
  | onReadable waitRet peeks =>
    rcases mem_readerCalls ha with ⟨ret, rfl⟩ | ⟨ret, rfl⟩ <;> rfl
  | runJob w most => exact absurd ha List.not_mem_nil
  | resume w submitRet =>
    change a ∈ s.resumeCalls fd w submitRet at ha
    have hsubmit : ∀ io req gotUd res, a ∈ s.completionCalls fd io req gotUd res submitRet →
        a.ofSync = false := by
      intro io req gotUd res hmem
      unfold State.completionCalls at hmem
      split at hmem
      · exact absurd hmem List.not_mem_nil
      · split at hmem
        · split at hmem
          · rw [List.mem_singleton.mp hmem]
            rfl
          · exact absurd hmem List.not_mem_nil
        · exact absurd hmem List.not_mem_nil
    unfold State.resumeCalls at ha
    split at ha
    · split at ha
      · exact hsubmit _ _ _ _ ha
      · exact absurd ha List.not_mem_nil
    · exact absurd ha List.not_mem_nil
  | cancel w => exact absurd ha List.not_mem_nil

/-- **Exactly when a file keeps its buffers**: in every run, the buffers of all requests in
flight are pinned at every moment before the context is destroyed, if and only if every step
is tidy. -/
theorem pinned_iff_tidy (flags : Flags) (fd : ℤ) (content : List UInt8) (es : List Event)
    (t : State) (h : exec (step flags) (aenter flags true content) es = some t)
    (hud : t.ud ≤ 2 ^ 63) :
    Always (AsyncSession.step defaultEntries) AsyncSession.Pinned AsyncSession.init
        (nativeRun flags fd (aenter flags true content) es) ↔
      Meets (step flags) (Tidy fd) (aenter flags true content) es := by
  have hruns : ∀ s e t u, Stacked fd s u → (∀ t, step flags s e = some t → t.ud ≤ 2 ^ 63) →
      step flags s e = some t → Follows fd s e t u := fun s e t u hs hC ht => hs.step (hC t ht) ht
  obtain ⟨u, hu, -⟩ := exec_expand (R := Stacked fd)
    (fun s e t u hs hC ht => (hruns s e t u hs hC ht).imp fun _ hv => ⟨hv.1, hv.2.1⟩)
    (stacked_aenter flags fd content) (meets_ud h hud) h
  -- below, one unsafe call and no other leaves a buffer without its pin
  have hbelow := always_iff_meets (I := fun u => AsyncSession.Orderly u ∧ AsyncSession.Pinned u)
    (A := fun a => a.ofSync = false) (fun _ hI => hI.2)
    (fun u a v hI ha hv => (em (AsyncSession.Safe defaultEntries u a)).imp
      (fun hsafe =>
        ⟨hsafe, hI.1.step ha hv, (AsyncSession.pinned_step_iff hI.1 hI.2 ha hv).mpr hsafe⟩)
      fun hsafe => ⟨hsafe, fun hp => hsafe ((AsyncSession.pinned_step_iff hI.1 hI.2 ha hv).mp hp)⟩)
    ⟨AsyncSession.orderly_init, by simp [AsyncSession.Pinned, AsyncSession.init]⟩
    (fun a ha => by
      obtain ⟨s, e, ha⟩ := mem_expand ha
      exact ofSync_nativeCalls ha) hu
  refine hbelow.trans
    (meets_expand_iff (R := Stacked fd) ?_ ?_ (stacked_aenter flags fd content) (meets_ud h hud) h)
  · exact fun s e t u hs hC ht => (hruns s e t u hs hC ht).imp fun _ hv => ⟨hv.1, hv.2.1⟩
  · intro s e t u hs hC ht
    obtain ⟨v, -, -, hiff⟩ := hruns s e t u hs hC ht
    exact hiff
/-- A read fails to submit and leaves its entry in the queue, and the next read hands it over
with its own. -/
theorem pinned_iff_tidy_leftover : ∃ t, exec (step ⟨true, false, false, false, false⟩)
      (aenter ⟨true, false, false, false, false⟩ true [1, 2, 3])
      [.call (.read 2), .acquire 0 (-11), .call (.read 2), .acquire 1 2] = some t ∧
    t.inflight = [⟨1, .read 2, 0⟩, ⟨2, .read 2, 0⟩] ∧
    (Always (AsyncSession.step defaultEntries) AsyncSession.Pinned AsyncSession.init
        (nativeRun ⟨true, false, false, false, false⟩ 3
          (aenter ⟨true, false, false, false, false⟩ true [1, 2, 3])
          [.call (.read 2), .acquire 0 (-11), .call (.read 2), .acquire 1 2]) ↔
      Meets (step ⟨true, false, false, false, false⟩) (Tidy 3)
        (aenter ⟨true, false, false, false, false⟩ true [1, 2, 3])
        [.call (.read 2), .acquire 0 (-11), .call (.read 2), .acquire 1 2]) :=
  ⟨_, rfl, rfl, pinned_iff_tidy ⟨true, false, false, false, false⟩ 3 [1, 2, 3] _ _ rfl (by decide)⟩

end AsyncFile
end Pyuring
