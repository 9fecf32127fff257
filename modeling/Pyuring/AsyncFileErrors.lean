import Pyuring.AsyncFileEof
import Mathlib.Data.List.Perm.Basic

/-!
# Errors and the cursor

Between the calls of a file that is only read, the bytes returned so far end at the
position, unless a call has lost some: one that has read a slice moves the position, and
when it raises after that, what it has read is gone and the position stays where it is.

Nothing else loses bytes.  A request that could not be submitted stays in the queue and
goes out with the next one, so calls can be handed completions that are not theirs for the
rest of the run.  They raise then, but by the tags of the requests (`Sound.tags`) a call
takes for its own only what the kernel has read for it at the position.
-/

namespace Pyuring
namespace AsyncFile

open Trace

/-- What a loop has read so far. -/
def ReadLoop.soFar : ReadLoop → List UInt8
  | .untilEof chunks => chunks
  | .upTo out _ => out

def Task.soFar : Task → List UInt8
  | .awaiting (.read loop) _ _ => loop.soFar
  | _ => []

def Outcome.data : Outcome → List UInt8
  | .bytes data => data
  | _ => []

namespace State

/-- What the call past the lock has read so far. -/
def soFar (s : State) : List UInt8 :=
  match s.lock with
  | some u => (s.task u).soFar
  | none => []

/-- The bytes returned by the calls that succeeded, one call after the other. -/
def delivered (s : State) : List UInt8 := s.returns.flatMap fun r => r.2.data

/-- The tags of the requests that are not answered, and of the completions. -/
def tags (s : State) : List ℕ :=
  (s.queued ++ s.inflight).map Request.ud ++ s.ua.posted.map Prod.fst

end State

/-- The bytes returned by the calls that succeeded are the bytes of the file from `start`
on; and between the calls the position is right behind them, so that a call that raised has
not moved it. -/
structure Lossless (content : List UInt8) (start : ℕ) (s : State) : Prop where
  run : s.delivered <+: content.drop start
  cursor : s.lock = none → s.pos = start + s.delivered.length

/-- The answer makes the call raise: an error, or the completion of another request. -/
def Refuses (req : Request) : UringAsync.Call (ℕ × ℤ) → Prop
  | .awaiting (.result _ (gotUd, res)) false => gotUd ≠ req.ud ∨ res < 0
  | .awaiting (.result _ _) true => True
  | .awaiting .pending _ => False
  | .awaiting (.exception _) _ => True
  | .awaiting .cancelled _ => True
  | .returned _ _ => False
  | .raised _ => False
  | .cancelled => False

/-- With this answer the call goes on, and its next slice cannot be submitted. -/
def Strands (s : State) (loop : ReadLoop) (req : Request) (submitRet : ℤ) :
    UringAsync.Call (ℕ × ℤ) → Prop
  | .awaiting (.result _ (gotUd, res)) false => gotUd = req.ud ∧ 0 ≤ res ∧
      (∃ loop', loop.feed ((s.buf req.ud).take res.toNat) = .inl loop') ∧
      (submitRet < 0 ∨ 64 ≤ s.queued.length)
  | .awaiting _ _ => False
  | .returned _ _ => False
  | .raised _ => False
  | .cancelled => False

/-- A call raises that has read bytes: it is handed an error after its first slice, or its
next slice cannot be submitted. -/
def RaisesLate (s : State) : Event → Prop
  | .resume u submitRet => ∃ loop req w, s.task u = .awaiting (.read loop) req w ∧
      (loop.soFar ≠ [] ∧ Refuses req (s.ua.call w) ∨
        Strands s loop req submitRet (s.ua.call w))
  | .call _ => False
  | .acquire _ _ => False
  | .complete _ _ => False
  | .onReadable _ _ => False
  | .runJob _ _ => False
  | .cancel _ => False

/-- All calls are reads. -/
def ReadsOnly : Event → Prop
  | .call op => ∃ n, op = .read n
  | .acquire _ _ => True
  | .complete _ _ => True
  | .onReadable _ _ => True
  | .runJob _ _ => True
  | .resume _ _ => True
  | .cancel _ => True

/-! ## What holds in every run of reads -/

/-- The file is open on the io_uring path and as it was, all calls and requests are reads,
and no tag is used twice. -/
structure Base (content : List UInt8) (s : State) : Prop where
  uring : s.uring = true
  fp : s.fp = none
  closed : s.closed = false
  file : s.file = content
  ops : ∀ u < s.calls, ∃ n, s.op u = .read n
  good : UringAsync.Good s.ua
  uaClosed : s.ua.closed = false
  ctxOpen : s.ua.ctxOpen = true
  reads : ∀ r ∈ s.queued ++ s.inflight, ∃ len, r.op = .read len
  nodup : s.tags.Nodup
  fresh : ∀ x ∈ s.tags, x < s.ud

/-- What `Base` reads of a state. -/
def State.grounds (s : State) :
    Bool × Option ℕ × Bool × List UInt8 × (ℕ → Op) × ℕ × UringAsync.State (ℕ × ℤ) ×
      List Request × List Request × ℕ :=
  (s.uring, s.fp, s.closed, s.file, s.op, s.calls, s.ua, s.queued, s.inflight, s.ud)

/-- The request of a call that waits is at the position, and what is posted for it was read
there. -/
structure Owned (content : List UInt8) (s : State) (req : Request) : Prop where
  off : req.off = s.pos
  used : req.ud < s.ud
  only : ∀ r ∈ s.queued ++ s.inflight, r.ud = req.ud → r = req
  truth : ∀ res, (req.ud, res) ∈ s.ua.posted → 0 ≤ res →
    res.toNat ≤ (content.drop req.off).length ∧
      (s.buf req.ud).take res.toNat = (content.drop req.off).take res.toNat

/-- What was returned, and then `got`, is what stands between `start` and the position. -/
structure Placed (content : List UInt8) (start : ℕ) (s : State) (got : List UInt8) : Prop where
  split : content.drop start = s.delivered ++ got ++ content.drop s.pos
  pos : s.pos = start + (s.delivered ++ got).length

/-- No byte has been lost. -/
structure Sound (content : List UInt8) (start : ℕ) (s : State) : Prop where
  ledger : Ledger s
  base : Base content s
  owner : ∀ u, (s.task u).isRunning = true →
    ∃ loop req w, s.task u = .awaiting (.read loop) req w ∧ Owned content s req
  placed : Placed content start s s.soFar

/-- Call `u` runs under the lock and has read `got`. -/
structure Past (content : List UInt8) (start : ℕ) (s : State) (u : ℕ) (got : List UInt8) :
    Prop where
  holding : Holding s u
  base : Base content s
  placed : Placed content start s got

variable {flags : Flags} {content got : List UInt8} {start : ℕ} {s t : State} {u most : ℕ}
  {e : Event}

theorem Base.congr (h : Base content s) (hgrounds : t.grounds = s.grounds) :
    Base content t := by
  obtain ⟨huring, hfp, hclosed, hfile, hop, hcalls, hua, hqueued, hinflight, hud⟩ :
      t.uring = s.uring ∧ t.fp = s.fp ∧ t.closed = s.closed ∧ t.file = s.file ∧ t.op = s.op ∧
        t.calls = s.calls ∧ t.ua = s.ua ∧ t.queued = s.queued ∧ t.inflight = s.inflight ∧
        t.ud = s.ud := by
    simpa only [State.grounds, Prod.mk.injEq] using hgrounds
  exact {
    uring := huring.trans h.uring
    fp := hfp.trans h.fp
    closed := hclosed.trans h.closed
    file := hfile.trans h.file
    ops := by rw [hop, hcalls]; exact h.ops
    good := hua ▸ h.good
    uaClosed := hua ▸ h.uaClosed
    ctxOpen := hua ▸ h.ctxOpen
    reads := by rw [hqueued, hinflight]; exact h.reads
    nodup := by rw [State.tags, hqueued, hinflight, hua]; exact h.nodup
    fresh := by rw [State.tags, hqueued, hinflight, hua, hud]; exact h.fresh }

theorem Placed.congr (h : Placed content start s got) (hreturns : t.returns = s.returns)
    (hpos : t.pos = s.pos) : Placed content start t got := by
  have hdelivered : t.delivered = s.delivered := by simp only [State.delivered, hreturns]
  exact ⟨by rw [hdelivered, hpos]; exact h.split, by rw [hdelivered, hpos]; exact h.pos⟩

theorem Past.congr (h : Past content start s u got) (hbase : Base content t)
    (hentries : t.entries = s.entries) (hpos : t.pos = s.pos) : Past content start t u got :=
  ⟨h.holding.congr hentries, hbase, h.placed.congr (entries_eq.mp hentries).2.2.2.2.1 hpos⟩

theorem soFar_of_lock (h : s.lock = some u) : s.soFar = (s.task u).soFar := by
  simp only [State.soFar, h]

theorem delivered_finish (u : ℕ) (o : Outcome) (s : State) :
    (s.finish u o).delivered = s.delivered ++ o.data := by
  simp only [State.delivered, returns_finish, List.flatMap_append, List.flatMap_cons,
    List.flatMap_nil, List.append_nil]

/-- The call past the lock returns what it has read, or what it has read is nothing. -/
theorem Past.finish (h : Past content start s u got) {o : Outcome} (hdata : o.data = got) :
    Sound content start (s.finish u o) where
  ledger := h.holding.finish o
  base := h.base.congr rfl
  owner v hv := absurd hv ((h.holding.finish o).not_running rfl v)
  placed := by
    have hdelivered := delivered_finish u o s
    rw [hdata] at hdelivered
    have hsoFar : (s.finish u o).soFar = [] := rfl
    refine ⟨?_, ?_⟩
    · rw [hdelivered, hsoFar, List.append_nil]
      exact h.placed.split
    · rw [hdelivered, hsoFar, List.append_nil]
      exact h.placed.pos

/-- A call that raises loses what it has read. -/
theorem Past.lost (h : Past content start s u got) {exc : Exn} (hgot : got ≠ []) :
    ¬ Lossless content start (s.finish u (.error exc)) := by
  intro hlossless
  have hcursor := hlossless.cursor rfl
  have hpos : s.pos = start + (s.delivered ++ got).length := h.placed.pos
  have hnone : (Outcome.error exc).data = [] := rfl
  rw [delivered_finish, hnone, List.append_nil] at hcursor
  have hlen : 0 < got.length := List.length_pos_iff.mpr hgot
  rw [List.length_append] at hpos
  have heq : s.pos = start + s.delivered.length := hcursor
  omega

theorem Sound.lossless (h : Sound content start s) : Lossless content start s where
  run := by
    refine ⟨s.soFar ++ content.drop s.pos, ?_⟩
    rw [← List.append_assoc]
    exact h.placed.split.symm
  cursor hfree := by
    have hsoFar : s.soFar = [] := by simp only [State.soFar, hfree]
    have hpos := h.placed.pos
    rw [hsoFar, List.append_nil] at hpos
    exact hpos

/-! ## Requests -/

/-- One more request, with the next tag. -/
theorem Base.request (h : Base content s) (req : Request) (hud : req.ud = s.ud)
    (hop : ∃ len, req.op = .read len) (huring : t.uring = s.uring) (hfp : t.fp = s.fp)
    (hclosed : t.closed = s.closed) (hfile : t.file = s.file) (hops : t.op = s.op)
    (hcalls : t.calls = s.calls) (hgood : UringAsync.Good t.ua)
    (hopen : UringAsync.SameOpen s.ua t.ua) (hposted : t.ua.posted = s.ua.posted)
    (hperm : (t.queued ++ t.inflight).Perm (req :: (s.queued ++ s.inflight)))
    (htud : t.ud = s.ud + 1) : Base content t := by
  have htags : t.tags.Perm (s.ud :: s.tags) := by
    have hmap := (hperm.map Request.ud).append_right (s.ua.posted.map Prod.fst)
    rw [List.map_cons, hud] at hmap
    rw [State.tags, hposted]
    exact hmap
  refine ⟨huring.trans h.uring, hfp.trans h.fp, hclosed.trans h.closed, hfile.trans h.file,
    by rw [hops, hcalls]; exact h.ops, hgood, hopen.1.trans h.uaClosed, hopen.2.trans h.ctxOpen,
    ?_, ?_, ?_⟩
  · intro r hr
    rcases List.mem_cons.mp (hperm.mem_iff.mp hr) with rfl | hr
    · exact hop
    · exact h.reads r hr
  · rw [htags.nodup_iff, List.nodup_cons]
    exact ⟨fun hmem => Nat.lt_irrefl _ (h.fresh _ hmem), h.nodup⟩
  · intro x hx
    rw [htud]
    rcases List.mem_cons.mp (htags.mem_iff.mp hx) with rfl | hx
    · exact Nat.lt_succ_self _
    · exact Nat.lt_succ_of_lt (h.fresh x hx)

theorem ud_mem_tags {r : Request} (h : r ∈ s.queued ++ s.inflight) : r.ud ∈ s.tags :=
  List.mem_append_left _ (List.mem_map_of_mem h)

theorem posted_mem_tags {c : ℕ × ℤ} (h : c ∈ s.ua.posted) : c.1 ∈ s.tags :=
  List.mem_append_right _ (List.mem_map_of_mem h)

/-- A tag is used up without a request. -/
theorem Base.skipTag (h : Base content s) (buf : ℕ → List UInt8) :
    Base content { s with ud := s.ud + 1, buf := buf } where
  uring := h.uring
  fp := h.fp
  closed := h.closed
  file := h.file
  ops := h.ops
  good := h.good
  uaClosed := h.uaClosed
  ctxOpen := h.ctxOpen
  reads := h.reads
  nodup := h.nodup
  fresh x hx := Nat.lt_succ_of_lt (h.fresh x hx)

/-- On an open reader a call of `wait_completion` waits. -/
theorem call_waitCompletion {ua : UringAsync.State (ℕ × ℤ)} (hclosed : ua.closed = false)
    (hctx : ua.ctxOpen = true) : ua.waitCompletion.call ua.calls = .awaiting .pending false := by
  unfold UringAsync.State.waitCompletion
  simp [UringAsync.State.ensureCtxOpen, hclosed, hctx]

/-- A step that loses bytes exactly when `P` holds. -/
def SoundUnless (content : List UInt8) (start : ℕ) (P : Prop) (t : State) : Prop :=
  ¬ P ∧ Sound content start t ∨ P ∧ ¬ Lossless content start t

theorem SoundUnless.congr {P Q : Prop} (h : SoundUnless content start P t) (hiff : Q ↔ P) :
    SoundUnless content start Q t := by
  unfold SoundUnless
  rw [hiff]
  exact h

/-- A call raises, and what it has read is lost with it. -/
theorem Past.raised (h : Past content start s u got) (exc : Exn) :
    SoundUnless content start (got ≠ []) (s.finish u (.error exc)) := by
  by_cases hgot : got = []
  · exact Or.inl ⟨not_not_intro hgot, h.finish hgot.symm⟩
  · exact Or.inr ⟨hgot, h.lost hgot⟩

/-- A slice that cannot be submitted. -/
theorem Past.submit_fails {loop : ReadLoop} (h : Past content start s u got) {submitRet : ℤ}
    (hfail : submitRet < 0 ∨ 64 ≤ s.queued.length) : ∃ v exc,
      s.submit u (.read loop) submitRet = v.finish u (.error exc) ∧
        Past content start v u got := by
  by_cases hfull : 64 ≤ s.queued.length
  · exact ⟨_, _, if_pos hfull, h.congr (h.base.skipTag _) rfl rfl⟩
  have hneg : submitRet < 0 := hfail.resolve_right hfull
  refine ⟨_, _, (if_neg hfull).trans (if_pos hneg), h.congr ?_ rfl rfl⟩
  refine h.base.request ⟨s.ud, (Io.read loop).reqOp, s.pos⟩ rfl ⟨_, rfl⟩ rfl rfl rfl rfl
    rfl rfl h.base.good ⟨rfl, rfl⟩ rfl ?_ rfl
  rw [List.append_assoc]
  exact List.perm_middle

/-- A slice goes out, with those before it that could not be submitted. -/
theorem Past.submits {loop : ReadLoop} (h : Past content start s u loop.soFar) {submitRet : ℤ}
    (hfail : ¬ (submitRet < 0 ∨ 64 ≤ s.queued.length)) :
    Sound content start (s.submit u (.read loop) submitRet) := by
  have hneg : ¬ submitRet < 0 := fun hneg => hfail (Or.inl hneg)
  have hfull : ¬ 64 ≤ s.queued.length := fun hfull => hfail (Or.inr hfull)
  have hstep : UringAsync.step s.ua .waitCompletion = some s.ua.waitCompletion := rfl
  have hposted := UringAsync.posted_step (by simp) hstep
  obtain ⟨v, hv⟩ : ∃ v : State, v = { s with
      ud := s.ud + 1
      buf := Function.update s.buf s.ud (Io.read loop).buffer
      queued := []
      inflight := s.inflight ++ (s.queued ++ [⟨s.ud, (Io.read loop).reqOp, s.pos⟩])
      ua := s.ua.waitCompletion
      log := .submitted u ⟨s.ud, (Io.read loop).reqOp, s.pos⟩ :: s.log } := ⟨_, rfl⟩
  have hsubmit : s.submit u (.read loop) submitRet =
      v.setTask u (.awaiting (.read loop) ⟨s.ud, (Io.read loop).reqOp, s.pos⟩ s.ua.calls) := by
    rw [hv]
    simp only [State.submit, if_neg hfull, if_neg hneg,
      call_waitCompletion h.base.uaClosed h.base.ctxOpen]
  have hperm : (v.queued ++ v.inflight).Perm
      (⟨s.ud, (Io.read loop).reqOp, s.pos⟩ :: (s.queued ++ s.inflight)) := by
    rw [hv]
    show (s.inflight ++ (s.queued ++ [_])).Perm _
    rw [← List.append_assoc]
    exact (List.perm_append_singleton _ _).trans (List.perm_append_comm.cons _)
  have hbase : Base content v := by
    rw [hv] at hperm ⊢
    exact h.base.request ⟨s.ud, (Io.read loop).reqOp, s.pos⟩ rfl ⟨_, rfl⟩ rfl rfl rfl rfl
      rfl rfl (UringAsync.advances_waitCompletion h.base.good).good
      (UringAsync.sameOpen_waitCompletion s.ua) hposted hperm rfl
  have hpast : Past content start v u loop.soFar := by
    refine h.congr hbase ?_ ?_
    · rw [hv]
      rfl
    · rw [hv]
  rw [hsubmit]
  refine ⟨hpast.holding.setTask rfl, hbase.congr rfl, ?_, ?_⟩
  · intro w hw
    have hlock := ((hpast.holding.setTask rfl).holder w).mp hw
    obtain rfl : u = w := Option.some.inj (hpast.holding.1.symm.trans hlock)
    refine ⟨loop, _, _, task_setTask_self _ _ _, ?_, ?_, ?_, ?_⟩
    · rw [hv]
      rfl
    · rw [hv]
      exact Nat.lt_succ_self _
    · intro r hr hud
      rcases List.mem_cons.mp (hperm.mem_iff.mp hr) with rfl | hr
      · rfl
      · exact absurd (h.base.fresh _ (ud_mem_tags hr)) (hud ▸ Nat.lt_irrefl _)
    · intro res hmem _
      have hold : (s.ud, res) ∈ s.ua.posted := by
        rw [← hposted]
        rw [hv] at hmem
        exact hmem
      exact absurd (h.base.fresh _ (posted_mem_tags hold)) (Nat.lt_irrefl _)
  · rw [soFar_of_lock (s := v.setTask u _) hpast.holding.1, task_setTask_self]
    exact hpast.placed.congr rfl rfl

/-- **The next slice of a call.**  Bytes are lost when it cannot be submitted and the call
has read some. -/
theorem Past.submit {loop : ReadLoop} (h : Past content start s u loop.soFar) (submitRet : ℤ) :
    SoundUnless content start ((submitRet < 0 ∨ 64 ≤ s.queued.length) ∧ loop.soFar ≠ [])
      (s.submit u (.read loop) submitRet) := by
  by_cases hfail : submitRet < 0 ∨ 64 ≤ s.queued.length
  · obtain ⟨v, exc, heq, hv⟩ := h.submit_fails hfail
    rw [heq]
    exact (hv.raised exc).congr (and_iff_right hfail)
  · exact Or.inl ⟨fun hand => hfail hand.1, h.submits hfail⟩

/-! ## Answers -/

/-- A loop keeps what it is fed, and goes on after some bytes only. -/
theorem ReadLoop.soFar_feed (loop : ReadLoop) (piece : List UInt8) :
    (∀ loop', loop.feed piece = .inl loop' → loop'.soFar = loop.soFar ++ piece ∧ piece ≠ []) ∧
    ∀ out, loop.feed piece = .inr out → out = loop.soFar ++ piece := by
  cases loop with
  | untilEof chunks =>
    simp only [ReadLoop.feed, ReadLoop.soFar]
    constructor
    · intro loop' h
      split_ifs at h with hnil
      rw [← Sum.inl.inj h]
      exact ⟨rfl, hnil⟩
    · intro out h
      split_ifs at h with hnil
      · rw [← Sum.inr.inj h, hnil, List.append_nil]
      · exact (Sum.inr.inj h).symm
  | upTo acc remaining =>
    simp only [ReadLoop.feed, ReadLoop.soFar]
    constructor
    · intro loop' h
      split_ifs at h with hnil
      rw [← Sum.inl.inj h]
      exact ⟨rfl, hnil⟩
    · intro out h
      split_ifs at h with hnil
      · rw [← Sum.inr.inj h, hnil, List.append_nil]
      · exact (Sum.inr.inj h).symm
      · exact (Sum.inr.inj h).symm

/-- The position moves behind the bytes that were read at it. -/
theorem Placed.advance (h : Placed content start s got) {n : ℕ}
    (hn : n ≤ (content.drop s.pos).length) (hreturns : t.returns = s.returns)
    (hpos : t.pos = s.pos + n) :
    Placed content start t (got ++ (content.drop s.pos).take n) := by
  have hdelivered : t.delivered = s.delivered := by simp only [State.delivered, hreturns]
  have hlen : ((content.drop s.pos).take n).length = n := by
    rw [List.length_take]
    exact Nat.min_eq_left hn
  refine ⟨?_, ?_⟩
  · rw [h.split, hdelivered, hpos, ← List.drop_drop]
    simp only [List.append_assoc, List.take_append_drop]
  · have hold := h.pos
    rw [hpos, hdelivered, ← List.append_assoc, List.length_append, hlen]
    omega

/-- The answer makes the call lose what it has read. -/
def Loses (s : State) (loop : ReadLoop) (req : Request) (submitRet : ℤ)
    (call : UringAsync.Call (ℕ × ℤ)) : Prop :=
  loop.soFar ≠ [] ∧ Refuses req call ∨ Strands s loop req submitRet call

/-- **A call is handed a completion.** -/
theorem Past.onCompletion {loop : ReadLoop} (h : Past content start s u loop.soFar)
    {req : Request} (n gotUd : ℕ) (res submitRet : ℤ)
    (htruth : gotUd = req.ud → 0 ≤ res → res.toNat ≤ (content.drop s.pos).length ∧
      (s.buf req.ud).take res.toNat = (content.drop s.pos).take res.toNat) :
    SoundUnless content start
      (Loses s loop req submitRet (.awaiting (.result n (gotUd, res)) false))
      (s.onCompletion u (.read loop) req gotUd res submitRet) := by
  have hgot : ∀ {exc : Exn}, (gotUd ≠ req.ud ∨ res < 0) →
      s.onCompletion u (.read loop) req gotUd res submitRet =
        ({ s with log := .got u req gotUd res :: s.log } : State).finish u (.error exc) →
      SoundUnless content start
        (Loses s loop req submitRet (.awaiting (.result n (gotUd, res)) false))
        (s.onCompletion u (.read loop) req gotUd res submitRet) := by
    intro exc hbad heq
    rw [heq]
    have hpast : Past content start { s with log := .got u req gotUd res :: s.log } u loop.soFar :=
      h.congr (h.base.congr rfl) rfl rfl
    refine (hpast.raised exc).congr ⟨?_, fun hne => Or.inl ⟨hne, hbad⟩⟩
    rintro (⟨hne, -⟩ | ⟨hud, hres, -⟩)
    · exact hne
    · exact hbad.elim (fun hneq => absurd hud hneq) fun hneg => by omega
  by_cases hud : gotUd = req.ud
  swap
  · exact hgot (Or.inl hud) (if_pos hud)
  by_cases hneg : res < 0
  · exact hgot (Or.inr hneg) ((if_neg (not_not_intro hud)).trans (if_pos hneg))
  have hres : 0 ≤ res := Int.not_lt.mp hneg
  subst hud
  obtain ⟨hle, htake⟩ := htruth rfl hres
  have hkept : ∀ {piece : List UInt8}, (s.buf req.ud).take res.toNat = piece →
      Past content start { s with
        log := .got u req req.ud res :: s.log, pos := s.pos + res.toNat } u
        (loop.soFar ++ piece) := by
    intro piece hpiece
    have hplaced := h.placed.advance (t := { s with
      log := .got u req req.ud res :: s.log, pos := s.pos + res.toNat }) hle rfl rfl
    rw [← htake, hpiece] at hplaced
    exact ⟨h.holding.congr rfl,
      h.base.congr rfl, hplaced⟩
  obtain ⟨hinl, hinr⟩ := loop.soFar_feed ((s.buf req.ud).take res.toNat)
  have hanswer : Loses s loop req submitRet (.awaiting (.result n (req.ud, res)) false) ↔
      (∃ loop', loop.feed ((s.buf req.ud).take res.toNat) = .inl loop') ∧
        (submitRet < 0 ∨ 64 ≤ s.queued.length) := by
    constructor
    · rintro (⟨-, hneq | hlt⟩ | ⟨-, -, hgoes⟩)
      · exact absurd rfl hneq
      · exact absurd hlt hneg
      · exact hgoes
    · exact fun hgoes => Or.inr ⟨rfl, hres, hgoes⟩
  refine SoundUnless.congr ?_ hanswer
  unfold State.onCompletion
  simp only [ne_eq, not_true_eq_false, if_false, if_neg hneg]
  cases hfeed : loop.feed ((s.buf req.ud).take res.toNat) with
  | inl loop' =>
    obtain ⟨hsoFar, hne⟩ := hinl loop' hfeed
    have hpast := hkept rfl
    rw [← hsoFar] at hpast
    have hsome : loop'.soFar ≠ [] := by
      rw [hsoFar]
      exact fun hnil => hne (List.append_eq_nil_iff.mp hnil).2
    refine (hpast.submit submitRet).congr ?_
    rw [and_iff_left hsome]
    exact and_iff_right ⟨loop', rfl⟩
  | inr out =>
    have hpast := hkept rfl
    rw [← hinr out hfeed] at hpast
    refine Or.inl ⟨?_, hpast.finish rfl⟩
    rintro ⟨⟨loop', heq⟩, -⟩
    exact absurd heq (by simp)

/-- A step of the reader that posts nothing. -/
theorem Base.withUa (h : Base content s) {ua : UringAsync.State (ℕ × ℤ)}
    (hgood : UringAsync.Good ua) (hopen : UringAsync.SameOpen s.ua ua)
    (hposted : ua.posted = s.ua.posted) : Base content { s with ua := ua } where
  uring := h.uring
  fp := h.fp
  closed := h.closed
  file := h.file
  ops := h.ops
  good := hgood
  uaClosed := hopen.1.trans h.uaClosed
  ctxOpen := hopen.2.trans h.ctxOpen
  reads := h.reads
  nodup := by rw [State.tags, hposted]; exact h.nodup
  fresh := by rw [State.tags, hposted]; exact h.fresh

/-- A call that runs again returns its completion, or raises. -/
theorem call_resume {ua ua' : UringAsync.State (ℕ × ℤ)} {w : ℕ} (hua : ua.resume w = some ua') :
    (∃ n c, ua.call w = .awaiting (.result n c) false ∧ ua'.call w = .returned n c) ∨
    ((∀ req, Refuses req (ua.call w)) ∧
      (∀ s loop req submitRet, ¬ Strands s loop req submitRet (ua.call w)) ∧
      ((∃ exc, ua'.call w = .raised exc) ∨ ua'.call w = .cancelled)) := by
  have hcancelled : (ua.onCancelled w).call w = .cancelled := by
    unfold UringAsync.State.onCancelled
    simp only
    split <;> simp
  unfold UringAsync.State.resume at hua
  split at hua
  · next n c hc =>
    rw [← Option.some.inj hua]
    exact Or.inl ⟨n, c, hc, Function.update_self _ _ _⟩
  · next exc hc =>
    rw [← Option.some.inj hua, hc]
    exact Or.inr ⟨fun _ => trivial, fun _ _ _ _ => id, Or.inl ⟨exc, Function.update_self _ _ _⟩⟩
  · next n c hc =>
    rw [← Option.some.inj hua, hc]
    exact Or.inr ⟨fun _ => trivial, fun _ _ _ _ => id, Or.inr hcancelled⟩
  · next exc hc =>
    rw [← Option.some.inj hua, hc]
    exact Or.inr ⟨fun _ => trivial, fun _ _ _ _ => id, Or.inr hcancelled⟩
  · next b hc =>
    rw [← Option.some.inj hua, hc]
    exact Or.inr ⟨fun _ => trivial, fun _ _ _ _ => id, Or.inr hcancelled⟩
  all_goals exact absurd hua (by simp)

/-- **The loop runs a call that waits.** -/
theorem Sound.resume (h : Sound content start s) {submitRet : ℤ}
    (ht : s.resume u submitRet = some t) :
    SoundUnless content start (RaisesLate s (.resume u submitRet)) t := by
  have hrun : (s.task u).isRunning = true := by
    unfold State.resume at ht
    split at ht
    · next hu => rw [hu]; rfl
    · next hu => rw [hu]; rfl
    · exact absurd ht (by simp)
  obtain ⟨loop, req, w, hu, howned⟩ := h.owner u hrun
  have hlate : RaisesLate s (.resume u submitRet) ↔
      Loses s loop req submitRet (s.ua.call w) := by
    constructor
    · rintro ⟨loop', req', w', hu', hloses⟩
      obtain ⟨hio, rfl, rfl⟩ := Task.awaiting.inj (hu.symm.trans hu')
      obtain rfl := Io.read.inj hio
      exact hloses
    · exact fun hloses => ⟨loop, req, w, hu, hloses⟩
  refine SoundUnless.congr ?_ hlate
  unfold State.resume at ht
  simp only [hu] at ht
  obtain ⟨ua, hua, rfl⟩ := Option.map_eq_some_iff.mp ht
  have hstep : UringAsync.step s.ua (.resume w) = some ua := hua
  have hlock := (h.ledger.holder u).mp hrun
  have hbase : Base content { s with ua := ua } :=
    h.base.withUa (UringAsync.advances_resume h.base.good hua).good
      (UringAsync.sameOpen_step (by simp) (by simp) hstep)
      (UringAsync.posted_step (by simp) hstep)
  have hplaced := h.placed
  rw [soFar_of_lock hlock, hu] at hplaced
  have hpast : Past content start { s with ua := ua } u loop.soFar :=
    ⟨(h.ledger.holding hlock).congr rfl, hbase, hplaced.congr rfl rfl⟩
  have hraise : ∀ exc, (∀ req, Refuses req (s.ua.call w)) →
      (∀ v loop req submitRet, ¬ Strands v loop req submitRet (s.ua.call w)) →
      SoundUnless content start (Loses s loop req submitRet (s.ua.call w))
        (({ s with ua := ua } : State).finish u (.error exc)) := by
    intro exc hrefuses hstrands
    refine (hpast.raised exc).congr ⟨?_, fun hne => Or.inl ⟨hne, hrefuses req⟩⟩
    rintro (⟨hne, -⟩ | hstrand)
    · exact hne
    · exact absurd hstrand (hstrands _ _ _ _)
  rcases call_resume hua with
    ⟨n, ⟨gotUd, res⟩, hcall, hret⟩ | ⟨hrefuses, hstrands, ⟨exc, hexc⟩ | hcan⟩
  · simp only [hret, hcall]
    refine hpast.onCompletion n gotUd res submitRet ?_
    intro hud hres
    rw [hud] at hcall
    have hgiven : s.ua.posted[n]? = some (req.ud, res) :=
      (h.base.good.given w n (req.ud, res) (by rw [hcall]; rfl)).1
    have htruth := howned.truth res (List.mem_of_getElem? hgiven) hres
    rw [howned.off] at htruth
    exact htruth
  · simp only [hexc]
    exact hraise _ hrefuses hstrands
  · simp only [hcan]
    exact hraise _ hrefuses hstrands

/-! ## The other steps -/

theorem Owned.congr {req : Request} (h : Owned content s req) (hpos : t.pos = s.pos)
    (hud : t.ud = s.ud) (hqueued : t.queued = s.queued) (hinflight : t.inflight = s.inflight)
    (hposted : t.ua.posted = s.ua.posted) (hbuf : t.buf = s.buf) : Owned content t req where
  off := by rw [hpos]; exact h.off
  used := by rw [hud]; exact h.used
  only := by rw [hqueued, hinflight]; exact h.only
  truth := by rw [hposted, hbuf]; exact h.truth

/-- A step that leaves the calls past the lock, and what they wait for, alone. -/
theorem Sound.frame (h : Sound content start s) (hledger : Ledger t) (hbase : Base content t)
    (htask : ∀ u, (t.task u).isRunning = true → t.task u = s.task u) (hlock : t.lock = s.lock)
    (hdelivered : t.delivered = s.delivered) (hpos : t.pos = s.pos) (hud : t.ud = s.ud)
    (hqueued : t.queued = s.queued) (hinflight : t.inflight = s.inflight)
    (hposted : t.ua.posted = s.ua.posted) (hbuf : t.buf = s.buf) : Sound content start t where
  ledger := hledger
  base := hbase
  owner u hu := by
    have hsame := htask u hu
    rw [hsame] at hu
    obtain ⟨loop, req, w, hawaits, howned⟩ := h.owner u hu
    exact ⟨loop, req, w, hsame.trans hawaits,
      howned.congr hpos hud hqueued hinflight hposted hbuf⟩
  placed := by
    have hsoFar : t.soFar = s.soFar := by
      cases hu : s.lock with
      | none => simp only [State.soFar, hlock, hu]
      | some u =>
        have htlock : t.lock = some u := hlock.trans hu
        rw [soFar_of_lock htlock, soFar_of_lock hu, htask u ((hledger.holder u).mpr htlock)]
    rw [hsoFar]
    constructor
    · rw [hdelivered, hpos]
      exact h.placed.split
    · rw [hdelivered, hpos]
      exact h.placed.pos

theorem delivered_ret (u : ℕ) (o : Outcome) (s : State) :
    (s.ret u o).delivered = s.delivered ++ o.data := delivered_finish u o s

theorem Sound.call (h : Sound content start s) (n : ℤ) :
    Sound content start (s.call (.read n)) := by
  have hledger := h.ledger.call (.read n)
  have hbase : Base content { s with
      calls := s.calls + 1, op := Function.update s.op s.calls (.read n) } := by
    refine ⟨h.base.uring, h.base.fp, h.base.closed, h.base.file, ?_, h.base.good, h.base.uaClosed,
      h.base.ctxOpen, h.base.reads, h.base.nodup, h.base.fresh⟩
    intro u hu
    show ∃ m, Function.update s.op s.calls (.read n) u = .read m
    by_cases hus : u = s.calls
    · exact ⟨n, by rw [hus, Function.update_self]⟩
    · have hlt : u < s.calls + 1 := hu
      rw [Function.update_of_ne hus]
      exact h.base.ops u (by omega)
  unfold State.call at hledger ⊢
  simp only at hledger ⊢
  split at hledger
  · next o hearly =>
    have hdata : o.data = [] := by
      simp only [h.base.closed, Op.early, Bool.false_eq_true, if_false] at hearly
      split_ifs at hearly
      rw [← Option.some.inj hearly]
      rfl
    refine h.frame hledger (hbase.congr rfl)
      (fun v hv => (task_of_running_update rfl hv).2) rfl ?_ rfl rfl rfl rfl rfl rfl
    rw [delivered_ret, hdata, List.append_nil]
    rfl
  · exact h.frame hledger (hbase.congr rfl)
      (fun v hv => (task_of_running_update rfl hv).2) rfl rfl rfl rfl rfl rfl rfl rfl

theorem Sound.cancel (h : Sound content start s) (ht : s.cancel u = some t) :
    Sound content start t := by
  have hstep : step ⟨false, false, false, false, false⟩ s (.cancel u) = some t := ht
  have hledger : Ledger t := ledger_step h.ledger hstep
  rcases cancel_cases ht with ⟨-, rfl⟩ | ⟨io, req, w, ua, hu, hua, rfl⟩
  · refine h.frame hledger (h.base.congr rfl)
      (fun v hv => (task_of_running_update rfl hv).2) rfl ?_ rfl rfl rfl rfl rfl rfl
    rw [delivered_ret]
    exact List.append_nil _
  · have hstep : UringAsync.step s.ua (.cancel w) = some ua := hua
    have hposted := UringAsync.posted_step (by simp) hstep
    exact h.frame hledger (h.base.withUa (UringAsync.advances_cancel h.base.good hua).good
      (UringAsync.sameOpen_step (by simp) (by simp) hstep) hposted)
      (fun _ _ => rfl) rfl rfl rfl rfl rfl rfl hposted rfl

theorem Sound.onReadable (h : Sound content start s) {waitRet : ℤ} {peeks : Option ℕ}
    {ua : UringAsync.State (ℕ × ℤ)}
    (hua : UringAsync.step s.ua (.onReadable waitRet peeks) = some ua) :
    Sound content start { s with ua := ua } := by
  have hposted := UringAsync.posted_step (by simp) hua
  exact h.frame (h.ledger.congr rfl)
    (h.base.withUa (UringAsync.advances_step h.base.good hua).good
      (UringAsync.sameOpen_step (by simp) (by simp) hua) hposted)
    (fun _ _ => rfl) rfl rfl rfl rfl rfl rfl hposted rfl

/-- What the kernel does for a read. -/
theorem read_of_perform {req : Request} {len : ℕ} {res : ℤ} {file file' data : List UInt8}
    (hop : req.op = .read len) (h : req.perform flags res file = some (file', data)) :
    file' = file ∧ (0 ≤ res → res.toNat ≤ (file.drop req.off).length ∧
      data = (file.drop req.off).take res.toNat) := by
  unfold Request.perform at h
  simp only [hop] at h
  split at h
  · next hneg =>
    obtain ⟨rfl, -⟩ := Prod.mk.inj (Option.some.inj h)
    exact ⟨rfl, fun hres => absurd hneg (Int.not_lt.mpr hres)⟩
  · split at h
    · next hcond =>
      obtain ⟨rfl, rfl⟩ := Prod.mk.inj (Option.some.inj h)
      exact ⟨rfl, fun _ => ⟨hcond.2.2, rfl⟩⟩
    · exact absurd h (by simp)

/-- **The kernel answers a request**, of this call or of one before. -/
theorem Sound.complete (h : Sound content start s) {i : ℕ} {res : ℤ}
    (ht : s.complete flags i res = some t) : Sound content start t := by
  obtain ⟨req, file, data, hreq, hperform, rfl⟩ := complete_cases ht
  have hmem : req ∈ s.queued ++ s.inflight :=
    List.mem_append_right _ (List.mem_of_getElem? hreq)
  obtain ⟨len, hop⟩ := h.base.reads req hmem
  obtain ⟨hfile, hdata⟩ := read_of_perform hop hperform
  subst hfile
  obtain ⟨hi, hget⟩ := List.getElem?_eq_some_iff.mp hreq
  have hperm : (req :: s.inflight.eraseIdx i).Perm s.inflight := by
    rw [← hget]
    exact List.getElem_cons_eraseIdx_perm hi
  have hleft : ∀ r ∈ s.queued ++ s.inflight.eraseIdx i, r ∈ s.queued ++ s.inflight := by
    intro r hr
    rw [List.mem_append] at hr ⊢
    exact hr.imp_right List.mem_of_mem_eraseIdx
  -- its tag goes from the requests to the completions
  have htags : ((s.queued ++ s.inflight.eraseIdx i).map Request.ud ++
      (s.ua.posted ++ [(req.ud, res)]).map Prod.fst).Perm s.tags := by
    have hud := hperm.map Request.ud
    rw [List.map_cons] at hud
    simp only [State.tags, List.map_append, List.map_cons, List.map_nil, List.append_assoc]
    refine List.Perm.append_left _ ?_
    refine List.Perm.trans ?_ (hud.append_right _)
    rw [← List.append_assoc]
    exact List.perm_append_singleton _ _
  have hposted : ∀ res', (req.ud, res') ∉ s.ua.posted := fun res' hin =>
    (List.nodup_append.mp h.base.nodup).2.2 _ (List.mem_map_of_mem hmem) _
      (List.mem_map_of_mem hin) rfl
  refine ⟨h.ledger.congr rfl, ⟨h.base.uring, h.base.fp, h.base.closed,
    h.base.file, h.base.ops, (UringAsync.advances_post h.base.good _).good, h.base.uaClosed,
    h.base.ctxOpen, fun r hr => h.base.reads r (hleft r hr), htags.nodup_iff.mpr h.base.nodup,
    fun x hx => h.base.fresh x (htags.mem_iff.mp hx)⟩, ?_, h.placed.congr rfl rfl⟩
  intro u hu
  obtain ⟨loop, req', w, htask, howned⟩ := h.owner u hu
  refine ⟨loop, req', w, htask, howned.off, howned.used, fun r hr => howned.only r (hleft r hr), ?_⟩
  intro res' hin hres'
  show _ ∧ (Function.update s.buf req.ud (data ++ (s.buf req.ud).drop data.length) req'.ud).take _ =
    _
  rcases List.mem_append.mp hin with hold | hnew
  · -- an answer that was there before
    have hne : req'.ud ≠ req.ud := fun heq => hposted res' (heq ▸ hold)
    rw [Function.update_of_ne hne]
    exact howned.truth res' hold hres'
  · obtain ⟨hud, rfl⟩ := Prod.mk.inj (List.mem_singleton.mp hnew)
    obtain rfl := howned.only req hmem hud.symm
    obtain ⟨hle, rfl⟩ := hdata hres'
    rw [← h.base.file, Function.update_self]
    refine ⟨hle, List.take_left' ?_⟩
    rw [List.length_take]
    exact Nat.min_eq_left hle

/-- No call is in the executor. -/
theorem Sound.runJob (h : Sound content start s) : s.runJob flags u most ≠ some t := by
  intro ht
  obtain ⟨hu, -⟩ := runJob_cases ht
  obtain ⟨loop, req, w, hawaits, -⟩ := h.owner u (by rw [hu]; rfl)
  exact absurd (hu.symm.trans hawaits) (by simp)

theorem Sound.acquire (h : Sound content start s) {submitRet : ℤ}
    (ht : s.acquire u submitRet = some t) : Sound content start t := by
  obtain ⟨hwait, hfree, rfl⟩ := acquire_cases ht
  have hsoFar : s.soFar = [] := by simp only [State.soFar, hfree]
  have hpast : Past content start { s with lock := some u, log := .locked u :: s.log } u [] :=
    ⟨h.ledger.takeLock hwait hfree, h.base.congr rfl,
      (hsoFar ▸ h.placed).congr rfl rfl⟩
  obtain ⟨n, hop⟩ := h.base.ops u (h.ledger.lt_calls (by rw [hwait]; simp))
  rcases locked_cases (s := { s with lock := some u, log := .locked u :: s.log }) (u := u)
    h.base.uring h.base.fp (by rw [hop]; simp) submitRet with ⟨-, heq⟩ | ⟨io, hio, heq⟩
  · rw [heq]
    exact hpast.finish (o := .bytes []) rfl
  · -- nothing has been read yet
    obtain ⟨loop, rfl, hnil⟩ : ∃ loop, io = .read loop ∧ loop.soFar = [] := by
      simp only [hop, Op.start] at hio
      split_ifs at hio
      · exact ⟨_, (Option.some.inj hio).symm, rfl⟩
      · exact ⟨_, (Option.some.inj hio).symm, rfl⟩
    rw [heq]
    rw [← hnil] at hpast
    rcases hpast.submit submitRet with ⟨-, hsound⟩ | ⟨⟨-, hne⟩, -⟩
    · exact hsound
    · exact absurd hnil hne

/-! ## A slice that fails after a full one -/

theorem readsOnly_of_serve {res : ℤ} (_ : State) (e : Event)
    (h : e = .complete 0 res ∨ e = .onReadable 0 none) : ReadsOnly e := by
  rcases h with rfl | rfl
  · trivial
  · trivial

/-- Call 0 reads to the end of the file, and its first slice is with the kernel. -/
theorem exists_started (flags : Flags) (content : List UInt8) : ∃ t w,
    Reach (step flags) (fun _ e => ReadsOnly e) (aenter flags true content) t ∧
    Orderly t (some ⟨0, .read (.untilEof []), ⟨1, .read readSlice, t.pos⟩, w, .inFlight, false⟩) ∧
    t.file = (aenter flags true content).file ∧ t.pos = (aenter flags true content).pos ∧
    t.delivered = [] := by
  have horderly := orderly_aenter flags content
  obtain ⟨s, hs, hwait, hfree, hcore⟩ : ∃ s, step flags (aenter flags true content)
      (.call (.read (-1))) = some s ∧ s.task 0 = .waitingLock ∧ s.lock = none ∧
      s.core = ⟨(aenter flags true content).file, (aenter flags true content).pos, 1, fun _ => [],
        Function.update (fun _ => .aclose) 0 (.read (-1)), 1, []⟩ := ⟨_, rfl, rfl, rfl, rfl⟩
  have hcall : Undisturbed (aenter flags true content) (.call (.read (-1))) :=
    ⟨by simp [Served], id⟩
  obtain ⟨p, hp, -⟩ := orderly_step horderly hcall hs
  obtain rfl : p = none := Option.map_eq_none_iff.mp (hp.serial.lock.symm.trans hfree)
  obtain ⟨t, ht⟩ : ∃ t, step flags s (.acquire 0 0) = some t := ⟨_, if_pos ⟨hwait, hfree⟩⟩
  have hacquire : Undisturbed s (.acquire 0 0) := ⟨Int.le_refl 0, id⟩
  obtain ⟨q, hq, hmove⟩ := orderly_step hp hacquire ht
  have hop : s.op 0 = .read (-1) := congrFun (congrArg Core.op hcore) 0
  have hreach := (Reach.single (P := fun _ e => ReadsOnly e)
    (show ReadsOnly (.call (.read (-1))) from ⟨-1, rfl⟩) hs).tail
    (show ReadsOnly (.acquire 0 0) from trivial) ht
  cases hmove with
  | nothing _ hzero _ => exact absurd (hop.symm.trans hzero) (by decide)
  | @start _ w _ io _ hstart hcore' =>
    rw [hop] at hstart
    obtain rfl : Io.read (.untilEof []) = io := Option.some.inj hstart
    have hpos : t.pos = s.pos := congrArg Core.pos hcore'
    have hud : s.ud = 1 := congrArg Core.ud hcore
    have hlog : t.log = .submitted 0 _ :: .locked 0 :: s.log := congrArg Core.log hcore'
    have hempty : s.log = [] := congrArg Core.log hcore
    refine ⟨t, w, hreach, ?_, ?_, hpos.trans (congrArg Core.pos hcore), ?_⟩
    · rw [hpos]
      rw [hud] at hq
      exact hq
    · exact (congrArg Core.file hcore').trans (congrArg Core.file hcore)
    · simp [State.delivered, State.returns, hlog, hempty]

/-- The kernel answers a slice in full, and the next one is with the kernel. -/
theorem Orderly.full_slice {chunks : List UInt8} {req : Request} {w : ℕ}
    (h : Orderly s (some ⟨u, .read (.untilEof chunks), req, w, .inFlight, false⟩))
    (hread : flags.read = true) (hop : req.op = .read readSlice)
    (hfull : readSlice ≤ (s.file.drop req.off).length) : ∃ t loop req' w',
    Reach (step flags) (fun _ e => ReadsOnly e) s t ∧
    Orderly t (some ⟨u, .read loop, req', w', .inFlight, false⟩) ∧
    t.pos = s.pos + readSlice ∧ t.delivered = s.delivered := by
  obtain ⟨v, hreach, hv, hcore⟩ :=
    h.serve (perform_of_read hread hop (Nat.le_refl readSlice) hfull)
  obtain ⟨t, ht⟩ := hv.resumes flags
  have hresume : Undisturbed v (.resume u 0) := ⟨Int.le_refl 0, hv.serial.not_abandons rfl 0⟩
  obtain ⟨q, hq, hmove⟩ := orderly_step hv hresume ht
  have hlog : v.log = .performed req _ :: s.log := congrArg Core.log hcore
  cases hmove with
  | fail hres _ => exact absurd hres (by omega)
  | @last _ _ _ out _ _ _ _ hfeed _ =>
    -- a full slice is not the last one
    have hbuf : v.buf req.ud = _ :=
      (congrFun (congrArg Core.buf hcore) req.ud).trans (Function.update_self _ _ _)
    have hlen : ((s.file.drop req.off).take readSlice).length = readSlice := by
      rw [List.length_take]
      exact Nat.min_eq_left hfull
    rw [hbuf, Int.toNat_natCast, List.take_left' hlen] at hfeed
    rcases feed_untilEof chunks ((s.file.drop req.off).take readSlice) with ⟨hshort, -⟩ | ⟨-, heq⟩
    · omega
    · exact absurd (heq.symm.trans hfeed) (by simp)
  | @next _ _ w' _ loop _ _ _ _ _ hcore' =>
    refine ⟨t, loop, _, w', (hreach.mono readsOnly_of_serve).tail
      (show ReadsOnly (.resume u 0) from trivial) ht, hq, ?_, ?_⟩
    · rw [show t.pos = v.pos + _ from congrArg Core.pos hcore',
        show v.pos = s.pos from congrArg Core.pos hcore, Int.toNat_natCast]
    · have hlog' : t.log = .submitted u _ :: .got u req req.ud _ :: v.log :=
        congrArg Core.log hcore'
      simp [State.delivered, State.returns, hlog', hlog]

/-- A slice fails: the call raises, with the position where it was. -/
theorem Orderly.failed_slice {loop : ReadLoop} {req : Request} {w : ℕ} (flags : Flags)
    (h : Orderly s (some ⟨u, .read loop, req, w, .inFlight, false⟩)) : ∃ t,
    Reach (step flags) (fun _ e => ReadsOnly e) s t ∧ t.lock = none ∧ t.pos = s.pos ∧
    t.delivered = s.delivered := by
  obtain ⟨v, hreach, hv, hcore⟩ :=
    h.serve (perform_of_error flags req (show (-5 : ℤ) < 0 by decide) s.file)
  obtain ⟨t, ht⟩ := hv.resumes flags
  have hresume : Undisturbed v (.resume u 0) := ⟨Int.le_refl 0, hv.serial.not_abandons rfl 0⟩
  obtain ⟨q, hq, hmove⟩ := orderly_step hv hresume ht
  have hlog : v.log = .performed req (-5) :: s.log := congrArg Core.log hcore
  cases hmove with
  | last hres _ _ => exact absurd hres (by decide)
  | next hres _ _ => exact absurd hres (by decide)
  | fail _ hcore' =>
    refine ⟨t, (hreach.mono readsOnly_of_serve).tail
      (show ReadsOnly (.resume u 0) from trivial) ht, hq.serial.lock, ?_, ?_⟩
    · exact (congrArg Core.pos hcore').trans (congrArg Core.pos hcore)
    · have hlog' : t.log = .returned u (.error _) :: .got u req req.ud (-5) :: v.log :=
        congrArg Core.log hcore'
      simp [State.delivered, State.returns, hlog', hlog, Outcome.data]

/-- **A file of at least a slice can be lost**: the first slice of `read()` is read in full,
and the second one fails. -/
theorem exists_late_error (flags : Flags) (content : List UInt8) (hread : flags.read = true)
    (hfull : readSlice ≤
      ((aenter flags true content).file.drop (aenter flags true content).pos).length) :
    ∃ t, Reach (step flags) (fun _ e => ReadsOnly e) (aenter flags true content) t ∧
      ¬ Lossless (aenter flags true content).file (aenter flags true content).pos t := by
  obtain ⟨s₁, w, hreach₁, ho₁, hfile₁, hpos₁, hnone⟩ := exists_started flags content
  rw [← hfile₁, ← hpos₁] at hfull
  obtain ⟨s₂, loop, req, w', hreach₂, ho₂, hpos₂, hsame₂⟩ := ho₁.full_slice hread rfl hfull
  obtain ⟨t, hreach₃, hlock, hpos₃, hsame₃⟩ := ho₂.failed_slice flags
  refine ⟨t, (hreach₁.trans hreach₂).trans hreach₃, ?_⟩
  intro hlossless
  have hcursor := hlossless.cursor hlock
  have hpositive := readSlice_pos
  rw [hsame₃, hsame₂, hnone, hpos₃, hpos₂, hpos₁, List.length_nil] at hcursor
  omega

/-! ## Runs -/

/-- **What a step does**: a call that raises after it has read bytes loses them, and nothing
else does. -/
theorem Sound.step (h : Sound content start s) (he : ReadsOnly e) (ht : step flags s e = some t) :
    SoundUnless content start (RaisesLate s e) t := by
  cases e with
  | call op =>
    obtain ⟨n, rfl⟩ := he
    rw [← Option.some.inj ht]
    exact Or.inl ⟨id, h.call n⟩
  | acquire u submitRet => exact Or.inl ⟨id, h.acquire ht⟩
  | complete i res => exact Or.inl ⟨id, h.complete ht⟩
  | onReadable waitRet peeks =>
    obtain ⟨ua, hua, rfl⟩ := Option.map_eq_some_iff.mp ht
    exact Or.inl ⟨id, h.onReadable hua⟩
  | runJob u most => exact absurd ht h.runJob
  | resume u submitRet => exact h.resume ht
  | cancel u => exact Or.inl ⟨id, h.cancel ht⟩

theorem sound_aenter (flags : Flags) (content : List UInt8) :
    Sound (aenter flags true content).file (aenter flags true content).pos
      (aenter flags true content) where
  ledger := ledger_aenter flags true content
  base := ⟨rfl, rfl, rfl, rfl, fun u hu => absurd hu (Nat.not_lt_zero u), UringAsync.good_init, rfl,
    rfl, by simp [aenter], List.nodup_nil, by simp [aenter, State.tags, UringAsync.State.init]⟩
  owner u hu := absurd hu (by simp [aenter, Task.isRunning])
  placed := ⟨rfl, rfl⟩

/-- **Reads lose no bytes exactly when no call raises that has read some.**  In a run of
reads, by any tasks and with any answers, failed submissions and cancellations among them,
the bytes that successful calls return are the file from the first position on, and a call
that raises leaves the position where it was, exactly as long as no call raises after its
first slice. -/
theorem lossless_iff_no_late_error (flags : Flags) (content : List UInt8) (es : List Event)
    (t : State) (hes : ∀ e ∈ es, ReadsOnly e)
    (ht : exec (step flags) (aenter flags true content) es = some t) :
    Always (step flags)
        (Lossless (aenter flags true content).file (aenter flags true content).pos)
        (aenter flags true content) es ↔
      Meets (step flags) (fun s e => ¬ RaisesLate s e) (aenter flags true content) es :=
  always_iff_meets (fun _ hs => hs.lossless)
    (fun _ _ _ hs he hu => (hs.step he hu).imp id fun h => ⟨not_not_intro h.1, h.2⟩)
    (sound_aenter flags content) hes ht

/-- A file of three bytes from which two are read. -/
theorem lossless_iff_no_late_error_two :
    Always (step ⟨true, false, false, false, false⟩)
        (Lossless (aenter ⟨true, false, false, false, false⟩ true [1, 2, 3]).file
          (aenter ⟨true, false, false, false, false⟩ true [1, 2, 3]).pos)
        (aenter ⟨true, false, false, false, false⟩ true [1, 2, 3])
        [.call (.read 2), .acquire 0 0, .complete 0 2, .onReadable 0 none, .resume 0 0] ↔
      Meets (step ⟨true, false, false, false, false⟩) (fun s e => ¬ RaisesLate s e)
        (aenter ⟨true, false, false, false, false⟩ true [1, 2, 3])
        [.call (.read 2), .acquire 0 0, .complete 0 2, .onReadable 0 none, .resume 0 0] :=
  lossless_iff_no_late_error ⟨true, false, false, false, false⟩ [1, 2, 3] _ _
    (by simp [ReadsOnly]) rfl

/-- The first slice of `read()` is read in full and the second fails: the call raises, and
the cursor stays behind the first slice. -/
theorem late_error_loses_bytes :
    ¬ ∀ (flags : Flags) (content : List UInt8) (t : State),
      Reach (step flags) (fun _ e => ReadsOnly e) (aenter flags true content) t →
      Lossless (aenter flags true content).file (aenter flags true content).pos t := by
  intro h
  have hfull : readSlice ≤ (List.replicate readSlice (0 : UInt8)).length := by
    rw [List.length_replicate]
  obtain ⟨t, ht, hlost⟩ :=
    exists_late_error ⟨true, false, false, false, false⟩ _ rfl hfull
  exact hlost (h _ _ t ht)

end AsyncFile
end Pyuring
