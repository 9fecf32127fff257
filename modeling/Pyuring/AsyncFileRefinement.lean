import Pyuring.AsyncFilePlain
import Pyuring.AsyncFileSerial

/-!
# A file with one cursor

For tasks that are not cancelled, and a kernel that comes back short only at the end of
the file, an `AsyncFile` is a plain file with a cursor: the calls return what the
operations of the plain file return when they are carried out one after the other in the
order in which the calls took the lock.  This holds on the ring for reads of any size, and
in the executor for those whose bytes the process can get at once.

On the ring the call past the lock is in the middle of its slices, or of a write that
the kernel has carried out and the position does not count yet; `Midway` says how that
fits what the plain file does at once.
-/

namespace Pyuring
namespace AsyncFile

open Trace

/-- The arguments of the calls that returned, in the order in which they did. -/
def State.returnedOps (s : State) : List Op := s.returns.map fun r => s.op r.1

/-- The calls return what the operations of the plain file `f` return, in the order in
which they took the lock; and between the calls the file is that file.  A call that
never takes the lock writes no byte, or has an invalid length. -/
structure Linearized (f : CursorFile UInt8) (s : State) : Prop where
  outcomes : s.returns.map Prod.snd = (runAll s.returnedOps f).1
  content : s.lock = none → s.file = (runAll s.returnedOps f).2.content
  ended : ∀ u o, s.task u = .done o ↔ (u, o) ∈ s.returns
  once : (s.returns.map Prod.fst).Nodup
  order : s.lockOrder = (s.returns.map Prod.fst).filter (· ∈ s.lockOrder) ++ s.lock.toList
  unlocked : ∀ u o, (u, o) ∈ s.returns → u ∈ s.lockOrder ∨ s.op u = .write [] ∨
    ∃ n < -1, s.op u = .read n
  matching : ∀ u io ud gotUd, (u, .error (mismatch io ud gotUd)) ∉ s.returns

/-! ## What is asked of the calls and the kernel -/

/-- The mode allows the call, and its sizes are in range: below `2 ^ 31` for a write, and for
a read the limit, where there is one. -/
def Op.Permitted (flags : Flags) (limit : Option ℕ) : Op → Prop
  | .read n => flags.read = true ∧ ∀ m ∈ limit, n ≤ m
  | .write data => flags.write = true ∧ data.length < 2 ^ 31
  | .aclose => False

/-- The result of a transfer that is short only at the end of the file. -/
def Request.Full (file : List UInt8) (req : Request) (res : ℤ) : Prop :=
  match req.op with
  | .read len => res = (min len (file.length - req.off) : ℕ)
  | .write data => res = data.length

/-- The calls are permitted, nobody is cancelled, submissions and waits succeed, and
transfers are short only at the end of the file.  A limit is one for reads in the executor,
where the process can always get so many bytes. -/
def Faithful (flags : Flags) (limit : Option ℕ) (s : State) : Event → Prop
  | .call op => op.Permitted flags (if s.fp.isSome then limit else none)
  | .acquire _ submitRet => 0 ≤ submitRet
  | .complete i res => ∀ req, s.inflight[i]? = some req → req.Full s.file res
  | .onReadable waitRet _ => 0 ≤ waitRet
  | .runJob _ most => ∀ m ∈ limit, m ≤ most
  | .resume _ submitRet => 0 ≤ submitRet
  | .cancel _ => False

instance (flags : Flags) (limit : Option ℕ) : ∀ op : Op, Decidable (op.Permitted flags limit)
  | .read n => inferInstanceAs (Decidable (flags.read = true ∧ ∀ m ∈ limit, n ≤ m))
  | .write data => inferInstanceAs (Decidable (flags.write = true ∧ data.length < 2 ^ 31))
  | .aclose => inferInstanceAs (Decidable False)

instance (file : List UInt8) (res : ℤ) : ∀ req : Request, Decidable (req.Full file res)
  | ⟨_, .read len, off⟩ =>
    inferInstanceAs (Decidable (res = (min len (file.length - off) : ℕ)))
  | ⟨_, .write data, _⟩ => inferInstanceAs (Decidable (res = data.length))

instance (flags : Flags) (limit : Option ℕ) (s : State) :
    ∀ e, Decidable (Faithful flags limit s e)
  | .call op => inferInstanceAs (Decidable (op.Permitted flags _))
  | .acquire _ submitRet => inferInstanceAs (Decidable (0 ≤ submitRet))
  | .complete i res =>
    inferInstanceAs (Decidable (∀ req ∈ s.inflight[i]?, req.Full s.file res))
  | .onReadable waitRet _ => inferInstanceAs (Decidable (0 ≤ waitRet))
  | .runJob _ most => inferInstanceAs (Decidable (∀ m ∈ limit, m ≤ most))
  | .resume _ submitRet => inferInstanceAs (Decidable (0 ≤ submitRet))
  | .cancel _ => inferInstanceAs (Decidable False)

variable {flags : Flags} {s t : State} {f g : CursorFile UInt8} {p q : Option Busy} {u most : ℕ}
  {o : Outcome}

/-! ## The calls that returned -/

/-- What the plain file has become. -/
def State.plain (f : CursorFile UInt8) (s : State) : CursorFile UInt8 := (runAll s.returnedOps f).2

/-- The calls that returned agree with the plain file. -/
structure Book (flags : Flags) (limit : Option ℕ) (f : CursorFile UInt8) (s : State) : Prop where
  outcomes : s.returns.map Prod.snd = (runAll s.returnedOps f).1
  unlocked : ∀ u o, (u, o) ∈ s.returns → u ∈ s.lockOrder ∨ (s.op u).early false = some o
  permitted : ∀ u < s.calls, (s.op u).Permitted flags limit
  known : ∀ u o, (u, o) ∈ s.returns → u < s.calls

variable {limit : Option ℕ} {bound : ℕ}

theorem Book.congr (h : Book flags limit f s) (hreturns : t.returns = s.returns)
    (hop : t.op = s.op) (hcalls : t.calls = s.calls)
    (horder : ∀ v ∈ s.lockOrder, v ∈ t.lockOrder) :
    Book flags limit f t ∧ t.plain f = s.plain f := by
  have hops : t.returnedOps = s.returnedOps := by
    simp only [State.returnedOps, hreturns, hop]
  refine ⟨⟨by rw [hreturns, hops]; exact h.outcomes, ?_,
    by rw [hcalls, hop]; exact h.permitted, by rw [hreturns, hcalls]; exact h.known⟩,
    by simp only [State.plain, hops]⟩
  intro v o hv
  rw [hreturns] at hv
  rw [hop]
  exact (h.unlocked v o hv).imp_left (horder v)

/-- One more call returns, with what the plain file says. -/
theorem Book.returned (h : Book flags limit f s) (hreturns : t.returns = s.returns ++ [(u, o)])
    (hop : t.op = s.op) (hcalls : t.calls = s.calls) (horder : ∀ v ∈ s.lockOrder, v ∈ t.lockOrder)
    (hu : u < s.calls) (hlocked : u ∈ t.lockOrder ∨ (s.op u).early false = some o)
    {g : CursorFile UInt8} (hrun : (s.op u).run (s.plain f) = (o, g)) :
    Book flags limit f t ∧ t.plain f = g := by
  have hops : t.returnedOps = s.returnedOps ++ [s.op u] := by
    simp only [State.returnedOps, hreturns, hop, List.map_append, List.map_cons, List.map_nil]
  have hall : runAll t.returnedOps f = ((runAll s.returnedOps f).1 ++ [o], g) := by
    change (s.op u).run (runAll s.returnedOps f).2 = (o, g) at hrun
    rw [hops, runAll_append, hrun]
  refine ⟨⟨?_, ?_, by rw [hcalls, hop]; exact h.permitted, ?_⟩, ?_⟩
  · rw [hall, hreturns, List.map_append, h.outcomes]
    rfl
  · intro v p hv
    rw [hreturns, List.mem_append, List.mem_singleton] at hv
    rw [hop]
    rcases hv with hv | heq
    · exact (h.unlocked v p hv).imp_left (horder v)
    · obtain ⟨rfl, rfl⟩ := Prod.mk.inj heq
      exact hlocked
  · intro v p hv
    rw [hreturns, List.mem_append, List.mem_singleton] at hv
    rw [hcalls]
    rcases hv with hv | heq
    · exact h.known v p hv
    · rw [(Prod.mk.inj heq).1]
      exact hu
  · simp only [State.plain, hall]

theorem Book.newCall (h : Book flags limit f s) {op : Op} (hop : op.Permitted flags limit) :
    Book flags limit f { s with calls := s.calls + 1, op := Function.update s.op s.calls op } ∧
    State.plain f { s with calls := s.calls + 1, op := Function.update s.op s.calls op } =
      s.plain f := by
  have hold : ∀ u o, (u, o) ∈ s.returns → Function.update s.op s.calls op u = s.op u :=
    fun u o hu => Function.update_of_ne (Nat.ne_of_lt (h.known u o hu)) _ _
  have hops : State.returnedOps { s with
      calls := s.calls + 1, op := Function.update s.op s.calls op } = s.returnedOps :=
    List.map_congr_left fun r hr => hold r.1 r.2 hr
  refine ⟨⟨?_, ?_, ?_, ?_⟩, ?_⟩
  · rw [hops]
    exact h.outcomes
  · intro u o hu
    have hkeep := h.unlocked u o hu
    rw [← hold u o hu] at hkeep
    exact hkeep
  · intro u hu
    change (Function.update s.op s.calls op u).Permitted flags limit
    by_cases hus : u = s.calls
    · rw [hus, Function.update_self]
      exact hop
    · have hlt : u < s.calls + 1 := hu
      rw [Function.update_of_ne hus]
      exact h.permitted u (by omega)
  · intro u o hu
    exact Nat.lt_succ_of_lt (h.known u o hu)
  · simp only [State.plain, hops]

theorem Book.call (h : Book flags limit f s) (hclosed : s.closed = false) {op : Op}
    (hop : op.Permitted flags limit) :
    Book flags limit f (s.call op) ∧ (s.call op).plain f = s.plain f := by
  obtain ⟨hnew, hplain⟩ := h.newCall hop
  have hself : Function.update s.op s.calls op s.calls = op := Function.update_self _ _ _
  unfold State.call
  simp only
  split
  · next o hearly =>
    rw [hclosed] at hearly
    rw [← hself] at hearly
    obtain ⟨hbook, hplain'⟩ := hnew.returned (returns_ret _ _ _) rfl rfl (fun v hv => hv)
      (Nat.lt_succ_self _) (Or.inr hearly) (run_of_early hearly _)
    exact ⟨hbook, hplain'.trans hplain⟩
  · obtain ⟨hbook, hplain'⟩ := hnew.congr (t := ({ s with
      calls := s.calls + 1, op := Function.update s.op s.calls op } : State).setTask s.calls
        .waitingLock) rfl rfl rfl fun v hv => hv
    exact ⟨hbook, hplain'.trans hplain⟩

theorem Book.linearized (h : Book flags limit f s) (hledger : Ledger s)
    (hcontent : s.lock = none → s.file = (s.plain f).content) : Linearized f s where
  outcomes := h.outcomes
  content := hcontent
  ended := hledger.done
  once := hledger.nodup
  order := hledger.order
  unlocked u o hu := by
    refine (h.unlocked u o hu).imp_right ?_
    intro hearly
    cases hop : s.op u with
    | read n =>
      simp only [hop, Op.early, Bool.false_eq_true, if_false] at hearly
      split_ifs at hearly with hn
      exact Or.inr ⟨n, hn, rfl⟩
    | write data =>
      simp only [hop, Op.early, Bool.false_eq_true, if_false] at hearly
      split_ifs at hearly with hdata
      exact Or.inl (by rw [hdata])
    | aclose =>
      rw [hop] at hearly
      exact absurd hearly (by simp [Op.early])
  matching u io ud gotUd hmem := by
    have hout : Outcome.error (mismatch io ud gotUd) ∈ s.returns.map Prod.snd :=
      List.mem_map_of_mem (f := Prod.snd) hmem
    rw [h.outcomes] at hout
    obtain ⟨op, g, heq⟩ := mem_runAll hout
    exact run_ne_mismatch op g io ud gotUd heq.symm

theorem Ledger.mem_lockOrder (h : Ledger s) (hlock : s.lock = some u) : u ∈ s.lockOrder := by
  rw [h.order, hlock]
  exact List.mem_append_right _ List.mem_cons_self

/-! ## On the ring -/

/-- The file with the position that the object keeps. -/
def State.current (flags : Flags) (s : State) : CursorFile UInt8 := ⟨s.file, s.pos, flags.append⟩

/-- A read that the kernel has carried out left the slice in the buffer. -/
def Stage.Read (piece buf : List UInt8) : Stage → Prop
  | .inFlight => True
  | .posted res => res = piece.length ∧ buf.take res.toNat = piece
  | .taken res => res = piece.length ∧ buf.take res.toNat = piece

/-- A write that the kernel has carried out is in the file, but not yet in the position. -/
def Stage.Wrote (data : List UInt8) (g f : CursorFile UInt8) : Stage → Prop
  | .inFlight => f = g
  | .posted res => res = data.length ∧ f.advance data.length = g.write data
  | .taken res => res = data.length ∧ f.advance data.length = g.write data

/-- What the call past the lock does. -/
def Busy.InStep (flags : Flags) (g : CursorFile UInt8) (s : State) (b : Busy) : Prop :=
  match b.io with
  | .read loop => 0 < loop.chunkSz ∧
      (s.op b.t).run g =
        (.bytes (loop.finish (s.current flags)).1, (loop.finish (s.current flags)).2) ∧
      b.stage.Read ((s.current flags).read loop.chunkSz).1 (s.buf b.req.ud)
  | .write data => s.op b.t = .write data ∧ b.stage.Wrote data g (s.current flags)

/-- The call past the lock is in the middle of what the plain file does at once. -/
structure Midway (flags : Flags) (g : CursorFile UInt8) (s : State) (b : Busy) : Prop where
  live : b.cancelled = false
  op : b.req.op = b.io.reqOp
  off : b.req.off = s.pos
  inStep : b.InStep flags g s

/-- The file on the ring and the plain file `f` after the calls that returned. -/
structure Sim (flags : Flags) (f : CursorFile UInt8) (s : State) (p : Option Busy) : Prop where
  book : Book flags none f s
  free : p = none → s.current flags = s.plain f
  midway : ∀ b, p = some b → Midway flags (s.plain f) s b

theorem current_of_core (hfile : t.file = s.file) (hpos : t.pos = s.pos) :
    t.current flags = s.current flags := by
  simp only [State.current, hfile, hpos]

theorem current_advance (hfile : t.file = s.file) {n : ℕ} (hpos : t.pos = s.pos + n) :
    t.current flags = (s.current flags).advance n := by
  simp only [State.current, CursorFile.advance, hfile, hpos]

/-- A write at the cursor. -/
theorem Fits.write_eq (h : Fits flags g) (data : List UInt8) :
    g.write data = ({ g with content := (g.write data).content } : CursorFile UInt8).advance
      data.length := by
  have hoffset := h.writeOffset
  unfold CursorFile.write
  split
  · next hnil => rw [hnil]; rfl
  · rw [hoffset]; rfl

/-- A call that waits for the lock, or is refused, changes nothing for the others. -/
theorem call_frame (s : State) (op : Op) :
    (s.call op).file = s.file ∧ (s.call op).pos = s.pos ∧ (s.call op).buf = s.buf ∧
      ∀ u, u ≠ s.calls → (s.call op).op u = s.op u := by
  unfold State.call
  simp only
  split
  · exact ⟨rfl, rfl, rfl, fun u hu => Function.update_of_ne hu _ _⟩
  · exact ⟨rfl, rfl, rfl, fun u hu => Function.update_of_ne hu _ _⟩

theorem Busy.InStep.congr {b : Busy} (h : b.InStep flags g s) (hfile : t.file = s.file)
    (hpos : t.pos = s.pos) (hbuf : t.buf = s.buf) (hop : t.op b.t = s.op b.t) :
    b.InStep flags g t := by
  simpa only [Busy.InStep, current_of_core hfile hpos, hbuf, hop] using h

theorem Sim.call (h : Sim flags f s p) (hserial : Serial s p) {op : Op}
    (hop : op.Permitted flags none) : Sim flags f (s.call op) p := by
  obtain ⟨hfile, hpos, hbuf, hops⟩ := call_frame s op
  obtain ⟨hbook, hplain⟩ := h.book.call hserial.closed hop
  refine ⟨hbook, ?_, ?_⟩
  · intro hp
    rw [current_of_core hfile hpos, hplain]
    exact h.free hp
  · intro b hb
    have hmid := h.midway b hb
    have hlt := hserial.ledger.lt_calls (show s.task b.t ≠ .notCalled by
      rw [hserial.task b hb]; simp)
    rw [hplain]
    exact ⟨hmid.live, hmid.op, hmid.off.trans hpos.symm,
      hmid.inStep.congr hfile hpos hbuf (hops b.t (Nat.ne_of_lt hlt))⟩

/-- A step after which the same call is at the same point. -/
theorem Sim.relabel (h : Sim flags f s p) (hcore : t.core = s.core) (hnone : q = none → p = none)
    (hb : ∀ b, q = some b → ∃ b', p = some b' ∧ b.t = b'.t ∧ b.io = b'.io ∧ b.req = b'.req ∧
      b.cancelled = b'.cancelled ∧ (∀ piece buf, b'.stage.Read piece buf → b.stage.Read piece buf) ∧
      ∀ data g f, b'.stage.Wrote data g f → b.stage.Wrote data g f) : Sim flags f t q := by
  have hfile : t.file = s.file := congrArg Core.file hcore
  have hpos : t.pos = s.pos := congrArg Core.pos hcore
  have hbuf : t.buf = s.buf := congrArg Core.buf hcore
  have hop : t.op = s.op := congrArg Core.op hcore
  have hlog : t.log = s.log := congrArg Core.log hcore
  obtain ⟨hbook, hplain⟩ := h.book.congr (t := t) (by simp only [State.returns, hlog]) hop
    (congrArg Core.calls hcore) fun v hv => by simpa only [State.lockOrder, hlog] using hv
  refine ⟨hbook, ?_, ?_⟩
  · intro hq
    rw [current_of_core hfile hpos, hplain]
    exact h.free (hnone hq)
  · intro b hq
    obtain ⟨b', hp, ht, hio, hreq, hcan, hread, hwrote⟩ := hb b hq
    have hmid := h.midway b' hp
    rw [hplain]
    refine ⟨hcan.trans hmid.live, by rw [hreq, hio]; exact hmid.op,
      by rw [hreq, hpos]; exact hmid.off, ?_⟩
    have hstep := hmid.inStep
    unfold Busy.InStep at hstep ⊢
    rw [hio, ht, hreq, current_of_core hfile hpos, hbuf, hop]
    cases hbio : b'.io with
    | read loop =>
      rw [hbio] at hstep
      exact ⟨hstep.1, hstep.2.1, hread _ _ hstep.2.2⟩
    | write data =>
      rw [hbio] at hstep
      exact ⟨hstep.1, hwrote _ _ _ hstep.2⟩

/-- The call past the lock returns what the plain file returns. -/
theorem Sim.returned (h : Sim flags f s p) (hserial : Serial s p) (hlock : s.lock = some u)
    (hreturns : t.returns = s.returns ++ [(u, o)]) (horder : t.lockOrder = s.lockOrder)
    (hop : t.op = s.op) (hcalls : t.calls = s.calls)
    (hrun : (s.op u).run (s.plain f) = (o, t.current flags)) : Sim flags f t none := by
  have hmem := hserial.ledger.mem_lockOrder hlock
  have hrunning := hserial.ledger.running_of_lock hlock
  obtain ⟨hbook, hplain⟩ := h.book.returned hreturns hop hcalls (fun v hv => horder ▸ hv)
    (hserial.ledger.lt_calls (ne_notCalled_of_running hrunning)) (Or.inl (horder ▸ hmem)) hrun
  exact ⟨hbook, fun _ => hplain.symm, by simp⟩

/-- The first request of a call. -/
theorem Op.start_inStep {op : Op} {io : Io} (hearly : op.early false = none)
    (hstart : op.start = some io) (g : CursorFile UInt8) :
    match io with
    | .read loop => 0 < loop.chunkSz ∧ op.run g = (.bytes (loop.finish g).1, (loop.finish g).2)
    | .write data => op = .write data := by
  cases op with
  | read n =>
    simp only [Op.early, Bool.false_eq_true, if_false] at hearly
    simp only [Op.start] at hstart
    split_ifs at hearly hstart with hn hzero hneg
    · obtain rfl := Option.some.inj hstart
      refine ⟨readSlice_pos, ?_⟩
      simp only [Op.run, if_neg hn, if_pos hneg, ReadLoop.finish, List.nil_append]
    · obtain rfl := Option.some.inj hstart
      refine ⟨?_, ?_⟩
      · have := readSlice_pos
        simp only [ReadLoop.chunkSz]
        omega
      · simp only [Op.run, if_neg hn, if_neg hneg, ReadLoop.finish, List.nil_append]
  | write data =>
    obtain rfl := Option.some.inj hstart
    rfl
  | aclose => exact absurd hstart (by simp [Op.start])

/-- The kernel reads in full. -/
theorem perform_read {req : Request} {res : ℤ} {len : ℕ} {file data : List UInt8}
    (hop : req.op = .read len) (hfull : req.Full s.file res)
    (hperform : req.perform flags res s.file = some (file, data)) :
    file = s.file ∧ res = data.length ∧
      data = ((⟨s.file, req.off, flags.append⟩ : CursorFile UInt8).read len).1 := by
  simp only [Request.Full, hop] at hfull
  subst hfull
  simp only [Request.perform, hop, if_neg (show ¬ ((min len (s.file.length - req.off) : ℕ) : ℤ) < 0
    by omega), Int.toNat_natCast] at hperform
  split_ifs at hperform with hcond
  obtain ⟨rfl, rfl⟩ := Prod.mk.inj (Option.some.inj hperform)
  have hrest : (⟨s.file, req.off, flags.append⟩ : CursorFile UInt8).rest.length =
      s.file.length - req.off := List.length_drop
  have htake : ((⟨s.file, req.off, flags.append⟩ : CursorFile UInt8).read
      (min len (s.file.length - req.off))).1 =
      ((⟨s.file, req.off, flags.append⟩ : CursorFile UInt8).read len).1 := by
    simp only [CursorFile.read]
    rw [← hrest, ← List.take_eq_take_min]
  refine ⟨rfl, ?_, htake⟩
  rw [htake]
  simp only [CursorFile.read, List.length_take, hrest]

/-- The kernel writes in full. -/
theorem perform_write {req : Request} {res : ℤ} {bs file data : List UInt8}
    (hop : req.op = .write bs) (hfull : req.Full s.file res)
    (hperform : req.perform flags res s.file = some (file, data)) :
    res = bs.length ∧
      file = ((⟨s.file, req.off, flags.append⟩ : CursorFile UInt8).write bs).content := by
  simp only [Request.Full, hop] at hfull
  subst hfull
  simp only [Request.perform, hop, if_neg (show ¬ ((bs.length : ℕ) : ℤ) < 0 by omega),
    Int.toNat_natCast, List.take_length] at hperform
  split_ifs at hperform with hcond
  obtain ⟨rfl, rfl⟩ := Prod.mk.inj (Option.some.inj hperform)
  exact ⟨rfl, rfl⟩

theorem Sim.perform (hf : Fits flags f) (h : Sim flags f s p) (hserial : Serial s p) {w : ℕ}
    {io : Io} {req : Request} {c : Bool} {res : ℤ} {file data : List UInt8}
    (hp : p = some ⟨u, io, req, w, .inFlight, c⟩) (hfull : req.Full s.file res)
    (hperform : req.perform flags res s.file = some (file, data))
    (hcore : t.core = { s.core with
      file := file
      buf := Function.update s.buf req.ud (data ++ (s.buf req.ud).drop data.length)
      log := .performed req res :: s.log }) :
    Sim flags f t (some ⟨u, io, req, w, .posted res, c⟩) := by
  have hpos : t.pos = s.pos := congrArg Core.pos hcore
  have hop : t.op = s.op := congrArg Core.op hcore
  have hlog : t.log = .performed req res :: s.log := congrArg Core.log hcore
  have hfile : t.file = file := congrArg Core.file hcore
  have hbuf : t.buf req.ud = data ++ (s.buf req.ud).drop data.length := by
    rw [show t.buf = _ from congrArg Core.buf hcore]
    exact Function.update_self _ _ _
  have hmid := h.midway _ hp
  obtain ⟨hbook, hplain⟩ := h.book.congr (t := t) (by simp [State.returns, hlog]) hop
    (congrArg Core.calls hcore) fun v hv => by simpa [State.lockOrder, hlog] using hv
  refine ⟨hbook, by simp, ?_⟩
  intro b hb
  obtain rfl := Option.some.inj hb
  rw [hplain]
  refine ⟨hmid.live, hmid.op, hmid.off.trans hpos.symm, ?_⟩
  have hoff : req.off = s.pos := hmid.off
  have hstep := hmid.inStep
  have hreqOp : req.op = io.reqOp := hmid.op
  cases io with
  | read loop =>
    obtain ⟨hsize, hrun, -⟩ := hstep
    obtain ⟨rfl, hres, hdata⟩ := perform_read hreqOp hfull hperform
    rw [hoff] at hdata
    have hcurrent : t.current flags = s.current flags := current_of_core hfile hpos
    refine ⟨hsize, ?_, ?_⟩
    · rw [hcurrent, hop]
      exact hrun
    · change res = _ ∧ (t.buf req.ud).take res.toNat = _
      rw [hcurrent, hbuf, hres, Int.toNat_natCast, List.take_left']
      · exact ⟨by rw [hdata]; rfl, hdata⟩
      · rfl
  | write bs =>
    obtain ⟨hbs, hfree⟩ := hstep
    have hfree' : s.current flags = s.plain f := hfree
    have hlt := hserial.ledger.lt_calls (show s.task u ≠ .notCalled by
      subst hp
      rw [hserial.task _ rfl]
      simp)
    have hsmall : bs.length < 2 ^ 31 := by
      have := h.book.permitted u hlt
      rw [show s.op u = .write bs from hbs] at this
      exact this.2
    have hwhole : req.op = .write bs := by
      rw [hreqOp, Io.reqOp, Nat.mod_eq_of_lt (by omega), List.take_length]
    obtain ⟨hres, hfile'⟩ := perform_write hwhole hfull hperform
    have hfits : Fits flags (s.plain f) := hf.runAll _
    refine ⟨by rw [hop]; exact hbs, hres, ?_⟩
    rw [hfits.write_eq bs, ← hfree', State.current, hfile, hfile', hpos, hoff]
    rfl

/-- What the call past the lock has in its buffer once its completion was taken out. -/
theorem Sim.taken_read (h : Sim flags f s p) {w : ℕ} {loop : ReadLoop} {req : Request} {c : Bool}
    {res : ℤ} (hp : p = some ⟨u, .read loop, req, w, .taken res, c⟩) :
    0 < loop.chunkSz ∧
      (s.op u).run (s.plain f) =
        (.bytes (loop.finish (s.current flags)).1, (loop.finish (s.current flags)).2) ∧
      (s.buf req.ud).take res.toNat = ((s.current flags).read loop.chunkSz).1 ∧
      (s.current flags).advance res.toNat = ((s.current flags).read loop.chunkSz).2 := by
  obtain ⟨hsize, hrun, hres, hbuf⟩ := (h.midway _ hp).inStep
  refine ⟨hsize, hrun, hbuf, ?_⟩
  rw [hres, Int.toNat_natCast]
  rfl

theorem sim_step (hf : Fits flags f) (hserial : Serial s p) (h : Sim flags f s p) {e : Event}
    (hP : Faithful flags limit s e) (hmove : Move flags s t e p q) : Sim flags f t q := by
  cases hmove with
  | call ht =>
    subst ht
    have hop : Op.Permitted flags (if s.fp.isSome then limit else none) _ := hP
    rw [hserial.fp] at hop
    exact h.call hserial hop
  | unlocked => exact absurd hP (by simp [Faithful])
  | @nothing u r hwait hop hcore =>
    have hlog : t.log = .returned u (.bytes []) :: .locked u :: s.log := congrArg Core.log hcore
    have hreturns : t.returns = s.returns ++ [(u, .bytes [])] := by simp [State.returns, hlog]
    have horder : t.lockOrder = s.lockOrder ++ [u] := by simp [State.lockOrder, hlog]
    have hcurrent : t.current flags = s.current flags :=
      current_of_core (congrArg Core.file hcore) (congrArg Core.pos hcore)
    have hrun : (s.op u).run (s.plain f) = (.bytes [], s.plain f) := by
      rw [hop]
      simp [Op.run, CursorFile.read_zero]
    obtain ⟨hbook, hplain⟩ := h.book.returned hreturns (congrArg Core.op hcore)
      (congrArg Core.calls hcore) (fun v hv => by rw [horder]; exact List.mem_append_left _ hv)
      (hserial.ledger.lt_calls (by rw [hwait]; simp)) (Or.inl (by rw [horder]; simp)) hrun
    exact ⟨hbook, fun _ => by rw [hcurrent, hplain]; exact h.free rfl, by simp⟩
  | @start u w r io hwait hstart hcore =>
    have hlog : t.log = _ := congrArg Core.log hcore
    have hop : t.op = s.op := congrArg Core.op hcore
    have hpos : t.pos = s.pos := congrArg Core.pos hcore
    have hcurrent : t.current flags = s.current flags :=
      current_of_core (congrArg Core.file hcore) hpos
    obtain ⟨hbook, hplain⟩ := h.book.congr (t := t) (by simp [State.returns, hlog]) hop
      (congrArg Core.calls hcore) fun v hv => by
        simpa [State.lockOrder, hlog, State.core] using Or.inl hv
    refine ⟨hbook, by simp, ?_⟩
    intro b hb
    obtain rfl := Option.some.inj hb
    have hbegin := Op.start_inStep (hserial.ledger.asking u hwait) hstart (s.plain f)
    have hfree := h.free rfl
    rw [hplain]
    refine ⟨rfl, rfl, hpos.symm, ?_⟩
    cases io with
    | read loop =>
      refine ⟨hbegin.1, ?_, trivial⟩
      rw [hcurrent, hfree, hop]
      exact hbegin.2
    | write data => exact ⟨(congrFun hop u).trans hbegin, hcurrent.trans hfree⟩
  | @perform u w i io req c res file data hreq hperform hcore =>
    exact h.perform hf hserial rfl (hP req hreq) hperform hcore
  | take hcore =>
    refine h.relabel hcore (by simp) ?_
    intro b hb
    obtain rfl := Option.some.inj hb
    exact ⟨_, rfl, rfl, rfl, rfl, rfl, fun _ _ hread => hread, fun _ _ _ hwrote => hwrote⟩
  | idle hcore =>
    exact h.relabel hcore (fun hq => hq) fun b hb =>
      ⟨b, hb, rfl, rfl, rfl, rfl, fun _ _ hread => hread, fun _ _ _ hwrote => hwrote⟩
  | cancel => exact absurd hP (by simp [Faithful])
  | @fail u w io req res r hres hcore =>
    -- no result is negative
    have hpos : 0 ≤ res := by
      have hstep := (h.midway _ rfl).inStep
      cases io with
      | read loop =>
        have hlen : res = _ := hstep.2.2.1
        omega
      | write data =>
        have hlen : res = _ := hstep.2.1
        omega
    omega
  | @wrote u w data req res r hres hcore =>
    obtain ⟨hop, hlen, hadvance⟩ := (h.midway _ rfl).inStep
    have hlen' : res = (data.length : ℤ) := hlen
    have hlog : t.log = _ := congrArg Core.log hcore
    have hcurrent : t.current flags = (s.current flags).advance res.toNat :=
      current_advance (congrArg Core.file hcore) (congrArg Core.pos hcore)
    refine h.returned hserial hserial.lock (o := .count res.toNat)
      (by simp [State.returns, hlog])
      (by simp [State.lockOrder, hlog]) (congrArg Core.op hcore)
      (congrArg Core.calls hcore) ?_
    have hop' : s.op u = .write data := hop
    change (s.op u).run (s.plain f) = _
    rw [hop', hcurrent, hlen', Int.toNat_natCast, hadvance]
    rfl
  | @last u w loop out req res r hres hfeed hcore =>
    obtain ⟨hsize, hrun, hpiece, hadvance⟩ := h.taken_read rfl
    have hlog : t.log = _ := congrArg Core.log hcore
    have hcurrent : t.current flags = (s.current flags).advance res.toNat :=
      current_advance (congrArg Core.file hcore) (congrArg Core.pos hcore)
    refine h.returned hserial hserial.lock (o := .bytes out)
      (by simp [State.returns, hlog])
      (by simp [State.lockOrder, hlog]) (congrArg Core.op hcore)
      (congrArg Core.calls hcore) ?_
    change (s.op u).run (s.plain f) = _
    rw [hrun, ReadLoop.finish_of_inr hsize hpiece hfeed, hcurrent, hadvance]
  | @next u w w' loop loop' req res r hres hfeed hcore =>
    obtain ⟨hsize, hrun, hpiece, hadvance⟩ := h.taken_read rfl
    have hlog : t.log = _ := congrArg Core.log hcore
    have hop : t.op = s.op := congrArg Core.op hcore
    have hpos : t.pos = s.pos + res.toNat := congrArg Core.pos hcore
    have hcurrent : t.current flags = (s.current flags).advance res.toNat :=
      current_advance (congrArg Core.file hcore) hpos
    obtain ⟨hfinish, hsize'⟩ := ReadLoop.finish_of_inl hpiece hfeed
    obtain ⟨hbook, hplain⟩ := h.book.congr (t := t) (by simp [State.returns, hlog]) hop
      (congrArg Core.calls hcore) fun v hv => by
        simpa [State.lockOrder, hlog, State.core] using hv
    refine ⟨hbook, by simp, ?_⟩
    intro b hb
    obtain rfl := Option.some.inj hb
    rw [hplain]
    refine ⟨rfl, rfl, hpos.symm, hsize', ?_, trivial⟩
    rw [hcurrent, hadvance, hop, ← hfinish]
    exact hrun
  | abandon => exact absurd (h.midway _ rfl).live (by simp)

/-- In such a run no call is cancelled, let alone leaves a request behind. -/
theorem Sim.undisturbed (h : Sim flags f s p) (hserial : Serial s p) {e : Event}
    (hP : Faithful flags limit s e) : Undisturbed s e := by
  refine ⟨?_, ?_⟩
  · cases e with
    | call op =>
      intro hop
      rw [hop] at hP
      exact hP
    | acquire u submitRet => exact hP
    | complete i res => trivial
    | onReadable waitRet peeks => exact hP
    | runJob u most => trivial
    | resume u submitRet => exact hP
    | cancel u => trivial
  · intro habandons
    cases e with
    | resume u submitRet =>
      obtain ⟨io, req, w, hu, -⟩ := id habandons
      obtain ⟨stage, c, rfl⟩ := hserial.of_awaiting hu
      exact hserial.not_abandons (h.midway _ rfl).live submitRet habandons
    | call op => exact habandons
    | acquire u submitRet => exact habandons
    | complete i res => exact habandons
    | onReadable waitRet peeks => exact habandons
    | runJob u most => exact habandons
    | cancel u => exact habandons

theorem sim_aenter (mode : Mode) (content : List UInt8) :
    Sim (modeToFlags mode) (opened mode content) (aenter (modeToFlags mode) true content) none where
  book := ⟨rfl, by simp [aenter, State.returns], fun u hu => absurd hu (Nat.not_lt_zero u),
    by simp [aenter, State.returns]⟩
  free _ := rfl
  midway := by simp

/-- On the ring the calls are those of the plain file. -/
theorem linearized_ring {mode : Mode} {content : List UInt8}
    (h : Reach (step (modeToFlags mode)) (Faithful (modeToFlags mode) limit)
      (aenter (modeToFlags mode) true content) s) : Linearized (opened mode content) s := by
  obtain ⟨p, hserial, hsim⟩ := h.invariant
    (I := fun v => ∃ p, Serial v p ∧ Sim (modeToFlags mode) (opened mode content) v p)
    ⟨none, serial_aenter _ _, sim_aenter mode content⟩
    fun v e x ⟨_, hserial, hsim⟩ hP hx => by
      obtain ⟨q, hserial', hmove⟩ := serial_step hserial (hsim.undisturbed hserial hP) hx
      exact ⟨q, hserial', sim_step (fits_opened mode content) hserial hsim hP hmove⟩
  refine hsim.book.linearized hserial.ledger ?_
  intro hlock
  have hfree : p = none := Option.map_eq_none_iff.mp (hserial.lock.symm.trans hlock)
  exact congrArg CursorFile.content (hsim.free hfree)

/-! ## In the executor -/

/-- The file with the position of the `builtins.open` file. -/
def State.buffered (flags : Flags) (pos : ℕ) (s : State) : CursorFile UInt8 :=
  ⟨s.file, pos, flags.append⟩

/-- The `builtins.open` file is the plain file, up to the job of the call that has the
lock. -/
structure Buffered (flags : Flags) (bound : ℕ) (f : CursorFile UInt8) (s : State) : Prop where
  ledger : Ledger s
  book : Book flags (some bound) f s
  closed : s.closed = false
  inflight : s.inflight = []
  tasks : ∀ u io req w, s.task u ≠ .awaiting io req w
  fp : ∃ pos, s.fp = some pos ∧
    (s.lock = none → s.buffered flags pos = s.plain f) ∧
    (∀ u, s.task u = .inExecutor →
      (s.op u).early false = none ∧ s.buffered flags pos = s.plain f) ∧
    ∀ u o, s.task u = .executed o →
      (s.op u).run (s.plain f) = (o, s.buffered flags pos)

/-- The job of a read. -/
theorem run_read {n : ℤ} {pos pos' : ℕ} {file : List UInt8} (hbound : bound < 2 ^ 63 - 33)
    (hmost : bound ≤ most)
    (hop : (Op.read n).Permitted flags (some bound)) (hearly : (Op.read n).early false = none)
    (hread : fpRead flags most file n pos = (o, pos')) :
    (Op.read n).run ⟨file, pos, flags.append⟩ = (o, ⟨file, pos', flags.append⟩) := by
  have hn : ¬ n < -1 := fun hn => by simp [Op.early, hn] at hearly
  have hle : n ≤ bound := hop.2 bound rfl
  have hsmall : ¬ (2 : ℤ) ^ 63 - 33 ≤ n := by omega
  have hroom : ¬ (most : ℤ) < n := by omega
  simp only [fpRead, hop.1, Bool.not_true, Bool.false_eq_true, if_false, if_neg hsmall,
    if_neg hroom] at hread
  obtain ⟨rfl, rfl⟩ := Prod.mk.inj hread
  simp only [Op.run, if_neg hn]
  split <;> rfl

/-- The job of a write. -/
theorem run_write {data file file' : List UInt8} {pos pos' : ℕ}
    (hop : (Op.write data).Permitted flags limit)
    (hwrite : fpWrite flags file data pos = (o, file', pos')) :
    (Op.write data).run ⟨file, pos, flags.append⟩ = (o, ⟨file', pos', flags.append⟩) := by
  simp only [fpWrite, hop.1, Bool.not_true, Bool.false_eq_true, if_false] at hwrite
  obtain ⟨rfl, hrest⟩ := Prod.mk.inj hwrite
  obtain ⟨rfl, rfl⟩ := Prod.mk.inj hrest
  have happend := CursorFile.append_write data (⟨file, pos, flags.append⟩ : CursorFile UInt8)
  simp only [Op.run]
  generalize CursorFile.write data ⟨file, pos, flags.append⟩ = g at happend ⊢
  obtain ⟨content, cursor, append⟩ := g
  simp only at happend
  rw [happend]

theorem Buffered.call (h : Buffered flags bound f s) {op : Op}
    (hop : op.Permitted flags (some bound)) :
    Buffered flags bound f (s.call op) := by
  obtain ⟨hbook, hplain⟩ := h.book.call h.closed hop
  obtain ⟨pos, hfp, hfree, hjob, hdone⟩ := h.fp
  obtain ⟨hfile, -, -, hops⟩ := call_frame s op
  have hbuffered : (s.call op).buffered flags pos = s.buffered flags pos := by
    simp only [State.buffered, hfile]
  have hsame : (s.call op).closed = s.closed ∧ (s.call op).inflight = s.inflight ∧
      (s.call op).fp = s.fp ∧ (s.call op).lock = s.lock ∧
      ∀ u, (s.call op).task u = s.task u ∨
        ((s.call op).task u = .waitingLock ∨ ∃ o, (s.call op).task u = .done o) := by
    unfold State.call
    simp only
    split
    · next o _ =>
      refine ⟨rfl, rfl, rfl, rfl, ?_⟩
      intro u
      by_cases hu : u = s.calls
      · exact Or.inr (Or.inr ⟨o, by rw [hu]; exact Function.update_self _ _ _⟩)
      · exact Or.inl (Function.update_of_ne hu _ _)
    · refine ⟨rfl, rfl, rfl, rfl, ?_⟩
      intro u
      by_cases hu : u = s.calls
      · exact Or.inr (Or.inl (by rw [hu]; exact Function.update_self _ _ _))
      · exact Or.inl (Function.update_of_ne hu _ _)
  obtain ⟨hclosed, hinflight, hfp', hlock, htask⟩ := hsame
  have hrunning : ∀ u, ((s.call op).task u).isRunning = true → (s.call op).task u = s.task u ∧
      (s.call op).op u = s.op u := by
    intro u hrun
    rcases htask u with heq | hw | ⟨o, ho⟩
    · have hlt := h.ledger.lt_calls (ne_notCalled_of_running (heq ▸ hrun))
      exact ⟨heq, hops u (Nat.ne_of_lt hlt)⟩
    · exact absurd hw (ne_waitingLock_of_running hrun)
    · exact absurd ho (ne_done_of_running hrun o)
  refine ⟨h.ledger.call op, hbook, hclosed.trans h.closed, hinflight.trans h.inflight,
    ?_, pos, hfp'.trans hfp, ?_, ?_, ?_⟩
  · intro u io req w hu
    obtain ⟨heq, -⟩ := hrunning u (by rw [hu]; rfl)
    exact h.tasks u io req w (heq.symm.trans hu)
  · intro hl
    rw [hbuffered, hplain]
    exact hfree (hlock.symm.trans hl)
  · intro u hu
    obtain ⟨heq, hopu⟩ := hrunning u (by rw [hu]; rfl)
    rw [hbuffered, hplain, hopu]
    exact hjob u (heq.symm.trans hu)
  · intro u o hu
    obtain ⟨heq, hopu⟩ := hrunning u (by rw [hu]; rfl)
    rw [hbuffered, hplain, hopu]
    exact hdone u o (heq.symm.trans hu)

/-- The call past the lock goes on to its next `await`. -/
theorem Buffered.acquire (h : Buffered flags bound f s) {submitRet : ℤ}
    (ht : s.acquire u submitRet = some t) : Buffered flags bound f t := by
  have hledger := h.ledger.acquire ht
  obtain ⟨hwait, hfree, heq⟩ := acquire_cases ht
  obtain ⟨pos, hfp, hfree', -, -⟩ := h.fp
  have hlt := h.ledger.lt_calls (show s.task u ≠ .notCalled by rw [hwait]; simp)
  have ht' : t = ({ s with lock := some u, log := .locked u :: s.log } : State).setTask u
      .inExecutor := by
    rw [heq]
    unfold State.locked
    cases hop : s.op u with
    | read n => simp [hfp]
    | write data => simp [hfp]
    | aclose =>
      have := h.book.permitted u hlt
      rw [hop] at this
      exact this.elim
  have hidle : ∀ v, v ≠ u → (s.task v).isRunning = false := fun v _ =>
    Bool.eq_false_iff.mpr fun hrun => by
      have := (h.ledger.holder v).mp hrun
      rw [hfree] at this
      exact absurd this (by simp)
  subst ht'
  obtain ⟨hbook, hplain⟩ := h.book.congr (t := ({ s with
    lock := some u, log := .locked u :: s.log } : State).setTask u .inExecutor) rfl rfl rfl
      fun v hv => by rw [lockOrder_cons_locked (s := s) rfl]; exact List.mem_append_left _ hv
  refine ⟨hledger, hbook, h.closed, h.inflight, ?_, pos, hfp, ?_,
    ?_, ?_⟩
  · intro v io req w hv
    by_cases hvu : v = u
    · rw [hvu, task_setTask_self] at hv
      exact absurd hv (by simp)
    · rw [task_setTask_of_ne hvu] at hv
      exact h.tasks v io req w hv
  · intro hl
    exact absurd hl (by simp [State.setTask])
  · intro v hv
    by_cases hvu : v = u
    · rw [hplain, hvu]
      exact ⟨h.ledger.asking u hwait, hfree' hfree⟩
    · rw [task_setTask_of_ne hvu] at hv
      have hv' : s.task v = .inExecutor := hv
      exact absurd (hidle v hvu) (by rw [hv']; simp [Task.isRunning])
  · intro v o hv
    by_cases hvu : v = u
    · rw [hvu, task_setTask_self] at hv
      exact absurd hv (by simp)
    · rw [task_setTask_of_ne hvu] at hv
      have hv' : s.task v = .executed o := hv
      exact absurd (hidle v hvu) (by rw [hv']; simp [Task.isRunning])

theorem Buffered.executed (h : Buffered flags bound f s) (hu : s.task u = .inExecutor) {pos : ℕ}
    {file : List UInt8}
    (hrun : (s.op u).run (s.plain f) = (o, ⟨file, pos, flags.append⟩)) :
    Buffered flags bound f
      (({ s with file := file, fp := some pos } : State).setTask u (.executed o)) := by
  have hlock : s.lock = some u := (h.ledger.holder u).mp (by rw [hu]; rfl)
  have hledger : Ledger (({ s with file := file, fp := some pos } : State).setTask u
      (.executed o)) := by
    refine Holding.setTask ?_ rfl
    exact (h.ledger.holding hlock).congr rfl
  obtain ⟨hbook, hplain⟩ := h.book.congr (t := ({ s with
    file := file, fp := some pos } : State).setTask u (.executed o)) rfl rfl rfl fun v hv => hv
  have hother : ∀ v, v ≠ u → (s.task v).isRunning = false := fun v hvu =>
    Bool.eq_false_iff.mpr fun hrun' => by
      have := (h.ledger.holder v).mp hrun'
      rw [hlock] at this
      exact hvu (Option.some.inj this).symm
  refine ⟨hledger, hbook, h.closed, h.inflight, ?_, pos, rfl, ?_,
    ?_, ?_⟩
  · intro v io req w hv
    by_cases hvu : v = u
    · rw [hvu, task_setTask_self] at hv
      exact absurd hv (by simp)
    · rw [task_setTask_of_ne hvu] at hv
      exact h.tasks v io req w hv
  · intro hl
    exact absurd (hlock.symm.trans hl) (by simp)
  · intro v hv
    by_cases hvu : v = u
    · rw [hvu, task_setTask_self] at hv
      exact absurd hv (by simp)
    · rw [task_setTask_of_ne hvu] at hv
      have hv' : s.task v = .inExecutor := hv
      exact absurd (hother v hvu) (by rw [hv']; simp [Task.isRunning])
  · intro v p hv
    by_cases hvu : v = u
    · rw [hvu, task_setTask_self] at hv
      rw [hplain, hvu, ← Task.executed.inj hv]
      exact hrun
    · rw [task_setTask_of_ne hvu] at hv
      have hv' : s.task v = .executed p := hv
      exact absurd (hother v hvu) (by rw [hv']; simp [Task.isRunning])

theorem Buffered.runJob (h : Buffered flags bound f s) (hbound : bound < 2 ^ 63 - 33)
    (hmost : bound ≤ most) (ht : s.runJob flags u most = some t) :
    Buffered flags bound f t := by
  obtain ⟨pos, hfp, -, hjob, -⟩ := h.fp
  unfold State.runJob at ht
  split at ht
  · next hu =>
    obtain ⟨hearly, hplain⟩ := hjob u hu
    have hlt := h.ledger.lt_calls (show s.task u ≠ .notCalled by rw [hu]; simp)
    have hpermitted := h.book.permitted u hlt
    rw [hfp] at ht
    cases hop : s.op u with
    | read n =>
      rw [hop] at ht hpermitted hearly
      rw [← Option.some.inj ht]
      refine h.executed hu ?_
      rw [hop, ← hplain]
      exact run_read hbound hmost hpermitted hearly rfl
    | write data =>
      rw [hop] at ht hpermitted
      rw [← Option.some.inj ht]
      refine h.executed hu ?_
      rw [hop, ← hplain]
      exact run_write hpermitted rfl
    | aclose =>
      rw [hop] at hpermitted
      exact hpermitted.elim
  · exact absurd ht (by simp)

theorem Buffered.resume (h : Buffered flags bound f s) {submitRet : ℤ}
    (ht : s.resume u submitRet = some t) : Buffered flags bound f t := by
  have hledger := h.ledger.resume ht
  obtain ⟨pos, hfp, -, -, hdone⟩ := h.fp
  rcases resume_cases ht with ⟨io, req, w, ua, hu, -⟩ | ⟨o, hu, rfl⟩
  · exact absurd hu (h.tasks u io req w)
  · have hlock : s.lock = some u := (h.ledger.holder u).mp (by rw [hu]; rfl)
    have hlt := h.ledger.lt_calls (show s.task u ≠ .notCalled by rw [hu]; simp)
    obtain ⟨hbook, hplain⟩ := h.book.returned (returns_finish u o s) rfl rfl (fun v hv => hv) hlt
      (Or.inl (h.ledger.mem_lockOrder hlock)) (hdone u o hu)
    have hnone : ∀ v, ((s.finish u o).task v).isRunning = false := fun v =>
      Bool.eq_false_iff.mpr fun hrun => absurd ((hledger.holder v).mp hrun) (by simp [State.finish])
    refine ⟨hledger, hbook, h.closed, h.inflight, ?_, pos, hfp,
      fun _ => hplain.symm, ?_, ?_⟩
    · intro v io req w hv
      exact absurd (hnone v) (by rw [hv]; simp [Task.isRunning])
    · intro v hv
      exact absurd (hnone v) (by rw [hv]; simp [Task.isRunning])
    · intro v p hv
      exact absurd (hnone v) (by rw [hv]; simp [Task.isRunning])

theorem buffered_step (h : Buffered flags bound f s) (hbound : bound < 2 ^ 63 - 33) {e : Event}
    (hP : Faithful flags (some bound) s e) (ht : step flags s e = some t) :
    Buffered flags bound f t := by
  cases e with
  | call op =>
    obtain ⟨pos, hfp, -⟩ := h.fp
    obtain rfl := Option.some.inj ht
    have hop : op.Permitted flags (if s.fp.isSome then some bound else none) := hP
    rw [hfp] at hop
    exact h.call hop
  | acquire u submitRet => exact h.acquire ht
  | complete i res =>
    obtain ⟨req, _, _, hreq, -⟩ := complete_cases ht
    rw [h.inflight] at hreq
    exact absurd hreq (by simp)
  | onReadable waitRet peeks =>
    obtain ⟨ua, -, rfl⟩ := Option.map_eq_some_iff.mp ht
    have hbook := (h.book.congr (t := { s with ua := ua }) rfl rfl rfl fun v hv => hv).1
    exact ⟨h.ledger.congr rfl, hbook, h.closed, h.inflight, h.tasks, h.fp⟩
  | runJob u most => exact h.runJob hbound (hP bound rfl) ht
  | resume u submitRet => exact h.resume ht
  | cancel u => exact hP.elim

theorem buffered_aenter (mode : Mode) (content : List UInt8) :
    Buffered (modeToFlags mode) bound (opened mode content)
      (aenter (modeToFlags mode) false content) where
  ledger := ledger_aenter _ _ _
  book := ⟨rfl, by simp [aenter, State.returns], fun u hu => absurd hu (Nat.not_lt_zero u),
    by simp [aenter, State.returns]⟩
  closed := rfl
  inflight := rfl
  tasks := by simp [aenter]
  fp := ⟨_, rfl, fun _ => rfl, by simp [aenter], by simp [aenter]⟩

/-- In the executor the calls are those of the plain file. -/
theorem linearized_executor {mode : Mode} {content : List UInt8} (hbound : bound < 2 ^ 63 - 33)
    (h : Reach (step (modeToFlags mode)) (Faithful (modeToFlags mode) (some bound))
      (aenter (modeToFlags mode) false content) s) : Linearized (opened mode content) s := by
  have hbuffered := h.invariant (I := Buffered (modeToFlags mode) bound (opened mode content))
    (buffered_aenter mode content) fun v e x hv hP hx => buffered_step hv hbound hP hx
  refine hbuffered.book.linearized hbuffered.ledger ?_
  intro hlock
  obtain ⟨pos, -, hfree, -⟩ := hbuffered.fp
  exact congrArg CursorFile.content (hfree hlock)

/-- **An `AsyncFile` is a file with one cursor.**  On the ring and in the executor, in every
mode, for every content and in every order of steps, the calls return what a plain file
returns to them in the order in which they take the lock, and leave what it leaves.  In the
executor the reads are of sizes that the process can get. -/
theorem refines_cursorFile (mode : Mode) (uring : Bool) (content : List UInt8) (bound : ℕ)
    (hbound : bound < 2 ^ 63 - 33) (s : State)
    (h : Reach (step (modeToFlags mode)) (Faithful (modeToFlags mode) (some bound))
      (aenter (modeToFlags mode) uring content) s) : Linearized (opened mode content) s := by
  cases uring with
  | true => exact linearized_ring h
  | false => exact linearized_executor hbound h

/-- A read in the executor that asks for more than the process can get. -/
def hugeRead : List Event := [.call (.read (2 ^ 62)), .acquire 0 0, .runJob 0 (2 ^ 47), .resume 0 0]

/-- Without a limit the executor need not do what the plain file does, which is to read the three
bytes that there are. -/
theorem huge_read_raises :
    ¬ ∀ (mode : Mode) (uring : Bool) (content : List UInt8) (s : State),
      Reach (step (modeToFlags mode)) (Faithful (modeToFlags mode) none)
        (aenter (modeToFlags mode) uring content) s → Linearized (opened mode content) s := by
  intro h
  have hrun : exec (step (modeToFlags .rb)) (aenter (modeToFlags .rb) false [1, 2, 3]) hugeRead =
      some _ := rfl
  have hlinearized := h .rb false [1, 2, 3] _ (reach_of_exec (by decide) hrun)
  have hraised : [Outcome.error .memoryError] = [Outcome.bytes [1, 2, 3]] := hlinearized.outcomes
  exact absurd hraised (by decide)

/-- Two calls on a file opened with `r+b`: the second waits for the lock meanwhile. -/
theorem refines_cursorFile_readWrite :
    ∃ s, exec (step (modeToFlags .rPlusB)) (aenter (modeToFlags .rPlusB) true [1, 2, 3])
      [.call (.read 2), .acquire 0 0, .call (.write [9]), .complete 0 2, .onReadable 0 none,
        .resume 0 0, .acquire 1 0, .complete 0 1, .onReadable 0 none, .resume 1 0] = some s ∧
      s.returns = [(0, .bytes [1, 2]), (1, .count 1)] ∧ s.file = [1, 2, 9] ∧
      Linearized (opened .rPlusB [1, 2, 3]) s := by
  have hrun : exec (step (modeToFlags .rPlusB)) (aenter (modeToFlags .rPlusB) true [1, 2, 3])
      [.call (.read 2), .acquire 0 0, .call (.write [9]), .complete 0 2, .onReadable 0 none,
        .resume 0 0, .acquire 1 0, .complete 0 1, .onReadable 0 none, .resume 1 0] = some _ := rfl
  exact ⟨_, hrun, rfl, rfl,
    refines_cursorFile .rPlusB true [1, 2, 3] 4096 (by decide) _ (reach_of_exec (by decide) hrun)⟩

end AsyncFile
end Pyuring
