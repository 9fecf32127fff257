import Pyuring.AsyncFileErrors
import Mathlib.Data.List.Infix

/-!
# An object on a file that others append to

An `AsyncFile` that was opened for reading or for appending, on a file that grows between its
steps: other objects on the same path append to it.  What holds of such an object does not
depend on who else writes (`Tended`).  Its writes that the kernel has carried out are its blocks,
one for a call at most, and a call that returned a count has a block of that length.  A read
waits for its slices at the position, and since the file only grows, a slice read there stays
where it was.

A write that raised may have a block too: it may have been cancelled, or handed the completion of
another request.

Which call made a request is not kept by the object, and `Handle.caller` keeps it for the
statements.
-/

namespace Pyuring
namespace AsyncFile

open Trace

/-- An object, the flags of its descriptor, and the call that made the request of each tag. -/
structure Handle where
  flags : Flags
  state : State
  caller : ℕ → ℕ

/-- What a request puts into the file when it is answered with `res`. -/
def Request.block (caller : ℕ → ℕ) (res : ℤ) (req : Request) : Option (ℕ × List UInt8) :=
  match req.op with
  | .write data => if res < 0 then none else some (caller req.ud, data.take res.toNat)
  | .read _ => none

namespace Handle

/-- The object on the contents of the file. -/
def on (content : List UInt8) (h : Handle) : State := { h.state with file := content }

/-- The calls that made the requests, with the one that may make a request now. -/
def callerAfter (e : Event) (h : Handle) : ℕ → ℕ :=
  match e with
  | .acquire u _ => Function.update h.caller h.state.ud u
  | .resume u _ => Function.update h.caller h.state.ud u
  | _ => h.caller

/-- The call whose write the kernel carries out, and the bytes that it takes. -/
def written (e : Event) (h : Handle) : List (ℕ × List UInt8) :=
  match e with
  | .complete i res => (h.state.inflight[i]?.bind (Request.block h.caller res)).toList
  | _ => []

end Handle

/-- The descriptor does not truncate the file, and writes at its end only. -/
def Flags.Appends (flags : Flags) : Prop :=
  flags.trunc = false ∧ (flags.write = true → flags.append = true)

/-! ## What is kept of an object -/

/-- What an object knows of its requests and their answers. -/
structure Sight where
  file : List UInt8
  pos : ℕ
  ud : ℕ
  op : ℕ → Op
  live : List Request
  posted : List (ℕ × ℤ)
  buf : ℕ → List UInt8

def State.sight (s : State) : Sight :=
  ⟨s.file, s.pos, s.ud, s.op, s.queued ++ s.inflight, s.ua.posted, s.buf⟩

/-- The tags of the requests that are not answered, and of the answers. -/
def Sight.tags (v : Sight) : List ℕ := v.live.map Request.ud ++ v.posted.map Prod.fst

/-- The call can make the request. -/
def Op.Makes : Op → ReqOp → Prop
  | .read _, .read _ => True
  | .write data, .write bytes => bytes <+: data
  | _, _ => False

/-- The call has taken the lock, or has returned. -/
def Task.Begun (task : Task) : Prop := task ≠ .notCalled ∧ task ≠ .waitingLock

/-- The call of a request that writes. -/
def writer (caller : ℕ → ℕ) (r : Request) : Option ℕ :=
  match r.op with
  | .write _ => some (caller r.ud)
  | .read _ => none

/-- The bytes stand in the file up to the position. -/
def Sight.Piece (v : Sight) (got : List UInt8) : Prop :=
  ∃ p, p + got.length = v.pos ∧ got <+: v.file.drop p

/-- A read waits for a slice at the position. -/
structure AwaitsSlice (v : Sight) (loop : ReadLoop) (req : Request) : Prop where
  off : req.off = v.pos
  piece : v.Piece loop.soFar
  only : ∀ r ∈ v.live, r.ud = req.ud → r = req
  truth : ∀ res, (req.ud, res) ∈ v.posted → 0 ≤ res →
    ((v.buf req.ud).take res.toNat).length = res.toNat ∧
      (v.buf req.ud).take res.toNat <+: v.file.drop req.off

/-- What the call waits for is what it was called for. -/
def Sight.Doing (v : Sight) (op : Op) (req : Request) : Io → Prop
  | .read loop => (∃ n, op = .read n) ∧ AwaitsSlice v loop req
  | .write data => op = .write data

/-- The call `u` with its blocks `bs`. -/
def Settled (caller : ℕ → ℕ) (bs : List (ℕ × List UInt8)) (v : Sight) (u : ℕ) : Task → Prop
  | .notCalled => True
  | .waitingLock => True
  | .awaiting io req _ =>
    caller req.ud = u ∧ 0 < req.ud ∧ req.ud < v.ud ∧ v.Doing (v.op u) req io
  | .inExecutor => False
  | .executed _ => False
  | .done (.count n) => ∃ data, v.op u = .write data ∧
      (data = [] ∧ n = 0 ∨ ∃ bytes, (u, bytes) ∈ bs ∧ bytes.length = n)
  | .done (.bytes out) => ∃ p, out <+: v.file.drop p
  | .done .none => True
  | .done (.error _) => True

/-- What holds of an object between its steps; nothing is said of the call `busy`. -/
structure Accounted (caller : ℕ → ℕ) (bs : List (ℕ × List UInt8)) (busy : Option ℕ)
    (task : ℕ → Task)
    (v : Sight) : Prop where
  started : 0 < v.ud
  nodup : v.tags.Nodup
  fresh : ∀ x ∈ v.tags, 0 < x ∧ x < v.ud
  fits : ∀ r ∈ v.live, (v.op (caller r.ud)).Makes r.op
  begun : ∀ x, 0 < x → x < v.ud → busy ≠ some (caller x) → (task (caller x)).Begun
  once : (bs.map Prod.fst ++ v.live.filterMap (writer caller)).Nodup
  owned : ∀ b ∈ bs, (∃ x, 0 < x ∧ x < v.ud ∧ caller x = b.1) ∧
    ∃ data, v.op b.1 = .write data ∧ b.2 <+: data
  posted : ∀ a ∈ v.posted, 0 ≤ a.2 → ∀ data, v.op (caller a.1) = .write data →
    ∃ bytes, (caller a.1, bytes) ∈ bs ∧ bytes.length = a.2.toNat
  settled : ∀ u, busy ≠ some u → Settled caller bs v u (task u)

variable {c c' : ℕ → ℕ} {bs bs' : List (ℕ × List UInt8)} {busy : Option ℕ} {task : ℕ → Task}
  {v v' : Sight} {u most : ℕ} {flags : Flags} {s t : State} {e : Event}

/-- More bytes in the file, and more blocks, do not matter to a call that waits for nothing. -/
theorem Settled.of_idle {k : Task} (h : Settled c bs v u k) (hidle : k.isRunning = false)
    (hop : v'.op u = v.op u) (hfile : v.file <+: v'.file) (hbs : bs ⊆ bs') :
    Settled c' bs' v' u k := by
  cases k with
  | notCalled => trivial
  | waitingLock => trivial
  | awaiting io req w => exact absurd hidle (by simp [Task.isRunning])
  | inExecutor => exact h
  | executed o => exact h
  | done o =>
    cases o with
    | none => trivial
    | error exc => trivial
    | bytes out =>
      obtain ⟨p, hp⟩ := h
      exact ⟨p, hp.trans (hfile.drop p)⟩
    | count n =>
      obtain ⟨data, hdata, hn⟩ := h
      refine ⟨data, hop.trans hdata, hn.imp_right ?_⟩
      rintro ⟨bytes, hmem, hlen⟩
      exact ⟨bytes, hbs hmem, hlen⟩

/-- No call is in the executor. -/
theorem Settled.idle_or_awaiting {k : Task} (h : Settled c bs v u k) :
    k.isRunning = false ∨ ∃ io req w, k = .awaiting io req w := by
  cases k with
  | awaiting io req w => exact Or.inr ⟨io, req, w, rfl⟩
  | inExecutor => exact h.elim
  | executed o => exact h.elim
  | notCalled => exact Or.inl rfl
  | waitingLock => exact Or.inl rfl
  | done o => exact Or.inl rfl

theorem AwaitsSlice.grow {loop : ReadLoop} {req : Request} (h : AwaitsSlice v loop req)
    {file : List UInt8} (hfile : v.file <+: file) :
    AwaitsSlice { v with file := file } loop req where
  off := h.off
  piece := by
    obtain ⟨p, hp, hpiece⟩ := h.piece
    exact ⟨p, hp, hpiece.trans (hfile.drop p)⟩
  only := h.only
  truth res hmem hres := by
    obtain ⟨hlen, hpiece⟩ := h.truth res hmem hres
    exact ⟨hlen, hpiece.trans (hfile.drop req.off)⟩

/-- Another object appends to the file. -/
theorem Accounted.grow (h : Accounted c bs none task v) {file : List UInt8}
    (hfile : v.file <+: file) :
    Accounted c bs none task { v with file := file } where
  started := h.started
  nodup := h.nodup
  fresh := h.fresh
  fits := h.fits
  begun := h.begun
  once := h.once
  owned := h.owned
  posted := h.posted
  settled u hu := by
    have hold := h.settled u hu
    rcases hold.idle_or_awaiting with hidle | ⟨io, req, w, htask⟩
    · exact hold.of_idle hidle rfl hfile (List.Subset.refl _)
    · rw [htask] at hold ⊢
      obtain ⟨hcaller, hpos, hlt, hdoing⟩ := hold
      refine ⟨hcaller, hpos, hlt, ?_⟩
      cases io with
      | write data => exact hdoing
      | read loop => exact ⟨hdoing.1, hdoing.2.grow hfile⟩

/-- A call runs. -/
theorem Accounted.runs (h : Accounted c bs none task v) (u : ℕ) :
    Accounted c bs (some u) task v where
  started := h.started
  nodup := h.nodup
  fresh := h.fresh
  fits := h.fits
  begun x hpos hlt _ := h.begun x hpos hlt (by simp)
  once := h.once
  owned := h.owned
  posted := h.posted
  settled w _ := h.settled w (by simp)

/-- A call comes to its next `await`, or returns. -/
theorem Accounted.settle (h : Accounted c bs (some u) task v) {k : Task}
    (hbegun : ∀ x, 0 < x → x < v.ud → c x = u → k.Begun)
    (hsettled : Settled c bs v u k) : Accounted c bs none (Function.update task u k) v where
  started := h.started
  nodup := h.nodup
  fresh := h.fresh
  fits := h.fits
  begun x hpos hlt _ := by
    by_cases hx : c x = u
    · rw [hx, Function.update_self]
      exact hbegun x hpos hlt hx
    · rw [Function.update_of_ne hx]
      exact h.begun x hpos hlt (fun heq => hx (Option.some.inj heq).symm)
  once := h.once
  owned := h.owned
  posted := h.posted
  settled w _ := by
    by_cases hw : w = u
    · rw [hw, Function.update_self]
      exact hsettled
    · rw [Function.update_of_ne hw]
      exact h.settled w (fun heq => hw (Option.some.inj heq).symm)

/-- The position moves, while no other call waits. -/
theorem Accounted.advance (h : Accounted c bs (some u) task v)
    (hidle : ∀ w, w ≠ u → (task w).isRunning = false) (pos : ℕ) :
    Accounted c bs (some u) task { v with pos := pos } where
  started := h.started
  nodup := h.nodup
  fresh := h.fresh
  fits := h.fits
  begun := h.begun
  once := h.once
  owned := h.owned
  posted := h.posted
  settled w hw := (h.settled w hw).of_idle (hidle w fun heq => hw (by rw [heq])) rfl
    List.prefix_rfl (List.Subset.refl _)

/-! ## Requests -/

theorem Sight.live_mem_tags {r : Request} (h : r ∈ v.live) : r.ud ∈ v.tags :=
  List.mem_append_left _ (List.mem_map_of_mem h)

theorem Sight.posted_mem_tags {a : ℕ × ℤ} (h : a ∈ v.posted) : a.1 ∈ v.tags :=
  List.mem_append_right _ (List.mem_map_of_mem h)

theorem writer_eq_some {r : Request} {x : ℕ} :
    writer c r = some x ↔ (∃ data, r.op = .write data) ∧ c r.ud = x := by
  unfold writer
  cases r.op with
  | read len => simp
  | write data => simp

/-- Nothing has the next tag, so it does not matter which call is to take it. -/
theorem Accounted.point (h : Accounted c bs busy task v) (u : ℕ) :
    Accounted (Function.update c v.ud u) bs busy task v := by
  have hlive : ∀ r ∈ v.live, Function.update c v.ud u r.ud = c r.ud := fun r hr =>
    Function.update_of_ne (Nat.ne_of_lt (h.fresh r.ud (Sight.live_mem_tags hr)).2) _ _
  refine ⟨h.started, h.nodup, h.fresh, ?_, ?_, ?_, ?_, ?_, ?_⟩
  · intro r hr
    rw [hlive r hr]
    exact h.fits r hr
  · intro x hpos hlt
    rw [Function.update_of_ne (Nat.ne_of_lt hlt)]
    exact h.begun x hpos hlt
  · have hwriters : v.live.filterMap (writer (Function.update c v.ud u)) =
        v.live.filterMap (writer c) := by
      refine List.filterMap_congr ?_
      intro r hr
      unfold writer
      rw [hlive r hr]
    rw [hwriters]
    exact h.once
  · intro b hb
    obtain ⟨⟨x, hpos, hlt, hx⟩, hdata⟩ := h.owned b hb
    refine ⟨⟨x, hpos, hlt, ?_⟩, hdata⟩
    rw [Function.update_of_ne (Nat.ne_of_lt hlt)]
    exact hx
  · intro a ha
    rw [Function.update_of_ne (Nat.ne_of_lt (h.fresh a.1 (Sight.posted_mem_tags ha)).2)]
    exact h.posted a ha
  · intro w hw
    have hold := h.settled w hw
    rcases hold.idle_or_awaiting with hidle | ⟨io, req, k, htask⟩
    · exact hold.of_idle hidle rfl List.prefix_rfl (List.Subset.refl _)
    · rw [htask] at hold ⊢
      obtain ⟨hcaller, hpos, hlt, hdoing⟩ := hold
      refine ⟨?_, hpos, hlt, hdoing⟩
      rw [Function.update_of_ne (Nat.ne_of_lt hlt)]
      exact hcaller

/-- A call takes the next tag. -/
theorem Accounted.tag (h : Accounted c bs (some u) task v) (hcaller : c v.ud = u)
    (hidle : ∀ w, w ≠ u → (task w).isRunning = false) (buf : ℕ → List UInt8) :
    Accounted c bs (some u) task { v with ud := v.ud + 1, buf := buf } where
  started := Nat.succ_pos _
  nodup := h.nodup
  fresh x hx := (h.fresh x hx).imp_right Nat.lt_succ_of_lt
  fits := h.fits
  begun x hpos hlt hx := by
    have hne : x ≠ v.ud := fun heq => hx (by rw [heq, hcaller])
    exact h.begun x hpos (Nat.lt_of_le_of_ne (Nat.le_of_lt_succ hlt) hne) hx
  once := h.once
  owned b hb := by
    obtain ⟨⟨x, hpos, hlt, hx⟩, hdata⟩ := h.owned b hb
    exact ⟨⟨x, hpos, Nat.lt_succ_of_lt hlt, hx⟩, hdata⟩
  posted := h.posted
  settled w hw := (h.settled w hw).of_idle (hidle w fun heq => hw (by rw [heq])) rfl
    List.prefix_rfl (List.Subset.refl _)

/-- The call hands a request with its tag to the ring.  A call that writes has none yet. -/
theorem Accounted.enter (h : Accounted c bs (some u) task v)
    (hidle : ∀ w, w ≠ u → (task w).isRunning = false) {req : Request} {live : List Request}
    (hnew : req.ud ∉ v.tags) (hpos : 0 < req.ud) (hlt : req.ud < v.ud) (hcaller : c req.ud = u)
    (hmakes : (v.op u).Makes req.op)
    (hfirst : ∀ data, v.op u = .write data → u ∉ bs.map Prod.fst ++ v.live.filterMap (writer c))
    (hperm : live.Perm (req :: v.live)) :
    Accounted c bs (some u) task { v with live := live } := by
  have htags : (Sight.tags { v with live := live }).Perm (req.ud :: v.tags) :=
    (hperm.map Request.ud).append_right (v.posted.map Prod.fst)
  have honce : (bs.map Prod.fst ++ live.filterMap (writer c)).Nodup := by
    have hwriters := (hperm.filterMap (writer c)).append_left (bs.map Prod.fst)
    rw [hwriters.nodup_iff]
    cases hw : writer c req with
    | none =>
      rw [List.filterMap_cons_none hw]
      exact h.once
    | some x =>
      obtain ⟨⟨data, hdata⟩, hx⟩ := writer_eq_some.mp hw
      rw [List.filterMap_cons_some hw, List.perm_middle.nodup_iff, List.nodup_cons]
      rw [← hx, hcaller]
      refine ⟨?_, h.once⟩
      cases hop : v.op u with
      | write bytes => exact hfirst bytes hop
      | read n => rw [hop, hdata] at hmakes; exact hmakes.elim
      | aclose => rw [hop, hdata] at hmakes; exact hmakes.elim
  refine ⟨h.started, ?_, ?_, ?_, h.begun, honce, h.owned, h.posted, ?_⟩
  · rw [htags.nodup_iff]
    exact List.nodup_cons.mpr ⟨hnew, h.nodup⟩
  · intro x hx
    rcases List.mem_cons.mp (htags.mem_iff.mp hx) with rfl | hx
    · exact ⟨hpos, hlt⟩
    · exact h.fresh x hx
  · intro r hr
    rcases List.mem_cons.mp (hperm.mem_iff.mp hr) with rfl | hr
    · rw [hcaller]
      exact hmakes
    · exact h.fits r hr
  · exact fun w hw => (h.settled w hw).of_idle (hidle w fun heq => hw (by rw [heq])) rfl
      List.prefix_rfl (List.Subset.refl _)

/-- The call runs and is about to make a request. -/
def Sight.Asks (v : Sight) (c : ℕ → ℕ) (bs : List (ℕ × List UInt8)) (u : ℕ) : Io → Prop
  | .read loop => (∃ n, v.op u = .read n) ∧ v.Piece loop.soFar
  | .write data => v.op u = .write data ∧ u ∉ bs.map Prod.fst ++ v.live.filterMap (writer c)

/-- **A call makes a request**, and waits for its answer. -/
theorem Accounted.requested (h : Accounted c bs (some u) task v) (hcaller : c v.ud = u)
    (hidle : ∀ w, w ≠ u → (task w).isRunning = false) {io : Io} (hasks : v.Asks c bs u io)
    (buf : ℕ → List UInt8) (live : List Request)
    (hperm : live.Perm (⟨v.ud, io.reqOp, v.pos⟩ :: v.live)) :
    Accounted c bs (some u) task { v with ud := v.ud + 1, buf := buf, live := live } ∧
      ∀ w, Settled c bs { v with ud := v.ud + 1, buf := buf, live := live } u
        (.awaiting io ⟨v.ud, io.reqOp, v.pos⟩ w) := by
  have hunused : v.ud ∉ v.tags := fun hmem => Nat.lt_irrefl _ (h.fresh _ hmem).2
  have hmakes : (v.op u).Makes io.reqOp := by
    cases io with
    | read loop =>
      obtain ⟨⟨n, hop⟩, -⟩ := hasks
      rw [hop]
      trivial
    | write data =>
      rw [hasks.1]
      exact List.take_prefix _ _
  refine ⟨(h.tag hcaller hidle buf).enter hidle hunused h.started (Nat.lt_succ_self _) hcaller
    hmakes ?_ hperm, ?_⟩
  · intro data hop
    cases io with
    | read loop =>
      obtain ⟨⟨n, hread⟩, -⟩ := hasks
      exact absurd (hop.symm.trans hread) (by simp)
    | write data => exact hasks.2
  · intro w
    refine ⟨hcaller, h.started, Nat.lt_succ_self _, ?_⟩
    cases io with
    | write data => exact hasks.1
    | read loop =>
      refine ⟨hasks.1, ⟨rfl, hasks.2, ?_, ?_⟩⟩
      · intro r hr hud
        rcases List.mem_cons.mp (hperm.mem_iff.mp hr) with heq | hr
        · exact heq
        · have hused := Sight.live_mem_tags hr
          rw [hud] at hused
          exact absurd hused hunused
      · intro res hmem _
        have hused := Sight.posted_mem_tags (v := v) hmem
        exact absurd hused hunused

/-! ## Answers -/

/-- What the kernel does to a file that is only appended to. -/
theorem grows_of_perform (happends : flags.Appends) {req : Request} {res : ℤ}
    {file file' data : List UInt8} (h : req.perform flags res file = some (file', data)) :
    file' = file ++ ((req.block c res).toList.flatMap Prod.snd) ∧
      (∀ bytes, req.op = .write bytes → 0 ≤ res → res.toNat ≤ bytes.length) ∧
      (∀ len, req.op = .read len → 0 ≤ res →
        data.length = res.toNat ∧ data <+: file.drop req.off) := by
  cases hop : req.op with
  | read len =>
    obtain ⟨hfile, hdata⟩ := read_of_perform hop h
    refine ⟨by simp [Request.block, hop, hfile], by simp, ?_⟩
    intro _ _ hres
    obtain ⟨hle, hpiece⟩ := hdata hres
    rw [hpiece, List.length_take]
    exact ⟨Nat.min_eq_left hle, List.take_prefix _ _⟩
  | write bytes =>
    unfold Request.perform at h
    simp only [hop] at h
    split at h
    · next hneg =>
      obtain ⟨rfl, -⟩ := Prod.mk.inj (Option.some.inj h)
      refine ⟨by simp [Request.block, hop, hneg], ?_, by simp⟩
      exact fun _ _ hres => absurd hneg (Int.not_lt.mpr hres)
    · next hneg =>
      split at h
      · next hcond =>
        obtain ⟨rfl, -⟩ := Prod.mk.inj (Option.some.inj h)
        refine ⟨?_, ?_, by simp⟩
        · simp only [Request.block, hop, if_neg hneg, Option.toList_some, List.flatMap_cons,
            List.flatMap_nil, List.append_nil]
          by_cases hempty : bytes.take res.toNat = []
          · rw [hempty, CursorFile.write_nil, List.append_nil]
          · simp only [CursorFile.write, if_neg hempty, CursorFile.writeOffset,
              happends.2 hcond.1, if_true, overwrite, List.take_length, Nat.sub_self,
              List.replicate_zero, List.append_nil]
            rw [List.drop_eq_nil_of_le (Nat.le_add_right _ _), List.append_nil]
        · intro other heq _
          rw [← ReqOp.write.inj heq]
          exact hcond.2.1
      · exact absurd h (by simp)

theorem AwaitsSlice.answered {loop : ReadLoop} {req req' : Request} (h : AwaitsSlice v loop req')
    (hnodup : v.tags.Nodup) (hmem : req ∈ v.live) {live : List Request}
    (hlive : ∀ r ∈ live, r ∈ v.live) {file data : List UInt8} (hfile : v.file <+: file) {res : ℤ}
    (hread : req = req' → 0 ≤ res → data.length = res.toNat ∧ data <+: v.file.drop req.off) :
    AwaitsSlice { v with
      file := file
      live := live
      posted := v.posted ++ [(req.ud, res)]
      buf := Function.update v.buf req.ud (data ++ (v.buf req.ud).drop data.length) }
      loop req' where
  off := h.off
  piece := (h.grow hfile).piece
  only r hr := h.only r (hlive r hr)
  truth res' hin hres := by
    show ((Function.update v.buf req.ud _ req'.ud).take _).length = _ ∧
      (Function.update v.buf req.ud _ req'.ud).take _ <+: _
    have hposted : ∀ r, (req.ud, r) ∉ v.posted := fun r hr =>
      (List.nodup_append.mp hnodup).2.2 _ (List.mem_map_of_mem hmem) _
        (List.mem_map_of_mem hr) rfl
    rcases List.mem_append.mp hin with hold | hnew
    · -- an answer that was there before
      have hne : req'.ud ≠ req.ud := fun heq => hposted res' (heq ▸ hold)
      rw [Function.update_of_ne hne]
      exact (h.grow hfile).truth res' hold hres
    · obtain ⟨hud, rfl⟩ := Prod.mk.inj (List.mem_singleton.mp hnew)
      obtain rfl := h.only req hmem hud.symm
      obtain ⟨hlen, hpiece⟩ := hread rfl hres
      rw [Function.update_self, List.take_left' hlen]
      exact ⟨hlen, hpiece.trans (hfile.drop req.off)⟩

/-- **The kernel carries out a request.** -/
theorem Accounted.complete (h : Accounted c bs none task v) (happends : flags.Appends)
    {req : Request}
    {res : ℤ} {file data : List UInt8} (hperform : req.perform flags res v.file = some (file, data))
    {live : List Request} (hperm : v.live.Perm (req :: live)) :
    Accounted c (bs ++ (req.block c res).toList) none task { v with
      file := file
      live := live
      posted := v.posted ++ [(req.ud, res)]
      buf := Function.update v.buf req.ud (data ++ (v.buf req.ud).drop data.length) } := by
  obtain ⟨hfile, hwrite, hread⟩ := grows_of_perform (c := c) happends hperform
  have hmem : req ∈ v.live := hperm.mem_iff.mpr List.mem_cons_self
  have hleft : ∀ r ∈ live, r ∈ v.live := fun r hr =>
    hperm.mem_iff.mpr (List.mem_cons_of_mem req hr)
  have hprefix : v.file <+: file := ⟨_, hfile.symm⟩
  -- its tag goes from the requests to the answers
  have htags : (live.map Request.ud ++ (v.posted ++ [(req.ud, res)]).map Prod.fst).Perm v.tags := by
    have hud := (hperm.map Request.ud).append_right (v.posted.map Prod.fst)
    refine List.Perm.trans ?_ hud.symm
    rw [List.map_append, List.map_cons, List.map_nil, List.map_cons, ← List.append_assoc]
    exact List.perm_append_singleton _ _
  -- its call goes from the writers to the blocks, or is gone
  have honce : ((bs ++ (req.block c res).toList).map Prod.fst ++
      live.filterMap (writer c)).Nodup := by
    have hwriters := (hperm.filterMap (writer c)).append_left (bs.map Prod.fst)
    refine (hwriters.nodup_iff.mp h.once).sublist ?_
    rw [List.map_append, List.append_assoc]
    refine List.Sublist.append_left ?_ _
    cases hop : req.op with
    | read len =>
      have hnone : writer c req = none := by simp [writer, hop]
      rw [List.filterMap_cons_none hnone]
      simp [Request.block, hop]
    | write bytes =>
      have hsome : writer c req = some (c req.ud) := by simp [writer, hop]
      rw [List.filterMap_cons_some hsome]
      simp only [Request.block, hop]
      split
      · exact List.sublist_cons_self _ _
      · exact List.Sublist.refl _
  have hblock : ∀ b ∈ (req.block c res).toList, ∃ bytes, req.op = .write bytes ∧ 0 ≤ res ∧
      b = (c req.ud, bytes.take res.toNat) := by
    intro b hb
    unfold Request.block at hb
    split at hb
    · next bytes hop =>
      split at hb
      · exact absurd hb (by simp)
      · next hneg =>
        exact ⟨bytes, hop, Int.not_lt.mp hneg, by simpa using hb⟩
    · exact absurd hb (by simp)
  have hused := h.fresh req.ud (Sight.live_mem_tags hmem)
  refine ⟨h.started, htags.nodup_iff.mpr h.nodup, fun x hx => h.fresh x (htags.mem_iff.mp hx),
    fun r hr => h.fits r (hleft r hr), h.begun, honce, ?_, ?_, ?_⟩
  · intro b hb
    rcases List.mem_append.mp hb with hold | hnew
    · exact h.owned b hold
    · obtain ⟨bytes, hop, -, rfl⟩ := hblock b hnew
      refine ⟨⟨req.ud, hused.1, hused.2, rfl⟩, ?_⟩
      have hfits := h.fits req hmem
      rw [hop] at hfits
      cases hcall : v.op (c req.ud) with
      | write whole =>
        rw [hcall] at hfits
        exact ⟨whole, rfl, (List.take_prefix _ _).trans hfits⟩
      | read n => rw [hcall] at hfits; exact hfits.elim
      | aclose => rw [hcall] at hfits; exact hfits.elim
  · intro a ha hres whole hcall
    rcases List.mem_append.mp ha with hold | hnew
    · obtain ⟨bytes, hbytes, hlen⟩ := h.posted a hold hres whole hcall
      exact ⟨bytes, List.mem_append_left _ hbytes, hlen⟩
    · rw [List.mem_singleton.mp hnew] at hres hcall ⊢
      have hfits := h.fits req hmem
      cases hop : req.op with
      | read len =>
        have hcall' : v.op (c req.ud) = .write whole := hcall
        rw [hop, hcall'] at hfits
        exact hfits.elim
      | write bytes =>
        have hneg : ¬ res < 0 := Int.not_lt.mpr hres
        refine ⟨bytes.take res.toNat, List.mem_append_right _ ?_, ?_⟩
        · simp [Request.block, hop, hneg]
        · rw [List.length_take]
          exact Nat.min_eq_left (hwrite bytes hop hres)
  · intro u hu
    have hold := h.settled u hu
    rcases hold.idle_or_awaiting with hidle | ⟨io, req', w, htask⟩
    · exact hold.of_idle hidle rfl hprefix (List.subset_append_left _ _)
    · rw [htask] at hold ⊢
      obtain ⟨hcaller, hpos, hlt, hdoing⟩ := hold
      refine ⟨hcaller, hpos, hlt, ?_⟩
      cases io with
      | write bytes => exact hdoing
      | read loop =>
        refine ⟨hdoing.1, hdoing.2.answered h.nodup hmem hleft hprefix ?_⟩
        rintro rfl hres
        obtain ⟨n, hcall⟩ := hdoing.1
        have hfits := h.fits req hmem
        rw [hcaller, hcall] at hfits
        cases hop : req.op with
        | read len => exact hread len hop hres
        | write bytes => rw [hop] at hfits; exact hfits.elim

/-! ## What the call that has the lock does -/

/-- Nothing runs, and there is no file object. -/
def Rests (c : ℕ → ℕ) (bs : List (ℕ × List UInt8)) (s : State) : Prop :=
  s.fp = none ∧ Accounted c bs none s.task s.sight

/-- The call `u` has the lock and runs, and takes the next tag if it makes a request. -/
structure Runs (c : ℕ → ℕ) (bs : List (ℕ × List UInt8)) (s : State) (u : ℕ) : Prop where
  holding : Holding s u
  fp : s.fp = none
  kept : Accounted c bs (some u) s.task s.sight
  caller : c s.ud = u

theorem Holding.idle (h : Holding s u) (w : ℕ) (hw : w ≠ u) : (s.task w).isRunning = false := by
  have hholder := h.2.holder w
  rw [task_setTask_of_ne hw] at hholder
  rw [← Bool.not_eq_true, hholder]
  intro hlock
  exact hw (Option.some.inj (hlock.symm.trans h.1))

theorem Runs.finish (h : Runs c bs s u) {o : Outcome} (ho : Settled c bs s.sight u (.done o)) :
    Rests c bs (s.finish u o) :=
  ⟨h.fp, h.kept.settle (fun _ _ _ _ => ⟨by simp, by simp⟩) ho⟩

theorem Runs.submit (h : Runs c bs s u) (io : Io) (hasks : s.sight.Asks c bs u io)
    (submitRet : ℤ) : Rests c bs (s.submit u io submitRet) := by
  have hidle := h.holding.idle
  unfold State.submit
  simp only
  split
  · exact ⟨h.fp, (h.kept.tag h.caller hidle _).settle (fun _ _ _ _ => ⟨by simp, by simp⟩) trivial⟩
  split
  · obtain ⟨hkept, -⟩ := h.kept.requested h.caller hidle hasks
      (Function.update s.buf s.ud io.buffer)
      (s.queued ++ [⟨s.ud, io.reqOp, s.pos⟩] ++ s.inflight) (by
        rw [List.append_assoc]
        exact List.perm_middle)
    exact ⟨h.fp, hkept.settle (fun _ _ _ _ => ⟨by simp, by simp⟩) trivial⟩
  · obtain ⟨hkept, hsettled⟩ := h.kept.requested h.caller hidle hasks
      (Function.update s.buf s.ud io.buffer)
      ([] ++ (s.inflight ++ (s.queued ++ [⟨s.ud, io.reqOp, s.pos⟩]))) (by
        rw [List.nil_append, ← List.append_assoc]
        exact (List.perm_append_singleton _ _).trans (List.perm_append_comm.cons _))
    have hposted : s.ua.waitCompletion.posted = s.ua.posted :=
      UringAsync.posted_step (e := .waitCompletion) (by simp) rfl
    have hkept' : ∀ k : Task, k.Begun → Settled c bs { s.sight with
          ud := s.ud + 1
          buf := Function.update s.buf s.ud io.buffer
          live := [] ++ (s.inflight ++ (s.queued ++ [⟨s.ud, io.reqOp, s.pos⟩])) } u k →
        Accounted c bs none (Function.update s.task u k) ⟨s.file, s.pos, s.ud + 1, s.op,
          [] ++ (s.inflight ++ (s.queued ++ [⟨s.ud, io.reqOp, s.pos⟩])),
          s.ua.waitCompletion.posted, Function.update s.buf s.ud io.buffer⟩ := by
      intro k hbegun hk
      rw [hposted]
      exact hkept.settle (fun _ _ _ _ => hbegun) hk
    split
    · exact ⟨h.fp, hkept' _ ⟨by simp, by simp⟩ trivial⟩
    · exact ⟨h.fp, hkept' _ ⟨by simp, by simp⟩ (hsettled _)⟩

/-- The bytes of a slice stand behind those read before it. -/
theorem Sight.Piece.append {got piece : List UInt8} (h : v.Piece got)
    (hpiece : piece <+: v.file.drop v.pos) :
    Sight.Piece { v with pos := v.pos + piece.length } (got ++ piece) := by
  obtain ⟨p, hp, tail, htail⟩ := h
  refine ⟨p, ?_, ?_⟩
  · rw [List.length_append, ← Nat.add_assoc, hp]
  · have hdrop : v.file.drop v.pos = tail := by
      rw [← hp, ← List.drop_drop, ← htail, List.drop_left]
    rw [hdrop] at hpiece
    change got ++ piece <+: v.file.drop p
    rw [← htail, List.prefix_append_right_inj]
    exact hpiece

/-- **A call is handed a completion.** -/
theorem Runs.onCompletion (h : Runs c bs s u) {io : Io} {req : Request}
    (hcaller : c req.ud = u) (hdoing : s.sight.Doing (s.op u) req io) {gotUd : ℕ} {res : ℤ}
    (hposted : (gotUd, res) ∈ s.ua.posted) (submitRet : ℤ) :
    Rests c bs (s.onCompletion u io req gotUd res submitRet) := by
  have hgot : Runs c bs { s with log := .got u req gotUd res :: s.log } u :=
    ⟨h.holding.congr rfl, h.fp, h.kept, h.caller⟩
  unfold State.onCompletion
  simp only
  split
  · exact hgot.finish trivial
  · next hud =>
    split
    · exact hgot.finish trivial
    · next hres =>
      rw [not_not.mp hud] at hposted
      have hpos := Int.not_lt.mp hres
      have hmoved : Runs c bs { s with
          log := .got u req gotUd res :: s.log, pos := s.pos + res.toNat } u :=
        ⟨h.holding.congr rfl, h.fp, h.kept.advance h.holding.idle _, h.caller⟩
      cases io with
      | write data =>
        -- its own request has been carried out, so it has a block
        have hop : s.op u = .write data := hdoing
        obtain ⟨bytes, hbytes, hlen⟩ := h.kept.posted _ hposted hpos data (by
          rw [hcaller]
          exact hop)
        rw [hcaller] at hbytes
        exact hmoved.finish ⟨data, hop, Or.inr ⟨bytes, hbytes, hlen⟩⟩
      | read loop =>
        obtain ⟨hop, hslice⟩ := hdoing
        obtain ⟨hlen, hpiece⟩ := hslice.truth res hposted hpos
        rw [hslice.off] at hpiece
        have hnext := hslice.piece.append hpiece
        have hfeed := loop.soFar_feed ((s.buf req.ud).take res.toNat)
        have hbuf : s.sight.buf = s.buf := rfl
        rw [hlen, hbuf] at hnext
        dsimp only
        split
        · next loop' heq =>
          rw [← (hfeed.1 loop' heq).1] at hnext
          exact hmoved.submit (.read loop') ⟨hop, hnext⟩ submitRet
        · next out heq =>
          rw [← hfeed.2 out heq] at hnext
          obtain ⟨p, -, hout⟩ := hnext
          exact hmoved.finish (o := .bytes out) ⟨p, hout⟩

/-- A call that has no request yet has no block either. -/
theorem Accounted.first (h : Accounted c bs none task v) (hu : ¬ (task u).Begun) :
    u ∉ bs.map Prod.fst ++ v.live.filterMap (writer c) := by
  have hcaller : ∀ x, 0 < x → x < v.ud → c x ≠ u := fun x hpos hlt heq =>
    hu (heq ▸ h.begun x hpos hlt (by simp))
  intro hmem
  rcases List.mem_append.mp hmem with hmem | hmem
  · obtain ⟨b, hb, hbu⟩ := List.mem_map.mp hmem
    obtain ⟨⟨x, hpos, hlt, hx⟩, -⟩ := h.owned b hb
    exact hcaller x hpos hlt (hx.trans hbu)
  · obtain ⟨r, hr, hru⟩ := List.mem_filterMap.mp hmem
    obtain ⟨hpos, hlt⟩ := h.fresh r.ud (Sight.live_mem_tags hr)
    exact hcaller r.ud hpos hlt (writer_eq_some.mp hru).2

theorem Runs.acloseUnlocked (h : Runs c bs s u) : Rests c bs (s.acloseUnlocked u) := by
  have hposted : s.ua.close.posted = s.ua.posted :=
    UringAsync.posted_step (e := .close) (by simp) rfl
  have hgone : Runs c bs { s with
      closed := true, uring := false, ua := { s.ua.close with ctxOpen := false } } u := by
    refine ⟨h.holding.congr rfl, h.fp, ?_, h.caller⟩
    show Accounted c bs (some u) s.task ⟨s.file, s.pos, s.ud, s.op, _, s.ua.close.posted, s.buf⟩
    rw [hposted]
    exact h.kept
  have hclosed : Runs c bs { s with closed := true } u :=
    ⟨h.holding.congr rfl, h.fp, h.kept, h.caller⟩
  have hfp : ¬ s.fp.isSome = true := by simp [h.fp]
  unfold State.acloseUnlocked
  simp only
  split
  · exact h.finish (o := .none) trivial
  · split
    · exact hgone.finish (o := .none) trivial
    · exact hclosed.finish (o := .none) trivial

/-- **A call goes on under the lock.** -/
theorem Runs.locked (h : Runs c bs s u)
    (hfirst : u ∉ bs.map Prod.fst ++ s.sight.live.filterMap (writer c)) (submitRet : ℤ) :
    Rests c bs (s.locked u submitRet) := by
  have hnil : s.sight.Piece [] := ⟨s.pos, rfl, List.nil_prefix⟩
  unfold State.locked
  simp only [h.fp, Option.isSome_none, Bool.false_eq_true, if_false]
  split
  · next n hop =>
    split
    · exact h.finish trivial
    split
    · exact h.finish ⟨0, List.nil_prefix⟩
    split
    · exact h.submit (.read (.untilEof [])) ⟨⟨n, hop⟩, hnil⟩ submitRet
    · exact h.submit (.read (.upTo [] n.toNat)) ⟨⟨n, hop⟩, hnil⟩ submitRet
  · next data hop =>
    split
    · exact h.finish trivial
    · exact h.submit (.write data) ⟨hop, hfirst⟩ submitRet
  · exact h.acloseUnlocked

/-! ## The steps of an object -/

/-- What holds of an object between its steps. -/
structure Tended (c : ℕ → ℕ) (bs : List (ℕ × List UInt8)) (s : State) : Prop where
  ledger : Ledger s
  good : UringAsync.Good s.ua
  rests : Rests c bs s

theorem Rests.withUa (h : Rests c bs s) {ua : UringAsync.State (ℕ × ℤ)}
    (hposted : ua.posted = s.ua.posted) : Rests c bs { s with ua := ua } := by
  refine ⟨h.1, ?_⟩
  show Accounted c bs none s.task ⟨s.file, s.pos, s.ud, s.op, _, ua.posted, s.buf⟩
  rw [hposted]
  exact h.2

/-- A new call has no request. -/
theorem Accounted.newCall (h : Accounted c bs none task v) {n : ℕ} (hn : ¬ (task n).Begun)
    (op : Op) :
    Accounted c bs (some n) task { v with op := Function.update v.op n op } := by
  have hcaller : ∀ x, 0 < x → x < v.ud → c x ≠ n := fun x hpos hlt heq =>
    hn (heq ▸ h.begun x hpos hlt (by simp))
  have hold : ∀ x ∈ v.tags, Function.update v.op n op (c x) = v.op (c x) := fun x hx =>
    Function.update_of_ne (hcaller x (h.fresh x hx).1 (h.fresh x hx).2) _ _
  refine ⟨h.started, h.nodup, h.fresh, ?_, fun x hpos hlt _ => h.begun x hpos hlt (by simp),
    h.once, ?_, ?_, ?_⟩
  · intro r hr
    show (Function.update v.op n op (c r.ud)).Makes r.op
    rw [hold r.ud (Sight.live_mem_tags hr)]
    exact h.fits r hr
  · intro b hb
    obtain ⟨⟨x, hpos, hlt, hx⟩, hdata⟩ := h.owned b hb
    refine ⟨⟨x, hpos, hlt, hx⟩, ?_⟩
    show ∃ data, Function.update v.op n op b.1 = _ ∧ _
    rw [Function.update_of_ne (hx ▸ hcaller x hpos hlt)]
    exact hdata
  · intro a ha
    show _ → ∀ data, Function.update v.op n op (c a.1) = _ → _
    rw [hold a.1 (Sight.posted_mem_tags ha)]
    exact h.posted a ha
  · intro w hw
    have hne : w ≠ n := fun heq => hw (by rw [heq])
    have hop : Function.update v.op n op w = v.op w := Function.update_of_ne hne _ _
    have hkeep := h.settled w (by simp)
    rcases hkeep.idle_or_awaiting with hidle | ⟨io, req, k, htask⟩
    · exact hkeep.of_idle hidle hop List.prefix_rfl (List.Subset.refl _)
    · rw [htask] at hkeep ⊢
      obtain ⟨hreq, hpos, hlt, hdoing⟩ := hkeep
      refine ⟨hreq, hpos, hlt, ?_⟩
      show Sight.Doing _ (Function.update v.op n op w) req io
      rw [hop]
      cases io with
      | write data => exact hdoing
      | read loop =>
        exact ⟨hdoing.1, ⟨hdoing.2.off, hdoing.2.piece, hdoing.2.only, hdoing.2.truth⟩⟩

theorem Tended.call (h : Tended c bs s) (op : Op) : Rests c bs (s.call op) := by
  have hnew : ¬ (s.task s.calls).Begun := by
    rw [h.ledger.fresh s.calls (Nat.le_refl _)]
    exact fun hbegun => hbegun.1 rfl
  have hkept := h.rests.2.newCall hnew op
  have hcaller : ∀ x, 0 < x → x < s.ud → c x ≠ s.calls := fun x hpos hlt heq =>
    hnew (heq ▸ h.rests.2.begun x hpos hlt (by simp))
  have hsettle : ∀ k,
      Settled c bs { s.sight with op := Function.update s.op s.calls op } s.calls k →
      Accounted c bs none (Function.update s.task s.calls k)
        { s.sight with op := Function.update s.op s.calls op } := fun k hk =>
    hkept.settle (fun x hpos hlt hx => absurd hx (hcaller x hpos hlt)) hk
  unfold State.call
  simp only
  split
  · next o hearly =>
    refine ⟨h.rests.1, hsettle (.done o) ?_⟩
    have hself : Function.update s.op s.calls op s.calls = op := Function.update_self _ _ _
    cases op with
    | read n =>
      simp only [Op.early] at hearly
      split_ifs at hearly
      · rw [← Option.some.inj hearly]
        trivial
      · rw [← Option.some.inj hearly]
        trivial
    | write data =>
      simp only [Op.early] at hearly
      split_ifs at hearly with hclosed hempty
      · rw [← Option.some.inj hearly]
        trivial
      · rw [← Option.some.inj hearly]
        exact ⟨data, hself, Or.inl ⟨hempty, rfl⟩⟩
    | aclose =>
      simp only [Op.early] at hearly
      split_ifs at hearly
      rw [← Option.some.inj hearly]
      trivial
  · exact ⟨h.rests.1, hsettle .waitingLock trivial⟩

theorem Tended.acquire (h : Tended c bs s) (hcaller : c s.ud = u) {submitRet : ℤ}
    (ht : s.acquire u submitRet = some t) : Rests c bs t := by
  obtain ⟨hwait, hfree, rfl⟩ := acquire_cases ht
  have hruns : Runs c bs { s with lock := some u, log := .locked u :: s.log } u :=
    ⟨h.ledger.takeLock hwait hfree, h.rests.1, h.rests.2.runs u, hcaller⟩
  refine hruns.locked (h.rests.2.first ?_) submitRet
  rw [hwait]
  exact fun hbegun => hbegun.2 rfl

theorem Tended.complete (h : Tended c bs s) (happends : flags.Appends) {i : ℕ} {res : ℤ}
    (ht : s.complete flags i res = some t) :
    Rests c (bs ++ (s.inflight[i]?.bind (Request.block c res)).toList) t := by
  obtain ⟨req, file, data, hreq, hperform, rfl⟩ := complete_cases ht
  obtain ⟨hi, hget⟩ := List.getElem?_eq_some_iff.mp hreq
  have hperm : (s.queued ++ s.inflight).Perm (req :: (s.queued ++ s.inflight.eraseIdx i)) := by
    have hinflight : (req :: s.inflight.eraseIdx i).Perm s.inflight := by
      rw [← hget]
      exact List.getElem_cons_eraseIdx_perm hi
    exact (hinflight.symm.append_left s.queued).trans List.perm_middle
  rw [hreq]
  exact ⟨h.rests.1, h.rests.2.complete happends hperform hperm⟩

theorem Tended.resume (h : Tended c bs s) (hcaller : c s.ud = u) {submitRet : ℤ}
    (ht : s.resume u submitRet = some t) : Rests c bs t := by
  have hsettled := h.rests.2.settled u (by simp)
  unfold State.resume at ht
  split at ht
  · next io req w htask =>
    rw [htask] at hsettled
    obtain ⟨hreq, -, -, hdoing⟩ := hsettled
    obtain ⟨ua, hua, rfl⟩ := Option.map_eq_some_iff.mp ht
    have hposted : ua.posted = s.ua.posted := UringAsync.posted_step (e := .resume w) (by simp) hua
    have hrests := h.rests.withUa hposted
    have hlock := (h.ledger.holder u).mp (by rw [htask]; rfl)
    have hruns : Runs c bs { s with ua := ua } u :=
      ⟨(h.ledger.holding hlock).congr rfl, h.rests.1, hrests.2.runs u, hcaller⟩
    rcases call_resume hua with ⟨n, ⟨gotUd, res⟩, hcall, hret⟩ | ⟨-, -, ⟨exc, hexc⟩ | hcan⟩
    · have hgiven := (h.good.given w n (gotUd, res) (by rw [hcall]; rfl)).1
      have hmem : (gotUd, res) ∈ ua.posted := by
        rw [hposted]
        exact List.mem_of_getElem? hgiven
      have hsight : State.sight { s with ua := ua } = s.sight := by
        simp only [State.sight, hposted]
      simp only [hret]
      refine hruns.onCompletion hreq ?_ hmem submitRet
      rw [hsight]
      exact hdoing
    · simp only [hexc]
      exact hruns.finish trivial
    · simp only [hcan]
      exact hruns.finish trivial
  · next o htask =>
    rw [htask] at hsettled
    exact hsettled.elim
  · exact absurd ht (by simp)

theorem Tended.cancel (h : Tended c bs s) (ht : s.cancel u = some t) : Rests c bs t := by
  rcases cancel_cases ht with ⟨-, rfl⟩ | ⟨io, req, w, ua, -, hua, rfl⟩
  · exact ⟨h.rests.1, (h.rests.2.runs u).settle (fun _ _ _ _ => ⟨by simp, by simp⟩) trivial⟩
  · exact h.rests.withUa (UringAsync.posted_step (e := .cancel w) (by simp) hua)

theorem Tended.onReadable (h : Tended c bs s) {waitRet : ℤ} {peeks : Option ℕ}
    {ua : UringAsync.State (ℕ × ℤ)}
    (hua : UringAsync.step s.ua (.onReadable waitRet peeks) = some ua) :
    Rests c bs { s with ua := ua } :=
  h.rests.withUa (UringAsync.posted_step (e := .onReadable waitRet peeks) (by simp) hua)

theorem Tended.runJob (h : Tended c bs s) : s.runJob flags u most ≠ some t := by
  intro ht
  obtain ⟨hu, -⟩ := runJob_cases ht
  have hsettled := h.rests.2.settled u (by simp)
  rw [hu] at hsettled
  exact hsettled

theorem file_submit (u : ℕ) (io : Io) (submitRet : ℤ) (s : State) :
    (s.submit u io submitRet).file = s.file := by
  unfold State.submit
  simp only
  split
  · rfl
  · split
    · rfl
    · split <;> rfl

theorem file_acloseUnlocked (u : ℕ) (s : State) : (s.acloseUnlocked u).file = s.file := by
  unfold State.acloseUnlocked
  simp only
  split
  · rfl
  · split <;> split <;> rfl

theorem file_locked (u : ℕ) (submitRet : ℤ) (s : State) :
    (s.locked u submitRet).file = s.file := by
  unfold State.locked
  split
  · split_ifs
    · rfl
    · rfl
    · rfl
    · exact file_submit _ _ _ _
    · exact file_submit _ _ _ _
  · split_ifs
    · rfl
    · rfl
    · exact file_submit _ _ _ _
  · exact file_acloseUnlocked _ _

theorem file_onCompletion (u : ℕ) (io : Io) (req : Request) (gotUd : ℕ) (res submitRet : ℤ)
    (s : State) : (s.onCompletion u io req gotUd res submitRet).file = s.file := by
  unfold State.onCompletion
  simp only
  split
  · rfl
  · split
    · rfl
    · split
      · split
        · exact file_submit _ _ _ _
        · rfl
      · rfl

theorem file_resume {submitRet : ℤ} (ht : s.resume u submitRet = some t) : t.file = s.file := by
  rcases resume_cases ht with ⟨io, req, w, ua, -, -, hnext⟩ | ⟨o, -, rfl⟩
  · rcases hnext with ⟨gotUd, res, rfl⟩ | ⟨exc, -, rfl⟩ | rfl
    · exact file_onCompletion _ _ _ _ _ _ _
    · rfl
    · rfl
  · rfl

theorem file_call (op : Op) (s : State) : (s.call op).file = s.file := by
  unfold State.call
  simp only
  split <;> rfl

theorem Rests.point (h : Rests c bs s) (u : ℕ) : Rests (Function.update c s.ud u) bs s :=
  ⟨h.1, h.2.point u⟩

theorem Tended.point (h : Tended c bs s) (u : ℕ) : Tended (Function.update c s.ud u) bs s :=
  ⟨h.ledger, h.good, h.rests.point u⟩

/-- **A step of an object.**  It appends what the kernel writes in it, if anything, to the
file. -/
theorem Tended.step {h : Handle} {content : List UInt8}
    (htended : Tended h.caller bs (h.on content))
    (happends : h.flags.Appends) (ht : AsyncFile.step h.flags (h.on content) e = some t) :
    Tended (h.callerAfter e) (bs ++ h.written e) t ∧
      t.file = content ++ (h.written e).flatMap Prod.snd := by
  have hledger := ledger_step htended.ledger ht
  have hgood := good_step htended.good ht
  have hself : ∀ u, Function.update h.caller h.state.ud u (h.on content).ud = u := fun u =>
    Function.update_self _ _ _
  have hnone : bs ++ [] = bs := List.append_nil bs
  cases e with
  | call op =>
    rw [← Option.some.inj ht] at hledger hgood ⊢
    simp only [Handle.written, hnone, List.flatMap_nil, List.append_nil]
    exact ⟨⟨hledger, hgood, htended.call op⟩, file_call op _⟩
  | acquire u submitRet =>
    simp only [Handle.written, hnone, List.flatMap_nil, List.append_nil]
    refine ⟨⟨hledger, hgood, (htended.point u).acquire (hself u) ht⟩, ?_⟩
    obtain ⟨-, -, rfl⟩ := acquire_cases ht
    exact file_locked _ _ _
  | complete i res =>
    refine ⟨⟨hledger, hgood, htended.complete happends ht⟩, ?_⟩
    obtain ⟨req, file, data, hreq, hperform, rfl⟩ := complete_cases ht
    have hfile := (grows_of_perform (c := h.caller) happends hperform).1
    have hget : h.state.inflight[i]? = some req := hreq
    simp only [Handle.written, hget, Option.bind_some]
    exact hfile
  | onReadable waitRet peeks =>
    obtain ⟨ua, hua, rfl⟩ := Option.map_eq_some_iff.mp ht
    simp only [Handle.written, hnone, List.flatMap_nil, List.append_nil]
    exact ⟨⟨hledger, hgood, htended.onReadable hua⟩, rfl⟩
  | runJob u most => exact absurd ht htended.runJob
  | resume u submitRet =>
    simp only [Handle.written, hnone, List.flatMap_nil, List.append_nil]
    exact ⟨⟨hledger, hgood, (htended.point u).resume (hself u) ht⟩, file_resume ht⟩
  | cancel u =>
    simp only [Handle.written, hnone, List.flatMap_nil, List.append_nil]
    refine ⟨⟨hledger, hgood, htended.cancel ht⟩, ?_⟩
    rcases cancel_cases ht with ⟨-, rfl⟩ | ⟨io, req, w, ua, -, -, rfl⟩
    · rfl
    · rfl

theorem Tended.grow {h : Handle} {content content' : List UInt8}
    (htended : Tended c bs (h.on content)) (hfile : content <+: content') :
    Tended c bs (h.on content') :=
  ⟨htended.ledger.congr rfl, htended.good, htended.rests.1, htended.rests.2.grow hfile⟩

theorem tended_aenter (happends : flags.Appends) (content : List UInt8) :
    Tended c [] (aenter flags true content) ∧ (aenter flags true content).file = content := by
  have hfile : (aenter flags true content).file = content := by
    simp only [aenter, happends.1, Bool.false_eq_true, if_false]
  refine ⟨⟨ledger_aenter flags true content, UringAsync.good_init, rfl, ?_⟩, hfile⟩
  exact {
    started := Nat.one_pos
    nodup := List.nodup_nil
    fresh := fun x hx =>
      absurd hx (by simp [Sight.tags, State.sight, aenter, UringAsync.State.init])
    fits := fun r hr => absurd hr (by simp [State.sight, aenter])
    begun := fun x hpos hlt _ => absurd hlt (Nat.not_lt.mpr hpos)
    once := List.nodup_nil
    owned := fun b hb => absurd hb List.not_mem_nil
    posted := fun a ha => absurd ha (by simp [State.sight, aenter, UringAsync.State.init])
    settled := fun _ _ => trivial }

end AsyncFile
end Pyuring
