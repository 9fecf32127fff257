import Pyuring.UringAsyncHandover

/-!
# Iterating over accepted connections

`iter_multishot_accept` of `aio.py`, on a `UringAsync` that other tasks use as well.  The
loop submits one request, awaits one completion after the other and yields those that
carry its tag.  A completion of another tag that it is given it passes over, and since a
completion is given to one call only, nobody else sees it.

A completion that was taken out of the ring is `Kept` when it goes to a caller outside
the loop, or when the loop yields or raises it.  `Clean` says when a step keeps what it
takes out: nothing is given to a call that does not return it, and the loop's call is
given completions of the loop's tag only.
-/

namespace Pyuring
namespace MultishotAccept

open Trace
open UringAsync (Handed Lost Good Advances Prompt Takes)

/-- Where the loop stands: not started, at its `await` of the call numbered `w`, at its
`yield`, or at its end. -/
inductive Phase where
  | created
  | awaiting (w : ℕ)
  | suspended
  | ended
  deriving DecidableEq, Repr

/-- The `UringAsync`, the loop, the calls of `wait_completion` that the loop made, and
the completions that it yielded or raised, by number and result. -/
structure State where
  ua : UringAsync.State (ℕ × ℤ)
  phase : Phase
  calls : List ℕ
  out : List (ℕ × ℤ)

/-- What happens next: something on the `UringAsync`, by any task or the kernel; the
consumer asks the loop for its next item, or closes it. -/
inductive Event where
  | ua (e : UringAsync.Event (ℕ × ℤ))
  | anext (submitRet : ℤ)
  | aclose
  deriving DecidableEq

namespace State

def init : State := ⟨.init, .created, [], []⟩

/-- `await ua.wait_completion()`, up to the `await`. -/
def wait (s : State) : State :=
  let ua := s.ua.waitCompletion
  { s with
    ua := ua
    calls := s.ua.calls :: s.calls
    phase := match ua.call s.ua.calls with
      | .awaiting _ _ => .awaiting s.ua.calls
      | _ => .ended }

/-- The body of the loop, for the call `w` that has ended. -/
def resumed (userData w : ℕ) (s : State) : State :=
  match s.ua.call w with
  | .returned n (ud, res) =>
    if ud ≠ userData then s.wait
    else { s with
      out := (n, res) :: s.out
      phase := if res < 0 then .ended else .suspended }
  | _ => { s with phase := .ended }

/-- The task of the call `w` runs. -/
def resume (userData w : ℕ) (s : State) : Option State :=
  (s.ua.resume w).map fun ua =>
    let s := { s with ua := ua }
    if s.phase = .awaiting w then s.resumed userData w else s

/-- `__anext__`: the loop starts by submitting its request, or goes on after its `yield`. -/
def anext (submitRet : ℤ) (s : State) : Option State :=
  match s.phase with
  | .created => some (if submitRet < 0 then { s with phase := .ended } else s.wait)
  | .suspended => some s.wait
  | .awaiting _ => none
  | .ended => none

end State

/-- `userData` is the tag of the loop's request. -/
def step (userData : ℕ) (s : State) : Event → Option State
  | .ua (.resume w) => s.resume userData w
  | .ua e => (UringAsync.step s.ua e).map fun ua => { s with ua := ua }
  | .anext submitRet => s.anext submitRet
  | .aclose => match s.phase with
    | .awaiting _ => none
    | _ => some { s with phase := .ended }

/-- Completion `n` goes to a caller outside the loop, was yielded or raised by the loop,
or is with the loop, which will do so. -/
def Kept (userData : ℕ) (s : State) (n : ℕ) : Prop :=
  (∃ w, w ∉ s.calls ∧ Handed s.ua w n) ∨ (∃ res, (n, res) ∈ s.out) ∨
    ∃ w res, s.phase = .awaiting w ∧ (s.ua.call w).handed = some (n, (userData, res))

/-- No completion is given to a call that does not return it, and the loop's call is given
completions of the loop's tag only. -/
def Clean (userData : ℕ) (s : State) : Event → Prop
  | .ua e => Prompt s.ua e ∧ ∀ i w c, Takes s.ua e i → s.ua.waiters[i]? = some w →
      s.phase = .awaiting w → s.ua.posted[s.ua.reaped + i]? = some c → c.1 = userData
  | .anext _ => True
  | .aclose => True

/-- The loop's calls, the one it awaits and those that have ended: what the ended ones
returned with the loop's tag is what the loop yielded or raised. -/
structure Looping (userData : ℕ) (s : State) : Prop where
  good : Good s.ua
  lt : ∀ w ∈ s.calls, w < s.ua.calls
  current : ∀ w, s.phase = .awaiting w → w ∈ s.calls ∧ (s.ua.call w).isAwaiting = true
  past : ∀ w ∈ s.calls, s.phase ≠ .awaiting w → (s.ua.call w).isAwaiting = false ∧
    ∀ n res, s.ua.call w = .returned n (userData, res) → (n, res) ∈ s.out
  out : ∀ n res, (n, res) ∈ s.out → ∃ w ∈ s.calls, s.ua.call w = .returned n (userData, res)

variable {userData : ℕ} {s t : State}

/-- Completion `n` was taken out, and nobody returns it but the loop, which passes over
it. -/
def Astray (userData : ℕ) (s : State) (n : ℕ) : Prop :=
  n < s.ua.reaped ∧ ∀ w c, (s.ua.call w).handed = some (n, c) → w ∈ s.calls ∧ c.1 ≠ userData

theorem handed_of_ended {call : UringAsync.Call (ℕ × ℤ)} {x : ℕ × (ℕ × ℤ)}
    (hended : call.isAwaiting = false) (h : call.handed = some x) : call = .returned x.1 x.2 := by
  cases call with
  | awaiting fut b => exact absurd hended (by simp [UringAsync.Call.isAwaiting])
  | returned n c => rw [← Option.some.inj h]
  | raised exc => exact absurd h (by simp [UringAsync.Call.handed])
  | cancelled => exact absurd h (by simp [UringAsync.Call.handed])

/-- What is kept is what does not go astray. -/
theorem Looping.kept_iff (h : Looping userData s) {n : ℕ} (hn : n < s.ua.reaped) :
    Kept userData s n ↔ ¬ Astray userData s n := by
  constructor
  · rintro (⟨w, hw, c, hc⟩ | ⟨res, hres⟩ | ⟨w, res, -, hw⟩) hastray
    · exact hw (hastray.2 w c hc).1
    · obtain ⟨w, -, hw⟩ := h.out n res hres
      exact (hastray.2 w (userData, res) (by rw [hw]; rfl)).2 rfl
    · exact (hastray.2 w _ hw).2 rfl
  · intro hnot
    obtain ⟨w, c, hc, hkept⟩ : ∃ w c, (s.ua.call w).handed = some (n, c) ∧
        ¬ (w ∈ s.calls ∧ c.1 ≠ userData) :=
      Classical.byContradiction fun hno => hnot ⟨hn, fun w c hc =>
        Classical.byContradiction fun hk => hno ⟨w, c, hc, hk⟩⟩
    by_cases hw : w ∈ s.calls
    · obtain ⟨ud, res⟩ := c
      have hud : ud = userData := Classical.byContradiction fun hne => hkept ⟨hw, hne⟩
      subst hud
      by_cases hcur : s.phase = .awaiting w
      · exact Or.inr (Or.inr ⟨w, res, hcur, hc⟩)
      · obtain ⟨hended, hout⟩ := h.past w hw hcur
        exact Or.inr (Or.inl ⟨res, hout n res (handed_of_ended hended hc)⟩)
    · exact Or.inl ⟨w, hw, c, hc⟩

/-! ## The loop's own steps -/

theorem looping_init : Looping userData State.init where
  good := UringAsync.good_init
  lt w hw := absurd hw List.not_mem_nil
  current w hw := absurd hw (by simp [State.init])
  past w hw := absurd hw List.not_mem_nil
  out n res h := absurd h List.not_mem_nil

/-- A call that is just made has not returned. -/
theorem not_returned_waitCompletion (ua : UringAsync.State (ℕ × ℤ)) (n : ℕ) (c : ℕ × ℤ) :
    ua.waitCompletion.call ua.calls ≠ .returned n c := by
  unfold UringAsync.State.waitCompletion
  cases ua.ensureCtxOpen with
  | error exc => simp
  | ok _ => simp

/-- The loop awaits another completion. -/
theorem Looping.wait (h : Looping userData s) (hidle : ∀ w, s.phase ≠ .awaiting w) :
    Looping userData s.wait := by
  have hold : ∀ w ∈ s.calls, s.ua.waitCompletion.call w = s.ua.call w := fun w hw =>
    UringAsync.call_waitCompletion (h.lt w hw)
  refine ⟨(UringAsync.advances_waitCompletion h.good).good, fun w hw => ?_, fun w hw => ?_,
    fun w hw hcur => ?_, fun n res hres => ?_⟩
  · change w < s.ua.waitCompletion.calls
    rw [UringAsync.calls_waitCompletion]
    rcases List.mem_cons.mp hw with rfl | hw
    · exact Nat.lt_succ_self _
    · exact Nat.lt_succ_of_lt (h.lt w hw)
  · simp only [State.wait] at hw
    split at hw
    · next fut b hfut =>
      obtain rfl := Phase.awaiting.inj hw
      refine ⟨List.mem_cons_self, ?_⟩
      change (s.ua.waitCompletion.call s.ua.calls).isAwaiting = true
      rw [hfut]
      rfl
    · exact absurd hw (by simp)
  · change (s.ua.waitCompletion.call w).isAwaiting = false ∧
      ∀ n res, s.ua.waitCompletion.call w = .returned n (userData, res) → _
    rcases List.mem_cons.mp hw with rfl | hw
    · refine ⟨?_, fun n res hres => absurd hres (not_returned_waitCompletion s.ua n _)⟩
      simp only [State.wait] at hcur
      cases hcall : s.ua.waitCompletion.call s.ua.calls with
      | awaiting fut b =>
        rw [hcall] at hcur
        exact absurd rfl hcur
      | returned n c => rfl
      | raised exc => rfl
      | cancelled => rfl
    · rw [hold w hw]
      exact h.past w hw (hidle w)
  · obtain ⟨w, hw, hcall⟩ := h.out n res hres
    exact ⟨w, List.mem_cons_of_mem _ hw, (hold w hw).trans hcall⟩

/-- The loop stops. -/
theorem Looping.stopped (h : Looping userData s) (hidle : ∀ w, s.phase ≠ .awaiting w) :
    Looping userData { s with phase := .ended } :=
  ⟨h.good, h.lt, fun w hw => absurd hw (by simp), fun w hw _ => h.past w hw (hidle w), h.out⟩

/-- The loop's call ends, and the loop puts out what the call returned with its tag. -/
theorem Looping.ended (h : Looping userData s) {w : ℕ} (hw : s.phase = .awaiting w)
    {ua : UringAsync.State (ℕ × ℤ)} (hua : s.ua.resume w = some ua) {phase : Phase}
    (hphase : ∀ v, phase ≠ .awaiting v) {out : List (ℕ × ℤ)}
    (hout : ∀ n res, (n, res) ∈ out ↔ ua.call w = .returned n (userData, res) ∨ (n, res) ∈ s.out) :
    Looping userData ⟨ua, phase, s.calls, out⟩ := by
  obtain ⟨hended, hother⟩ := UringAsync.call_resume hua
  refine ⟨(UringAsync.advances_resume h.good hua).good, fun v hv => ?_,
    fun v hv => absurd hv (hphase v), fun v hv _ => ?_, fun n res hres => ?_⟩
  · rw [UringAsync.calls_resume hua]
    exact h.lt v hv
  · change (ua.call v).isAwaiting = false ∧ _
    by_cases hvw : v = w
    · subst hvw
      exact ⟨hended, fun n res hres => (hout n res).mpr (Or.inl hres)⟩
    · change _ ∧ ∀ n res, ua.call v = _ → _
      rw [hother v hvw]
      have hpast := h.past v hv fun hcur => hvw (Phase.awaiting.inj (hcur.symm.trans hw))
      exact ⟨hpast.1, fun n res hres => (hout n res).mpr (Or.inr (hpast.2 n res hres))⟩
  · rcases (hout n res).mp hres with hres | hres
    · exact ⟨w, (h.current w hw).1, hres⟩
    · obtain ⟨v, hv, hcall⟩ := h.out n res hres
      refine ⟨v, hv, (hother v fun hvw => ?_).trans hcall⟩
      have hcur := (h.current w hw).2
      rw [← hvw, hcall] at hcur
      exact absurd hcur (by simp [UringAsync.Call.isAwaiting])

/-- The loop goes on with the call it awaited. -/
theorem Looping.resumed (h : Looping userData s) {w : ℕ} (hw : s.phase = .awaiting w)
    {ua : UringAsync.State (ℕ × ℤ)} (hua : s.ua.resume w = some ua) :
    Looping userData (({ s with ua := ua } : State).resumed userData w) := by
  unfold State.resumed
  split
  · next n ud res hres =>
    split
    · next hud =>
      have hended : Looping userData ⟨ua, .ended, s.calls, s.out⟩ :=
        h.ended hw hua (by simp) fun m r => ⟨Or.inr, fun hor => hor.resolve_left fun hr => ?_⟩
      · exact hended.wait (by simp)
      · exact hud (Prod.mk.inj (UringAsync.Call.returned.inj (hres.symm.trans hr)).2).1
    · next hud =>
      obtain rfl : ud = userData := Classical.byContradiction hud
      refine h.ended hw hua (by split <;> simp) fun m r => ?_
      rw [show ua.call w = .returned n (ud, res) from hres]
      simp [eq_comm]
  · next hne =>
    exact h.ended hw hua (by simp) fun m r => ⟨Or.inr, fun hor =>
      hor.resolve_left fun hr => hne m _ _ hr⟩

/-- Anything else on the `UringAsync` leaves the loop alone. -/
theorem Looping.other (h : Looping userData s) {e : UringAsync.Event (ℕ × ℤ)}
    {ua : UringAsync.State (ℕ × ℤ)} (hua : UringAsync.step s.ua e = some ua)
    (he : ∀ w ∈ s.calls, e ≠ .resume w) : Looping userData { s with ua := ua } := by
  have hstays : ∀ w ∈ s.calls, UringAsync.Stays (s.ua.call w) (ua.call w) := fun w hw =>
    UringAsync.stays_step hua (h.lt w hw) (he w hw)
  refine ⟨(UringAsync.advances_step h.good hua).good, fun w hw => ?_, fun w hw => ?_,
    fun w hw hcur => ?_, fun n res hres => ?_⟩
  · exact Nat.lt_of_lt_of_le (h.lt w hw) (UringAsync.calls_step hua)
  · obtain ⟨hmem, hawaits⟩ := h.current w hw
    exact ⟨hmem, (hstays w hmem).isAwaiting.trans hawaits⟩
  · obtain ⟨hended, hout⟩ := h.past w hw hcur
    change (ua.call w).isAwaiting = false ∧ ∀ n res, ua.call w = _ → _
    rw [(hstays w hw).ended hended]
    exact ⟨hended, hout⟩
  · obtain ⟨w, hw, hcall⟩ := h.out n res hres
    exact ⟨w, hw, ((hstays w hw).ended (by rw [hcall]; rfl)).trans hcall⟩

/-! ## What goes astray -/

/-- From `s` to `t` the `k` oldest completions were taken out, and nothing was lost if
`clean` holds; the calls that the loop made are new ones. -/
structure Turn (s t : State) (clean : Prop) (k : ℕ) : Prop where
  took : UringAsync.TookOut s.ua t.ua s.ua.waiters k
  advances : Advances s.ua t.ua clean
  sub : ∀ w ∈ s.calls, w ∈ t.calls
  new : ∀ w ∈ t.calls, w ∈ s.calls ∨ s.ua.calls ≤ w

/-- The completion at position `i` is of the loop's tag, if it is taken out for the
loop. -/
def Tagged (userData : ℕ) (s t : State) (i : ℕ) : Prop :=
  ∀ w c, s.ua.waiters[i]? = some w → s.phase = .awaiting w →
    t.ua.posted[s.ua.reaped + i]? = some c → c.1 = userData

theorem Astray.of_lost {n : ℕ} (h : Lost s.ua n) : Astray userData s n :=
  ⟨h.1, fun w c hc => absurd ⟨c, hc⟩ (h.2 w)⟩

/-- What has gone astray stays astray. -/
theorem Turn.astray {clean : Prop} {k n : ℕ} (h : Turn s t clean k) (hn : Astray userData s n) :
    Astray userData t n := by
  refine ⟨by rw [h.took.reaped]; exact Nat.lt_add_right k hn.1, fun w c hc => ?_⟩
  rcases h.took.handed w (n, c) hc with hold | ⟨hle, -⟩
  · obtain ⟨hw, hne⟩ := hn.2 w c hold
    exact ⟨h.sub w hw, hne⟩
  · exact absurd hn.1 (Nat.not_lt.mpr hle)

/-- A waiter that is a call of the loop is the one the loop awaits. -/
theorem Looping.awaiting_of_mem (h : Looping userData s) {w : ℕ} (hw : w ∈ s.calls)
    (hmem : w ∈ s.ua.waiters) : s.phase = .awaiting w := by
  refine Classical.byContradiction fun hne => ?_
  have hended := (h.past w hw hne).1
  obtain ⟨b, hcall | hcall⟩ := h.good.waiting w hmem
  all_goals
    rw [hcall] at hended
    exact absurd hended (by simp [UringAsync.Call.isAwaiting])

/-- A step brings something astray exactly when it loses something or takes out for the
loop what is not of the loop's tag. -/
theorem Turn.astray_iff {clean : Prop} {k : ℕ} (h : Turn s t clean k) (hs : Looping userData s)
    (hnone : ∀ n, ¬ Astray userData s n) :
    (∃ n, Astray userData t n) ↔ ¬ (clean ∧ ∀ i < k, Tagged userData s t i) := by
  have hgood := h.advances.good
  constructor
  · rintro ⟨n, hlt, hastray⟩ ⟨hclean, htagged⟩
    have hkept := h.advances.keep hclean fun m hm => hnone m (Astray.of_lost hm)
    obtain ⟨w, c, hc⟩ : ∃ w, UringAsync.Handed t.ua w n := Classical.byContradiction fun hno =>
      hkept n ⟨hlt, fun w hw => hno ⟨w, hw⟩⟩
    obtain ⟨hw, hne⟩ := hastray w c hc
    have hposted := (hgood.given w n c (UringAsync.Call.given_of_handed hc)).1
    rcases h.took.handed w (n, c) hc with hold | ⟨hle, hwaits⟩
    · -- it was with the same call before
      have hgiven := UringAsync.Call.given_of_handed hold
      refine hnone n ⟨(hs.good.given w n c hgiven).2.1, fun v d hd => ?_⟩
      obtain rfl := hs.good.eq_of_given (UringAsync.Call.given_of_handed hd) hgiven
      obtain ⟨-, rfl⟩ := Prod.mk.inj (Option.some.inj (hd.symm.trans hold))
      refine ⟨(h.new v hw).resolve_right fun hge => ?_, hne⟩
      exact absurd (hs.good.lt_calls fun hcancelled => by
        rw [hcancelled] at hold
        exact absurd hold (by simp [UringAsync.Call.handed])) (Nat.not_lt.mpr hge)
    · -- it was taken out in this step
      change s.ua.reaped ≤ n at hle
      change s.ua.waiters[n - s.ua.reaped]? = some w at hwaits
      have hmem := List.mem_of_getElem? hwaits
      have hold := (h.new w hw).resolve_right (Nat.not_le.mpr (hs.good.bound w hmem))
      rw [h.took.reaped] at hlt
      refine hne (htagged (n - s.ua.reaped) (by omega) w c hwaits (hs.awaiting_of_mem hold hmem) ?_)
      rw [Nat.add_sub_cancel' hle]
      exact hposted
  · intro hbad
    by_cases hclean : clean
    · obtain ⟨i, hi, w, c, hw, hphase, hc, hne⟩ : ∃ i < k, ∃ w c, s.ua.waiters[i]? = some w ∧
          s.phase = .awaiting w ∧ t.ua.posted[s.ua.reaped + i]? = some c ∧ c.1 ≠ userData := by
        simpa [hclean, Tagged] using hbad
      refine ⟨s.ua.reaped + i, by rw [h.took.reaped]; omega, fun v d hd => ?_⟩
      rcases h.took.handed v _ hd with hold | ⟨-, hv⟩
      · have hlt := (hs.good.given v _ d (UringAsync.Call.given_of_handed hold)).2.1
        exact absurd hlt (by omega)
      · change s.ua.waiters[s.ua.reaped + i - s.ua.reaped]? = some v at hv
        rw [Nat.add_sub_cancel_left, hw] at hv
        obtain rfl := Option.some.inj hv
        obtain rfl := Option.some.inj
          (hc.symm.trans (hgood.given w _ d (UringAsync.Call.given_of_handed hd)).1)
        exact ⟨h.sub w (hs.current w hphase).1, hne⟩
    · obtain ⟨n, hn⟩ := h.advances.lose hclean
      exact ⟨n, Astray.of_lost hn⟩

/-! ## Steps and runs -/

/-- A turn that takes nothing out. -/
theorem Turn.of_tookNone (htook : UringAsync.TookNone s.ua t.ua)
    (hadv : Advances s.ua t.ua True) (hsub : ∀ w ∈ s.calls, w ∈ t.calls)
    (hnew : ∀ w ∈ t.calls, w ∈ s.calls ∨ s.ua.calls ≤ w) : Turn s t True 0 :=
  ⟨UringAsync.tookOut_of_handed htook.reaped htook.handed _, hadv, hsub, hnew⟩

theorem turn_wait (h : Good s.ua) : Turn s s.wait True 0 := by
  refine Turn.of_tookNone (UringAsync.tookNone_waitCompletion s.ua)
    (UringAsync.advances_waitCompletion h) (fun w => List.mem_cons_of_mem _) fun w hw => ?_
  rcases List.mem_cons.mp hw with rfl | hw
  · exact Or.inr (Nat.le_refl _)
  · exact Or.inl hw

theorem turn_stopped (h : Good s.ua) : Turn s { s with phase := .ended } True 0 :=
  Turn.of_tookNone (UringAsync.TookNone.refl _) (Advances.refl h) (fun _ => id) fun _ => Or.inl

theorem turn_resumed (h : Good s.ua) {w : ℕ} {ua : UringAsync.State (ℕ × ℤ)}
    (hua : s.ua.resume w = some ua) :
    Turn s (({ s with ua := ua } : State).resumed userData w) True 0 := by
  have hnone := UringAsync.tookNone_resume hua
  have hadv := UringAsync.advances_resume h hua
  have hstay : ∀ phase out, Turn s ⟨ua, phase, s.calls, out⟩ True 0 := fun phase out =>
    Turn.of_tookNone hnone hadv (fun _ => id) fun _ => Or.inl
  unfold State.resumed
  split
  · split
    · have hwait := turn_wait (s := { s with ua := ua }) hadv.good
      refine Turn.of_tookNone (hnone.trans (UringAsync.tookNone_waitCompletion ua))
        ((hadv.trans hwait.advances).congr (iff_of_eq (and_true _))) hwait.sub fun v hv => ?_
      have hnew := hwait.new v hv
      rwa [show ({ s with ua := ua } : State).ua.calls = s.ua.calls from
        UringAsync.calls_resume hua] at hnew
    · exact hstay _ _
  · exact hstay _ _

/-- Only a call that awaits is run. -/
theorem Looping.not_resume_past (h : Looping userData s) {w : ℕ} (hw : w ∈ s.calls)
    (hcur : s.phase ≠ .awaiting w) : s.ua.resume w = none := by
  have hended := (h.past w hw hcur).1
  unfold UringAsync.State.resume
  cases hcall : s.ua.call w with
  | awaiting fut b => exact absurd (hcall ▸ hended) (by simp [UringAsync.Call.isAwaiting])
  | returned n c => rfl
  | raised exc => rfl
  | cancelled => rfl

/-- Something on the `UringAsync`, and not by the loop. -/
theorem Looping.turn_other (h : Looping userData s) {e : UringAsync.Event (ℕ × ℤ)}
    {ua : UringAsync.State (ℕ × ℤ)} (hua : UringAsync.step s.ua e = some ua)
    (he : ∀ w ∈ s.calls, e ≠ .resume w) :
    Looping userData { s with ua := ua } ∧ ∃ clean k, Turn s { s with ua := ua } clean k ∧
      (Clean userData s (.ua e) ↔
        clean ∧ ∀ i < k, Tagged userData s { s with ua := ua } i) := by
  obtain ⟨k, htook, hk⟩ := UringAsync.tookOut_step hua
  refine ⟨h.other hua he, Prompt s.ua e, k,
    ⟨htook, UringAsync.advances_step h.good hua, fun _ => id, fun _ => Or.inl⟩, ?_⟩
  refine and_congr_right fun _ => ⟨fun htags i hi w c hw hphase hc => ?_,
    fun htags i w c hi hw hphase hc => ?_⟩
  · have htakes := (hk i).mp hi
    rw [show ({ s with ua := ua } : State).ua.posted = s.ua.posted from
      UringAsync.posted_of_takes htakes hua] at hc
    exact htags i w c htakes hw hphase hc
  · refine htags i ((hk i).mpr hi) w c hw hphase ?_
    rw [show ({ s with ua := ua } : State).ua.posted = s.ua.posted from
      UringAsync.posted_of_takes hi hua]
    exact hc

/-- **What a step does.** -/
theorem Looping.step (h : Looping userData s) {e : Event} (ht : step userData s e = some t) :
    Looping userData t ∧ ∃ clean k, Turn s t clean k ∧
      (Clean userData s e ↔ clean ∧ ∀ i < k, Tagged userData s t i) := by
  have hquiet : ∀ {u : State}, Looping userData u → Turn s u True 0 → Clean userData s e →
      Looping userData u ∧ ∃ clean k, Turn s u clean k ∧
        (Clean userData s e ↔ clean ∧ ∀ i < k, Tagged userData s u i) := fun hu hturn hclean =>
    ⟨hu, True, 0, hturn, iff_of_true hclean ⟨trivial, fun i hi => absurd hi (Nat.not_lt_zero i)⟩⟩
  cases e with
  | ua e =>
    by_cases hresume : ∃ w, e = .resume w
    · obtain ⟨w, rfl⟩ := hresume
      obtain ⟨ua, hua, rfl⟩ := Option.map_eq_some_iff.mp ht
      by_cases hcur : s.phase = .awaiting w
      · simp only [if_pos hcur]
        exact hquiet (h.resumed hcur hua) (turn_resumed h.good hua)
          ⟨trivial, fun _ _ _ hi => hi.elim⟩
      · simp only [if_neg hcur]
        refine h.turn_other hua fun v hv hvw => ?_
        obtain rfl := UringAsync.Event.resume.inj hvw
        exact absurd ((h.not_resume_past hv hcur).symm.trans hua) (by simp)
    · have ht' :
          (UringAsync.step s.ua e).map (fun ua => ({ s with ua := ua } : State)) = some t := by
        cases e with
        | resume w => exact absurd ⟨w, rfl⟩ hresume
        | _ => exact ht
      obtain ⟨ua, hua, rfl⟩ := Option.map_eq_some_iff.mp ht'
      exact h.turn_other hua fun w _ hw => hresume ⟨w, hw⟩
  | anext submitRet =>
    have hwait : ∀ hidle : ∀ w, s.phase ≠ .awaiting w, Looping userData s.wait ∧ _ := fun hidle =>
      hquiet (h.wait hidle) (turn_wait h.good) trivial
    change s.anext submitRet = some t at ht
    unfold State.anext at ht
    split at ht
    · next hphase =>
      have hidle : ∀ w, s.phase ≠ .awaiting w := by simp [hphase]
      split at ht
      · rw [← Option.some.inj ht]
        exact hquiet (h.stopped hidle) (turn_stopped h.good) trivial
      · rw [← Option.some.inj ht]
        exact hwait hidle
    · next hphase =>
      rw [← Option.some.inj ht]
      exact hwait (by simp [hphase])
    · exact absurd ht (by simp)
    · exact absurd ht (by simp)
  | aclose =>
    simp only [MultishotAccept.step] at ht
    split at ht
    · exact absurd ht (by simp)
    · next hidle =>
      rw [← Option.some.inj ht]
      exact hquiet (h.stopped hidle) (turn_stopped h.good) trivial

/-- **Nothing goes astray** exactly when every completion that the loop's wait is given is
of the loop's tag, and no completion is given to a call that does not return it: then,
and only then, is every completion that was taken out returned to a caller outside the
loop or yielded or raised by the loop. -/
theorem kept_iff_clean (userData : ℕ) (es : List Event) (s : State)
    (hs : exec (step userData) State.init es = some s) :
    (∀ n < s.ua.reaped, Kept userData s n) ↔
      Meets (step userData) (Clean userData) State.init es := by
  have hnone : ¬ ∃ n, Astray userData State.init n := fun ⟨n, hn, _⟩ =>
    absurd hn (Nat.not_lt_zero n)
  have hlooping : Looping userData s := (reach_anyStep_of_exec hs).invariant looping_init
    fun _ _ _ hu _ hv => (hu.step hv).1
  rw [← flawless_iff_meets (I := Looping userData) (F := fun s => ∃ n, Astray userData s n)
    (fun u e v hu hv => (hu.step hv).1) ?_ ?_ looping_init hnone hs]
  · constructor
    · rintro hkept ⟨n, hn⟩
      exact (hlooping.kept_iff hn.1).mp (hkept n hn.1) hn
    · intro hno n hn
      exact (hlooping.kept_iff hn).mpr fun hastray => hno ⟨n, hastray⟩
  · rintro u e v hu hv ⟨n, hn⟩
    obtain ⟨-, clean, k, hturn, -⟩ := hu.step hv
    exact ⟨n, hturn.astray hn⟩
  · intro u e v hu hv hno
    obtain ⟨-, clean, k, hturn, hclean⟩ := hu.step hv
    rw [hclean]
    exact hturn.astray_iff hu (not_exists.mp hno)

/-- The loop and another task wait, and each is given the completion of its own tag. -/
theorem kept_iff_clean_served :
    ∃ s, exec (step 9200) State.init [.anext 0, .ua .waitCompletion, .ua (.post (9200, 5)),
        .ua (.post (7, 10)), .ua (.onReadable 0 none), .ua (.resume 0), .ua (.resume 1)] = some s ∧
      ((∀ n < s.ua.reaped, Kept 9200 s n) ↔ Meets (step 9200) (Clean 9200) State.init
        [.anext 0, .ua .waitCompletion, .ua (.post (9200, 5)), .ua (.post (7, 10)),
          .ua (.onReadable 0 none), .ua (.resume 0), .ua (.resume 1)]) :=
  ⟨_, rfl, kept_iff_clean 9200 _ _ rfl⟩

/-- The loop waits before another task does and is given that task's completion: the loop
passes over it, and the task goes on waiting. -/
theorem completion_discarded :
    ¬ ∀ (userData : ℕ) (es : List Event) (s : State),
      exec (step userData) State.init es = some s → ∀ n < s.ua.reaped, Kept userData s n := by
  intro h
  have hkept := h 9200 [.anext 0, .ua .waitCompletion, .ua (.post (7, 10)),
    .ua (.onReadable 0 none), .ua (.resume 0)] _ rfl 0 Nat.zero_lt_one
  rcases hkept with ⟨w, hw, c, hc⟩ | ⟨res, hres⟩ | ⟨w, res, hw, hc⟩
  · have hnone : w = 0 ∨ (none : Option (ℕ × ℕ × ℤ)) = some (0, c) := match w, hc with
      | 0, _ => Or.inl rfl
      | 1, hc => Or.inr hc
      | 2, hc => Or.inr hc
      | _ + 3, hc => Or.inr hc
    rcases hnone with rfl | hnone
    · exact hw (List.mem_cons_of_mem _ List.mem_cons_self)
    · exact absurd hnone (by simp)
  · exact absurd hres List.not_mem_nil
  · obtain rfl : 2 = w := Phase.awaiting.inj hw
    have hnone : (none : Option (ℕ × ℕ × ℤ)) = some (0, (9200, res)) := hc
    exact absurd hnone (by simp)

end MultishotAccept
end Pyuring
