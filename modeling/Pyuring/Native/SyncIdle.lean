import Pyuring.Native.UringCtxCalls

/-!
# What a synchronous call leaves behind

A synchronous function owes the ring one reaped completion for each entry it took.
`owed` counts what is on the ring, `left` counts the completions the running
function still waits for.  On an idle ring both are zero, and a call that goes as
planned moves them together: then it returns on an idle ring again.

`Clean` says when a step goes as planned.  It fails in four ways: the submit or a wait
fails; there is no room for all entries, of a pair or of a batch; a batch or a pair
returns at a failed completion that is not its last; the kernel posts a completion and
goes on with the request.  None of the four can be made up for.  The difference between `owed`
and `left` never shrinks while a call runs, so a call with one such step leaves
something behind.
-/

namespace Pyuring
namespace Native
namespace UringCtx

open CompletionRing Trace

/-- What is on the ring: entries queued, requests outstanding, completions not reaped. -/
def owed (s : State) : ℕ :=
  s.ring.queued.length + s.ring.outstanding.length + s.ring.completed.length

/-- The completions the running function still waits for. -/
def State.left (s : State) : ℕ :=
  match s.call with
  | none => 0
  | some r => r.reaping.left

/-- Results at which a function that waits for several completions returns at once. -/
def Reaping.failsOn : Reaping → ℤ → Bool
  | .one, _ => false
  | .batch _ _ _, res => decide (res < 0)
  | .link _, res => decide (res < 0)
  | .pair _, res => decide (res < 0 ∧ res ≠ ETIME.neg ∧ res ≠ ECANCELED.neg)

/-- The events of a history of synchronous calls. -/
def Event.ofSync : Event → Bool
  | .complete _ _ _ => true
  | .sync _ _ _ => true
  | .peek => true
  | .wait _ => true
  | .async _ _ _ _ _ => false
  | .waitCompletion _ => false
  | .peekCompletion _ => false

/-- The step goes as planned: a function that is let in finds room and submits, waits
do not fail, a function that returns at a failed completion was waiting for no other,
and the kernel completes requests with one completion each. -/
def Clean (cfg : Config) (s : State) : Event → Prop
  | .complete _ _ more => more = false
  | .sync fn _ submitRet =>
    fn.valid cfg = true → fn.preps.length ≤ cfg.sqEntries ∧ 0 ≤ submitRet
  | .peek => ∀ r k c, s.call = some r → k < 256 → s.ring.completed[k]? = some c →
      r.reaping.failsOn c.2 = true → r.reaping.left ≤ k + 1
  | .wait waitRet => 0 ≤ waitRet ∧ ∀ r c cs, s.call = some r → s.ring.completed = c :: cs →
      r.reaping.failsOn c.2 = true → r.reaping.left ≤ 1
  | .async _ _ _ _ _ => True
  | .waitCompletion _ => True
  | .peekCompletion _ => True

/-- A function that waits, waits for something. -/
def Waits (s : State) : Prop := ∀ r, s.call = some r → 0 < r.reaping.left

/-- From `s` to `t` the surplus of what is owed over what is waited for grows by a
number that is zero exactly when `clean` holds. -/
def Surplus (clean : Prop) (s t : State) : Prop :=
  ∃ d, owed t + s.left = owed s + t.left + d ∧ (d = 0 ↔ clean)

variable {cfg : Config} {s t : State}

theorem owed_eq_zero : owed s = 0 ↔ s.ring.Idle := by
  simp [owed, CompletionRing.Idle, and_assoc]

theorem left_of_none (h : s.call = none) : s.left = 0 := by
  simp only [State.left, h]

theorem left_of_some {r : Running} (h : s.call = some r) : s.left = r.reaping.left := by
  simp only [State.left, h]

theorem feed_cases (r : Reaping) (c : CtxSqe × ℤ) :
    (r.failsOn c.2 = false ∧ ∃ r', r.feed c = .inl r' ∧ r'.left + 1 = r.left ∧ 0 < r'.left ∧
      r'.failsOn = r.failsOn) ∨
    ((r.failsOn c.2 = true ∨ r.left ≤ 1) ∧ ∃ v, r.feed c = .inr v) := by
  obtain ⟨q, res⟩ := c
  cases r with
  | one => exact Or.inr ⟨Or.inr (Nat.le_refl 1), _, rfl⟩
  | batch remaining total waiting =>
    simp only [Reaping.failsOn, Reaping.feed, Reaping.left, decide_eq_true_eq,
      decide_eq_false_iff_not]
    by_cases hres : res < 0
    · exact Or.inr ⟨Or.inl hres, _, if_pos hres⟩
    rw [if_neg hres]
    by_cases hrem : remaining ≤ 1
    · exact Or.inr ⟨Or.inr hrem, _, if_pos hrem⟩
    · refine Or.inl ⟨hres, _, if_neg hrem, ?_, ?_, rfl⟩
      · simp only
        omega
      · simp only
        omega
  | link second =>
    simp only [Reaping.failsOn, Reaping.feed, Reaping.left, decide_eq_true_eq,
      decide_eq_false_iff_not]
    by_cases hres : res < 0
    · exact Or.inr ⟨Or.inl hres, _, if_pos hres⟩
    rw [if_neg hres]
    cases second with
    | true => exact Or.inr ⟨Or.inr (Nat.le_refl 1), _, rfl⟩
    | false => exact Or.inl ⟨hres, _, rfl, rfl, Nat.one_pos, rfl⟩
  | pair second =>
    simp only [Reaping.failsOn, Reaping.feed, Reaping.left, decide_eq_true_eq,
      decide_eq_false_iff_not]
    by_cases hres : res < 0 ∧ res ≠ ETIME.neg ∧ res ≠ ECANCELED.neg
    · exact Or.inr ⟨Or.inl hres, _, if_pos hres⟩
    rw [if_neg hres]
    cases second with
    | true => exact Or.inr ⟨Or.inr (Nat.le_refl 1), _, rfl⟩
    | false => exact Or.inl ⟨hres, _, rfl, rfl, Nat.one_pos, rfl⟩

/-! ## One reaped completion -/

/-- The function goes on, or returns: early if the completion is a failed one and not
the last. -/
theorem reapOne_cases {r : Running} {c : CtxSqe × ℤ} {cs : List (CtxSqe × ℤ)}
    (hcs : s.ring.completed = c :: cs) :
    owed (s.reapOne r c cs) + 1 = owed s ∧ (s.reapOne r c cs).ring.completed = cs ∧
    ((r.reaping.failsOn c.2 = false ∧ ∃ r', (s.reapOne r c cs).call = some r' ∧
      r'.reaping.left + 1 = r.reaping.left ∧ 0 < r'.reaping.left ∧
      r'.reaping.failsOn = r.reaping.failsOn) ∨
    ((r.reaping.failsOn c.2 = true ∨ r.reaping.left ≤ 1) ∧ (s.reapOne r c cs).call = none)) := by
  have howed : ∀ u : State, u.ring = { s.ring with completed := cs } → owed u + 1 = owed s := by
    intro u hu
    simp only [owed, hu, hcs, List.length_cons]
    omega
  unfold State.reapOne
  rcases feed_cases r.reaping c with ⟨hok, r', hr', hleft, hpos, hfails⟩ | ⟨hstop, v, hv⟩
  · rw [hr']
    exact ⟨howed _ rfl, rfl, Or.inl ⟨hok, _, rfl, hleft, hpos, hfails⟩⟩
  · rw [hv]
    exact ⟨howed _ rfl, rfl, Or.inr ⟨hstop, rfl⟩⟩

theorem surplus_reapOne {r : Running} {c : CtxSqe × ℤ} {cs : List (CtxSqe × ℤ)}
    (hr : s.call = some r) (hpos : 0 < r.reaping.left) (hcs : s.ring.completed = c :: cs) :
    Waits (s.reapOne r c cs) ∧
      Surplus (r.reaping.failsOn c.2 = true → r.reaping.left ≤ 1) s (s.reapOne r c cs) := by
  obtain ⟨howed, -, ⟨hok, r', hr', hleft, hpos', -⟩ | ⟨hstop, hnone⟩⟩ := reapOne_cases (r := r) hcs
  · refine ⟨?_, 0, ?_, ?_⟩
    · intro u hu
      rw [hr'] at hu
      rw [← Option.some.inj hu]
      exact hpos'
    · rw [left_of_some hr, left_of_some hr']
      omega
    · simp [hok]
  · refine ⟨fun u hu => absurd (hnone.symm.trans hu) (by simp), r.reaping.left - 1, ?_, ?_⟩
    · rw [left_of_some hr, left_of_none hnone]
      omega
    · constructor
      · intro hd _
        omega
      · intro hclean
        rcases hstop with hfail | hle
        · have := hclean hfail
          omega
        · omega

theorem drain_of_none (h : s.call = none) (n : ℕ) : s.drain n = s := by
  cases n with
  | zero => rfl
  | succ n => simp only [State.drain, h]

theorem surplus_drain : ∀ {n : ℕ} {s : State} {r : Running}, s.call = some r →
    0 < r.reaping.left → n ≤ s.ring.completed.length →
    Waits (s.drain n) ∧ Surplus (∀ k c, k < n → s.ring.completed[k]? = some c →
      r.reaping.failsOn c.2 = true → r.reaping.left ≤ k + 1) s (s.drain n)
  | 0, s, r, hr, hpos, _ => by
    refine ⟨?_, 0, rfl, by simp⟩
    intro u hu
    rw [State.drain, hr] at hu
    rw [← Option.some.inj hu]
    exact hpos
  | n + 1, s, r, hr, hpos, hn => by
    obtain ⟨c, cs, hcs⟩ : ∃ c cs, s.ring.completed = c :: cs :=
      List.exists_cons_of_length_pos (by omega)
    have hdrain : s.drain (n + 1) = (s.reapOne r c cs).drain n := by
      simp only [State.drain, hr, hcs]
    obtain ⟨howed, hcs', hcases⟩ := reapOne_cases (r := r) hcs
    obtain ⟨hwaits, d, hd, hclean⟩ := surplus_reapOne hr hpos hcs
    rw [hdrain]
    rcases hcases with ⟨hok, r', hr', hleft, hpos', hfails⟩ | ⟨hstop, hnone⟩
    · -- the function goes on with the completions behind the first
      obtain ⟨hwaits', d', hd', hclean'⟩ := surplus_drain hr' hpos' (n := n) (by
        rw [hcs']
        rw [hcs, List.length_cons] at hn
        omega)
      have hd0 : d = 0 := hclean.mpr fun hfail => absurd hfail (by simp [hok])
      refine ⟨hwaits', d', by omega, hclean'.trans ?_⟩
      rw [hcs', hcs, hfails]
      constructor
      · intro h k x hk hx hfail
        cases k with
        | zero =>
          rw [List.getElem?_cons_zero, Option.some.injEq] at hx
          rw [← hx, hok] at hfail
          exact absurd hfail (by simp)
        | succ k =>
          have := h k x (by omega) (by simpa using hx) hfail
          omega
      · intro h k x hk hx hfail
        have := h (k + 1) x (by omega) (by simpa using hx) hfail
        omega
    · -- the function has returned, with the first completion
      rw [drain_of_none hnone]
      refine ⟨hwaits, d, hd, hclean.trans ⟨?_, ?_⟩⟩
      · intro h k x _ _ _
        rcases hstop with hfail | hle
        · have := h hfail
          omega
        · omega
      · intro h hfail
        exact h 0 c (by omega) (by rw [hcs, List.getElem?_cons_zero]) hfail

/-! ## One step -/

theorem surplus_complete {i : ℕ} {res : ℤ} {more : Bool} (h : s.complete i res more = some t) :
    t.call = s.call ∧ Surplus (more = false) s t := by
  unfold State.complete at h
  cases hi : s.ring.outstanding[i]? with
  | none => simp [hi] at h
  | some q =>
    rw [hi] at h
    simp only at h
    split at h
    · obtain ⟨hlt, -⟩ := List.getElem?_eq_some_iff.mp hi
      obtain ⟨⟨q', ring⟩, hring, rfl⟩ := Option.map_eq_some_iff.mp h
      refine ⟨rfl, ?_⟩
      cases more with
      | true =>
        obtain ⟨-, rfl⟩ := post_eq_some.mp hring
        refine ⟨1, ?_, by simp⟩
        simp only [owed, State.left, List.length_set, List.length_append, List.length_singleton]
        omega
      | false =>
        obtain ⟨-, rfl⟩ := complete_eq_some.mp hring
        refine ⟨0, ?_, by simp⟩
        simp only [owed, State.left, List.length_eraseIdx, if_pos hlt, List.length_append,
          List.length_singleton]
        omega
    · exact absurd h (by simp)

theorem surplus_start {fn : SyncFn} {stale : Prep} {submitRet : ℤ} (hcall : s.call = none)
    (hidle : s.ring.Idle) :
    Waits (s.start cfg fn stale submitRet) ∧
      Surplus (Clean cfg s (.sync fn stale submitRet)) s (s.start cfg fn stale submitRet) := by
  obtain ⟨hq, ho, hc⟩ := hidle
  have hroom : room cfg s = cfg.sqEntries := by rw [room, hq, List.length_nil, Nat.sub_zero]
  have hs : owed s = 0 ∧ s.left = 0 := ⟨owed_eq_zero.mpr ⟨hq, ho, hc⟩, left_of_none hcall⟩
  -- a function that has returned leaves the entries it took
  have hreturn : ∀ (ps : List Prep) (value : ℤ), 0 < ps.length →
      ¬ (fn.preps.length ≤ cfg.sqEntries ∧ 0 ≤ submitRet) → fn.valid cfg = true →
      Waits ((s.withTaken (entries s.serial ps)).finish fn s.serial [] value) ∧
        Surplus (Clean cfg s (.sync fn stale submitRet)) s
          ((s.withTaken (entries s.serial ps)).finish fn s.serial [] value) := by
    intro ps value hps hnot hvalid
    refine ⟨fun u hu => absurd hu (by simp [State.finish]), ps.length, ?_, ?_⟩
    · rw [hs.1, hs.2]
      simp [owed, State.left, State.finish, State.withTaken, hq, ho, hc]
    · exact ⟨fun h0 => by omega, fun hclean => absurd (hclean hvalid) hnot⟩
  cases hvalid : fn.valid cfg with
  | false =>
    rw [start_of_invalid hvalid]
    refine ⟨fun u hu => absurd hu (by simp [State.finish]), 0, ?_, ?_⟩
    · rw [hs.1, hs.2]
      exact hs.1
    · simp [Clean, hvalid]
  | true =>
    rcases start_cases hvalid stale submitRet with
      ⟨hlt, ps, hps, heq⟩ | ⟨hfit, hr, heq⟩ | ⟨hfit, hr, heq⟩
    · rw [heq]
      have hpos := cfg.sqEntries_pos
      exact hreturn ps _ (by omega) (by omega) hvalid
    · rw [heq]
      have hpos := left_pos_of_valid hvalid
      rw [← length_preps] at hpos
      exact hreturn fn.preps _ hpos (by omega) hvalid
    · rw [heq]
      refine ⟨?_, 0, ?_, ?_⟩
      · intro u hu
        rw [← Option.some.inj hu]
        exact left_pos_of_valid hvalid
      · rw [hs.1, hs.2]
        simp [owed, State.left, State.started, State.withTaken, hq, ho, hc, length_preps]
      · exact ⟨fun _ _ => ⟨by omega, hr⟩, fun _ => rfl⟩

/-- A step of a history of synchronous calls. -/
theorem surplus_step {e : Event} (hw : Waits s) (hidle : s.call = none → s.ring.Idle)
    (hsync : e.ofSync = true) (h : step cfg s e = some t) :
    Waits t ∧ Surplus (Clean cfg s e) s t := by
  cases step_cases h with
  | complete hcomplete =>
    obtain ⟨hcall, hsur⟩ := surplus_complete hcomplete
    exact ⟨fun r hr => hw r (hcall ▸ hr), hsur⟩
  | sync hcall => exact surplus_start hcall (hidle hcall)
  | async hcall => exact absurd hsync (by simp [Event.ofSync])
  | waitRaises hcall => exact absurd hsync (by simp [Event.ofSync])
  | waitHands hcall hcs => exact absurd hsync (by simp [Event.ofSync])
  | peekNone hcall => exact absurd hsync (by simp [Event.ofSync])
  | peekHands hcall hcs => exact absurd hsync (by simp [Event.ofSync])
  | @batchWaits r remaining total hr hreap hnil =>
    have hleft : r.reaping.left = remaining := by rw [hreap]; rfl
    refine ⟨?_, 0, ?_, ?_⟩
    · intro u hu
      rw [← Option.some.inj hu]
      exact hleft ▸ hw r hr
    · simp only [owed, State.left, hr, hleft]
      rfl
    · simp [Clean, hnil]
  | @batchDrains r remaining total hr hreap =>
    have hleft : r.reaping.left = remaining := by rw [hreap]; rfl
    obtain ⟨hwaits, d, hd, hclean⟩ := surplus_drain hr (hw r hr)
      (n := min (min remaining 256) s.ring.completed.length) (by omega)
    refine ⟨hwaits, d, hd, hclean.trans ⟨?_, ?_⟩⟩
    · intro hall u k c hu hk hc hfail
      rw [hr] at hu
      obtain rfl := Option.some.inj hu
      have hlen := (List.getElem?_eq_some_iff.mp hc).1
      -- a completion past the ones waited for is not looked at
      by_cases hkr : k < remaining
      · exact hall k c (by omega) hc hfail
      · omega
    · exact fun hall k c hk hc hfail => hall r k c hr (by omega) hc hfail
  | @waitFails r waitRet hr hret =>
    refine ⟨fun u hu => absurd hu (by simp [State.finish]), r.reaping.left, ?_, ?_⟩
    · rw [left_of_some hr]
      rfl
    · have hpos := hw r hr
      exact ⟨fun h0 => by omega, fun hclean => absurd hclean.1 (by omega)⟩
  | @waitReaps r waitRet c cs hr hret hcs =>
    obtain ⟨hwaits, d, hd, hclean⟩ := surplus_reapOne hr (hw r hr) hcs
    refine ⟨hwaits, d, hd, hclean.trans ⟨fun hall => ⟨hret, ?_⟩, ?_⟩⟩
    · intro u x xs hu hx hfail
      rw [hr] at hu
      rw [hcs] at hx
      obtain rfl := Option.some.inj hu
      obtain ⟨rfl, rfl⟩ := List.cons.inj hx
      exact hall hfail
    · intro hall
      exact hall.2 r c cs hr hcs

/-! ## Whole histories -/

/-- Between two calls the ring is idle. -/
def RestsIdle (s : State) : Prop := s.call = none → s.ring.Idle

/-- With more on the ring than the running call waits for, some return will leave
something behind. -/
theorem not_always_of_surplus : ∀ {es : List Event} {s t : State}, Waits s → s.left < owed s →
    (∀ e ∈ es, e.ofSync = true) → exec (step cfg) s es = some t → t.call = none →
    ¬ Always (step cfg) RestsIdle s es
  | es, s, t, hw, hlt, hsync, hrun, hret => by
    intro halways
    have hrunning : s.call ≠ none := fun hnone => by
      have hzero := owed_eq_zero.mpr (halways.head hnone)
      omega
    cases es with
    | nil =>
      rw [exec_nil] at hrun
      rw [← Option.some.inj hrun] at hret
      exact hrunning hret
    | cons e es =>
      rw [exec_cons] at hrun
      obtain ⟨u, hu, hrun⟩ := Option.bind_eq_some_iff.mp hrun
      obtain ⟨hwu, d, hd, -⟩ := surplus_step hw (fun hnone => absurd hnone hrunning)
        (hsync e List.mem_cons_self) hu
      exact not_always_of_surplus hwu (by omega)
        (fun e' he' => hsync e' (List.mem_cons_of_mem e he')) hrun hret (halways.2 u hu)

theorem always_restsIdle_iff : ∀ {es : List Event} {s t : State}, Waits s → owed s = s.left →
    (∀ e ∈ es, e.ofSync = true) → exec (step cfg) s es = some t → t.call = none →
    (Always (step cfg) RestsIdle s es ↔ Meets (step cfg) (Clean cfg) s es)
  | [], s, t, _, hbal, _, hrun, hret => by
    refine iff_of_true ?_ trivial
    intro hnone
    exact owed_eq_zero.mp (hbal.trans (left_of_none hnone))
  | e :: es, s, t, hw, hbal, hsync, hrun, hret => by
    have hrest : RestsIdle s := fun hnone => owed_eq_zero.mp (hbal.trans (left_of_none hnone))
    have hsync' : ∀ e' ∈ es, e'.ofSync = true := fun e' he' =>
      hsync e' (List.mem_cons_of_mem e he')
    rw [exec_cons] at hrun
    obtain ⟨u, hu, hrun⟩ := Option.bind_eq_some_iff.mp hrun
    obtain ⟨hwu, d, hd, hclean⟩ := surplus_step hw hrest (hsync e List.mem_cons_self) hu
    have hnext : ∀ v, step cfg s e = some v → v = u := fun v hv => Option.some.inj (hv ▸ hu)
    rcases Nat.eq_zero_or_pos d with hd0 | hd0
    · have hiff := always_restsIdle_iff hwu (by omega) hsync' hrun hret
      constructor
      · exact fun h => ⟨hclean.mp hd0, fun v hv => (hnext v hv) ▸ hiff.mp (h.2 u hu)⟩
      · exact fun h => ⟨hrest, fun v hv => (hnext v hv) ▸ hiff.mpr (h.2 u hu)⟩
    · refine iff_of_false ?_ ?_
      · intro h
        exact not_always_of_surplus hwu (by omega) hsync' hrun hret (h.2 u hu)
      · intro h
        have := hclean.mpr h.1
        omega

/-- **Synchronous calls leave the ring idle**, each of them in a history of such calls
on an idle ring, exactly when every step of the history goes as planned. -/
theorem sync_calls_idle_iff (cfg : Config) (s t : State) (es : List Event)
    (hcall : s.call = none) (hidle : s.ring.Idle) (hsync : ∀ e ∈ es, e.ofSync = true)
    (hrun : exec (step cfg) s es = some t) (hret : t.call = none) :
    Always (step cfg) RestsIdle s es ↔ Meets (step cfg) (Clean cfg) s es := by
  have hw : Waits s := fun r hr => absurd (hcall.symm.trans hr) (by simp)
  refine always_restsIdle_iff hw ?_ hsync hrun hret
  rw [owed_eq_zero.mpr hidle, left_of_none hcall]

/-- A ring of four entries. -/
def fourEntries : Config := ⟨4, 4, by decide, by decide⟩

/-- An entry never written to. -/
def blankPrep : Prep := ⟨.other, 0, .one⟩

theorem sync_calls_idle_iff_nop :
    Always (step fourEntries) RestsIdle State.init
        [.sync (.submitWaitOne nopSync) blankPrep 1, .complete 0 0 false, .wait 0] ↔
      Meets (step fourEntries) (Clean fourEntries) State.init
        [.sync (.submitWaitOne nopSync) blankPrep 1, .complete 0 0 false, .wait 0] :=
  sync_calls_idle_iff fourEntries State.init _ _ rfl ⟨rfl, rfl, rfl⟩ (by decide) rfl rfl

/-- The linked pair returns at the completion of its failed read and leaves the
completion of the cancelled write. -/
theorem sync_calls_not_idle : ¬ ∀ (cfg : Config) (s t : State) (es : List Event),
    s.call = none → s.ring.Idle → (∀ e ∈ es, e.ofSync = true) →
    exec (step cfg) s es = some t → t.call = none → t.ring.Idle := by
  intro h
  have hidle := h fourEntries State.init _
    [.sync (.linkReadWrite 3 512 0 4 0) blankPrep 2, .complete 0 (-5) false,
      .complete 0 (-125) false, .wait 0] rfl ⟨rfl, rfl, rfl⟩ (by decide) rfl rfl
  exact absurd hidle.2.2 (by decide)

end UringCtx
end Native
end Pyuring
