import Mathlib.Data.Nat.Notation
import Mathlib.Tactic.TypeStar

/-!
# Runs of a partial step function

A program that waits for its environment is modelled by a partial step function
`step : σ → ε → Option σ`: the event says what the environment answers, and
`none` says that the event cannot happen in this state.  This file is the small
theory of its runs.

`Reach step P` is reachability by steps that all meet a condition `P` on the
state before the step and the event taken.  The condition is a parameter since
the statements about a program differ in what they ask of the environment: every
run, the runs of a kernel that never comes back short, the runs in which nothing
is cancelled.

## What is proved

`Reach.invariant` is the induction every safety statement uses.  `Terminates` says
that no run goes on for ever and that a run which cannot go on is at its end;
`terminates_of_measure` gets it from a measure that every step lowers and from
the fact that a state which is not final can move, and `Terminates.exists_final`
produces a complete run from it.  `reach_of_exec` turns an executable run into a
`Reach`, which is how concrete runs are exhibited.  `ExitRule` is for programs
that leave a loop for a clean-up block: it says when a resource is still in use
there.
-/

namespace Pyuring
namespace Trace

variable {σ ε : Type*}

/-- Reachability by steps that meet `P`. -/
inductive Reach (step : σ → ε → Option σ) (P : σ → ε → Prop) : σ → σ → Prop where
  | refl (s : σ) : Reach step P s s
  | tail {s t u : σ} {e : ε} :
      Reach step P s t → P t e → step t e = some u → Reach step P s u

/-- The condition that asks for nothing. -/
def AnyStep : σ → ε → Prop := fun _ _ => True

theorem anyStep (s : σ) (e : ε) : AnyStep s e := trivial

variable {step : σ → ε → Option σ} {P Q : σ → ε → Prop} {s t u : σ}

theorem Reach.single {e : ε} (hP : P s e) (h : step s e = some t) : Reach step P s t :=
  (Reach.refl s).tail hP h

theorem Reach.trans (hst : Reach step P s t) (htu : Reach step P t u) : Reach step P s u := by
  induction htu with
  | refl => exact hst
  | tail _ hP h ih => exact ih.tail hP h

theorem Reach.head {e : ε} (hP : P s e) (h : step s e = some t) (htu : Reach step P t u) :
    Reach step P s u :=
  (Reach.single hP h).trans htu

theorem Reach.mono (hPQ : ∀ s e, P s e → Q s e) (h : Reach step P s t) : Reach step Q s t := by
  induction h with
  | refl => exact Reach.refl _
  | tail _ hP h ih => exact ih.tail (hPQ _ _ hP) h

/-- **The invariant rule.**  What holds at the start and is preserved by every
step that meets `P` holds wherever such steps lead. -/
theorem Reach.invariant {I : σ → Prop} (h : Reach step P s t) (hs : I s)
    (hstep : ∀ t e u, I t → P t e → step t e = some u → I u) : I t := by
  induction h with
  | refl => exact hs
  | tail _ hP h ih => exact hstep _ _ _ ih hP h

/-- A state without steps is left by no run. -/
theorem Reach.eq_of_stuck (h : Reach step P s t) (hs : ∀ e, step s e = none) : t = s :=
  h.invariant (I := fun u => u = s) rfl fun u e v hu _ hv => by
    rw [hu, hs e] at hv
    exact absurd hv (by simp)

/-! ## Executable runs -/

variable {es : List ε}

/-- Running a list of events; `none` when one of them cannot happen. -/
def exec (step : σ → ε → Option σ) : σ → List ε → Option σ
  | s, [] => some s
  | s, e :: es => (step s e).bind fun t => exec step t es

@[simp] theorem exec_nil : exec step s [] = some s := rfl

theorem exec_cons {e : ε} {es : List ε} :
    exec step s (e :: es) = (step s e).bind fun t => exec step t es := rfl

/-- Every event of the list meets `P` in the state in which it is taken. -/
def Meets (step : σ → ε → Option σ) (P : σ → ε → Prop) : σ → List ε → Prop
  | _, [] => True
  | s, e :: es => P s e ∧ ∀ t, step s e = some t → Meets step P t es

/-- Every state that the list of events passes through meets `Q`. -/
def Always (step : σ → ε → Option σ) (Q : σ → Prop) : σ → List ε → Prop
  | s, [] => Q s
  | s, e :: es => Q s ∧ ∀ t, step s e = some t → Always step Q t es

theorem Always.head {Q : σ → Prop} (h : Always step Q s es) : Q s := by
  cases es with
  | nil => exact h
  | cons e es => exact h.1

/-- What always holds in a run on fixed events can be decided by taking its steps. -/
instance decidableAlways {Q : σ → Prop} [DecidablePred Q] :
    ∀ (s : σ) (es : List ε), Decidable (Always step Q s es)
  | s, [] => inferInstanceAs (Decidable (Q s))
  | s, e :: es =>
    have : DecidablePred fun t => Always step Q t es := fun t => decidableAlways t es
    inferInstanceAs (Decidable (Q s ∧ ∀ t ∈ step s e, Always step Q t es))

/-- So can whether fixed events meet a decidable condition. -/
instance decidableMeets [∀ s e, Decidable (P s e)] :
    ∀ (s : σ) (es : List ε), Decidable (Meets step P s es)
  | _, [] => inferInstanceAs (Decidable True)
  | s, e :: es =>
    have : DecidablePred fun t => Meets step P t es := fun t => decidableMeets t es
    inferInstanceAs (Decidable (P s e ∧ ∀ t ∈ step s e, Meets step P t es))

theorem meets_anyStep : ∀ (s : σ) (es : List ε), Meets step AnyStep s es
  | _, [] => trivial
  | _, _ :: es => ⟨trivial, fun t _ => meets_anyStep t es⟩

theorem meets_of_forall (hP : ∀ s e, e ∈ es → P s e) : Meets step P s es := by
  induction es generalizing s with
  | nil => trivial
  | cons e es ih =>
    exact ⟨hP s e List.mem_cons_self,
      fun t _ => ih fun u e' he' => hP u e' (List.mem_cons_of_mem e he')⟩

/-- Two conditions that agree wherever a run gets to are met by the same runs.  `A` restricts
the events. -/
theorem meets_congr {I : σ → Prop} {A : ε → Prop}
    (hstep : ∀ s e t, I s → A e → step s e = some t → I t)
    (hiff : ∀ s e, I s → A e → (P s e ↔ Q s e)) : ∀ {es : List ε} {s : σ}, I s →
      (∀ e ∈ es, A e) → (Meets step P s es ↔ Meets step Q s es)
  | [], _, _, _ => Iff.rfl
  | e :: es, s, hI, hA => by
    have he := hA e List.mem_cons_self
    refine and_congr (hiff s e hI he) (forall_congr' fun t => forall_congr' ?_)
    intro ht
    exact meets_congr hstep hiff (hstep s e t hI he ht)
      fun d hd => hA d (List.mem_cons_of_mem e hd)

theorem reach_of_exec : ∀ {es : List ε} {s t : σ},
    Meets step P s es → exec step s es = some t → Reach step P s t
  | [], s, t, _, h => by
    rw [exec_nil] at h
    rw [← Option.some.inj h]
    exact Reach.refl s
  | e :: es, s, t, hP, h => by
    rw [exec_cons] at h
    cases hse : step s e with
    | none => rw [hse] at h; exact absurd h (by simp)
    | some u =>
      rw [hse] at h
      exact Reach.head hP.1 hse (reach_of_exec (hP.2 u hse) h)

/-- A state without steps has only the empty run. -/
theorem eq_nil_of_exec (hs : ∀ e, step s e = none) (h : exec step s es = some t) : es = [] := by
  cases es with
  | nil => rfl
  | cons e es =>
    rw [exec_cons, hs e] at h
    exact absurd h (by simp)

theorem reach_anyStep_of_exec {es : List ε} (h : exec step s es = some t) :
    Reach step AnyStep s t :=
  reach_of_exec (meets_anyStep s es) h

theorem meets_exec_append {e : ε} : ∀ {es : List ε} {s t u : σ}, Meets step P s es →
    exec step s es = some t → P t e → step t e = some u →
    Meets step P s (es ++ [e]) ∧ exec step s (es ++ [e]) = some u
  | [], s, t, u, _, ht, hP, hu => by
    rw [exec_nil] at ht
    obtain rfl := Option.some.inj ht
    refine ⟨⟨hP, fun _ _ => trivial⟩, ?_⟩
    rw [List.nil_append, exec_cons, hu]
    rfl
  | d :: es, s, t, u, hm, ht, hP, hu => by
    rw [exec_cons] at ht
    obtain ⟨v, hv, ht⟩ := Option.bind_eq_some_iff.mp ht
    obtain ⟨hm', hu'⟩ := meets_exec_append (hm.2 v hv) ht hP hu
    refine ⟨⟨hm.1, ?_⟩, ?_⟩
    · intro w hw
      rw [Option.some.inj (hw.symm.trans hv)]
      exact hm'
    · rw [List.cons_append, exec_cons, hv]
      exact hu'

/-- The induction behind statements that hold exactly as long as every step meets a
condition: where the condition is met the invariant is kept, and where it is not the next
state is not as it should be.  `A` restricts the events. -/
theorem always_iff_meets {I Q : σ → Prop} {A : ε → Prop} (hQ : ∀ s, I s → Q s)
    (hstep : ∀ s e t, I s → A e → step s e = some t → P s e ∧ I t ∨ ¬ P s e ∧ ¬ Q t) :
    ∀ {es : List ε} {s t : σ}, I s → (∀ e ∈ es, A e) → exec step s es = some t →
      (Always step Q s es ↔ Meets step P s es)
  | [], s, _, hI, _, _ => iff_of_true (hQ s hI) trivial
  | e :: es, s, t, hI, hA, ht => by
    rw [exec_cons] at ht
    obtain ⟨u, hu, ht⟩ := Option.bind_eq_some_iff.mp ht
    have hnext : ∀ v, step s e = some v → v = u := fun v hv => Option.some.inj (hv.symm.trans hu)
    rcases hstep s e u hI (hA e List.mem_cons_self) hu with ⟨hP, hIu⟩ | ⟨hP, hQu⟩
    · have ih := always_iff_meets hQ hstep hIu (fun d hd => hA d (List.mem_cons_of_mem e hd)) ht
      constructor
      · rintro ⟨-, hall⟩
        exact ⟨hP, fun v hv => hnext v hv ▸ ih.mp (hall u hu)⟩
      · rintro ⟨-, hall⟩
        exact ⟨hQ s hI, fun v hv => hnext v hv ▸ ih.mpr (hall u hu)⟩
    · exact iff_of_false (fun hall => hQu (hall.2 u hu).head) fun hall => hP hall.1

/-- Where steps that meet `P` keep an invariant and meet `Q`, a run that meets `P` meets `Q`. -/
theorem meets_of_exec {I : σ → Prop}
    (hstep : ∀ s e t, I s → P s e → step s e = some t → Q s e ∧ I t) (hI : I s)
    (ht : exec step s es = some t) (hP : Meets step P s es) : Meets step Q s es := by
  induction es generalizing s with
  | nil => trivial
  | cons e es ih =>
    rw [exec_cons] at ht
    obtain ⟨u, hu, ht⟩ := Option.bind_eq_some_iff.mp ht
    obtain ⟨hQ, hIu⟩ := hstep s e u hI hP.1 hu
    refine ⟨hQ, fun v hv => ?_⟩
    rw [Option.some.inj (hv.symm.trans hu)]
    exact ih hIu ht (hP.2 u hu)

/-- A run that ends without a flaw `F`, which no step mends and every step that does not meet `P`
brings about, meets `P`. -/
theorem meets_of_flawless {I F : σ → Prop}
    (hinv : ∀ s e t, I s → step s e = some t → I t)
    (hstay : ∀ s e t, I s → step s e = some t → F s → F t)
    (hnew : ∀ s e t, I s → step s e = some t → ¬ P s e → F t) (hI : I s)
    (ht : exec step s es = some t) (hF : ¬ F t) : Meets step P s es := by
  induction es generalizing s with
  | nil => trivial
  | cons e es ih =>
    rw [exec_cons] at ht
    obtain ⟨u, hu, ht⟩ := Option.bind_eq_some_iff.mp ht
    have hIu := hinv s e u hI hu
    constructor
    · refine Classical.byContradiction fun hP => ?_
      have hkept := (reach_anyStep_of_exec ht).invariant (I := fun v => I v ∧ F v)
        ⟨hIu, hnew s e u hI hu hP⟩ fun v d w hv _ hw =>
          ⟨hinv v d w hv.1 hw, hstay v d w hv.1 hw hv.2⟩
      exact hF hkept.2
    · intro v hv
      rw [Option.some.inj (hv.symm.trans hu)]
      exact ih hIu ht

/-- A flaw `F` that no step mends and that a step brings about exactly when it does not meet
`P` is absent at the end of a run exactly when all its steps meet `P`. -/
theorem flawless_iff_meets {I F : σ → Prop}
    (hinv : ∀ s e t, I s → step s e = some t → I t)
    (hstay : ∀ s e t, I s → step s e = some t → F s → F t)
    (hnew : ∀ s e t, I s → step s e = some t → ¬ F s → (F t ↔ ¬ P s e))
    {es : List ε} {s t : σ} (hI : I s) (hs : ¬ F s) (ht : exec step s es = some t) :
    ¬ F t ↔ Meets step P s es := by
  constructor
  · refine meets_of_flawless hinv hstay ?_ hI ht
    intro u e v hIu hv hP
    by_cases hF : F u
    · exact hstay u e v hIu hv hF
    · exact (hnew u e v hIu hv hF).mpr hP
  · intro hmeets
    have hkept := (reach_of_exec hmeets ht).invariant (I := fun v => I v ∧ ¬ F v) ⟨hI, hs⟩
      fun u e v hu hP hv =>
        ⟨hinv u e v hu.1 hv, fun hF => (hnew u e v hu.1 hv hu.2).mp hF hP⟩
    exact hkept.2

/-! ## Termination -/

/-- A measure that every step lowers bounds the length of a run. -/
theorem length_le_of_exec {I : σ → Prop} {μ : σ → ℕ}
    (hstep : ∀ t e u, I t → P t e → step t e = some u → I u)
    (hμ : ∀ t e u, I t → P t e → step t e = some u → μ u < μ t) :
    ∀ {es : List ε} {s t : σ}, I s → Meets step P s es → exec step s es = some t →
      es.length + μ t ≤ μ s
  | [], s, t, _, _, h => by
    rw [exec_nil] at h
    rw [← Option.some.inj h]
    simp
  | e :: es, s, t, hI, hP, h => by
    rw [exec_cons] at h
    cases hse : step s e with
    | none => rw [hse] at h; exact absurd h (by simp)
    | some u =>
      rw [hse] at h
      have hlt := hμ s e u hI hP.1 hse
      have hrest := length_le_of_exec hstep hμ (hstep s e u hI hP.1 hse) (hP.2 u hse) h
      simp only [List.length_cons]
      omega

/-- Every run that meets `P` comes to an end, and only in a state that meets
`F`: its length is bounded, and a state that does not meet `F` has a step. -/
structure Terminates (step : σ → ε → Option σ) (P : σ → ε → Prop) (F : σ → Prop) (s : σ) :
    Prop where
  bounded : ∃ n, ∀ es t, Meets step P s es → exec step s es = some t → es.length ≤ n
  moves : ∀ t, Reach step P s t → ¬ F t → ∃ e u, P t e ∧ step t e = some u

theorem terminates_of_measure {I F : σ → Prop} (μ : σ → ℕ) (hs : I s)
    (hstep : ∀ t e u, I t → P t e → step t e = some u → I u)
    (hμ : ∀ t e u, I t → P t e → step t e = some u → μ u < μ t)
    (hmove : ∀ t, I t → ¬ F t → ∃ e u, P t e ∧ step t e = some u) :
    Terminates step P F s where
  bounded := ⟨μ s, fun es t hP h => by
    have := length_le_of_exec hstep hμ hs hP h
    omega⟩
  moves t ht hF := hmove t (ht.invariant hs hstep) hF

/-- A program that is at its end, and stuck there, has terminated. -/
theorem terminates_of_stuck {F : σ → Prop} (hs : ∀ e, step s e = none) (hF : F s) :
    Terminates step P F s :=
  terminates_of_measure (I := fun t => t = s) (fun _ => 0) rfl
    (fun t e u ht _ hu => by rw [ht, hs e] at hu; exact absurd hu (by simp))
    (fun t e u ht _ hu => by rw [ht, hs e] at hu; exact absurd hu (by simp))
    (fun t ht hnot => absurd (ht ▸ hF) hnot)

/-- A program that terminates has a run to its end. -/
theorem Terminates.exists_final {F : σ → Prop} (h : Terminates step P F s) :
    ∃ t, Reach step P s t ∧ F t := by
  obtain ⟨n, hn⟩ := h.bounded
  refine Classical.byContradiction ?_
  intro hno
  -- without a final state every run can be prolonged, past any bound
  have hlong : ∀ k, ∃ es t, es.length = k ∧ Meets step P s es ∧ exec step s es = some t := by
    intro k
    induction k with
    | zero => exact ⟨[], s, rfl, trivial, rfl⟩
    | succ k ih =>
      obtain ⟨es, t, hlen, hP, ht⟩ := ih
      have hreach := reach_of_exec hP ht
      obtain ⟨e, u, hPe, hu⟩ := h.moves t hreach fun hF => hno ⟨t, hreach, hF⟩
      obtain ⟨hP', hu'⟩ := meets_exec_append hP ht hPe hu
      exact ⟨es ++ [e], u, by simp [hlen], hP', hu'⟩
  obtain ⟨es, t, hlen, hP, ht⟩ := hlong (n + 1)
  have := hn es t hP ht
  omega

/-! ## Leaving by an exit -/

/-- A program with an exit point, `Out`, and a resource that may be in use, `Busy`.
Where it leaves for the exit because something goes wrong (`Aborts`) the resource
is as it was; where it leaves in any other way the resource is not in use; and at
the exit the resource is not taken into use again. -/
structure ExitRule (step : σ → ε → Option σ) (I Out Busy : σ → Prop) (Aborts : σ → ε → Prop) :
    Prop where
  keep : ∀ s e t, I s → step s e = some t → I t
  leave : ∀ s e t, I s → ¬ Out s → step s e = some t →
    (Aborts s e ∧ Out t ∧ (Busy t ↔ Busy s)) ∨ (¬ Aborts s e ∧ (Out t → ¬ Busy t))
  stay : ∀ s e t, I s → Out s → step s e = some t → Busy t → Busy s

section ExitRule

variable {I Out Busy : σ → Prop} {Aborts : σ → ε → Prop}

/-- A step leads to the exit with the resource in use exactly when it aborts while
the resource is in use. -/
theorem ExitRule.busy_iff (h : ExitRule step I Out Busy Aborts) (hI : I s) (hs : ¬ Out s) {e : ε}
    (ht : step s e = some t) : (Out t ∧ Busy t) ↔ (Aborts s e ∧ Busy s) := by
  rcases h.leave s e t hI hs ht with ⟨hab, hout, hbusy⟩ | ⟨hab, hfree⟩
  · exact ⟨fun hand => ⟨hab, hbusy.mp hand.2⟩, fun hand => ⟨hout, hbusy.mpr hand.2⟩⟩
  · exact ⟨fun hand => absurd hand.2 (hfree hand.1), fun hand => absurd hand.1 hab⟩

/-- **The exit is reached with the resource free**, in every run in which no step
aborts while the resource is in use. -/
theorem ExitRule.free_of_reach (h : ExitRule step I Out Busy Aborts) (hI : I s) (hs : ¬ Out s)
    (hst : Reach step (fun s e => Aborts s e → ¬ Busy s) s t) (hout : Out t) : ¬ Busy t := by
  have hinv : I t ∧ (Out t → ¬ Busy t) := by
    refine hst.invariant (I := fun t => I t ∧ (Out t → ¬ Busy t)) ⟨hI, fun ho => absurd ho hs⟩ ?_
    intro u e v hu hP hv
    refine ⟨h.keep u e v hu.1 hv, ?_⟩
    intro hout hbusy
    by_cases hou : Out u
    · exact hu.2 hou (h.stay u e v hu.1 hou hv hbusy)
    · obtain ⟨hab, hbu⟩ := (h.busy_iff hu.1 hou hv).mp ⟨hout, hbusy⟩
      exact hP hab hbu
  exact hinv.2 hout

end ExitRule

end Trace
end Pyuring
