import Pyuring.Lib.Trace

/-!
# A machine that runs on another

One event of a machine may be several events of the machine below it.  `calls s e` lists
them, for the event `e` in the state `s`, and `expand` puts the lists of a run one after the
other.

## What is proved

Where the list of each event can be run below, and a relation between the states of the two
machines is kept, the whole run can be run below (`exec_expand`).  Where in related states
an event meets a condition `P` exactly when its list meets a condition `Q`, a run of the
upper machine meets `P` exactly when the run below meets `Q` (`meets_expand_iff`).
-/

namespace Pyuring
namespace Trace

variable {σ ε σ' ε' : Type*}

section Append

variable {step : σ → ε → Option σ} {P : σ → ε → Prop} {s t : σ} {es fs : List ε}

theorem exec_append : exec step s (es ++ fs) = (exec step s es).bind fun t => exec step t fs := by
  induction es generalizing s with
  | nil => rfl
  | cons e es ih =>
    rw [List.cons_append, exec_cons, exec_cons, Option.bind_assoc]
    exact congrArg _ (funext fun t => ih)

theorem meets_append_iff (h : exec step s es = some t) :
    Meets step P s (es ++ fs) ↔ Meets step P s es ∧ Meets step P t fs := by
  induction es generalizing s with
  | nil =>
    rw [← Option.some.inj h]
    exact ⟨fun h => ⟨trivial, h⟩, fun h => h.2⟩
  | cons e es ih =>
    rw [exec_cons] at h
    obtain ⟨u, hu, h⟩ := Option.bind_eq_some_iff.mp h
    have hnext : ∀ v, step s e = some v → v = u := fun v hv => Option.some.inj (hv.symm.trans hu)
    constructor
    · rintro ⟨hP, hall⟩
      obtain ⟨hes, hfs⟩ := (ih h).mp (hall u hu)
      exact ⟨⟨hP, fun v hv => hnext v hv ▸ hes⟩, hfs⟩
    · rintro ⟨⟨hP, hall⟩, hfs⟩
      refine ⟨hP, fun v hv => ?_⟩
      rw [hnext v hv]
      exact (ih h).mpr ⟨hall u hu, hfs⟩

/-- One event is met by itself. -/
theorem meets_singleton {e : ε} : Meets step P s [e] ↔ P s e :=
  ⟨fun h => h.1, fun h => ⟨h, fun _ _ => trivial⟩⟩

/-- What holds at the end of a run, and before a step whenever it holds after it, holds after
every step of the run. -/
theorem meets_of_end {C : σ → Prop} (hback : ∀ s e t, step s e = some t → C t → C s)
    (h : exec step s es = some t) (ht : C t) :
    C s ∧ Meets step (fun s e => ∀ u, step s e = some u → C u) s es := by
  induction es generalizing s with
  | nil =>
    rw [Option.some.inj h]
    exact ⟨ht, trivial⟩
  | cons e es ih =>
    rw [exec_cons] at h
    obtain ⟨u, hu, h⟩ := Option.bind_eq_some_iff.mp h
    obtain ⟨hCu, hmeets⟩ := ih h
    have hnext : ∀ v, step s e = some v → v = u := fun v hv => Option.some.inj (hv.symm.trans hu)
    exact ⟨hback s e u hu hCu, fun v hv => hnext v hv ▸ hCu, fun v hv => hnext v hv ▸ hmeets⟩

end Append

/-- The events below, in the order in which a run makes them. -/
def expand (step : σ → ε → Option σ) (calls : σ → ε → List ε') : σ → List ε → List ε'
  | _, [] => []
  | s, e :: es => calls s e ++ match step s e with
    | none => []
    | some t => expand step calls t es

variable {step : σ → ε → Option σ} {step' : σ' → ε' → Option σ'} {calls : σ → ε → List ε'}
  {P C : σ → ε → Prop} {Q : σ' → ε' → Prop} {R : σ → σ' → Prop} {s t : σ} {u : σ'} {es : List ε}

theorem expand_cons {e : ε} (ht : step s e = some t) :
    expand step calls s (e :: es) = calls s e ++ expand step calls t es := by
  simp only [expand, ht]

theorem mem_expand {a : ε'} (h : a ∈ expand step calls s es) : ∃ t e, a ∈ calls t e := by
  induction es generalizing s with
  | nil => exact absurd h List.not_mem_nil
  | cons e es ih =>
    simp only [expand] at h
    rcases List.mem_append.mp h with h | h
    · exact ⟨s, e, h⟩
    · split at h
      · exact absurd h List.not_mem_nil
      · exact ih h

/-- **Every run of the upper machine is a run of the lower one.** -/
theorem exec_expand
    (hstep : ∀ s e t u, R s u → C s e → step s e = some t →
      ∃ v, exec step' u (calls s e) = some v ∧ R t v)
    (hR : R s u) (hC : Meets step C s es) (h : exec step s es = some t) :
    ∃ v, exec step' u (expand step calls s es) = some v ∧ R t v := by
  induction es generalizing s u with
  | nil =>
    rw [← Option.some.inj h]
    exact ⟨u, rfl, hR⟩
  | cons e es ih =>
    rw [exec_cons] at h
    obtain ⟨w, hw, h⟩ := Option.bind_eq_some_iff.mp h
    obtain ⟨v, hv, hRv⟩ := hstep s e w u hR hC.1 hw
    obtain ⟨x, hx, hRx⟩ := ih hRv (hC.2 w hw) h
    refine ⟨x, ?_, hRx⟩
    rw [expand_cons hw, exec_append, hv]
    exact hx

/-- **A condition on one machine is a condition on the other.** -/
theorem meets_expand_iff
    (hstep : ∀ s e t u, R s u → C s e → step s e = some t →
      ∃ v, exec step' u (calls s e) = some v ∧ R t v)
    (hiff : ∀ s e t u, R s u → C s e → step s e = some t →
      (Meets step' Q u (calls s e) ↔ P s e))
    (hR : R s u) (hC : Meets step C s es) (h : exec step s es = some t) :
    Meets step' Q u (expand step calls s es) ↔ Meets step P s es := by
  induction es generalizing s u with
  | nil => exact Iff.rfl
  | cons e es ih =>
    rw [exec_cons] at h
    obtain ⟨w, hw, h⟩ := Option.bind_eq_some_iff.mp h
    obtain ⟨v, hv, hRv⟩ := hstep s e w u hR hC.1 hw
    rw [expand_cons hw, meets_append_iff hv, hiff s e w u hR hC.1 hw, ih hRv (hC.2 w hw) h]
    have hnext : ∀ x, step s e = some x → x = w := fun x hx => Option.some.inj (hx.symm.trans hw)
    constructor
    · rintro ⟨hP, hall⟩
      exact ⟨hP, fun x hx => hnext x hx ▸ hall⟩
    · rintro ⟨hP, hall⟩
      exact ⟨hP, hall w hw⟩

end Trace
end Pyuring
