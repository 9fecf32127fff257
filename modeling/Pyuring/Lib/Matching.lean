import Pyuring.Lib.Trace

/-!
# Programs that take the same steps

Two programs that take the same events, related by `R` from one step to the next, in both
directions (`Matches`).  Each run of one is a run of the other (`Matches.reach`,
`Matches.exec`), and where one terminates, so does the other (`Matches.terminates`).

This is how a program that is modelled together with more of its surroundings takes over what
is known of it alone.
-/

namespace Pyuring
namespace Trace

variable {σ τ ε : Type*}

/-- Related states take the same events, to related states. -/
structure Matches (R : τ → σ → Prop) (stepτ : τ → ε → Option τ) (stepσ : σ → ε → Option σ) :
    Prop where
  forth : ∀ t s e t', R t s → stepτ t e = some t' → ∃ s', stepσ s e = some s' ∧ R t' s'
  back : ∀ t s e s', R t s → stepσ s e = some s' → ∃ t', stepτ t e = some t' ∧ R t' s'

variable {R : τ → σ → Prop} {stepτ : τ → ε → Option τ} {stepσ : σ → ε → Option σ}
  {Pτ : τ → ε → Prop} {Pσ : σ → ε → Prop} {t t' : τ} {s : σ}

/-- Each state that the one program reaches is matched by one that the other reaches. -/
theorem Matches.reach (h : Matches R stepτ stepσ) (hP : ∀ t s e, R t s → Pτ t e → Pσ s e)
    (hR : R t s) (ht : Reach stepτ Pτ t t') : ∃ s', Reach stepσ Pσ s s' ∧ R t' s' := by
  induction ht with
  | refl => exact ⟨s, Reach.refl s, hR⟩
  | tail _ he hstep ih =>
    obtain ⟨s₁, hs₁, hR₁⟩ := ih
    obtain ⟨s₂, hstep₂, hR₂⟩ := h.forth _ _ _ _ hR₁ hstep
    exact ⟨s₂, hs₁.tail (hP _ _ _ hR₁ he) hstep₂, hR₂⟩

theorem Matches.exec (h : Matches R stepτ stepσ) : ∀ {es : List ε} {t : τ} {s : σ}, R t s →
    Trace.exec stepτ t es = some t' → ∃ s', Trace.exec stepσ s es = some s' ∧ R t' s'
  | [], t, s, hR, ht => by
    obtain rfl := Option.some.inj ht
    exact ⟨s, rfl, hR⟩
  | e :: es, t, s, hR, ht => by
    rw [exec_cons] at ht
    obtain ⟨t₁, hstep, ht⟩ := Option.bind_eq_some_iff.mp ht
    obtain ⟨s₁, hstep₁, hR₁⟩ := h.forth t s e t₁ hR hstep
    obtain ⟨s₂, hs₂, hR₂⟩ := h.exec hR₁ ht
    exact ⟨s₂, by rw [exec_cons, hstep₁]; exact hs₂, hR₂⟩

theorem Matches.meets (h : Matches R stepτ stepσ) (hP : ∀ t s e, R t s → Pτ t e → Pσ s e) :
    ∀ {es : List ε} {t : τ} {s : σ}, R t s → Meets stepτ Pτ t es → Meets stepσ Pσ s es
  | [], _, _, _, _ => trivial
  | e :: es, t, s, hR, ht => by
    refine ⟨hP t s e hR ht.1, fun s₁ hs₁ => ?_⟩
    obtain ⟨t₁, ht₁, hR₁⟩ := h.back t s e s₁ hR hs₁
    exact h.meets hP hR₁ (ht.2 t₁ ht₁)

/-- **A program that is matched by one that terminates, terminates.** -/
theorem Matches.terminates (h : Matches R stepτ stepσ) (hP : ∀ t s e, R t s → (Pτ t e ↔ Pσ s e))
    {Fτ : τ → Prop} {Fσ : σ → Prop} (hF : ∀ t s, R t s → Fσ s → Fτ t) (hR : R t s)
    (hs : Terminates stepσ Pσ Fσ s) : Terminates stepτ Pτ Fτ t := by
  have hforth : ∀ t s e, R t s → Pτ t e → Pσ s e := fun t s e hR => (hP t s e hR).mp
  constructor
  · obtain ⟨n, hn⟩ := hs.bounded
    refine ⟨n, fun es t' hes ht' => ?_⟩
    obtain ⟨s', hs', -⟩ := h.exec hR ht'
    exact hn es s' (h.meets hforth hR hes) hs'
  · intro t' ht' hnot
    obtain ⟨s', hs', hR'⟩ := h.reach hforth hR ht'
    obtain ⟨e, s₁, he, hs₁⟩ := hs.moves s' hs' fun hF' => hnot (hF t' s' hR' hF')
    obtain ⟨t₁, ht₁, -⟩ := h.back t' s' e s₁ hR' hs₁
    exact ⟨e, t₁, (hP t' s' e hR').mpr he, ht₁⟩

end Trace
end Pyuring
