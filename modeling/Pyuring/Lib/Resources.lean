import Pyuring.Lib.Trace
import Mathlib.Data.List.Nodup
import Mathlib.Data.List.Perm.Basic

/-!
# Resources acquired and released

A program acquires resources and releases them, each under a name of its own.  What it does
is a trace of `Use`s, the oldest first, and it has cleaned up after itself when the trace is
`Settled`: whatever was acquired was released once after that, and nothing else was released.

1. `settled_openClose` is the clean-up sequence of code that gives up half-way: what it has
   acquired so far, released in some order.
2. `CleanUp` is the clean-up block that all ways out lead to: the program runs with all its
   resources held, and the one step with which it is done releases them.
-/

namespace Pyuring
namespace Resources

open Trace

variable {ρ : Type*}

/-- A resource is acquired, or released. -/
inductive Use (ρ : Type*) where
  | acquire (r : ρ)
  | release (r : ρ)
  deriving DecidableEq, Repr

/-- The resource that is acquired or released. -/
def Use.name : Use ρ → ρ
  | .acquire r => r
  | .release r => r

/-- All of `opened` is acquired in turn, and then all of `closed` released. -/
def openClose (opened closed : List ρ) : List (Use ρ) :=
  opened.map .acquire ++ closed.map .release

section Settled

variable [DecidableEq ρ]

/-- What is done with one resource. -/
def usesOf (r : ρ) (tr : List (Use ρ)) : List (Use ρ) := tr.filter fun u => u.name = r

/-- Each resource was never acquired, or acquired once and released once after that. -/
def Settled (tr : List (Use ρ)) : Prop :=
  ∀ r, usesOf r tr = [] ∨ usesOf r tr = [.acquire r, .release r]

theorem settled_nil : Settled ([] : List (Use ρ)) := fun _ => Or.inl rfl

/-- What happens once to each of the names, seen from one of them. -/
theorem usesOf_map {f : ρ → Use ρ} (hf : ∀ r, (f r).name = r) (r : ρ) {rs : List ρ}
    (h : rs.Nodup) : usesOf r (rs.map f) = if r ∈ rs then [f r] else [] := by
  have hname : (fun u => decide (Use.name u = r)) ∘ f = fun s => decide (s = r) := by
    funext s
    simp [hf]
  rw [usesOf, List.filter_map, hname, List.filter_eq, h.count]
  split
  · rw [List.replicate_one, List.map_singleton]
  · rw [List.replicate_zero, List.map_nil]

/-- **A clean-up sequence** releases what was acquired, in some order. -/
theorem settled_openClose {opened closed : List ρ} (hnodup : opened.Nodup)
    (hperm : closed.Perm opened) : Settled (openClose opened closed) := by
  intro r
  have hsplit : usesOf r (openClose opened closed) =
      usesOf r (opened.map .acquire) ++ usesOf r (closed.map .release) := List.filter_append _ _
  rw [hsplit, usesOf_map (fun _ => rfl) r hnodup,
    usesOf_map (fun _ => rfl) r (hperm.nodup_iff.mpr hnodup), if_congr hperm.mem_iff rfl rfl]
  split
  · exact Or.inr rfl
  · exact Or.inl rfl

/-- Where nothing is released, nothing may have been acquired. -/
theorem settled_openClose_nil {opened : List ρ} : Settled (openClose opened []) ↔ opened = [] := by
  constructor
  · intro h
    by_contra hne
    obtain ⟨r, rest, rfl⟩ := List.exists_cons_of_ne_nil hne
    have hnever : Use.release r ∉ openClose (r :: rest) [] := by simp [openClose]
    have hacquired : Use.acquire r ∈ usesOf r (openClose (r :: rest) []) := by
      simp [usesOf, openClose, Use.name]
    rcases h r with hnone | hboth
    · rw [hnone] at hacquired
      exact List.not_mem_nil hacquired
    · refine hnever (List.mem_of_mem_filter (p := fun u => decide (u.name = r)) ?_)
      rw [← usesOf, hboth]
      exact List.mem_cons_of_mem _ List.mem_cons_self
  · rintro rfl
    exact settled_nil

end Settled

/-! ## Runs -/

variable {σ ε : Type*} {step : σ → ε → Option σ} {releases : ε → List ρ}

/-- A program that releases resources along its steps, with the trace of it. -/
def stepTraced (step : σ → ε → Option σ) (releases : ε → List ρ) :
    σ × List (Use ρ) → ε → Option (σ × List (Use ρ)) := fun s e =>
  (step s.1 e).map fun t => (t, s.2 ++ (releases e).map .release)

/-- Each run of the program has a trace. -/
theorem exists_traced {s t : σ} (h : Reach step AnyStep s t) (tr : List (Use ρ)) :
    ∃ tr', Reach (stepTraced step releases) AnyStep (s, tr) (t, tr') := by
  induction h with
  | refl => exact ⟨tr, .refl _⟩
  | tail _ _ ht ih =>
    obtain ⟨tr', h'⟩ := ih
    exact ⟨_, h'.tail trivial (by rw [stepTraced, ht]; rfl)⟩

/-- A run from `s` that is done has a trace, and it is settled whatever it is. -/
def ReleasesOnce [DecidableEq ρ] (step : σ → ε → Option σ) (releases : ε → List ρ)
    (s : σ × List (Use ρ)) (Done : σ → Prop) : Prop :=
  ∀ t, Reach step AnyStep s.1 t → Done t →
    (∃ tr, Reach (stepTraced step releases) AnyStep s (t, tr)) ∧
      ∀ tr, Reach (stepTraced step releases) AnyStep s (t, tr) → Settled tr

/-- A program that holds `held` while it runs, and releases all of it with its last step. -/
structure CleanUp (step : σ → ε → Option σ) (releases : ε → List ρ) (I Done : σ → Prop)
    (held : List ρ) : Prop where
  nodup : held.Nodup
  keep : ∀ s e t, I s → step s e = some t → I t
  last : ∀ s e t, I s → ¬ Done s → step s e = some t →
    Done t ∧ (releases e).Perm held ∨ ¬ Done t ∧ releases e = []
  done : ∀ s e, Done s → step s e = none

/-- The clean-up block of a program is one event: no other releases anything, and no other is
the last. -/
theorem CleanUp.of_event {I Done : σ → Prop} {held : List ρ} (cleanup : ε) (hnodup : held.Nodup)
    (hkeep : ∀ s e t, I s → step s e = some t → I t) (hperm : (releases cleanup).Perm held)
    (hother : ∀ e, e ≠ cleanup → releases e = [])
    (hlast : ∀ s e t, I s → step s e = some t → (Done t ↔ e = cleanup))
    (hdone : ∀ s e, Done s → step s e = none) : CleanUp step releases I Done held where
  nodup := hnodup
  keep := hkeep
  last s e t hs _ ht := by
    by_cases he : e = cleanup
    · subst he
      exact Or.inl ⟨(hlast s e t hs ht).mpr rfl, hperm⟩
    · exact Or.inr ⟨fun hret => he ((hlast s e t hs ht).mp hret), hother e he⟩
  done := hdone

/-- The program has cleaned up and is done, or it runs and holds everything. -/
def CleanedUp [DecidableEq ρ] (I Done : σ → Prop) (held : List ρ) (s : σ × List (Use ρ)) : Prop :=
  Done s.1 ∧ Settled s.2 ∨ ¬ Done s.1 ∧ I s.1 ∧ s.2 = openClose held []

theorem CleanUp.reach [DecidableEq ρ] {I Done : σ → Prop} {held : List ρ}
    (h : CleanUp step releases I Done held) {P : σ × List (Use ρ) → ε → Prop}
    {s t : σ × List (Use ρ)} (hs : CleanedUp I Done held s)
    (hst : Reach (stepTraced step releases) P s t) : CleanedUp I Done held t := by
  refine hst.invariant hs ?_
  intro u e v hu _ hv
  obtain ⟨v', hv', rfl⟩ := Option.map_eq_some_iff.mp hv
  rcases hu with ⟨hdone, -⟩ | ⟨hrun, hI, htr⟩
  · rw [h.done u.1 e hdone] at hv'
    exact absurd hv' (by simp)
  rcases h.last u.1 e v' hI hrun hv' with ⟨hdone, hrel⟩ | ⟨hrun', hrel⟩
  · refine Or.inl ⟨hdone, ?_⟩
    simp only [htr, openClose, List.map_nil, List.append_nil]
    exact settled_openClose h.nodup hrel
  · refine Or.inr ⟨hrun', h.keep u.1 e v' hI hv', ?_⟩
    simp only [htr, hrel, List.map_nil, List.append_nil]

/-- **The clean-up block** is enough, in every run. -/
theorem CleanUp.releasesOnce [DecidableEq ρ] {I Done : σ → Prop} {held : List ρ}
    (h : CleanUp step releases I Done held) {s : σ × List (Use ρ)}
    (hs : CleanedUp I Done held s) : ReleasesOnce step releases s Done := by
  intro t hst hdone
  refine ⟨exists_traced hst s.2, fun tr htr => ?_⟩
  rcases h.reach hs htr with ⟨-, hsettled⟩ | ⟨hrun, -⟩
  · exact hsettled
  · exact absurd hdone hrun

end Resources
end Pyuring
