import Mathlib

/-!
# Pieces of memory one after the other

A vectored transfer names pieces of memory in a list.  It takes what it writes from them, one
after the other (`gather`), and it puts what it reads into them, each filled up before the next
one is begun (`scatter`).  A piece has a length of its own, which may be less than the memory
that starts there, and never is more.

1. `gather_eq_iff`: all the memory is gathered exactly when each piece is its whole memory.
2. `scatter_flatten`: blocks that are as long as the pieces come to lie in a piece each.
-/

namespace Pyuring
namespace ScatterGather

variable {α : Type*}

/-- A piece of memory: what is there, and how much of it is meant. -/
structure Segment (α : Type*) where
  mem : List α
  len : ℕ
  le : len ≤ mem.length
  deriving DecidableEq, Repr

/-- The piece is all there is. -/
def Segment.Full (v : Segment α) : Prop := v.len = v.mem.length

instance : DecidablePred (Segment.Full (α := α)) := fun _ => inferInstanceAs (Decidable (_ = _))

/-- The elements in the piece. -/
def Segment.used (v : Segment α) : List α := v.mem.take v.len

/-- The memory once as much of `xs` as fits was put into the piece. -/
def Segment.fill (v : Segment α) (xs : List α) : List α :=
  xs.take v.len ++ v.mem.drop (min v.len xs.length)

/-- The elements in the pieces, one after the other. -/
def gather (vs : List (Segment α)) : List α := vs.flatMap Segment.used

/-- The number of elements that the pieces have room for. -/
def room (vs : List (Segment α)) : ℕ := (vs.map Segment.len).sum

/-- The memory of the pieces once `xs` was put into them. -/
def scatter : List (Segment α) → List α → List (List α)
  | [], _ => []
  | v :: vs, xs => v.fill xs :: scatter vs (xs.drop v.len)

variable {v : Segment α} {vs : List (Segment α)}

@[simp] theorem length_used (v : Segment α) : v.used.length = v.len := by
  rw [Segment.used, List.length_take, Nat.min_eq_left v.le]

theorem Segment.Full.used_eq (h : v.Full) : v.used = v.mem := by
  rw [used, h, List.take_length]

/-- A block as long as the piece replaces all of its memory. -/
theorem Segment.Full.fill_append (h : v.Full) {b : List α} (hb : b.length = v.len) (xs : List α) :
    v.fill (b ++ xs) = b := by
  have hle : v.len ≤ (b ++ xs).length := by
    rw [List.length_append]
    omega
  rw [fill, Nat.min_eq_left hle, h, List.drop_length, List.append_nil, ← h, ← hb, List.take_left]

@[simp] theorem gather_nil : gather ([] : List (Segment α)) = [] := rfl

theorem gather_cons (v : Segment α) (vs : List (Segment α)) :
    gather (v :: vs) = v.used ++ gather vs := rfl

theorem length_gather (vs : List (Segment α)) : (gather vs).length = room vs := by
  induction vs with
  | nil => rfl
  | cons v vs ih => simp [gather_cons, room, ih]

theorem room_le (vs : List (Segment α)) : room vs ≤ (vs.flatMap Segment.mem).length := by
  induction vs with
  | nil => exact Nat.le_refl 0
  | cons v vs ih =>
    have hv := v.le
    simp only [room, List.map_cons, List.sum_cons, List.flatMap_cons, List.length_append] at ih ⊢
    omega

/-- **All the memory is gathered** exactly when each piece is its whole memory. -/
theorem gather_eq_iff : gather vs = vs.flatMap Segment.mem ↔ ∀ v ∈ vs, v.Full := by
  induction vs with
  | nil => simp
  | cons v vs ih =>
    rw [gather_cons, List.flatMap_cons, List.forall_mem_cons, ← ih]
    constructor
    · intro h
      have hlen := congrArg List.length h
      have hroom := room_le vs
      have hv := v.le
      rw [List.length_append, List.length_append, length_used, length_gather] at hlen
      have hfull : v.Full := by
        unfold Segment.Full
        omega
      rw [hfull.used_eq] at h
      exact ⟨hfull, List.append_cancel_left h⟩
    · rintro ⟨hfull, hrest⟩
      rw [hfull.used_eq, hrest]

/-- **Blocks come to lie in a piece each**, when they are as long as the pieces and these are
all their memory. -/
theorem scatter_flatten {bs : List (List α)} (hfull : ∀ v ∈ vs, v.Full)
    (hlen : bs.map List.length = vs.map Segment.len) : scatter vs bs.flatten = bs := by
  induction vs generalizing bs with
  | nil => rw [List.map_eq_nil_iff.mp hlen]; rfl
  | cons v vs ih =>
    obtain ⟨b, rest, rfl, hb, hrest⟩ := List.map_eq_cons_iff.mp hlen
    obtain ⟨hv, hvs⟩ := List.forall_mem_cons.mp hfull
    rw [List.flatten_cons, scatter, hv.fill_append hb, ← hb, List.drop_left, ih hvs hrest]

end ScatterGather
end Pyuring
