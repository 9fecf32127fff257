import Mathlib.Data.List.Basic
import Mathlib.Logic.Function.Basic
import Mathlib.Tactic.TypeStar

/-!
# Arrays of records in a memory of words

A layout says where the fields of a record lie: field `f` of record `i` of an array is the word
`stride * i + offset f`.  Words between the fields belong to no field, and storing records leaves
them alone.

`load_storeAll` is the round trip through one layout.  Where a program stores with one layout and
loads with another, `storeAll_address` and `storeAll_of_le` say what it finds.
-/

namespace Pyuring

variable {φ W : Type*}

/-- The places of the fields `φ` of a record, in words from its start. -/
structure RecordLayout (φ : Type*) where
  fields : List φ
  stride : ℕ
  offset : φ → ℕ
  mem_fields : ∀ f, f ∈ fields
  offset_lt : ∀ f, offset f < stride
  offset_inj : ∀ f g, offset f = offset g → f = g

namespace RecordLayout

variable (L : RecordLayout φ)

/-- The word of field `f` of record `i`. -/
def address (i : ℕ) (f : φ) : ℕ := L.stride * i + L.offset f

/-- The field of record `i` that the word at `p` holds. -/
def fieldAt (i p : ℕ) : Option φ := L.fields.find? fun f => L.address i f = p

/-- Store one record as the `i`-th of the array. -/
def store (i : ℕ) (r : φ → W) (mem : ℕ → W) : ℕ → W := fun p =>
  match L.fieldAt i p with
  | some f => r f
  | none => mem p

/-- Store records from the `i`-th on. -/
def storeAll : ℕ → List (φ → W) → (ℕ → W) → ℕ → W
  | _, [], mem => mem
  | i, r :: rs, mem => storeAll (i + 1) rs (L.store i r mem)

/-- The `i`-th record of the array. -/
def load (i : ℕ) (mem : ℕ → W) : φ → W := fun f => mem (L.address i f)

variable {L}

theorem address_lt (i : ℕ) (f : φ) : L.address i f < L.stride * (i + 1) := by
  rw [address, Nat.mul_add, Nat.mul_one]
  exact Nat.add_lt_add_left (L.offset_lt f) _

theorem le_address (i : ℕ) (f : φ) : L.stride * i ≤ L.address i f := Nat.le_add_right _ _

/-- Different records do not overlap. -/
theorem address_ne {i j : ℕ} (hij : i ≠ j) (f g : φ) : L.address i f ≠ L.address j g := by
  rcases Nat.lt_or_gt_of_ne hij with hlt | hlt
  · have hle := Nat.mul_le_mul_left L.stride (Nat.add_one_le_of_lt hlt)
    have := L.address_lt i f
    have := L.le_address j g
    omega
  · have hle := Nat.mul_le_mul_left L.stride (Nat.add_one_le_of_lt hlt)
    have := L.address_lt j g
    have := L.le_address i f
    omega

theorem address_inj {i : ℕ} {f g : φ} (h : L.address i f = L.address i g) : f = g :=
  L.offset_inj f g (Nat.add_left_cancel h)

theorem fieldAt_eq_some {i p : ℕ} {f : φ} : L.fieldAt i p = some f ↔ L.address i f = p := by
  constructor
  · intro h
    simpa using List.find?_some h
  · intro h
    cases hfind : L.fieldAt i p with
    | none =>
      have hno := List.find?_eq_none.mp hfind f (L.mem_fields f)
      exact absurd h (by simpa using hno)
    | some g =>
      have hg : L.address i g = p := by simpa using List.find?_some hfind
      rw [address_inj (h.trans hg.symm)]

@[simp] theorem store_address (i : ℕ) (r : φ → W) (mem : ℕ → W) (f : φ) :
    L.store i r mem (L.address i f) = r f := by
  rw [store, fieldAt_eq_some.mpr rfl]

/-- A word that is no field of the record keeps its value. -/
theorem store_of_ne {i p : ℕ} (hp : ∀ f, L.address i f ≠ p) (r : φ → W) (mem : ℕ → W) :
    L.store i r mem p = mem p := by
  rw [store]
  split
  · next f hf => exact absurd (fieldAt_eq_some.mp hf) (hp f)
  · rfl

/-- A word that is no field of any of the records keeps its value. -/
theorem storeAll_of_ne {rs : List (φ → W)} {i p : ℕ}
    (hp : ∀ j < rs.length, ∀ f, L.address (i + j) f ≠ p) (mem : ℕ → W) :
    L.storeAll i rs mem p = mem p := by
  induction rs generalizing i mem with
  | nil => rfl
  | cons r rs ih =>
    rw [storeAll, ih]
    · exact store_of_ne (hp 0 (Nat.succ_pos _)) r mem
    · intro j hj f
      have hne := hp (j + 1) (Nat.succ_lt_succ hj) f
      rwa [Nat.add_comm j, ← Nat.add_assoc] at hne

/-- The words behind the last record keep their values. -/
theorem storeAll_of_le {rs : List (φ → W)} {i p : ℕ} (hp : L.stride * (i + rs.length) ≤ p)
    (mem : ℕ → W) : L.storeAll i rs mem p = mem p := by
  refine storeAll_of_ne (fun j hj f => ?_) mem
  have hlt := L.address_lt (i + j) f
  have hle := Nat.mul_le_mul_left L.stride (show i + j + 1 ≤ i + rs.length by omega)
  omega

/-- **The words of the records.** -/
theorem storeAll_address {rs : List (φ → W)} {i j : ℕ} (hj : j < rs.length) (mem : ℕ → W) (f : φ) :
    L.storeAll i rs mem (L.address (i + j) f) = rs[j] f := by
  induction rs generalizing i j mem with
  | nil => exact absurd hj (Nat.not_lt_zero _)
  | cons r rs ih =>
    cases j with
    | zero =>
      rw [storeAll, storeAll_of_ne]
      · exact store_address i r mem f
      · exact fun j _ g => address_ne (by omega) g f
    | succ j =>
      have hrest := ih (i := i + 1) (Nat.lt_of_succ_lt_succ hj) (L.store i r mem)
      rw [storeAll, ← Nat.add_assoc, Nat.add_right_comm]
      exact hrest

/-- **The round trip** through one layout. -/
theorem load_storeAll {rs : List (φ → W)} {j : ℕ} (hj : j < rs.length) (mem : ℕ → W) :
    L.load j (L.storeAll 0 rs mem) = rs[j] := by
  funext f
  have haddr := storeAll_address (L := L) (i := 0) hj mem f
  rwa [Nat.zero_add] at haddr

end RecordLayout
end Pyuring
