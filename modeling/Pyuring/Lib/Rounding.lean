import Mathlib.Data.Int.Log
import Mathlib.Data.Rat.Floor
import Mathlib.Tactic.Linarith
import Mathlib.Tactic.FieldSimp

/-!
# Rounding to the nearest float

The floats with `p` significant bits are the multiples of `2 ^ (k + 1 - p)` from `2 ^ k` to
`2 ^ (k + 1)`, for every `k`.  `nearest p x` is the one nearest to a positive `x`, and of two
that are equally near the one with the even significand.  Exponents are not bounded: what is
rounded here is neither tiny nor huge.

* `nearest_mono`: rounding keeps the order.
* `nearest_lt_iff`: a value that is not just below a float is compared with it as its rounding
  is.
-/

namespace Pyuring
namespace Rounding

variable {p : ℕ} {x y : ℚ}

/-! ## To an integer -/

/-- The nearest integer, the even one when there are two. -/
def halfEven (x : ℚ) : ℤ :=
  if 2 * (x - ⌊x⌋) < 1 then ⌊x⌋
  else if 1 < 2 * (x - ⌊x⌋) then ⌊x⌋ + 1
  else if ⌊x⌋ % 2 = 0 then ⌊x⌋
  else ⌊x⌋ + 1

theorem halfEven_intCast (n : ℤ) : halfEven n = n := by
  simp [halfEven]

theorem floor_le_halfEven (x : ℚ) : ⌊x⌋ ≤ halfEven x := by
  unfold halfEven
  split_ifs <;> omega

theorem halfEven_le_floor_add_one (x : ℚ) : halfEven x ≤ ⌊x⌋ + 1 := by
  unfold halfEven
  split_ifs <;> omega

theorem halfEven_mono (h : x ≤ y) : halfEven x ≤ halfEven y := by
  rcases (Int.floor_mono h).eq_or_lt with heq | hlt
  · -- between the same two integers: the larger number is further up
    unfold halfEven
    rw [heq]
    split_ifs <;> first | omega | (exfalso; linarith)
  · have hx := halfEven_le_floor_add_one x
    have hy := floor_le_halfEven y
    omega

/-! ## To a float -/

/-- The distance between the floats of `p` bits around `x`. -/
def gap (p : ℕ) (x : ℚ) : ℚ := 2 ^ (Int.log 2 x + 1 - p)

/-- The float of `p` bits nearest to `x`. -/
def nearest (p : ℕ) (x : ℚ) : ℚ := halfEven (x / gap p x) * gap p x

theorem gap_pos (p : ℕ) (x : ℚ) : 0 < gap p x := zpow_pos two_pos _

theorem two_pow_mul_gap (p : ℕ) (x : ℚ) : 2 ^ p * gap p x = 2 ^ (Int.log 2 x + 1) := by
  rw [gap, ← zpow_natCast, ← zpow_add₀ two_ne_zero]
  congr 1
  omega

@[simp] theorem nearest_zero (p : ℕ) : nearest p 0 = 0 := by
  simp [nearest, halfEven]

/-- Rounding does not leave the binade upwards. -/
theorem nearest_le_zpow (p : ℕ) (x : ℚ) : nearest p x ≤ 2 ^ (Int.log 2 x + 1) := by
  have hgap := gap_pos p x
  have hlt : x < 2 ^ (Int.log 2 x + 1) := Int.lt_zpow_succ_log_self Nat.one_lt_two x
  have hle : x / gap p x ≤ ((2 ^ p : ℤ) : ℚ) := by
    rw [div_le_iff₀ hgap]
    push_cast
    rw [two_pow_mul_gap]
    exact hlt.le
  have hround : (halfEven (x / gap p x) : ℚ) ≤ 2 ^ p := by
    have hmono := halfEven_mono hle
    rw [halfEven_intCast] at hmono
    exact_mod_cast hmono
  rw [← two_pow_mul_gap p x]
  exact mul_le_mul_of_nonneg_right hround hgap.le

/-- Nor downwards. -/
theorem zpow_le_nearest (hp : 0 < p) (hx : 0 < x) : 2 ^ Int.log 2 x ≤ nearest p x := by
  have hgap := gap_pos p x
  have hle : (2 : ℚ) ^ Int.log 2 x ≤ x := Int.zpow_log_le_self Nat.one_lt_two hx
  have hsplit : (2 : ℚ) ^ (p - 1) * gap p x = 2 ^ Int.log 2 x := by
    rw [gap, ← zpow_natCast, ← zpow_add₀ two_ne_zero]
    congr 1
    omega
  have hge : ((2 ^ (p - 1) : ℤ) : ℚ) ≤ x / gap p x := by
    rw [le_div_iff₀ hgap]
    push_cast
    rw [hsplit]
    exact hle
  have hround : (2 : ℚ) ^ (p - 1) ≤ halfEven (x / gap p x) := by
    have hmono := halfEven_mono hge
    rw [halfEven_intCast] at hmono
    exact_mod_cast hmono
  rw [← hsplit]
  exact mul_le_mul_of_nonneg_right hround hgap.le

/-- **Rounding keeps the order.** -/
theorem nearest_mono (hp : 0 < p) (hx : 0 ≤ x) (h : x ≤ y) : nearest p x ≤ nearest p y := by
  rcases hx.eq_or_lt with rfl | hx
  · rw [nearest_zero]
    rcases h.eq_or_lt with rfl | hy
    · rw [nearest_zero]
    · exact (zpow_pos two_pos _).le.trans (zpow_le_nearest hp hy)
  rcases (Int.log_mono_right (b := 2) hx h).eq_or_lt with heq | hlt
  · -- one binade, so one distance of floats
    have hgap : gap p x = gap p y := by rw [gap, gap, heq]
    have hround : (halfEven (x / gap p y) : ℚ) ≤ halfEven (y / gap p y) := by
      exact_mod_cast halfEven_mono (div_le_div_of_nonneg_right h (gap_pos p y).le)
    rw [nearest, nearest, hgap]
    exact mul_le_mul_of_nonneg_right hround (gap_pos p y).le
  · -- a power of two lies between the results
    calc nearest p x ≤ 2 ^ (Int.log 2 x + 1) := nearest_le_zpow p x
      _ ≤ 2 ^ Int.log 2 y := zpow_le_zpow_right₀ one_le_two hlt
      _ ≤ nearest p y := zpow_le_nearest hp (hx.trans_le h)

/-- Below a float `c`, and not between `c` and the float `b` under it, the rounded value is
compared with `c` as the value is. -/
theorem nearest_lt_iff {b c : ℚ} (hp : 0 < p) (hx : 0 ≤ x) (hc : 0 ≤ c) (hfloat : nearest p c = c)
    (hbelow : nearest p b = b) (hbc : b < c) (h : x < c → x ≤ b) : nearest p x < c ↔ x < c := by
  constructor
  · intro hlt
    by_contra hge
    have hmono := nearest_mono hp hc (not_lt.mp hge)
    rw [hfloat] at hmono
    exact absurd hlt (not_lt.mpr hmono)
  · intro hlt
    have hmono := nearest_mono hp hx (h hlt)
    rw [hbelow] at hmono
    exact hmono.trans_lt hbc

end Rounding
end Pyuring
