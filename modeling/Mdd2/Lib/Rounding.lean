/-
  Binary floating point over the rational numbers.

  `nearest p x` is the number with `p` significant binary digits that is nearest to `x`,
  and of two the one whose last digit is even.  Exponents are not bounded: this is the
  rounding of a format as long as it neither overflows nor underflows.

  * `abs_nearest_sub_le`: the relative error;
  * `roundAway_eq`: an integer with an error below one half;
  * `roundAway_scaled`: a fraction survives that it is rounded, scaled and rounded.
-/
import Mathlib

namespace Rounding

/-- The nearest integer, and of two the even one. -/
def halfEven (y : ℚ) : ℤ :=
  if y - ⌊y⌋ = 1 / 2 then (if ⌊y⌋ % 2 = 0 then ⌊y⌋ else ⌊y⌋ + 1) else round y

/-- The unit of the last digit. -/
def lastDigit (p : ℕ) (x : ℚ) : ℚ := 2 ^ (Int.log 2 |x| - p + 1)

def nearest (p : ℕ) (x : ℚ) : ℚ := if x = 0 then 0 else halfEven (x / lastDigit p x) * lastDigit p x

/-- `std::round`: halves away from zero. -/
def roundAway (x : ℚ) : ℤ := if 0 ≤ x then ⌊x + 1 / 2⌋ else -⌊-x + 1 / 2⌋

theorem abs_halfEven_sub_le (y : ℚ) : |halfEven y - y| ≤ 1 / 2 := by
  rw [halfEven]
  split_ifs with hhalf
  · rw [abs_sub_comm, hhalf]
    norm_num
  · push_cast
    rw [show (⌊y⌋ : ℚ) + 1 - y = 1 - (y - ⌊y⌋) by ring, hhalf]
    norm_num
  · rw [abs_sub_comm]
    exact abs_sub_round y

theorem lastDigit_pos (p : ℕ) (x : ℚ) : 0 < lastDigit p x := zpow_pos two_pos _

theorem lastDigit_le {x : ℚ} (p : ℕ) (hx : x ≠ 0) : lastDigit p x / 2 ≤ |x| * (2 ^ p)⁻¹ := by
  have hlog := Int.zpow_log_le_self (b := 2) one_lt_two (abs_pos.2 hx)
  push_cast at hlog
  calc lastDigit p x / 2 = 2 ^ Int.log 2 |x| * (2 ^ p)⁻¹ := by
        rw [lastDigit, zpow_add_one₀ two_ne_zero, zpow_sub₀ two_ne_zero, zpow_natCast]
        ring
    _ ≤ |x| * (2 ^ p)⁻¹ := mul_le_mul_of_nonneg_right hlog (by positivity)

/-- **The relative error of one rounding.** -/
theorem abs_nearest_sub_le (p : ℕ) (x : ℚ) : |nearest p x - x| ≤ |x| * (2 ^ p)⁻¹ := by
  by_cases hx : x = 0
  · simp [nearest, hx]
  have hpos := lastDigit_pos p x
  have hsub : nearest p x - x =
      (halfEven (x / lastDigit p x) - x / lastDigit p x) * lastDigit p x := by
    rw [nearest, if_neg hx, sub_mul, div_mul_cancel₀ _ hpos.ne']
  rw [hsub, abs_mul, abs_of_pos hpos]
  calc |(halfEven (x / lastDigit p x) : ℚ) - x / lastDigit p x| * lastDigit p x
      ≤ 1 / 2 * lastDigit p x :=
        mul_le_mul_of_nonneg_right (abs_halfEven_sub_le _) hpos.le
    _ = lastDigit p x / 2 := by ring
    _ ≤ |x| * (2 ^ p)⁻¹ := lastDigit_le p hx

theorem roundAway_eq {x : ℚ} {n : ℤ} (h : |x - n| < 1 / 2) : roundAway x = n := by
  rw [abs_lt] at h
  rw [roundAway]
  split_ifs with hx
  · rw [Int.floor_eq_iff]
    constructor <;> linarith
  · rw [neg_eq_iff_eq_neg, Int.floor_eq_iff]
    push_cast
    constructor <;> linarith

/-- **A fraction survives two roundings.**  Where `n / s` is rounded, multiplied by `s`, and
    the product is rounded, the nearest integer is `n`. -/
theorem roundAway_scaled {p s : ℕ} {n : ℤ} (hs : 0 < s) (h : |(n : ℚ)| * 8 ≤ 2 ^ p) (hp : 0 < p) :
    roundAway (nearest p (nearest p (n / s) * s)) = n := by
  have hs' : (0 : ℚ) < s := by exact_mod_cast hs
  set u : ℚ := (2 ^ p)⁻¹ with hu
  have hu0 : 0 < u := by positivity
  have hu1 : u ≤ 1 / 2 := by
    rw [hu, ← one_div]
    refine one_div_le_one_div_of_le two_pos ?_
    calc (2 : ℚ) = 2 ^ 1 := (pow_one _).symm
      _ ≤ 2 ^ p := pow_le_pow_right₀ one_le_two hp
  have hnu : |(n : ℚ)| * u ≤ 1 / 8 := by
    rw [hu, ← div_eq_mul_inv, div_le_iff₀ (by positivity)]
    linarith
  set d := nearest p (n / s)
  -- the error of the quotient, scaled
  have hd : |d * s - n| ≤ |(n : ℚ)| * u := by
    have hquot := abs_nearest_sub_le p ((n : ℚ) / s)
    rw [abs_div, abs_of_pos hs'] at hquot
    calc |d * s - n| = |d - n / s| * s := by
          rw [← abs_of_pos hs', ← abs_mul, abs_of_pos hs', sub_mul, div_mul_cancel₀ _ hs'.ne']
      _ ≤ |(n : ℚ)| / s * u * s := mul_le_mul_of_nonneg_right hquot hs'.le
      _ = |(n : ℚ)| * u := by field_simp
  -- the error of the product
  have hprod := abs_nearest_sub_le p (d * s)
  have hsize : |d * s| ≤ |(n : ℚ)| + |(n : ℚ)| * u := by
    calc |d * s| = |(d * s - n) + n| := by rw [sub_add_cancel]
      _ ≤ |d * s - n| + |(n : ℚ)| := abs_add_le _ _
      _ ≤ |(n : ℚ)| + |(n : ℚ)| * u := by linarith
  refine roundAway_eq ?_
  calc |nearest p (d * s) - n| ≤ |nearest p (d * s) - d * s| + |d * s - n| := abs_sub_le _ _ _
    _ ≤ (|(n : ℚ)| + |(n : ℚ)| * u) * u + |(n : ℚ)| * u := by
        refine add_le_add (hprod.trans ?_) hd
        exact mul_le_mul_of_nonneg_right hsize hu0.le
    _ < 1 / 2 := by nlinarith

end Rounding
