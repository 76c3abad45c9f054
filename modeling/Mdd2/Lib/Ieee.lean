/-
  Comparisons of IEEE 754 numbers.

  A number of a binary format is its sign, its biased exponent and its fraction.
  `value` is what it stands for, in units of the least positive number of the
  format; an infinity comes next after the largest number (`magnitude_lt`).  A
  comparison is one of values, and is false if a side is not a number.

  * `not_gt`, `le_inf`, `le_replaceNaN`: the comparisons that a test for NaN can be
    written as.
-/
import Mathlib

namespace Ieee

structure Format where
  exponentBits : ℕ
  fractionBits : ℕ
  exponentBits_pos : 0 < exponentBits
  fractionBits_pos : 0 < fractionBits

/-- `double`. -/
def binary64 : Format := ⟨11, 52, by decide, by decide⟩

structure Number (f : Format) where
  sign : Bool
  exponent : Fin (2 ^ f.exponentBits)
  fraction : Fin (2 ^ f.fractionBits)
  deriving DecidableEq

namespace Number
variable {f : Format}

/-- The exponent of infinities and of NaNs. -/
def maxExponent (f : Format) : Fin (2 ^ f.exponentBits) :=
  ⟨2 ^ f.exponentBits - 1, Nat.sub_lt (by positivity) one_pos⟩

def isNaN (x : Number f) : Bool := x.exponent = maxExponent f ∧ (x.fraction : ℕ) ≠ 0

def isInf (x : Number f) : Bool := x.exponent = maxExponent f ∧ (x.fraction : ℕ) = 0

def zero (f : Format) : Number f := ⟨false, ⟨0, by positivity⟩, ⟨0, by positivity⟩⟩

def inf (f : Format) (negative : Bool) : Number f := ⟨negative, maxExponent f, ⟨0, by positivity⟩⟩

/-- A quiet NaN. -/
def nan (f : Format) : Number f :=
  ⟨false, maxExponent f, ⟨2 ^ (f.fractionBits - 1),
    Nat.pow_lt_pow_right one_lt_two (Nat.sub_lt f.fractionBits_pos one_pos)⟩⟩

/-- The absolute value: the fraction of a subnormal number, or the fraction after a
    leading one, shifted by the exponent. -/
def magnitude (x : Number f) : ℕ :=
  if (x.exponent : ℕ) = 0 then x.fraction
  else (2 ^ f.fractionBits + x.fraction) * 2 ^ ((x.exponent : ℕ) - 1)

/-- What a number that is not NaN stands for. -/
def value (x : Number f) : ℤ := if x.sign then -x.magnitude else x.magnitude

def le (a b : Number f) : Bool := !a.isNaN && !b.isNaN && decide (a.value ≤ b.value)

def lt (a b : Number f) : Bool := !a.isNaN && !b.isNaN && decide (a.value < b.value)

def ge (a b : Number f) : Bool := b.le a

def gt (a b : Number f) : Bool := b.lt a

/-- `x` with NaN taken for zero. -/
def replaceNaN (x : Number f) : Number f := if x.isNaN then zero f else x

@[simp] theorem isNaN_nan (f : Format) : (nan f).isNaN = true := by
  simp [isNaN, nan]

@[simp] theorem isNaN_inf (negative : Bool) : (inf f negative).isNaN = false := by
  simp [isNaN, inf]

theorem two_le_two_pow_exponentBits (f : Format) : 2 ≤ 2 ^ f.exponentBits :=
  Nat.pow_le_pow_right two_pos f.exponentBits_pos

theorem exponent_zero_ne (f : Format) : (zero f).exponent ≠ maxExponent f := by
  intro h
  have hpow := two_le_two_pow_exponentBits f
  have := congrArg Fin.val h
  simp only [zero, maxExponent] at this
  omega

@[simp] theorem isNaN_zero (f : Format) : (zero f).isNaN = false := by
  simp [isNaN, exponent_zero_ne]

theorem magnitude_inf (f : Format) (negative : Bool) :
    (inf f negative).magnitude = 2 ^ f.fractionBits * 2 ^ (2 ^ f.exponentBits - 2) := by
  have hpow := two_le_two_pow_exponentBits f
  have hne : ((inf f negative).exponent : ℕ) ≠ 0 := by
    show 2 ^ f.exponentBits - 1 ≠ 0
    omega
  rw [magnitude, if_neg hne]
  show (2 ^ f.fractionBits + 0) * 2 ^ (2 ^ f.exponentBits - 1 - 1) = _
  rw [Nat.add_zero, Nat.sub_sub]

theorem eq_inf_of_isInf {x : Number f} (h : x.isInf = true) : x = inf f x.sign := by
  obtain ⟨sign, exponent, fraction⟩ := x
  simp only [isInf, Bool.decide_and, Bool.and_eq_true, decide_eq_true_eq] at h
  obtain ⟨rfl, hfraction⟩ := h
  rw [inf, show fraction = ⟨0, by positivity⟩ from Fin.ext hfraction]

@[simp] theorem value_zero (f : Format) : (zero f).value = 0 := by
  have hmagnitude : (zero f).magnitude = 0 := if_pos rfl
  rw [value, hmagnitude]
  rfl

/-- An infinity is less than zero if it is negative. -/
theorem lt_zero_inf (f : Format) (negative : Bool) :
    (inf f negative).lt (zero f) = negative := by
  have hpos : 0 < (inf f negative).magnitude := by
    rw [magnitude_inf]
    positivity
  rw [lt, isNaN_inf, isNaN_zero, value_zero]
  cases negative with
  | true =>
    show decide (-((inf f true).magnitude : ℤ) < 0) = true
    exact decide_eq_true (by omega)
  | false =>
    show decide (((inf f false).magnitude : ℤ) < 0) = false
    exact decide_eq_false (by omega)

/-- **A number with a smaller exponent is less than infinity.** -/
theorem magnitude_lt (x : Number f) (negative : Bool) (h : x.exponent ≠ maxExponent f) :
    x.magnitude < (inf f negative).magnitude := by
  have hfraction := x.fraction.isLt
  have hne : (x.exponent : ℕ) ≠ 2 ^ f.exponentBits - 1 := fun he => h (Fin.ext he)
  have hexponent : (x.exponent : ℕ) + 1 < 2 ^ f.exponentBits := by
    have := x.exponent.isLt
    omega
  rw [magnitude_inf, magnitude]
  split_ifs with h0
  · exact hfraction.trans_le (Nat.le_mul_of_pos_right _ (by positivity))
  · calc (2 ^ f.fractionBits + (x.fraction : ℕ)) * 2 ^ ((x.exponent : ℕ) - 1)
        < 2 ^ f.fractionBits * 2 * 2 ^ ((x.exponent : ℕ) - 1) :=
          Nat.mul_lt_mul_of_pos_right (by omega) (by positivity)
      _ = 2 ^ f.fractionBits * 2 ^ (x.exponent : ℕ) := by
          rw [mul_assoc, ← pow_succ', Nat.sub_add_cancel (by omega)]
      _ ≤ 2 ^ f.fractionBits * 2 ^ (2 ^ f.exponentBits - 2) :=
          Nat.mul_le_mul_left _ (Nat.pow_le_pow_right two_pos (by omega))

theorem magnitude_le_of_not_isNaN {x : Number f} (h : x.isNaN = false) (negative : Bool) :
    x.magnitude ≤ (inf f negative).magnitude := by
  by_cases he : x.exponent = maxExponent f
  · have hfraction : x.fraction = ⟨0, by positivity⟩ := by
      apply Fin.ext
      by_contra h0
      simp [isNaN, he] at h
      exact h0 (by simp [h])
    obtain ⟨sign, exponent, fraction⟩ := x
    simp only at he hfraction
    rw [he, hfraction]
    exact le_of_eq rfl
  · exact (magnitude_lt x negative he).le

theorem value_le_inf {x : Number f} (h : x.isNaN = false) : x.value ≤ (inf f false).value := by
  have hle := magnitude_le_of_not_isNaN h false
  show (if x.sign then _ else _) ≤ ((inf f false).magnitude : ℤ)
  split_ifs <;> omega

/-! ## Tests for NaN as comparisons -/

theorem le_of_isNaN {a : Number f} (h : a.isNaN = true) (c : Number f) : a.le c = false := by
  rw [le, h]
  rfl

theorem gt_of_isNaN {a : Number f} (h : a.isNaN = true) (c : Number f) : a.gt c = false := by
  rw [gt, lt, h, Bool.not_true, Bool.and_false, Bool.false_and]

theorem le_self {a : Number f} (h : a.isNaN = false) : a.le a = true := by
  rw [le, h, decide_eq_true le_rfl]
  rfl

/-- What is not NaN is ordered. -/
theorem not_gt_of_not_isNaN {a c : Number f} (ha : a.isNaN = false) (hc : c.isNaN = false) :
    (!a.gt c) = a.le c := by
  rw [gt, lt, le, ha, hc, Bool.not_false, Bool.and_self, Bool.true_and, Bool.true_and,
    ← decide_not]
  exact decide_eq_decide.2 not_lt

/-- **Not greater** is NaN, or at most. -/
theorem not_gt (a : Number f) {c : Number f} (hc : c.isNaN = false) :
    (!a.gt c) = (a.isNaN || a.le c) := by
  cases ha : a.isNaN with
  | true => rw [gt_of_isNaN ha, Bool.true_or, Bool.not_false]
  | false => rw [not_gt_of_not_isNaN ha hc, Bool.false_or]

theorem not_isNaN_and_le (a c : Number f) : (!a.isNaN && a.le c) = a.le c := by
  cases ha : a.isNaN with
  | true => rw [le_of_isNaN ha, Bool.and_false]
  | false => rw [Bool.not_false, Bool.true_and]

/-- **At most infinity** is not NaN. -/
theorem le_inf (a : Number f) : a.le (inf f false) = !a.isNaN := by
  cases ha : a.isNaN with
  | true => rw [le_of_isNaN ha]; rfl
  | false =>
    rw [le, ha, isNaN_inf, decide_eq_true (value_le_inf ha)]
    rfl

/-- **At most a threshold, with NaN taken for zero**: NaN is on the side that the
    threshold has of zero. -/
theorem le_replaceNaN (a : Number f) {c : Number f} (hc : c.isNaN = false) :
    a.replaceNaN.le c = if c.lt (zero f) then a.le c else !a.gt c := by
  cases ha : a.isNaN with
  | true =>
    rw [replaceNaN, if_pos ha, le_of_isNaN ha, gt_of_isNaN ha, ← not_gt_of_not_isNaN
      (isNaN_zero f) hc, gt]
    cases c.lt (zero f) <;> rfl
  | false =>
    rw [replaceNaN, if_neg (by rw [ha]; exact Bool.false_ne_true), not_gt_of_not_isNaN ha hc,
      ite_self]

/-- A threshold that is not negative is at least zero. -/
theorem ge_zero_of_not_lt {c : Number f} (hc : c.isNaN = false) (h : c.lt (zero f) = false) :
    c.ge (zero f) = true := by
  rw [ge, ← not_gt_of_not_isNaN (isNaN_zero f) hc, gt, h]
  rfl

end Number

end Ieee
