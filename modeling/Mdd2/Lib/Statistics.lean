/-
  Moments of lists over an ordered field.

  One pass over a list with running sums gives the same variance and covariance as the
  deviations from the mean (`sum_sq_deviation`, `sum_mul_deviation`); the covariance is
  bounded by the variances (`covariance_sq_le`), and a variance is positive where two values
  differ (`variance_pos_iff`).
-/
import Mathlib

namespace Statistics

variable {ι R : Type*} [Field R] [LinearOrder R] [IsStrictOrderedRing R]

/-- The sum of a function over a list. -/
def total (l : List ι) (f : ι → R) : R := (l.map f).sum

section
variable (l : List ι) (f g : ι → R)

omit [LinearOrder R] [IsStrictOrderedRing R] in
@[simp] theorem total_nil : total [] f = 0 := rfl

omit [LinearOrder R] [IsStrictOrderedRing R] in
@[simp] theorem total_cons (a : ι) : total (a :: l) f = f a + total l f := rfl

omit [LinearOrder R] [IsStrictOrderedRing R] in
theorem total_append (l' : List ι) : total (l ++ l') f = total l f + total l' f := by
  simp [total]

omit [LinearOrder R] [IsStrictOrderedRing R] in
theorem total_add : total l (fun a => f a + g a) = total l f + total l g := by
  induction l with
  | nil => simp
  | cons a l ih => rw [total_cons, ih, total_cons, total_cons]; ring

omit [LinearOrder R] [IsStrictOrderedRing R] in
theorem total_mul_left (c : R) : total l (fun a => c * f a) = c * total l f := by
  induction l with
  | nil => simp
  | cons a l ih => rw [total_cons, ih, total_cons]; ring

omit [LinearOrder R] [IsStrictOrderedRing R] in
theorem total_const (c : R) : total l (fun _ => c) = l.length * c := by
  simp [total]

theorem total_nonneg (h : ∀ a ∈ l, 0 ≤ f a) : 0 ≤ total l f :=
  List.sum_nonneg (by simpa using h)

/-- A sum of terms that are not negative is zero only if all of them are. -/
theorem total_eq_zero_iff (h : ∀ a ∈ l, 0 ≤ f a) : total l f = 0 ↔ ∀ a ∈ l, f a = 0 := by
  induction l with
  | nil => simp
  | cons a l ih =>
    have ha := h a List.mem_cons_self
    have hl : ∀ b ∈ l, 0 ≤ f b := fun b hb => h b (List.mem_cons_of_mem a hb)
    rw [total_cons, add_eq_zero_iff_of_nonneg ha (total_nonneg l f hl), ih hl,
      List.forall_mem_cons]

end

/-! ## Deviations -/

/-- The mean. -/
def mean (l : List ι) (f : ι → R) : R := total l f / l.length

omit [LinearOrder R] in
theorem length_mul_mean [CharZero R] {l : List ι} (h : l ≠ []) (f : ι → R) :
    l.length * mean l f = total l f := by
  have hlen : (l.length : R) ≠ 0 := by simpa using h
  rw [mean, mul_div_cancel₀ _ hlen]

/-- **The covariance from running sums.** -/
theorem sum_mul_deviation {l : List ι} (h : l ≠ []) (f g : ι → R) :
    total l (fun a => (f a - mean l f) * (g a - mean l g)) =
      total l (fun a => f a * g a) - l.length * (mean l f * mean l g) := by
  have hsplit : (fun a => (f a - mean l f) * (g a - mean l g)) = fun a =>
      f a * g a + (-mean l g * f a + (-mean l f * g a + mean l f * mean l g)) := by
    ext a; ring
  rw [hsplit, total_add, total_add, total_add, total_mul_left, total_mul_left, total_const,
    ← length_mul_mean h f, ← length_mul_mean h g]
  ring

/-- The variance from running sums. -/
theorem sum_sq_deviation {l : List ι} (h : l ≠ []) (f : ι → R) :
    total l (fun a => (f a - mean l f) ^ 2) =
      total l (fun a => f a * f a) - l.length * (mean l f * mean l f) := by
  rw [← sum_mul_deviation h f f]
  congr 1
  ext a; ring

theorem deviation_nonneg (l : List ι) (f : ι → R) : 0 ≤ total l fun a => (f a - mean l f) ^ 2 :=
  total_nonneg l _ fun _ _ => sq_nonneg _

/-! ## Bounds -/

theorem total_mul_sq_le (l : List ι) (f g : ι → R) :
    total l (fun a => f a * g a) ^ 2 ≤
      total l (fun a => f a ^ 2) * total l (fun a => g a ^ 2) := by
  have hsum : ∀ h : ι → R, total l h = ∑ i : Fin l.length, h l[i.1] := fun h =>
    (Fin.sum_univ_fun_getElem l h).symm
  rw [hsum, hsum, hsum]
  exact Finset.sum_mul_sq_le_sq_mul_sq _ _ _

/-- **The covariance is bounded by the variances**, as running sums have them. -/
theorem covariance_sq_le (l : List ι) (f g : ι → R) :
    (total l (fun a => f a * g a) * l.length - total l f * total l g) ^ 2 ≤
      (total l (fun a => f a * f a) * l.length - total l f * total l f) *
        (total l (fun a => g a * g a) * l.length - total l g * total l g) := by
  rcases eq_or_ne l [] with rfl | h
  · simp
  have hle := total_mul_sq_le l (fun a => f a - mean l f) fun a => g a - mean l g
  rw [sum_mul_deviation h, sum_sq_deviation h, sum_sq_deviation h] at hle
  rw [← length_mul_mean h f, ← length_mul_mean h g]
  have hsq : (0 : R) ≤ (l.length : R) ^ 2 := sq_nonneg _
  have hscaled := mul_le_mul_of_nonneg_left hle hsq
  calc _ = (l.length : R) ^ 2 * (total l (fun a => f a * g a) -
        l.length * (mean l f * mean l g)) ^ 2 := by ring
    _ ≤ _ := hscaled
    _ = _ := by ring

/-- The variance, as running sums have it. -/
theorem variance_eq {l : List ι} (h : l ≠ []) (f : ι → R) :
    total l (fun a => f a * f a) * l.length - total l f * total l f =
      l.length * total l fun a => (f a - mean l f) ^ 2 := by
  rw [sum_sq_deviation h, ← length_mul_mean h f]
  ring

theorem variance_nonneg (l : List ι) (f : ι → R) :
    0 ≤ total l (fun a => f a * f a) * l.length - total l f * total l f := by
  rcases eq_or_ne l [] with rfl | h
  · simp
  rw [variance_eq h]
  exact mul_nonneg (Nat.cast_nonneg _) (deviation_nonneg l f)

/-- **A variance is positive if and only if two values differ.** -/
theorem variance_pos_iff (l : List ι) (f : ι → R) :
    0 < total l (fun a => f a * f a) * l.length - total l f * total l f ↔
      ∃ a ∈ l, ∃ b ∈ l, f a ≠ f b := by
  rcases eq_or_ne l [] with rfl | h
  · simp
  have hlen : (0 : R) < l.length := by exact_mod_cast List.length_pos_iff.2 h
  rw [variance_eq h, mul_pos_iff_of_pos_left hlen, (deviation_nonneg l f).lt_iff_ne, ne_comm, Ne,
    total_eq_zero_iff l _ fun _ _ => sq_nonneg _]
  constructor
  · intro hne
    by_contra hsame
    push Not at hsame
    obtain ⟨a, ha⟩ := List.exists_mem_of_ne_nil l h
    -- all values are that of `a`, and so is their mean
    have hconst : total l f = l.length * f a := by
      rw [← total_const]
      exact congrArg List.sum (List.map_congr_left fun b hb => hsame b hb a ha)
    refine hne fun b hb => ?_
    rw [mean, hconst, mul_div_cancel_left₀ _ hlen.ne', hsame b hb a ha, sub_self,
      zero_pow two_ne_zero]
  · rintro ⟨a, ha, b, hb, hab⟩ hzero
    have hmean : ∀ c ∈ l, f c = mean l f := fun c hc =>
      sub_eq_zero.1 (pow_eq_zero_iff two_ne_zero |>.1 (hzero c hc))
    exact hab ((hmean a ha).trans (hmean b hb).symm)

end Statistics
