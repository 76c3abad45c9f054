/-
  Machine words: conversions between the fixed-width integers.

  Unsigned arithmetic and conversions to a narrower type reduce modulo the
  width; they are written with the functions below.  So are signed counters and
  sums that may outgrow their type: they reduce as two's complement does, and a
  result that needs them exact says when they fit.  Other signed arithmetic is left
  exact on `ℤ`, since its overflow has no defined meaning.
-/
import Mathlib

namespace Word

/-- Conversion to a signed integer of `w` bits. -/
def toSigned (w : ℕ) (x : ℤ) : ℤ := x.bmod (2 ^ w)

/-- Conversion to an unsigned integer of `w` bits. -/
def toUnsigned (w : ℕ) (x : ℤ) : ℕ := (x % 2 ^ w).toNat

theorem toSigned_of_range {w : ℕ} {x : ℤ} (hlo : -2 ^ w ≤ x) (hhi : x < 2 ^ w) :
    toSigned (w + 1) x = x := by
  unfold toSigned
  apply Int.bmod_eq_of_le <;> push_cast [pow_succ] <;> omega

theorem toSigned_of_abs_lt {w : ℕ} {x : ℤ} (h : |x| < 2 ^ w) : toSigned (w + 1) x = x := by
  obtain ⟨hlo, hhi⟩ := abs_lt.1 h
  exact toSigned_of_range hlo.le hhi

/-- Reducing a part of a sum makes no difference. -/
theorem toSigned_add (w : ℕ) (x y : ℤ) : toSigned w (toSigned w x + y) = toSigned w (x + y) :=
  Int.bmod_add_bmod

/-- A sum that is reduced at every step. -/
theorem foldl_toSigned_add {α : Type*} (w : ℕ) (f : α → ℤ) (l : List α) (a : ℤ) :
    l.foldl (fun s x => toSigned w (s + f x)) (toSigned w a) = toSigned w (a + (l.map f).sum) := by
  induction l generalizing a with
  | nil => simp
  | cons x l ih => rw [List.foldl_cons, toSigned_add, ih, List.map_cons, List.sum_cons, add_assoc]

theorem abs_sum_map_le {α : Type*} (f : α → ℤ) (l : List α) :
    |(l.map f).sum| ≤ (l.map fun x => |f x|).sum := by
  have h := Multiset.abs_sum_le_sum_abs (s := ((l.map f : List ℤ) : Multiset ℤ))
  rwa [Multiset.sum_coe, Multiset.map_coe, Multiset.sum_coe, List.map_map] at h

/-- **A sum fits if the sum of the sizes of its terms does.** -/
theorem toSigned_sum {α : Type*} {w : ℕ} {f : α → ℤ} {l : List α}
    (h : (l.map fun x => |f x|).sum < 2 ^ w) :
    toSigned (w + 1) (l.map f).sum = (l.map f).sum :=
  toSigned_of_abs_lt ((abs_sum_map_le f l).trans_lt h)

theorem toSigned_modEq (w : ℕ) (x : ℤ) : toSigned w x ≡ x [ZMOD 2 ^ w] := by
  have h := Int.bmod_emod (x := x) (m := 2 ^ w)
  push_cast at h
  exact h

theorem toUnsigned_cast (w : ℕ) (x : ℤ) : (toUnsigned w x : ℤ) = x % 2 ^ w := by
  unfold toUnsigned
  exact Int.toNat_of_nonneg (Int.emod_nonneg _ (by positivity))

theorem toUnsigned_of_range {w : ℕ} {x : ℤ} (hlo : 0 ≤ x) (hhi : x < 2 ^ w) :
    (toUnsigned w x : ℤ) = x := by
  rw [toUnsigned_cast, Int.emod_eq_of_lt hlo hhi]

/-! ## Pairs of sums -/

/-- A pair as 64 bits hold it. -/
def hold (x : ℤ × ℤ) : ℤ × ℤ := (toSigned 64 x.1, toSigned 64 x.2)

/-- The sizes of a pair. -/
def sizes (x : ℤ × ℤ) : ℤ × ℤ := (|x.1|, |x.2|)

def Fits (x : ℤ × ℤ) : Prop := x.1 < 2 ^ 63 ∧ x.2 < 2 ^ 63

theorem Fits.mono {x y : ℤ × ℤ} (h : Fits y) (hle : x ≤ y) : Fits x :=
  ⟨(Prod.le_def.1 hle).1.trans_lt h.1, (Prod.le_def.1 hle).2.trans_lt h.2⟩

theorem hold_eq {x : ℤ × ℤ} (h : Fits (sizes x)) : hold x = x :=
  Prod.ext (toSigned_of_abs_lt h.1) (toSigned_of_abs_lt h.2)

theorem sizes_nonneg (x : ℤ × ℤ) : 0 ≤ sizes x := ⟨abs_nonneg _, abs_nonneg _⟩

theorem sizes_add_le (x y : ℤ × ℤ) : sizes (x + y) ≤ sizes x + sizes y :=
  ⟨abs_add_le _ _, abs_add_le _ _⟩

theorem sum_sizes_nonneg (l : List (ℤ × ℤ)) : 0 ≤ (l.map sizes).sum := by
  refine List.sum_nonneg fun x hx => ?_
  obtain ⟨y, -, rfl⟩ := List.mem_map.1 hx
  exact sizes_nonneg y

theorem sizes_le_sum {l : List (ℤ × ℤ)} {x : ℤ × ℤ} (hx : x ∈ l) : sizes x ≤ (l.map sizes).sum := by
  refine List.single_le_sum (fun y hy => ?_) _ (List.mem_map_of_mem hx)
  obtain ⟨z, -, rfl⟩ := List.mem_map.1 hy
  exact sizes_nonneg z

theorem sizes_sum_le (l : List (ℤ × ℤ)) : sizes l.sum ≤ (l.map sizes).sum := by
  induction l with
  | nil => exact le_rfl
  | cons x l ih =>
    rw [List.sum_cons, List.map_cons, List.sum_cons]
    exact (sizes_add_le x l.sum).trans (by gcongr)

/-- **Sums that fit are held exactly**, step by step. -/
theorem foldl_hold {l : List (ℤ × ℤ)} {a : ℤ × ℤ} (h : Fits (sizes a + (l.map sizes).sum)) :
    l.foldl (fun s x => hold (s + x)) a = a + l.sum := by
  induction l generalizing a with
  | nil => simp
  | cons x l ih =>
    rw [List.map_cons, List.sum_cons, ← add_assoc] at h
    have hx : hold (a + x) = a + x :=
      hold_eq (h.mono ((sizes_add_le a x).trans (le_add_of_nonneg_right (sum_sizes_nonneg l))))
    rw [List.foldl_cons, hx, ih (h.mono (by gcongr; exact sizes_add_le a x)), List.sum_cons,
      add_assoc]

/-- A word lies within a mask if no bit of it lies outside. -/
theorem and_not_eq_zero_iff {w : ℕ} (u m : BitVec w) : u &&& ~~~m = 0 ↔ u &&& m = u := by
  simp only [BitVec.eq_of_getLsbD_eq_iff]
  refine forall₂_congr fun i hi => ?_
  simp [hi]

end Word
