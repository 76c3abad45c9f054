/-
  Packed records: a memory image of `n` bits with little-endian fields at byte
  offsets.

  A union of packed structs is one image; every member reads its own fields
  from it, so a field of one member overlaps fields of another exactly where
  the layouts say so.

  * `field m off len` reads the `len` bytes at `off`, `setField` writes them,
    `setBytes` writes a byte string;
  * a written field reads back (`field_setField`), and a write leaves the
    fields it does not overlap (`field_setField_of_disjoint`,
    `field_setBytes_of_disjoint`).
-/
import Mathlib

namespace Packed

variable {n : ℕ}

/-- The `len` bytes at byte `off`, little-endian. -/
def field (m : BitVec n) (off len : ℕ) : BitVec (8 * len) :=
  m.extractLsb' (8 * off) (8 * len)

/-- Write `v` to the `len` bytes at byte `off`. -/
def setField (m : BitVec n) (off len : ℕ) (v : BitVec (8 * len)) : BitVec n :=
  (m &&& ~~~((BitVec.allOnes (8 * len)).setWidth n <<< (8 * off))) |||
    (v.setWidth n <<< (8 * off))

/-- Write a byte string from byte `off` on. -/
def setBytes (m : BitVec n) (off : ℕ) : List (BitVec 8) → BitVec n
  | [] => m
  | b :: bs => setBytes (setField m off 1 b) (off + 1) bs

theorem getLsbD_field (m : BitVec n) (off len i : ℕ) :
    (field m off len).getLsbD i = (decide (i < 8 * len) && m.getLsbD (8 * off + i)) := by
  simp [field]

theorem getLsbD_setField (m : BitVec n) (off len : ℕ) (v : BitVec (8 * len)) (i : ℕ) :
    (setField m off len v).getLsbD i =
      if i < n ∧ 8 * off ≤ i ∧ i < 8 * off + 8 * len then v.getLsbD (i - 8 * off)
      else m.getLsbD i := by
  by_cases hn : i < n
  · by_cases hlo : i < 8 * off
    · have hlo' : ¬ 8 * off ≤ i := by omega
      simp [setField, hn, hlo, hlo']
    · have hlo' : 8 * off ≤ i := by omega
      by_cases hhi : i < 8 * off + 8 * len
      · have hsub : i - 8 * off < 8 * len := by omega
        simp [setField, hn, hlo, hlo', hhi, hsub]
      · have hsub : ¬ i - 8 * off < 8 * len := by omega
        have hv : v.getLsbD (i - 8 * off) = false := BitVec.getLsbD_of_ge _ _ (by omega)
        simp [setField, hn, hhi, hsub, hv]
  · have hm : m.getLsbD i = false := BitVec.getLsbD_of_ge _ _ (by omega)
    simp [setField, hn, hm]

/-- **A written field reads back.** -/
theorem field_setField (m : BitVec n) {off len : ℕ} (v : BitVec (8 * len))
    (h : 8 * off + 8 * len ≤ n) : field (setField m off len v) off len = v := by
  apply BitVec.eq_of_getLsbD_eq
  intro i hi
  rw [getLsbD_field, getLsbD_setField, if_pos ⟨by omega, by omega, by omega⟩]
  simp [hi]

/-- **A write leaves the fields it does not overlap.** -/
theorem field_setField_of_disjoint (m : BitVec n) {off len off' len' : ℕ} (v : BitVec (8 * len'))
    (h : off + len ≤ off' ∨ off' + len' ≤ off) :
    field (setField m off' len' v) off len = field m off len := by
  apply BitVec.eq_of_getLsbD_eq
  intro i hi
  rw [getLsbD_field, getLsbD_field, getLsbD_setField, if_neg (by omega)]

theorem field_setBytes_of_disjoint {off len : ℕ} (bs : List (BitVec 8)) (m : BitVec n) (off' : ℕ)
    (h : off + len ≤ off' ∨ off' + bs.length ≤ off) :
    field (setBytes m off' bs) off len = field m off len := by
  induction bs generalizing m off' with
  | nil => rfl
  | cons b bs ih =>
    simp only [List.length_cons] at h
    rw [setBytes, ih _ _ (by omega), field_setField_of_disjoint _ _ (by omega)]

/-- A written byte reads back. -/
theorem field_setBytes (bs : List (BitVec 8)) (m : BitVec n) (off i : ℕ) (hi : i < bs.length)
    (h : 8 * (off + bs.length) ≤ n) : field (setBytes m off bs) (off + i) 1 = bs[i] := by
  induction bs generalizing m off i with
  | nil => exact absurd hi (by simp)
  | cons b bs ih =>
    simp only [List.length_cons] at h hi
    rw [setBytes]
    cases i with
    | zero =>
      rw [field_setBytes_of_disjoint bs _ _ (by omega)]
      exact @field_setField n m off 1 b (by omega)
    | succ i =>
      rw [List.getElem_cons_succ, ← ih (setField m off 1 b) (off + 1) i (by omega) (by omega)]
      congr 1
      omega

theorem toNat_field (m : BitVec n) (off len : ℕ) :
    (field m off len).toNat = m.toNat / 2 ^ (8 * off) % 2 ^ (8 * len) := by
  simp [field, Nat.shiftRight_eq_div_pow]

/-- A field that starts `k` bytes into another one of its length: the high
    bytes of that one, and above them the low bytes of the next one. -/
theorem toNat_field_straddle (m : BitVec n) (off : ℕ) {k len : ℕ} (hk : k ≤ len) :
    (field m (off + k) len).toNat =
      (field m off len).toNat / 2 ^ (8 * k) +
        2 ^ (8 * (len - k)) * ((field m (off + len) len).toNat % 2 ^ (8 * k)) := by
  simp only [toNat_field, Nat.mul_add, pow_add, ← Nat.div_div_eq_div_mul]
  generalize m.toNat / 2 ^ (8 * off) = x
  have hlen : 2 ^ (8 * len) = 2 ^ (8 * k) * 2 ^ (8 * (len - k)) := by
    rw [← pow_add, ← Nat.mul_add]; congr 2; omega
  have hdvd : 2 ^ (8 * k) ∣ 2 ^ (8 * len) := ⟨_, hlen⟩
  have hhigh : x / 2 ^ (8 * k) % 2 ^ (8 * (len - k)) = x % 2 ^ (8 * len) / 2 ^ (8 * k) := by
    rw [hlen, Nat.mod_mul_right_div_self]
  have hnext : x / 2 ^ (8 * k) / 2 ^ (8 * (len - k)) = x / 2 ^ (8 * len) := by
    rw [hlen, Nat.div_div_eq_div_mul]
  rw [Nat.mod_mod_of_dvd _ hdvd, ← hhigh, ← hnext, hlen, Nat.mul_comm (2 ^ (8 * k)), Nat.mod_mul]

end Packed
