/-
  The schedule of the order book snapshots of a day.

  Slot 0 is 9:15:00.000, and the slots after it are `i` milliseconds apart, but for the
  breaks after 9:25:00.000 and 11:30:00.000.

  * `timestampToAbsoluteMilliseconds_slotTime`, `absoluteMillisecondsToTimestamp_slot`:
    the two conversions are inverse on the slots;
  * `slotTime_succ`: an advance by the interval moves to the next slot;
  * `schedule_eq`: the schedule lists the slots after slot 0, up to 15:00:00.000.
-/
import Mdd2.L2Timestamp
import Mdd2.Proof.Clock

namespace L2

open Mdd2 ClockTime

/-! ## Slots -/

/-- The time of day some milliseconds after `hours:minutes`. -/
def clockTime (hours minutes milliseconds : ℕ) : ℤ :=
  (ofLinear ((hours * 60 + minutes) * 60000 + milliseconds)).timestamp

/-- The times of the snapshots of a day, every `i` milliseconds. -/
def schedule (i : ℕ) : List ℤ :=
  (List.range' 1 (600000 / i)).map (fun k => clockTime 9 15 (k * i)) ++
  (List.range (7200000 / i + 1)).map (fun k => clockTime 9 30 (k * i)) ++
  (List.range (7200000 / i + 1)).map (fun k => clockTime 13 0 (k * i))

/-- Milliseconds since midnight of a slot; slot 0 is 9:15:00.000. -/
def slotLinear (i k : ℕ) : ℕ :=
  if k * i ≤ 600000 then 33300000 + k * i
  else if k * i ≤ 7800000 + i then 33600000 - i + k * i
  else 39000000 - 2 * i + k * i

def slotTime (i k : ℕ) : ℤ := (ofLinear (slotLinear i k)).timestamp

/-- The slot of 15:00:00.000. -/
def closeSlot (i : ℕ) : ℕ := 600000 / i + (7200000 / i + 1) + (7200000 / i + 1)

variable {i k : ℕ}

theorem slotTime_zero (i : ℕ) : slotTime i 0 = 91500000 := by
  rw [slotTime, slotLinear, Nat.zero_mul, if_pos (Nat.zero_le _)]
  decide

/-- Multiples of the interval are at least an interval apart. -/
theorem add_le_mul {n : ℕ} (hn : i ∣ n) (hlt : n < k * i) : n + i ≤ k * i := by
  have hmod : n ≡ k * i [MOD i] :=
    (Nat.modEq_zero_iff_dvd.2 hn).trans (Nat.modEq_zero_iff_dvd.2 (Nat.dvd_mul_left i k)).symm
  exact hmod.add_le_of_lt hlt

section
variable (hi : i ∣ 300000)
include hi

theorem interval_pos : 0 < i := Nat.pos_of_dvd_of_pos hi (by decide)

theorem interval_le : i ≤ 300000 := Nat.le_of_dvd (by decide) hi

theorem auction_mul : 600000 / i * i = 600000 := Nat.div_mul_cancel (hi.trans (by decide))

theorem session_mul : 7200000 / i * i = 7200000 := Nat.div_mul_cancel (hi.trans (by decide))

theorem closeSlot_mul : closeSlot i * i = 15000000 + 2 * i := by
  simp only [closeSlot, Nat.add_mul, auction_mul hi, session_mul hi]
  omega

theorem slotLinear_le (hk : k ≤ closeSlot i) : slotLinear i k ≤ 54000000 := by
  have hmul := Nat.mul_le_mul_right i hk
  have hle := interval_le hi
  rw [closeSlot_mul hi] at hmul
  rw [slotLinear]
  split_ifs <;> omega

theorem linear_slot (hk : k ≤ closeSlot i) :
    (ofLinear (slotLinear i k)).linear = slotLinear i k :=
  linear_ofLinear_of_lt (by have := slotLinear_le hi hk; omega)

theorem slotTime_strictMono : StrictMonoOn (slotTime i) (Set.Iic (closeSlot i)) := by
  intro j hj k hk hlt
  have hmul := Nat.mul_lt_mul_of_pos_right hlt (interval_pos hi)
  have hle := interval_le hi
  rw [slotTime, slotTime, timestamp_lt_iff, linear_slot hi hj, linear_slot hi hk]
  rw [slotLinear, slotLinear]
  split_ifs <;> omega

theorem slotTime_closeSlot : slotTime i (closeSlot i) = 150000000 := by
  have hle := interval_le hi
  have hlinear : slotLinear i (closeSlot i) = 54000000 := by
    rw [slotLinear, closeSlot_mul hi]
    split_ifs <;> omega
  rw [slotTime, hlinear]
  decide

/-- After the slot of 9:25:00.000 comes that of 9:30:00.000. -/
theorem slot_morning (hlt : 600000 < k * i) : 600000 + i ≤ k * i :=
  add_le_mul (hi.trans (by decide)) hlt

/-- After the slot of 11:30:00.000 comes that of 13:00:00.000. -/
theorem slot_afternoon (hlt : 7800000 + i < k * i) : 7800000 + 2 * i ≤ k * i := by
  have := add_le_mul (Nat.dvd_add (hi.trans (by decide : 300000 ∣ 7800000)) (Nat.dvd_refl i)) hlt
  omega

theorem timestampToMilliseconds_slotTime (hk : k ≤ closeSlot i) :
    timestampToMilliseconds (slotTime i k) = slotLinear i k := by
  rw [← linear_slot hi hk]
  exact timestampLinear_timestamp _

/-- **The absolute milliseconds of a slot**; 9:30:00.000 is at slot `600000 / i + 1`. -/
theorem timestampToAbsoluteMilliseconds_slotTime (hk : k ≤ closeSlot i) :
    timestampToAbsoluteMilliseconds (slotTime i k) i = (k * i : ℕ) - (600000 + i) := by
  have hle := interval_le hi
  have hmorning := slot_morning (k := k) hi
  have hafternoon := slot_afternoon (k := k) hi
  have hopen : timestampToMilliseconds 93000000 = 34200000 := by decide
  simp only [timestampToAbsoluteMilliseconds, timestampToMilliseconds_slotTime hi hk, hopen]
  rw [slotLinear]
  split_ifs <;> omega

/-- **The conversions are inverse on the slots.** -/
theorem absoluteMillisecondsToTimestamp_slot (k : ℕ) :
    absoluteMillisecondsToTimestamp ((k * i : ℕ) - (600000 + i)) i = slotTime i k := by
  have hpos := interval_pos hi
  have hle := interval_le hi
  have hmorning := slot_morning (k := k) hi
  have hopen : timestampToMilliseconds 93000000 = 34200000 := by decide
  have hdelinear : millisecondsToTimestamp (slotLinear i k) = slotTime i k :=
    timestampDelinear_natCast _
  rw [← hdelinear]
  simp only [absoluteMillisecondsToTimestamp, hopen]
  congr 1
  rw [slotLinear]
  split_ifs <;> omega

/-- **An advance by the interval moves to the next slot.** -/
theorem slotTime_succ (hk : k < closeSlot i) :
    absoluteMillisecondsToTimestamp (timestampToAbsoluteMilliseconds (slotTime i k) i + i) i =
      slotTime i (k + 1) := by
  rw [timestampToAbsoluteMilliseconds_slotTime hi hk.le,
    ← absoluteMillisecondsToTimestamp_slot hi (k + 1)]
  congr 1
  push_cast
  ring

/-- **The schedule lists the slots.** -/
theorem schedule_eq : schedule i = (List.range' 1 (closeSlot i)).map (slotTime i) := by
  have hpos := interval_pos hi
  have hle := interval_le hi
  have hauction : ∀ k ∈ List.range' 1 (600000 / i), clockTime 9 15 (k * i) = slotTime i k := by
    intro k hk
    rw [List.mem_range'_1] at hk
    have hmul : k * i ≤ 600000 / i * i := Nat.mul_le_mul_right i (by omega)
    rw [auction_mul hi] at hmul
    rw [slotTime, slotLinear, if_pos hmul, clockTime]
  have hmorning : ∀ k ∈ List.range (7200000 / i + 1),
      clockTime 9 30 (k * i) = slotTime i (1 + 600000 / i + k) := by
    intro k hk
    rw [List.mem_range] at hk
    have hmul : k * i ≤ 7200000 / i * i := Nat.mul_le_mul_right i (by omega)
    rw [session_mul hi] at hmul
    have hslot : (1 + 600000 / i + k) * i = i + 600000 + k * i := by
      rw [Nat.add_mul, Nat.add_mul, auction_mul hi, Nat.one_mul]
    rw [slotTime, slotLinear, hslot, if_neg (by omega), if_pos (by omega), clockTime]
    congr 2
    omega
  have hafternoon : ∀ k ∈ List.range (7200000 / i + 1),
      clockTime 13 0 (k * i) = slotTime i (1 + (600000 / i + (7200000 / i + 1)) + k) := by
    intro k hk
    have hslot : (1 + (600000 / i + (7200000 / i + 1)) + k) * i = 2 * i + 7800000 + k * i := by
      simp only [Nat.add_mul, auction_mul hi, session_mul hi, Nat.one_mul]
      omega
    rw [slotTime, slotLinear, hslot, if_neg (by omega), if_neg (by omega), clockTime]
    congr 2
    omega
  rw [schedule, closeSlot, ← List.range'_append_1, ← List.range'_append_1, List.map_append,
    List.map_append, List.map_congr_left hauction, List.map_congr_left hmorning,
    List.map_congr_left hafternoon]
  simp only [List.range'_eq_map_range, List.map_map, Function.comp_def]

theorem schedule_sorted : (schedule i).Pairwise (· < ·) := by
  rw [schedule_eq hi, List.pairwise_map]
  refine List.Pairwise.imp_of_mem (fun hj hk hlt => ?_) List.pairwise_lt_range'
  rw [List.mem_range'_1] at hj hk
  exact slotTime_strictMono hi (Set.mem_Iic.2 (by omega)) (Set.mem_Iic.2 (by omega)) hlt

theorem mem_schedule {s : ℤ} : s ∈ schedule i ↔ s ∈ slotTime i '' Set.Icc 1 (closeSlot i) := by
  rw [schedule_eq hi, List.mem_map]
  refine exists_congr fun k => and_congr_left fun _ => ?_
  rw [List.mem_range'_1, Set.mem_Icc]
  omega

end

end L2
