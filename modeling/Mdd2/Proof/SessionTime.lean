/-
  Arithmetic on the times of the two sessions.

  A time of a session has a position, the trading milliseconds since 9:30:00.000.
  That of 13:00:00.000 is 100 ms after that of 11:30:00.000: the positions between
  them are the gap, and are no times of a session.

  * `IsSessionTime.exists_position`, `isSessionTime_timeAt`: the times of the sessions are
    those at the positions outside of the gap;
  * `timestampAbsLinear_timeAt`: there the two conversions are inverse;
  * `timestampAdvance_iff`: an advance behaves as an addition exactly if it does
    not end in the gap.
-/
import Mdd2.Proof.Clock

namespace Mdd2

open ClockTime

/-- A valid time, to the millisecond, of 9:30..11:30 or 13:00..15:00. -/
def IsSessionTime (timestamp : ℤ) : Prop :=
  ∃ t : ClockTime, t.timestamp = timestamp ∧
    (34200000 ≤ t.linear ∧ t.linear ≤ 41400000 ∨ 46800000 ≤ t.linear ∧ t.linear ≤ 54000000)

/-- The positions between those of 11:30:00.000 and of 13:00:00.000. -/
def InGap (position : ℤ) : Prop := 7200000 < position ∧ position < 7200100

instance (position : ℤ) : Decidable (InGap position) := inferInstanceAs (Decidable (_ ∧ _))

/-- The time at a position, in milliseconds since midnight. -/
def linearAt (position : ℕ) : ℕ :=
  if position ≤ 7200000 then 34200000 + position else 39599900 + position

/-- The time at a position. -/
def timeAt (position : ℕ) : ℤ := (ofLinear (linearAt position)).timestamp

/-- The position of 15:00:00.000. -/
def lastPosition : ℕ := 14400100

theorem timestampAbsLinear_close : timestampAbsLinear 150000000 = lastPosition := by decide

/-- Positions are of one day up to here. -/
def positionsOfDay : ℕ := 46800000

variable {x : ℕ}

theorem lt_positionsOfDay (hx : x ≤ lastPosition) : x < positionsOfDay :=
  lt_of_le_of_lt hx (by decide)

theorem linear_timeAt (hx : x < positionsOfDay) :
    (ofLinear (linearAt x)).linear = linearAt x := by
  refine linear_ofLinear_of_lt ?_
  rw [positionsOfDay] at hx
  rw [linearAt]
  split_ifs <;> omega

theorem timestampAbsDelinear_natCast (hx : x < positionsOfDay) :
    timestampAbsDelinear x = timeAt x := by
  rw [positionsOfDay] at hx
  simp only [timestampAbsDelinear, timestampLinear_open]
  rw [timeAt, ← timestampDelinear_natCast]
  congr 1
  rw [linearAt, Word.toSigned_of_range] <;> split_ifs <;> push_cast <;> omega

/-- **The conversions are inverse outside of the gap**; there the position comes
    back as that of 13:00:00.000. -/
theorem timestampAbsLinear_timeAt (hx : x < positionsOfDay) :
    timestampAbsLinear (timeAt x) = if InGap x then 7200100 else (x : ℤ) := by
  simp only [timestampAbsLinear, timeAt, timestampLinear_timestamp, timestampLinear_open,
    linear_timeAt hx]
  simp only [linearAt, InGap]
  split_ifs <;> push_cast at * <;> omega

theorem isSessionTime_timeAt (hx : x ≤ lastPosition) : IsSessionTime (timeAt x) ↔ ¬InGap x := by
  have hlinear := linear_timeAt (lt_positionsOfDay hx)
  rw [lastPosition] at hx
  have hrange : (34200000 ≤ linearAt x ∧ linearAt x ≤ 41400000 ∨
      46800000 ≤ linearAt x ∧ linearAt x ≤ 54000000) ↔ ¬InGap x := by
    simp only [linearAt, InGap]
    split_ifs <;> omega
  rw [← hrange]
  constructor
  · rintro ⟨t, ht, h⟩
    have heq : (t.linear : ℤ) = linearAt x := by
      rw [← timestampLinear_timestamp, ht, timeAt, timestampLinear_timestamp, hlinear]
    have hnat : t.linear = linearAt x := by exact_mod_cast heq
    rwa [← hnat]
  · intro h
    exact ⟨_, rfl, by rwa [hlinear]⟩

theorem IsSessionTime.exists_position {timestamp : ℤ} (h : IsSessionTime timestamp) :
    ∃ x : ℕ, x ≤ lastPosition ∧ ¬InGap x ∧ timestampAbsLinear timestamp = x := by
  obtain ⟨t, rfl, ht⟩ := h
  refine ⟨if t.linear ≤ 41400000 then t.linear - 34200000 else t.linear - 39599900, ?_, ?_, ?_⟩
  · rw [lastPosition]
    split_ifs <;> omega
  · rw [InGap]
    split_ifs <;> omega
  · simp only [timestampAbsLinear, timestampLinear_timestamp, timestampLinear_open]
    split_ifs <;> omega

/-- Different positions are different times. -/
theorem timeAt_inj {y : ℕ} (hx : x < positionsOfDay) (hy : y < positionsOfDay)
    (h : timeAt x = timeAt y) : x = y := by
  have hlinear : (linearAt x : ℤ) = linearAt y := by
    rw [← linear_timeAt hx, ← linear_timeAt hy, ← timestampLinear_timestamp,
      ← timestampLinear_timestamp, ← timeAt, ← timeAt, h]
  simp only [linearAt] at hlinear
  split_ifs at hlinear <;> omega

/-- The positions of the times on the 100 ms grid are multiples of 100. -/
theorem timestampAbsLinear_emod {timestamp : ℤ} (h : OnTick timestamp) :
    timestampAbsLinear timestamp % 100 = 0 := by
  obtain ⟨t, rfl, ht⟩ := h
  simp only [timestampAbsLinear, timestampLinear_timestamp, timestampLinear_open]
  split_ifs <;> omega

/-! ## Advances -/

section
variable {timestamp : ℤ} {m : ℕ}

/-- An advance adds to the position. -/
theorem timestampAdvance_eq (hx : timestampAbsLinear timestamp = x) (hm : x + m < positionsOfDay) :
    timestampAdvance timestamp m = timeAt (x + m) := by
  rw [timestampAdvance, hx, ← Nat.cast_add, timestampAbsDelinear_natCast hm]

theorem timestampDifference_advance (hx : timestampAbsLinear timestamp = x)
    (hm : x + m ≤ lastPosition) : timestampDifference (timestampAdvance timestamp m) timestamp =
      if InGap (x + m : ℕ) then 7200100 - (x : ℤ) else m := by
  have hday := lt_positionsOfDay hm
  rw [lastPosition] at hm
  rw [timestampDifference, timestampAdvance_eq hx hday, timestampAbsLinear_timeAt hday, hx,
    Word.toSigned_of_range] <;> split_ifs <;> push_cast <;> omega

/-- Two advances. -/
theorem timestampAdvance_advance (hx : timestampAbsLinear timestamp = x) {m' : ℕ}
    (hm : x + m + m' ≤ lastPosition) : timestampAdvance (timestampAdvance timestamp m) m' =
      timeAt (if InGap (x + m : ℕ) then 7200100 + m' else x + m + m') := by
  have hday : x + m < positionsOfDay := lt_positionsOfDay (by omega)
  rw [timestampAdvance_eq hx hday]
  have habs := timestampAbsLinear_timeAt hday
  by_cases hgap : InGap (x + m : ℕ)
  · rw [if_pos hgap] at habs ⊢
    obtain ⟨hlo, -⟩ := hgap
    rw [lastPosition] at hm
    exact timestampAdvance_eq habs (by rw [positionsOfDay]; omega)
  · rw [if_neg hgap] at habs ⊢
    exact timestampAdvance_eq habs (lt_positionsOfDay hm)

end

/-- **Advancing a time of a session** is an addition of positions exactly if the new
    position is not in the gap.  From a time on the 100 ms grid, a multiple of 100 ms
    never ends there. -/
theorem timestampAdvance_iff {timestamp ms : ℤ} (ht : IsSessionTime timestamp) (hms : 0 ≤ ms)
    (hend : timestampAbsLinear timestamp + ms ≤ timestampAbsLinear 150000000) :
    (IsSessionTime (timestampAdvance timestamp ms) ↔ ¬InGap (timestampAbsLinear timestamp + ms)) ∧
    (timestampDifference (timestampAdvance timestamp ms) timestamp = ms ↔
      ¬InGap (timestampAbsLinear timestamp + ms)) ∧
    (∀ ms', 0 ≤ ms' →
      timestampAbsLinear timestamp + (ms + ms') ≤ timestampAbsLinear 150000000 →
      (timestampAdvance (timestampAdvance timestamp ms) ms' =
          timestampAdvance timestamp (ms + ms') ↔
        ¬InGap (timestampAbsLinear timestamp + ms))) ∧
    (OnTick timestamp → ms % 100 = 0 → ¬InGap (timestampAbsLinear timestamp + ms)) := by
  obtain ⟨x, hlast, hgap, hx⟩ := ht.exists_position
  obtain ⟨m, rfl⟩ := Int.eq_ofNat_of_zero_le hms
  have hemod : OnTick timestamp → timestampAbsLinear timestamp % 100 = 0 := timestampAbsLinear_emod
  rw [timestampAbsLinear_close, hx, ← Nat.cast_add, Nat.cast_le] at hend
  rw [hx] at hemod ⊢
  have hday := lt_positionsOfDay hend
  rw [timestampAbsLinear_close, ← Nat.cast_add]
  refine ⟨?_, ?_, ?_, ?_⟩
  · rw [timestampAdvance_eq hx hday, isSessionTime_timeAt hend]
  · rw [timestampDifference_advance hx hend]
    by_cases hm : InGap (x + m : ℕ)
    · rw [if_pos hm]
      simp only [hm, not_true_eq_false, iff_false]
      obtain ⟨-, hhi⟩ := hm
      push_cast at hhi
      omega
    · rw [if_neg hm]
      exact iff_of_true rfl hm
  · intro ms' hms' hend'
    obtain ⟨m', rfl⟩ := Int.eq_ofNat_of_zero_le hms'
    rw [← Nat.cast_add, ← Nat.cast_add, Nat.cast_le, ← Nat.add_assoc] at hend'
    have hday' : x + (m + m') < positionsOfDay := lt_positionsOfDay (by omega)
    rw [timestampAdvance_advance hx hend', ← Nat.cast_add, timestampAdvance_eq hx hday']
    by_cases hm : InGap (x + m : ℕ)
    · rw [if_pos hm]
      simp only [hm, not_true_eq_false, iff_false]
      obtain ⟨hlo, hhi⟩ := hm
      intro heq
      rw [lastPosition] at hend'
      have := timeAt_inj (by rw [positionsOfDay]; omega) hday' heq
      omega
    · rw [if_neg hm, Nat.add_assoc]
      exact iff_of_true rfl hm
  · rintro htick hdvd ⟨hlo, hhi⟩
    have := hemod htick
    push_cast at hlo hhi
    omega

/-- From 11:29:30.000, an advance of a minute over the lunch break and one of a second. -/
theorem timestampAdvance_iff_noon :
    IsSessionTime (timestampAdvance 112930000 60000) ∧
    timestampDifference (timestampAdvance 112930000 60000) 112930000 = 60000 ∧
    timestampAdvance (timestampAdvance 112930000 60000) 1000 =
      timestampAdvance 112930000 61000 := by
  have ht : IsSessionTime 112930000 :=
    ⟨⟨11, 29, 30, 0, by decide, by decide, by decide, by decide⟩, by decide, by decide⟩
  obtain ⟨hin, hdiff, hadd, -⟩ := timestampAdvance_iff ht (by decide : (0 : ℤ) ≤ 60000) (by decide)
  have hgap : ¬InGap (timestampAbsLinear 112930000 + 60000) := by decide
  exact ⟨hin.2 hgap, hdiff.2 hgap, (hadd 1000 (by decide) (by decide)).2 hgap⟩

/-- 51 ms after 11:29:59.950 is a time of the lunch break, 150 ms later; advancing it
    by 99 ms misses the time of 150 ms. -/
theorem timestampAdvance_lunch :
    IsSessionTime 112959950 ∧ timestampAbsLinear 112959950 + 150 ≤ timestampAbsLinear 150000000 ∧
    ¬IsSessionTime (timestampAdvance 112959950 51) ∧
    timestampDifference (timestampAdvance 112959950 51) 112959950 = 150 ∧
    timestampAdvance (timestampAdvance 112959950 51) 99 ≠ timestampAdvance 112959950 150 := by
  refine ⟨⟨⟨11, 29, 59, 950, by decide, by decide, by decide, by decide⟩, by decide, by decide⟩,
    by decide, ?_, by decide, by decide⟩
  rintro ⟨t, ht, h⟩
  have hlinear := timestampLinear_timestamp t
  rw [ht, show timestampLinear (timestampAdvance 112959950 51) = 46799901 by decide] at hlinear
  omega

end Mdd2
