/-
  The slot that is looked up, and the slot of the data.

  `checkWantBuyAtTimestamp` rounds a time to a multiple of 100 ms by adding
  90 ms, and `stepSnapshotUntil` moves a trade to the least slot not before it.
  `roundedTime_eq_slot_iff` says for which times of a session the two agree.
-/
import Mdd2.Proof.Snapshots
import Mdd2.WantCache

namespace Mdd2

open ClockTime

/-- A time of the morning or of the afternoon session. -/
def InSession (timestamp : ℤ) : Prop :=
  (∃ t : ClockTime, t.timestamp = timestamp) ∧
    (93000000 ≤ timestamp ∧ timestamp ≤ 113000000 ∨
      130000000 ≤ timestamp ∧ timestamp ≤ 145700000)

/-- The slots of a trading day. -/
def slotTimes : Set ℤ := {g | ∃ k ≤ lastSlot, g = gridTime k}

/-- The time is a multiple of 100 ms, or at least 10 ms after one. -/
def RoundsUp (timestamp : ℤ) : Prop := timestamp % 100 = 0 ∨ 10 ≤ timestamp % 100

/-- Milliseconds from midnight to the end of the 100 ms that a time is in. -/
def ceilLinear (n : ℕ) : ℕ := (n + 99) / 100 * 100

theorem ClockTime.timestamp_mod (t : ClockTime) : t.timestamp % 100 = t.linear % 100 := by
  obtain ⟨h, m, s, ms, hh, hm, hs, hms⟩ := t
  simp only [timestamp, linear]
  omega

/-- The times of a session, in milliseconds from midnight. -/
theorem ClockTime.inSession_iff (t : ClockTime) : InSession t.timestamp ↔
    34200000 ≤ t.linear ∧ t.linear ≤ 41400000 ∨ 46800000 ≤ t.linear ∧ t.linear ≤ 53820000 := by
  have hex : ∃ u : ClockTime, u.timestamp = t.timestamp := ⟨t, rfl⟩
  rw [InSession, and_iff_right hex]
  obtain ⟨h, m, s, ms, hh, hm, hs, hms⟩ := t
  simp only [timestamp, linear]
  omega

/-- What is looked up is short of the slot by 100 ms in the first 9 ms after a
    slot, and right otherwise. -/
theorem roundedTime_eq_iff (t : ClockTime) :
    WantCache.roundedTime t.timestamp = ceilLinear t.linear ↔ RoundsUp t.timestamp := by
  rw [WantCache.roundedTime, timestampLinear_timestamp, RoundsUp, t.timestamp_mod,
    Int.tdiv_eq_ediv_of_nonneg (by omega), ceilLinear]
  omega

/-- The position in the grid of the slot of a time of a session. -/
def slotIndex (n : ℕ) : ℕ :=
  if n ≤ 41400000 then (ceilLinear n - 34200000) / 100
  else 72001 + (ceilLinear n - 46800000) / 100

section
variable {t : ClockTime}

theorem gridLinear_slotIndex (h : InSession t.timestamp) :
    slotIndex t.linear ≤ lastSlot ∧ gridLinear (slotIndex t.linear) = ceilLinear t.linear := by
  rw [t.inSession_iff] at h
  unfold slotIndex gridLinear ceilLinear lastSlot
  split_ifs <;> omega

theorem timestampLinear_gridTime {k : ℕ} (hk : k ≤ lastSlot) :
    timestampLinear (gridTime k) = gridLinear k := by
  rw [gridTime, timestampLinear_timestamp, linear_ofLinear_of_lt (gridLinear_lt hk)]

theorem le_gridTime_iff {k : ℕ} (hk : k ≤ lastSlot) :
    t.timestamp ≤ gridTime k ↔ t.linear ≤ gridLinear k := by
  rw [← not_lt, ← not_lt, gridTime, timestamp_lt_iff, linear_ofLinear_of_lt (gridLinear_lt hk)]

/-- **The slot of a time of a session.** -/
theorem isLeast_gridTime_slotIndex (h : InSession t.timestamp) :
    IsLeast {g ∈ slotTimes | t.timestamp ≤ g} (gridTime (slotIndex t.linear)) := by
  obtain ⟨hk, hgrid⟩ := gridLinear_slotIndex h
  have hle : t.linear ≤ gridLinear (slotIndex t.linear) := by
    rw [hgrid, ceilLinear]; omega
  refine ⟨⟨⟨_, hk, rfl⟩, (le_gridTime_iff hk).2 hle⟩, ?_⟩
  rintro g ⟨⟨j, hj, rfl⟩, hg⟩
  rw [le_gridTime_iff hj] at hg
  apply gridTime_le _ hj
  by_contra! hlt
  have hbefore : gridLinear j < t.linear := by
    rw [t.inSession_iff] at h
    unfold slotIndex ceilLinear at hlt
    unfold gridLinear
    split_ifs at hlt ⊢ <;> omega
  omega

end

variable {R : Type} [FactorScalar R]

/-- **The slot that is looked up for a time of a session is the slot to which a
    trade of that time is assigned if and only if the time is not within the
    first 9 ms after a slot.**  The series has not yet passed the slot. -/
theorem roundedTime_eq_slot_iff {timestamp : ℤ} (h : InSession timestamp) {f : FState R}
    (hf : f.OnGrid) (hnext : ∀ g ∈ slotTimes, timestamp ≤ g → f.nextTickTimestamp ≤ g) :
    ∃ f', f.stepSnapshotUntil timestamp = some f' ∧
      IsLeast {g ∈ slotTimes | timestamp ≤ g} f'.nextTickTimestamp ∧
      (WantCache.roundedTime timestamp = timestampLinear f'.nextTickTimestamp ↔
        RoundsUp timestamp) := by
  obtain ⟨⟨t, rfl⟩, -⟩ := id h
  obtain ⟨hm, hgrid⟩ := gridLinear_slotIndex h
  obtain ⟨⟨hmem, hge⟩, hleast⟩ := isLeast_gridTime_slotIndex h
  obtain ⟨k, hk, hfk⟩ := hf.slot
  have hkm : k ≤ slotIndex t.linear := by
    by_contra! hlt
    have hle := hnext _ hmem hge
    rw [hfk] at hle
    exact absurd (gridTime_lt hlt hk) (not_lt.2 hle)
  have hlt : ∀ j < slotIndex t.linear, gridTime j < t.timestamp := by
    intro j hj
    by_contra! hle
    have := hleast ⟨⟨j, hj.le.trans hm, rfl⟩, hle⟩
    exact absurd (gridTime_lt hj hm) (not_lt.2 this)
  refine ⟨_, FState.stepSnapshotUntil_of_slot hf.iirState hfk hkm hm hlt hge, ?_⟩
  rw [FState.nextTickTimestamp_iterate hfk (by omega), show k + (slotIndex t.linear - k) =
    slotIndex t.linear by omega, timestampLinear_gridTime hm, hgrid]
  exact ⟨⟨⟨hmem, hge⟩, hleast⟩, roundedTime_eq_iff t⟩

/-- The series of a stock that has been started. -/
def startedSeries : FState ℚ := { nextTickTimestamp := 93000000, iirState := some IIRState.zero }

theorem roundedTime_eq_slot_iff_coarse : ∃ f', startedSeries.stepSnapshotUntil 93000120 = some f' ∧
    IsLeast {g ∈ slotTimes | 93000120 ≤ g} f'.nextTickTimestamp ∧
    (WantCache.roundedTime 93000120 = timestampLinear f'.nextTickTimestamp ↔
      RoundsUp 93000120) := by
  apply roundedTime_eq_slot_iff
  · exact ⟨⟨⟨9, 30, 0, 120, by omega, by omega, by omega, by omega⟩, by norm_num [timestamp]⟩,
      by omega⟩
  · exact ⟨rfl, 0, Nat.zero_le _, gridTime_zero.symm⟩
  · rintro g ⟨k, hk, rfl⟩ -
    rw [startedSeries, ← gridTime_zero]
    exact gridTime_le (Nat.zero_le k) hk

/-- One millisecond after the opening, the slot before the one of the data is
    looked up. -/
theorem roundedTime_ne_slot : InSession 93000001 ∧
    ∃ f', startedSeries.stepSnapshotUntil 93000001 = some f' ∧
      timestampLinear f'.nextTickTimestamp = 34200100 ∧
      WantCache.roundedTime 93000001 = 34200000 := by
  refine ⟨⟨⟨⟨9, 30, 0, 1, by omega, by omega, by omega, by omega⟩, by norm_num [timestamp]⟩,
    by omega⟩, ?_⟩
  have hslot : gridTime 1 = 93000100 := by decide
  have hlt : ∀ j < 1, gridTime j < 93000001 := by decide
  refine ⟨_, FState.stepSnapshotUntil_of_slot (f := startedSeries) rfl gridTime_zero.symm
    (Nat.zero_le 1) (by unfold lastSlot; omega) hlt (by rw [hslot]; omega), ?_, by decide⟩
  rw [FState.nextTickTimestamp_iterate gridTime_zero.symm (by unfold lastSlot; omega), hslot]
  decide

end Mdd2
