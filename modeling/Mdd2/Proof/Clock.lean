/-
  Times of day and the 100 ms grid.

  * `ClockTime` is a valid time of day; `timestampLinear` and
    `timestampDelinear` convert between its HHMMSSmmm form and its distance from
    midnight;
  * `timestampAdvance100ms_eq` says what one advance does to a time of day,
    over the lunch break and over midnight; it stays on multiples of 100 ms
    (`OnTick.advance`);
  * `gridTime k` is the `k`-th slot time of a trading day from 9:30:00.000 on:
    an advance moves to the next slot (`gridTime_succ`).
-/
import Mdd2.Timestamp

namespace Mdd2

/-- A time of day. -/
structure ClockTime where
  hours : ℕ
  minutes : ℕ
  seconds : ℕ
  milliseconds : ℕ
  hours_lt : hours < 24
  minutes_lt : minutes < 60
  seconds_lt : seconds < 60
  milliseconds_lt : milliseconds < 1000

namespace ClockTime

/-- The time in the format HHMMSSmmm. -/
def timestamp (t : ClockTime) : ℤ :=
  t.milliseconds + 1000 * (t.seconds + 100 * (t.minutes + 100 * t.hours))

/-- Milliseconds since midnight. -/
def linear (t : ClockTime) : ℕ :=
  (t.hours * 3600 + t.minutes * 60 + t.seconds) * 1000 + t.milliseconds

/-- The time of day `n` milliseconds after a midnight. -/
def ofLinear (n : ℕ) : ClockTime where
  hours := n / 3600000 % 24
  minutes := n / 60000 % 60
  seconds := n / 1000 % 60
  milliseconds := n % 1000
  hours_lt := by omega
  minutes_lt := by omega
  seconds_lt := by omega
  milliseconds_lt := by omega

theorem linear_lt (t : ClockTime) : t.linear < 86400000 := by
  obtain ⟨h, m, s, ms, hh, hm, hs, hms⟩ := t
  simp only [linear]; omega

theorem linear_ofLinear (n : ℕ) : (ofLinear n).linear = n % 86400000 := by
  simp only [linear, ofLinear]; omega

theorem linear_ofLinear_of_lt {n : ℕ} (h : n < 86400000) : (ofLinear n).linear = n := by
  rw [linear_ofLinear, Nat.mod_eq_of_lt h]

theorem timestamp_lt_iff {t u : ClockTime} : t.timestamp < u.timestamp ↔ t.linear < u.linear := by
  obtain ⟨h, m, s, ms, hh, hm, hs, hms⟩ := t
  obtain ⟨h', m', s', ms', hh', hm', hs', hms'⟩ := u
  simp only [timestamp, linear]
  constructor <;> intro <;> omega

theorem timestampLinear_timestamp (t : ClockTime) : timestampLinear t.timestamp = t.linear := by
  obtain ⟨h, m, s, ms, hh, hm, hs, hms⟩ := t
  simp only [timestampLinear, timestamp, linear]
  rw [Int.tdiv_eq_ediv_of_nonneg (by omega), Int.tdiv_eq_ediv_of_nonneg (by omega),
    Int.tdiv_eq_ediv_of_nonneg (by omega), Int.tmod_eq_emod_of_nonneg (by omega),
    Int.tmod_eq_emod_of_nonneg (by omega), Int.tmod_eq_emod_of_nonneg (by omega)]
  push_cast
  omega

theorem timestampDelinear_natCast (n : ℕ) : timestampDelinear n = (ofLinear n).timestamp := by
  simp only [timestampDelinear, timestamp, ofLinear]
  rw [Int.tdiv_eq_ediv_of_nonneg (by omega), Int.tdiv_eq_ediv_of_nonneg (by omega),
    Int.tdiv_eq_ediv_of_nonneg (by omega), Int.tmod_eq_emod_of_nonneg (by omega),
    Int.tmod_eq_emod_of_nonneg (by omega), Int.tmod_eq_emod_of_nonneg (by omega),
    Int.tmod_eq_emod_of_nonneg (by omega)]
  push_cast
  omega

end ClockTime

open ClockTime

theorem timestampLinear_open : timestampLinear 93000000 = 34200000 := by decide

/-- The milliseconds 100 ms after `n`, as the source counts them: the advance
    from the end of the morning jumps to 13:00:00.000, and one from inside the
    lunch break to 13:00:00.100. -/
def nextLinear (n : ℕ) : ℕ :=
  if n ≤ 41399900 then n + 100
  else if n ≤ 41400000 then n + 5400000
  else if n < 46800000 then 46800100
  else n + 100

/-- **One advance of a time of day.** -/
theorem timestampAdvance100ms_eq (t : ClockTime) :
    timestampAdvance100ms t.timestamp = (ofLinear (nextLinear t.linear)).timestamp := by
  have hlt := t.linear_lt
  simp only [timestampAdvance100ms, timestampAbsLinear, timestampAbsDelinear,
    timestampLinear_timestamp, timestampLinear_open]
  rw [← timestampDelinear_natCast]
  congr 1
  simp only [nextLinear]
  rw [Word.toSigned_of_range] <;> split_ifs <;> push_cast <;> omega

/-! ## Multiples of 100 ms -/

/-- A time of day that is a multiple of 100 ms. -/
def OnTick (timestamp : ℤ) : Prop := ∃ t : ClockTime, t.timestamp = timestamp ∧ t.linear % 100 = 0

theorem OnTick.advance {timestamp : ℤ} (h : OnTick timestamp) :
    OnTick (timestampAdvance100ms timestamp) := by
  obtain ⟨t, rfl, ht⟩ := h
  refine ⟨ofLinear (nextLinear t.linear), (timestampAdvance100ms_eq t).symm, ?_⟩
  rw [linear_ofLinear]
  unfold nextLinear
  split_ifs <;> omega

/-- **The linear value of a slot time is even.** -/
theorem OnTick.even {timestamp : ℤ} (h : OnTick timestamp) : timestampLinear timestamp % 2 = 0 := by
  obtain ⟨t, rfl, ht⟩ := h
  rw [timestampLinear_timestamp]; omega

theorem OnTick.le {timestamp : ℤ} (h : OnTick timestamp) : timestamp ≤ 235959900 := by
  obtain ⟨⟨h, m, s, ms, hh, hm, hs, hms⟩, rfl, ht⟩ := h
  simp only [timestamp, linear] at ht ⊢
  omega

/-! ## The grid of a trading day -/

/-- Milliseconds since midnight of the `k`-th slot: 9:30:00.000, then every
    100 ms up to 11:30:00.000, then 13:00:00.000 and every 100 ms after it. -/
def gridLinear (k : ℕ) : ℕ := if k ≤ 72000 then 34200000 + 100 * k else 46800000 + 100 * (k - 72001)

/-- The `k`-th slot time. -/
def gridTime (k : ℕ) : ℤ := (ofLinear (gridLinear k)).timestamp

/-- The last slot of the day, 23:59:59.900. -/
def lastSlot : ℕ := 468000

theorem gridLinear_lt {k : ℕ} (h : k ≤ lastSlot) : gridLinear k < 86400000 := by
  unfold lastSlot at h; unfold gridLinear; split_ifs <;> omega

theorem gridTime_zero : gridTime 0 = 93000000 := by decide

theorem gridTime_last : gridTime lastSlot = 235959900 := by decide

theorem gridTime_lt {j k : ℕ} (hjk : j < k) (hk : k ≤ lastSlot) : gridTime j < gridTime k := by
  unfold gridTime
  rw [timestamp_lt_iff, linear_ofLinear_of_lt (gridLinear_lt (by omega)),
    linear_ofLinear_of_lt (gridLinear_lt hk)]
  unfold gridLinear
  split_ifs <;> omega

theorem gridTime_le {j k : ℕ} (hjk : j ≤ k) (hk : k ≤ lastSlot) : gridTime j ≤ gridTime k := by
  rcases Nat.lt_or_eq_of_le hjk with h | rfl
  · exact (gridTime_lt h hk).le
  · exact le_rfl

theorem gridTime_onTick (k : ℕ) : OnTick (gridTime k) := by
  refine ⟨_, rfl, ?_⟩
  rw [linear_ofLinear]; unfold gridLinear; split_ifs <;> omega

/-- **An advance moves to the next slot.** -/
theorem gridTime_succ {k : ℕ} (hk : k < lastSlot) :
    timestampAdvance100ms (gridTime k) = gridTime (k + 1) := by
  unfold gridTime
  rw [timestampAdvance100ms_eq, linear_ofLinear_of_lt (gridLinear_lt hk.le)]
  congr 2
  unfold lastSlot at hk
  unfold nextLinear gridLinear
  split_ifs <;> omega

/-- The slot of a time: the least grid time not before it. -/
theorem exists_slot {timestamp : ℤ} (h : timestamp ≤ 235959900) :
    ∃ k ≤ lastSlot, timestamp ≤ gridTime k ∧ ∀ j < k, gridTime j < timestamp := by
  have hex : ∃ k, timestamp ≤ gridTime k := ⟨lastSlot, by rw [gridTime_last]; exact h⟩
  refine ⟨Nat.find hex, Nat.find_min' hex (by rw [gridTime_last]; exact h), Nat.find_spec hex,
    fun j hj => ?_⟩
  exact not_le.1 (Nat.find_min hex hj)

end Mdd2
