/-
  A clock that is moved through the slots of a timetable.

  A call moves the clock forward, to the first slot that is not before a time.

  * `Arrives time t n m`: such a call moves it from slot `n` to slot `m`;
  * `Reached time ts n`: after calls with the times `ts` it is at slot `n`;
  * `Reached.isLeast`: this is the first slot that is not before any of them.
-/
import Mathlib

namespace Timetable

variable {α : Type*} [LinearOrder α] (time : ℕ → α)

structure Arrives (t : α) (n m : ℕ) : Prop where
  le : n ≤ m
  le_time : t ≤ time m
  time_lt : ∀ k, n ≤ k → k < m → time k < t

structure Reached (ts : List α) (n : ℕ) : Prop where
  le_time : ∀ t ∈ ts, t ≤ time n
  exists_lt : ∀ k < n, ∃ t ∈ ts, time k < t

variable {time} {t : α} {ts : List α} {n m last : ℕ}

theorem Arrives.refl (h : t ≤ time n) : Arrives time t n n :=
  ⟨le_refl n, h, fun _ hle hlt => absurd hle (not_le.2 hlt)⟩

/-- A slot that is before the time is passed. -/
theorem Arrives.head (hlt : time n < t) (h : Arrives time t (n + 1) m) : Arrives time t n m := by
  refine ⟨by have := h.le; omega, h.le_time, fun k hle hm => ?_⟩
  rcases Nat.lt_or_eq_of_le hle with hk | rfl
  · exact h.time_lt k hk hm
  · exact hlt

theorem reached_nil : Reached time [] 0 :=
  ⟨fun _ ht => absurd ht List.not_mem_nil, fun k hk => absurd hk (Nat.not_lt_zero k)⟩

/-- **A call.** -/
theorem Reached.snoc (h : Reached time ts n) (hmono : time n ≤ time m) (hm : Arrives time t n m) :
    Reached time (ts ++ [t]) m := by
  constructor
  · intro u hu
    rcases List.mem_append.1 hu with hu | hu
    · exact (h.le_time u hu).trans hmono
    · rw [List.mem_singleton.1 hu]
      exact hm.le_time
  · intro k hk
    rcases Nat.lt_or_ge k n with hlt | hge
    · obtain ⟨u, hu, hku⟩ := h.exists_lt k hlt
      exact ⟨u, List.mem_append_left [t] hu, hku⟩
    · exact ⟨t, by simp, hm.time_lt k hge hk⟩

/-- Without calls, the clock has not moved. -/
theorem Reached.eq_zero (h : Reached time [] n) : n = 0 := by
  by_contra hne
  obtain ⟨t, ht, -⟩ := h.exists_lt 0 (Nat.pos_of_ne_zero hne)
  exact List.not_mem_nil ht

/-- With a time after slot 0, it has. -/
theorem Reached.pos (h : Reached time ts n) (ht : t ∈ ts) (hlt : time 0 < t) : 0 < n := by
  rw [Nat.pos_iff_ne_zero]
  rintro rfl
  exact absurd (h.le_time t ht) (not_le.2 hlt)

/-- **The slot is the first one** that is not before any time. -/
theorem Reached.isLeast (h : Reached time ts n) (hn : n ∈ Set.Icc 1 last)
    (hmono : StrictMonoOn time (Set.Iic last)) :
    IsLeast {s ∈ time '' Set.Icc 1 last | ∀ t ∈ ts, t ≤ s} (time n) := by
  refine ⟨⟨⟨n, hn, rfl⟩, h.le_time⟩, ?_⟩
  rintro _ ⟨⟨k, hk, rfl⟩, hle⟩
  by_contra hlt
  rw [not_le, hmono.lt_iff_lt hk.2 hn.2] at hlt
  obtain ⟨t, ht, hkt⟩ := h.exists_lt k hlt
  exact absurd (hle t ht) (not_le.2 hkt)

end Timetable
