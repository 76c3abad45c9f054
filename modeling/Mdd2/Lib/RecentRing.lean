/-
  Rings of the most recent items.

  A ring of `n` slots takes each item in the slot after that of the item before,
  and so holds the last `n` items.  Histories are lists with the newest item
  first: `slots n as` is what the slots hold after `as`, and `mem_slots_iff` says
  that they hold `as.take n`.  The slot of the next item holds the item that leaves
  the window (`slots_next`), so that a sum over the window is kept by adding the
  new item and subtracting that one (`sum_take_cons`).
-/
import Mathlib

namespace RecentRing

variable {α β : Type*}

/-- The contents of the slots after a history. -/
def slots (n : ℕ) : List α → ℕ → Option α
  | [] => fun _ => none
  | a :: as => Function.update (slots n as) (as.length % n) (some a)

/-- A ring of images holds the images of the items. -/
theorem slots_map (n : ℕ) (f : α → β) (as : List α) (i : ℕ) :
    slots n (as.map f) i = (slots n as i).map f := by
  induction as with
  | nil => rfl
  | cons a as ih =>
    simp only [List.map_cons, slots, Function.update_apply, List.length_map]
    split_ifs
    · rfl
    · exact ih

/-- Of the last `n` positions, no other is at the slot of the next. -/
theorem ne_of_window {n j m : ℕ} (hlt : j < m) (hle : m < j + n) : j % n ≠ m % n := by
  intro h
  have hdvd : n ∣ m - j := Nat.dvd_of_mod_eq_zero (Nat.sub_mod_eq_zero_of_mod_eq h.symm)
  have := Nat.le_of_dvd (by omega) hdvd
  omega

variable {n : ℕ} {as : List α} {a : α}

/-- A slot holds the item at the last position that belongs to it. -/
theorem slots_eq_some_iff {i : ℕ} (hn : 0 < n) : slots n as i = some a ↔
    ∃ k < n, as[k]? = some a ∧ (as.length - 1 - k) % n = i := by
  induction as with
  | nil => simp [slots]
  | cons b as ih =>
    simp only [slots, Function.update_apply, List.length_cons, Nat.add_sub_cancel]
    split_ifs with hi
    · constructor
      · intro h
        exact ⟨0, hn, h, by rw [Nat.sub_zero, hi]⟩
      · rintro ⟨k, hk, hget, hmod⟩
        cases k with
        | zero => exact hget
        | succ k =>
          obtain ⟨hlt, -⟩ := List.getElem?_eq_some_iff.1 hget
          rw [List.length_cons] at hlt
          exact absurd (hmod.trans hi) (ne_of_window (by omega) (by omega))
    · rw [ih]
      constructor
      · rintro ⟨k, hk, hget, hmod⟩
        obtain ⟨hlt, -⟩ := List.getElem?_eq_some_iff.1 hget
        have hkn : k + 1 ≠ n := by
          rintro rfl
          rw [show as.length - 1 - k = as.length - (k + 1) by omega,
            ← Nat.mod_eq_sub_mod (by omega)] at hmod
          exact hi hmod.symm
        exact ⟨k + 1, by omega, hget, by rw [← hmod]; congr 1; omega⟩
      · rintro ⟨k, hk, hget, hmod⟩
        cases k with
        | zero => exact absurd hmod.symm (by simpa using hi)
        | succ k => exact ⟨k, by omega, hget, by rw [← hmod]; congr 1; omega⟩

/-- **The slots hold the last `n` items.** -/
theorem mem_slots_iff (hn : 0 < n) : (∃ i, slots n as i = some a) ↔ a ∈ as.take n := by
  simp only [slots_eq_some_iff hn, List.mem_take_iff_getElem, List.getElem?_eq_some_iff, lt_min_iff]
  constructor
  · rintro ⟨i, k, hk, ⟨hlt, hget⟩, -⟩
    exact ⟨k, ⟨hk, hlt⟩, hget⟩
  · rintro ⟨k, ⟨hk, hlt⟩, hget⟩
    exact ⟨_, k, hk, ⟨hlt, hget⟩, rfl⟩

/-- **The slot of the next item holds the one that leaves the window.** -/
theorem slots_next (hn : 0 < n) (as : List α) : slots n as (as.length % n) = as[n - 1]? := by
  ext a
  rw [slots_eq_some_iff hn]
  constructor
  · rintro ⟨k, hk, hget, hmod⟩
    obtain ⟨hlt, -⟩ := List.getElem?_eq_some_iff.1 hget
    obtain rfl : k = n - 1 := by
      by_contra hne
      exact ne_of_window (by omega) (by omega) hmod
    exact hget
  · intro hget
    obtain ⟨hlt, -⟩ := List.getElem?_eq_some_iff.1 hget
    refine ⟨n - 1, by omega, hget, ?_⟩
    rw [show as.length - 1 - (n - 1) = as.length - n by omega, ← Nat.mod_eq_sub_mod (by omega)]

/-- **A sum over the window, after one more item.** -/
theorem sum_take_cons {M : Type*} [AddCommGroup M] (hn : 0 < n) (a : M) (as : List M) :
    ((a :: as).take n).sum =
      (as.take n).sum + (a - (slots n as (as.length % n)).getD 0) := by
  obtain ⟨m, rfl⟩ : ∃ m, n = m + 1 := ⟨n - 1, by omega⟩
  rw [slots_next hn, List.take_succ_cons, List.sum_cons, List.take_add_one, List.sum_append,
    Nat.add_sub_cancel]
  cases as[m]? <;> simp <;> abel

/-- They are among the first `n`. -/
theorem slot_lt (hn : 0 < n) {i : ℕ} (h : slots n as i = some a) : i < n := by
  obtain ⟨k, -, -, rfl⟩ := (slots_eq_some_iff hn).1 h
  exact Nat.mod_lt _ hn

end RecentRing
