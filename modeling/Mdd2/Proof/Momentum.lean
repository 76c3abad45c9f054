/-
  The momentum factors of positive prices, over exact arithmetic.

  * `changeRates` are the relative changes from one price to the next, and
    `Momentum.ofChanges` the factors of two lists of changes, directly;
  * `changeStats_eq`: one pass over the prices gives the mean and the deviation of their
    changes; the variance is never cut off at zero;
  * `compute_eq`: the factors of a duration are those of the first and the last changes.
-/
import Mdd2.Factors
import Mdd2.Lib.Statistics

namespace Mdd2

open Statistics

/-- The relative changes from one price to the next. -/
def changeRates : List ℚ → List ℚ
  | p :: q :: prices => (q / p - 1) :: changeRates (q :: prices)
  | _ => []

theorem length_changeRates : ∀ prices : List ℚ, (changeRates prices).length = prices.length - 1
  | [] | [_] => rfl
  | p :: q :: prices => by
    rw [changeRates, List.length_cons, length_changeRates (q :: prices)]
    simp

theorem changeRates_take : ∀ (n : ℕ) (prices : List ℚ),
    changeRates (prices.take (n + 1)) = (changeRates prices).take n
  | _, [] => by simp [changeRates]
  | _, [_] => by simp [changeRates]
  | 0, _ :: _ :: _ => by simp [changeRates]
  | n + 1, p :: q :: prices => by
    have ih := changeRates_take n (q :: prices)
    rw [List.take_succ_cons] at ih ⊢
    rw [List.take_succ_cons, changeRates, ih, changeRates, List.take_succ_cons]

theorem changeRates_drop : ∀ (n : ℕ) (prices : List ℚ),
    changeRates (prices.drop n) = (changeRates prices).drop n
  | 0, _ => rfl
  | _ + 1, [] => rfl
  | n + 1, [_] => by simp [changeRates]
  | n + 1, p :: q :: prices => by
    rw [List.drop_succ_cons, changeRates_drop n, changeRates, List.drop_succ_cons]

namespace Momentum

/-- Mean, deviation and quotient of some changes, directly. -/
def statsOf (sqrt : ℚ → ℚ) (cs : List ℚ) : ChangeStats :=
  let m := mean cs id
  let std := sqrt ((total cs fun c => (c - m) ^ 2) / cs.length)
  { mean := m, std, zScore := if std > 1 / 10 ^ 10 then m / std else 0 }

/-- The factors of the opening changes and of the latest ones. -/
def ofChanges (sqrt : ℚ → ℚ) (opening high : List ℚ) : Momentum :=
  let o := statsOf sqrt opening
  let h := statsOf sqrt high
  { openMean := some o.mean
    openStd := some o.std
    openZScore := some o.zScore
    highMean := some h.mean
    highStd := some h.std
    highZScore := some h.zScore
    diffMean := some (o.mean - h.mean)
    diffZScore := some (o.zScore - h.zScore) }

/-- The running sums of positive prices. -/
theorem foldlM_add {prices : List ℚ} {s : ChangeSums} (hs : 0 < s.prevPrice)
    (h : ∀ p ∈ prices, 0 < p) : ∃ last, prices.foldlM ChangeSums.add s = some
      { sum := s.sum + total (changeRates (s.prevPrice :: prices)) id
        sumSqr := s.sumSqr + total (changeRates (s.prevPrice :: prices)) fun c => c * c
        prevPrice := last } := by
  induction prices generalizing s with
  | nil => exact ⟨s.prevPrice, by simp [changeRates]⟩
  | cons p prices ih =>
    have hp := h p List.mem_cons_self
    have hstep : s.add p = some
        { sum := s.sum + (p / s.prevPrice - 1)
          sumSqr := s.sumSqr + (p / s.prevPrice - 1) * (p / s.prevPrice - 1)
          prevPrice := p } := by
      simp [ChangeSums.add, quotient, hs.ne']
    rw [List.foldlM_cons, hstep]
    obtain ⟨last, hlast⟩ := ih (s := ⟨_, _, p⟩) hp fun q hq => h q (List.mem_cons_of_mem p hq)
    refine ⟨last, hlast.trans ?_⟩
    simp only [changeRates, total_cons, id_eq, add_assoc]

/-- **One pass gives the mean and the deviation.**  The variance is not negative, so that it
    is not cut off. -/
theorem changeStats_eq (sqrt : ℚ → ℚ) {d : ℕ} (hd : 0 < d) {prices : List ℚ}
    (hlen : prices.length = d + 1) (h : ∀ p ∈ prices, 0 < p) :
    changeStats sqrt d prices = some (statsOf sqrt (changeRates prices)) := by
  have hcs : (changeRates prices).length = d := by rw [length_changeRates, hlen]; rfl
  have hne : changeRates prices ≠ [] := List.ne_nil_of_length_pos (by omega)
  have hd0 : (d : ℚ) ≠ 0 := by exact_mod_cast hd.ne'
  cases prices with
  | nil => exact absurd hlen (by simp)
  | cons p prices =>
    obtain ⟨last, hlast⟩ := foldlM_add (s := { prevPrice := p }) (h p List.mem_cons_self)
      fun q hq => h q (List.mem_cons_of_mem p hq)
    have hmean : total (changeRates (p :: prices)) id * (1 / d) =
        mean (changeRates (p :: prices)) id := by
      rw [mean, hcs, mul_one_div]
    have hvariance : total (changeRates (p :: prices)) (fun c => c * c) * (1 / d) -
        mean (changeRates (p :: prices)) id * mean (changeRates (p :: prices)) id =
        (total (changeRates (p :: prices)) fun c =>
          (c - mean (changeRates (p :: prices)) id) ^ 2) / d := by
      have hdev := sum_sq_deviation hne (id : ℚ → ℚ)
      simp only [id_eq] at hdev
      rw [hdev, hcs]
      field_simp
    have hnonneg : 0 ≤ (total (changeRates (p :: prices)) fun c =>
        (c - mean (changeRates (p :: prices)) id) ^ 2) / (d : ℚ) :=
      div_nonneg (deviation_nonneg (changeRates (p :: prices)) id) (Nat.cast_nonneg d)
    rw [changeStats, hlast]
    simp only [Option.bind_eq_bind, Option.bind_some, zero_add, hmean, hvariance,
      max_eq_right hnonneg, statsOf, hcs]

/-- **The factors of a duration.** -/
theorem compute_eq (sqrt : ℚ → ℚ) {d : ℕ} (hd : 0 < d) {prices : List ℚ}
    (h : ∀ p ∈ prices, 0 < p) : Momentum.compute sqrt prices d =
      if d < prices.length then
        ofChanges sqrt ((changeRates prices).take d)
          ((changeRates prices).drop ((changeRates prices).length - d))
      else {} := by
  rw [compute]
  by_cases hlen : d < prices.length
  case neg => rw [if_neg (by omega), if_neg hlen]
  have htake : changeStats sqrt d (prices.take (d + 1)) =
      some (statsOf sqrt ((changeRates prices).take d)) := by
    rw [← changeRates_take]
    exact changeStats_eq sqrt hd (by rw [List.length_take]; omega)
      fun p hp => h p (List.mem_of_mem_take hp)
  have hdrop : changeStats sqrt d (prices.drop (prices.length - d - 1)) =
      some (statsOf sqrt ((changeRates prices).drop (prices.length - d - 1))) := by
    rw [← changeRates_drop]
    exact changeStats_eq sqrt hd (by rw [List.length_drop]; omega)
      fun p hp => h p (List.mem_of_mem_drop hp)
  have hsub : (changeRates prices).length - d = prices.length - d - 1 := by
    rw [length_changeRates]
    omega
  rw [if_pos (by omega), if_pos hlen, htake, hdrop, hsub]
  rfl

end Momentum

end Mdd2
