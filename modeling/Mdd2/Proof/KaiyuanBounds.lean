/-
  The values of the Kaiyuan factors over the reals.

  * `correlation_le`, `correlation_isSome_iff`: a correlation is between -1 and 1, and it is
    finite if and only if both amounts vary;
  * `kaiyuan_bounded`: the quantiles are between 0 and 1, and the signal returns are the sums
    of the price changes of the transactions with the greatest mean amounts.

  The order of the bits of a mean amount is a hypothesis on the amounts that are there.
-/
import Mdd2.Lib.Statistics
import Mdd2.Proof.Kaiyuan

namespace Mdd2

open Statistics

noncomputable instance : FactorScalar ℝ where

namespace Kaiyuan

/-! ## Sums -/

/-- The running sums are those of the transactions. -/
theorem foldl_add (ts : List (Transaction ℝ)) (s : Sums ℝ) : ts.foldl Sums.add s =
    { sumT := s.sumT + total ts (·.meanAmount)
      sumA := s.sumA + total ts (·.sumAmount)
      sumTA := s.sumTA + total ts fun t => t.meanAmount * t.sumAmount
      sumT2 := s.sumT2 + total ts fun t => t.meanAmount * t.meanAmount
      sumA2 := s.sumA2 + total ts fun t => t.sumAmount * t.sumAmount } := by
  induction ts generalizing s with
  | nil => simp
  | cons t ts ih =>
    rw [List.foldl_cons, ih]
    simp only [Sums.add, total_cons, add_assoc]

theorem foldl_add_zero (ts : List (Transaction ℝ)) : ts.foldl Sums.add Sums.zero =
    { sumT := total ts (·.meanAmount)
      sumA := total ts (·.sumAmount)
      sumTA := total ts fun t => t.meanAmount * t.sumAmount
      sumT2 := total ts fun t => t.meanAmount * t.meanAmount
      sumA2 := total ts fun t => t.sumAmount * t.sumAmount } := by
  rw [foldl_add]
  simp [Sums.zero]

/-- The correlation of the two amounts. -/
noncomputable def correlationOf (ts : List (Transaction ℝ)) : Option ℝ :=
  (ts.foldl Sums.add Sums.zero).correlation (fun x y => decide (x > y)) (fun x => √(max 0 x))
    ts.length

/-- **A correlation is between -1 and 1.** -/
theorem correlation_le (ts : List (Transaction ℝ)) : ∀ x ∈ correlationOf ts, |x| ≤ 1 := by
  have hle := covariance_sq_le ts (fun t => t.meanAmount) fun t => t.sumAmount
  rw [correlationOf, foldl_add_zero, Sums.correlation]
  simp only [Int.cast_natCast]
  set numerator := total ts (fun t => t.meanAmount * t.sumAmount) * ts.length -
    total ts (fun t => t.meanAmount) * total ts fun t => t.sumAmount
  set product := (total ts (fun t => t.meanAmount * t.meanAmount) * ts.length -
    total ts (fun t => t.meanAmount) * total ts fun t => t.meanAmount) *
    (total ts (fun t => t.sumAmount * t.sumAmount) * ts.length -
      total ts (fun t => t.sumAmount) * total ts fun t => t.sumAmount)
  rintro x hx
  split_ifs at hx
  · obtain rfl := Option.some.inj hx
    have h0 : 0 ≤ product := (sq_nonneg numerator).trans hle
    have habs : |numerator| ≤ √(max 0 product) := by
      rw [max_eq_right h0]
      exact Real.abs_le_sqrt hle
    rw [abs_div, abs_of_nonneg (Real.sqrt_nonneg _)]
    exact div_le_one_of_le₀ habs (Real.sqrt_nonneg _)
  · exact absurd hx (by simp)

/-- Two mean amounts differ, and two amounts. -/
def Varies (ts : List (Transaction ℝ)) : Prop :=
  (∃ t ∈ ts, ∃ u ∈ ts, t.meanAmount ≠ u.meanAmount) ∧ ∃ t ∈ ts, ∃ u ∈ ts, t.sumAmount ≠ u.sumAmount

theorem mul_pos_iff_pos {x y : ℝ} (hx : 0 ≤ x) (hy : 0 ≤ y) : 0 < x * y ↔ 0 < x ∧ 0 < y := by
  rw [hx.lt_iff_ne, hy.lt_iff_ne, (mul_nonneg hx hy).lt_iff_ne]
  simp [eq_comm]

/-- **A correlation is finite if and only if both amounts vary.** -/
theorem correlation_isSome_iff (ts : List (Transaction ℝ)) :
    (correlationOf ts).isSome ↔ Varies ts := by
  have hX := variance_pos_iff ts fun t => t.meanAmount
  have hY := variance_pos_iff ts fun t => t.sumAmount
  have hX0 := variance_nonneg ts fun t => t.meanAmount
  have hY0 := variance_nonneg ts fun t => t.sumAmount
  rw [correlationOf, foldl_add_zero, Sums.correlation, Varies, ← hX, ← hY]
  simp only [Int.cast_natCast, Int.cast_zero, gt_iff_lt, decide_eq_true_eq, Real.sqrt_pos,
    lt_max_iff, lt_self_iff_false, false_or]
  split_ifs with h
  · simpa using (mul_pos_iff_pos hX0 hY0).1 h
  · simpa using mt (mul_pos_iff_pos hX0 hY0).2 h

/-- The sum of the price changes, if they are all finite. -/
noncomputable def returns (ts : List (Transaction ℝ)) : Option ℝ :=
  if ts.all (·.changeRate.isSome) then some (total ts (·.changeRate.getD 0)) else none

theorem addReturns_none (ts : List (Transaction ℝ)) : addReturns none ts = none := by
  induction ts with
  | nil => rfl
  | cons t ts ih => exact ih

theorem addReturns_some (sr : ℝ) (ts : List (Transaction ℝ)) :
    addReturns (some sr) ts = (returns ts).map (sr + ·) := by
  induction ts generalizing sr with
  | nil => simp [addReturns, returns]
  | cons t ts ih =>
    rw [addReturns, List.foldl_cons, ← addReturns]
    cases hr : t.changeRate with
    | none => simpa [returns, hr] using addReturns_none ts
    | some r =>
      refine (ih (sr + r)).trans ?_
      by_cases hall : ts.all (·.changeRate.isSome)
      · simp [returns, hr, hall, add_assoc]
      · simp [returns, hr, hall]

/-- Two sums of returns, the second one first. -/
theorem addReturns_returns (ts us : List (Transaction ℝ)) :
    addReturns (returns us) ts = returns (ts ++ us) := by
  rw [returns]
  split_ifs with hus
  · rw [addReturns_some, returns, returns, List.all_append, hus, Bool.and_true, total_append]
    split_ifs <;> simp [add_comm]
  · rw [addReturns_none, returns, List.all_append, if_neg (by simp [hus])]

/-! ## The sorted list -/

/-- The transactions, by mean amount. -/
structure Ranked (ts sorted : List (Transaction ℝ)) : Prop where
  perm : sorted.Perm ts
  ascending : sorted.Pairwise fun t u => t.meanAmount ≤ u.meanAmount

theorem ranked_sort {bits : ℝ → UInt32} {ts : List (Transaction ℝ)}
    (hbits : ∀ t ∈ ts, ∀ u ∈ ts, bits t.meanAmount ≤ bits u.meanAmount →
      t.meanAmount ≤ u.meanAmount) : Ranked ts (sort bits ts) where
  perm := sort_perm bits ts
  ascending := by
    have hsorted : (sort bits ts).Pairwise fun t u => bits t.meanAmount ≤ bits u.meanAmount :=
      (List.pairwise_mergeSort (fun t u v ht hu => by
        simp only [decide_eq_true_eq] at ht hu ⊢
        exact UInt32.le_trans ht hu) (fun t u => by
        simp only [Bool.or_eq_true, decide_eq_true_eq]
        exact UInt32.le_total _ _) ts).imp of_decide_eq_true
    have hmem := fun {t} => (sort_perm bits ts).mem_iff (a := t)
    exact hsorted.imp_of_mem fun ht hu h => hbits _ (hmem.1 ht) _ (hmem.1 hu) h

/-- Later elements have greater amounts. -/
theorem Ranked.le {ts sorted : List (Transaction ℝ)} (h : Ranked ts sorted) {i j : ℕ}
    (hij : i ≤ j) {t u : Transaction ℝ} (ht : sorted[i]? = some t) (hu : sorted[j]? = some u) :
    t.meanAmount ≤ u.meanAmount := by
  obtain ⟨hi, rfl⟩ := List.getElem?_eq_some_iff.1 ht
  obtain ⟨hj, rfl⟩ := List.getElem?_eq_some_iff.1 hu
  rcases Nat.lt_or_eq_of_le hij with hlt | rfl
  · exact List.pairwise_iff_getElem.1 h.ascending i j hi hj hlt
  · exact le_rfl

/-- The mean of two amounts in between, on the scale of the two ends. -/
theorem quantile_mem {lo hi x y : ℝ} (hx : lo ≤ x ∧ x ≤ hi) (hy : lo ≤ y ∧ y ≤ hi) (h : lo < hi) :
    0 ≤ (1 / 2 * (x + y) - lo) / (hi - lo) ∧ (1 / 2 * (x + y) - lo) / (hi - lo) ≤ 1 := by
  have hpos : 0 < hi - lo := sub_pos.2 h
  refine ⟨div_nonneg ?_ hpos.le, (div_le_one hpos).2 ?_⟩ <;> linarith [hx.1, hx.2, hy.1, hy.2]

/-- The factors of a list of transactions by mean amount. -/
structure Measures (k : Kaiyuan ℝ) (sorted : List (Transaction ℝ)) : Prop where
  correlation : ∀ x ∈ k.correlation, |x| ≤ 1
  correlationFinite : k.correlation.isSome ↔ Varies sorted
  trimmedCorrelation : ∀ x ∈ k.trimmedCorrelation, |x| ≤ 1
  trimmedCorrelationFinite :
    k.trimmedCorrelation.isSome ↔ Varies (sorted.take (it96 sorted.length))
  quantile : ∀ x ∈ k.quantile, 0 ≤ x ∧ x ≤ 1
  trimmedQuantile : ∀ x ∈ k.trimmedQuantile, 0 ≤ x ∧ x ≤ 1
  quantileFinite : k.quantile.isSome ↔ ∃ t ∈ sorted, ∃ u ∈ sorted, t.meanAmount ≠ u.meanAmount
  signalReturn10 : k.signalReturn10 = returns (sorted.drop (it90 sorted.length))
  signalReturn30 : k.signalReturn30 = returns (sorted.drop (it70 sorted.length))
  signalReturn50 : k.signalReturn50 = returns (sorted.drop (it50 sorted.length))

/-- The returns from `j` on, and those from `i` to `j`. -/
theorem addReturns_range {ts : List (Transaction ℝ)} {i j : ℕ} (hij : i ≤ j) (hj : j ≤ ts.length) :
    addReturns (returns (ts.drop j)) ((ts.drop i).take (j - i)) = returns (ts.drop i) := by
  have hrest : ∀ n, (ts.drop n).take (ts.length - n) = ts.drop n := fun n =>
    List.take_of_length_le (by simp)
  have hsplit := take_append_take ts hij hj
  rw [hrest, hrest] at hsplit
  rw [addReturns_returns, hsplit]

theorem Ranked.first_lt_last_iff {ts sorted : List (Transaction ℝ)} (h : Ranked ts sorted)
    {first last : Transaction ℝ} (hfirst : sorted[0]? = some first)
    (hlast : sorted[sorted.length - 1]? = some last) :
    first.meanAmount < last.meanAmount ↔
      ∃ t ∈ sorted, ∃ u ∈ sorted, t.meanAmount ≠ u.meanAmount := by
  constructor
  · intro hlt
    exact ⟨first, List.mem_of_getElem? hfirst, last, List.mem_of_getElem? hlast, hlt.ne⟩
  · rintro ⟨t, ht, u, hu, hne⟩
    obtain ⟨i, hi⟩ := List.mem_iff_getElem?.1 ht
    obtain ⟨j, hj⟩ := List.mem_iff_getElem?.1 hu
    have hilt := (List.getElem?_eq_some_iff.1 hi).1
    have hjlt := (List.getElem?_eq_some_iff.1 hj).1
    by_contra hnot
    have hge := not_lt.1 hnot
    refine hne (le_antisymm ?_ ?_)
    · exact (h.le (by omega) hi hlast).trans (hge.trans (h.le (Nat.zero_le j) hfirst hj))
    · exact (h.le (by omega) hj hlast).trans (hge.trans (h.le (Nat.zero_le i) hfirst hi))

theorem it096_le_it96 (m : ℕ) : it096 m ≤ it96 m := ceil_le_of_le (by norm_num) m

theorem it096f_le_it96 (m : ℕ) : it096f m ≤ it96 m := (Nat.floor_le_ceil _).trans (it096_le_it96 m)

/-- **The factors of a sorted list.** -/
theorem Ranked.measures {ts sorted : List (Transaction ℝ)} (h : Ranked ts sorted) {k : Kaiyuan ℝ}
    (hk : ofSorted (fun x y => decide (x > y)) (fun x => √(max 0 x)) sorted = some k) :
    Measures k sorted := by
  have h57 := it50_le_it70 sorted.length
  have h79 := it70_le_it90 sorted.length
  have h9 := it90_le sorted.length
  have h96 := it96_le sorted.length
  simp only [ofSorted, Option.bind_eq_bind, range_eq (Nat.zero_le (it96 sorted.length)) h96,
    range_eq h96 le_rfl, range_eq h9 le_rfl, range_eq h79 h9, range_eq h57 (h79.trans h9),
    Option.bind_some] at hk
  obtain ⟨A0, h0, hk⟩ := Option.bind_eq_some_iff.1 hk
  obtain ⟨A100, h100, hk⟩ := Option.bind_eq_some_iff.1 hk
  obtain ⟨A096, h096, hk⟩ := Option.bind_eq_some_iff.1 hk
  obtain ⟨A10, h10, hk⟩ := Option.bind_eq_some_iff.1 hk
  obtain ⟨A096f, h096f, hk⟩ := Option.bind_eq_some_iff.1 hk
  obtain ⟨A10f, h10f, hk⟩ := Option.bind_eq_some_iff.1 hk
  obtain ⟨A96, hA96, hk⟩ := Option.bind_eq_some_iff.1 hk
  obtain rfl := Option.some.inj hk
  have hlt10 := (List.getElem?_eq_some_iff.1 h10).1
  have hlt10f := (List.getElem?_eq_some_iff.1 h10f).1
  have htrim : (sorted.drop 0).take (it96 sorted.length - 0) = sorted.take (it96 sorted.length) :=
    rfl
  have hlen : (sorted.take (it96 sorted.length)).length = it96 sorted.length := by simp [h96]
  have hwhole : sorted.take (it96 sorted.length) ++
      (sorted.drop (it96 sorted.length)).take (sorted.length - it96 sorted.length) = sorted := by
    rw [← htrim, take_append_take sorted (Nat.zero_le _) h96]
    simp
  have htop : (sorted.drop (it90 sorted.length)).take (sorted.length - it90 sorted.length) =
      sorted.drop (it90 sorted.length) := List.take_of_length_le (by simp)
  have hreturn : addReturns (some ((0 : ℤ) : ℝ)) (sorted.drop (it90 sorted.length)) =
      returns (sorted.drop (it90 sorted.length)) := by
    simp [addReturns_some]
  have htrimmed := correlation_isSome_iff (sorted.take (it96 sorted.length))
  have htrimmed' := correlation_le (sorted.take (it96 sorted.length))
  rw [correlationOf, hlen] at htrimmed htrimmed'
  simp only [htrim, ← List.foldl_append, hwhole, htop, hreturn, addReturns_range h79 h9,
    addReturns_range h57 (h79.trans h9)]
  refine ⟨correlation_le sorted, correlation_isSome_iff sorted, htrimmed', htrimmed, ?_, ?_, ?_,
    rfl, rfl, rfl⟩
  · rintro x hx
    simp only [gt_iff_lt, decide_eq_true_eq] at hx
    split_ifs at hx with hlt
    · obtain rfl := Option.some.inj hx
      have hmem := quantile_mem ⟨h.le (Nat.zero_le _) h0 h10, h.le (by omega) h10 h100⟩
        ⟨h.le (Nat.zero_le _) h0 h10f, h.le (by omega) h10f h100⟩ hlt
      simpa using hmem
    · exact absurd hx (by simp)
  · rintro x hx
    simp only [gt_iff_lt, decide_eq_true_eq] at hx
    split_ifs at hx with hlt
    · obtain rfl := Option.some.inj hx
      have hmem := quantile_mem
        ⟨h.le (Nat.zero_le _) h0 h096, h.le (it096_le_it96 _) h096 hA96⟩
        ⟨h.le (Nat.zero_le _) h0 h096f, h.le (it096f_le_it96 _) h096f hA96⟩ hlt
      simpa using hmem
    · exact absurd hx (by simp)
  · rw [← h.first_lt_last_iff h0 h100]
    simp only [gt_iff_lt, decide_eq_true_eq]
    split_ifs with hlt <;> simp [hlt]

/-- **The Kaiyuan factors.**  Whenever they are computed, in any state, the correlations are
    between -1 and 1 where both amounts vary, and else not finite; the quantiles are between 0
    and 1, and the signal returns are those of the transactions with the greatest mean
    amounts. -/
theorem kaiyuan_bounded {bits : ℝ → UInt32} {c : StockCompute ℝ} {k : Kaiyuan ℝ}
    (hbits : ∀ t ∈ c.transactions, ∀ u ∈ c.transactions,
      bits t.meanAmount ≤ bits u.meanAmount → t.meanAmount ≤ u.meanAmount)
    (hk : c.computeKaiyuan bits (fun x y => decide (x > y)) (fun x => √(max 0 x)) =
      some (some k)) :
    ∃ sorted, Ranked c.transactions sorted ∧ Measures k sorted := by
  rw [StockCompute.computeKaiyuan] at hk
  split_ifs at hk with hsnap hts
  · exact absurd hk (by simp)
  · obtain ⟨k', hk', heq⟩ := Option.map_eq_some_iff.1 hk
    obtain rfl := Option.some.inj heq
    have hranked := ranked_sort hbits
    exact ⟨_, hranked, hranked.measures hk'⟩

/-- Snapshots of one trade each, at one price. -/
theorem gather_one_price (price : ℤ) {ss : List Snapshot}
    (hprice : price ≠ 0) (h : ∀ s ∈ ss, s.lastPrice = price ∧ s.numTrades = 1) :
    (gather price ss : List (Transaction ℝ)) = ss.map fun s =>
      ⟨(s.amount : ℝ) / ((1 : ℤ) : ℝ), s.amount, some ((price : ℝ) / price - ((1 : ℤ) : ℝ))⟩ := by
  induction ss with
  | nil => rfl
  | cons s ss ih =>
    obtain ⟨hp, hn⟩ := h s List.mem_cons_self
    rw [gather, if_pos (by rw [hn]; decide), List.map_cons, hp, hn,
      ← ih fun s hs => h s (List.mem_cons_of_mem _ hs)]
    simp only [if_neg hprice]

/-- A stock with 25 trades of growing amounts after the first snapshot. -/
def growing : StockCompute ℝ :=
  { fState := { snapshots := ⟨1000, 0, 0, 0⟩ ::
    (List.range 25).map fun i => ⟨1000, 1, 1, (1000 * (i + 1) : ℕ)⟩ } }

theorem kaiyuan_bounded_growing : ∃ k sorted,
    growing.computeKaiyuan (fun x => .ofNat ⌊x⌋₊) (fun x y => decide (x > y))
      (fun x => √(max 0 x)) = some (some k) ∧
    Ranked growing.transactions sorted ∧ Measures k sorted := by
  have htrans : growing.transactions = ((List.range 25).map fun i =>
      (⟨1000, 1, 1, (1000 * (i + 1) : ℕ)⟩ : Snapshot)).map fun s =>
      ⟨(s.amount : ℝ) / ((1 : ℤ) : ℝ), s.amount,
        some (((1000 : ℤ) : ℝ) / (1000 : ℤ) - ((1 : ℤ) : ℝ))⟩ :=
    gather_one_price 1000 (by decide) (by simp)
  have hmem : ∀ t ∈ growing.transactions, ∃ n : ℕ, n < 2 ^ 32 ∧ t.meanAmount = n := by
    rintro t ht
    rw [htrans] at ht
    obtain ⟨s, hs, rfl⟩ := List.mem_map.1 ht
    obtain ⟨i, hi, rfl⟩ := List.mem_map.1 hs
    have hlt := List.mem_range.1 hi
    exact ⟨1000 * (i + 1), by omega, by simp⟩
  have hbits : ∀ t ∈ growing.transactions, ∀ u ∈ growing.transactions,
      (fun x : ℝ => UInt32.ofNat ⌊x⌋₊) t.meanAmount ≤
        (fun x : ℝ => UInt32.ofNat ⌊x⌋₊) u.meanAmount →
      t.meanAmount ≤ u.meanAmount := by
    rintro t ht u hu hle
    obtain ⟨m, hm, htm⟩ := hmem t ht
    obtain ⟨n, hn, hun⟩ := hmem u hu
    simp only [htm, hun, Nat.floor_natCast, UInt32.le_iff_toNat_le] at hle
    rw [UInt32.toNat_ofNat_of_lt' hm, UInt32.toNat_ofNat_of_lt' hn] at hle
    rw [htm, hun]
    exact_mod_cast hle
  have hne : growing.transactions ≠ [] := by rw [htrans]; simp
  have hsome := (computeKaiyuan_isSome_iff (fun x : ℝ => UInt32.ofNat ⌊x⌋₊)
    (fun x y => decide (x > y)) (fun x => √(max 0 x)) hne).2 (by rw [htrans]; simp)
  obtain ⟨result, hk⟩ := Option.isSome_iff_exists.1 hsome
  cases result with
  | none =>
    rw [StockCompute.computeKaiyuan, if_neg (by simp [growing]), if_neg hne] at hk
    exact absurd hk (by simp)
  | some k =>
    obtain ⟨sorted, hranked, hmeasures⟩ := kaiyuan_bounded hbits hk
    exact ⟨k, sorted, hk, hranked, hmeasures⟩

end Kaiyuan

end Mdd2
