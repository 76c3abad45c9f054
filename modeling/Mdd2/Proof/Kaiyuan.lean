/-
  The rounded positions of `computeKaiyuan` in a list of `m` transactions.

  The ends of the sums are in order for every `m`, and cut the list into parts
  (`sums_cover`).  The elements that are dereferenced are all there if and only if
  `m ≥ 25` (`dereferenced_iff`): up to 24 transactions, 0.96 `m` rounds up to the
  end of the list.

  `sort_eq_radixSort` connects the sort of the model to the one of the source.
-/
import Mdd2.Kaiyuan
import Mdd2.Proof.RadixSort

namespace Mdd2

namespace Kaiyuan

variable {α : Type} {m : ℕ}

/-! ## Positions -/

theorem ceil_le_of_le {q q' : ℚ} (h : q ≤ q') (m : ℕ) : ⌈q * m⌉₊ ≤ ⌈q' * m⌉₊ :=
  Nat.ceil_le_ceil (by gcongr)

theorem ceil_le_length {q : ℚ} (h : q ≤ 1) (m : ℕ) : ⌈q * m⌉₊ ≤ m := by
  have hle := ceil_le_of_le h m
  rwa [one_mul, Nat.ceil_natCast] at hle

/-- A position that is rounded up is inside once the part above it has length
    one. -/
theorem ceil_lt_iff (q : ℚ) (hm : 1 ≤ m) : ⌈q * m⌉₊ < m ↔ 1 ≤ (1 - q) * m := by
  obtain ⟨n, rfl⟩ : ∃ n, m = n + 1 := ⟨m - 1, by omega⟩
  rw [Nat.lt_succ_iff, Nat.ceil_le]
  push_cast
  constructor <;> intro h <;> linarith

theorem floor_lt {q : ℚ} (hq : q < 1) (hm : 1 ≤ m) : ⌊q * m⌋₊ < m := by
  have hpos : (0 : ℚ) < m := by exact_mod_cast hm
  rw [Nat.floor_lt' (by omega)]
  nlinarith

theorem it96_lt_iff (hm : 1 ≤ m) : it96 m < m ↔ 25 ≤ m := by
  rw [it96, ceil_lt_iff _ hm]
  constructor
  · intro h
    by_contra hlt
    have hle : (m : ℚ) ≤ 24 := by exact_mod_cast (by omega : m ≤ 24)
    linarith
  · intro h
    have hle : (25 : ℚ) ≤ m := by exact_mod_cast h
    linarith

/-- **The elements that are dereferenced are there from 25 transactions on.** -/
theorem dereferenced_iff (hm : 1 ≤ m) : (∀ i ∈ dereferenced m, i < m) ↔ 25 ≤ m := by
  simp only [dereferenced, List.forall_mem_cons, List.not_mem_nil, false_imp_iff, implies_true,
    and_true]
  constructor
  · intro h
    exact (it96_lt_iff hm).mp h.2.2.2.2.2.2
  · intro h
    have hle : (25 : ℚ) ≤ m := by exact_mod_cast h
    refine ⟨by omega, by omega, ?_, ?_, floor_lt (by norm_num) hm, floor_lt (by norm_num) hm,
      (it96_lt_iff hm).mpr h⟩
    · rw [it096, ceil_lt_iff _ hm]
      linarith
    · rw [it10, ceil_lt_iff _ hm]
      linarith

theorem it50_le_it70 (m : ℕ) : it50 m ≤ it70 m := ceil_le_of_le (by norm_num) m

theorem it70_le_it90 (m : ℕ) : it70 m ≤ it90 m := ceil_le_of_le (by norm_num) m

theorem it90_le (m : ℕ) : it90 m ≤ m := ceil_le_length (by norm_num) m

theorem it96_le (m : ℕ) : it96 m ≤ m := ceil_le_length (by norm_num) m

/-! ## Ranges -/

theorem range_eq {ts : List α} {i j : ℕ} (hij : i ≤ j) (hj : j ≤ ts.length) :
    range ts i j = some ((ts.drop i).take (j - i)) := if_pos ⟨hij, hj⟩

/-- A range and the one after it. -/
theorem take_append_take (ts : List α) {i j k : ℕ} (hij : i ≤ j) (hjk : j ≤ k) :
    (ts.drop i).take (j - i) ++ (ts.drop j).take (k - j) = (ts.drop i).take (k - i) := by
  have hk : k - i = (j - i) + (k - j) := by omega
  rw [hk, List.take_add, List.drop_drop, show i + (j - i) = j by omega]

/-- The sums visit each transaction once: those of the correlations all of them,
    those of the returns the ones from `it50` on. -/
def SumsCover (ts : List α) : Prop :=
  let m := ts.length
  (∃ a b, range ts 0 (it96 m) = some a ∧ range ts (it96 m) m = some b ∧ a ++ b = ts) ∧
  ∃ a b c, range ts (it50 m) (it70 m) = some a ∧ range ts (it70 m) (it90 m) = some b ∧
    range ts (it90 m) m = some c ∧ a ++ b ++ c = ts.drop (it50 m)

/-- **The ends of the sums are in order and inside the list.** -/
theorem sums_cover (ts : List α) : SumsCover ts := by
  have h57 := it50_le_it70 ts.length
  have h79 := it70_le_it90 ts.length
  have h9 := it90_le ts.length
  refine ⟨⟨_, _, range_eq (Nat.zero_le _) (it96_le _), range_eq (it96_le _) le_rfl, ?_⟩,
    _, _, _, range_eq h57 (by omega), range_eq h79 h9, range_eq h9 le_rfl, ?_⟩
  · rw [take_append_take ts (Nat.zero_le _) (it96_le _)]
    simp
  · rw [take_append_take ts h57 h79, take_append_take ts (by omega) h9, List.take_of_length_le]
    simp

/-- **The accesses of `computeKaiyuan` stay inside a list of transactions if and
    only if it has at least 25.** -/
theorem quantiles_inside_iff (ts : List α) (hts : ts ≠ []) :
    (∀ i ∈ dereferenced ts.length, i < ts.length) ∧ SumsCover ts ↔ 25 ≤ ts.length := by
  rw [dereferenced_iff (List.length_pos_iff.mpr hts)]
  exact ⟨fun h => h.1, fun h => ⟨h, sums_cover ts⟩⟩

theorem quantiles_inside_25 : List.range 25 ≠ [] ∧
    (∀ i ∈ dereferenced (List.range 25).length, i < (List.range 25).length) ∧
      SumsCover (List.range 25) :=
  ⟨by simp, (quantiles_inside_iff (List.range 25) (by simp)).mpr (by simp)⟩

/-- After one snapshot with a trade, the quantile at 0.96 is the end of the list. -/
theorem quantiles_outside_one :
    let c : StockCompute ℚ :=
      { fState := { snapshots := [⟨1000, 0, 0, 0⟩, ⟨1001, 1, 100, 100100⟩] } }
    c.transactions ≠ [] ∧ c.transactions.length = 1 ∧
      ¬∀ i ∈ dereferenced c.transactions.length, i < c.transactions.length := by
  intro c
  have hlen : c.transactions.length = 1 := rfl
  refine ⟨List.ne_nil_of_length_eq_add_one hlen, hlen, ?_⟩
  rw [hlen, dereferenced_iff le_rfl]
  omega

/-! ## The factors -/

variable {R : Type} [FactorScalar R]

theorem any_const {β : Type} (x : Option β) (b : Bool) : (x.any fun _ => b) = (x.isSome && b) := by
  cases x <;> simp

/-- `computeKaiyuan` reads these elements and ranges. -/
theorem ofSorted_isSome_iff (gt : R → R → Bool) (sqrtPos : R → R) (ts : List (Transaction R)) :
    (ofSorted gt sqrtPos ts).isSome ↔
      (∀ i ∈ dereferenced ts.length, i < ts.length) ∧ SumsCover ts := by
  obtain ⟨⟨a, b, ha, hb, -⟩, a', b', c', ha', hb', hc', -⟩ := sums_cover ts
  rw [and_iff_left (sums_cover ts)]
  simp only [ofSorted, Option.bind_eq_bind, ha, hb, ha', hb', hc', Option.bind_some,
    Option.isSome_bind, Option.isSome_some, any_const, Bool.and_true]
  simp [dereferenced]

omit [FactorScalar R] in
theorem sort_perm (bits : R → UInt32) (ts : List (Transaction R)) : (sort bits ts).Perm ts :=
  List.mergeSort_perm _ _

/-- **`computeKaiyuan` returns for the lists of no or of at least 25 transactions.** -/
theorem computeKaiyuan_isSome_iff (bits : R → UInt32) (gt : R → R → Bool) (sqrtPos : R → R)
    {c : StockCompute R} (hc : c.transactions ≠ []) :
    (c.computeKaiyuan bits gt sqrtPos).isSome ↔ 25 ≤ c.transactions.length := by
  have hsnap : c.fState.snapshots ≠ [] := fun h => hc (by rw [StockCompute.transactions, h])
  have hperm := sort_perm bits c.transactions
  have hsort : sort bits c.transactions ≠ [] := fun h => hc (by rwa [h, List.nil_perm] at hperm)
  rw [StockCompute.computeKaiyuan, if_neg hsnap, if_neg hc, Option.isSome_map,
    ofSorted_isSome_iff, and_iff_left (sums_cover _),
    dereferenced_iff (List.length_pos_iff.mpr hsort), hperm.length_eq]

/-! ## The sort -/

open RadixSort CountingSort

/-- The words of a transaction; `nan` is the word of a rate that is not finite. -/
def record (bits : R → UInt32) (nan : UInt32) (t : Transaction R) : Record 3 :=
  #v[bits t.meanAmount, bits t.sumAmount, t.changeRate.elim nan bits]

omit [FactorScalar R] in
/-- **The sort of the transactions is `radixSort` on their words.** -/
theorem sort_eq_radixSort (bits : R → UInt32) (nan : UInt32) (ts : List (Transaction R))
    (hnum : ts.length < 2 ^ 32) (uninit : ℕ → UInt32) (buffer : Words) :
    ∃ buffer', radixSort 8 4 (0 * 4) (3 * 4) uninit buffer (words (ts.map (record bits nan)))
        ts.length = some (words ((sort bits ts).map (record bits nan)), buffer') := by
  have ho : 0 < 3 := by omega
  have hnum' : (ts.map (record bits nan)).length < 2 ^ 32 := by simpa using hnum
  obtain ⟨buffer', hsort⟩ := radixSort_eq_passes ho _ hnum' uninit buffer
  rw [List.length_map] at hsort
  have htrans : ∀ t u v : Transaction R, decide (bits t.meanAmount ≤ bits u.meanAmount) →
      decide (bits u.meanAmount ≤ bits v.meanAmount) →
      decide (bits t.meanAmount ≤ bits v.meanAmount) := by
    simp only [decide_eq_true_eq]
    exact fun t u v => UInt32.le_trans
  have htotal : ∀ t u : Transaction R, decide (bits t.meanAmount ≤ bits u.meanAmount) ||
      decide (bits u.meanAmount ≤ bits t.meanAmount) := by
    simp only [Bool.or_eq_true, decide_eq_true_eq]
    exact fun t u => UInt32.le_total _ _
  have hsorted : passes ho (ts.map (record bits nan)) 4 = (sort bits ts).map (record bits nan) := by
    refine @eq_of_pairwise_of_filter _ _ UInt32 _ _ (fun r : Record 3 => r[0]) _
      UInt32.le_refl (fun k k' => UInt32.le_antisymm) (passes_sorted ho _) ?_ fun k => ?_
    · rw [List.pairwise_map]
      exact (List.pairwise_mergeSort htrans htotal ts).imp of_decide_eq_true
    · refine (filter_passes ho _ le_rfl k).trans ?_
      rw [List.filter_map, List.filter_map]
      refine congrArg (List.map (record bits nan)) (filter_mergeSort htrans htotal ?_ ts).symm
      intro t u ht hu
      have ht : bits t.meanAmount = k := of_decide_eq_true ht
      have hu : bits u.meanAmount = k := of_decide_eq_true hu
      simp [ht, hu]
  exact ⟨buffer', hsorted ▸ hsort⟩

end Kaiyuan

end Mdd2
