/-
  The virtual opening of the call auction.

  * `askUpTo`, `bidFrom`: what sells up to a price, and what buys from a price on;
  * `Quoted`: the quantities are not negative, and the sum of a side is an `int32_t`;
  * `Scanned`: what the scan has found after some levels (`Scanned.step`, `scanned`);
  * `virtualOpening_snapUpdate`: the opening of a snapshot is that of the auction.
-/
import Mdd2.Lib.CallAuction
import Mdd2.Proof.SnapUpdate

namespace L2

open Exchange (Side)

namespace OrderBook

variable {ob : OrderBook}

/-! ## The auction -/

/-- The quantity to sell at prices up to `p`. -/
noncomputable def askUpTo (ob : OrderBook) (p : ℤ) : ℤ :=
  ∑ q ∈ Finset.Icc ob.lowerLimitPrice p, (ob.askQtyAt q).getD 0

/-- The quantity to buy at prices from `p` on. -/
noncomputable def bidFrom (ob : OrderBook) (p : ℤ) : ℤ :=
  ∑ q ∈ Finset.Icc p ob.upperLimitPrice, (ob.bidQtyAt q).getD 0

/-- What an opening at `p` matches. -/
noncomputable def matchedAt (ob : OrderBook) (p : ℤ) : ℤ := min (ob.askUpTo p) (ob.bidFrom p)

/-- What it leaves, negative for asks. -/
noncomputable def imbalanceAt (ob : OrderBook) (p : ℤ) : ℤ := ob.bidFrom p - ob.askUpTo p

/-- The prices between the limits. -/
def prices (ob : OrderBook) : Set ℤ := Set.Icc ob.lowerLimitPrice ob.upperLimitPrice

/-- The opening price of some prices. -/
abbrev IsOpening (ob : OrderBook) (s : Set ℤ) (p : ℤ) : Prop :=
  CallAuction.IsOpening ob.matchedAt (fun q => |ob.imbalanceAt q|) s ob.preClosePrice p

/-- `ob'` has the virtual opening of the book `ob`. -/
structure VirtualOpening (ob ob' : OrderBook) : Prop where
  isGreatest : ob.prices.Nonempty → IsGreatest (ob.matchedAt '' ob.prices) ob'.virtOpenMatchedQty
  matched_of_empty : ob.prices = ∅ → ob'.virtOpenMatchedQty = 0
  matchedAt_price : ob'.virtOpenMatchedQty ≠ 0 →
    ob.matchedAt ob'.virtOpenPrice = ob'.virtOpenMatchedQty
  isOpening : ob'.virtOpenMatchedQty ≠ 0 → ob.IsOpening ob.prices ob'.virtOpenPrice
  unmatched : ob'.virtOpenMatchedQty ≠ 0 →
    ob'.virtOpenUnmatchedQty = ob.imbalanceAt ob'.virtOpenPrice
  price_of_zero : ob'.virtOpenMatchedQty = 0 → ob'.virtOpenPrice = ob.preClosePrice
  unmatched_of_zero : ob'.virtOpenMatchedQty = 0 → ob'.virtOpenUnmatchedQty = 0
  askRemain : ob'.virtOpenAskRemainQty = ob.askQty.sum - ob'.virtOpenMatchedQty
  bidRemain : ob'.virtOpenBidRemainQty = ob.bidQty.sum - ob'.virtOpenMatchedQty

/-- No quantity is negative, and the sum of a side fits. -/
structure Quoted (ob : OrderBook) : Prop extends ob.Sized where
  nonneg : ∀ side, ∀ x ∈ ob.qty side, 0 ≤ x
  sum_lt : ∀ side, (ob.qty side).sum < 2 ^ 31

/-! ## Sums -/

theorem Sized.qtyAt_eq (h : ob.Sized) (side : Side) {p : ℕ} (hp : p < ob.numLevels) :
    ob.qtyAt side (p + ob.lowerLimitPrice) = some (qtyOn (ob.qty side) p) := by
  have hlevel : ob.level (p + ob.lowerLimitPrice) = some p := by
    rw [numLevels] at hp
    rw [level, if_pos ⟨by omega, by omega⟩, Int.add_sub_cancel, Int.toNat_natCast]
  rw [qtyAt, hlevel, Option.bind_eq_bind, Option.bind_some]
  exact getElem?_eq_qtyOn (by rwa [h.qty])

theorem Sized.sum_qtyAt (h : ob.Sized) (side : Side) {a m : ℕ} (ham : a + m ≤ ob.numLevels) :
    ∑ p ∈ Finset.Ico (a + ob.lowerLimitPrice) (a + ob.lowerLimitPrice + m),
      (ob.qtyAt side p).getD 0 = total (ob.qty side) (List.range' a m) := by
  have hget : ∀ k ∈ Finset.range m,
      (ob.qtyAt side (a + ob.lowerLimitPrice + k)).getD 0 = qtyOn (ob.qty side) (a + k) := by
    intro k hk
    rw [Finset.mem_range] at hk
    have hprice : (a : ℤ) + ob.lowerLimitPrice + k = (a + k : ℕ) + ob.lowerLimitPrice := by
      push_cast
      ring
    rw [hprice, h.qtyAt_eq side (by omega), Option.getD_some]
  rw [Int.Ico_eq_finset_map, Finset.sum_map, add_sub_cancel_left, Int.toNat_natCast,
    List.range'_eq_map_range, total, List.map_map]
  exact Finset.sum_congr rfl hget

theorem map_qtyOn (qty : List ℤ) : (List.range qty.length).map (qtyOn qty) = qty := by
  refine List.ext_getElem (by simp) fun i _ hi => ?_
  rw [List.getElem_map, List.getElem_range, qtyOn, List.getD_eq_getElem _ _ hi]

theorem Sized.total_range (h : ob.Sized) (side : Side) :
    total (ob.qty side) (List.range ob.numLevels) = (ob.qty side).sum := by
  rw [total, ← h.qty side, map_qtyOn]

/-- A part of a side. -/
theorem Quoted.total_mem (h : ob.Quoted) (side : Side) {levels : List ℕ}
    (hsub : levels.Sublist (List.range ob.numLevels)) :
    0 ≤ total (ob.qty side) levels ∧ total (ob.qty side) levels ≤ (ob.qty side).sum := by
  have hmap : (levels.map (qtyOn (ob.qty side))).Sublist (ob.qty side) := by
    have := hsub.map (qtyOn (ob.qty side))
    rwa [← h.qty side, map_qtyOn] at this
  exact ⟨List.sum_nonneg fun x hx => h.nonneg side x (hmap.subset hx),
    hmap.sum_le_sum fun x hx => h.nonneg side x hx⟩

theorem Quoted.toSigned_total (h : ob.Quoted) (side : Side) {levels : List ℕ}
    (hsub : levels.Sublist (List.range ob.numLevels)) :
    Word.toSigned 32 (total (ob.qty side) levels) = total (ob.qty side) levels := by
  obtain ⟨hlo, hhi⟩ := h.total_mem side hsub
  have hlt := h.sum_lt side
  exact Word.toSigned_of_range (by omega) (by omega)

theorem Quoted.toSigned_total_mem (h : ob.Quoted) (side : Side) {levels : List ℕ}
    (hsub : levels.Sublist (List.range ob.numLevels)) :
    0 ≤ Word.toSigned 32 (total (ob.qty side) levels) ∧
      Word.toSigned 32 (total (ob.qty side) levels) ≤ (ob.qty side).sum := by
  rw [h.toSigned_total side hsub]
  exact h.total_mem side hsub

/-! ## A level -/

section level
variable {k : ℕ} (hk : k < ob.numLevels)
include hk

theorem range_sublist : (List.range (k + 1)).Sublist (List.range ob.numLevels) := by
  rw [List.range_sublist]
  exact hk

theorem range'_sublist :
    (List.range' k (ob.numLevels - k)).Sublist (List.range ob.numLevels) := by
  rw [List.range_eq_range', ← range'_append_sub 0 hk.le, Nat.zero_add]
  exact List.sublist_append_right _ _

theorem Quoted.askAccum_eq (h : ob.Quoted) :
    ob.askAccum k = ob.askUpTo (k + ob.lowerLimitPrice) := by
  have hsum := h.sum_qtyAt .sell (a := 0) (m := k + 1) (by omega)
  have hIcc : Finset.Icc ob.lowerLimitPrice (k + ob.lowerLimitPrice) =
      Finset.Ico ((0 : ℕ) + ob.lowerLimitPrice) ((0 : ℕ) + ob.lowerLimitPrice + (k + 1 : ℕ)) := by
    ext q
    simp only [Finset.mem_Icc, Finset.mem_Ico]
    omega
  rw [← List.range_eq_range'] at hsum
  rw [askUpTo, hIcc]
  exact (h.toSigned_total .sell (range_sublist hk)).trans hsum.symm

theorem Quoted.bidAccum_eq (h : ob.Quoted) :
    ob.bidAccum k = ob.bidFrom (k + ob.lowerLimitPrice) := by
  have hsum := h.sum_qtyAt .buy (a := k) (m := ob.numLevels - k) (by omega)
  have hIcc : Finset.Icc (k + ob.lowerLimitPrice) ob.upperLimitPrice =
      Finset.Ico (k + ob.lowerLimitPrice) (k + ob.lowerLimitPrice + (ob.numLevels - k : ℕ)) := by
    ext q
    rw [numLevels] at hk ⊢
    simp only [Finset.mem_Icc, Finset.mem_Ico]
    omega
  rw [bidFrom, hIcc]
  exact (h.toSigned_total .buy (range'_sublist hk)).trans hsum.symm

theorem Quoted.askUpTo_mem (h : ob.Quoted) : 0 ≤ ob.askUpTo (k + ob.lowerLimitPrice) ∧
    ob.askUpTo (k + ob.lowerLimitPrice) ≤ ob.askQty.sum := by
  rw [← h.askAccum_eq hk]
  exact h.toSigned_total_mem .sell (range_sublist hk)

theorem Quoted.bidFrom_mem (h : ob.Quoted) : 0 ≤ ob.bidFrom (k + ob.lowerLimitPrice) ∧
    ob.bidFrom (k + ob.lowerLimitPrice) ≤ ob.bidQty.sum := by
  rw [← h.bidAccum_eq hk]
  exact h.toSigned_total_mem .buy (range'_sublist hk)

theorem Quoted.matchedAt_mem (h : ob.Quoted) : 0 ≤ ob.matchedAt (k + ob.lowerLimitPrice) ∧
    ob.matchedAt (k + ob.lowerLimitPrice) ≤ ob.askQty.sum ∧
    ob.matchedAt (k + ob.lowerLimitPrice) ≤ ob.bidQty.sum := by
  obtain ⟨hasklo, haskhi⟩ := h.askUpTo_mem hk
  obtain ⟨hbidlo, hbidhi⟩ := h.bidFrom_mem hk
  exact ⟨le_min hasklo hbidlo, (min_le_left _ _).trans haskhi, (min_le_right _ _).trans hbidhi⟩

/-- The test of the scan, on the level of the price `p`. -/
def Beats (ob : OrderBook) (best : Best) (p : ℤ) : Prop :=
  ob.matchedAt p > best.maxQ ∨ ob.matchedAt p = best.maxQ ∧
    if p ≤ ob.preClosePrice then |ob.imbalanceAt p| ≤ best.maxI else |ob.imbalanceAt p| < best.maxI

/-- The best level, if it is at the price `p`. -/
noncomputable def bestAt (ob : OrderBook) (p : ℤ) : Best where
  maxQ := ob.matchedAt p
  maxI := |ob.imbalanceAt p|
  maxISigned := ob.imbalanceAt p
  maxP := p - ob.lowerLimitPrice

theorem Quoted.improveAt_cases (h : ob.Quoted) (best : Best) :
    ob.Beats best (k + ob.lowerLimitPrice) ∧
      ob.improveAt best k = ob.bestAt (k + ob.lowerLimitPrice) ∨
    ¬ob.Beats best (k + ob.lowerLimitPrice) ∧ ob.improveAt best k = best := by
  obtain ⟨hasklo, haskhi⟩ := h.askUpTo_mem hk
  obtain ⟨hbidlo, hbidhi⟩ := h.bidFrom_mem hk
  have hask : ob.askQty.sum < 2 ^ 31 := h.sum_lt .sell
  have hbid : ob.bidQty.sum < 2 ^ 31 := h.sum_lt .buy
  have himbalance : Word.toSigned 32 (ob.bidFrom (k + ob.lowerLimitPrice) -
      ob.askUpTo (k + ob.lowerLimitPrice)) = ob.imbalanceAt (k + ob.lowerLimitPrice) :=
    Word.toSigned_of_range (by omega) (by omega)
  have href : (k : ℤ) ≤ ob.preClosePrice - ob.lowerLimitPrice ↔
      k + ob.lowerLimitPrice ≤ ob.preClosePrice := le_sub_iff_add_le
  have hlevel : (k : ℤ) + ob.lowerLimitPrice - ob.lowerLimitPrice = k := add_sub_cancel_right _ _
  simp only [improveAt, h.askAccum_eq hk, h.bidAccum_eq hk, himbalance, href, bestAt, hlevel]
  by_cases hbeats : ob.Beats best (k + ob.lowerLimitPrice)
  · exact Or.inl ⟨hbeats, if_pos hbeats⟩
  · exact Or.inr ⟨hbeats, if_neg hbeats⟩

end level

/-! ## The scan -/

/-- The prices of the first `k` levels. -/
def pricesUpTo (ob : OrderBook) (k : ℕ) : Set ℤ :=
  Set.Ico ob.lowerLimitPrice (k + ob.lowerLimitPrice)

theorem pricesUpTo_succ (ob : OrderBook) (k : ℕ) :
    ob.pricesUpTo (k + 1) = insert ((k : ℤ) + ob.lowerLimitPrice) (ob.pricesUpTo k) := by
  ext q
  simp only [pricesUpTo, Set.mem_Ico, Set.mem_insert_iff]
  push_cast
  omega

theorem Sized.pricesUpTo_numLevels (h : ob.Sized) : ob.pricesUpTo ob.numLevels = ob.prices := by
  have hlimits := h.limits
  ext q
  simp only [pricesUpTo, prices, numLevels, Set.mem_Ico, Set.mem_Icc]
  omega

/-- What the scan has found after `k` levels: nothing is matched, or the best level is
    the opening so far. -/
def Scanned (ob : OrderBook) (k : ℕ) (best : Best) : Prop :=
  (best.maxQ = 0 ∧ best.maxI = 0 ∧ ∀ p ∈ ob.pricesUpTo k, ob.matchedAt p = 0) ∨
    ∃ p, best = ob.bestAt p ∧ 0 < ob.matchedAt p ∧ ob.IsOpening (ob.pricesUpTo k) p

/-- A level that beats one at the price `p` is an improvement. -/
theorem beats_bestAt (ob : OrderBook) (p q : ℤ) : ob.Beats (ob.bestAt p) q ↔
    CallAuction.Improves ob.matchedAt (fun q => |ob.imbalanceAt q|) ob.preClosePrice p q := Iff.rfl

theorem Quoted.scanned_step (h : ob.Quoted) {k : ℕ} (hk : k < ob.numLevels) {best : Best}
    (hbest : ob.Scanned k best) : ob.Scanned (k + 1) (ob.improveAt best k) := by
  have habove : ∀ q ∈ ob.pricesUpTo k, q < k + ob.lowerLimitPrice := fun q hq => hq.2
  rw [Scanned, pricesUpTo_succ]
  rcases hbest with ⟨hq, hi, hzero⟩ | ⟨p, rfl, hpos, hopening⟩
  · rcases (h.matchedAt_mem hk).1.lt_or_eq with hpos | heq
    · -- the first level that matches
      right
      have hbeats : ob.Beats best (k + ob.lowerLimitPrice) := by
        left
        rw [hq]
        exact hpos
      rcases h.improveAt_cases hk best with ⟨-, heq⟩ | ⟨hnot, -⟩
      · refine ⟨_, heq, hpos, CallAuction.isOpening_insert_of_lt fun q hq => ?_⟩
        rw [hzero q hq]
        exact hpos
      · exact absurd hbeats hnot
    · left
      have hall : ∀ q ∈ insert ((k : ℤ) + ob.lowerLimitPrice) (ob.pricesUpTo k),
          ob.matchedAt q = 0 := by
        rintro q (rfl | hq)
        · exact heq.symm
        · exact hzero q hq
      rcases h.improveAt_cases hk best with ⟨hbeats, hbest⟩ | ⟨-, hbest⟩
      · have habs : |ob.imbalanceAt (k + ob.lowerLimitPrice)| ≤ 0 := by
          rw [Beats, hq, hi] at hbeats
          rcases hbeats with hlt | ⟨-, hle⟩
          · exact absurd heq hlt.ne
          · split_ifs at hle
            · exact hle
            · exact hle.le
        rw [hbest]
        exact ⟨heq.symm, le_antisymm habs (abs_nonneg _), hall⟩
      · rw [hbest]
        exact ⟨hq, hi, hall⟩
  · right
    rcases h.improveAt_cases hk (ob.bestAt p) with ⟨hbeats, hbest⟩ | ⟨hnot, hbest⟩
    · rw [beats_bestAt] at hbeats
      refine ⟨_, hbest, ?_, hopening.insert_of_improves habove hbeats⟩
      rcases hbeats with hlt | ⟨heq, -⟩
      · exact hpos.trans hlt
      · rw [heq]
        exact hpos
    · rw [beats_bestAt] at hnot
      exact ⟨p, hbest, hpos, hopening.insert_of_not_improves habove hnot⟩

/-- **The scan finds the opening.** -/
theorem Quoted.scanned (h : ob.Quoted) {k : ℕ} (hk : k ≤ ob.numLevels) :
    ob.Scanned k ((List.range k).foldl ob.improveAt {}) := by
  induction k with
  | zero =>
    refine Or.inl ⟨rfl, rfl, fun p hp => ?_⟩
    simp [pricesUpTo] at hp
  | succ k ih =>
    rw [List.range_succ, List.foldl_append]
    exact h.scanned_step hk (ih (by omega))

theorem Quoted.scanned_best (h : ob.Quoted) :
    (ob.best.maxQ = 0 ∧ ∀ p ∈ ob.prices, ob.matchedAt p = 0) ∨
      ∃ p, ob.best = ob.bestAt p ∧ 0 < ob.matchedAt p ∧ ob.IsOpening ob.prices p := by
  have hscanned := h.scanned (le_refl ob.numLevels)
  rw [Scanned, h.pricesUpTo_numLevels] at hscanned
  exact hscanned.imp_left fun ⟨hq, _, hzero⟩ => ⟨hq, hzero⟩

/-! ## The snapshot -/

theorem exists_level {p : ℤ} (hp : p ∈ ob.prices) :
    ∃ k : ℕ, k < ob.numLevels ∧ p = k + ob.lowerLimitPrice := by
  obtain ⟨hlo, hhi⟩ := hp
  refine ⟨(p - ob.lowerLimitPrice).toNat, ?_, ?_⟩
  · rw [numLevels]
    omega
  · omega

theorem Quoted.maxQ_mem (h : ob.Quoted) :
    0 ≤ ob.best.maxQ ∧ ob.best.maxQ ≤ ob.askQty.sum ∧ ob.best.maxQ ≤ ob.bidQty.sum := by
  rcases h.scanned_best with ⟨hq, -⟩ | ⟨p, hbest, -, hopening⟩
  · rw [hq]
    exact ⟨le_refl 0, List.sum_nonneg (h.nonneg .sell), List.sum_nonneg (h.nonneg .buy)⟩
  · rw [hbest]
    obtain ⟨k, hk, rfl⟩ := exists_level hopening.optimal.1
    exact h.matchedAt_mem hk

/-- What remains of a side. -/
theorem Quoted.remain_eq (h : ob.Quoted) (side : Side) {q : ℤ} (hlo : 0 ≤ q)
    (hhi : q ≤ (ob.qty side).sum) :
    Word.toSigned 32 (Word.toSigned 32 (total (ob.qty side) (List.range ob.numLevels)) - q) =
      (ob.qty side).sum - q := by
  have hlt := h.sum_lt side
  rw [h.toSigned_total side (List.Sublist.refl _), h.total_range side]
  exact Word.toSigned_of_range (by omega) (by omega)

theorem Quoted.virtualOpening_openAt (h : ob.Quoted) (snapshots : List Snap) :
    ob.VirtualOpening { ob.resetCounters.openAt ob.best with snapshots } := by
  obtain ⟨hlo, hask, hbid⟩ := h.maxQ_mem
  have haskRemain := h.remain_eq .sell hlo hask
  have hbidRemain := h.remain_eq .buy hlo hbid
  rcases h.scanned_best with ⟨hq, hzero⟩ | ⟨p, hbest, hpos, hopening⟩
  · constructor
    case isGreatest =>
      rintro ⟨p, hp⟩
      refine ⟨⟨p, hp, (hzero p hp).trans hq.symm⟩, ?_⟩
      rintro _ ⟨q, hqp, rfl⟩
      exact ((hzero q hqp).trans hq.symm).le
    case matched_of_empty => exact fun _ => hq
    case matchedAt_price => exact fun hne => absurd hq hne
    case isOpening => exact fun hne => absurd hq hne
    case unmatched => exact fun hne => absurd hq hne
    case price_of_zero => exact fun hq => if_neg (not_not.2 hq)
    case unmatched_of_zero => exact fun hq => if_neg (not_not.2 hq)
    case askRemain => exact haskRemain
    case bidRemain => exact hbidRemain
  · have hq : ob.best.maxQ = ob.matchedAt p := congrArg Best.maxQ hbest
    have hne : ob.best.maxQ ≠ 0 := by
      rw [hq]
      exact hpos.ne'
    have hprice : ob.best.maxP + ob.lowerLimitPrice = p := by
      rw [hbest]
      exact sub_add_cancel p ob.lowerLimitPrice
    obtain ⟨hp, hmax⟩ := hopening.optimal
    simp only [openAt, if_pos hne]
    constructor
    case isGreatest =>
      intro _
      refine ⟨⟨p, hp, hq.symm⟩, ?_⟩
      rintro _ ⟨r, hr, rfl⟩
      exact ((hmax r hr).elim le_of_lt fun heq => heq.1.le).trans hq.ge
    case matched_of_empty =>
      intro hempty
      rw [hempty] at hp
      exact absurd hp (Set.notMem_empty p)
    case matchedAt_price => exact fun _ => (congrArg ob.matchedAt hprice).trans hq.symm
    case isOpening =>
      intro _
      rw [← hprice] at hopening
      exact hopening
    case unmatched =>
      intro _
      refine Eq.trans ?_ (congrArg ob.imbalanceAt hprice.symm)
      exact congrArg Best.maxISigned hbest
    case price_of_zero => exact fun heq => absurd heq hne
    case unmatched_of_zero => exact fun heq => absurd heq hne
    case askRemain => exact haskRemain
    case bidRemain => exact hbidRemain

/-- **A snapshot before the first trade has the virtual opening of the book.** -/
theorem virtualOpening_snapUpdate (h : ob.Quoted) (hopen : ob.openPrice = 0) (timestamp : ℤ) :
    ∃ ob', ob.snapUpdate timestamp = some ob' ∧ ob.VirtualOpening ob' := by
  obtain ⟨levels, hsnap⟩ := h.snapUpdate_auction hopen timestamp
  exact ⟨_, hsnap, h.virtualOpening_openAt _⟩

/-- A bid at 1001 and an ask at 1000. -/
def crossed : OrderBook :=
  { bidQty := [0, 300, 0], askQty := [200, 0, 0], lowerLimitPrice := 1000, upperLimitPrice := 1002,
    preClosePrice := 1001 }

theorem virtualOpening_snapUpdate_crossed :
    ∃ ob', crossed.snapUpdate 91800000 = some ob' ∧ crossed.VirtualOpening ob' := by
  have hnonneg : ∀ side, ∀ x ∈ crossed.qty side, 0 ≤ x := by
    intro side
    cases side <;> decide
  have hsum : ∀ side, (crossed.qty side).sum < 2 ^ 31 := by
    intro side
    cases side <;> decide
  exact virtualOpening_snapUpdate ⟨⟨rfl, rfl, by decide⟩, hnonneg, hsum⟩ rfl 91800000

end OrderBook

end L2
