/-
  What the operations of a book do to its snapshots.

  * `Sized`: a book has as many levels as prices between its limits.  `initStat`
    makes it so, and the other operations keep it;
  * `addTick_cases`: a trade adds to the counters, another tick leaves them alone;
  * `accumulate_eq`, `scanLevels_eq`: the loops over the levels;
  * `Sized.snapUpdate`: a snapshot is appended, with the counters, which start again
    from zero.
-/
import Mdd2.Lib.Run
import Mdd2.Proof.BookLevels
import Mdd2.SnapUpdate

namespace L2

open Exchange (Side)

namespace OrderBook

structure Sized (ob : OrderBook) : Prop where
  bidQty : ob.bidQty.length = ob.numLevels
  askQty : ob.askQty.length = ob.numLevels
  limits : ob.lowerLimitPrice ≤ ob.upperLimitPrice + 1

/-- The book is the same, but for the levels, the kept prices and the prices seen. -/
structure Frame (ob ob' : OrderBook) : Prop where
  bidQty : ob'.bidQty.length = ob.bidQty.length
  askQty : ob'.askQty.length = ob.askQty.length
  lowerLimitPrice : ob'.lowerLimitPrice = ob.lowerLimitPrice
  upperLimitPrice : ob'.upperLimitPrice = ob.upperLimitPrice
  snapshots : ob'.snapshots = ob.snapshots
  lastTimestamp : ob'.lastTimestamp = ob.lastTimestamp
  numTrades : ob'.numTrades = ob.numTrades
  volume : ob'.volume = ob.volume
  amount : ob'.amount = ob.amount

variable {ob ob' : OrderBook}

theorem Sized.initStat {stat : Stat} (h : OrderBook.initStat stat = some ob) :
    ob.Sized ∧ ob.snapshots = [] ∧ ob.lastTimestamp = 91500000 ∧
      ob.numTrades = 0 ∧ ob.volume = 0 ∧ ob.amount = 0 := by
  rw [OrderBook.initStat] at h
  split at h
  case isTrue => exact absurd h (by simp)
  case isFalse hlevels =>
    obtain rfl := Option.some.inj h
    exact ⟨⟨List.length_replicate, List.length_replicate, by dsimp only; omega⟩, rfl, rfl, rfl,
      rfl, rfl⟩

theorem Sized.qty (h : ob.Sized) (side : Side) : (ob.qty side).length = ob.numLevels := by
  cases side
  · exact h.bidQty
  · exact h.askQty

theorem Sized.lt_length (h : ob.Sized) (side : Side) {p : ℕ} (hp : p ∈ List.range ob.numLevels) :
    p < (ob.qty side).length := by
  rw [h.qty side]
  exact List.mem_range.1 hp

theorem Sized.of_length (h : ob.Sized) (hbid : ob'.bidQty.length = ob.bidQty.length)
    (hask : ob'.askQty.length = ob.askQty.length)
    (hlower : ob'.lowerLimitPrice = ob.lowerLimitPrice)
    (hupper : ob'.upperLimitPrice = ob.upperLimitPrice) : ob'.Sized := by
  have hnum : ob'.numLevels = ob.numLevels := by rw [numLevels, hlower, hupper, numLevels]
  refine ⟨?_, ?_, ?_⟩
  · rw [hbid, hnum, h.bidQty]
  · rw [hask, hnum, h.askQty]
  · rw [hlower, hupper]
    exact h.limits

theorem Sized.of_frame (h : ob.Sized) (hf : ob.Frame ob') : ob'.Sized :=
  h.of_length hf.bidQty hf.askQty hf.lowerLimitPrice hf.upperLimitPrice

/-! ## Ticks -/

theorem Frame.refl (ob : OrderBook) : ob.Frame ob := ⟨rfl, rfl, rfl, rfl, rfl, rfl, rfl, rfl, rfl⟩

theorem Frame.trans {ob'' : OrderBook} (h : ob.Frame ob') (h' : ob'.Frame ob'') :
    ob.Frame ob'' where
  bidQty := h'.bidQty.trans h.bidQty
  askQty := h'.askQty.trans h.askQty
  lowerLimitPrice := h'.lowerLimitPrice.trans h.lowerLimitPrice
  upperLimitPrice := h'.upperLimitPrice.trans h.upperLimitPrice
  snapshots := h'.snapshots.trans h.snapshots
  lastTimestamp := h'.lastTimestamp.trans h.lastTimestamp
  numTrades := h'.numTrades.trans h.numTrades
  volume := h'.volume.trans h.volume
  amount := h'.amount.trans h.amount

theorem frame_addQtyAt {side : Side} {price quantity : ℤ}
    (h : ob.addQtyAt side price quantity = some ob') : ob.Frame ob' := by
  obtain ⟨i, -, h⟩ := Option.bind_eq_some_iff.1 h
  obtain ⟨x, -, h⟩ := Option.bind_eq_some_iff.1 h
  obtain rfl := Option.some.inj h
  cases side
  · exact ⟨List.length_set, rfl, rfl, rfl, rfl, rfl, rfl, rfl, rfl⟩
  · exact ⟨rfl, List.length_set, rfl, rfl, rfl, rfl, rfl, rfl, rfl⟩

theorem frame_keepPrice (ob : OrderBook) (tick : Tick) : ob.Frame (ob.keepPrice tick).1 := by
  rw [keepPrice]
  split
  · split
    · exact ⟨rfl, rfl, rfl, rfl, rfl, rfl, rfl, rfl, rfl⟩
    · exact Frame.refl ob
  · split
    · exact ⟨rfl, rfl, rfl, rfl, rfl, rfl, rfl, rfl, rfl⟩
    · exact Frame.refl ob

theorem frame_fillAt {side : Side} {orderNo quantity : ℤ}
    (h : ob.fillAt side orderNo quantity = some ob') : ob.Frame ob' := by
  rw [fillAt] at h
  split at h
  · exact frame_addQtyAt h
  · obtain rfl := Option.some.inj h
    exact Frame.refl ob

/-- A trade counts. -/
def count (ob : OrderBook) (tick : Tick) : OrderBook :=
  { ob with
    numTrades := Word.toSigned 32 (ob.numTrades + 1)
    volume := Word.toSigned 32 (ob.volume + tick.quantity)
    amount := Word.toSigned 64 (ob.amount + tick.price * tick.quantity) }

/-- **A tick** that is a trade counts, and other ticks do not. -/
theorem addTick_cases {tick tick' : Tick} (h : ob.addTick tick = some (ob', tick')) :
    if tick.isTrade then (ob.count tick).Frame ob' else ob.Frame ob' := by
  by_cases horder : tick.isOrder
  · have htrade : ¬tick.isTrade := by
      simp only [Tick.isOrder, Tick.isTrade] at horder ⊢
      by_cases hb : tick.buyOrderNo = 0 <;> simp_all
    rw [if_neg htrade]
    rw [addTick_of_isOrder horder] at h
    obtain ⟨ob₁, hob₁, h⟩ := Option.map_eq_some_iff.1 h
    obtain ⟨rfl, -⟩ := Prod.mk.inj h
    split at hob₁
    · exact (frame_keepPrice ob tick).trans (frame_addQtyAt hob₁)
    · obtain rfl := Option.some.inj hob₁
      exact frame_keepPrice ob tick
  · rw [addTick, if_neg horder] at h
    split at h
    case isTrue htrade =>
      rw [if_pos htrade]
      obtain ⟨ob₁, hob₁, h⟩ := Option.bind_eq_some_iff.1 h
      obtain ⟨ob₂, hob₂, h⟩ := Option.bind_eq_some_iff.1 h
      obtain ⟨rfl, -⟩ := Prod.mk.inj (Option.some.inj h)
      have hf := (frame_fillAt hob₁).trans (frame_fillAt hob₂)
      constructor
      · exact hf.bidQty
      · exact hf.askQty
      · exact hf.lowerLimitPrice
      · exact hf.upperLimitPrice
      · exact hf.snapshots
      · exact hf.lastTimestamp
      · dsimp only [count]
        rw [hf.numTrades]
      · dsimp only [count]
        rw [hf.volume]
      · dsimp only [count]
        rw [hf.amount]
    case isFalse htrade =>
      rw [if_neg htrade]
      obtain ⟨rfl, -⟩ := Prod.mk.inj (Option.some.inj h)
      exact Frame.refl ob

theorem Sized.addTick {tick tick' : Tick} (h : ob.Sized)
    (hadd : ob.addTick tick = some (ob', tick')) : ob'.Sized := by
  have hcases := addTick_cases hadd
  split at hcases
  · exact (h.of_length rfl rfl rfl rfl : (ob.count tick).Sized).of_frame hcases
  · exact h.of_frame hcases

/-! ## The loops over the levels -/

/-- The quantity on a level. -/
def qtyOn (qty : List ℤ) (p : ℕ) : ℤ := qty.getD p 0

theorem getElem?_eq_qtyOn {qty : List ℤ} {p : ℕ} (hp : p < qty.length) :
    qty[p]? = some (qtyOn qty p) := by
  rw [qtyOn, List.getD_eq_getElem _ _ hp, List.getElem?_eq_getElem hp]

/-- The quantities on some levels. -/
def total (qty : List ℤ) (levels : List ℕ) : ℤ := (levels.map (qtyOn qty)).sum

theorem total_append (qty : List ℤ) (levels levels' : List ℕ) :
    total qty (levels ++ levels') = total qty levels + total qty levels' := by
  simp [total]

/-- **The cumulative quantities** of one side, as they wrap. -/
theorem accumulate_eq {qty accum : List ℤ} {levels : List ℕ} (hnodup : levels.Nodup)
    (hlt : ∀ p ∈ levels, p < qty.length ∧ p < accum.length) :
    ∃ accum', accumulate qty levels accum = some (Word.toSigned 32 (total qty levels), accum') ∧
      accum'.length = accum.length ∧ ∀ l p, l ++ [p] <+: levels →
        accum'[p]? = some (Word.toSigned 32 (total qty (l ++ [p]))) := by
  induction levels using List.reverseRecOn with
  | nil => exact ⟨accum, rfl, rfl, fun l p hl => by simp at hl⟩
  | append_singleton levels p ih =>
    obtain ⟨hlevels, -, hdisjoint⟩ := List.nodup_append.1 hnodup
    obtain ⟨accum₁, h₁, hlen₁, hget₁⟩ := ih hlevels fun q hq =>
      hlt q (List.mem_append_left [p] hq)
    obtain ⟨hqty, haccum⟩ := hlt p (by simp)
    refine ⟨accum₁.set p (Word.toSigned 32 (total qty (levels ++ [p]))), ?_, ?_, ?_⟩
    · have hsum : Word.toSigned 32 (Word.toSigned 32 (total qty levels) + qtyOn qty p) =
          Word.toSigned 32 (total qty (levels ++ [p])) := by
        rw [Word.toSigned_add, total_append]
        simp [total]
      rw [accumulate] at h₁
      rw [accumulate, List.foldlM_append, h₁]
      simp [getElem?_eq_qtyOn hqty, hsum, hlen₁, haccum]
    · rw [List.length_set, hlen₁]
    · intro l q hl
      rcases List.prefix_concat_iff.1 hl with heq | hpre
      · obtain ⟨rfl, hq⟩ := List.append_inj' heq rfl
        obtain rfl := List.singleton_inj.1 hq
        rw [List.getElem?_set_self (by omega)]
      · have hq : q ∈ levels := hpre.subset (by simp)
        have hne : p ≠ q := fun he => hdisjoint q hq p (by simp) he.symm
        rw [List.getElem?_set_ne hne, hget₁ l q hpre]

/-- The levels with a quantity, as price and quantity. -/
def levelsWithQty (qty : List ℤ) (lowerLimitPrice : ℤ) (levels : List ℕ) : List (ℤ × ℤ) :=
  (levels.filter fun p => qtyOn qty p ≠ 0).map fun (p : ℕ) =>
    (p + lowerLimitPrice, qtyOn qty p)

/-- The stores of consecutive levels of a snapshot. -/
def levelStores (price quantity : SnapArray) : ℕ → List (ℤ × ℤ) → List Store
  | _, [] => []
  | level, (p, x) :: rest =>
    ⟨price, level, p⟩ :: ⟨quantity, level, x⟩ :: levelStores price quantity (level + 1) rest

/-- **The scan of a side** stores its first levels with a quantity, up to the end of the
    arrays, and at least one. -/
theorem scanLevels_eq {qty : List ℤ} {lowerLimitPrice : ℤ} {price quantity : SnapArray}
    {levels : List ℕ} (hlt : ∀ p ∈ levels, p < qty.length) (level : ℕ) :
    scanLevels qty lowerLimitPrice price quantity levels level =
      some (level + ((levelsWithQty qty lowerLimitPrice levels).take
          (max 1 (kBookLevels - level))).length,
        levelStores price quantity level ((levelsWithQty qty lowerLimitPrice levels).take
          (max 1 (kBookLevels - level)))) := by
  induction levels generalizing level with
  | nil => simp [scanLevels, levelsWithQty, levelStores]
  | cons p levels ih =>
    have hrest : ∀ q ∈ levels, q < qty.length := fun q hq => hlt q (List.mem_cons_of_mem p hq)
    rw [scanLevels, getElem?_eq_qtyOn (hlt p List.mem_cons_self), Option.bind_eq_bind,
      Option.bind_some]
    by_cases hx : qtyOn qty p = 0
    · have hskip : levelsWithQty qty lowerLimitPrice (p :: levels) =
          levelsWithQty qty lowerLimitPrice levels := by
        simp [levelsWithQty, hx]
      rw [if_neg (not_not.2 hx), hskip, ih hrest]
    · have hcons : levelsWithQty qty lowerLimitPrice (p :: levels) =
          (p + lowerLimitPrice, qtyOn qty p) :: levelsWithQty qty lowerLimitPrice levels := by
        simp [levelsWithQty, hx]
      rw [if_pos hx, hcons]
      by_cases hend : level + 1 ≥ kBookLevels
      · rw [show max 1 (kBookLevels - level) = 1 by omega]
        simp only [if_pos hend]
        rfl
      · rw [show max 1 (kBookLevels - level) = max 1 (kBookLevels - (level + 1)) + 1 by omega]
        simp only [if_neg hend, ih hrest, List.take_succ_cons, List.length_cons, levelStores]
        rw [Nat.add_right_comm level 1, Nat.add_assoc level]
        rfl

/-! ## Stores -/

theorem store_eq (snap : Snap) {s : Store} (h : s.array.offset + s.index < 4 * kBookLevels) :
    ∃ levels, snap.store s = some { snap with levels } := by
  rw [Snap.store, if_pos h]
  exact ⟨_, rfl⟩

theorem offset_add_lt (a : SnapArray) {index : ℕ} (h : index < kBookLevels) :
    a.offset + index < 4 * kBookLevels := by
  rw [kBookLevels] at h
  cases a <;> simp only [SnapArray.offset, kBookLevels] <;> omega

/-- Stores inside of a snapshot change its arrays only. -/
theorem foldlM_store_eq (snap : Snap) {stores : List Store}
    (h : ∀ s ∈ stores, s.array.offset + s.index < 4 * kBookLevels) :
    ∃ levels, stores.foldlM Snap.store snap = some { snap with levels } := by
  induction stores generalizing snap with
  | nil => exact ⟨snap.levels, rfl⟩
  | cons s stores ih =>
    obtain ⟨levels, hs⟩ := store_eq snap (h s List.mem_cons_self)
    obtain ⟨levels', hrest⟩ := ih { snap with levels } fun s hs => h s (List.mem_cons_of_mem _ hs)
    rw [List.foldlM_cons, hs]
    exact ⟨levels', hrest⟩

theorem mem_levelStores {price quantity : SnapArray} {level : ℕ} {l : List (ℤ × ℤ)} {s : Store}
    (h : s ∈ levelStores price quantity level l) :
    (s.array = price ∨ s.array = quantity) ∧ level ≤ s.index ∧ s.index < level + l.length := by
  induction l generalizing level with
  | nil => exact absurd h List.not_mem_nil
  | cons x l ih =>
    rw [List.length_cons]
    rcases List.mem_cons.1 h with rfl | h
    · exact ⟨Or.inl rfl, le_refl _, by dsimp only; omega⟩
    · rcases List.mem_cons.1 h with rfl | h
      · exact ⟨Or.inr rfl, le_refl _, by dsimp only; omega⟩
      · obtain ⟨harray, hlo, hhi⟩ := ih h
        exact ⟨harray, by omega, by omega⟩

/-! ## A snapshot -/

/-- The levels of the ask side that a snapshot shows. -/
def topAsks (ob : OrderBook) : List (ℤ × ℤ) :=
  (levelsWithQty ob.askQty ob.lowerLimitPrice (List.range ob.numLevels)).take kBookLevels

/-- The levels of the bid side, the highest price first. -/
def bids (ob : OrderBook) : List (ℤ × ℤ) :=
  levelsWithQty ob.bidQty ob.lowerLimitPrice (List.range ob.numLevels).reverse

/-- **The stores of the continuous branch**: the bids follow the asks. -/
theorem Sized.continuousStores (h : ob.Sized) : ob.continuousStores =
    some (levelStores .askPrice .askQuantity 0 ob.topAsks ++
      levelStores .bidPrice .bidQuantity ob.topAsks.length
        (ob.bids.take (max 1 (kBookLevels - ob.topAsks.length)))) := by
  have hask : ∀ p ∈ List.range ob.numLevels, p < ob.askQty.length := fun p hp =>
    h.lt_length .sell hp
  have hbid : ∀ p ∈ (List.range ob.numLevels).reverse, p < ob.bidQty.length := fun p hp =>
    h.lt_length .buy (List.mem_reverse.1 hp)
  have htop : max 1 (kBookLevels - 0) = kBookLevels := by decide
  simp only [OrderBook.continuousStores, scanLevels_eq hask, scanLevels_eq hbid, htop,
    Option.bind_eq_bind, Option.bind_some, topAsks, bids, Nat.zero_add]

theorem length_topAsks_le (ob : OrderBook) : ob.topAsks.length ≤ kBookLevels := by
  simp [topAsks]

/-- What can be bought up to a level, as the auction branch computes it. -/
def askAccum (ob : OrderBook) (p : ℕ) : ℤ :=
  Word.toSigned 32 (total ob.askQty (List.range (p + 1)))

/-- What can be sold from a level on. -/
def bidAccum (ob : OrderBook) (p : ℕ) : ℤ :=
  Word.toSigned 32 (total ob.bidQty (List.range' p (ob.numLevels - p)))

/-- The loop of the auction branch on a level. -/
def improveAt (ob : OrderBook) (best : Best) (p : ℕ) : Best :=
  let imbalanceSigned := Word.toSigned 32 (ob.bidAccum p - ob.askAccum p)
  if min (ob.askAccum p) (ob.bidAccum p) > best.maxQ ∨
      min (ob.askAccum p) (ob.bidAccum p) = best.maxQ ∧
        (if (p : ℤ) ≤ ob.preClosePrice - ob.lowerLimitPrice then |imbalanceSigned| ≤ best.maxI
          else |imbalanceSigned| < best.maxI) then
    ⟨min (ob.askAccum p) (ob.bidAccum p), |imbalanceSigned|, imbalanceSigned, p⟩
  else best

/-- The best level of all. -/
def best (ob : OrderBook) : Best := (List.range ob.numLevels).foldl ob.improveAt {}

/-- The book with the virtual opening at a level. -/
def openAt (ob : OrderBook) (best : Best) : OrderBook :=
  { ob with
    virtOpenPrice := if best.maxQ ≠ 0 then best.maxP + ob.lowerLimitPrice else ob.preClosePrice
    virtOpenMatchedQty := best.maxQ
    virtOpenUnmatchedQty := if best.maxQ ≠ 0 then best.maxISigned else 0
    virtOpenAskRemainQty := Word.toSigned 32
      (Word.toSigned 32 (total ob.askQty (List.range ob.numLevels)) - best.maxQ)
    virtOpenBidRemainQty := Word.toSigned 32
      (Word.toSigned 32 (total ob.bidQty (List.range ob.numLevels)) - best.maxQ) }

theorem total_reverse (qty : List ℤ) (levels : List ℕ) :
    total qty levels.reverse = total qty levels := by
  rw [total, List.map_reverse, List.sum_reverse, total]

theorem range'_append_sub (s : ℕ) {n p : ℕ} (hp : p ≤ n) :
    List.range' s p ++ List.range' (s + p) (n - p) = List.range' s n := by
  rw [List.range'_append_1, Nat.add_sub_of_le hp]

theorem range'_succ_sub {n p : ℕ} (hp : p < n) :
    List.range' p (n - p) = p :: List.range' (p + 1) (n - (p + 1)) := by
  rw [show n - p = n - (p + 1) + 1 by omega]
  rfl

/-- The levels from `n - 1` down to `p` begin the loop over the bid side. -/
theorem prefix_reverse_range {n p : ℕ} (hp : p < n) :
    (List.range' (p + 1) (n - (p + 1))).reverse ++ [p] <+: (List.range n).reverse := by
  have happend := range'_append_sub 0 hp.le
  rw [Nat.zero_add] at happend
  rw [← List.reverse_cons, ← range'_succ_sub hp, List.reverse_prefix, List.range_eq_range']
  exact ⟨_, happend⟩

/-- **The auction branch.** -/
theorem Sized.virtOpen (h : ob.Sized) :
    ob.virtOpen = some (ob.openAt ob.best, ob.best.maxISigned) := by
  have hask : ∀ p ∈ List.range ob.numLevels,
      p < ob.askQty.length ∧ p < (List.replicate ob.numLevels (0 : ℤ)).length := fun p hp => by
    rw [List.length_replicate]
    exact ⟨h.lt_length .sell hp, List.mem_range.1 hp⟩
  have hbid : ∀ p ∈ (List.range ob.numLevels).reverse,
      p < ob.bidQty.length ∧ p < (List.replicate ob.numLevels (0 : ℤ)).length := fun p hp => by
    rw [List.mem_reverse] at hp
    rw [List.length_replicate]
    exact ⟨h.lt_length .buy hp, List.mem_range.1 hp⟩
  obtain ⟨asks, hasks, -, hask'⟩ := accumulate_eq List.nodup_range hask
  obtain ⟨bids, hbids, -, hbid'⟩ := accumulate_eq (List.nodup_reverse.2 List.nodup_range) hbid
  have himprove : ∀ best, ∀ p ∈ List.range ob.numLevels,
      Best.improve ob asks bids best p = some (ob.improveAt best p) := by
    intro best p hp
    rw [List.mem_range] at hp
    have hprefix : List.range p ++ [p] <+: List.range ob.numLevels := by
      rw [← List.range_succ, List.prefix_iff_eq_take, List.length_range, List.take_range,
        Nat.min_eq_left hp]
    have ha : asks[p]? = some (ob.askAccum p) := by
      rw [hask' _ p hprefix, askAccum, List.range_succ]
    have hb : bids[p]? = some (ob.bidAccum p) := by
      rw [hbid' _ p (prefix_reverse_range hp), bidAccum, range'_succ_sub hp, ← List.reverse_cons,
        total_reverse]
    rw [Best.improve, ha, hb, improveAt]
    simp only [Option.bind_eq_bind, Option.bind_some]
    split_ifs <;> rfl
  simp only [OrderBook.virtOpen, hasks, hbids, Run.foldlM_eq_foldl himprove, Option.bind_eq_bind,
    Option.bind_some, total_reverse]
  rw [← best, openAt]
  split_ifs with hq
  · rfl
  · rw [not_not] at hq
    rw [hq]

/-- The book with the counters at zero. -/
def resetCounters (ob : OrderBook) : OrderBook :=
  { ob with numTrades := 0, volume := 0, amount := 0 }

theorem Sized.resetCounters (h : ob.Sized) : ob.resetCounters.Sized :=
  ⟨h.bidQty, h.askQty, h.limits⟩

theorem snapUpdate_eq (ob : OrderBook) (timestamp : ℤ) : ob.snapUpdate timestamp =
    (if ob.openPrice = 0 then
      ob.resetCounters.virtOpen.bind fun r => some (r.1, r.1.auctionStores r.2)
    else ob.resetCounters.continuousStores.bind fun stores => some (ob.resetCounters, stores)).bind
      fun r => (r.2.foldlM Snap.store (ob.newSnap timestamp)).bind fun snap =>
        some { r.1 with snapshots := r.1.snapshots ++ [snap] } := by
  rw [snapUpdate]
  split_ifs
  · cases h : ob.resetCounters.virtOpen <;> rw [OrderBook.resetCounters] at h <;>
      simp only [h, Option.bind_eq_bind] <;> rfl
  · cases h : ob.resetCounters.continuousStores <;> rw [OrderBook.resetCounters] at h <;>
      simp only [h, Option.bind_eq_bind] <;> rfl

theorem foldlM_store_auction (ob : OrderBook) (maxISigned : ℤ) (snap : Snap) :
    ∃ levels, (ob.auctionStores maxISigned).foldlM Snap.store snap = some { snap with levels } := by
  have hindex : ∀ s ∈ ob.auctionStores maxISigned, s.index ≤ 1 := by
    rw [auctionStores]
    split_ifs <;> simp
  exact foldlM_store_eq snap fun s hs =>
    offset_add_lt s.array ((hindex s hs).trans_lt (by decide))

theorem Sized.foldlM_store_continuous (h : ob.Sized) (snap : Snap) {stores : List Store}
    (hstores : ob.continuousStores = some stores) :
    ∃ levels, stores.foldlM Snap.store snap = some { snap with levels } := by
  rw [h.continuousStores] at hstores
  obtain rfl := Option.some.inj hstores
  refine foldlM_store_eq snap fun s hs => ?_
  have hlen := ob.length_topAsks_le
  rcases List.mem_append.1 hs with hs | hs
  · obtain ⟨-, -, hindex⟩ := mem_levelStores hs
    exact offset_add_lt s.array (by omega)
  · -- a bid past the end of its array is in the next one
    obtain ⟨harray, -, hindex⟩ := mem_levelStores hs
    rw [kBookLevels] at hlen ⊢
    rw [List.length_take, kBookLevels] at hindex
    rcases harray with harray | harray <;> rw [harray] <;>
      simp only [SnapArray.offset, kBookLevels] <;> omega

theorem Sized.snapUpdate_auction (h : ob.Sized) (hopen : ob.openPrice = 0) (timestamp : ℤ) :
    ∃ levels, ob.snapUpdate timestamp = some { ob.resetCounters.openAt ob.best with
      snapshots := ob.snapshots ++ [{ ob.newSnap timestamp with levels }] } := by
  obtain ⟨levels, hstores⟩ := foldlM_store_auction (ob.resetCounters.openAt ob.best)
    ob.best.maxISigned (ob.newSnap timestamp)
  have hvirt : ob.resetCounters.virtOpen =
    some (ob.resetCounters.openAt ob.best, ob.best.maxISigned) := h.resetCounters.virtOpen
  refine ⟨levels, ?_⟩
  rw [snapUpdate_eq, if_pos hopen, hvirt, Option.bind_some, Option.bind_some, hstores,
    Option.bind_some]
  rfl

theorem Sized.snapUpdate_continuous (h : ob.Sized) (hopen : ob.openPrice ≠ 0) (timestamp : ℤ) :
    ∃ stores levels, ob.continuousStores = some stores ∧
      stores.foldlM Snap.store (ob.newSnap timestamp) =
        some { ob.newSnap timestamp with levels } ∧
      ob.snapUpdate timestamp = some { ob.resetCounters with
        snapshots := ob.snapshots ++ [{ ob.newSnap timestamp with levels }] } := by
  have hstores := h.continuousStores
  obtain ⟨levels, hlevels⟩ := h.foldlM_store_continuous (ob.newSnap timestamp) hstores
  have hreset : ob.resetCounters.continuousStores = ob.continuousStores := rfl
  refine ⟨_, levels, hstores, hlevels, ?_⟩
  rw [snapUpdate_eq, if_neg hopen, hreset, hstores, Option.bind_some, Option.bind_some, hlevels,
    Option.bind_some]
  rfl

/-- **A snapshot is appended**, with the counters, which start again. -/
theorem Sized.snapUpdate (h : ob.Sized) (timestamp : ℤ) :
    ∃ ob' levels, ob.snapUpdate timestamp = some ob' ∧ ob'.Sized ∧
      ob'.snapshots = ob.snapshots ++ [{ ob.newSnap timestamp with levels }] ∧
      ob'.lastTimestamp = ob.lastTimestamp ∧
      ob'.numTrades = 0 ∧ ob'.volume = 0 ∧ ob'.amount = 0 := by
  by_cases hopen : ob.openPrice = 0
  · obtain ⟨levels, hsnap⟩ := h.snapUpdate_auction hopen timestamp
    exact ⟨_, levels, hsnap, ⟨h.bidQty, h.askQty, h.limits⟩, rfl, rfl, rfl, rfl, rfl⟩
  · obtain ⟨-, levels, -, -, hsnap⟩ := h.snapUpdate_continuous hopen timestamp
    exact ⟨_, levels, hsnap, ⟨h.bidQty, h.askQty, h.limits⟩, rfl, rfl, rfl, rfl, rfl⟩

end OrderBook

end L2
