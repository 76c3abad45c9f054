/-
  The best levels in a snapshot of continuous trading.

  The scan of the bids begins at the level of the snapshot where the scan of the asks
  has stopped.

  * `pricesWithQty` are the prices of a side with a quantity, in ascending order
    (`mem_pricesWithQty`, `pricesWithQty_sorted`);
  * `array_levelStores`: what the stores of a side leave in the arrays;
  * `topOfBook_iff`: a snapshot shows the top of the book exactly if a side is empty.
-/
import Mdd2.Proof.SnapUpdate

namespace L2

open Exchange (Side)

namespace OrderBook

variable {ob : OrderBook}

/-! ## Prices of a side -/

/-- The prices of a side with a quantity other than zero, and the quantities. -/
def pricesWithQty (ob : OrderBook) (side : Side) : List (ℤ × ℤ) :=
  levelsWithQty (ob.qty side) ob.lowerLimitPrice (List.range ob.numLevels)

theorem mem_pricesWithQty (h : ob.Sized) {side : Side} {p x : ℤ} :
    (p, x) ∈ ob.pricesWithQty side ↔ ob.qtyAt side p = some x ∧ x ≠ 0 := by
  have hlen := h.qty side
  simp only [pricesWithQty, levelsWithQty, List.mem_map, List.mem_filter, List.mem_range,
    decide_eq_true_eq, Prod.mk.injEq]
  rw [qtyAt, level]
  have hlimits := h.limits
  constructor
  · rintro ⟨n, ⟨hn, hx⟩, rfl, rfl⟩
    have hrange := hn
    rw [numLevels] at hrange
    rw [if_pos ⟨by omega, by omega⟩, Option.bind_eq_bind, Option.bind_some,
      show ((n : ℤ) + ob.lowerLimitPrice - ob.lowerLimitPrice).toNat = n by omega]
    exact ⟨getElem?_eq_qtyOn (by rwa [hlen]), hx⟩
  · rintro ⟨hqty, hx⟩
    obtain ⟨n, hlevel, hget⟩ := Option.bind_eq_some_iff.1 hqty
    rw [Option.ite_none_right_eq_some, Option.some.injEq] at hlevel
    obtain ⟨⟨hlo, hhi⟩, rfl⟩ := hlevel
    have hlt := (List.getElem?_eq_some_iff.1 hget).1
    rw [getElem?_eq_qtyOn hlt, Option.some.injEq] at hget
    exact ⟨_, ⟨by rwa [hlen] at hlt, by rwa [hget]⟩, by omega, hget⟩

theorem pricesWithQty_sorted (ob : OrderBook) (side : Side) :
    (ob.pricesWithQty side).Pairwise fun a b => a.1 < b.1 := by
  rw [pricesWithQty, levelsWithQty, List.pairwise_map]
  refine (List.Pairwise.filter _ List.pairwise_lt_range).imp fun hlt => ?_
  dsimp only
  omega

theorem pricesWithQty_eq_nil (h : ob.Sized) (side : Side) :
    ob.pricesWithQty side = [] ↔ ∀ x ∈ ob.qty side, x = 0 := by
  have hlen := h.qty side
  rw [pricesWithQty, levelsWithQty, List.map_eq_nil_iff, List.filter_eq_nil_iff]
  simp only [List.mem_range, decide_eq_true_eq, not_not]
  constructor
  · intro hzero x hx
    obtain ⟨n, hn, rfl⟩ := List.getElem_of_mem hx
    have h0 := hzero n (by rwa [← hlen])
    rwa [qtyOn, List.getD_eq_getElem _ _ hn] at h0
  · intro hzero n hn
    rw [← hlen] at hn
    rw [qtyOn, List.getD_eq_getElem _ _ hn]
    exact hzero _ (List.getElem_mem hn)

theorem topAsks_eq (ob : OrderBook) : ob.topAsks = (ob.pricesWithQty .sell).take kBookLevels := rfl

theorem bids_eq (ob : OrderBook) : ob.bids = (ob.pricesWithQty .buy).reverse := by
  rw [bids, levelsWithQty, List.filter_reverse, List.map_reverse]
  rfl

/-! ## Arrays -/

theorem length_array (snap : Snap) (a : SnapArray) : (snap.array a).length = kBookLevels := by
  rw [Snap.array, List.length_take, List.length_drop, Vector.length_toList]
  cases a <;> rfl

/-- A store inside of its array. -/
theorem array_store {snap snap' : Snap} {s : Store} (h : snap.store s = some snap')
    (hindex : s.index < kBookLevels) (a : SnapArray) :
    snap'.array a = if a = s.array then (snap.array a).set s.index s.value else snap.array a := by
  rw [Snap.store] at h
  split at h
  case isFalse => exact absurd h (by simp)
  case isTrue =>
    obtain rfl := Option.some.inj h
    have hlen : ((snap.levels.toList.drop a.offset).take kBookLevels).length = kBookLevels :=
      length_array snap a
    simp only [Snap.array, Vector.toList_setIfInBounds, List.drop_set]
    by_cases ha : a = s.array
    · rw [if_pos ha, ← ha, if_neg (by omega), Nat.add_sub_cancel_left, List.take_set]
    · rw [if_neg ha]
      split_ifs with hlt
      · rfl
      · -- the store is past the end of the array
        have hpast : kBookLevels ≤ s.array.offset + s.index - a.offset := by
          cases hs : s.array <;> cases a <;>
            simp_all [SnapArray.offset, kBookLevels] <;> omega
        rw [List.take_set, List.set_eq_of_length_le (by rw [hlen]; exact hpast)]

/-- Consecutive elements of an array. -/
def setFrom : ℕ → List ℤ → List ℤ → List ℤ
  | _, [], xs => xs
  | level, v :: vs, xs => setFrom (level + 1) vs (xs.set level v)

/-- **What the stores of a side leave**, when they are inside of the arrays. -/
theorem array_levelStores {snap snap' : Snap} {price quantity : SnapArray} {level : ℕ}
    {l : List (ℤ × ℤ)} (hne : price ≠ quantity) (hl : level + l.length ≤ kBookLevels)
    (h : (levelStores price quantity level l).foldlM Snap.store snap = some snap') :
    ∀ a, snap'.array a = if a = price then setFrom level (l.map Prod.fst) (snap.array a)
      else if a = quantity then setFrom level (l.map Prod.snd) (snap.array a)
      else snap.array a := by
  induction l generalizing snap level with
  | nil =>
    obtain rfl := Option.some.inj h
    intro a
    simp [setFrom]
  | cons x l ih =>
    rw [List.length_cons] at hl
    rw [levelStores, List.foldlM_cons] at h
    obtain ⟨snap₁, h₁, h⟩ := Option.bind_eq_some_iff.1 h
    rw [List.foldlM_cons] at h
    obtain ⟨snap₂, h₂, h⟩ := Option.bind_eq_some_iff.1 h
    intro a
    rw [ih (by omega) h a, array_store h₂ (by dsimp only; omega) a,
      array_store h₁ (by dsimp only; omega) a]
    by_cases hp : a = price
    · subst hp
      simp [hne, setFrom]
    · by_cases hq : a = quantity
      · subst hq
        simp [Ne.symm hne, setFrom]
      · simp [hp, hq]

/-- An array with some elements in front, and zeros after them. -/
def filled (vs : List ℤ) : List ℤ := vs.rightpad kBookLevels 0

theorem setFrom_replicate {vs : List ℤ} (pre : List ℤ) {n : ℕ} (hn : vs.length ≤ n) :
    setFrom pre.length vs (pre ++ List.replicate n 0) =
      pre ++ vs ++ List.replicate (n - vs.length) 0 := by
  induction vs generalizing pre n with
  | nil => simp [setFrom]
  | cons v vs ih =>
    rw [List.length_cons] at hn
    obtain ⟨n, rfl⟩ := Nat.exists_eq_add_of_le' (show 1 ≤ n by omega)
    have hset : (pre ++ List.replicate (n + 1) 0).set pre.length v =
        pre ++ [v] ++ List.replicate n 0 := by
      rw [List.replicate_succ, List.set_append_right _ _ (le_refl _), Nat.sub_self,
        List.set_cons_zero]
      simp
    have hlen : pre.length + 1 = (pre ++ [v]).length := by simp
    rw [setFrom, hset, hlen, ih (pre ++ [v]) (by omega)]
    simp

theorem setFrom_filled {vs : List ℤ} (hn : vs.length ≤ kBookLevels) :
    setFrom 0 vs (List.replicate kBookLevels 0) = filled vs := by
  have h := setFrom_replicate [] hn
  simpa [filled, List.rightpad] using h

/-- The first element is kept by stores from a later one on. -/
theorem head?_setFrom {level : ℕ} (hlevel : 0 < level) (vs xs : List ℤ) :
    (setFrom level vs xs).head? = xs.head? := by
  induction vs generalizing level xs with
  | nil => rfl
  | cons v vs ih =>
    rw [setFrom, ih (Nat.succ_pos level)]
    cases xs with
    | nil => rfl
    | cons x xs =>
      obtain ⟨level, rfl⟩ := Nat.exists_eq_add_of_le' hlevel
      rfl

theorem array_newSnap (ob : OrderBook) (timestamp : ℤ) (a : SnapArray) :
    (ob.newSnap timestamp).array a = List.replicate kBookLevels 0 := by
  cases a <;> rfl

/-! ## Snapshots -/

/-- The snapshot shows the lowest prices of the asks and the highest of the bids, the
    best ones first. -/
structure ShowsTop (ob : OrderBook) (snap : Snap) : Prop where
  askPrice : snap.array .askPrice =
    filled (((ob.pricesWithQty .sell).take kBookLevels).map Prod.fst)
  askQuantity : snap.array .askQuantity =
    filled (((ob.pricesWithQty .sell).take kBookLevels).map Prod.snd)
  bidPrice : snap.array .bidPrice =
    filled (((ob.pricesWithQty .buy).reverse.take kBookLevels).map Prod.fst)
  bidQuantity : snap.array .bidQuantity =
    filled (((ob.pricesWithQty .buy).reverse.take kBookLevels).map Prod.snd)

/-- `snapUpdate` appends a snapshot that shows the top of the book, and uses indices
    of its arrays only. -/
def TopOfBook (ob : OrderBook) (timestamp : ℤ) : Prop :=
  ∃ stores ob' snap, ob.continuousStores = some stores ∧ (∀ s ∈ stores, s.index < kBookLevels) ∧
    ob.snapUpdate timestamp = some ob' ∧ ob'.snapshots = ob.snapshots ++ [snap] ∧ ob.ShowsTop snap

/-- What the stores of both sides leave, when they are inside of the arrays. -/
theorem array_of_stores {snap : Snap} {timestamp : ℤ} {asks bids : List (ℤ × ℤ)}
    (hlen : asks.length + bids.length ≤ kBookLevels)
    (h : (levelStores .askPrice .askQuantity 0 asks ++
      levelStores .bidPrice .bidQuantity asks.length bids).foldlM Snap.store
        (ob.newSnap timestamp) = some snap) :
    snap.array .askPrice = filled (asks.map Prod.fst) ∧
    snap.array .askQuantity = filled (asks.map Prod.snd) ∧
    snap.array .bidPrice =
      setFrom asks.length (bids.map Prod.fst) (List.replicate kBookLevels 0) ∧
    snap.array .bidQuantity =
      setFrom asks.length (bids.map Prod.snd) (List.replicate kBookLevels 0) := by
  rw [List.foldlM_append] at h
  obtain ⟨snap₁, h₁, h₂⟩ := Option.bind_eq_some_iff.1 h
  have hasks := array_levelStores (by decide) (by omega) h₁
  have hbids := array_levelStores (by decide) hlen h₂
  refine ⟨?_, ?_, ?_, ?_⟩
  · rw [hbids, hasks, array_newSnap, ← setFrom_filled (by rw [List.length_map]; omega)]
    rfl
  · rw [hbids, hasks, array_newSnap, ← setFrom_filled (by rw [List.length_map]; omega)]
    rfl
  · rw [hbids, hasks, array_newSnap]
    rfl
  · rw [hbids, hasks, array_newSnap]
    rfl

/-- With an empty side, the scan of the bids begins at level 0 or stores nothing. -/
theorem Sized.topOfBook (h : ob.Sized) (hopen : ob.openPrice ≠ 0) (timestamp : ℤ)
    (hempty : ob.pricesWithQty .sell = [] ∨ ob.pricesWithQty .buy = []) :
    ob.TopOfBook timestamp := by
  obtain ⟨stores, levels, hstores, hfold, hsnap⟩ := h.snapUpdate_continuous hopen timestamp
  have heq := h.continuousStores
  rw [hstores, Option.some.injEq] at heq
  rw [topAsks_eq, bids_eq] at heq
  have htop : (ob.pricesWithQty .sell).take kBookLevels = [] ∨ ob.pricesWithQty .buy = [] :=
    hempty.imp_left fun hnil => by rw [hnil, List.take_nil]
  have hbids : (ob.pricesWithQty .buy).reverse.take
      (max 1 (kBookLevels - ((ob.pricesWithQty .sell).take kBookLevels).length)) =
        (ob.pricesWithQty .buy).reverse.take kBookLevels := by
    rcases htop with hnil | hnil
    · rw [hnil]
      rfl
    · rw [hnil, List.reverse_nil, List.take_nil, List.take_nil]
  have hlen : ((ob.pricesWithQty .sell).take kBookLevels).length +
      ((ob.pricesWithQty .buy).reverse.take kBookLevels).length ≤ kBookLevels := by
    rcases htop with hnil | hnil <;> simp [hnil]
  have hfrom : ∀ f : ℤ × ℤ → ℤ, setFrom ((ob.pricesWithQty .sell).take kBookLevels).length
      (((ob.pricesWithQty .buy).reverse.take kBookLevels).map f) (List.replicate kBookLevels 0) =
        filled (((ob.pricesWithQty .buy).reverse.take kBookLevels).map f) := by
    intro f
    rcases htop with hnil | hnil
    · rw [hnil]
      exact setFrom_filled (by simp)
    · rw [hnil]
      rfl
  rw [hbids] at heq
  refine ⟨stores, _, _, hstores, ?_, hsnap, rfl, ?_⟩
  · intro s hs
    rw [heq] at hs
    rcases List.mem_append.1 hs with hs | hs
    · have := (mem_levelStores hs).2.2
      omega
    · have := (mem_levelStores hs).2.2
      omega
  · rw [heq] at hfold
    obtain ⟨haskPrice, haskQuantity, hbidPrice, hbidQuantity⟩ := array_of_stores hlen hfold
    rw [hfrom] at hbidPrice hbidQuantity
    exact ⟨haskPrice, haskQuantity, hbidPrice, hbidQuantity⟩

/-- With asks and bids, the best bid is not at level 0, or is stored past the end. -/
theorem Sized.not_topOfBook (h : ob.Sized) (hopen : ob.openPrice ≠ 0) (timestamp : ℤ)
    (hasks : ob.pricesWithQty .sell ≠ []) (hbids : ob.pricesWithQty .buy ≠ []) :
    ¬ob.TopOfBook timestamp := by
  rintro ⟨stores, ob', snap, hstores, hindex, hsnap, happend, htop⟩
  obtain ⟨stores', levels, hstores', hfold, hsnap'⟩ := h.snapUpdate_continuous hopen timestamp
  have heq := h.continuousStores
  rw [hstores, Option.some.injEq] at heq hstores'
  subst heq
  subst hstores'
  rw [hsnap, Option.some.injEq] at hsnap'
  subst hsnap'
  obtain rfl := List.singleton_inj.1 (List.append_cancel_left happend)
  have hlen := ob.length_topAsks_le
  have hpos : 0 < ob.topAsks.length := by
    rw [topAsks_eq, List.length_take]
    have := List.length_pos_iff.2 hasks
    rw [kBookLevels]
    omega
  obtain ⟨⟨p, x⟩, rest, hrev⟩ := List.exists_cons_of_ne_nil
    (fun hnil => hbids (List.reverse_eq_nil_iff.1 hnil) : (ob.pricesWithQty .buy).reverse ≠ [])
  have hx : x ≠ 0 := by
    have hmem : (p, x) ∈ ob.pricesWithQty .buy := by
      rw [← List.mem_reverse, hrev]
      exact List.mem_cons_self
    exact ((mem_pricesWithQty h).1 hmem).2
  rcases Nat.lt_or_eq_of_le hlen with hlt | hfull
  · -- the bids begin at a later level
    have hroom : ob.topAsks.length +
        (ob.bids.take (max 1 (kBookLevels - ob.topAsks.length))).length ≤ kBookLevels := by
      rw [List.length_take]
      omega
    have hquantity := (array_of_stores hroom hfold).2.2.2
    have hhead := congrArg List.head? (hquantity.symm.trans htop.bidQuantity)
    rw [head?_setFrom hpos, hrev] at hhead
    have hzero : some (0 : ℤ) = some x := hhead
    exact hx (Option.some.inj hzero).symm
  · -- the best bid is stored past the end
    have hmem : (⟨.bidPrice, kBookLevels, p⟩ : Store) ∈
        levelStores .bidPrice .bidQuantity ob.topAsks.length
          (ob.bids.take (max 1 (kBookLevels - ob.topAsks.length))) := by
      rw [hfull, bids_eq, hrev]
      exact List.mem_cons_self
    exact lt_irrefl _ (hindex _ (List.mem_append_right _ hmem))

/-- **The top of the book is shown exactly if a side is empty.** -/
theorem topOfBook_iff (h : ob.Sized) (hopen : ob.openPrice ≠ 0) (timestamp : ℤ) :
    ob.TopOfBook timestamp ↔ (∀ x ∈ ob.askQty, x = 0) ∨ ∀ x ∈ ob.bidQty, x = 0 := by
  have hask := pricesWithQty_eq_nil h .sell
  have hbid := pricesWithQty_eq_nil h .buy
  constructor
  · intro htop
    by_contra hnot
    rw [not_or] at hnot
    exact h.not_topOfBook hopen timestamp (fun hnil => hnot.1 (hask.1 hnil))
      (fun hnil => hnot.2 (hbid.1 hnil)) htop
  · rintro (hzero | hzero)
    · exact h.topOfBook hopen timestamp (Or.inl (hask.2 hzero))
    · exact h.topOfBook hopen timestamp (Or.inr (hbid.2 hzero))

/-- Bids at 1000 and 1001, and no asks. -/
def bidsOnly : OrderBook :=
  { bidQty := [100, 200, 0], askQty := [0, 0, 0], lowerLimitPrice := 1000, upperLimitPrice := 1002,
    openPrice := 1001 }

theorem topOfBook_iff_bidsOnly : bidsOnly.TopOfBook 93000000 :=
  (topOfBook_iff ⟨rfl, rfl, by decide⟩ (by decide) 93000000).2 (Or.inl (by decide))

/-- A bid at 1000 and an ask at 1002. -/
def bidAndAsk : OrderBook :=
  { bidQty := [100, 0, 0], askQty := [0, 0, 200], lowerLimitPrice := 1000, upperLimitPrice := 1002,
    openPrice := 1001 }

/-- The bid is at level 1 of the snapshot. -/
theorem topOfBook_bidAndAsk :
    (bidAndAsk.Sized ∧ bidAndAsk.openPrice ≠ 0 ∧
      (∀ x ∈ bidAndAsk.askQty, 0 ≤ x) ∧ ∀ x ∈ bidAndAsk.bidQty, 0 ≤ x) ∧
    bidAndAsk.continuousStores = some [⟨.askPrice, 0, 1002⟩, ⟨.askQuantity, 0, 200⟩,
      ⟨.bidPrice, 1, 1000⟩, ⟨.bidQuantity, 1, 100⟩] ∧
    ¬bidAndAsk.TopOfBook 93000000 := by
  have hsized : bidAndAsk.Sized := ⟨rfl, rfl, by decide⟩
  refine ⟨⟨hsized, by decide, by decide, by decide⟩, by decide, ?_⟩
  refine hsized.not_topOfBook (by decide) 93000000 ?_ ?_
  · decide
  · decide

end OrderBook

end L2
