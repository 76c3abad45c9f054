/-
  What a tick can do to a stock of the compute thread, in every build.

  * `Frame` lists the members that `onTick` leaves alone (`onTick_frame`);
  * `Sound` is the invariant of a stock between calls: a stock that is alive has
    its series on the grid, and only such a stock approaches the limit
    (`Sound.onTick`);
  * a trade handler returns unless the trade is later than the last slot of the
    day (`onTradeOf_eq_none_iff`).
-/
import Mdd2.Proof.Snapshots

namespace Mdd2

namespace StockCompute

variable {R : Type} [FactorScalar R]

/-- The members that stay. -/
structure Frame (c d : StockCompute R) : Prop where
  stockCode : d.stockCode = c.stockCode
  upperLimitPrice : d.upperLimitPrice = c.upperLimitPrice
  preClosePrice : d.preClosePrice = c.preClosePrice
  upperLimitPriceApproach : d.upperLimitPriceApproach = c.upperLimitPriceApproach
  bState : d.bState = c.bState
  futureTimestamp : d.futureTimestamp = c.futureTimestamp
  firstCompute : d.firstCompute = c.firstCompute

/-- The invariant of a stock between calls. -/
structure Sound (c : StockCompute R) : Prop where
  onGrid : c.alive → c.fState.OnGrid
  bState : c.alive → c.bState.iirState.isSome
  alive : c.approachingLimitUp → c.alive

/-! ## Orders and cancels -/

omit [FactorScalar R] in
theorem onOrder_eq (b : Build) (c : StockCompute R) (tick : b.Tick) :
    ∃ m, c.onOrder b tick = { c with upSellOrders := m } := by
  rcases b with _ | ⟨_ | _⟩ | _
  · simp only [onOrder, onOrderReplay]; split_ifs <;> exact ⟨_, rfl⟩
  · simp only [onOrder, onOrderNeSh]; split_ifs <;> exact ⟨_, rfl⟩
  · simp only [onOrder, onOrderNeSz, insertOrderSz]; split_ifs <;> exact ⟨_, rfl⟩
  · exact ⟨_, rfl⟩

omit [FactorScalar R] in
theorem onCancel_eq (b : Build) (c : StockCompute R) (tick : b.Tick) :
    ∃ m, c.onCancel b tick = { c with upSellOrders := m } := by
  rcases b with _ | ⟨_ | _⟩ | _
  · simp only [onCancel, onCancelReplay]; split_ifs <;> exact ⟨_, rfl⟩
  · simp only [onCancel, onCancelNeSh]; split_ifs <;> exact ⟨_, rfl⟩
  · simp only [onCancel, onCancelNeSz, insertOrderSz]; split_ifs <;> exact ⟨_, rfl⟩
  · exact ⟨_, rfl⟩

/-! ## Trades -/

section
variable {c d : StockCompute R} {no timestamp price quantity : ℤ}

/-- A trade of continuous trading. -/
theorem onTradeOf_false (c : StockCompute R) (no timestamp price quantity : ℤ) :
    c.onTradeOf no false timestamp price quantity =
      (c.fState.addRealTrade timestamp price quantity).map fun f => { c with
        upSellOrders := c.upSellOrders.fill no quantity
        approachingLimitUp := c.approachingLimitUp || decide (price ≥ c.upperLimitPriceApproach)
        fState := f } := by
  simp only [onTradeOf, Bool.false_eq_true, if_false, addRealTrade]
  by_cases h : price ≥ c.upperLimitPriceApproach
  · rw [if_pos h]
    simp only [h, decide_true, Bool.or_true]
    cases c.fState.addRealTrade timestamp price quantity <;> rfl
  · rw [if_neg h]
    simp only [h, decide_false, Bool.or_false]
    cases c.fState.addRealTrade timestamp price quantity <;> rfl

/-- What a trade handler that returns has done. -/
theorem onTradeOf_eq_some {openCall : Bool} (hc : c.fState.OnGrid)
    (h : c.onTradeOf no openCall timestamp price quantity = some d) :
    ∃ openPrice openVolume approachingLimitUp fState, fState.OnGrid ∧
      d = { c with
        upSellOrders := c.upSellOrders.fill no quantity
        openPrice, openVolume, approachingLimitUp, fState } := by
  cases openCall with
  | true =>
    obtain rfl := Option.some.inj h
    exact ⟨_, _, _, { c.fState with currSnapshot := { c.fState.currSnapshot with
      lastPrice := price } }, ⟨hc.iirState, hc.slot⟩, rfl⟩
  | false =>
    rw [onTradeOf_false] at h
    rcases le_or_gt timestamp 235959900 with ht | ht
    · obtain ⟨g, hg, hgrid⟩ := hc.addRealTrade ht price quantity
      rw [hg] at h
      exact ⟨_, _, _, g, hgrid, (Option.some.inj h).symm⟩
    · rw [hc.addRealTrade_of_late ht] at h
      exact absurd h (by simp)

/-- **A trade handler does not return if and only if the trade is late.** -/
theorem onTradeOf_eq_none_iff {openCall : Bool} (hc : c.fState.OnGrid) :
    c.onTradeOf no openCall timestamp price quantity = none ↔
      openCall = false ∧ 235959900 < timestamp := by
  cases openCall with
  | true => simp [onTradeOf]
  | false =>
    rw [onTradeOf_false, Option.map_eq_none_iff]
    rcases le_or_gt timestamp 235959900 with ht | ht
    · obtain ⟨g, hg, -⟩ := hc.addRealTrade ht price quantity
      simp [hg, ht]
    · simp [hc.addRealTrade_of_late ht, ht]

end

/-! ## Ticks -/

variable {c d : StockCompute R} {b : Build} {tick : b.Tick}

theorem onTrade_eq_some (hc : c.fState.OnGrid) (h : c.onTrade b tick = some d) :
    ∃ upSellOrders openPrice openVolume approachingLimitUp fState, fState.OnGrid ∧
      d = { c with upSellOrders, openPrice, openVolume, approachingLimitUp, fState } := by
  have hof : ∀ {no timestamp price quantity : ℤ} {openCall : Bool},
      c.onTradeOf no openCall timestamp price quantity = some d →
      ∃ upSellOrders openPrice openVolume approachingLimitUp fState, fState.OnGrid ∧
        d = { c with upSellOrders, openPrice, openVolume, approachingLimitUp, fState } :=
    fun h => ⟨_, onTradeOf_eq_some hc h⟩
  rcases b with _ | ⟨_ | _⟩ | _
  · rw [onTrade, onTradeReplay] at h; exact hof h
  · rw [onTrade, onTradeNeSh] at h; exact hof h
  · rw [onTrade, onTradeNeSz] at h; exact hof h
  · obtain rfl := Option.some.inj h
    exact ⟨_, _, _, _, _, hc, rfl⟩

/-- **What a tick that returns has done**: it was an end sign, and the stock has
    stopped; or nothing; or it was handled by a stock that is alive, whose series
    stays on the grid. -/
theorem onTick_cases (hc : c.alive → c.fState.OnGrid) (h : c.onTick b tick = some d) :
    (∃ timestamp intent, c.calls b tick = some (.logLimitUp timestamp intent) ∧ d = c.stop) ∨
    d = c ∨
    c.alive ∧ ∃ upSellOrders openPrice openVolume approachingLimitUp fState, fState.OnGrid ∧
      d = { c with upSellOrders, openPrice, openVolume, approachingLimitUp, fState } := by
  rw [onTick] at h
  cases hcalls : c.calls b tick with
  | none =>
    rw [hcalls] at h
    exact .inr (.inl (Option.some.inj h).symm)
  | some call =>
    rw [hcalls] at h
    have ha : c.alive := by
      by_contra hn
      rw [calls, if_neg hn] at hcalls
      exact absurd hcalls (by simp)
    cases call with
    | logLimitUp timestamp intent => exact .inl ⟨_, _, rfl, (Option.some.inj h).symm⟩
    | onOrder =>
      obtain ⟨m, hm⟩ := c.onOrder_eq b tick
      obtain rfl := Option.some.inj h
      exact .inr (.inr ⟨ha, m, _, _, _, _, hc ha, hm⟩)
    | onCancel =>
      obtain ⟨m, hm⟩ := c.onCancel_eq b tick
      obtain rfl := Option.some.inj h
      exact .inr (.inr ⟨ha, m, _, _, _, _, hc ha, hm⟩)
    | onTrade => exact .inr (.inr ⟨ha, onTrade_eq_some (hc ha) h⟩)

/-- The members that a tick may change; a stock that stops stops approaching,
    and its series stays on the grid. -/
theorem onTick_eq_some (hc : c.alive → c.fState.OnGrid) (h : c.onTick b tick = some d) :
    ∃ upSellOrders openPrice openVolume alive approachingLimitUp fState,
      d = { c with upSellOrders, openPrice, openVolume, alive, approachingLimitUp, fState } ∧
      (alive → c.alive ∧ fState.OnGrid) ∧
      (approachingLimitUp → alive ∨ c.approachingLimitUp ∧ alive = c.alive) := by
  rcases onTick_cases hc h with ⟨_, _, -, rfl⟩ | rfl | ⟨ha, _, _, _, _, _, hf, rfl⟩
  · exact ⟨_, _, _, _, _, _, rfl, fun h => absurd h (by simp), fun h => absurd h (by simp)⟩
  · exact ⟨_, _, _, _, _, _, rfl, fun ha => ⟨ha, hc ha⟩, fun h => .inr ⟨h, rfl⟩⟩
  · exact ⟨_, _, _, _, _, _, rfl, fun _ => ⟨ha, hf⟩, fun _ => .inl ha⟩

theorem onTick_frame (hc : c.alive → c.fState.OnGrid) (h : c.onTick b tick = some d) :
    Frame c d := by
  obtain ⟨_, _, _, _, _, _, rfl, -⟩ := onTick_eq_some hc h
  constructor <;> rfl

/-- **Ticks keep a stock sound.** -/
theorem Sound.onTick (hc : c.Sound) (h : c.onTick b tick = some d) : d.Sound := by
  obtain ⟨_, _, _, alive, _, _, rfl, halive, happroach⟩ := onTick_eq_some hc.onGrid h
  refine ⟨fun ha => (halive ha).2, fun ha => hc.bState (halive ha).1, fun ha => ?_⟩
  rcases happroach ha with ha | ⟨ha, he⟩
  · exact ha
  · exact he.symm ▸ hc.alive ha

omit [FactorScalar R] in
theorem Sound.stop (c : StockCompute R) : c.stop.Sound :=
  ⟨fun h => absurd h (by simp [StockCompute.stop]), fun h => absurd h (by simp [StockCompute.stop]),
    fun h => absurd h (by simp [StockCompute.stop])⟩

theorem dispatchReplay_eq_onTrade_iff {t : L2.Tick} :
    dispatchReplay t = some .onTrade ↔ t.quantity ≠ 0 ∧ t.isTrade := by
  unfold dispatchReplay
  have horder : t.isTrade → ¬ t.isOrder := by
    simp only [L2.Tick.isTrade, L2.Tick.isOrder, decide_eq_true_eq]
    rintro ⟨hb, hs⟩
    simp [hb, hs]
  split_ifs <;> simp_all

/-- **A replay tick is not processed if and only if it is a late trade.** -/
theorem onTick_replay_eq_none_iff (market : Market) (ha : c.alive) (hc : c.fState.OnGrid)
    {t : L2.Tick} : c.onTick (.replay market) t = none ↔
      t.quantity ≠ 0 ∧ t.isTrade ∧ 235959900 < t.timestamp := by
  rw [← and_assoc, ← dispatchReplay_eq_onTrade_iff, onTick, calls, if_pos ha, dispatch]
  cases hd : dispatchReplay t with
  | none => simp
  | some call =>
    cases call with
    | onTrade =>
      simp only [perform, onTrade, onTradeReplay, onTradeOf_eq_none_iff hc, true_and,
        decide_eq_false_iff_not, and_iff_right_iff_imp]
      omega
    | _ => simp [perform]

theorem onGrid_start {s : StockState} (hs : s.alive) (c : StockCompute R) :
    (c.start s).fState.OnGrid := by
  rw [StockCompute.start, if_pos hs]
  exact ⟨rfl, 0, Nat.zero_le _, gridTime_zero.symm⟩

theorem Sound.start (s : StockState) : (({} : StockCompute R).start s).Sound := by
  by_cases hs : s.alive
  · refine ⟨fun _ => onGrid_start hs _, ?_, ?_⟩ <;> rw [StockCompute.start, if_pos hs]
    · exact fun _ => rfl
    · exact fun h => absurd h (by simp)
  · rw [StockCompute.start, if_neg hs]
    exact ⟨fun h => absurd h (by simp), fun h => absurd h (by simp), fun h => absurd h (by simp)⟩

end StockCompute

end Mdd2
