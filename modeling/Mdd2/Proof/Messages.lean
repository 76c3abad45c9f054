/-
  The order messages that ticks carry.

  A tick of the replay and a record of NE Shenzhen each say one thing about the
  book: an order, a cancel or a trade.

  * `tickMsg` and `neMsg` read it, `tickMsg_eq_some` and `neMsg_eq_some` list
    what has been read;
  * `replayTick` is the tick that carries a message (`tickMsg_replayTick`), and
    `toTick` the one that says the same as a record.
-/
import Mdd2.Lib.OrderBook
import Mdd2.MDS

namespace Mdd2

open Exchange

/-! ## The messages of replay ticks -/

def tickSide (t : L2.Tick) : Side := if t.isSellOrder then .sell else .buy

/-- What a tick of non-zero quantity says about the book. -/
def tickMsg (t : L2.Tick) : Option Msg :=
  if t.isOrder then
    if t.isOrderCancel then some (.cancel t.orderNo (tickSide t) t.price (-t.quantity))
    else some (.order t.orderNo ⟨tickSide t, t.price, t.quantity⟩)
  else if t.isTrade then some (.trade t.buyOrderNo t.sellOrderNo t.price t.quantity)
  else none

/-- A tick with a message is a trade, or an order or cancel of one side. -/
theorem tickMsg_eq_some {t : L2.Tick} {msg : Msg} (h : tickMsg t = some msg) :
    (t.buyOrderNo ≠ 0 ∧ t.sellOrderNo ≠ 0 ∧
      msg = .trade t.buyOrderNo t.sellOrderNo t.price t.quantity) ∨
    ((t.buyOrderNo = 0 ↔ t.sellOrderNo ≠ 0) ∧ (tickSide t = .sell ↔ t.sellOrderNo ≠ 0) ∧
      (msg = .cancel t.orderNo (tickSide t) t.price (-t.quantity) ∨
        msg = .order t.orderNo ⟨tickSide t, t.price, t.quantity⟩)) := by
  unfold tickMsg at h
  by_cases horder : t.isOrder
  · have hone : t.buyOrderNo = 0 ↔ t.sellOrderNo ≠ 0 := by
      by_cases hb : t.buyOrderNo = 0 <;> simp_all [L2.Tick.isOrder]
    have hside : tickSide t = .sell ↔ t.sellOrderNo ≠ 0 := by
      by_cases hs : t.sellOrderNo = 0 <;> simp_all [tickSide, L2.Tick.isSellOrder]
    rw [if_pos horder] at h
    split_ifs at h
    · exact .inr ⟨hone, hside, .inl (Option.some.inj h).symm⟩
    · exact .inr ⟨hone, hside, .inr (Option.some.inj h).symm⟩
  · rw [if_neg horder] at h
    split_ifs at h with htrade
    obtain ⟨hb, hs⟩ : t.buyOrderNo ≠ 0 ∧ t.sellOrderNo ≠ 0 := by
      simpa [L2.Tick.isTrade] using htrade
    exact .inl ⟨hb, hs, (Option.some.inj h).symm⟩

/-! ## The messages of NE Shenzhen records -/

/-- The limit price of an order; a market order has none. -/
def OrderSz.limitPrice (m : Image) : ℕ :=
  if OrderSz.orderType m = '2'.toNat then OrderSz.price m else 0

theorem not_orderSz_of_tradeSz {m : Image} (h : neMessageType m = msgTypeTradeSz) :
    neMessageType m ≠ msgTypeOrderSz := by
  rw [h]; decide

/-- What a record says about the book, with prices and quantities in multiples of
    `unit`: those of the record are in hundredths of cents and shares.  A cancel
    names the order in one of the two number fields. -/
def neMsg (unit : ℕ) (m : Image) : Option Msg :=
  if neMessageType m = msgTypeOrderSz then
    let price : ℤ := ↑(OrderSz.limitPrice m / unit)
    let quantity : ℤ := ↑(OrderSz.qty m / unit)
    if OrderSz.side m = '1'.toNat then some (.order (OrderSz.applSeqNum m) ⟨.buy, price, quantity⟩)
    else if OrderSz.side m = '2'.toNat then
      some (.order (OrderSz.applSeqNum m) ⟨.sell, price, quantity⟩)
    else none
  else if neMessageType m = msgTypeTradeSz then
    let price : ℤ := ↑(TradeSz.tradePrice m / unit)
    let quantity : ℤ := ↑(TradeSz.tradeQty m / unit)
    if TradeSz.execType m = 0x1 then
      if TradeSz.offerapplSeqnum m = 0 then
        some (.cancel (TradeSz.bidapplSeqnum m) .buy price quantity)
      else if TradeSz.bidapplSeqnum m = 0 then
        some (.cancel (TradeSz.offerapplSeqnum m) .sell price quantity)
      else none
    else if TradeSz.execType m = 0x2 then
      some (.trade (TradeSz.bidapplSeqnum m) (TradeSz.offerapplSeqnum m) price quantity)
    else none
  else none

/-- The number of the order on one side of a trade record. -/
def TradeSz.orderNo (m : Image) : Side → ℕ
  | .buy => TradeSz.bidapplSeqnum m
  | .sell => TradeSz.offerapplSeqnum m

/-- A record with a message is an order, a cancel or a trade. -/
theorem neMsg_eq_some {unit : ℕ} {m : Image} {msg : Msg} (h : neMsg unit m = some msg) :
    (neMessageType m = msgTypeOrderSz ∧ ∃ side, (side = .sell ↔ OrderSz.side m = '2'.toNat) ∧
      msg = .order (OrderSz.applSeqNum m)
        ⟨side, ↑(OrderSz.limitPrice m / unit), ↑(OrderSz.qty m / unit)⟩) ∨
    (neMessageType m = msgTypeTradeSz ∧ TradeSz.execType m = 0x1 ∧ ∃ side,
      msg = .cancel (TradeSz.orderNo m side) side ↑(TradeSz.tradePrice m / unit)
        ↑(TradeSz.tradeQty m / unit)) ∨
    (neMessageType m = msgTypeTradeSz ∧ TradeSz.execType m = 0x2 ∧
      msg = .trade (TradeSz.bidapplSeqnum m) (TradeSz.offerapplSeqnum m)
        ↑(TradeSz.tradePrice m / unit) ↑(TradeSz.tradeQty m / unit)) := by
  simp only [neMsg] at h
  split_ifs at h with h1 h2 h3 h4 h5 h6 h7 h8
  · exact .inl ⟨h1, .buy, by simp [h2], (Option.some.inj h).symm⟩
  · exact .inl ⟨h1, .sell, by simp [h3], (Option.some.inj h).symm⟩
  · exact .inr (.inl ⟨h4, h5, .buy, (Option.some.inj h).symm⟩)
  · exact .inr (.inl ⟨h4, h5, .sell, (Option.some.inj h).symm⟩)
  · exact .inr (.inr ⟨h4, h8, (Option.some.inj h).symm⟩)

/-! ## The ticks of the replay -/

/-- The tick that says the same. -/
def replayTick (stock : Int32) (timestamp : ℤ) : Msg → L2.Tick
  | .order no ⟨.buy, price, quantity⟩ => ⟨stock, timestamp, price, quantity, no, 0⟩
  | .order no ⟨.sell, price, quantity⟩ => ⟨stock, timestamp, price, quantity, 0, no⟩
  | .cancel no .buy price quantity => ⟨stock, timestamp, price, -quantity, no, 0⟩
  | .cancel no .sell price quantity => ⟨stock, timestamp, price, -quantity, 0, no⟩
  | .trade buyNo sellNo price quantity => ⟨stock, timestamp, price, quantity, buyNo, sellNo⟩

/-- The time of day of a record. -/
def neTimeOfDay (m : Image) : ℤ :=
  if neMessageType m = msgTypeOrderSz then ↑(OrderSz.transactTime m % 1000000000)
  else ↑(TradeSz.transactTime m % 1000000000)

/-- The tick of an NE Shenzhen record, in cents and shares. -/
def toTick (stock : Int32) (m : Image) : Option L2.Tick :=
  (neMsg 100 m).map (replayTick stock (neTimeOfDay m))

/-- What the numbers of a tick can hold; zero stands for no order. -/
def IsOrderNo (no : ℤ) : Prop := 0 < no ∧ no < 2 ^ 31

instance (no : ℤ) : Decidable (IsOrderNo no) := inferInstanceAs (Decidable (_ ∧ _))

/-- The message can be written as a tick. -/
def Representable : Msg → Prop
  | .order no o => IsOrderNo no ∧ o.price < 2 ^ 31 ∧ o.remaining < 2 ^ 31
  | .cancel no _ price quantity => IsOrderNo no ∧ price < 2 ^ 31 ∧ quantity < 2 ^ 31
  | .trade buyNo sellNo price quantity =>
    IsOrderNo buyNo ∧ IsOrderNo sellNo ∧ price < 2 ^ 31 ∧ quantity < 2 ^ 31

instance : DecidablePred Representable
  | .order .. => inferInstanceAs (Decidable (_ ∧ _))
  | .cancel .. => inferInstanceAs (Decidable (_ ∧ _))
  | .trade .. => inferInstanceAs (Decidable (_ ∧ _))

/-- **The tick has the message.** -/
theorem tickMsg_replayTick {msg : Msg} (h : Representable msg) (hq : 0 < msg.quantity)
    (stock : Int32) (timestamp : ℤ) : tickMsg (replayTick stock timestamp msg) = some msg := by
  rcases msg with ⟨no, ⟨side, price, quantity⟩⟩ | ⟨no, side, price, quantity⟩ |
    ⟨buyNo, sellNo, price, quantity⟩
  · have hno : no ≠ 0 := ne_of_gt h.1.1
    have hquantity : ¬ quantity < 0 := not_lt.2 (le_of_lt hq)
    cases side <;> simp [replayTick, tickMsg, tickSide, L2.Tick.isOrder, L2.Tick.isSellOrder,
      L2.Tick.isOrderCancel, L2.Tick.orderNo, hno, hquantity]
  · have hno : no ≠ 0 := ne_of_gt h.1.1
    have hquantity : 0 < quantity := hq
    cases side <;> simp [replayTick, tickMsg, tickSide, L2.Tick.isOrder, L2.Tick.isSellOrder,
      L2.Tick.isOrderCancel, L2.Tick.orderNo, hno, hquantity]
  · have hbuyNo : buyNo ≠ 0 := ne_of_gt h.1.1
    have hsellNo : sellNo ≠ 0 := ne_of_gt h.2.1.1
    simp [replayTick, tickMsg, L2.Tick.isOrder, L2.Tick.isTrade, hbuyNo, hsellNo]

theorem quantity_replayTick_ne_zero {msg : Msg} (hq : 0 < msg.quantity) (stock : Int32)
    (timestamp : ℤ) : (replayTick stock timestamp msg).quantity ≠ 0 := by
  rcases msg with ⟨no, ⟨_ | _, price, quantity⟩⟩ | ⟨no, _ | _, price, quantity⟩ |
    ⟨buyNo, sellNo, price, quantity⟩ <;> simp only [Msg.quantity] at hq <;>
    simp only [replayTick] <;> omega

end Mdd2
