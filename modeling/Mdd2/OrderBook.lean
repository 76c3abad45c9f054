/-
  The order book of the L2 tools (`L2/OrderBook.h`): the quantities on every price
  level, kept by ticks.

  The prices of limit orders are kept by order number; market orders have price
  0 and are not kept.  A level outside of the price limits yields `none`.
-/
import Mdd2.Lib.OrderBook
import Mdd2.Lib.Word
import Mdd2.Snap
import Mdd2.Tick

namespace L2

open Exchange (Side)

structure Stat where
  stock : Int32
  openPrice : ℤ
  preClosePrice : ℤ
  closePrice : ℤ
  upperLimitPrice : ℤ
  lowerLimitPrice : ℤ

structure OrderBook where
  bidQty : List ℤ := []
  askQty : List ℤ := []
  /-- `std::map<int32_t, int32_t>` -/
  ordPrice : Std.ExtTreeMap ℤ ℤ := ∅
  snapshots : List Snap := []
  stock : Int32 := 0
  preClosePrice : ℤ := 0
  upperLimitPrice : ℤ := 0
  lowerLimitPrice : ℤ := 0
  realOpenPrice : ℤ := 0
  closePrice : ℤ := 0
  virtOpenPrice : ℤ := 0
  virtOpenMatchedQty : ℤ := 0
  virtOpenUnmatchedQty : ℤ := 0
  virtOpenBidRemainQty : ℤ := 0
  virtOpenAskRemainQty : ℤ := 0
  openPrice : ℤ := 0
  lastTimestamp : ℤ := 0
  numTrades : ℤ := 0
  volume : ℤ := 0
  amount : ℤ := 0
  lastPrice : ℤ := 0

namespace OrderBook

/-- The initialization of a new book; it throws for a negative number of levels. -/
def initStat (stat : Stat) : Option OrderBook :=
  let levels := stat.upperLimitPrice - stat.lowerLimitPrice + 1
  if levels < 0 ∨ levels ≥ 2 ^ 31 then none
  else some {
    bidQty := List.replicate levels.toNat 0
    askQty := List.replicate levels.toNat 0
    stock := stat.stock
    preClosePrice := stat.preClosePrice
    upperLimitPrice := stat.upperLimitPrice
    lowerLimitPrice := stat.lowerLimitPrice
    realOpenPrice := stat.openPrice
    closePrice := stat.closePrice
    virtOpenPrice := stat.preClosePrice
    lastTimestamp := 91500000 }

/-- The quantities of a side. -/
def qty (ob : OrderBook) : Side → List ℤ
  | .buy => ob.bidQty
  | .sell => ob.askQty

def setQty (ob : OrderBook) (levels : List ℤ) : Side → OrderBook
  | .buy => { ob with bidQty := levels }
  | .sell => { ob with askQty := levels }

/-- The index of a price. -/
def level (ob : OrderBook) (price : ℤ) : Option ℕ :=
  if price ≥ ob.lowerLimitPrice ∧ price ≤ ob.upperLimitPrice then
    some (price - ob.lowerLimitPrice).toNat
  else none

def qtyAt (ob : OrderBook) (side : Side) (price : ℤ) : Option ℤ := do
  let i ← ob.level price
  (ob.qty side)[i]?

def bidQtyAt (ob : OrderBook) (price : ℤ) : Option ℤ := ob.qtyAt .buy price

def askQtyAt (ob : OrderBook) (price : ℤ) : Option ℤ := ob.qtyAt .sell price

/-- `bidQtyAt(price) += quantity`, and the same for `askQtyAt`. -/
def addQtyAt (ob : OrderBook) (side : Side) (price quantity : ℤ) : Option OrderBook := do
  let i ← ob.level price
  let x ← (ob.qty side)[i]?
  some (ob.setQty ((ob.qty side).set i (Word.toSigned 32 (x + quantity))) side)

/-- One side of a trade: an order that is not kept changes no level. -/
def fillAt (ob : OrderBook) (side : Side) (orderNo quantity : ℤ) : Option OrderBook :=
  match ob.ordPrice[orderNo]? with
  | some price => ob.addQtyAt side price (-quantity)
  | none => some ob

/-- The map of an order or a cancel, and the tick: a cancel takes the price of its
    order. -/
def keepPrice (ob : OrderBook) (tick : Tick) : OrderBook × Tick :=
  if tick.isOrderCancel then
    match ob.ordPrice[tick.orderNo]? with
    | some price => ({ ob with ordPrice := ob.ordPrice.erase tick.orderNo }, { tick with price })
    | none => (ob, tick)
  else if tick.price ≠ 0 then
    ({ ob with ordPrice := ob.ordPrice.insertIfNew tick.orderNo tick.price }, tick)
  else (ob, tick)

/-- `addTick`, with the tick it leaves. -/
def addTick (ob : OrderBook) (tick : Tick) : Option (OrderBook × Tick) :=
  if tick.isOrder then do
    let (ob, tick) := ob.keepPrice tick
    let ob ←
      if tick.isBuyOrder then
        if tick.price ≠ 0 then ob.addQtyAt .buy tick.price tick.quantity else some ob
      else
        if tick.price ≠ 0 then ob.addQtyAt .sell tick.price tick.quantity else some ob
    some (ob, tick)
  else if tick.isTrade then do
    let ob ← ob.fillAt .buy tick.buyOrderNo tick.quantity
    let ob ← ob.fillAt .sell tick.sellOrderNo tick.quantity
    some ({ ob with
      openPrice := if ob.openPrice = 0 then tick.price else ob.openPrice
      numTrades := Word.toSigned 32 (ob.numTrades + 1)
      volume := Word.toSigned 32 (ob.volume + tick.quantity)
      amount := Word.toSigned 64 (ob.amount + tick.price * tick.quantity)
      lastPrice := tick.price }, tick)
  else some (ob, tick)

def addTicks (ob : OrderBook) (ticks : List Tick) : Option OrderBook :=
  ticks.foldlM (fun ob tick => (ob.addTick tick).map Prod.fst) ob

end OrderBook

end L2
