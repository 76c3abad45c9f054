/-
  The compute thread's state of one stock (`StockCompute.h`, `StockCompute.cpp`).

  Ticks maintain the resting sell orders near the limit price (`upSellOrders`)
  and the series of 100 ms snapshots (`fState`).  When trading approaches the
  limit, `computeFutureWantBuy` runs the series ahead as if these orders were
  bought, asks the model, pushes the decision to the want cache, and takes the
  run back.

  A call that dereferences a null pointer or never returns yields `none`.  The
  model is a parameter: it is a function of the state in which it is asked.
-/
import Mdd2.IIRState
import Mdd2.StockState

namespace Mdd2

structure Snapshot where
  lastPrice : ℤ := 0
  numTrades : ℤ := 0
  volume : ℤ := 0
  amount : ℤ := 0
  deriving DecidableEq

/-- A trade counted, as the types of the counters hold it. -/
def Snapshot.count (s : Snapshot) (price quantity : ℤ) : Snapshot :=
  { s with
    numTrades := Word.toSigned 32 (s.numTrades + 1)
    volume := Word.toSigned 64 (s.volume + quantity)
    amount := Word.toSigned 64 (s.amount + price * quantity) }

structure FState (R : Type) where
  nextTickTimestamp : ℤ := 0
  currSnapshot : Snapshot := {}
  snapshots : List Snapshot := []
  iirState : Option (IIRState R) := none

structure BState (R : Type) where
  nextTickTimestamp : ℤ := 0
  currSnapshot : Snapshot := {}
  oldSnapshotsCount : ℕ := 0
  iirState : Option (IIRState R) := none
  savingMode : Bool := false

structure UpSell where
  price : ℤ
  quantity : ℤ
  deriving DecidableEq

/-- `absl::btree_map<int32_t, UpSell>`. -/
abbrev UpSellOrders := Std.ExtTreeMap ℤ UpSell

structure StockCompute (R : Type) where
  stockCode : Int32 := 0
  upperLimitPrice : ℤ := 0
  preClosePrice : ℤ := 0
  upperLimitPriceApproach : ℤ := 0
  alive : Bool := false
  approachingLimitUp : Bool := false
  fState : FState R := {}
  bState : BState R := {}
  futureTimestamp : ℤ := 0
  firstCompute : Bool := false
  upSellOrders : UpSellOrders := ∅
  openPrice : ℤ := 0
  openVolume : ℤ := 0

/-- A slot and what was decided for it. -/
structure Decision where
  timestamp : ℤ
  wantBuy : Bool
  deriving DecidableEq

variable {R : Type} [FactorScalar R]

/-! ## Snapshots -/

namespace FState

def stepSnapshot (f : FState R) : Option (FState R) :=
  match f.iirState with
  | none => none
  | some iirState => some { f with
      iirState := some (iirState.addVolumeTick (f.currSnapshot.volume : R))
      snapshots := f.snapshots ++ [f.currSnapshot]
      currSnapshot := { f.currSnapshot with numTrades := 0, volume := 0, amount := 0 } }

/-- The `while` loop of `stepSnapshotUntil`, for at most `fuel` rounds. -/
def stepSnapshotLoop : ℕ → ℤ → FState R → Option (FState R)
  | 0, _, _ => none
  | fuel + 1, timestamp, f =>
    let f := { f with nextTickTimestamp := timestampAdvance100ms f.nextTickTimestamp }
    if timestamp > f.nextTickTimestamp then do
      let f ← f.stepSnapshot
      stepSnapshotLoop fuel timestamp f
    else some f

/-- The number of 100 ms slots of a day: a loop that has not ended after that
    many rounds has come back to a slot it has seen. -/
def slotsPerDay : ℕ := 864000

def stepSnapshotUntil (f : FState R) (timestamp : ℤ) : Option (FState R) :=
  if timestamp > f.nextTickTimestamp then do
    let f ← f.stepSnapshot
    stepSnapshotLoop slotsPerDay timestamp f
  else some f

def addRealTrade (f : FState R) (timestamp price quantity : ℤ) : Option (FState R) := do
  let f ← f.stepSnapshotUntil timestamp
  some { f with currSnapshot := { f.currSnapshot.count price quantity with lastPrice := price } }

end FState

/-! ## Resting sell orders -/

namespace UpSellOrders

/-- A trade of `quantity` with the order `no`, if it is tracked. -/
def fill (m : UpSellOrders) (no quantity : ℤ) : UpSellOrders :=
  match m[no]? with
  | none => m
  | some sell =>
    let sell := { sell with quantity := sell.quantity - quantity }
    if sell.quantity ≤ 0 then m.erase no else m.insert no sell

def amount (m : UpSellOrders) : ℤ :=
  m.foldl (fun amount _ sell => Word.toSigned 64 (amount + sell.price * sell.quantity)) 0

end UpSellOrders

namespace StockCompute

def upSellOrderAmount (c : StockCompute R) : ℤ := c.upSellOrders.amount

/-- `floor(upperLimitPrice / 1.02) - 1`; the quotient of a price in cents is
    never within a rounding error below an integer. -/
def approachPrice (upperLimitPrice : ℤ) : ℤ := upperLimitPrice * 100 / 102 - 1

def start (c : StockCompute R) (s : StockState) : StockCompute R :=
  if s.alive then { c with
    stockCode := s.stockCode
    upperLimitPrice := s.upperLimitPrice
    preClosePrice := s.preClosePrice
    upperLimitPriceApproach := approachPrice s.upperLimitPrice
    openPrice := s.preClosePrice
    fState := { c.fState with
      currSnapshot := { lastPrice := s.preClosePrice, numTrades := 0, volume := 0, amount := 0 }
      iirState := some IIRState.zero
      nextTickTimestamp := 93000000 }
    bState := { c.bState with iirState := some IIRState.zero }
    futureTimestamp := 93000000
    alive := true }
  else c

def stop (c : StockCompute R) : StockCompute R :=
  { c with alive := false, approachingLimitUp := false }

def clearApproach (c : StockCompute R) : StockCompute R := { c with approachingLimitUp := false }

def checkApproach (c : StockCompute R) : StockCompute R × Bool :=
  if c.approachingLimitUp then
    ({ c with futureTimestamp := c.fState.nextTickTimestamp, firstCompute := true }, true)
  else (c, false)

/-! ## Ticks -/

def onOrderReplay (c : StockCompute R) (tick : L2.Tick) : StockCompute R :=
  if tick.isSellOrder ∧ tick.price ≥ c.upperLimitPriceApproach then
    { c with
      upSellOrders := c.upSellOrders.insertIfNew tick.orderNo ⟨tick.price, tick.quantity⟩ }
  else c

def onOrderNeSh (c : StockCompute R) (tick : Image) : StockCompute R :=
  if TickMergeSse.tickBSFlag tick = '1'.toNat
      ∧ TickMergeSse.price tick ≥ Word.toUnsigned 32 (c.upperLimitPriceApproach * 10) then
    { c with
      upSellOrders := c.upSellOrders.insertIfNew (Word.toSigned 32 (TickMergeSse.sellOrderNo tick))
        ⟨Word.toSigned 32 ↑(TickMergeSse.price tick / 10),
          Word.toSigned 32 ↑(TickMergeSse.qty tick / 1000)⟩ }
  else c

/-- The insertion of the Shenzhen handlers, reading the image as an order
    record. -/
def insertOrderSz (c : StockCompute R) (tick : Image) : StockCompute R :=
  { c with
    upSellOrders := c.upSellOrders.insertIfNew (Word.toSigned 32 (OrderSz.applSeqNum tick))
      ⟨Word.toSigned 32 ↑(OrderSz.price tick / 100), Word.toSigned 32 ↑(OrderSz.qty tick / 100)⟩ }

def onOrderNeSz (c : StockCompute R) (tick : Image) : StockCompute R :=
  if OrderSz.side tick = '2'.toNat ∧ OrderSz.orderType tick = '2'.toNat
      ∧ OrderSz.price tick ≥ Word.toUnsigned 64 (c.upperLimitPriceApproach * 100) then
    c.insertOrderSz tick
  else c

/-- The OST builds track no orders. -/
def onOrder (b : Build) (c : StockCompute R) (tick : b.Tick) : StockCompute R :=
  match b, tick with
  | .replay _, tick => c.onOrderReplay tick
  | .ne .SH, tick => c.onOrderNeSh tick
  | .ne .SZ, tick => c.onOrderNeSz tick
  | .ost _, _ => c

def onCancelReplay (c : StockCompute R) (tick : L2.Tick) : StockCompute R :=
  if tick.isSellOrder then { c with upSellOrders := c.upSellOrders.erase tick.orderNo } else c

def onCancelNeSh (c : StockCompute R) (tick : Image) : StockCompute R :=
  if TickMergeSse.tickBSFlag tick = '1'.toNat then
    { c with
      upSellOrders := c.upSellOrders.erase (Word.toSigned 32 (TickMergeSse.sellOrderNo tick)) }
  else c

/-- The Shenzhen cancel handler is the order handler without its tests: it
    reads the trade record as an order record, and inserts. -/
def onCancelNeSz (c : StockCompute R) (tick : Image) : StockCompute R :=
  if OrderSz.price tick ≥ Word.toUnsigned 64 (c.upperLimitPriceApproach * 100) then
    c.insertOrderSz tick
  else c

def onCancel (b : Build) (c : StockCompute R) (tick : b.Tick) : StockCompute R :=
  match b, tick with
  | .replay _, tick => c.onCancelReplay tick
  | .ne .SH, tick => c.onCancelNeSh tick
  | .ne .SZ, tick => c.onCancelNeSz tick
  | .ost _, _ => c

def addRealTrade (c : StockCompute R) (timestamp price quantity : ℤ) :
    Option (StockCompute R) := do
  let f ← c.fState.addRealTrade timestamp price quantity
  some { c with fState := f }

/-- The body the trade handlers share, on the values they read: a trade of the
    call auction only sets the opening price and volume. -/
def onTradeOf (c : StockCompute R) (sellOrderNo : ℤ) (openCall : Bool)
    (timestamp price quantity : ℤ) : Option (StockCompute R) :=
  let c := { c with upSellOrders := c.upSellOrders.fill sellOrderNo quantity }
  if openCall then
    some { c with
      openPrice := price
      openVolume := Word.toSigned 64 (c.openVolume + quantity)
      fState :=
        { c.fState with currSnapshot := { c.fState.currSnapshot with lastPrice := price } } }
  else
    let c := if price ≥ c.upperLimitPriceApproach then { c with approachingLimitUp := true } else c
    c.addRealTrade timestamp price quantity

def onTradeReplay (c : StockCompute R) (tick : L2.Tick) : Option (StockCompute R) :=
  c.onTradeOf tick.sellOrderNo (tick.timestamp < 93000000) tick.timestamp tick.price tick.quantity

def onTradeNeSh (c : StockCompute R) (tick : Image) : Option (StockCompute R) :=
  c.onTradeOf (Word.toSigned 32 (TickMergeSse.sellOrderNo tick))
    (TickMergeSse.tickTime tick < 9300000)
    (Word.toSigned 32 (Word.toUnsigned 32 (TickMergeSse.tickTime tick * 10)))
    (Word.toSigned 32 ↑(TickMergeSse.price tick / 10))
    (Word.toSigned 32 ↑(TickMergeSse.qty tick / 1000))

def onTradeNeSz (c : StockCompute R) (tick : Image) : Option (StockCompute R) :=
  let timestamp := Word.toSigned 32 ↑(TradeSz.transactTime tick % 1000000000)
  c.onTradeOf (Word.toSigned 32 (TradeSz.offerapplSeqnum tick)) (timestamp < 93000000) timestamp
    (Word.toSigned 32 ↑(TradeSz.tradePrice tick / 100))
    (Word.toSigned 32 ↑(TradeSz.tradeQty tick / 100))

def onTrade (b : Build) (c : StockCompute R) (tick : b.Tick) : Option (StockCompute R) :=
  match b, tick with
  | .replay _, tick => c.onTradeReplay tick
  | .ne .SH, tick => c.onTradeNeSh tick
  | .ne .SZ, tick => c.onTradeNeSz tick
  | .ost _, _ => some c

end StockCompute

/-- What `StockCompute::onTick` calls for a tick.  The end sign is logged with
    its time and the intent as a number, and stops the stock. -/
inductive Call where
  | logLimitUp (tickTimestamp intent : ℤ)
  | onOrder
  | onCancel
  | onTrade
  deriving DecidableEq

def dispatchReplay (tick : L2.Tick) : Option Call :=
  if tick.quantity = 0 then
    some (.logLimitUp (tick.timestamp.tdiv 10 * 10) (tick.timestamp.tmod 10))
  else if tick.isOrder then
    if tick.isOrderCancel then some .onCancel else some .onOrder
  else if tick.isTrade then some .onTrade
  else none

/-- The Shanghai records of the live feeds. -/
def dispatchSh (tickType tickTime bsFlag : ℕ) : Option Call :=
  if tickType = 0 then
    some (.logLimitUp (Word.toSigned 32 (Word.toUnsigned 32 (tickTime * 10)))
      (Word.toSigned 8 bsFlag))
  else if tickType = 'A'.toNat then some .onOrder
  else if tickType = 'D'.toNat then some .onCancel
  else if tickType = 'T'.toNat then some .onTrade
  else none

/-- The Shenzhen records of the live feeds, whose message types differ. -/
def dispatchSz (typeTrade typeOrder messageType execType time : ℕ) : Option Call :=
  if messageType = 0 then
    some (.logLimitUp (Word.toSigned 32 ↑(time / 10 * 10)) ↑(time % 10))
  else if messageType = typeTrade then
    if execType = 0x1 then some .onCancel else some .onTrade
  else if messageType = typeOrder then some .onOrder
  else none

def dispatch (b : Build) (tick : b.Tick) : Option Call :=
  match b, tick with
  | .replay _, tick => dispatchReplay tick
  | .ne .SH, tick =>
    dispatchSh (TickMergeSse.tickType tick) (TickMergeSse.tickTime tick)
      (TickMergeSse.tickBSFlag tick)
  | .ne .SZ, tick =>
    dispatchSz msgTypeTradeSz msgTypeOrderSz (neMessageType tick) (TradeSz.execType tick)
      (TradeSz.transactTime tick)
  | .ost .SH, tick =>
    dispatchSh (SseHpfTick64.tickType tick) (SseHpfTick64.tickTime tick)
      (SseHpfTick64.sideFlag tick)
  | .ost .SZ, tick =>
    dispatchSz szeMsgTypeTrade szeMsgTypeOrder (SzeHpfPktHead64.messageType tick)
      (SzeHpfExePkt64.exeType tick) (SzeHpfPktHead64.quoteUpdateTime tick)

namespace StockCompute

def perform (b : Build) (c : StockCompute R) (tick : b.Tick) : Call → Option (StockCompute R)
  | .logLimitUp _ _ => some c.stop
  | .onOrder => some (c.onOrder b tick)
  | .onCancel => some (c.onCancel b tick)
  | .onTrade => c.onTrade b tick

/-- The call `onTick` makes, if any. -/
def calls (b : Build) (c : StockCompute R) (tick : b.Tick) : Option Call :=
  if c.alive then dispatch b tick else none

def onTick (b : Build) (c : StockCompute R) (tick : b.Tick) : Option (StockCompute R) :=
  match c.calls b tick with
  | none => some c
  | some call => c.perform b tick call

/-- The compute thread on the ticks of one stock that it takes from the ring. -/
def runTicks (b : Build) : StockCompute R → List b.Tick → Option (StockCompute R)
  | c, [] => some c
  | c, tick :: ticks => do
    let c ← c.onTick b tick
    c.runTicks b ticks

/-! ## The decision -/

def saveSnapshot (c : StockCompute R) : Option (StockCompute R) :=
  match c.fState.iirState, c.bState.iirState with
  | some iirState, some _ => some { c with
      bState := {
        savingMode := true
        nextTickTimestamp := c.fState.nextTickTimestamp
        currSnapshot := c.fState.currSnapshot
        oldSnapshotsCount := c.fState.snapshots.length
        iirState := c.fState.iirState }                     -- after the swap
      fState := { c.fState with iirState := some iirState } }
  | _, _ => none

/-- `std::vector::resize`. -/
def resize (l : List Snapshot) (n : ℕ) : List Snapshot :=
  l.take n ++ List.replicate (n - l.length) ({} : Snapshot)

def restoreSnapshot (c : StockCompute R) : StockCompute R :=
  { c with
    bState := { c.bState with savingMode := false, iirState := c.fState.iirState }
    fState := {
      nextTickTimestamp := c.bState.nextTickTimestamp
      currSnapshot := c.bState.currSnapshot
      snapshots := resize c.fState.snapshots c.bState.oldSnapshotsCount
      iirState := c.bState.iirState } }

/-- All tracked orders are bought, at their own prices. -/
def buyUpSellOrders (m : UpSellOrders) (curr : Snapshot) : Snapshot :=
  m.foldl (fun curr _ sell => curr.count sell.price sell.quantity) curr

/-- `decideWantBuy`; without snapshots the model is not asked. -/
def decideWantBuy (model : StockCompute R → Bool) (c : StockCompute R) : Bool :=
  if c.fState.snapshots.isEmpty then false else model c

/-- The state in which `computeFutureWantBuy` asks the model. -/
def speculate (c : StockCompute R) : Option (StockCompute R) := do
  let c ← c.saveSnapshot
  let f ← c.fState.stepSnapshotUntil c.futureTimestamp
  let f := { f with currSnapshot :=
    { buyUpSellOrders c.upSellOrders f.currSnapshot with lastPrice := c.upperLimitPrice } }
  let f ← f.stepSnapshot
  some { c with fState := f }

def computeFutureWantBuy (model : StockCompute R → Bool) (c : StockCompute R) (w : WantCache) :
    Option (StockCompute R × WantCache × Decision) := do
  let c ← c.speculate
  let wantBuy := decideWantBuy model c
  let w := w.pushWantBuyTimestamp c.futureTimestamp wantBuy
  some (c.restoreSnapshot, w, ⟨c.futureTimestamp, wantBuy⟩)

/-- One decision of `onApproach`, with the advance after it. -/
def approachStep (model : StockCompute R → Bool) (c : StockCompute R) (w : WantCache) :
    Option (StockCompute R × WantCache × Decision) := do
  let (c, w, d) ← c.computeFutureWantBuy model w
  some ({ c with futureTimestamp := timestampAdvance100ms c.futureTimestamp }, w, d)

/-- `onApproach`, with the decisions pushed. -/
def onApproach (model : StockCompute R → Bool) (c : StockCompute R) (w : WantCache) :
    Option (StockCompute R × WantCache × List Decision) :=
  if c.approachingLimitUp then do
    let (c, w, d) ← c.approachStep model w
    if c.firstCompute then do
      let (c, w, d') ← approachStep model { c with firstCompute := false } w
      some (c, w, [d, d'])
    else some (c, w, [d])
  else some (c, w, [])

end StockCompute

end Mdd2
