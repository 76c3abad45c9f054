/-
  The tick thread's state of one stock (`StockState.h`, `StockState.cpp`).

  While the stock is alive, `onTick` forwards every tick to the tick ring, up
  to the first limit-up tick.  On that one it asks the want cache, may send the
  buy request, and stops: it pushes an end sign, whose time field carries the
  limit-up time and the answer of the cache.

  What a tick has to satisfy differs from build to build (`limitUp`); the rest
  of `onTick` is common.  A call returns its effects in order.
-/
import Mdd2.MDS
import Mdd2.WantCache

namespace Mdd2

/-- Members of all builds; those a build lacks keep their initial value. -/
structure StockState where
  stockCode : Int32 := 0
  upperLimitPrice : ℤ := 0
  preClosePrice : ℤ := 0
  alive : Bool := false
  /-- NE and OST, Shanghai (`uint32_t`) -/
  upperLimitPrice1000 : ℕ := 0
  /-- NE and OST, Shenzhen (`uint64_t`, `uint64_t`, `int64_t`) -/
  upperLimitPrice10000 : ℕ := 0
  offsetTransactTime : ℕ := 0
  upRemainQty100 : ℤ := 0
  /-- replay, Shenzhen (`uint64_t`) -/
  upRemainQty : ℕ := 0

/-- What a call does outside the state: send the order, or write to the ring. -/
inductive Effect (b : Build) where
  | sendBuyRequest
  | pushTick (tick : b.Tick)

/-- The ticks pushed to the ring. -/
def pushed {b : Build} (es : List (Effect b)) : List b.Tick :=
  es.filterMap fun
    | .pushTick t => some t
    | .sendBuyRequest => none

namespace StockState

def start (stockCode : Int32) : StockState := { stockCode }

/-- The end of `onStatic`: a stock without a limit price stays dead. -/
def watch (s : StockState) (upperLimitPrice : ℤ) : StockState :=
  if upperLimitPrice = 0 then s else { s with alive := true }

/-- `onStatic`.  In the OST builds the limit price is a local variable, and the
    member keeps its value. -/
def onStatic (b : Build) (s : StockState) (stat : Stat) : StockState :=
  match b with
  | .replay _ =>
    let s := { s with preClosePrice := stat.preClosePrice, upperLimitPrice := stat.upperLimitPrice }
    s.watch s.upperLimitPrice
  | .ne .SH =>
    if stat.marketType = .SH then
      let s := { s with
        preClosePrice := stat.preClosePrice
        upperLimitPrice := stat.upperLimitPrice
        upperLimitPrice1000 := Word.toUnsigned 32 (stat.upperLimitPrice * 10) }
      s.watch s.upperLimitPrice
    else s
  | .ne .SZ =>
    if stat.marketType = .SZ then
      let s := { s with
        preClosePrice := stat.preClosePrice
        upperLimitPrice := stat.upperLimitPrice
        upperLimitPrice10000 := Word.toUnsigned 64 (stat.upperLimitPrice * 100)
        offsetTransactTime := Word.toUnsigned 64 (stat.tradingDay * 1000000000) }
      s.watch s.upperLimitPrice
    else s
  | .ost .SH =>
    let s := { s with upperLimitPrice1000 := Word.toUnsigned 32 (stat.upperLimitPrice * 10) }
    s.watch stat.upperLimitPrice
  | .ost .SZ =>
    let s := { s with
      upperLimitPrice10000 := Word.toUnsigned 64 (stat.upperLimitPrice * 100)
      offsetTransactTime := Word.toUnsigned 64 (stat.tradingDay * 1000000000) }
    s.watch stat.upperLimitPrice

/-! ## The end sign -/

/-- `sprintf(dst, "%06d", stockCode)`, with the terminating zero. -/
def securityID (stockCode : Int32) : List (BitVec 8) :=
  let digits := Nat.toDigits 10 stockCode.toInt.natAbs
  let chars := if stockCode.toInt < 0 then '-' :: List.leftpad 5 '0' digits
    else List.leftpad 6 '0' digits
  chars.map (fun c => BitVec.ofNat 8 c.toNat) ++ [0]

/-- The end sign `stop` writes. -/
def endSign (b : Build) (stockCode : Int32) (timestamp : ℤ) : b.Tick :=
  match b with
  | .replay _ =>
    { stock := stockCode, timestamp, price := 0, quantity := 0, buyOrderNo := 0, sellOrderNo := 0 }
  | .ne .SH =>
    let m : Image := 0
    let m := Packed.setField m 15 1 0                                     -- tickType
    let m := Packed.setBytes m 6 (securityID stockCode)
    let m := Packed.setField m 29 4 (BitVec.ofInt _ (timestamp.tdiv 10))  -- tickTime
    Packed.setField m 16 1 (BitVec.ofInt _ (timestamp.tmod 10))           -- tickBSFlag
  | .ne .SZ =>
    let m : Image := 0
    let m := Packed.setField m 0 1 0                                      -- messageType
    let m := Packed.setBytes m 6 (securityID stockCode)
    Packed.setField m 24 8 (BitVec.ofInt _ timestamp)                     -- transactTime
  | .ost .SH =>
    let m : Image := 0
    let m := Packed.setField m 23 1 0                                     -- m_tick_type
    let m := Packed.setBytes m 8 (securityID stockCode)
    Packed.setField m 19 4 (BitVec.ofInt _ timestamp)                     -- m_tick_time
  | .ost .SZ =>
    let m : Image := 0
    let m := Packed.setField m 0 1 0                                      -- m_message_type
    let m := Packed.setBytes m 3 (securityID stockCode)
    Packed.setField m 13 8 (BitVec.ofInt _ timestamp)                     -- m_quote_update_time

def stop (b : Build) (s : StockState) (timestamp : ℤ) : StockState × List (Effect b) :=
  if s.alive then ({ s with alive := false }, [.pushTick (endSign b s.stockCode timestamp)])
  else (s, [])

/-! ## The limit-up tick -/

/-- `upRemainQty100 -= qty`, computed in `uint64_t`. -/
def subRemainQty100 (s : StockState) (qty : ℕ) : StockState :=
  { s with upRemainQty100 := Word.toSigned 64 (s.upRemainQty100 - qty) }

def addRemainQty100 (s : StockState) (qty : ℕ) : StockState :=
  { s with upRemainQty100 := Word.toSigned 64 (s.upRemainQty100 + qty) }

/-- The time of day of a Shenzhen record: the difference is taken in
    `uint64_t` and cut to 32 bits. -/
def timeOfDay (s : StockState) (transactTime : ℕ) : ℤ :=
  Word.toSigned 32 (Word.toUnsigned 64 (transactTime - s.offsetTransactTime))

/-- What an NE or OST Shenzhen trade at the limit price does: it lowers the
    counter, and a trade proper that makes it negative is the limit-up tick. -/
def tradeAtLimitSz (s : StockState) (qty execType transactTime : ℕ) : StockState × Option ℤ :=
  let s := s.subRemainQty100 qty
  if s.upRemainQty100 < 0 ∧ execType = 0x2 then
    let timestamp := s.timeOfDay transactTime
    if 93000000 ≤ timestamp ∧ timestamp < 145700000 then (s, some timestamp) else (s, none)
  else (s, none)

def limitUpReplaySh (s : StockState) (tick : L2.Tick) : StockState × Option ℤ :=
  if tick.buyOrderNo ≠ 0 ∧ tick.sellOrderNo = 0 ∧ tick.quantity > 0
      ∧ tick.price = s.upperLimitPrice
      ∧ tick.timestamp ≥ 93000000 ∧ tick.timestamp < 145700000 then
    (s, some tick.timestamp)
  else (s, none)

/-- The comparison with the counter converts the quantity to `uint64_t`. -/
def limitUpReplaySz (s : StockState) (tick : L2.Tick) : StockState × Option ℤ :=
  if tick.buyOrderNo ≠ 0 ∧ tick.sellOrderNo = 0
      ∧ Word.toUnsigned 64 tick.quantity > s.upRemainQty
      ∧ tick.price = s.upperLimitPrice
      ∧ tick.timestamp ≥ 93000000 ∧ tick.timestamp < 145700000 then
    (s, some tick.timestamp)
  else if tick.sellOrderNo ≠ 0 ∧ tick.price = s.upperLimitPrice then
    if tick.buyOrderNo = 0 then
      ({ s with upRemainQty := Word.toUnsigned 64 (s.upRemainQty + tick.quantity) }, none)
    else
      ({ s with upRemainQty := Word.toUnsigned 64 (s.upRemainQty - tick.quantity) }, none)
  else (s, none)

/-- A Shanghai order of the live feeds: `'A'` is a new order, side `'0'` a buy,
    and times are in units of 10 ms. -/
def limitUpSh (s : StockState) (tickType bsFlag price tickTime : ℕ) : StockState × Option ℤ :=
  if tickType = 'A'.toNat ∧ bsFlag = '0'.toNat ∧ price = s.upperLimitPrice1000
      ∧ tickTime ≥ 9300000 ∧ tickTime < 14570000 then
    (s, some (Word.toSigned 32 (Word.toUnsigned 32 (tickTime * 10))))
  else (s, none)

def limitUpNeSh (s : StockState) (tick : Image) : StockState × Option ℤ :=
  s.limitUpSh (TickMergeSse.tickType tick) (TickMergeSse.tickBSFlag tick)
    (TickMergeSse.price tick) (TickMergeSse.tickTime tick)

def limitUpNeSz (s : StockState) (tick : Image) : StockState × Option ℤ :=
  if neMessageType tick = msgTypeTradeSz then
    if TradeSz.tradePrice tick = s.upperLimitPrice10000 then
      s.tradeAtLimitSz (TradeSz.tradeQty tick) (TradeSz.execType tick) (TradeSz.transactTime tick)
    else (s, none)
  else if neMessageType tick = msgTypeOrderSz then
    if OrderSz.side tick = '2'.toNat ∧ OrderSz.orderType tick = '2'.toNat
        ∧ OrderSz.price tick = s.upperLimitPrice10000 then
      (s.addRemainQty100 (OrderSz.qty tick), none)
    else (s, none)
  else (s, none)

def limitUpOstSh (s : StockState) (tick : Image) : StockState × Option ℤ :=
  s.limitUpSh (SseHpfTick64.tickType tick) (SseHpfTick64.sideFlag tick)
    (SseHpfTick64.orderPrice tick) (SseHpfTick64.tickTime tick)

def limitUpOstSz (s : StockState) (tick : Image) : StockState × Option ℤ :=
  if SzeHpfPktHead64.messageType tick = szeMsgTypeTrade then
    if SzeHpfExePkt64.exePx tick = s.upperLimitPrice10000 then
      s.tradeAtLimitSz (SzeHpfExePkt64.exeQty tick) (SzeHpfExePkt64.exeType tick)
        (SzeHpfPktHead64.quoteUpdateTime tick)
    else (s, none)
  else if SzeHpfPktHead64.messageType tick = szeMsgTypeOrder then
    if SzeHpfOrderPkt64.side tick = '2'.toNat ∧ SzeHpfOrderPkt64.orderType tick = '2'.toNat
        ∧ SzeHpfOrderPkt64.px tick = s.upperLimitPrice10000 then
      (s.addRemainQty100 (SzeHpfOrderPkt64.qty tick), none)
    else (s, none)
  else (s, none)

/-- `onTick` before the want cache is asked: the state with its counter
    updated, and the time of the tick if it is the limit-up tick. -/
def limitUp (b : Build) (s : StockState) (tick : b.Tick) : StockState × Option ℤ :=
  match b, tick with
  | .replay .SH, tick => s.limitUpReplaySh tick
  | .replay .SZ, tick => s.limitUpReplaySz tick
  | .ne .SH, tick => s.limitUpNeSh tick
  | .ne .SZ, tick => s.limitUpNeSz tick
  | .ost .SH, tick => s.limitUpOstSh tick
  | .ost .SZ, tick => s.limitUpOstSz tick

/-- `onTick` after the want cache has answered. -/
def onIntent (b : Build) (alwaysBuy : Bool) (s : StockState) (timestamp : ℤ)
    (intent : WantCache.Intent) : StockState × List (Effect b) :=
  let buy := if intent = .WantBuy ∨ alwaysBuy then [.sendBuyRequest] else []
  let r := s.stop b (timestamp + intent.toInt)
  (r.1, buy ++ r.2)

/-- `onTick`; `check` is the answer of the want cache. -/
def onTick (b : Build) (alwaysBuy : Bool) (check : ℤ → WantCache.Intent) (s : StockState)
    (tick : b.Tick) : StockState × List (Effect b) :=
  if s.alive then
    match s.limitUp b tick with
    | (s, some timestamp) => s.onIntent b alwaysBuy timestamp (check timestamp)
    | (s, none) => (s, [.pushTick tick])
  else (s, [])

end StockState

end Mdd2
