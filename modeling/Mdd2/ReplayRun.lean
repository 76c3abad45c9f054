/-
  The replay of a day (`MDS_replay.cpp`, `OES_replay.cpp`), with the whole program.

  `startReceive` publishes the metadata of the subscribed stocks, in the order of a hash
  set, and starts the replay thread.  That hands over one tick after the other; a buy
  request is answered before `sendReqOrder` returns.
-/
import Mdd2.Metadata
import Mdd2.Program
import Mdd2.Replay

namespace Mdd2

open MDD (InBounds channels)
open Program (Setup MainStep ThreadStep)

namespace ReplayRun

/-! ## Orders -/

structure ReqOrder where
  stockCode : Int32
  price : ℤ
  quantity : ℤ
  limitType : Char
  direction : Char
  deriving DecidableEq

/-- `OES::RspOrder`, as far as it is filled. -/
structure RspOrder where
  errorId : ℤ
  messageType : Char
  stockCode : Int32
  orderStatus : Char
  orderSysId : Int32
  orderPrice : ℤ
  orderQuantity : ℤ
  orderDirection : Char
  deriving DecidableEq

/-- The order that `onStatic` prepares, in the state that it has reached. -/
def initReqOrder (s : StockState) : ReqOrder where
  stockCode := s.stockCode
  price := s.upperLimitPrice
  quantity := 100
  limitType := 'U'
  direction := 'B'

/-- The response of `sendReqOrder`. -/
def rspOrder (orderSysId : Int32) (reqOrder : ReqOrder) : RspOrder where
  errorId := 0
  messageType := 'R'
  stockCode := reqOrder.stockCode
  orderStatus := 'O'
  orderSysId := orderSysId
  orderPrice := reqOrder.price
  orderQuantity := reqOrder.quantity
  orderDirection := reqOrder.direction

/-- The data of the day: the metadata file, the ticks as they are read, and the order of
    the hash set of subscribed stocks. -/
structure Day where
  metadata : Option (List Char)
  tickBuf : List L2.Tick
  subscribedStocks : List Int32

end ReplayRun

structure ReplayRun (m : Market) (R : Type) where
  program : Program (.replay m) R
  /-- the stocks that are not published yet -/
  unpublished : List Int32
  /-- the position in `tickBuf` -/
  i : ℕ
  reqOrders : Int32 → Option ReplayRun.ReqOrder
  orderSysId : Int32
  /-- the responses, each with the stock that it was dispatched to -/
  rspOrders : List (Int32 × ReplayRun.RspOrder)

namespace ReplayRun
variable {m : Market} {R : Type}

def init (p : Setup R) (day : Day) : ReplayRun m R where
  program := .init p
  unpublished := day.subscribedStocks
  i := 0
  reqOrders _ := none
  orderSysId := 1
  rspOrders := []

/-- `handleStatic` of metadata that is dispatched to a stock. -/
def handleStatic (w : ReplayRun m R) (id : Int32) (stat : MetadataStat) : ReplayRun m R :=
  let s := (w.program.states id).onStatic (.replay m) (.ofReplay m stat)
  { w with
    program := { w.program with states := Function.update w.program.states id s }
    reqOrders := if s.upperLimitPrice = 0 then w.reqOrders
      else Function.update w.reqOrders id (some (initReqOrder s)) }

/-- `sendReqOrder`, with `handleRspOrder` of the response. -/
def sendReqOrder (p : Setup R) (w : ReplayRun m R) (reqOrder : ReqOrder) : ReplayRun m R :=
  let rsp := rspOrder w.orderSysId reqOrder
  let id := lookupStockId m p.stockCodes rsp.stockCode
  { w with
    orderSysId := w.orderSysId + 1
    rspOrders := w.rspOrders ++ if id = -1 then [] else [(id, rsp)] }

/-- `sendBuyRequest` of a stock, if it wants to buy; `none` where it has no order. -/
def sendBuyRequest (p : Setup R) (w : ReplayRun m R) (id : Int32) (intent : WantCache.Intent) :
    Option (ReplayRun m R) :=
  if intent = .WantBuy then (w.reqOrders id).map (w.sendReqOrder p) else some w

/-- No call of `handleTick` is in progress. -/
def Idle (w : ReplayRun m R) : Prop := ∀ id, w.program.checking id = none

/-- The replay thread is at a tick of the file. -/
structure At (day : Day) (w : ReplayRun m R) (tick : L2.Tick) : Prop where
  receives : w.program.main.Receives
  tick : day.tickBuf[w.i]? = some tick

variable [FactorScalar R]

/-- One step; those of `handleTick` are as in the program, on the ticks of the file. -/
inductive Step (p : Setup R) (day : Day) : ReplayRun m R → ReplayRun m R → Prop
  | handleStatic {w : ReplayRun m R} {stock id : Int32} {stocks : List Int32}
      {stat : MetadataStat} : w.program.main = .statics → w.unpublished = stock :: stocks →
      Metadata.getStatic day.metadata stock = .ok stat →
      lookupStockId m p.stockCodes stat.stock = id → id ≠ -1 → InBounds p.stockCodes id →
      Step p day w { w.handleStatic id stat with unpublished := stocks }
  | dropStatic {w : ReplayRun m R} {stock : Int32} {stocks : List Int32} {stat : MetadataStat} :
      w.program.main = .statics → w.unpublished = stock :: stocks →
      Metadata.getStatic day.metadata stock = .ok stat →
      lookupStockId m p.stockCodes stat.stock = -1 →
      Step p day w { w with unpublished := stocks }
  | startReceive {w : ReplayRun m R} : w.program.main = .statics → w.unpublished = [] →
      Step p day w { w with program := { w.program with main := .startComputes 0 } }
  | main {w : ReplayRun m R} {v : Program (.replay m) R} : w.program.main ≠ .statics →
      MainStep p w.program v → Step p day w { w with program := v }
  | thread {w : ReplayRun m R} {v : Program (.replay m) R} {c : Int32} :
      c ∈ channels p.kChannelCount → ThreadStep p c w.program v →
      Step p day w { w with program := v }
  | dropTick {w : ReplayRun m R} {tick : L2.Tick} : w.Idle → w.At day tick →
      p.idOf (.replay m) tick = -1 → Step p day w { w with i := w.i + 1 }
  /-- a tick that is not the limit-up tick, or one of a dead stock -/
  | tick {w : ReplayRun m R} {tick : L2.Tick} {id c : Int32} (check : ℤ → WantCache.Intent)
      (reject : Bool) : w.Idle → w.At day tick → p.idOf (.replay m) tick = id → id ≠ -1 →
      InBounds p.stockCodes id → p.ring id = some c →
      ((w.program.states id).alive →
        ((w.program.states id).limitUp (.replay m) tick).2 = none) →
      w.program.Fits c ((w.program.states id).onTick (.replay m) false check tick) reject →
      Step p day w
        { w with
          program := w.program.emit id c
            ((w.program.states id).onTick (.replay m) false check tick) reject
          i := w.i + 1 }
  /-- the limit-up tick -/
  | check {w : ReplayRun m R} {tick : L2.Tick} {id : Int32} {timestamp : ℤ} : w.Idle →
      w.At day tick → p.idOf (.replay m) tick = id → id ≠ -1 → InBounds p.stockCodes id →
      (w.program.states id).alive →
      ((w.program.states id).limitUp (.replay m) tick).2 = some timestamp →
      Step p day w
        { w with
          program := { w.program.setChecking id
              (some ⟨timestamp, .first timestamp ((w.program.caches id).wantBuyTimestamp 0), 1⟩)
            with
            states := Function.update w.program.states id
              ((w.program.states id).limitUp (.replay m) tick).1 } }
  | load {w : ReplayRun m R} {id : Int32} {checking : Checking} (h : checking.loaded < 16) :
      InBounds p.stockCodes id → w.program.checking id = some checking →
      Step p day w
        { w with
          program := w.program.setChecking id (some { checking with
            scan := checking.scan.next ((w.program.caches id).wantBuyTimestamp ⟨checking.loaded, h⟩)
            loaded := checking.loaded + 1 }) }
  /-- the rest of `onTick` -/
  | answer {w v : ReplayRun m R} {id c : Int32} {checking : Checking} (reject : Bool) :
      InBounds p.stockCodes id → p.ring id = some c → w.program.checking id = some checking →
      checking.loaded = 16 →
      w.program.Fits c ((w.program.states id).onIntent (.replay m) false checking.timestamp
        checking.scan.intent) reject →
      w.sendBuyRequest p id checking.scan.intent = some v →
      Step p day w
        { v with
          program := (w.program.emit id c ((w.program.states id).onIntent (.replay m) false
            checking.timestamp checking.scan.intent) reject).setChecking id none
          i := w.i + 1 }

inductive Reachable (p : Setup R) (day : Day) : ReplayRun m R → Prop
  | init : Reachable p day (init p day)
  | step {w v : ReplayRun m R} : Reachable p day w → Step p day w v → Reachable p day v

end ReplayRun

end Mdd2
