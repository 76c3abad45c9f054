/-
  The whole program (`MDD::start`, `MDD::handleTick`, `computeThreadMain`, `MDD::stop`).

  The main thread publishes the static messages, starts the computes and then the compute
  threads; to stop, it waits for the compute threads one after the other, and stops the
  computes and the stocks.  Ticks arrive after the static messages, until it begins to
  stop; the calls for one stock do not overlap, and those for two stocks may.

  A step is one access to what the threads share.  A ring has one producer at a time, the
  thread of the feed and after it the main thread, and one consumer; a call of either is one
  step, since what it stores or releases is published at once.  `ALWAYS_BUY` is off.
-/
import Mdd2.ApproachSelect
import Mdd2.Channels
import Mdd2.System

namespace Mdd2

open MDD (InBounds tickRing channels idsFrom startId stopId)

/-- The slots of a ring, one of which stays unused. -/
def kRingSize : ℕ := 0x40000

namespace Program

/-- What does not change while the program runs. -/
structure Setup (R : Type) where
  kChannelCount : Int32
  stockCodes : List Int32
  model : StockCompute R → Bool
  nth_element : (approachStockIds : List Int32) → InPlace.Selection approachStockIds.length 2

namespace Setup
variable {R : Type} (p : Setup R)

/-- The number of channels. -/
def count : ℕ := p.kChannelCount.toInt.toNat

/-- The ids of a channel. -/
def range (c : Int32) : List Int32 :=
  idsFrom (startId p.kChannelCount p.stockCodes.length c)
    (stopId p.kChannelCount p.stockCodes.length c)

/-- The ring of a stock. -/
def ring (id : Int32) : Option Int32 := tickRing p.kChannelCount p.stockCodes.length id

/-- The id that a tick is dispatched to; `-1` drops it. -/
def idOf (b : Build) (tick : b.Tick) : Int32 :=
  lookupStockId b.market p.stockCodes (tickStockCode b tick)

end Setup

/-- Where the main thread is, with the number of stocks or channels that it has done. -/
inductive Main where
  | statics
  | startComputes (next : ℕ)
  | startThreads (next : ℕ)
  | run
  | stopThreads (next : ℕ)
  | stopComputes (next : ℕ)
  | stopStates (next : ℕ)
  deriving DecidableEq

/-- The quotes are received. -/
def Main.Receives : Main → Prop
  | startComputes _ | startThreads _ | run => True
  | _ => False

/-- Where a compute thread is, with what is left of the loop that it is in. -/
inductive Thread (b : Build) where
  | idle
  /-- at the head of the loop -/
  | top
  | clear (ids : List Int32)
  /-- at the head of the inner loop -/
  | fetch
  | ticks (tickBuf : List b.Tick)
  | check (ids approachStockIds : List Int32)
  | approach (ids : List Int32)
  /-- between the two decisions of `onApproach` -/
  | second (id : Int32) (ids : List Int32)
  /-- it has left the outer loop, or the inner one -/
  | ended (outer : Bool)

end Program

open Program

structure Program (b : Build) (R : Type) where
  main : Main
  states : Int32 → StockState
  /-- the calls of `checkWantBuyAtTimestamp` in progress -/
  checking : Int32 → Option Checking
  rings : Int32 → List b.Tick
  /-- the rings that have rejected a tick -/
  overflowed : Int32 → Bool
  threads : Int32 → Thread b
  computes : Int32 → StockCompute R
  caches : Int32 → WantCache
  /-- what the calls on each stock did -/
  effects : Int32 → List (Effect b)
  /-- the ticks that each compute was given -/
  handled : Int32 → List b.Tick
  /-- the decisions of each compute -/
  decisions : Int32 → List Decision

namespace Program
variable {b : Build} {R : Type}

/-- The stocks are configured. -/
def init (p : Setup R) : Program b R where
  main := .statics
  states id := .start (p.stockCodes.getD id.toInt.toNat 0)
  checking _ := none
  rings _ := []
  overflowed _ := false
  threads _ := .idle
  computes _ := {}
  caches _ := .init
  effects _ := []
  handled _ := []
  decisions _ := []

/-- A call on a stock ends, with its effects.  The producer may not have seen the last
    reads of a ring, which then rejects a tick although it has room. -/
def emit (w : Program b R) (id c : Int32) (r : StockState × List (Effect b)) (reject : Bool) :
    Program b R :=
  { w with
    states := Function.update w.states id r.1
    effects := Function.update w.effects id (w.effects id ++ r.2)
    rings := Function.update w.rings c
      (w.rings c ++ if reject then [] else pushed r.2)
    overflowed := Function.update w.overflowed c (w.overflowed c || reject) }

/-- There is room for what is pushed, unless it is rejected. -/
def Fits (w : Program b R) (c : Int32) (r : StockState × List (Effect b)) (reject : Bool) : Prop :=
  reject ∨ (w.rings c).length + (pushed r.2).length < kRingSize

def setThread (w : Program b R) (c : Int32) (t : Thread b) : Program b R :=
  { w with threads := Function.update w.threads c t }

def setCompute (w : Program b R) (id : Int32) (compute : StockCompute R) : Program b R :=
  { w with computes := Function.update w.computes id compute }

def setChecking (w : Program b R) (id : Int32) (checking : Option Checking) : Program b R :=
  { w with checking := Function.update w.checking id checking }

/-- A decision of a compute. -/
def pushDecision (w : Program b R) (id : Int32) (r : StockCompute R × WantCache × Decision) :
    Program b R :=
  { w with
    computes := Function.update w.computes id r.1
    caches := Function.update w.caches id r.2.1
    decisions := Function.update w.decisions id (w.decisions id ++ [r.2.2]) }

variable [FactorScalar R]

/-- The steps of the main thread. -/
inductive MainStep (p : Setup R) : Program b R → Program b R → Prop
  | handleStatic {w : Program b R} {id : Int32} (stat : Stat) : w.main = .statics →
      lookupStockId b.market p.stockCodes stat.stock = id → id ≠ -1 → InBounds p.stockCodes id →
      MainStep p w
        { w with states := Function.update w.states id ((w.states id).onStatic b stat) }
  | startReceive {w : Program b R} : w.main = .statics →
      MainStep p w { w with main := .startComputes 0 }
  | startCompute {w : Program b R} {i : ℕ} : w.main = .startComputes i →
      i < p.stockCodes.length →
      MainStep p w
        { w.setCompute (.ofNat i) ((w.computes (.ofNat i)).start (w.states (.ofNat i))) with
          main := .startComputes (i + 1) }
  | computesStarted {w : Program b R} : w.main = .startComputes p.stockCodes.length →
      MainStep p w { w with main := .startThreads 0 }
  | startThread {w : Program b R} {c : ℕ} : w.main = .startThreads c → c < p.count →
      MainStep p w { w.setThread (.ofNat c) .top with main := .startThreads (c + 1) }
  | started {w : Program b R} : w.main = .startThreads p.count →
      MainStep p w { w with main := .run }
  /-- `MDS::stop` waits for the calls in progress -/
  | stop {w : Program b R} : w.main = .run → (∀ id, w.checking id = none) →
      MainStep p w { w with main := .stopThreads 0 }
  | join {w : Program b R} {c : ℕ} {outer : Bool} : w.main = .stopThreads c → c < p.count →
      w.threads (.ofNat c) = .ended outer →
      MainStep p w { w with main := .stopThreads (c + 1) }
  | joined {w : Program b R} : w.main = .stopThreads p.count →
      MainStep p w { w with main := .stopComputes 0 }
  | stopCompute {w : Program b R} {i : ℕ} : w.main = .stopComputes i → i < p.stockCodes.length →
      MainStep p w
        { w.setCompute (.ofNat i) (w.computes (.ofNat i)).stop with main := .stopComputes (i + 1) }
  | computesStopped {w : Program b R} : w.main = .stopComputes p.stockCodes.length →
      MainStep p w { w with main := .stopStates 0 }
  | stopState {w : Program b R} {i : ℕ} {c : Int32} (reject : Bool) : w.main = .stopStates i →
      i < p.stockCodes.length → p.ring (.ofNat i) = some c →
      w.Fits c ((w.states (.ofNat i)).stop b 0) reject →
      MainStep p w
        { w.emit (.ofNat i) c ((w.states (.ofNat i)).stop b 0) reject with
          main := .stopStates (i + 1) }

/-- The steps of `handleTick`. -/
inductive TickStep (p : Setup R) : Program b R → Program b R → Prop
  /-- a tick that is not the limit-up tick, or one of a dead stock -/
  | tick {w : Program b R} {id c : Int32} (tick : b.Tick) (check : ℤ → WantCache.Intent)
      (reject : Bool) : w.main.Receives → p.idOf b tick = id → id ≠ -1 →
      InBounds p.stockCodes id → p.ring id = some c → w.checking id = none →
      ((w.states id).alive → ((w.states id).limitUp b tick).2 = none) →
      w.Fits c ((w.states id).onTick b false check tick) reject →
      TickStep p w (w.emit id c ((w.states id).onTick b false check tick) reject)
  /-- the limit-up tick: slot 0 of the want cache is loaded -/
  | check {w : Program b R} {id : Int32} {timestamp : ℤ} (tick : b.Tick) : w.main.Receives →
      p.idOf b tick = id → id ≠ -1 → InBounds p.stockCodes id → w.checking id = none →
      (w.states id).alive → ((w.states id).limitUp b tick).2 = some timestamp →
      TickStep p w
        { w.setChecking id
            (some ⟨timestamp, .first timestamp ((w.caches id).wantBuyTimestamp 0), 1⟩) with
          states := Function.update w.states id ((w.states id).limitUp b tick).1 }
  /-- a later slot is loaded -/
  | load {w : Program b R} {id : Int32} {checking : Checking} (h : checking.loaded < 16) :
      InBounds p.stockCodes id → w.checking id = some checking →
      TickStep p w (w.setChecking id (some { checking with
        scan := checking.scan.next ((w.caches id).wantBuyTimestamp ⟨checking.loaded, h⟩)
        loaded := checking.loaded + 1 }))
  /-- all slots are loaded: the rest of `onTick` -/
  | answer {w : Program b R} {id c : Int32} {checking : Checking} (reject : Bool) :
      InBounds p.stockCodes id → p.ring id = some c → w.checking id = some checking →
      checking.loaded = 16 →
      w.Fits c ((w.states id).onIntent b false checking.timestamp checking.scan.intent) reject →
      TickStep p w
        ((w.emit id c ((w.states id).onIntent b false checking.timestamp checking.scan.intent)
          reject).setChecking id none)

/-- The steps of the compute thread of a channel. -/
inductive ThreadStep (p : Setup R) (c : Int32) : Program b R → Program b R → Prop
  | round {w : Program b R} : w.threads c = .top →
      ThreadStep p c w (w.setThread c (.clear (p.range c)))
  | clearApproach {w : Program b R} {id : Int32} {ids : List Int32} :
      w.threads c = .clear (id :: ids) →
      ThreadStep p c w
        ((w.setCompute id (w.computes id).clearApproach).setThread c (.clear ids))
  | cleared {w : Program b R} : w.threads c = .clear [] →
      ThreadStep p c w (w.setThread c .fetch)
  /-- the buffer has 1024 places -/
  | fetchSomeTicks {w : Program b R} {n : ℕ} : w.threads c = .fetch → n ≤ 1024 →
      ThreadStep p c w
        { w.setThread c (.ticks ((w.rings c).take n)) with
          rings := Function.update w.rings c ((w.rings c).drop n) }
  | drop {w : Program b R} {tick : b.Tick} {tickBuf : List b.Tick} :
      w.threads c = .ticks (tick :: tickBuf) → p.idOf b tick = -1 →
      ThreadStep p c w (w.setThread c (.ticks tickBuf))
  | onTick {w : Program b R} {id : Int32} {tick : b.Tick} {tickBuf : List b.Tick}
      {compute : StockCompute R} : w.threads c = .ticks (tick :: tickBuf) → p.idOf b tick = id →
      id ≠ -1 → InBounds p.stockCodes id → (w.computes id).onTick b tick = some compute →
      ThreadStep p c w
        { (w.setCompute id compute).setThread c (.ticks tickBuf) with
          handled := Function.update w.handled id (w.handled id ++ [tick]) }
  /-- there is time for more ticks -/
  | again {w : Program b R} : w.threads c = .ticks [] →
      ThreadStep p c w (w.setThread c .fetch)
  /-- it is time for the decisions -/
  | wake {w : Program b R} : w.threads c = .ticks [] →
      ThreadStep p c w (w.setThread c (.check (p.range c) []))
  | checkApproach {w : Program b R} {id : Int32} {ids approachStockIds : List Int32} :
      w.threads c = .check (id :: ids) approachStockIds →
      ThreadStep p c w
        ((w.setCompute id (w.computes id).checkApproach.1).setThread c
          (.check ids (if (w.computes id).checkApproach.2 then approachStockIds ++ [id]
            else approachStockIds)))
  | select {w : Program b R} {approachStockIds kept : List Int32} :
      w.threads c = .check [] approachStockIds →
      ApproachSelect.select (fun id => (w.computes id).upSellOrderAmount) approachStockIds
        (p.nth_element approachStockIds) = some kept →
      ThreadStep p c w (w.setThread c (.approach kept))
  /-- `onApproach` of a stock that is not approaching -/
  | skip {w : Program b R} {id : Int32} {ids : List Int32} : w.threads c = .approach (id :: ids) →
      (w.computes id).approachingLimitUp = false →
      ThreadStep p c w (w.setThread c (.approach ids))
  | first {w : Program b R} {id : Int32} {ids : List Int32}
      {r : StockCompute R × WantCache × Decision} : w.threads c = .approach (id :: ids) →
      (w.computes id).approachingLimitUp →
      (w.computes id).approachStep p.model (w.caches id) = some r →
      ThreadStep p c w ((w.pushDecision id r).setThread c
        (if r.1.firstCompute then .second id ids else .approach ids))
  | second {w : Program b R} {id : Int32} {ids : List Int32}
      {r : StockCompute R × WantCache × Decision} : w.threads c = .second id ids →
      { w.computes id with firstCompute := false }.approachStep p.model (w.caches id) = some r →
      ThreadStep p c w ((w.pushDecision id r).setThread c (.approach ids))
  | done {w : Program b R} : w.threads c = .approach [] →
      ThreadStep p c w (w.setThread c .top)
  /-- the stop is seen at the head of a loop -/
  | leaveOuter {w : Program b R} {n : ℕ} : w.main = .stopThreads n → c = .ofNat n →
      w.threads c = .top → ThreadStep p c w (w.setThread c (.ended true))
  | leaveInner {w : Program b R} {n : ℕ} : w.main = .stopThreads n → c = .ofNat n →
      w.threads c = .fetch → ThreadStep p c w (w.setThread c (.ended false))

inductive Step (p : Setup R) : Program b R → Program b R → Prop
  | main {w v : Program b R} : MainStep p w v → Step p w v
  | tick {w v : Program b R} : TickStep p w v → Step p w v
  | thread {w v : Program b R} {c : Int32} : c ∈ channels p.kChannelCount →
      ThreadStep p c w v → Step p w v

inductive Reachable (p : Setup R) : Program b R → Prop
  | init : Reachable p (init p)
  | step {w v : Program b R} : Reachable p w → Step p w v → Reachable p v

end Program

end Mdd2
