/-
  The compute channels (`MDD::start`, `computeThreadMain`, `TickRing.h`).

  The ids of the stocks, their positions in `g_stockCodes`, are split into one range
  for each channel.  A stock pushes its ticks to the ring of its channel; the compute
  thread of the channel fetches them, and looks up the id of each tick again.

  A ring is a queue, which drops what is pushed when it is full.
-/
import Mdd2.MDD
import Mdd2.StockState

namespace Mdd2

/-- `TARGET_MARKET`. -/
def Build.market : Build → Market
  | replay market | ne market | ost market => market

namespace MDD

/-! ## Ranges -/

/-- `(g_stockCodes.size() * c) / kChannelCount`, in `size_t`, cut to `int32_t`. -/
def rangeBound (kChannelCount : Int32) (size : ℕ) (c : Int32) : Int32 :=
  (UInt64.ofNat size * c.toInt64.toUInt64 / kChannelCount.toInt64.toUInt64).toUInt32.toInt32

def startId (kChannelCount : Int32) (size : ℕ) (c : Int32) : Int32 :=
  rangeBound kChannelCount size c

def stopId (kChannelCount : Int32) (size : ℕ) (c : Int32) : Int32 :=
  rangeBound kChannelCount size (c + 1)

/-- The loop from `c = 0` while `c < kChannelCount`. -/
def channels (kChannelCount : Int32) : List Int32 :=
  (List.range kChannelCount.toInt.toNat).map Int32.ofNat

/-- The loop from `id = startId` while `id != stopId`. -/
def idsFrom (startId stopId : Int32) : List Int32 :=
  (List.range (stopId - startId).toUInt32.toNat).map fun k => startId + Int32.ofNat k

/-- The ring of each stock after `setChannelId`; the pointer is null at first. -/
def tickRing (kChannelCount : Int32) (size : ℕ) : Int32 → Option Int32 :=
  (channels kChannelCount).foldl
    (fun ring c => (idsFrom (startId kChannelCount size c) (stopId kChannelCount size c)).foldl
      (fun ring id => Function.update ring id (some c)) ring)
    fun _ => none

/-- The arguments of `computeThreadMain`. -/
structure ComputeThreadArgs where
  channel : Int32
  startId : Int32
  stopId : Int32

def computeThreads (kChannelCount : Int32) (size : ℕ) : List ComputeThreadArgs :=
  (channels kChannelCount).map fun c =>
    ⟨c, startId kChannelCount size c, stopId kChannelCount size c⟩

/-! ## Runs -/

/-- The stocks and the rings, with what the compute threads have fetched. -/
structure State (b : Build) where
  stockStates : Int32 → StockState
  tickRings : Int32 → List b.Tick
  fetched : Int32 → List b.Tick

/-- The stocks are configured, and wait for their static messages. -/
def State.init (b : Build) (stockCodes : List Int32) : State b where
  stockStates id := .start (stockCodes.getD id.toInt.toNat 0)
  tickRings _ := []
  fetched _ := []

/-- The indices of `g_stockStates` and `g_stockComputes`. -/
def InBounds (stockCodes : List Int32) (id : Int32) : Prop :=
  0 ≤ id.toInt ∧ id.toInt < stockCodes.length

/-- One step.  A message that is dropped changes nothing; one that is dispatched
    outside of the arrays has no step. -/
inductive Step (b : Build) (alwaysBuy : Bool) (kChannelCount : Int32) (stockCodes : List Int32) :
    State b → State b → Prop
  | handleStatic {w : State b} {id : Int32} (stat : Stat) :
      lookupStockId b.market stockCodes stat.stock = id → id ≠ -1 → InBounds stockCodes id →
      Step b alwaysBuy kChannelCount stockCodes w
        { w with stockStates :=
            Function.update w.stockStates id ((w.stockStates id).onStatic b stat) }
  /-- the ring `c` takes `kept` of what `onTick` pushes -/
  | handleTick {w : State b} {id c : Int32} {kept : List b.Tick} (tick : b.Tick)
      (check : ℤ → WantCache.Intent) :
      lookupStockId b.market stockCodes (tickStockCode b tick) = id → id ≠ -1 →
      InBounds stockCodes id → tickRing kChannelCount stockCodes.length id = some c →
      kept.Sublist (pushed ((w.stockStates id).onTick b alwaysBuy check tick).2) →
      Step b alwaysBuy kChannelCount stockCodes w
        { w with
          stockStates :=
            Function.update w.stockStates id ((w.stockStates id).onTick b alwaysBuy check tick).1
          tickRings := Function.update w.tickRings c (w.tickRings c ++ kept) }
  /-- shutdown -/
  | stop {w : State b} {id c : Int32} {kept : List b.Tick} :
      InBounds stockCodes id → tickRing kChannelCount stockCodes.length id = some c →
      kept.Sublist (pushed ((w.stockStates id).stop b 0).2) →
      Step b alwaysBuy kChannelCount stockCodes w
        { w with
          stockStates := Function.update w.stockStates id ((w.stockStates id).stop b 0).1
          tickRings := Function.update w.tickRings c (w.tickRings c ++ kept) }
  /-- `fetchSomeTicks` of a compute thread, which has a buffer of 1024 ticks -/
  | fetch {w : State b} {n : ℕ} (t : ComputeThreadArgs) :
      t ∈ computeThreads kChannelCount stockCodes.length → n ≤ 1024 →
      Step b alwaysBuy kChannelCount stockCodes w
        { w with
          tickRings := Function.update w.tickRings t.channel ((w.tickRings t.channel).drop n)
          fetched := Function.update w.fetched t.channel
            (w.fetched t.channel ++ (w.tickRings t.channel).take n) }

inductive Reachable (b : Build) (alwaysBuy : Bool) (kChannelCount : Int32)
    (stockCodes : List Int32) : State b → Prop
  | init : Reachable b alwaysBuy kChannelCount stockCodes (.init b stockCodes)
  | step {w v : State b} : Reachable b alwaysBuy kChannelCount stockCodes w →
      Step b alwaysBuy kChannelCount stockCodes w v →
      Reachable b alwaysBuy kChannelCount stockCodes v

/-- The computes that a thread accesses: those of its loops over its range, and
    those of the ticks it fetches that are not dropped. -/
def Touches {b : Build} (stockCodes : List Int32) (w : State b) (t : ComputeThreadArgs)
    (id : Int32) : Prop :=
  id ∈ idsFrom t.startId t.stopId ∨
    ∃ tick ∈ w.fetched t.channel,
      lookupStockId b.market stockCodes (tickStockCode b tick) = id ∧ id ≠ -1

end MDD

end Mdd2
