/-
  The want cache (`WantCache.h`): the decisions of the compute thread, read by
  the tick thread.

  A slot holds the linear time of a decision, minus one if the decision was to
  buy.  `checkWantBuyAtTimestamp` scans the 16 slots for the one nearest to the
  asked time; `Scan` is the state of that loop, one slot at a time, since the
  slots are loaded separately.
-/
import Mdd2.Timestamp

namespace Mdd2

def kWantBuyTimeTolerance : ℤ := 402

structure WantCache where
  wantBuyTimestamp : Fin 16 → ℤ := fun _ => 0
  wantBuyCurrentIndex : Fin 16 := 0

namespace WantCache

/-- The cache at start-up. -/
def init : WantCache := {}

inductive Intent where
  | WantBuy
  | DontBuy
  | NotSure
  deriving DecidableEq

def Intent.toInt : Intent → ℤ
  | WantBuy => 0
  | DontBuy => 1
  | NotSure => 2

/-- What `pushWantBuyTimestamp` stores. -/
def slotValue (timestamp : ℤ) (wantBuy : Bool) : ℤ :=
  timestampLinear timestamp - if wantBuy then 1 else 0

def pushWantBuyTimestamp (w : WantCache) (timestamp : ℤ) (wantBuy : Bool) : WantCache where
  wantBuyTimestamp := Function.update w.wantBuyTimestamp w.wantBuyCurrentIndex
    (slotValue timestamp wantBuy)
  wantBuyCurrentIndex := w.wantBuyCurrentIndex + 1

/-- The state of the scan: the rounded time asked for, and the nearest slot
    value so far with its distance. -/
structure Scan where
  timestamp : ℤ
  minTimestamp : ℤ
  minDt : ℤ

/-- The linear time `checkWantBuyAtTimestamp` looks for. -/
def roundedTime (timestamp : ℤ) : ℤ := (timestampLinear timestamp + 90).tdiv 100 * 100

/-- Slot 0 is loaded. -/
def Scan.first (timestamp wantTimestamp : ℤ) : Scan where
  timestamp := roundedTime timestamp
  minTimestamp := wantTimestamp
  minDt := |wantTimestamp - roundedTime timestamp|

/-- A later slot is loaded. -/
def Scan.next (s : Scan) (wantTimestamp : ℤ) : Scan :=
  let dt := |wantTimestamp - s.timestamp|
  if dt < s.minDt then { s with minDt := dt, minTimestamp := wantTimestamp } else s

/-- The answer after the last slot. -/
def Scan.intent (s : Scan) : Intent :=
  if s.minDt > kWantBuyTimeTolerance then .NotSure
  else if s.minTimestamp % 2 = 0 then .DontBuy
  else .WantBuy

/-- The search over all slots, as `checkWantBuyAtTimestamp` and `logLimitUp` have
    it. -/
def scan (w : WantCache) (timestamp : ℤ) : Scan :=
  ((List.finRange 16).map w.wantBuyTimestamp).tail.foldl Scan.next
    (Scan.first timestamp (w.wantBuyTimestamp 0))

/-- The slot that was written last. -/
def lastIndex (w : WantCache) : Fin 16 := w.wantBuyCurrentIndex - 1

/-- `checkWantBuyAtTimestamp` on slots that do not change meanwhile. -/
def checkWantBuyAtTimestamp (w : WantCache) (timestamp : ℤ) : Intent :=
  let slots := (List.finRange 16).map w.wantBuyTimestamp
  (slots.tail.foldl Scan.next (Scan.first timestamp (w.wantBuyTimestamp 0))).intent

end WantCache

end Mdd2
