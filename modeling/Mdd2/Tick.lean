/-
  The replay tick (`L2/Tick.h`) and its classification.

  A tick with one order number is an order or a cancel, a tick with both is a
  trade, and one with none carries no order data.
-/
import Mathlib

namespace L2

structure Tick where
  stock : Int32
  timestamp : ℤ
  price : ℤ
  quantity : ℤ
  buyOrderNo : ℤ
  sellOrderNo : ℤ
  deriving DecidableEq

namespace Tick
variable (t : Tick)

def isBuyOrder : Bool := t.buyOrderNo ≠ 0 ∧ t.sellOrderNo = 0

def isSellOrder : Bool := t.buyOrderNo = 0 ∧ t.sellOrderNo ≠ 0

def isOrder : Bool := (t.buyOrderNo ≠ 0) != (t.sellOrderNo ≠ 0)

def orderNo : ℤ := if t.buyOrderNo ≠ 0 then t.buyOrderNo else t.sellOrderNo

def isTrade : Bool := t.buyOrderNo ≠ 0 ∧ t.sellOrderNo ≠ 0

def isMeta : Bool := t.buyOrderNo = 0 ∧ t.sellOrderNo = 0

def isOrderCancel : Bool := t.quantity < 0

end Tick

end L2
