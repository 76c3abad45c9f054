/-
  The snapshot of an order book (`L2/Snap.h`).

  Its four arrays lie one after the other in memory: a store past the end of one of
  them is a store to the next.  A store past the last one yields `none`.
-/
import Mathlib

namespace L2

def kBookLevels : ℕ := 5

/-- The arrays of a snapshot. -/
inductive SnapArray where
  | bidPrice
  | bidQuantity
  | askPrice
  | askQuantity
  deriving DecidableEq

/-- Where an array begins. -/
def SnapArray.offset : SnapArray → ℕ
  | bidPrice => 0
  | bidQuantity => kBookLevels
  | askPrice => 2 * kBookLevels
  | askQuantity => 3 * kBookLevels

structure Snap where
  stock : Int32
  timestamp : ℤ
  lastPrice : ℤ
  preClosePrice : ℤ
  numTrades : ℤ
  volume : ℤ
  amount : ℤ
  /-- the arrays, all zero at first -/
  levels : Vector ℤ (4 * kBookLevels) := .replicate _ 0

/-- A store to an element of an array. -/
structure Store where
  array : SnapArray
  index : ℕ
  value : ℤ
  deriving DecidableEq

namespace Snap

def array (snap : Snap) (a : SnapArray) : List ℤ :=
  (snap.levels.toList.drop a.offset).take kBookLevels

def store (snap : Snap) (s : Store) : Option Snap :=
  if s.array.offset + s.index < 4 * kBookLevels then
    some { snap with levels := snap.levels.setIfInBounds (s.array.offset + s.index) s.value }
  else none

end Snap

end L2
