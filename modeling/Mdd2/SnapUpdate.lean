/-
  The timed snapshots of the order book (`L2/OrderBook.h`): `snapUpdate`, and the
  loop of `tryUpdateSnap`.

  Before the first trade a snapshot shows the virtual opening, the price at which the
  call auction would match most; after it, the best levels of both sides.  Reading or
  writing an array outside of its memory yields `none`.
-/
import Mdd2.L2Timestamp
import Mdd2.OrderBook

namespace L2

namespace OrderBook

/-- The number of levels: the loops go from 0 to `upperLimitPrice - lowerLimitPrice`. -/
def numLevels (ob : OrderBook) : ℕ := (ob.upperLimitPrice - ob.lowerLimitPrice + 1).toNat

/-! ## The virtual opening -/

/-- The loop over one side: `accum[p]` is the sum up to `p`, in the order of the loop.
    The result is the sum, and the array. -/
def accumulate (qty : List ℤ) (levels : List ℕ) (accum : List ℤ) : Option (ℤ × List ℤ) :=
  levels.foldlM (fun (sum, accum) p => do
    let x ← qty[p]?
    let sum := Word.toSigned 32 (sum + x)
    if p < accum.length then some (sum, accum.set p sum) else none) (0, accum)

/-- The best level so far. -/
structure Best where
  maxQ : ℤ := 0
  maxI : ℤ := 0
  maxISigned : ℤ := 0
  maxP : ℤ := 0

/-- The loop on the level `p`. -/
def Best.improve (ob : OrderBook) (askQtyAccum bidQtyAccum : List ℤ) (best : Best) (p : ℕ) :
    Option Best := do
  let ask ← askQtyAccum[p]?
  let bid ← bidQtyAccum[p]?
  let transaction := min ask bid
  let imbalanceSigned := Word.toSigned 32 (bid - ask)
  let imbalance := |imbalanceSigned|
  if transaction > best.maxQ ∨ transaction = best.maxQ ∧
      (if (p : ℤ) ≤ ob.preClosePrice - ob.lowerLimitPrice then imbalance ≤ best.maxI
        else imbalance < best.maxI) then
    some ⟨transaction, imbalance, imbalanceSigned, p⟩
  else some best

/-- The auction branch, up to the stores: the virtual opening, and `maxISigned`. -/
def virtOpen (ob : OrderBook) : Option (OrderBook × ℤ) := do
  let n := ob.numLevels
  let (askQtySum, askQtyAccum) ← accumulate ob.askQty (List.range n) (List.replicate n 0)
  let (bidQtySum, bidQtyAccum) ←
    accumulate ob.bidQty (List.range n).reverse (List.replicate n 0)
  let best ← (List.range n).foldlM (Best.improve ob askQtyAccum bidQtyAccum) {}
  let ob :=
    if best.maxQ ≠ 0 then
      { ob with
        virtOpenPrice := best.maxP + ob.lowerLimitPrice
        virtOpenMatchedQty := best.maxQ
        virtOpenUnmatchedQty := best.maxISigned }
    else
      { ob with
        virtOpenPrice := ob.preClosePrice
        virtOpenMatchedQty := 0
        virtOpenUnmatchedQty := 0 }
  some ({ ob with
    virtOpenAskRemainQty := Word.toSigned 32 (askQtySum - ob.virtOpenMatchedQty)
    virtOpenBidRemainQty := Word.toSigned 32 (bidQtySum - ob.virtOpenMatchedQty) }, best.maxISigned)

/-- The stores of the auction branch. -/
def auctionStores (ob : OrderBook) (maxISigned : ℤ) : List Store :=
  [⟨.bidPrice, 0, ob.virtOpenPrice⟩, ⟨.bidQuantity, 0, ob.virtOpenMatchedQty⟩] ++
  (if maxISigned > 0 then
    [⟨.bidPrice, 1, ob.virtOpenPrice⟩, ⟨.bidQuantity, 1, maxISigned⟩] else []) ++
  [⟨.askPrice, 0, ob.virtOpenPrice⟩, ⟨.askQuantity, 0, ob.virtOpenMatchedQty⟩] ++
  (if maxISigned < 0 then
    [⟨.askPrice, 1, ob.virtOpenPrice⟩, ⟨.askQuantity, 1, -maxISigned⟩] else [])

/-! ## The best levels -/

/-- The loop over one side from a level of the snapshot on: the level that it leaves,
    and its stores. -/
def scanLevels (qty : List ℤ) (lowerLimitPrice : ℤ) (price quantity : SnapArray) :
    List ℕ → ℕ → Option (ℕ × List Store)
  | [], level => some (level, [])
  | p :: ps, level => do
    let x ← qty[p]?
    if x ≠ 0 then
      let stores := [⟨price, level, p + lowerLimitPrice⟩, ⟨quantity, level, x⟩]
      let level := level + 1
      if level ≥ kBookLevels then some (level, stores)
      else do
        let (level, rest) ← scanLevels qty lowerLimitPrice price quantity ps level
        some (level, stores ++ rest)
    else scanLevels qty lowerLimitPrice price quantity ps level

/-- The stores of the continuous branch. -/
def continuousStores (ob : OrderBook) : Option (List Store) := do
  let n := ob.numLevels
  let (level, asks) ←
    scanLevels ob.askQty ob.lowerLimitPrice .askPrice .askQuantity (List.range n) 0
  let (_, bids) ←
    scanLevels ob.bidQty ob.lowerLimitPrice .bidPrice .bidQuantity (List.range n).reverse level
  some (asks ++ bids)

/-! ## Snapshots -/

/-- The fields of a snapshot before the arrays. -/
def newSnap (ob : OrderBook) (timestamp : ℤ) : Snap where
  stock := ob.stock
  timestamp := timestamp
  preClosePrice := ob.preClosePrice
  numTrades := ob.numTrades
  volume := ob.volume
  amount := ob.amount
  lastPrice := ob.lastPrice

def snapUpdate (ob : OrderBook) (timestamp : ℤ) : Option OrderBook := do
  let snap := ob.newSnap timestamp
  let ob := { ob with numTrades := 0, volume := 0, amount := 0 }
  let (ob, stores) ←
    if ob.openPrice = 0 then do
      let (ob, maxISigned) ← ob.virtOpen
      some (ob, ob.auctionStores maxISigned)
    else do
      let stores ← ob.continuousStores
      some (ob, stores)
  let snap ← stores.foldlM Snap.store snap
  some { ob with snapshots := ob.snapshots ++ [snap] }

/-- The `while` loop of `tryUpdateSnap`, for at most `fuel` rounds. -/
def tryUpdateSnap (interval : ℤ) : ℕ → OrderBook → ℤ → Option OrderBook
  | 0, _, _ => none
  | fuel + 1, ob, timestamp =>
    if timestamp > ob.lastTimestamp then do
      let lastTimestamp := absoluteMillisecondsToTimestamp
        (timestampToAbsoluteMilliseconds ob.lastTimestamp interval + interval) interval
      let ob ← { ob with lastTimestamp }.snapUpdate lastTimestamp
      tryUpdateSnap interval fuel ob timestamp
    else some ob

/-! ## Runs -/

inductive Call where
  | addTick (tick : Tick)
  | tryUpdateSnap (timestamp : ℤ)

/-- One call that returns. -/
inductive Step (interval : ℤ) : OrderBook → Call → OrderBook → Prop
  | addTick {ob ob' : OrderBook} {tick tick' : Tick} : ob.addTick tick = some (ob', tick') →
      Step interval ob (.addTick tick) ob'
  | tryUpdateSnap {ob ob' : OrderBook} {timestamp : ℤ} {fuel : ℕ} :
      OrderBook.tryUpdateSnap interval fuel ob timestamp = some ob' →
      Step interval ob (.tryUpdateSnap timestamp) ob'

/-- Calls, in order. -/
inductive Calls (interval : ℤ) (ob : OrderBook) : List Call → OrderBook → Prop
  | nil : Calls interval ob [] ob
  | snoc {ob₁ ob₂ : OrderBook} {calls : List Call} {call : Call} :
      Calls interval ob calls ob₁ → Step interval ob₁ call ob₂ →
      Calls interval ob (calls ++ [call]) ob₂

end OrderBook

end L2
