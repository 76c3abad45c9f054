/-
  The ranges of the volatility factors (`computeVolatility` of
  `StockCompute.cpp`): the bins of five snapshots whose average price lies in a
  band, and the longest run of such bins.

  Fractions are exact; the program divides and compares with `double`.
-/
import Mdd2.StockCompute

namespace Mdd2

structure LCSRange where
  amount : ℤ := 0
  volume : ℤ := 0
  count : ℤ := 0
  start : ℤ := 0
  stop : ℤ := -1
  curr : ℤ := -1
  last : ℤ := -1

/-- The bin `i` lies in the band. -/
def LCSRange.lcsAdd (r : LCSRange) (i : ℤ) : LCSRange :=
  let r :=
    if r.curr = -1 ∨ i ≠ r.last + 1 then { r with curr := i }
    else if i - r.curr ≥ r.stop - r.start then { r with start := r.curr, stop := i }
    else r
  { r with last := i }

/-- A bin: an element of `volumeGather`, `amountGather` and `vwap`. -/
structure Bin where
  volume : ℤ
  amount : ℤ
  vwap : ℚ

def LCSRange.addBin (r : LCSRange) (i : ℤ) (b : Bin) : LCSRange :=
  let r := r.lcsAdd i
  { r with
    amount := Word.toSigned 64 (r.amount + b.amount)
    volume := Word.toSigned 64 (r.volume + b.volume)
    count := r.count + 1 }

/-- The average prices, bin after bin: a bin without trades keeps the last one. -/
def vwapBins : ℚ → List (ℤ × ℤ) → List Bin
  | _, [] => []
  | lastVWAP, (volume, amount) :: rest =>
    let lastVWAP : ℚ := if volume ≠ 0 then amount / volume else lastVWAP
    ⟨volume, amount, lastVWAP⟩ :: vwapBins lastVWAP rest

/-- The range of one band, `lo ≤ vwap ≤ hi`. -/
def bandRange (lo hi : ℚ) (bins : List Bin) : LCSRange :=
  bins.zipIdx.foldl
    (fun r p => if lo ≤ p.1.vwap ∧ p.1.vwap ≤ hi then r.addBin p.2 p.1 else r) {}

namespace StockCompute

variable {R : Type}

/-- The opening auction is in the first bin. -/
def gatherBins (c : StockCompute R) : List (ℤ × ℤ) :=
  c.fState.snapshots.zipIdx.foldl
    (fun g p => g.modify (p.2 / 5) fun b =>
      (Word.toSigned 64 (b.1 + p.1.volume), Word.toSigned 64 (b.2 + p.1.amount)))
    ((List.replicate (c.fState.snapshots.length / 5 + 1) (0, 0)).set 0
      (c.openVolume, Word.toSigned 64 (c.openVolume * c.openPrice)))

def bins (c : StockCompute R) : List Bin := vwapBins c.openPrice c.gatherBins

/-- The three bands, in multiples of the previous close. -/
def volatilityRanges (c : StockCompute R) : List LCSRange :=
  [(104, 107), (105, 108), (106, 109)].map fun (p : ℚ × ℚ) =>
    bandRange (c.preClosePrice * (p.1 / 100)) (c.preClosePrice * (p.2 / 100)) c.bins

end StockCompute

end Mdd2
