/-
  The factors that the model is asked with (`computeMomentum`, `computeSkewKurt`,
  `computeVolatility` and `decideWantBuy` of `StockCompute.cpp`; `FactorList.h`).

  Fractions are exact where the program has `double`, and `sqrt` is a parameter.  A factor
  that is not a finite number is `none`: it is left as the NaN that the list is filled with,
  or it comes from a division by zero.
-/
import Mdd2.Kaiyuan
import Mdd2.Volatility

namespace Mdd2

/-- The quotient of two `double`s, if it is finite. -/
def quotient (a b : ℚ) : Option ℚ := if b = 0 then none else some (a / b)

/-! ## Momentum -/

structure Momentum where
  openMean : Option ℚ := none
  openStd : Option ℚ := none
  openZScore : Option ℚ := none
  highMean : Option ℚ := none
  highStd : Option ℚ := none
  highZScore : Option ℚ := none
  diffMean : Option ℚ := none
  diffZScore : Option ℚ := none
  deriving DecidableEq

/-- The numbers of snapshots, in tenths of a second. -/
def kMomentumDurations : List ℕ := [60, 300, 600, 1200, 1800, 3000, 6000, 18000]

/-- The running sums of the change rates. -/
structure ChangeSums where
  sum : ℚ := 0
  sumSqr : ℚ := 0
  prevPrice : ℚ

def ChangeSums.add (s : ChangeSums) (currPrice : ℚ) : Option ChangeSums := do
  let q ← quotient currPrice s.prevPrice
  let changeRate := q - 1
  some
    { sum := s.sum + changeRate
      sumSqr := s.sumSqr + changeRate * changeRate
      prevPrice := currPrice }

structure ChangeStats where
  mean : ℚ
  std : ℚ
  zScore : ℚ

/-- The body the two halves of `computeMomentum` share: the statistics of `duration` change
    rates, from the first price on. -/
def changeStats (sqrt : ℚ → ℚ) (duration : ℕ) : List ℚ → Option ChangeStats
  | [] => none
  | prevPrice :: prices => do
    let s ← prices.foldlM ChangeSums.add { prevPrice }
    let mean := s.sum * (1 / duration)
    let variance := s.sumSqr * (1 / duration) - mean * mean
    let std := sqrt (max 0 variance)
    some { mean, std, zScore := if std > 1 / 10 ^ 10 then mean / std else 0 }

/-- The factors of one duration: over the first snapshots, over the last ones, and their
    differences. -/
def Momentum.compute (sqrt : ℚ → ℚ) (prices : List ℚ) (duration : ℕ) : Momentum :=
  if duration + 1 ≤ prices.length then
    let opening := changeStats sqrt duration (prices.take (duration + 1))
    let high := changeStats sqrt duration (prices.drop (prices.length - duration - 1))
    { openMean := opening.map (·.mean)
      openStd := opening.map (·.std)
      openZScore := opening.map (·.zScore)
      highMean := high.map (·.mean)
      highStd := high.map (·.std)
      highZScore := high.map (·.zScore)
      diffMean := do some ((← opening).mean - (← high).mean)
      diffZScore := do some ((← opening).zScore - (← high).zScore) }
  else {}

/-! ## Volatility -/

/-- `computeSkewKurt`: skewness and kurtosis, corrected for the size of the sample. -/
def computeSkewKurt (sqrt : ℚ → ℚ) (xs : List ℚ) : Option ℚ × Option ℚ :=
  let n : ℚ := xs.length
  if xs.length ≤ 3 then (none, none)
  else
    let mean := xs.sum / n
    let variance := (xs.map fun x => (x - mean) ^ 2).sum
    let skewness := (xs.map fun x => (x - mean) ^ 3).sum
    let kurtosis := (xs.map fun x => (x - mean) ^ 4).sum
    if variance ≤ 0 then (some 0, some 0)
    else
      let var := variance / n
      let std := sqrt var
      (do
        let skew ← quotient skewness (n * var * std)
        quotient (skew * sqrt (n * (n - 1))) (n - 2),
      do
        let kurt ← quotient kurtosis (n * var * var)
        quotient (((kurt - 3) * (n + 1) + 6) * (n - 1)) ((n - 2) * (n - 3)))

structure Volatility where
  time : Option ℚ := none
  consecTime : Option ℚ := none
  amountRatio : Option ℚ := none
  volumeRatio : Option ℚ := none
  turnover : Option ℚ := none
  consecAmountRatio : Option ℚ := none
  consecVolumeRatio : Option ℚ := none
  consecTurnover : Option ℚ := none
  upVolume : Option ℚ := none
  upRatio : Option ℚ := none
  upStd : Option ℚ := none
  vwapSkew : Option ℚ := none
  vwapKurt : Option ℚ := none
  consecVwapSkew : Option ℚ := none
  consecVwapKurt : Option ℚ := none
  deriving DecidableEq

/-- The running sums of the price changes between the bins of a range. -/
structure UpSums where
  sumSqr : ℚ := 0
  sumPosSqr : ℚ := 0
  sumPosSqrSqr : ℚ := 0
  nPositive : ℕ := 0

def UpSums.add (u : UpSums) (r : ℚ) : UpSums :=
  let r2 := r * r
  let u := { u with sumSqr := u.sumSqr + r2 }
  if r > 0 then
    { u with
      sumPosSqr := u.sumPosSqr + r2
      sumPosSqrSqr := u.sumPosSqrSqr + r2 * r2
      nPositive := u.nPositive + 1 }
  else u

/-- `vwap[i] / vwap[i - 1] - 1.0`. -/
def vwapChange (vwap : List ℚ) (i : ℕ) : Option ℚ := do
  let q ← quotient (← vwap[i]?) (← vwap[i - 1]?)
  some (q - 1)

def upSums (vwap : List ℚ) (start stop : ℕ) : Option UpSums :=
  (List.range' (max 1 start) (stop + 1 - max 1 start)).foldlM
    (fun u i => (vwapChange vwap i).map u.add) {}

namespace UpSums

def upVolume (sqrt : ℚ → ℚ) (u : UpSums) : Option ℚ :=
  if u.sumSqr ≠ 0 then some (sqrt u.sumPosSqr) else none

def upRatio (u : UpSums) : Option ℚ :=
  if u.sumSqr ≠ 0 then quotient u.sumPosSqr u.sumSqr else none

def upStd (sqrt : ℚ → ℚ) (u : UpSums) : Option ℚ :=
  if u.sumSqr ≠ 0 ∧ u.nPositive > 1 then
    let n : ℚ := u.nPositive - 1
    some (sqrt (max 0 ((u.sumPosSqrSqr - u.sumPosSqr * u.sumPosSqr / n) / n)))
  else none

end UpSums

/-- The factors of one band, from the range that is left for it; a range without bins leaves
    all but the moments of the whole series unset. -/
def Volatility.compute (sqrt : ℚ → ℚ) (floatMV : ℚ) (bins : List Bin) (range : LCSRange) :
    Volatility :=
  let vwap := bins.map Bin.vwap
  let totalAmount := Word.toSigned 64 (bins.map Bin.amount).sum
  let totalVolume := Word.toSigned 64 (bins.map Bin.volume).sum
  let moments := computeSkewKurt sqrt vwap
  if range.start ≤ range.stop then
    let start := range.start.toNat
    let stop := range.stop.toNat
    let lcs := (bins.take (stop + 1)).drop start
    let lcsAmount := Word.toSigned 64 (lcs.map Bin.amount).sum
    let lcsVolume := Word.toSigned 64 (lcs.map Bin.volume).sum
    let up := upSums vwap start stop
    let consec := computeSkewKurt sqrt (lcs.map Bin.vwap)
    { upVolume := up.bind (·.upVolume sqrt)
      upRatio := up.bind (·.upRatio)
      upStd := up.bind (·.upStd sqrt)
      time := some (range.count * (1 / 4))
      consecTime := some ((range.stop - range.start + 1) * (1 / 4))
      turnover := (quotient range.amount floatMV).map (· * (1 / 100))
      amountRatio := quotient range.amount totalAmount
      volumeRatio := quotient range.volume totalVolume
      consecTurnover := (quotient lcsAmount floatMV).map (· * (1 / 100))
      consecAmountRatio := quotient lcsAmount totalAmount
      consecVolumeRatio := quotient lcsVolume totalVolume
      vwapSkew := moments.1
      vwapKurt := moments.2
      consecVwapSkew := consec.1
      consecVwapKurt := consec.2 }
  else { vwapSkew := moments.1, vwapKurt := moments.2 }

/-! ## The list -/

/-- The members of the factor list that a decision assigns; `floatMV` and those after it are
    loaded from the daily file. -/
structure ComputedFactors where
  momentum : List Momentum
  volatility : List Volatility
  kaiyuan : Option (Kaiyuan ℚ)
  crowdind : IIRState.Crowdind ℚ

namespace StockCompute

def prices {R : Type} (c : StockCompute R) : List ℚ :=
  c.fState.snapshots.map fun s => (s.lastPrice : ℚ)

def computeMomentum {R : Type} (sqrt : ℚ → ℚ) (c : StockCompute R) : List Momentum :=
  kMomentumDurations.map (Momentum.compute sqrt c.prices)

def computeVolatility {R : Type} (sqrt : ℚ → ℚ) (floatMV : ℚ) (c : StockCompute R) :
    List Volatility :=
  c.volatilityRanges.map (Volatility.compute sqrt floatMV c.bins)

/-- The factors of the state in which the model is asked. -/
def computeFactors (sqrt : ℚ → ℚ) (bits : ℚ → UInt32) (floatMV : ℚ) (c : StockCompute ℚ) :
    Option ComputedFactors := do
  let kaiyuan ← c.computeKaiyuan bits (fun x y => decide (x > y)) fun x => sqrt (max 0 x)
  let iirState ← c.fState.iirState
  some
    { momentum := c.computeMomentum sqrt
      volatility := c.computeVolatility sqrt floatMV
      kaiyuan
      crowdind := iirState.finalCompute }

end StockCompute

end Mdd2
