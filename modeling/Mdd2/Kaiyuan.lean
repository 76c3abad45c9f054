/-
  The Kaiyuan factors (`computeKaiyuan` of `StockCompute.cpp`).

  The trades of the snapshots are sorted by their mean amount; the factors are
  made of elements at rounded fractions of the list, and of sums between them.
  Arithmetic is exact, where the program has `float` and `double`; the square root
  of a product that is negative, as the comparison of two numbers, is left to the
  scalar type.

  Reading an element that is not there, or summing up to an end before the
  beginning, yields `none`.  So does a factor that comes from a division by zero,
  which is not a finite number.
-/
import Mdd2.StockCompute

namespace Mdd2

structure Transaction (R : Type) where
  meanAmount : R
  sumAmount : R
  /-- if it is finite -/
  changeRate : Option R

/-- The factors that are finite; those that are not assigned stay NaN. -/
structure Kaiyuan (R : Type) where
  quantile : Option R
  correlation : Option R
  trimmedQuantile : Option R
  trimmedCorrelation : Option R
  signalReturn10 : Option R
  signalReturn30 : Option R
  signalReturn50 : Option R

namespace Kaiyuan

/-! ## Positions -/

def it096 (m : ℕ) : ℕ := ⌈(0.096 : ℚ) * m⌉₊
def it096f (m : ℕ) : ℕ := ⌊(0.096 : ℚ) * m⌋₊
def it10 (m : ℕ) : ℕ := ⌈(0.10 : ℚ) * m⌉₊
def it10f (m : ℕ) : ℕ := ⌊(0.10 : ℚ) * m⌋₊
def it50 (m : ℕ) : ℕ := ⌈(0.50 : ℚ) * m⌉₊
def it70 (m : ℕ) : ℕ := ⌈(0.70 : ℚ) * m⌉₊
def it90 (m : ℕ) : ℕ := ⌈(0.90 : ℚ) * m⌉₊
def it96 (m : ℕ) : ℕ := ⌈(0.96 : ℚ) * m⌉₊

/-- The elements that are dereferenced, in order: `front`, `back`, and five
    quantiles. -/
def dereferenced (m : ℕ) : List ℕ := [0, m - 1, it096 m, it10 m, it096f m, it10f m, it96 m]

/-- The elements of a loop from `i` to `j`. -/
def range {α : Type} (ts : List α) (i j : ℕ) : Option (List α) :=
  if i ≤ j ∧ j ≤ ts.length then some ((ts.drop i).take (j - i)) else none

/-! ## Sums -/

variable {R : Type} [FactorScalar R]

/-- The running sums of the correlations. -/
structure Sums (R : Type) where
  sumT : R
  sumA : R
  sumTA : R
  sumT2 : R
  sumA2 : R

def Sums.zero : Sums R :=
  let o : R := ((0 : ℤ) : R)
  ⟨o, o, o, o, o⟩

def Sums.add (s : Sums R) (t : Transaction R) : Sums R where
  sumT := s.sumT + t.meanAmount
  sumA := s.sumA + t.sumAmount
  sumTA := s.sumTA + t.meanAmount * t.sumAmount
  sumT2 := s.sumT2 + t.meanAmount * t.meanAmount
  sumA2 := s.sumA2 + t.sumAmount * t.sumAmount

/-- `sqrtPos x` is `sqrt(max(0, x))`, which is not negative. -/
def Sums.correlation (gt : R → R → Bool) (sqrtPos : R → R) (s : Sums R) (size : ℕ) : Option R :=
  let size : R := ((size : ℤ) : R)
  let numerator := s.sumTA * size - s.sumT * s.sumA
  let denominatorX := s.sumT2 * size - s.sumT * s.sumT
  let denominatorY := s.sumA2 * size - s.sumA * s.sumA
  let denominator := sqrtPos (denominatorX * denominatorY)
  if gt denominator ((0 : ℤ) : R) then some (numerator / denominator) else none

/-- A sum is finite if all its terms are. -/
def addReturns (sr : Option R) (ts : List (Transaction R)) : Option R :=
  ts.foldl (fun sr t => do some ((← sr) + (← t.changeRate))) sr

/-! ## The factors -/

/-- The trades of the snapshots after the first one. -/
def gather (prevPrice : ℤ) : List Snapshot → List (Transaction R)
  | [] => []
  | s :: snapshots =>
    if s.numTrades ≠ 0 then
      let currPrice := s.lastPrice
      let r : Option R :=
        if prevPrice = 0 then none else some ((currPrice : R) / (prevPrice : R) - ((1 : ℤ) : R))
      let a : R := (s.amount : R)
      ⟨a / (s.numTrades : R), a, r⟩ :: gather currPrice snapshots
    else gather prevPrice snapshots

/-- `radixSort` by the bits of the mean amount. -/
def sort (bits : R → UInt32) (ts : List (Transaction R)) : List (Transaction R) :=
  ts.mergeSort fun t u => bits t.meanAmount ≤ bits u.meanAmount

/-- The factors of a sorted list that is not empty. -/
def ofSorted (gt : R → R → Bool) (sqrtPos : R → R) (ts : List (Transaction R)) :
    Option (Kaiyuan R) := do
  let m := ts.length
  let half : R := ((1 : ℤ) : R) / ((2 : ℤ) : R)
  let A0 ← ts[0]?
  let A100 ← ts[m - 1]?
  let A096 ← ts[it096 m]?
  let A10 ← ts[it10 m]?
  let A096f ← ts[it096f m]?
  let A10f ← ts[it10f m]?
  let A96 ← ts[it96 m]?
  let quantile :=
    if gt A100.meanAmount A0.meanAmount then
      some ((half * (A10.meanAmount + A10f.meanAmount) - A0.meanAmount)
        / (A100.meanAmount - A0.meanAmount))
    else none
  let trimmedQuantile :=
    if gt A96.meanAmount A0.meanAmount then
      some ((half * (A096.meanAmount + A096f.meanAmount) - A0.meanAmount)
        / (A96.meanAmount - A0.meanAmount))
    else none
  let trimmed ← range ts 0 (it96 m)
  let sums := trimmed.foldl Sums.add Sums.zero
  let trimmedCorrelation := sums.correlation gt sqrtPos (it96 m)
  let rest ← range ts (it96 m) m
  let sums := rest.foldl Sums.add sums
  let correlation := sums.correlation gt sqrtPos m
  let top10 ← range ts (it90 m) m
  let signalReturn10 := addReturns (some ((0 : ℤ) : R)) top10
  let top30 ← range ts (it70 m) (it90 m)
  let signalReturn30 := addReturns signalReturn10 top30
  let top50 ← range ts (it50 m) (it70 m)
  let signalReturn50 := addReturns signalReturn30 top50
  some
    { quantile := quantile, correlation, trimmedQuantile, trimmedCorrelation
      signalReturn10, signalReturn30, signalReturn50 }

end Kaiyuan

namespace StockCompute
variable {R : Type} [FactorScalar R]

/-- The transactions, in the order of the snapshots. -/
def transactions (c : StockCompute R) : List (Transaction R) :=
  match c.fState.snapshots with
  | [] => []
  | s :: snapshots => Kaiyuan.gather s.lastPrice snapshots

/-- `computeKaiyuan`; without transactions all factors stay NaN. -/
def computeKaiyuan (bits : R → UInt32) (gt : R → R → Bool) (sqrtPos : R → R)
    (c : StockCompute R) : Option (Option (Kaiyuan R)) :=
  if c.fState.snapshots = [] then none                     -- `snapshots[0]`
  else if c.transactions = [] then some none
  else (Kaiyuan.ofSorted gt sqrtPos (Kaiyuan.sort bits c.transactions)).map some

end StockCompute

end Mdd2
