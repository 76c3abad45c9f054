/-
  The factor lists behind the decisions (`StockCompute.cpp`, with
  `RECORD_FACTORS` on).

  `computeFutureWantBuy` keeps the factor list of each decision at the place of
  its slot in the want cache.  At the end sign, `logLimitUp` looks for the slot
  nearest to the limit-up time once more, and `dumpFactors` for a slot of the
  time found.
-/
import Mdd2.StockCompute

namespace Mdd2

variable {R F : Type} [FactorScalar R]

/-- `computeFutureWantBuy`, with the factor list that `decideWantBuy` leaves in
    the stock; `factors` is a function of the state in which it is asked. -/
def StockCompute.computeFutureWantBuyRecord (model : StockCompute R → Bool)
    (factors : StockCompute R → F) (c : StockCompute R) (w : WantCache)
    (factorListCache : Fin 16 → F) :
    Option (StockCompute R × WantCache × (Fin 16 → F) × Decision × F) := do
  let asked ← c.speculate
  let factorList := factors asked
  let (c, w, d) ← c.computeFutureWantBuy model w
  let factorListCache := Function.update factorListCache w.lastIndex factorList
  some (c, w, factorListCache, d, factorList)

namespace WantCache

/-- A slot value without the mark of a decision to buy. -/
def unmarked (wantTimestamp : ℤ) : ℤ := wantTimestamp + wantTimestamp % 2

/-- The first slot for a time, if any. -/
def dumpSlot (w : WantCache) (timestamp : ℤ) : Option (Fin 16) :=
  (List.finRange 16).find? fun i => timestampLinear timestamp = unmarked (w.wantBuyTimestamp i)

/-- `StockCompute::dumpFactors`: the factor list written, or an error. -/
def dumpFactors (w : WantCache) (factorListCache : Fin 16 → F) (timestamp : ℤ) : Option F :=
  (w.dumpSlot timestamp).map factorListCache

/-- The time that `logLimitUp` has dumped. -/
def bestTime (w : WantCache) (tickTimestamp : ℤ) : ℤ :=
  timestampDelinear (unmarked (w.scan tickTimestamp).minTimestamp)

/-- `logLimitUp`, as far as the factor list goes. -/
def logLimitUp (w : WantCache) (factorListCache : Fin 16 → F) (tickTimestamp : ℤ) : Option F :=
  w.dumpFactors factorListCache (w.bestTime tickTimestamp)

end WantCache

end Mdd2
