/-
  The compute thread as one stock sees it (`computeThreadMain` in `MDD.cpp`).

  A round clears the approach flag, takes ticks from the ring, checks the flag,
  and runs `onApproach` for some of the stocks that approach the limit.  The two
  decisions of `onApproach` are separate steps, since the tick thread may read
  the want cache between their stores.
-/
import Mdd2.StockCompute

namespace Mdd2

namespace ComputeThread

/-- Where a round is. -/
inductive Phase where
  | clear
  | drain
  | approach
  | second
  deriving DecidableEq

end ComputeThread

structure ComputeThread (R : Type) where
  phase : ComputeThread.Phase
  stock : StockCompute R
  cache : WantCache

namespace ComputeThread
variable {R : Type} [FactorScalar R]

/-- The thread starts with a stock that is started if it is alive then. -/
def init (s : StockState) : ComputeThread R where
  phase := .clear
  stock := StockCompute.start {} s
  cache := .init

/-- One step, with the decisions it pushes.  At shutdown the thread has ended,
    in one of the first two phases, before the stock is stopped. -/
inductive Step (b : Build) (model : StockCompute R → Bool) :
    ComputeThread R → List Decision → ComputeThread R → Prop
  | clear {c w} : Step b model ⟨.clear, c, w⟩ [] ⟨.drain, c.clearApproach, w⟩
  | tick {c d w} (tick : b.Tick) : c.onTick b tick = some d →
      Step b model ⟨.drain, c, w⟩ [] ⟨.drain, d, w⟩
  | check {c w} : Step b model ⟨.drain, c, w⟩ []
      ⟨if c.checkApproach.2 then .approach else .clear, c.checkApproach.1, w⟩
  | skip {c w} : Step b model ⟨.approach, c, w⟩ [] ⟨.clear, c, w⟩
  | first {c d w w' dec} : c.approachingLimitUp → c.approachStep model w = some (d, w', dec) →
      Step b model ⟨.approach, c, w⟩ [dec] ⟨if d.firstCompute then .second else .clear, d, w'⟩
  | second {c d w w' dec} :
      { c with firstCompute := false }.approachStep model w = some (d, w', dec) →
      Step b model ⟨.second, c, w⟩ [dec] ⟨.clear, d, w'⟩
  | stop {p c w} : p = .clear ∨ p = .drain → Step b model ⟨p, c, w⟩ [] ⟨p, c.stop, w⟩

/-- The states of any number of rounds. -/
inductive Reachable (b : Build) (model : StockCompute R → Bool) : ComputeThread R → Prop
  | init (s : StockState) : Reachable b model (init s)
  | step {t u ds} : Reachable b model t → Step b model t ds u → Reachable b model u

end ComputeThread

end Mdd2
