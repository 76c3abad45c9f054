/-
  The two threads of one stock.

  The tick thread calls `StockState::onTick`, which on the limit-up tick loads
  the 16 slots of the want cache one by one; steps of the compute thread come
  between any two loads.  `ALWAYS_BUY` is off.
-/
import Mdd2.ComputeThread

namespace Mdd2

/-- A call of `checkWantBuyAtTimestamp` from `onTick` in progress. -/
structure Checking where
  /-- the time of the limit-up tick -/
  timestamp : ℤ
  scan : WantCache.Scan
  /-- the number of slots loaded -/
  loaded : ℕ

structure System (R : Type) where
  state : StockState
  checking : Option Checking
  compute : ComputeThread R
  /-- the decisions pushed so far -/
  decisions : List Decision

namespace System
variable {R : Type} [FactorScalar R]

/-- The compute thread has started the stock in some state of the tick thread. -/
def init (s s' : StockState) : System R where
  state := s
  checking := none
  compute := .init s'
  decisions := []

/-- One step, with the effects of the tick thread. -/
inductive Step (b : Build) (model : StockCompute R → Bool) :
    System R → List (Effect b) → System R → Prop
  /-- a tick that is not the limit-up tick, or one of a dead stock -/
  | tick {s t ds} (tick : b.Tick) (check : ℤ → WantCache.Intent) :
      (s.alive → (s.limitUp b tick).2 = none) →
      Step b model ⟨s, none, t, ds⟩ (s.onTick b false check tick).2
        ⟨(s.onTick b false check tick).1, none, t, ds⟩
  /-- the limit-up tick: the scan starts with slot 0 -/
  | check {s t ds timestamp} (tick : b.Tick) :
      s.alive → (s.limitUp b tick).2 = some timestamp →
      Step b model ⟨s, none, t, ds⟩ [] ⟨(s.limitUp b tick).1,
        some ⟨timestamp, .first timestamp (t.cache.wantBuyTimestamp 0), 1⟩, t, ds⟩
  /-- a later slot is loaded -/
  | load {s c t ds} (h : c.loaded < 16) :
      Step b model ⟨s, some c, t, ds⟩ [] ⟨s, some { c with
        scan := c.scan.next (t.cache.wantBuyTimestamp ⟨c.loaded, h⟩)
        loaded := c.loaded + 1 }, t, ds⟩
  /-- all slots are loaded: the rest of `onTick` -/
  | answer {s c t ds} : c.loaded = 16 →
      Step b model ⟨s, some c, t, ds⟩ (s.onIntent b false c.timestamp c.scan.intent).2
        ⟨(s.onIntent b false c.timestamp c.scan.intent).1, none, t, ds⟩
  /-- shutdown -/
  | stop {s t ds} : Step b model ⟨s, none, t, ds⟩ (s.stop b 0).2 ⟨(s.stop b 0).1, none, t, ds⟩
  | compute {s c t u ds new} : ComputeThread.Step b model t new u →
      Step b model ⟨s, c, t, ds⟩ [] ⟨s, c, u, ds ++ new⟩

inductive Reachable (b : Build) (model : StockCompute R → Bool) : System R → Prop
  | init (s s' : StockState) : Reachable b model (init s s')
  | step {w v es} : Reachable b model w → Step b model w es v → Reachable b model v

end System

end Mdd2
