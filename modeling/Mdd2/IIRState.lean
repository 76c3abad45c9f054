/-
  The running sums of the crowd factors (`IIRState.h`, `IIRState.cpp`).

  The state is written over a type of scalars with the arithmetic operations;
  the program instantiates it with `float`, the results about it are over exact
  arithmetic.  `tick_count` is exact, as it is below 2^31 calls.
-/
import Mathlib

namespace Mdd2

/-- The arithmetic the factor code uses. -/
class FactorScalar (R : Type) extends Add R, Sub R, Mul R, Div R, IntCast R

instance : FactorScalar ℚ where

structure IIRState (R : Type) where
  prev_cum_volume : R
  short_ema : R
  long_ema : R
  band_energy : R
  low_freq_energy : R
  diff_energy : R
  windowBand100_sum : R
  windowLow100_sum : R
  windowDiff100_sum : R
  windowBand500_sum : R
  windowDiff500_sum : R
  ring100_pos : Fin 100
  ring500_pos : Fin 500
  ring100_filled : Bool
  ring500_filled : Bool
  tick_count : ℕ
  band2_ring100 : Fin 100 → R
  low_band2_ring100 : Fin 100 → R
  diff2_ring100 : Fin 100 → R
  band2_ring500 : Fin 500 → R
  low_band2_ring500 : Fin 500 → R
  diff2_ring500 : Fin 500 → R

namespace IIRState
variable {R : Type} [FactorScalar R]

/-- A value-initialized state. -/
def zero : IIRState R :=
  let o : R := ((0 : ℤ) : R)
  { prev_cum_volume := o, short_ema := o, long_ema := o, band_energy := o, low_freq_energy := o
    diff_energy := o, windowBand100_sum := o, windowLow100_sum := o, windowDiff100_sum := o
    windowBand500_sum := o, windowDiff500_sum := o, ring100_pos := 0, ring500_pos := 0
    ring100_filled := false, ring500_filled := false, tick_count := 0
    band2_ring100 := fun _ => o, low_band2_ring100 := fun _ => o, diff2_ring100 := fun _ => o
    band2_ring500 := fun _ => o, low_band2_ring500 := fun _ => o, diff2_ring500 := fun _ => o }

def kCrowdShortSpan : ℤ := 30
def kCrowdLongSpan : ℤ := 600

/-- `addVolumeTick`: one step of the filters, and of the two sliding windows.
    A ring position wraps to `0` when it reaches the length of its ring. -/
def addVolumeTick (s : IIRState R) (lastVolume : R) : IIRState R :=
  let diff : R := if s.tick_count = 0 then ((0 : ℤ) : R) else lastVolume
  let alpha_short : R := ((2 : ℤ) : R) / ((kCrowdShortSpan + 1 : ℤ) : R)
  let alpha_long : R := ((2 : ℤ) : R) / ((kCrowdLongSpan + 1 : ℤ) : R)
  let short_ema := alpha_short * diff + (((1 : ℤ) : R) - alpha_short) * s.short_ema
  let long_ema := alpha_long * diff + (((1 : ℤ) : R) - alpha_long) * s.long_ema
  let high_band := short_ema - long_ema
  let low_band := long_ema
  let diff_square := diff * diff
  let high_band_square := high_band * high_band
  let low_band_square := low_band * low_band
  { prev_cum_volume := s.prev_cum_volume + diff
    short_ema, long_ema
    band_energy := s.band_energy + high_band_square
    low_freq_energy := s.low_freq_energy + low_band_square
    diff_energy := s.diff_energy + diff_square
    windowBand100_sum := s.windowBand100_sum + (high_band_square - s.band2_ring100 s.ring100_pos)
    windowLow100_sum := s.windowLow100_sum + (low_band_square - s.low_band2_ring100 s.ring100_pos)
    windowDiff100_sum := s.windowDiff100_sum + (diff_square - s.diff2_ring100 s.ring100_pos)
    band2_ring100 := Function.update s.band2_ring100 s.ring100_pos high_band_square
    low_band2_ring100 := Function.update s.low_band2_ring100 s.ring100_pos low_band_square
    diff2_ring100 := Function.update s.diff2_ring100 s.ring100_pos diff_square
    ring100_pos := s.ring100_pos + 1
    ring100_filled := s.ring100_filled || s.ring100_pos + 1 == 0
    windowBand500_sum := s.windowBand500_sum + (high_band_square - s.band2_ring500 s.ring500_pos)
    windowDiff500_sum := s.windowDiff500_sum + (diff_square - s.diff2_ring500 s.ring500_pos)
    band2_ring500 := Function.update s.band2_ring500 s.ring500_pos high_band_square
    low_band2_ring500 := Function.update s.low_band2_ring500 s.ring500_pos low_band_square
    diff2_ring500 := Function.update s.diff2_ring500 s.ring500_pos diff_square
    ring500_pos := s.ring500_pos + 1
    ring500_filled := s.ring500_filled || s.ring500_pos + 1 == 0
    tick_count := s.tick_count + 1 }

/-- `kCrowdEpsilon`, 1e-12. -/
def kCrowdEpsilon : R := ((1 : ℤ) : R) / ((1000000000000 : ℤ) : R)

/-- The crowd factors; a factor that is NaN is `none`. -/
structure Crowdind (R : Type) where
  crowdIndTop20 : Option R
  crowdIndLast500Top20 : Option R
  crowdIndBottom20 : Option R
  crowdIndLast500Bottom20 : Option R

def finalCompute (s : IIRState R) : Crowdind R :=
  if s.tick_count < 10 then ⟨none, none, none, none⟩
  else
    { crowdIndTop20 := some (s.band_energy / (s.diff_energy + kCrowdEpsilon))
      crowdIndBottom20 := some (s.windowLow100_sum / (s.diff_energy + kCrowdEpsilon))
      crowdIndLast500Top20 :=
        if s.ring500_filled then some (s.windowBand500_sum / (s.windowDiff500_sum + kCrowdEpsilon))
        else none
      crowdIndLast500Bottom20 :=
        if s.ring500_filled && s.ring100_filled then
          some (s.windowDiff100_sum / (s.windowDiff500_sum + kCrowdEpsilon))
        else none }

end IIRState

end Mdd2
