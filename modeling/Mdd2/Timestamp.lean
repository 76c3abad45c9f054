/-
  Clock times in the decimal format HHMMSSmmm (`timestamp.h`).

  `timestampLinear` counts milliseconds from midnight; `timestampAbsLinear`
  counts them from 9:30:00.000 and cuts out the lunch break, so that the next
  100 ms after 11:30:00.000 are those of 13:00:00.000.  Division and remainder
  truncate toward zero.
-/
import Mdd2.Lib.Word

namespace Mdd2

/-- Milliseconds since midnight. -/
def timestampLinear (timestamp : ℤ) : ℤ :=
  let hours := timestamp.tdiv 10000000
  let minutes := (timestamp.tdiv 100000).tmod 100
  let seconds := (timestamp.tdiv 1000).tmod 100
  let milliseconds := timestamp.tmod 1000
  (hours * 3600 + minutes * 60 + seconds) * 1000 + milliseconds

/-- The clock time of a number of milliseconds, reduced modulo 24 hours. -/
def timestampDelinear (time : ℤ) : ℤ :=
  let milliseconds := time.tmod 1000
  let time := time.tdiv 1000
  let seconds := time.tmod 60
  let time := time.tdiv 60
  let minutes := time.tmod 60
  let time := time.tdiv 60
  let hours := time.tmod 24
  milliseconds + 1000 * (seconds + 100 * (minutes + 100 * hours))

/-- Trading milliseconds since 9:30:00.000; the lunch break collapses to the
    slot of 13:00:00.000. -/
def timestampAbsLinear (timestamp : ℤ) : ℤ :=
  let time := timestampLinear timestamp - timestampLinear 93000000
  if time > 2 * 60 * 60000 then
    if time < (3 * 60 + 30) * 60000 then 2 * 60 * 60000 + 100
    else time - ((1 * 60 + 30) * 60000 - 100)
  else time

/-- The clock time of a number of trading milliseconds. -/
def timestampAbsDelinear (time : ℤ) : ℤ :=
  let time := if time > 2 * 60 * 60000 then time + ((1 * 60 + 30) * 60000 - 100) else time
  timestampDelinear (Word.toSigned 32 (time + timestampLinear 93000000))

def timestampAdvance (timestamp ms : ℤ) : ℤ :=
  timestampAbsDelinear (timestampAbsLinear timestamp + ms)

def timestampAdvance100ms (timestamp : ℤ) : ℤ :=
  timestampAbsDelinear (timestampAbsLinear timestamp + 100)

def timestampDifference (t1 t2 : ℤ) : ℤ :=
  Word.toSigned 32 (timestampAbsLinear t1 - timestampAbsLinear t2)

end Mdd2
