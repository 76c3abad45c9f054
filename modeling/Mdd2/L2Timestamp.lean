/-
  Clock times of the order book snapshots (`L2/timestamp.h`).

  Snapshots are taken every `interval` milliseconds.  The absolute milliseconds of
  9:30:00.000 are 0; those of the call auction end `interval` before them, at
  9:25:00.000, and those of 13:00:00.000 are `interval` after those of 11:30:00.000.
-/
import Mathlib

namespace L2

def timestampToMilliseconds (timestamp : ℤ) : ℤ :=
  let hours := timestamp.tdiv 10000000
  let minutes := (timestamp.tdiv 100000).tmod 100
  let seconds := (timestamp.tdiv 1000).tmod 100
  let milliseconds := timestamp.tmod 1000
  (hours * 3600 + minutes * 60 + seconds) * 1000 + milliseconds

def millisecondsToTimestamp (time : ℤ) : ℤ :=
  let milliseconds := time.tmod 1000
  let time := time.tdiv 1000
  let seconds := time.tmod 60
  let time := time.tdiv 60
  let minutes := time.tmod 60
  let time := time.tdiv 60
  let hours := time.tmod 24
  milliseconds + 1000 * (seconds + 100 * (minutes + 100 * hours))

def timestampToAbsoluteMilliseconds (timestamp interval : ℤ) : ℤ :=
  let time := timestampToMilliseconds timestamp - timestampToMilliseconds 93000000
  if time < 0 then
    if time > -5 * 60000 then -interval
    else time + (5 * 60000 - interval)
  else if time > 2 * 60 * 60000 then
    if time < (3 * 60 + 30) * 60000 then 2 * 60 * 60000
    else time - ((1 * 60 + 30) * 60000 - interval)
  else time

def absoluteMillisecondsToTimestamp (time interval : ℤ) : ℤ :=
  let time := if time < 0 then time - (5 * 60000 - interval) else time
  let time := if time > 2 * 60 * 60000 then time + ((1 * 60 + 30) * 60000 - interval) else time
  millisecondsToTimestamp (time + timestampToMilliseconds 93000000)

end L2
