/-
  The replay of the ticks of a day (`MDS_replay.cpp`).

  `readReplayTicks` reads the records of the file, six 32-bit words each, and
  sorts them by their time.  `replayMain` hands them to `MDD::handleTick`, one
  after the other; where the time scale is positive, it sleeps before a tick
  until the time of the tick has come.  Steady clock times are in nanoseconds.
-/
import Mdd2.Lib.BinaryFile
import Mdd2.RadixSort
import Mdd2.Tick
import Mdd2.Timestamp

namespace Mdd2

namespace Replay

/-! ## The file -/

/-- `tickBuf[i]`. -/
def tickAt (tickBuf : Words) (i : ℕ) : L2.Tick :=
  let word j := (tickBuf.getD (i * 6 + j) 0).toInt32
  { stock := word 0
    timestamp := (word 1).toInt
    price := (word 2).toInt
    quantity := (word 3).toInt
    buyOrderNo := (word 4).toInt
    sellOrderNo := (word 5).toInt }

/-- The number of whole records of a file. -/
def tickCount (file : List UInt8) : ℕ := file.length / 24

/-- `fread` of the whole records. -/
def readTicks (file : List UInt8) : Words := FixedCodec.uint32.decodeList (tickCount file * 6) file

/-- The ticks of the file in the order of their times; the buffer of the sort is that of a
    new thread. -/
def readReplayTicks (uninit : ℕ → UInt32) (file : List UInt8) : Option (List L2.Tick) := do
  let (tickBuf, _) ← RadixSort.radixSort 8 4 4 24 uninit [] (readTicks file) (tickCount file)
  some ((List.range (tickCount file)).map (tickAt tickBuf))

/-! ## The loop -/

inductive Event where
  | blockingSleepUntil (time : ℤ)
  | handleTick (tick : L2.Tick)
  deriving DecidableEq

/-- The variables of the loop. -/
structure Pace where
  lastTimestamp : ℤ
  nextSleepTime : ℤ
  deriving DecidableEq

/-- A gap of 1000 seconds or more is shortened. -/
def shorten (dt : ℤ) : ℤ := if 1000000 ≤ dt then dt - (dt - 1000000).tdiv 10 else dt

/-- What precedes a tick. -/
def Pace.next (timeScale : ℤ) (p : Pace) (tick : L2.Tick) : Pace × List Event :=
  if p.lastTimestamp < tick.timestamp then
    let thisTimestamp := timestampAbsLinear tick.timestamp
    let dt := thisTimestamp - p.lastTimestamp
    let nextSleepTime := p.nextSleepTime + shorten dt * timeScale
    (⟨thisTimestamp, nextSleepTime⟩, [.blockingSleepUntil nextSleepTime])
  else (p, [])

/-- The loop with a positive time scale; `stop i` is the answer before tick `i`. -/
def replayPaced (timeScale : ℤ) (stop : ℕ → Bool) : Pace → ℕ → List L2.Tick → List Event
  | _, _, [] => []
  | p, i, tick :: ticks =>
    if stop i then [] else
      let (p, events) := p.next timeScale tick
      events ++ .handleTick tick :: replayPaced timeScale stop p (i + 1) ticks

/-- The loop without a clock. -/
def replayUnpaced (stop : ℕ → Bool) : ℕ → List L2.Tick → List Event
  | _, [] => []
  | i, tick :: ticks =>
    if stop i then [] else .handleTick tick :: replayUnpaced stop (i + 1) ticks

/-- The clock of a replay that starts at `steadyNow`. -/
def Pace.start (steadyNow : ℤ) : Pace where
  lastTimestamp := timestampAbsLinear 92400000
  nextSleepTime := steadyNow

/-- `replayMain`; the time scale is in nanoseconds for each millisecond, and `none` where
    `g_timeScale` is not positive. -/
def replayMain (timeScale : Option ℤ) (steadyNow : ℤ) (stop : ℕ → Bool) (tickBuf : List L2.Tick) :
    List Event :=
  match timeScale with
  | some timeScale => replayPaced timeScale stop (Pace.start steadyNow) 0 tickBuf
  | none => replayUnpaced stop 0 tickBuf

end Replay

end Mdd2
