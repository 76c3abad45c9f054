/-
  What the replay delivers, and when.

  * The ticks of a file are sorted by their times, and ticks of one time keep
    their order (`readReplayTicks_eq`); a stock gets its own records of the file
    in that order, up to the stop (`replay_stream`).
  * Where the records carry clock times, each tick has a sleep right before it,
    and the sleeps follow the trading time between the ticks: the clock runs at
    the time scale, and faster by a tenth at most over gaps of 1000 seconds or
    more (`replay_schedule`).  The loop compares a clock time with a number of
    trading milliseconds, which is smaller for every tick.
-/
import Mdd2.Proof.Clock
import Mdd2.Proof.Dispatch
import Mdd2.Proof.RadixSort
import Mdd2.Replay

namespace Mdd2

open CountingSort

namespace Replay

/-! ## The sorted file -/

/-- The ticks of a file, in its order. -/
def fileTicks (file : List UInt8) : List L2.Tick :=
  (List.range (tickCount file)).map (tickAt (readTicks file))

/-- The time of a tick, as the sort compares it. -/
def timeKey (t : L2.Tick) : UInt32 := (Int32.ofInt t.timestamp).toUInt32

/-- The ticks in the order of their times, those of one time in the order they had. -/
def inTimeOrder (ticks : List L2.Tick) : List L2.Tick :=
  ticks.mergeSort fun t u => timeKey t ≤ timeKey u

/-- The tick of a record. -/
def tickOf (r : RadixSort.Record 6) : L2.Tick where
  stock := r[0].toInt32
  timestamp := r[1].toInt32.toInt
  price := r[2].toInt32.toInt
  quantity := r[3].toInt32.toInt
  buyOrderNo := r[4].toInt32.toInt
  sellOrderNo := r[5].toInt32.toInt

theorem timeKey_tickOf (r : RadixSort.Record 6) : timeKey (tickOf r) = r[1] := by
  rw [timeKey, tickOf, Int32.ofInt_toInt, UInt32.toUInt32_toInt32]

theorem tickAt_words {rs : List (RadixSort.Record 6)} {i : ℕ} (hi : i < rs.length) :
    tickAt (RadixSort.words rs) i = tickOf rs[i] := by
  have hword : ∀ {j : ℕ} (hj : j < 6), (RadixSort.words rs).getD (i * 6 + j) 0 = rs[i][j] :=
    fun hj => by rw [List.getD_eq_getElem?_getD, RadixSort.getElem?_words hi hj, Option.getD_some]
  simp only [tickAt, tickOf, hword (show 0 < 6 by decide), hword (show 1 < 6 by decide),
    hword (show 2 < 6 by decide), hword (show 3 < 6 by decide), hword (show 4 < 6 by decide),
    hword (show 5 < 6 by decide)]

theorem map_tickAt_words (rs : List (RadixSort.Record 6)) :
    (List.range rs.length).map (tickAt (RadixSort.words rs)) = rs.map tickOf := by
  refine List.ext_getElem (by simp) fun i hi hi' => ?_
  rw [List.getElem_map, List.getElem_map, List.getElem_range]
  exact tickAt_words (by simpa using hi')

theorem le_total_timeKey (t u : L2.Tick) :
    (decide (timeKey t ≤ timeKey u) || decide (timeKey u ≤ timeKey t)) = true := by
  simpa using UInt32.le_total _ _

theorem le_trans_timeKey (t u v : L2.Tick) (htu : decide (timeKey t ≤ timeKey u) = true)
    (huv : decide (timeKey u ≤ timeKey v) = true) : decide (timeKey t ≤ timeKey v) = true := by
  simp only [decide_eq_true_eq] at htu huv ⊢
  exact UInt32.le_trans htu huv

theorem pairwise_inTimeOrder (ticks : List L2.Tick) :
    (inTimeOrder ticks).Pairwise (timeKey · ≤ timeKey ·) := by
  simpa [inTimeOrder] using List.pairwise_mergeSort le_trans_timeKey le_total_timeKey ticks

theorem filter_timeKey_inTimeOrder (ticks : List L2.Tick) (k : UInt32) :
    (inTimeOrder ticks).filter (timeKey · = k) = ticks.filter (timeKey · = k) := by
  refine filter_mergeSort le_trans_timeKey le_total_timeKey (fun t u ht hu => ?_) ticks
  simp only [decide_eq_true_eq] at ht hu ⊢
  rw [ht, hu]
  exact UInt32.le_refl k

/-- A list in the order of its times is what its ticks of each time make it. -/
theorem eq_inTimeOrder {ticks sorted : List L2.Tick}
    (hsorted : sorted.Pairwise (timeKey · ≤ timeKey ·))
    (hfilter : ∀ k, sorted.filter (timeKey · = k) = ticks.filter (timeKey · = k)) :
    sorted = inTimeOrder ticks :=
  eq_of_pairwise_of_filter (fun _ => UInt32.le_refl _) (fun _ _ => UInt32.le_antisymm) hsorted
    (pairwise_inTimeOrder ticks)
    fun k => (hfilter k).trans (filter_timeKey_inTimeOrder ticks k).symm

/-- The order of some of the ticks does not depend on the others. -/
theorem filter_inTimeOrder (q : L2.Tick → Bool) (ticks : List L2.Tick) :
    (inTimeOrder ticks).filter q = inTimeOrder (ticks.filter q) := by
  refine eq_inTimeOrder ((pairwise_inTimeOrder ticks).filter q) fun k => ?_
  rw [List.filter_comm, filter_timeKey_inTimeOrder, List.filter_comm]

/-- **The replay reads the file into the order of time.** -/
theorem readReplayTicks_eq {file : List UInt8} (hcount : tickCount file < 2 ^ 32)
    (uninit : ℕ → UInt32) :
    readReplayTicks uninit file = some (inTimeOrder (fileTicks file)) := by
  have hlen : (readTicks file).length = tickCount file * 6 := by
    rw [readTicks, FixedCodec.decodeList, List.length_map, List.length_range]
  obtain ⟨rs, hrs, hwords⟩ := RadixSort.exists_records hlen
  have ho : 1 < 6 := by decide
  obtain ⟨buffer', hsort⟩ := RadixSort.radixSort_eq_passes ho rs (hrs ▸ hcount) uninit []
  have hperm := RadixSort.passes_perm ho rs (le_refl 4)
  have hread : readReplayTicks uninit file = some ((RadixSort.passes ho rs 4).map tickOf) := by
    rw [readReplayTicks, ← hwords, ← hrs, hsort, ← hperm.length_eq]
    exact congrArg some (map_tickAt_words _)
  have hfile : fileTicks file = rs.map tickOf := by
    rw [fileTicks, ← hwords, ← hrs, map_tickAt_words]
  rw [hread, hfile]
  refine congrArg some (eq_inTimeOrder ?_ fun k => ?_)
  · rw [List.pairwise_map]
    exact (RadixSort.passes_sorted ho rs).imp fun h => by rwa [timeKey_tickOf, timeKey_tickOf]
  · have hkey : (fun t => decide (timeKey t = k)) ∘ tickOf =
        fun r => decide (RadixSort.key ho r = k) := funext fun r => by
      rw [Function.comp_apply, timeKey_tickOf, RadixSort.key]
    rw [List.filter_map, List.filter_map, hkey, RadixSort.filter_passes ho rs le_rfl]

/-! ## What is delivered -/

/-- The ticks that are handed over. -/
def handled (events : List Event) : List L2.Tick :=
  events.filterMap fun
    | .handleTick tick => some tick
    | .blockingSleepUntil _ => none

variable {stop : ℕ → Bool}

theorem handled_next (timeScale : ℤ) (p : Pace) (tick : L2.Tick) :
    handled (p.next timeScale tick).2 = [] := by
  unfold Pace.next
  split_ifs <;> rfl

/-- The clock changes nothing about what is delivered. -/
theorem handled_replayPaced (timeScale : ℤ) (p : Pace) (i : ℕ) (ticks : List L2.Tick) :
    handled (replayPaced timeScale stop p i ticks) = handled (replayUnpaced stop i ticks) := by
  induction ticks generalizing p i with
  | nil => rfl
  | cons tick ticks ih =>
    rw [replayPaced, replayUnpaced]
    split_ifs
    · rfl
    · have hnext := handled_next timeScale p tick
      simp only [handled, List.filterMap_append, List.filterMap_cons] at hnext ih ⊢
      rw [hnext, ih, List.nil_append]

/-- The number of ticks before the stop. -/
structure StopsAt (stop : ℕ → Bool) (i len n : ℕ) : Prop where
  le : n ≤ len
  before : ∀ j < n, stop (i + j) = false
  at_stop : n < len → stop (i + n) = true

theorem StopsAt.zero {i len : ℕ} (h : stop i = true) : StopsAt stop i len 0 :=
  ⟨Nat.zero_le _, fun _ hj => absurd hj (Nat.not_lt_zero _), fun _ => h⟩

theorem StopsAt.succ {i len n : ℕ} (h : stop i = false) (hn : StopsAt stop (i + 1) len n) :
    StopsAt stop i (len + 1) (n + 1) where
  le := Nat.succ_le_succ hn.le
  before j hj := by
    rcases j with - | j
    · exact h
    · rw [← hn.before j (by omega), Nat.add_right_comm, Nat.add_assoc]
  at_stop hlt := by rw [← hn.at_stop (by omega), Nat.add_right_comm, Nat.add_assoc]

theorem exists_stopsAt (stop : ℕ → Bool) (i len : ℕ) : ∃ n, StopsAt stop i len n := by
  induction len generalizing i with
  | zero =>
    exact ⟨0, le_rfl, fun _ hj => absurd hj (Nat.not_lt_zero _), fun h => absurd h (lt_irrefl _)⟩
  | succ len ih =>
    by_cases hstop : stop i
    · exact ⟨0, .zero hstop⟩
    · obtain ⟨n, hn⟩ := ih (i + 1)
      exact ⟨n + 1, hn.succ (by simpa using hstop)⟩

/-- The first check decides whether there is a first tick. -/
theorem StopsAt.cases {i len n : ℕ} (hn : StopsAt stop i (len + 1) n) :
    stop i = true ∧ n = 0 ∨ stop i = false ∧ ∃ m, n = m + 1 ∧ StopsAt stop (i + 1) len m := by
  rcases n with - | n
  · exact .inl ⟨hn.at_stop (Nat.succ_pos _), rfl⟩
  · refine .inr ⟨hn.before 0 (Nat.succ_pos _), n, rfl, Nat.le_of_succ_le_succ hn.le,
      fun j hj => ?_, fun hlt => ?_⟩
    · rw [← hn.before (j + 1) (by omega), Nat.add_assoc, Nat.add_comm 1]
    · rw [← hn.at_stop (by omega), Nat.add_assoc, Nat.add_comm 1]

theorem handled_replayUnpaced {i n : ℕ} {ticks : List L2.Tick}
    (hn : StopsAt stop i ticks.length n) :
    handled (replayUnpaced stop i ticks) = ticks.take n := by
  induction ticks generalizing i n with
  | nil => rw [List.take_nil]; rfl
  | cons tick ticks ih =>
    rw [replayUnpaced]
    rcases hn.cases with ⟨hstop, rfl⟩ | ⟨hstop, m, rfl, hm⟩
    · rw [if_pos hstop]
      rfl
    · rw [if_neg (by simp [hstop]), List.take_succ_cons, ← ih hm]
      rfl

theorem handled_replayMain {timeScale : Option ℤ} {steadyNow : ℤ} {tickBuf : List L2.Tick} {n : ℕ}
    (hn : StopsAt stop 0 tickBuf.length n) :
    handled (replayMain timeScale steadyNow stop tickBuf) = tickBuf.take n := by
  rw [← handled_replayUnpaced hn]
  cases timeScale with
  | none => rfl
  | some timeScale => exact handled_replayPaced timeScale _ 0 tickBuf

theorem length_inTimeOrder (ticks : List L2.Tick) : (inTimeOrder ticks).length = ticks.length :=
  List.length_mergeSort _

theorem length_fileTicks (file : List UInt8) : (fileTicks file).length = tickCount file := by
  rw [fileTicks, List.length_map, List.length_range]

/-- **A replay hands over the records of the file**, in the order of their times, those of
    one time in the order of the file, up to its stop: at any time scale.  A stock gets its
    own records in that order, whatever else the file holds, and as they are if they are in
    order. -/
theorem replay_stream (file : List UInt8) (hcount : tickCount file < 2 ^ 32)
    (uninit : ℕ → UInt32) (timeScale : Option ℤ) (steadyNow : ℤ) (stop : ℕ → Bool) :
    ∃ tickBuf n, readReplayTicks uninit file = some tickBuf ∧
      tickBuf = inTimeOrder (fileTicks file) ∧ StopsAt stop 0 (tickCount file) n ∧
      handled (replayMain timeScale steadyNow stop tickBuf) = tickBuf.take n ∧
      ∀ stock : Int32,
        let own := (fileTicks file).filter (·.stock = stock)
        (tickBuf.take n).filter (·.stock = stock) <+: inTimeOrder own ∧
          (n = tickCount file → (tickBuf.take n).filter (·.stock = stock) = inTimeOrder own) ∧
          (own.Pairwise (timeKey · ≤ timeKey ·) → inTimeOrder own = own) := by
  have hlen : (inTimeOrder (fileTicks file)).length = tickCount file := by
    rw [length_inTimeOrder, length_fileTicks]
  obtain ⟨n, hn⟩ := exists_stopsAt stop 0 (tickCount file)
  refine ⟨_, n, readReplayTicks_eq hcount uninit, rfl, hn, handled_replayMain (hlen ▸ hn),
    fun stock => ⟨?_, ?_, ?_⟩⟩
  · rw [← filter_inTimeOrder]
    exact (List.take_prefix n _).filter _
  · rintro rfl
    rw [← filter_inTimeOrder, List.take_of_length_le hlen.le]
  · exact fun hpair => (eq_inTimeOrder hpair fun _ => rfl).symm

/-- A trade, and an order of the moment before. -/
def twoTicks : List UInt8 :=
  FixedCodec.uint32.encodeList
    [600000, 93000120, 1090, 100, 5, 6, 600000, 93000000, 1090, 100, 5, 0]

theorem replay_stream_two : tickCount twoTicks < 2 ^ 32 ∧
    ∃ tickBuf n, readReplayTicks (fun _ => 0) twoTicks = some tickBuf ∧
      tickBuf = inTimeOrder (fileTicks twoTicks) ∧
      StopsAt (fun i => i = 1) 0 (tickCount twoTicks) n ∧
      handled (replayMain (some 100000) 0 (fun i => i = 1) tickBuf) = tickBuf.take n ∧
      ∀ stock : Int32,
        let own := (fileTicks twoTicks).filter (·.stock = stock)
        (tickBuf.take n).filter (·.stock = stock) <+: inTimeOrder own ∧
          (n = tickCount twoTicks →
            (tickBuf.take n).filter (·.stock = stock) = inTimeOrder own) ∧
          (own.Pairwise (timeKey · ≤ timeKey ·) → inTimeOrder own = own) :=
  ⟨by decide, replay_stream twoTicks (by decide) _ _ _ _⟩

/-! ## When it is delivered -/

/-- Trading milliseconds of a tick. -/
def position (t : L2.Tick) : ℤ := timestampAbsLinear t.timestamp

/-- The clock after a tick. -/
def Pace.after (timeScale : ℤ) (p : Pace) (t : L2.Tick) : Pace where
  lastTimestamp := position t
  nextSleepTime := p.nextSleepTime + shorten (position t - p.lastTimestamp) * timeScale

/-- The times that the sleeps wait for. -/
def dues (timeScale : ℤ) : Pace → List L2.Tick → List ℤ
  | _, [] => []
  | p, t :: ts => (p.after timeScale t).nextSleepTime :: dues timeScale (p.after timeScale t) ts

/-- A tick with a sleep before it. -/
def timed (due : ℤ) (t : L2.Tick) : List Event := [.blockingSleepUntil due, .handleTick t]

/-- The record carries a time of day. -/
def OnClock (t : L2.Tick) : Prop := ∃ c : ClockTime, c.timestamp = t.timestamp

/-- A time of day, read as a decimal number, is greater than its milliseconds. -/
theorem OnClock.linear_le {t : L2.Tick} (ht : OnClock t) :
    timestampLinear t.timestamp ≤ t.timestamp ∧ 0 ≤ t.timestamp := by
  obtain ⟨c, hc⟩ := ht
  rw [← hc, ClockTime.timestampLinear_timestamp, ClockTime.linear, ClockTime.timestamp]
  push_cast
  omega

theorem OnClock.position_lt {t : L2.Tick} (ht : OnClock t) : position t < t.timestamp := by
  obtain ⟨hle, h0⟩ := ht.linear_le
  have hopen := timestampLinear_open
  rw [position, timestampAbsLinear, hopen]
  split_ifs <;> omega

theorem shorten_le {dt : ℤ} (h : 0 ≤ dt) : shorten dt ≤ dt ∧ 9 * dt ≤ 10 * shorten dt := by
  unfold shorten
  split_ifs
  · rw [Int.tdiv_eq_ediv_of_nonneg (by omega)]
    omega
  · omega

theorem position_le {t u : L2.Tick} (ht : OnClock t) (hu : OnClock u)
    (h : t.timestamp ≤ u.timestamp) : position t ≤ position u := by
  obtain ⟨c, hc⟩ := ht
  obtain ⟨d, hd⟩ := hu
  have hlin : c.linear ≤ d.linear := by
    rw [← hc, ← hd] at h
    by_contra hlt
    exact absurd (ClockTime.timestamp_lt_iff.2 (not_le.1 hlt)) (not_lt.2 h)
  simp only [position, ← hc, ← hd, timestampAbsLinear, ClockTime.timestampLinear_timestamp,
    timestampLinear_open]
  split_ifs <;> omega

theorem length_dues (timeScale : ℤ) (p : Pace) (ticks : List L2.Tick) :
    (dues timeScale p ticks).length = ticks.length := by
  induction ticks generalizing p with
  | nil => rfl
  | cons t ticks ih => rw [dues, List.length_cons, ih, List.length_cons]

/-- A sleep lasts as long as the step in trading time. -/
theorem getD_dues_succ (timeScale : ℤ) (p : Pace) {ticks : List L2.Tick} {k : ℕ}
    (hk : k + 1 < ticks.length) :
    (dues timeScale p ticks).getD (k + 1) 0 = (dues timeScale p ticks).getD k 0 +
      shorten (position ticks[k + 1] - position ticks[k]) * timeScale := by
  induction ticks generalizing p k with
  | nil => exact absurd hk (Nat.not_lt_zero _)
  | cons t ticks ih =>
    rcases k with - | k
    · rcases ticks with - | ⟨u, ticks⟩
      · exact absurd hk (by simp)
      · rfl
    · simp only [dues, List.getD_cons_succ, List.getElem_cons_succ]
      exact ih _ (by simpa using hk)

/-- Every tick has a sleep right before it. -/
theorem replayPaced_eq (timeScale : ℤ) {p : Pace} {i n : ℕ} {ticks : List L2.Tick}
    (hn : StopsAt stop i ticks.length n) (hclock : ∀ t ∈ ticks, OnClock t)
    (hsorted : ticks.Pairwise (·.timestamp ≤ ·.timestamp))
    (hp : ∀ t ∈ ticks, p.lastTimestamp < t.timestamp) :
    replayPaced timeScale stop p i ticks =
      (((dues timeScale p ticks).zipWith timed ticks).take n).flatten := by
  induction ticks generalizing p i n with
  | nil => simp [replayPaced, dues]
  | cons t ticks ih =>
    rw [replayPaced]
    rcases hn.cases with ⟨hstop, rfl⟩ | ⟨hstop, m, rfl, hm⟩
    · rw [if_pos hstop]
      rfl
    · have hnext : p.next timeScale t =
          (p.after timeScale t, [.blockingSleepUntil (p.after timeScale t).nextSleepTime]) := by
        rw [Pace.next, if_pos (hp t List.mem_cons_self)]
        rfl
      obtain ⟨ht, hticks⟩ := List.pairwise_cons.1 hsorted
      -- a later tick has a greater number than the milliseconds of this one
      have hlater : ∀ u ∈ ticks, (p.after timeScale t).lastTimestamp < u.timestamp := fun u hu =>
        lt_of_lt_of_le (hclock t List.mem_cons_self).position_lt (ht u hu)
      have hrest := ih hm (fun u hu => hclock u (List.mem_cons_of_mem _ hu)) hticks hlater
      rw [if_neg (by simp [hstop]), hnext, dues, List.zipWith_cons_cons, List.take_succ_cons,
        List.flatten_cons, ← hrest]
      rfl

theorem OnClock.timeKey_le_iff {t u : L2.Tick} (ht : OnClock t) (hu : OnClock u) :
    timeKey t ≤ timeKey u ↔ t.timestamp ≤ u.timestamp := by
  have hkey : ∀ {v : L2.Tick}, OnClock v → ((timeKey v).toNat : ℤ) = v.timestamp := by
    rintro v ⟨c, hc⟩
    have hlt := c.hours_lt
    have hmin := c.minutes_lt
    have hsec := c.seconds_lt
    have hms := c.milliseconds_lt
    have h0 : v.timestamp = _ := hc.symm
    rw [ClockTime.timestamp] at h0
    rw [timeKey, toNat_toUInt32, Int32.toInt_ofInt_of_le (by omega) (by omega),
      Int.emod_eq_of_lt (by omega) (by omega)]
  rw [UInt32.le_iff_toNat_le, ← hkey ht, ← hkey hu, Nat.cast_le]

/-- The time that the sleep before tick `i` waits for. -/
def dueAt (timeScale steadyNow : ℤ) (tickBuf : List L2.Tick) (i : ℕ) : ℤ :=
  (dues timeScale (Pace.start steadyNow) tickBuf).getD i 0

theorem dueAt_succ (timeScale steadyNow : ℤ) {tickBuf : List L2.Tick} {k : ℕ} {t u : L2.Tick}
    (ht : tickBuf[k]? = some t) (hu : tickBuf[k + 1]? = some u) :
    dueAt timeScale steadyNow tickBuf (k + 1) =
      dueAt timeScale steadyNow tickBuf k + shorten (position u - position t) * timeScale := by
  obtain ⟨hk, rfl⟩ := List.getElem?_eq_some_iff.1 hu
  obtain ⟨hk', rfl⟩ := List.getElem?_eq_some_iff.1 ht
  exact getD_dues_succ timeScale _ hk

/-- The sleeps between two ticks, against the trading time between them. -/
structure Follows (timeScale : ℤ) (t u : L2.Tick) (due due' : ℤ) : Prop where
  mono : due ≤ due'
  le : due' - due ≤ (position u - position t) * timeScale
  ge : 9 * ((position u - position t) * timeScale) ≤ 10 * (due' - due)

theorem Follows.refl (timeScale : ℤ) (t : L2.Tick) (due : ℤ) : Follows timeScale t t due due := by
  constructor <;> simp

theorem Follows.step {timeScale : ℤ} (hscale : 0 ≤ timeScale) {t u v : L2.Tick} {due due' : ℤ}
    (h : Follows timeScale t u due due') (huv : position u ≤ position v) :
    Follows timeScale t v due (due' + shorten (position v - position u) * timeScale) := by
  obtain ⟨hle, hge⟩ := shorten_le (sub_nonneg.2 huv)
  have hstep := mul_le_mul_of_nonneg_right hle hscale
  have hstep' := mul_le_mul_of_nonneg_right hge hscale
  have hpos := mul_nonneg (sub_nonneg.2 huv) hscale
  obtain ⟨hmono, hle, hge⟩ := h
  constructor <;> nlinarith

/-- No two successive ticks are 1000 seconds apart. -/
def NoWideGap (tickBuf : List L2.Tick) : Prop :=
  ∀ k t u, tickBuf[k]? = some t → tickBuf[k + 1]? = some u → position u - position t < 1000000

theorem follows_dueAt {timeScale : ℤ} (hscale : 0 ≤ timeScale) (steadyNow : ℤ)
    {tickBuf : List L2.Tick} (hmono : tickBuf.Pairwise (position · ≤ position ·)) {i j : ℕ}
    {t u : L2.Tick} (hij : i ≤ j) (ht : tickBuf[i]? = some t) (hu : tickBuf[j]? = some u) :
    Follows timeScale t u (dueAt timeScale steadyNow tickBuf i)
        (dueAt timeScale steadyNow tickBuf j) ∧
      (NoWideGap tickBuf → dueAt timeScale steadyNow tickBuf j =
        dueAt timeScale steadyNow tickBuf i + (position u - position t) * timeScale) := by
  induction j, hij using Nat.le_induction generalizing u with
  | base =>
    obtain rfl := Option.some.inj (ht.symm.trans hu)
    exact ⟨.refl _ _ _, fun _ => by rw [sub_self, zero_mul, add_zero]⟩
  | succ j hij ih =>
    obtain ⟨hj, rfl⟩ := List.getElem?_eq_some_iff.1 hu
    have hv : tickBuf[j]? = some tickBuf[j] := List.getElem?_eq_getElem (by omega)
    obtain ⟨hfollows, hexact⟩ := ih hv
    have hle := List.pairwise_iff_getElem.1 hmono j (j + 1) (by omega) hj (Nat.lt_succ_self j)
    rw [dueAt_succ timeScale steadyNow hv hu]
    refine ⟨hfollows.step hscale hle, fun hgap => ?_⟩
    rw [hexact hgap, shorten, if_neg (not_le.2 (hgap j _ _ hv hu))]
    ring

/-- **The replay keeps time.**  On a file of clock times, every tick is handed over right
    after a sleep.  From one tick to another, the sleeps wait for the trading time between
    them at the time scale, and for nine tenths of it at least; they wait for all of it if
    no two successive ticks are 1000 seconds apart. -/
theorem replay_schedule {file : List UInt8} (hcount : tickCount file < 2 ^ 32)
    (hclock : ∀ t ∈ fileTicks file, OnClock t) (uninit : ℕ → UInt32) {timeScale : ℤ}
    (hscale : 0 ≤ timeScale) (steadyNow : ℤ) (stop : ℕ → Bool) :
    ∃ (tickBuf : List L2.Tick) (n : ℕ) (due : ℕ → ℤ),
      readReplayTicks uninit file = some tickBuf ∧ StopsAt stop 0 (tickCount file) n ∧
      replayMain (some timeScale) steadyNow stop tickBuf =
        ((tickBuf.take n).mapIdx fun i t => timed (due i) t).flatten ∧
      ∀ i j t u, i ≤ j → tickBuf[i]? = some t → tickBuf[j]? = some u →
        Follows timeScale t u (due i) (due j) ∧
          (NoWideGap tickBuf → due j = due i + (position u - position t) * timeScale) := by
  obtain ⟨n, hn⟩ := exists_stopsAt stop 0 (tickCount file)
  set tickBuf := inTimeOrder (fileTicks file) with htickBuf
  have hlen : tickBuf.length = tickCount file := by
    rw [htickBuf, length_inTimeOrder, length_fileTicks]
  have hperm : tickBuf.Perm (fileTicks file) := List.mergeSort_perm _ _
  have hclock' : ∀ t ∈ tickBuf, OnClock t := fun t ht => hclock t (hperm.subset ht)
  have hsorted : tickBuf.Pairwise (·.timestamp ≤ ·.timestamp) :=
    (pairwise_inTimeOrder _).imp_of_mem fun ht hu h =>
      ((hclock' _ ht).timeKey_le_iff (hclock' _ hu)).1 h
  have hmono : tickBuf.Pairwise (position · ≤ position ·) :=
    hsorted.imp_of_mem fun ht hu h => position_le (hclock' _ ht) (hclock' _ hu) h
  -- the clock starts below every clock time
  have hstart : ∀ t ∈ tickBuf, (Pace.start steadyNow).lastTimestamp < t.timestamp := by
    intro t ht
    have h0 := (hclock' t ht).linear_le.2
    have hlast : timestampAbsLinear 92400000 < 0 := by decide
    exact lt_of_lt_of_le hlast h0
  refine ⟨tickBuf, n, dueAt timeScale steadyNow tickBuf, readReplayTicks_eq hcount uninit, hn, ?_,
    fun i j t u hij ht hu => follows_dueAt hscale steadyNow hmono hij ht hu⟩
  rw [replayMain, replayPaced_eq timeScale (hlen ▸ hn) hclock' hsorted hstart]
  congr 1
  refine List.ext_getElem (by simp [length_dues]) fun i hi hi' => ?_
  have hi'' : i < tickBuf.length := by simp at hi'; omega
  simp only [List.getElem_take, List.getElem_zipWith, List.getElem_mapIdx, dueAt]
  rw [List.getD_eq_getElem _ _ (by rwa [length_dues])]

theorem replay_schedule_two : ∃ (tickBuf : List L2.Tick) (n : ℕ) (due : ℕ → ℤ),
    readReplayTicks (fun _ => 0) twoTicks = some tickBuf ∧
      StopsAt (fun _ => false) 0 (tickCount twoTicks) n ∧
      replayMain (some 100000) 0 (fun _ => false) tickBuf =
        ((tickBuf.take n).mapIdx fun i t => timed (due i) t).flatten ∧
      ∀ i j t u, i ≤ j → tickBuf[i]? = some t → tickBuf[j]? = some u →
        Follows 100000 t u (due i) (due j) ∧
          (NoWideGap tickBuf → due j = due i + (position u - position t) * 100000) := by
  refine replay_schedule (by decide) (fun t ht => ?_) _ (by decide) _ _
  have hticks : fileTicks twoTicks =
      [⟨600000, 93000120, 1090, 100, 5, 6⟩, ⟨600000, 93000000, 1090, 100, 5, 0⟩] := by decide
  rw [hticks, List.mem_pair] at ht
  rcases ht with rfl | rfl
  · exact ⟨⟨9, 30, 0, 120, by decide, by decide, by decide, by decide⟩, by decide⟩
  · exact ⟨⟨9, 30, 0, 0, by decide, by decide, by decide, by decide⟩, by decide⟩

end Replay

end Mdd2
