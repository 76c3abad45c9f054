/-
  Runs of an order book, with its timed snapshots.

  * `AtSlot i n`: the book is at slot `n` of the schedule, and has the snapshots up to
    this slot.  A tick keeps it there, and a round of the loop moves it to the next slot
    (`AtSlot.nextSnap`);
  * `counted`: the counters of a book and of its snapshots; a tick adds to them, and the
    loop only moves them to snapshots;
  * `Calls.atSlot`, `Calls.counted`: the same for runs;
  * `snapshots_follow_schedule`: the snapshots of a run.
-/
import Mdd2.Lib.Timetable
import Mdd2.Proof.Schedule
import Mdd2.Proof.SnapUpdate

namespace L2

namespace OrderBook

variable {i n : ℕ} {ob ob' : OrderBook}

/-! ## Counters -/

/-- Trades, volume and amount of all snapshots, and those not in a snapshot yet. -/
def counted (ob : OrderBook) : ℤ × ℤ × ℤ :=
  (ob.snapshots.map fun snap => (snap.numTrades, snap.volume, snap.amount)).sum +
    (ob.numTrades, ob.volume, ob.amount)

/-- What a tick counts for. -/
def tradeOf (tick : Tick) : ℤ × ℤ × ℤ :=
  if tick.isTrade then (1, tick.quantity, tick.price * tick.quantity) else 0

theorem Frame.counted (h : ob.Frame ob') : ob'.counted = ob.counted := by
  rw [OrderBook.counted, h.snapshots, h.numTrades, h.volume, h.amount, OrderBook.counted]

/-- A tick overflows no counter. -/
def CountFits (ob : OrderBook) (tick : Tick) : Prop :=
  tick.isTrade → ob.numTrades + 1 ∈ Set.Ico (-2 ^ 31 : ℤ) (2 ^ 31) ∧
    ob.volume + tick.quantity ∈ Set.Ico (-2 ^ 31 : ℤ) (2 ^ 31) ∧
    ob.amount + tick.price * tick.quantity ∈ Set.Ico (-2 ^ 63 : ℤ) (2 ^ 63)

/-- Equal, as the counters wrap. -/
def CountEq (x y : ℤ × ℤ × ℤ) : Prop :=
  x.1 ≡ y.1 [ZMOD 2 ^ 32] ∧ x.2.1 ≡ y.2.1 [ZMOD 2 ^ 32] ∧ x.2.2 ≡ y.2.2 [ZMOD 2 ^ 64]

theorem CountEq.refl (x : ℤ × ℤ × ℤ) : CountEq x x := ⟨rfl, rfl, rfl⟩

theorem CountEq.trans {x y z : ℤ × ℤ × ℤ} (h : CountEq x y) (h' : CountEq y z) : CountEq x z :=
  ⟨h.1.trans h'.1, h.2.1.trans h'.2.1, h.2.2.trans h'.2.2⟩

theorem CountEq.add_right {x y : ℤ × ℤ × ℤ} (h : CountEq x y) (z : ℤ × ℤ × ℤ) :
    CountEq (x + z) (y + z) :=
  ⟨h.1.add_right _, h.2.1.add_right _, h.2.2.add_right _⟩

theorem counted_add_tradeOf (ob : OrderBook) {tick : Tick} (htrade : tick.isTrade) :
    ob.counted + tradeOf tick =
      (ob.snapshots.map fun snap => (snap.numTrades, snap.volume, snap.amount)).sum +
        (ob.numTrades + 1, ob.volume + tick.quantity, ob.amount + tick.price * tick.quantity) := by
  rw [tradeOf, if_pos htrade, counted, add_assoc]
  rfl

theorem counted_count (ob : OrderBook) {tick : Tick} (htrade : tick.isTrade) :
    CountEq (ob.count tick).counted (ob.counted + tradeOf tick) := by
  rw [counted_add_tradeOf ob htrade]
  exact ⟨(Word.toSigned_modEq 32 _).add_left _, (Word.toSigned_modEq 32 _).add_left _,
    (Word.toSigned_modEq 64 _).add_left _⟩

theorem counted_count_of_fits {tick : Tick} (htrade : tick.isTrade) (h : ob.CountFits tick) :
    (ob.count tick).counted = ob.counted + tradeOf tick := by
  obtain ⟨hnum, hvolume, hamount⟩ := h htrade
  rw [counted_add_tradeOf ob htrade, counted, count, Word.toSigned_of_range hnum.1 hnum.2,
    Word.toSigned_of_range hvolume.1 hvolume.2, Word.toSigned_of_range hamount.1 hamount.2]

/-- **A tick counts as it should**, and exactly if no counter wraps. -/
theorem counted_addTick {tick tick' : Tick} (h : ob.addTick tick = some (ob', tick')) :
    CountEq ob'.counted (ob.counted + tradeOf tick) ∧
      (ob.CountFits tick → ob'.counted = ob.counted + tradeOf tick) := by
  have hframe := addTick_cases h
  by_cases htrade : tick.isTrade
  · rw [if_pos htrade] at hframe
    rw [hframe.counted]
    exact ⟨counted_count ob htrade, counted_count_of_fits htrade⟩
  · rw [if_neg htrade] at hframe
    rw [hframe.counted, tradeOf, if_neg htrade, add_zero]
    exact ⟨CountEq.refl _, fun _ => rfl⟩

/-! ## The clock -/

/-- The timestamps of the snapshots. -/
def snapTimes (ob : OrderBook) : List ℤ := ob.snapshots.map Snap.timestamp

/-- The book is at slot `n`, and has the snapshots up to this slot. -/
structure AtSlot (i n : ℕ) (ob : OrderBook) : Prop where
  sized : ob.Sized
  le_closeSlot : n ≤ closeSlot i
  lastTimestamp : ob.lastTimestamp = slotTime i n
  snapTimes : ob.snapTimes = (List.range' 1 n).map (slotTime i)

theorem AtSlot.initStat {stat : Stat} (h : OrderBook.initStat stat = some ob) :
    ob.AtSlot i 0 ∧ ob.counted = 0 := by
  obtain ⟨hsized, hsnapshots, htime, hnum, hvolume, hamount⟩ := Sized.initStat h
  refine ⟨⟨hsized, Nat.zero_le _, htime.trans (slotTime_zero i).symm, ?_⟩, ?_⟩
  · rw [OrderBook.snapTimes, hsnapshots]
    rfl
  · rw [counted, hsnapshots, hnum, hvolume, hamount]
    rfl

theorem AtSlot.addTick {tick tick' : Tick} (h : ob.AtSlot i n)
    (hadd : ob.addTick tick = some (ob', tick')) : ob'.AtSlot i n := by
  have hframe := addTick_cases hadd
  have hsame : ob'.snapshots = ob.snapshots ∧ ob'.lastTimestamp = ob.lastTimestamp := by
    split at hframe
    · exact ⟨hframe.snapshots, hframe.lastTimestamp⟩
    · exact ⟨hframe.snapshots, hframe.lastTimestamp⟩
  refine ⟨h.sized.addTick hadd, h.le_closeSlot, hsame.2.trans h.lastTimestamp, ?_⟩
  rw [OrderBook.snapTimes, hsame.1]
  exact h.snapTimes

/-- One round of the loop of `tryUpdateSnap`. -/
def nextSnap (ob : OrderBook) (interval : ℤ) : Option OrderBook :=
  let lastTimestamp := absoluteMillisecondsToTimestamp
    (timestampToAbsoluteMilliseconds ob.lastTimestamp interval + interval) interval
  { ob with lastTimestamp }.snapUpdate lastTimestamp

theorem tryUpdateSnap_succ (interval : ℤ) (fuel : ℕ) (ob : OrderBook) (timestamp : ℤ) :
    tryUpdateSnap interval (fuel + 1) ob timestamp =
      if timestamp > ob.lastTimestamp then
        (ob.nextSnap interval).bind fun ob => tryUpdateSnap interval fuel ob timestamp
      else some ob := rfl

/-- **One round** moves to the next slot. -/
theorem AtSlot.nextSnap (hi : i ∣ 300000) (h : ob.AtSlot i n) (hn : n < closeSlot i) :
    ∃ ob', ob.nextSnap i = some ob' ∧ ob'.AtSlot i (n + 1) ∧ ob'.counted = ob.counted := by
  have hlast : absoluteMillisecondsToTimestamp
      (timestampToAbsoluteMilliseconds ob.lastTimestamp i + i) i = slotTime i (n + 1) := by
    rw [← slotTime_succ hi hn, ← h.lastTimestamp]
  have hsized : { ob with lastTimestamp := slotTime i (n + 1) }.Sized :=
    ⟨h.sized.bidQty, h.sized.askQty, h.sized.limits⟩
  obtain ⟨ob', levels, hsnap, hsized', happend, htime, hnum, hvolume, hamount⟩ :=
    hsized.snapUpdate (slotTime i (n + 1))
  refine ⟨ob', ?_, ⟨hsized', hn, htime, ?_⟩, ?_⟩
  · rw [OrderBook.nextSnap, hlast]
    exact hsnap
  · have htimes := h.snapTimes
    rw [OrderBook.snapTimes] at htimes
    rw [OrderBook.snapTimes, happend, List.map_append, htimes, List.range'_concat, List.map_append,
      List.map_singleton, List.map_singleton, Nat.one_mul, Nat.add_comm 1 n]
    rfl
  · rw [counted, happend, hnum, hvolume, hamount, List.map_append, List.sum_append]
    exact (add_zero _).trans (congrArg _ List.sum_singleton)

/-- A time up to 15:00:00.000 is not after the last slot. -/
theorem AtSlot.lt_closeSlot (hi : i ∣ 300000) (h : ob.AtSlot i n) {t : ℤ} (ht : t ≤ 150000000)
    (hlt : ob.lastTimestamp < t) : n < closeSlot i := by
  refine lt_of_le_of_ne h.le_closeSlot ?_
  rintro rfl
  rw [h.lastTimestamp, slotTime_closeSlot hi] at hlt
  exact absurd ht (not_le.2 hlt)

/-- **The loop ends.** -/
theorem AtSlot.tryUpdateSnap_ends (hi : i ∣ 300000) (h : ob.AtSlot i n) {t : ℤ}
    (ht : t ≤ 150000000) :
    ∃ ob', tryUpdateSnap i (closeSlot i - n + 1) ob t = some ob' := by
  generalize hrounds : closeSlot i - n = rounds
  induction rounds generalizing ob n with
  | zero =>
    rw [tryUpdateSnap_succ]
    by_cases hlt : t > ob.lastTimestamp
    · have := h.lt_closeSlot hi ht hlt
      omega
    · rw [if_neg hlt]
      exact ⟨ob, rfl⟩
  | succ rounds ih =>
    rw [tryUpdateSnap_succ]
    by_cases hlt : t > ob.lastTimestamp
    · obtain ⟨ob₁, hround, h₁, -⟩ := h.nextSnap hi (h.lt_closeSlot hi ht hlt)
      rw [if_pos hlt, hround]
      exact ih h₁ (by omega)
    · rw [if_neg hlt]
      exact ⟨ob, rfl⟩

/-- **The loop moves the clock**, and the counters move to snapshots. -/
theorem AtSlot.tryUpdateSnap (hi : i ∣ 300000) (h : ob.AtSlot i n) {t : ℤ} (ht : t ≤ 150000000)
    {fuel : ℕ} (htry : OrderBook.tryUpdateSnap i fuel ob t = some ob') :
    ∃ m, ob'.AtSlot i m ∧ Timetable.Arrives (slotTime i) t n m ∧ ob'.counted = ob.counted := by
  induction fuel generalizing ob n with
  | zero => exact absurd htry (by simp [OrderBook.tryUpdateSnap])
  | succ fuel ih =>
    rw [tryUpdateSnap_succ] at htry
    by_cases hlt : t > ob.lastTimestamp
    · obtain ⟨ob₁, hround, h₁, hcounted⟩ := h.nextSnap hi (h.lt_closeSlot hi ht hlt)
      rw [if_pos hlt, hround] at htry
      obtain ⟨m, hm, harrives, hcounted'⟩ := ih h₁ htry
      rw [h.lastTimestamp] at hlt
      exact ⟨m, hm, harrives.head hlt, hcounted'.trans hcounted⟩
    · rw [if_neg hlt] at htry
      obtain rfl := Option.some.inj htry
      rw [h.lastTimestamp, not_lt] at hlt
      exact ⟨n, h, Timetable.Arrives.refl hlt, rfl⟩

/-! ## Runs -/

/-- The time of a call of `tryUpdateSnap`. -/
def Call.time : Call → Option ℤ
  | .addTick _ => none
  | .tryUpdateSnap timestamp => some timestamp

def times (calls : List Call) : List ℤ := calls.filterMap Call.time

theorem times_concat (calls : List Call) (call : Call) :
    times (calls ++ [call]) = times calls ++ call.time.toList := by
  rw [times, List.filterMap_append]
  cases call <;> rfl

/-- What a call counts for. -/
def Call.trade : Call → ℤ × ℤ × ℤ
  | .addTick tick => tradeOf tick
  | .tryUpdateSnap _ => 0

/-- The trades of all ticks that are added. -/
def traded (calls : List Call) : ℤ × ℤ × ℤ := (calls.map Call.trade).sum

/-- No tick of a run overflows a counter. -/
def CountsFit (i : ℕ) (ob : OrderBook) (calls : List Call) : Prop :=
  ∀ l tick ob', l ++ [.addTick tick] <+: calls → Calls i ob l ob' → ob'.CountFits tick

variable {calls : List Call}

/-- **The clock in a run** is at the first slot that is not before any time. -/
theorem Calls.atSlot (hi : i ∣ 300000) (h0 : ob.AtSlot i 0) (h : Calls i ob calls ob')
    (htimes : ∀ t ∈ times calls, t ≤ 150000000) :
    ∃ n, ob'.AtSlot i n ∧ Timetable.Reached (slotTime i) (times calls) n := by
  induction h with
  | nil => exact ⟨0, h0, Timetable.reached_nil⟩
  | snoc _ hstep ih =>
    rw [times_concat] at htimes ⊢
    obtain ⟨n, hn, hreached⟩ := ih fun t ht => htimes t (List.mem_append_left _ ht)
    cases hstep with
    | addTick hadd =>
      refine ⟨n, hn.addTick hadd, ?_⟩
      rwa [Call.time, Option.toList_none, List.append_nil]
    | tryUpdateSnap htry =>
      obtain ⟨m, hm, harrives, -⟩ :=
        hn.tryUpdateSnap hi (htimes _ (List.mem_append_right _ List.mem_cons_self)) htry
      have hmono := (slotTime_strictMono hi).monotoneOn hn.le_closeSlot hm.le_closeSlot harrives.le
      exact ⟨m, hm, hreached.snoc hmono harrives⟩

/-- **The counters in a run.** -/
theorem Calls.counted (hi : i ∣ 300000) (h0 : ob.AtSlot i 0) (h : Calls i ob calls ob')
    (htimes : ∀ t ∈ times calls, t ≤ 150000000) :
    CountEq ob'.counted (ob.counted + traded calls) ∧
      (CountsFit i ob calls → ob'.counted = ob.counted + traded calls) := by
  induction h with
  | nil =>
    rw [show traded [] = 0 from rfl, add_zero]
    exact ⟨CountEq.refl _, fun _ => rfl⟩
  | @snoc ob₁ ob₂ calls call hcalls hstep ih =>
    rw [times_concat] at htimes
    have htimes₁ : ∀ t ∈ times calls, t ≤ 150000000 := fun t ht =>
      htimes t (List.mem_append_left _ ht)
    obtain ⟨heq, hfit⟩ := ih htimes₁
    have htraded : ob.counted + traded (calls ++ [call]) =
        ob.counted + traded calls + call.trade := by
      rw [traded, List.map_append, List.sum_append, List.map_singleton, List.sum_singleton,
        add_assoc, traded]
    have hfit' : CountsFit i ob (calls ++ [call]) → CountsFit i ob calls := fun h l tick ob' hl =>
      h l tick ob' (hl.trans (List.prefix_append _ _))
    rw [htraded]
    cases hstep with
    | addTick hadd =>
      obtain ⟨heq', hfits'⟩ := counted_addTick hadd
      refine ⟨heq'.trans (heq.add_right _), fun hfits => ?_⟩
      rw [hfits' (hfits _ _ _ (List.prefix_refl _) hcalls), hfit (hfit' hfits)]
      rfl
    | tryUpdateSnap htry =>
      obtain ⟨n, hn, -⟩ := Calls.atSlot hi h0 hcalls htimes₁
      obtain ⟨-, -, -, hcounted⟩ :=
        hn.tryUpdateSnap hi (htimes _ (List.mem_append_right _ List.mem_cons_self)) htry
      rw [hcounted, show (Call.tryUpdateSnap _).trade = 0 from rfl, add_zero]
      exact ⟨heq, fun hfits => hfit (hfit' hfits)⟩

/-- **The snapshots follow the schedule**, and no trade is lost between them.  The last
    one is the first of the schedule that is not before any time. -/
theorem snapshots_follow_schedule {stat : Stat} (hstat : OrderBook.initStat stat = some ob)
    (hi : i ∣ 300000) (h : Calls i ob calls ob')
    (htimes : ∀ t ∈ times calls, 91500000 < t ∧ t ≤ 150000000) :
    (∀ t ≤ 150000000, ∃ ob'', Step i ob' (.tryUpdateSnap t) ob'') ∧
    ob'.snapTimes <+: schedule i ∧ ob'.snapTimes.Pairwise (· < ·) ∧
    (times calls = [] → ob'.snapTimes = []) ∧
    (times calls ≠ [] → ∃ last, ob'.snapTimes.getLast? = some last ∧
      IsLeast {s | s ∈ schedule i ∧ ∀ t ∈ times calls, t ≤ s} last) ∧
    CountEq ob'.counted (traded calls) ∧
    (CountsFit i ob calls → ob'.counted = traded calls) := by
  obtain ⟨h0, hzero⟩ := AtSlot.initStat (i := i) hstat
  obtain ⟨n, hn, hreached⟩ := Calls.atSlot hi h0 h fun t ht => (htimes t ht).2
  have hcounted := Calls.counted hi h0 h fun t ht => (htimes t ht).2
  rw [hzero, zero_add] at hcounted
  have hprefix : ob'.snapTimes <+: schedule i := by
    rw [hn.snapTimes, schedule_eq hi, ← range'_append_sub 1 hn.le_closeSlot, List.map_append]
    exact List.prefix_append _ _
  refine ⟨?_, hprefix, (schedule_sorted hi).sublist hprefix.sublist, ?_, ?_, hcounted.1,
    hcounted.2⟩
  · intro t ht
    obtain ⟨ob'', hob''⟩ := hn.tryUpdateSnap_ends hi ht
    exact ⟨ob'', .tryUpdateSnap hob''⟩
  · intro hnil
    rw [hnil] at hreached
    rw [hn.snapTimes, hreached.eq_zero]
    rfl
  · intro hne
    obtain ⟨t, ht⟩ := List.exists_mem_of_ne_nil _ hne
    have hpos : 0 < n := hreached.pos ht (by rw [slotTime_zero]; exact (htimes t ht).1)
    refine ⟨slotTime i n, ?_, ?_⟩
    · obtain ⟨m, rfl⟩ := Nat.exists_eq_succ_of_ne_zero hpos.ne'
      rw [hn.snapTimes, List.range'_concat, List.map_append, List.map_singleton,
        List.getLast?_concat, Nat.one_mul, Nat.add_comm 1 m]
    · have hleast := hreached.isLeast ⟨hpos, hn.le_closeSlot⟩ (slotTime_strictMono hi)
      simpa only [← mem_schedule hi] using hleast

theorem Calls.eq_of_nil (h : Calls i ob [] ob') : ob' = ob := by
  generalize hl : [] = l at h
  cases h with
  | nil => rfl
  | snoc => simp at hl

/-- A trade, and snapshots every minute up to 9:20:00.000. -/
theorem snapshots_follow_schedule_minute :
    let stat : Stat := ⟨600000, 1001, 1001, 1001, 1002, 1000⟩
    let tick : Tick := ⟨600000, 91600000, 1001, 100, 7, 8⟩
    let calls : List Call := [.addTick tick, .tryUpdateSnap 91930000]
    ∃ ob ob', OrderBook.initStat stat = some ob ∧ Calls 60000 ob calls ob' ∧
      ob'.snapTimes <+: schedule 60000 ∧ ob'.snapTimes.Pairwise (· < ·) ∧
      (∃ last, ob'.snapTimes.getLast? = some last ∧
        IsLeast {s | s ∈ schedule 60000 ∧ ∀ t ∈ times calls, t ≤ s} last) ∧
      ob'.counted = traded calls := by
  intro stat tick calls
  obtain ⟨ob, hstat⟩ : ∃ ob, OrderBook.initStat stat = some ob := ⟨_, rfl⟩
  have h0 := (AtSlot.initStat (i := 60000) hstat).1
  obtain ⟨ob₁, hadd⟩ : ∃ ob₁, ob.addTick tick = some (ob₁, tick) := by
    obtain rfl := Option.some.inj hstat
    exact ⟨_, rfl⟩
  have hcalls₁ : Calls 60000 ob [.addTick tick] ob₁ := .snoc .nil (.addTick hadd)
  obtain ⟨ob₂, htry⟩ := (h0.addTick hadd).tryUpdateSnap_ends (t := 91930000) (by decide) (by decide)
  have hcalls : Calls 60000 ob calls ob₂ := .snoc hcalls₁ (.tryUpdateSnap htry)
  have htimes : ∀ t ∈ times calls, (91500000 : ℤ) < t ∧ t ≤ 150000000 := by decide
  have hfits : CountsFit 60000 ob calls := by
    intro l tick' ob' hl hcalls'
    match l with
    | [] =>
      obtain rfl := hcalls'.eq_of_nil
      obtain ⟨htick, -⟩ := List.cons_prefix_cons.1 hl
      obtain rfl := Call.addTick.inj htick
      obtain rfl := Option.some.inj hstat
      exact fun _ => ⟨by decide, by decide, by decide⟩
    | [_] =>
      have hcall := (List.cons_prefix_cons.1 (List.cons_prefix_cons.1 hl).2).1
      cases hcall
    | _ :: _ :: _ =>
      have hlen := hl.length_le
      simp [calls] at hlen
  obtain ⟨-, hprefix, hsorted, -, hlast, -, hcounted⟩ :=
    snapshots_follow_schedule hstat (by decide) hcalls htimes
  exact ⟨ob, ob₂, hstat, hcalls, hprefix, hsorted, hlast (by decide), hcounted hfits⟩

end OrderBook

end L2
