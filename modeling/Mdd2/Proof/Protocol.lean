/-
  The one-shot protocol of `StockState`, in every build.

  The calls on a live stock are ticks, with an answer of the want cache each,
  and `stop`.  They form a one-shot machine (`oneShot`): it fires on the first
  limit-up tick or `stop`, and pushes the ticks before it.
-/
import Mdd2.Lib.OneShot
import Mdd2.StockState

namespace Mdd2

/-- A call on a stock; the shutdown calls `stop` with time 0. -/
inductive Event (b : Build) where
  | tick (tick : b.Tick) (intent : WantCache.Intent)
  | stop

/-- The tick of a call, if any. -/
def Event.tick? {b : Build} : Event b → Option b.Tick
  | tick t _ => some t
  | stop => none

/-- The call ends the protocol: it is `stop` or a limit-up tick. -/
def Event.Ends {b : Build} (s : StockState) : Event b → Prop
  | tick t _ => (s.limitUp b t).2.isSome
  | stop => True

/-- The number of buy requests sent. -/
def buys {b : Build} (es : List (Effect b)) : ℕ :=
  es.countP fun
    | .pushTick _ => false
    | .sendBuyRequest => true

theorem pushed_append {b : Build} (es fs : List (Effect b)) :
    pushed (es ++ fs) = pushed es ++ pushed fs := List.filterMap_append

theorem buys_append {b : Build} (es fs : List (Effect b)) : buys (es ++ fs) = buys es + buys fs :=
  List.countP_append

namespace StockState

/-- One call. -/
def handle (b : Build) (alwaysBuy : Bool) (s : StockState) : Event b → StockState × List (Effect b)
  | .tick t intent => s.onTick b alwaysBuy (fun _ => intent) t
  | .stop => s.stop b 0

/-- A run of calls. -/
def run (b : Build) (alwaysBuy : Bool) : StockState → List (Event b) →
    StockState × List (Effect b) := Machine.run (handle b alwaysBuy)

theorem tradeAtLimitSz_fst (s : StockState) (qty execType transactTime : ℕ) :
    (s.tradeAtLimitSz qty execType transactTime).1 = s.subRemainQty100 qty := by
  simp only [tradeAtLimitSz]
  split_ifs <;> rfl

/-- Only the counters change before the want cache is asked. -/
theorem limitUp_frame (b : Build) (s : StockState) (t : b.Tick) :
    ∃ q q100, (s.limitUp b t).1 = { s with upRemainQty := q, upRemainQty100 := q100 } := by
  rcases b with ⟨_ | _⟩ | ⟨_ | _⟩ | ⟨_ | _⟩
  · simp only [limitUp, limitUpReplaySh]; split_ifs <;> exact ⟨_, _, rfl⟩
  · simp only [limitUp, limitUpReplaySz]; split_ifs <;> exact ⟨_, _, rfl⟩
  · simp only [limitUp, limitUpNeSh, limitUpSh]; split_ifs <;> exact ⟨_, _, rfl⟩
  · simp only [limitUp, limitUpNeSz]
    split_ifs
    · exact ⟨_, _, s.tradeAtLimitSz_fst _ _ _⟩
    all_goals exact ⟨_, _, rfl⟩
  · simp only [limitUp, limitUpOstSh, limitUpSh]; split_ifs <;> exact ⟨_, _, rfl⟩
  · simp only [limitUp, limitUpOstSz]
    split_ifs
    · exact ⟨_, _, s.tradeAtLimitSz_fst _ _ _⟩
    all_goals exact ⟨_, _, rfl⟩

theorem limitUp_alive (b : Build) (s : StockState) (t : b.Tick) :
    (s.limitUp b t).1.alive = s.alive := by
  obtain ⟨q, q100, h⟩ := s.limitUp_frame b t; rw [h]

theorem limitUp_stockCode (b : Build) (s : StockState) (t : b.Tick) :
    (s.limitUp b t).1.stockCode = s.stockCode := by
  obtain ⟨q, q100, h⟩ := s.limitUp_frame b t; rw [h]

/-- The times that limit-up ticks of a build can have: those of its Shanghai feed
    are in units of 10 ms. -/
structure LimitUpTime (b : Build) (timestamp : ℤ) : Prop where
  le : 93000000 ≤ timestamp
  lt : timestamp < 145700000
  coarse : b = .ne .SH ∨ b = .ost .SH → timestamp % 10 = 0

theorem tradeAtLimitSz_time {b : Build} {s : StockState} {qty execType transactTime : ℕ}
    {timestamp : ℤ} (hb : ¬ (b = .ne .SH ∨ b = .ost .SH))
    (h : (s.tradeAtLimitSz qty execType transactTime).2 = some timestamp) :
    LimitUpTime b timestamp := by
  simp only [tradeAtLimitSz] at h
  split_ifs at h with _ ht
  rw [← Option.some.inj h]
  exact ⟨ht.1, ht.2, fun h => absurd h hb⟩

theorem limitUpSh_time {b : Build} {s : StockState} {tickType bsFlag price tickTime : ℕ}
    {timestamp : ℤ} (h : (s.limitUpSh tickType bsFlag price tickTime).2 = some timestamp) :
    LimitUpTime b timestamp := by
  simp only [limitUpSh] at h
  split_ifs at h with ht
  obtain ⟨-, -, -, hlo, hhi⟩ := ht
  have hu : (Word.toUnsigned 32 (tickTime * 10) : ℤ) = tickTime * 10 :=
    Word.toUnsigned_of_range (by omega) (by omega)
  rw [hu, Word.toSigned_of_range (by omega) (by omega)] at h
  rw [← Option.some.inj h]
  exact ⟨by omega, by omega, fun _ => by omega⟩

theorem limitUp_time (b : Build) (s : StockState) (t : b.Tick) {timestamp : ℤ}
    (h : (s.limitUp b t).2 = some timestamp) : LimitUpTime b timestamp := by
  rcases b with ⟨_ | _⟩ | ⟨_ | _⟩ | ⟨_ | _⟩
  · simp only [limitUp, limitUpReplaySh] at h
    split_ifs at h with ht
    rw [← Option.some.inj h]
    exact ⟨ht.2.2.2.2.1, ht.2.2.2.2.2, by simp⟩
  · simp only [limitUp, limitUpReplaySz] at h
    split_ifs at h with ht
    rw [← Option.some.inj h]
    exact ⟨ht.2.2.2.2.1, ht.2.2.2.2.2, by simp⟩
  · exact limitUpSh_time h
  · simp only [limitUp, limitUpNeSz] at h
    split_ifs at h
    exact tradeAtLimitSz_time (by simp) h
  · exact limitUpSh_time h
  · simp only [limitUp, limitUpOstSz] at h
    split_ifs at h
    exact tradeAtLimitSz_time (by simp) h

variable {b : Build} {alwaysBuy : Bool}

/-- A tick that is not the limit-up tick is pushed. -/
theorem onTick_of_none {s : StockState} {t : b.Tick} (hs : s.alive) (h : (s.limitUp b t).2 = none)
    (check : ℤ → WantCache.Intent) :
    s.onTick b alwaysBuy check t = ((s.limitUp b t).1, [.pushTick t]) := by
  unfold onTick
  rw [if_pos hs]
  split <;> simp_all

/-- On the limit-up tick the cache is asked, and the stock stops. -/
theorem onTick_of_some {s : StockState} {t : b.Tick} {timestamp : ℤ} (hs : s.alive)
    (h : (s.limitUp b t).2 = some timestamp) (check : ℤ → WantCache.Intent) :
    s.onTick b alwaysBuy check t =
      (s.limitUp b t).1.onIntent b alwaysBuy timestamp (check timestamp) := by
  unfold onTick
  rw [if_pos hs]
  split <;> simp_all

/-- The answer of the cache ends the protocol: at most one order, then the end
    sign. -/
theorem onIntent_eq {s : StockState} (hs : s.alive) (timestamp : ℤ) (intent : WantCache.Intent) :
    s.onIntent b alwaysBuy timestamp intent = ({ s with alive := false },
      (if intent = .WantBuy ∨ alwaysBuy then [.sendBuyRequest] else []) ++
        [.pushTick (endSign b s.stockCode (timestamp + intent.toInt))]) := by
  simp [onIntent, stop, hs]

/-- A stock that is alive after a tick was so before, and it was not the limit-up
    tick. -/
theorem alive_of_onTick {s : StockState} {t : b.Tick} {check : ℤ → WantCache.Intent}
    (h : (s.onTick b alwaysBuy check t).1.alive) : s.alive ∧ (s.limitUp b t).2 = none := by
  by_cases hs : s.alive
  · refine ⟨hs, Option.eq_none_iff_forall_ne_some.2 fun timestamp ht => ?_⟩
    have hl : (s.limitUp b t).1.alive := by rw [limitUp_alive]; exact hs
    rw [onTick_of_some hs ht, onIntent_eq hl] at h
    exact absurd h (by simp)
  · rw [onTick, if_neg hs] at h
    exact absurd h hs

theorem oneShot (b : Build) (alwaysBuy : Bool) :
    Machine.OneShot (handle b alwaysBuy) (fun s => s.alive) Event.Ends
      (fun e => e.tick?.toList.map .pushTick) where
  of_dead s e hs := by cases e <;> simp_all [handle, onTick, stop]
  of_fires s e hs he := by
    cases e with
    | stop => simp [handle, stop, hs]
    | tick t intent =>
      obtain ⟨timestamp, ht⟩ := Option.isSome_iff_exists.1 he
      have hl : (s.limitUp b t).1.alive := by rw [limitUp_alive]; exact hs
      simp [handle, onTick_of_some hs ht, onIntent_eq hl]
  stays_live s e hs he := by
    cases e with
    | stop => exact absurd trivial he
    | tick t intent =>
      have ht : (s.limitUp b t).2 = none := by simpa [Event.Ends] using he
      rw [handle, onTick_of_none hs ht, limitUp_alive]; exact hs
  passes s e hs he := by
    cases e with
    | stop => exact absurd trivial he
    | tick t intent =>
      have ht : (s.limitUp b t).2 = none := by simpa [Event.Ends] using he
      rw [handle, onTick_of_none hs ht]; rfl

theorem handle_stockCode (s : StockState) (e : Event b) :
    (s.handle b alwaysBuy e).1.stockCode = s.stockCode := by
  cases e with
  | stop => simp only [handle, stop]; split_ifs <;> rfl
  | tick t intent =>
    by_cases hs : s.alive
    · cases ht : (s.limitUp b t).2 with
      | none => rw [handle, onTick_of_none hs ht, limitUp_stockCode]
      | some timestamp =>
        have hl : (s.limitUp b t).1.alive := by rw [limitUp_alive]; exact hs
        rw [handle, onTick_of_some hs ht, onIntent_eq hl]
        exact s.limitUp_stockCode b t
    · rw [(oneShot b alwaysBuy).of_dead s _ hs]

theorem run_stockCode (b : Build) (alwaysBuy : Bool) (s : StockState) (es : List (Event b)) :
    (s.run b alwaysBuy es).1.stockCode = s.stockCode := by
  induction es generalizing s with
  | nil => rfl
  | cons e es ih => exact (ih (s.handle b alwaysBuy e).1).trans (s.handle_stockCode e)

/-- The call that ends the protocol sends at most one order, and pushes one end
    sign. -/
theorem handle_ends (alwaysBuy : Bool) {s : StockState} (hs : s.alive) {e : Event b}
    (he : e.Ends s) :
    buys (s.handle b alwaysBuy e).2 ≤ 1 ∧
      ∃ timestamp, pushed (s.handle b alwaysBuy e).2 = [endSign b s.stockCode timestamp] := by
  cases e with
  | stop => exact ⟨by simp [handle, stop, hs, buys], 0, by simp [handle, stop, hs, pushed]⟩
  | tick t intent =>
    obtain ⟨timestamp, ht⟩ := Option.isSome_iff_exists.1 he
    have hl : (s.limitUp b t).1.alive := by rw [limitUp_alive]; exact hs
    rw [handle, onTick_of_some hs ht, onIntent_eq hl, limitUp_stockCode]
    refine ⟨?_, timestamp + intent.toInt, ?_⟩
    · split_ifs <;> simp [buys]
    · split_ifs <;> simp [pushed]

theorem buys_pass (es : List (Event b)) :
    buys (es.flatMap fun e => e.tick?.toList.map Effect.pushTick) = 0 := by
  induction es with
  | nil => rfl
  | cons e es ih => rw [List.flatMap_cons, buys_append, ih]; cases e <;> rfl

theorem pushed_pass (es : List (Event b)) :
    pushed (es.flatMap fun e => e.tick?.toList.map Effect.pushTick) = es.filterMap Event.tick? := by
  induction es with
  | nil => rfl
  | cons e es ih => rw [List.flatMap_cons, pushed_append, ih]; cases e <;> rfl

/-- The calls before the first one that ends the protocol in the state then
    reached. -/
noncomputable def callsBefore (b : Build) (alwaysBuy : Bool) : StockState → List (Event b) →
    List (Event b) := Machine.before (handle b alwaysBuy) Event.Ends

/-- The calls from that one on. -/
noncomputable def callsFrom (b : Build) (alwaysBuy : Bool) : StockState → List (Event b) →
    List (Event b) := Machine.fromFiring (handle b alwaysBuy) Event.Ends

/-- A run that does not end the protocol. -/
theorem run_of_nil {s : StockState} (hs : s.alive) {es : List (Event b)}
    (hr : callsFrom b alwaysBuy s es = []) :
    buys (s.run b alwaysBuy es).2 = 0 ∧
      pushed (s.run b alwaysBuy es).2 = (callsBefore b alwaysBuy s es).filterMap Event.tick? := by
  obtain ⟨hb, -, hout⟩ := (oneShot b alwaysBuy).run_of_nil hs hr
  rw [callsBefore, hb, run, hout]
  exact ⟨buys_pass es, pushed_pass es⟩

/-- A run that ends the protocol. -/
theorem run_of_cons {s : StockState} (hs : s.alive) {es : List (Event b)} {e : Event b}
    {r : List (Event b)} (hr : callsFrom b alwaysBuy s es = e :: r) :
    buys (s.run b alwaysBuy es).2 ≤ 1 ∧ ∃ timestamp, pushed (s.run b alwaysBuy es).2 =
      (callsBefore b alwaysBuy s es).filterMap Event.tick? ++
        [endSign b s.stockCode timestamp] := by
  have hl := ((oneShot b alwaysBuy).run_before hs es).1
  have he := Machine.fires_of_fromFiring _ _ s es e r hr
  have hcode := run_stockCode b alwaysBuy s (callsBefore b alwaysBuy s es)
  obtain ⟨hbuys, timestamp, hpushed⟩ := handle_ends alwaysBuy hl he
  rw [run, callsBefore] at hcode
  rw [hcode] at hpushed
  rw [run, (oneShot b alwaysBuy).run_of_cons hs hr, buys_append, buys_pass, pushed_append,
    pushed_pass, hpushed]
  exact ⟨by omega, timestamp, rfl⟩

/-- The calls split at the first one, if any, that ends the protocol in the
    state then reached.  The ticks before it are pushed, in order and each once,
    then one end sign; at most one buy request is sent; and calls after it have
    no effect. -/
def OneShotRun (b : Build) (alwaysBuy : Bool) (s : StockState) (es : List (Event b)) : Prop :=
  ∃ passed rest, es = passed ++ rest ∧
    (∀ l e r, passed = l ++ e :: r → ¬ e.Ends (s.run b alwaysBuy l).1) ∧
    (∀ e r, rest = e :: r → e.Ends (s.run b alwaysBuy passed).1) ∧
    buys (s.run b alwaysBuy es).2 ≤ 1 ∧
    (rest = [] → pushed (s.run b alwaysBuy es).2 = passed.filterMap Event.tick?) ∧
    (rest ≠ [] → (∃ timestamp, pushed (s.run b alwaysBuy es).2 =
        passed.filterMap Event.tick? ++ [endSign b s.stockCode timestamp]) ∧
      ∀ later, (s.run b alwaysBuy (es ++ later)).2 = (s.run b alwaysBuy es).2)

theorem run_oneShot {s : StockState} (hs : s.alive) (es : List (Event b)) :
    OneShotRun b alwaysBuy s es := by
  refine ⟨_, _, (Machine.before_append_fromFiring (handle b alwaysBuy) Event.Ends s es).symm,
    Machine.not_fires_of_before _ _ s es, Machine.fires_of_fromFiring _ _ s es, ?_⟩
  cases hr : callsFrom b alwaysBuy s es with
  | nil =>
    obtain ⟨hbuys, hpushed⟩ := run_of_nil hs hr
    exact ⟨by omega, fun _ => hpushed, fun h => absurd hr h⟩
  | cons e r =>
    obtain ⟨hbuys, hpushed⟩ := run_of_cons hs hr
    refine ⟨hbuys, fun h => absurd (hr.symm.trans h) (by simp), fun _ => ⟨hpushed, fun later => ?_⟩⟩
    rw [run, Machine.run_append, (oneShot b alwaysBuy).run_dead
      ((oneShot b alwaysBuy).not_live_of_cons hs hr), List.append_nil]

/-- **The one-shot protocol** of every stock that its static record makes alive. -/
theorem onStatic_oneShot (b : Build) (alwaysBuy : Bool) (stockCode : Int32) (stat : Stat)
    (hs : ((start stockCode).onStatic b stat).alive) (es : List (Event b)) :
    OneShotRun b alwaysBuy ((start stockCode).onStatic b stat) es :=
  run_oneShot hs es

theorem onStatic_oneShot_replay : OneShotRun (.replay .SH) false
    ((start 600000).onStatic (.replay .SH) ⟨600000, .SH, 1000, 1100, 20250722⟩)
    [.tick ⟨600000, 93000120, 1100, 100, 7, 0⟩ .WantBuy, .stop] :=
  onStatic_oneShot _ _ _ _ (by decide) _

end StockState

end Mdd2
