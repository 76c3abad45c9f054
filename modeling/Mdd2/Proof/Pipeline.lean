/-
  The two threads of the replay builds, end to end.

  The producer pushes the ticks before the first limit-up tick, then the end
  sign; the ring is a queue; the consumer knows the end sign by its quantity of
  zero.  `streamAgrees_iff` says for which ticks the two agree.
-/
import Mdd2.Proof.Protocol
import Mdd2.Proof.Tracking

namespace Mdd2

variable {R : Type} [FactorScalar R]

/-- The handler for a market tick, from its classification. -/
def marketCall (t : L2.Tick) : Option Call :=
  if t.isOrder then some (if t.isOrderCancel then .onCancel else .onOrder)
  else if t.isTrade then some .onTrade
  else none

/-- The calls that `onTick` makes for ticks taken from the ring one by one, if
    all of them return. -/
def StockCompute.callTrace (b : Build) : StockCompute R → List b.Tick → Option (List (Option Call))
  | _, [] => some []
  | c, tick :: ticks => do
    let d ← c.onTick b tick
    let calls ← d.callTrace b ticks
    some (c.calls b tick :: calls)

/-- The ticks that the consumer can take for what they are. -/
def Plain (t : L2.Tick) : Prop := t.quantity ≠ 0 ∧ (t.isTrade → t.timestamp ≤ 235959900)

/-- The consumer makes the market calls of the ticks before the one that ends the
    protocol, and stops on the end sign after them, if there is one. -/
def StreamAgrees (R : Type) [FactorScalar R] (market : Market) (alwaysBuy : Bool) (s : StockState)
    (es : List (Event (.replay market))) : Prop :=
  ∃ ending, (StockCompute.start {} s : StockCompute R).callTrace (.replay market)
      (pushed (s.run (.replay market) alwaysBuy es).2) =
    some (((s.callsBefore (.replay market) alwaysBuy es).filterMap Event.tick?).map marketCall
      ++ ending) ∧
    (s.callsFrom (.replay market) alwaysBuy es = [] → ending = []) ∧
    (s.callsFrom (.replay market) alwaysBuy es ≠ [] → ∃ timestamp intent,
      ending = [some (.logLimitUp timestamp intent)])

namespace StockCompute
variable {market : Market}

theorem marketCall_ne_logLimitUp (t : L2.Tick) (timestamp intent : ℤ) :
    marketCall t ≠ some (.logLimitUp timestamp intent) := by
  unfold marketCall
  split_ifs <;> simp

omit [FactorScalar R] in
/-- The call of a live stock is the one of the classification, if the quantity
    is not zero. -/
theorem calls_eq_marketCall_iff {c : StockCompute R} (ha : c.alive) {t : L2.Tick} :
    c.calls (.replay market) t = marketCall t ↔ t.quantity ≠ 0 := by
  rw [calls, if_pos ha, dispatch, dispatchReplay]
  by_cases hq : t.quantity = 0
  · rw [if_pos hq]
    exact ⟨fun h => absurd h.symm (marketCall_ne_logLimitUp _ _ _), fun h => absurd hq h⟩
  · rw [if_neg hq, marketCall]
    refine ⟨fun _ => hq, fun _ => ?_⟩
    split_ifs <;> rfl

theorem onTick_ne_none (market : Market) {c : StockCompute R} (hc : c.Sound) (ha : c.alive)
    {t : L2.Tick} (ht : Plain t) : c.onTick (.replay market) t ≠ none := by
  intro hnone
  obtain ⟨-, htrade, hlate⟩ := (onTick_replay_eq_none_iff market ha (hc.onGrid ha)).1 hnone
  exact absurd (ht.2 htrade) (not_le.2 hlate)

/-- Plain ticks are called for as what they are. -/
theorem callTrace_of_plain (market : Market) (us : List L2.Tick) {ts : List L2.Tick}
    {c : StockCompute R} (hc : c.Sound) (ha : c.alive) (hplain : ∀ t ∈ ts, Plain t) :
    ∃ d : StockCompute R, d.Sound ∧ d.alive ∧ c.callTrace (.replay market) (ts ++ us) =
      (d.callTrace (.replay market) us).map (ts.map marketCall ++ ·) := by
  induction ts generalizing c with
  | nil => exact ⟨c, hc, ha, by simp⟩
  | cons t ts ih =>
    have ht := hplain t List.mem_cons_self
    obtain ⟨c', hc'⟩ := Option.ne_none_iff_exists'.1 (onTick_ne_none market hc ha ht)
    have ha' := (onTick_track market ha (hc.onGrid ha) ht.1 hc').1
    obtain ⟨d, hd, had, htrace⟩ := ih (hc.onTick hc') ha'
      fun u hu => hplain u (List.mem_cons_of_mem t hu)
    refine ⟨d, hd, had, ?_⟩
    rw [List.cons_append, callTrace, hc', (calls_eq_marketCall_iff ha).2 ht.1]
    change (c'.callTrace (.replay market) (ts ++ us)).bind
      (fun calls => some (marketCall t :: calls)) = _
    rw [htrace]
    cases d.callTrace (.replay market) us <;> rfl

/-- Ticks that are called for as what they are, are plain. -/
theorem plain_of_callTrace (us : List L2.Tick) {ending : List (Option Call)} {ts : List L2.Tick}
    {c : StockCompute R} (hc : c.Sound) (ha : c.alive)
    (htrace : c.callTrace (.replay market) (ts ++ us) = some (ts.map marketCall ++ ending)) :
    ∀ t ∈ ts, Plain t := by
  induction ts generalizing c with
  | nil => simp
  | cons t ts ih =>
    rw [List.cons_append, callTrace] at htrace
    obtain ⟨c', hc', htrace⟩ := Option.bind_eq_some_iff.1 htrace
    obtain ⟨calls, hcalls, htrace⟩ := Option.bind_eq_some_iff.1 htrace
    rw [List.map_cons, List.cons_append, Option.some.injEq, List.cons.injEq] at htrace
    obtain ⟨hcall, rfl⟩ := htrace
    have hq := (calls_eq_marketCall_iff ha).1 hcall
    have ha' := (onTick_track market ha (hc.onGrid ha) hq hc').1
    have ht : Plain t := by
      refine ⟨hq, fun htrade => not_lt.1 fun hlate => ?_⟩
      rw [(onTick_replay_eq_none_iff market ha (hc.onGrid ha)).2 ⟨hq, htrade, hlate⟩] at hc'
      exact absurd hc' (by simp)
    exact List.forall_mem_cons.2 ⟨ht, ih (hc.onTick hc') ha' hcalls⟩

/-- The end sign stops the stock. -/
theorem callTrace_endSign {c : StockCompute R} (ha : c.alive) (stockCode : Int32) (timestamp : ℤ) :
    ∃ t i, c.callTrace (.replay market)
        [StockState.endSign (.replay market) stockCode timestamp] =
      some [some (.logLimitUp t i)] := by
  refine ⟨timestamp.tdiv 10 * 10, timestamp.tmod 10, ?_⟩
  have hcall : c.calls (.replay market) (StockState.endSign (.replay market) stockCode timestamp) =
      some (.logLimitUp (timestamp.tdiv 10 * 10) (timestamp.tmod 10)) := by
    rw [calls, if_pos ha]; rfl
  rw [callTrace, onTick, hcall]; rfl

end StockCompute

section
variable {market : Market} {alwaysBuy : Bool} {s : StockState} {es : List (Event (.replay market))}

open StockCompute

theorem alive_start (hs : s.alive) : (StockCompute.start {} s : StockCompute R).alive := by
  rw [StockCompute.start, if_pos hs]

theorem plain_of_streamAgrees (hs : s.alive) (h : StreamAgrees R market alwaysBuy s es) :
    ∀ t ∈ (s.callsBefore (.replay market) alwaysBuy es).filterMap Event.tick?, Plain t := by
  obtain ⟨ending, htrace, -⟩ := h
  cases hr : s.callsFrom (.replay market) alwaysBuy es with
  | nil =>
    rw [(StockState.run_of_nil hs hr).2] at htrace
    exact plain_of_callTrace [] (Sound.start s) (alive_start hs)
      (by rw [List.append_nil]; exact htrace)
  | cons e r =>
    obtain ⟨timestamp, hpushed⟩ := (StockState.run_of_cons hs hr).2
    rw [hpushed] at htrace
    exact plain_of_callTrace _ (Sound.start s) (alive_start hs) htrace

theorem streamAgrees_of_plain (hs : s.alive)
    (hplain : ∀ t ∈ (s.callsBefore (.replay market) alwaysBuy es).filterMap Event.tick?, Plain t) :
    StreamAgrees R market alwaysBuy s es := by
  cases hr : s.callsFrom (.replay market) alwaysBuy es with
  | nil =>
    obtain ⟨d, -, -, htrace⟩ := callTrace_of_plain (R := R) market []
      (Sound.start s) (alive_start hs) hplain
    rw [List.append_nil] at htrace
    refine ⟨[], ?_, fun _ => rfl, fun h => absurd hr h⟩
    rw [(StockState.run_of_nil hs hr).2, htrace]
    rfl
  | cons e r =>
    obtain ⟨timestamp, hpushed⟩ := (StockState.run_of_cons hs hr).2
    obtain ⟨d, -, had, htrace⟩ := callTrace_of_plain (R := R) market
      [StockState.endSign (.replay market) s.stockCode timestamp]
      (Sound.start s) (alive_start hs) hplain
    obtain ⟨t, i, hend⟩ := callTrace_endSign had s.stockCode timestamp
    refine ⟨[some (.logLimitUp t i)], ?_, fun h => absurd (hr.symm.trans h) (by simp),
      fun _ => ⟨t, i, rfl⟩⟩
    rw [hpushed, htrace, hend]
    rfl

end

/-- **The two threads agree if and only if the ticks before the end are plain.** -/
theorem streamAgrees_iff (market : Market) (alwaysBuy : Bool) {s : StockState} (hs : s.alive)
    (es : List (Event (.replay market))) :
    StreamAgrees R market alwaysBuy s es ↔
      ∀ t ∈ (s.callsBefore (.replay market) alwaysBuy es).filterMap Event.tick?, Plain t :=
  ⟨plain_of_streamAgrees hs, streamAgrees_of_plain hs⟩

/-- A trade, a sell order that is traded and cancelled, and the limit-up tick. -/
theorem streamAgrees_iff_limitUp :
    let s : StockState :=
      { stockCode := 600000, preClosePrice := 1000, upperLimitPrice := 1100, alive := true }
    let ticks : List L2.Tick := [⟨600000, 92500000, 1090, 500, 5, 6⟩,
      ⟨600000, 93000000, 1095, 300, 0, 7⟩, ⟨600000, 93000010, 1095, 100, 5, 7⟩,
      ⟨600000, 93000050, 1095, -200, 0, 7⟩]
    let es : List (Event (.replay .SH)) := ticks.map (.tick · .NotSure) ++
      [.tick ⟨600000, 93000120, 1100, 100, 8, 0⟩ .WantBuy,
        .tick ⟨600000, 93000150, 1100, 100, 8, 9⟩ .NotSure]
    pushed (s.run (.replay .SH) false es).2 =
        ticks ++ [StockState.endSign (.replay .SH) 600000 93000120] ∧
      StreamAgrees ℚ .SH false s es ∧ (StreamAgrees ℚ .SH false s es ↔
        ∀ t ∈ (s.callsBefore (.replay .SH) false es).filterMap Event.tick?, Plain t) := by
  intro s ticks es
  have hiff := streamAgrees_iff (R := ℚ) .SH false (s := s) rfl es
  have hplain : ∀ t ∈ es.filterMap Event.tick?, Plain t := by
    simp [es, ticks, Event.tick?, Plain]
  have hbefore : s.callsBefore (.replay .SH) false es <+: es :=
    ⟨_, Machine.before_append_fromFiring _ _ s es⟩
  exact ⟨by decide +kernel,
    hiff.2 fun t ht => hplain t ((hbefore.sublist.filterMap _).subset ht), hiff⟩
/-- A tick of quantity zero stops the consumer, and it misses the order after
    it. -/
theorem not_streamAgrees_meta :
    ¬ StreamAgrees ℚ .SH false { stockCode := 600000, upperLimitPrice := 1100, alive := true }
      [.tick ⟨600000, 93000000, 0, 0, 0, 0⟩ .NotSure,
        .tick ⟨600000, 93000120, 1095, 300, 0, 7⟩ .NotSure] := by
  intro h
  have hplain := plain_of_streamAgrees rfl h ⟨600000, 93000000, 0, 0, 0, 0⟩
  rw [StockState.callsBefore, Machine.before, if_neg (by simp [Event.Ends]; decide)] at hplain
  exact (hplain List.mem_cons_self).1 rfl

end Mdd2
