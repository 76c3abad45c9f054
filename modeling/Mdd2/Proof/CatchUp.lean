/-
  When the catch-up loop of `stepSnapshotUntil` ends.

  Slot times are times of day: an advance from 23:59:59.900 comes back to
  midnight.  So the loop ends for the times up to 23:59:59.900 and for no later
  one (`OnGrid.catchesUp_iff`), and a run of ticks returns if and only if none of
  the times it hands to `addRealTrade` is later (`catchUp_ends_iff`).
-/
import Mdd2.Proof.Handlers

namespace Mdd2

variable {R : Type} [FactorScalar R]

namespace FState
variable {f : FState R} {timestamp : ℤ}

/-- The loop of `stepSnapshotUntil` ends after some number of rounds, if it is
    entered. -/
def CatchesUp (f : FState R) (timestamp : ℤ) : Prop :=
  timestamp > f.nextTickTimestamp →
    ∃ g rounds, f.stepSnapshot = some g ∧ (stepSnapshotLoop rounds timestamp g).isSome

theorem CatchesUp.of_stepSnapshotUntil (h : (f.stepSnapshotUntil timestamp).isSome) :
    f.CatchesUp timestamp := by
  intro hlt
  rw [stepSnapshotUntil, if_pos hlt] at h
  cases hg : f.stepSnapshot with
  | none => rw [hg] at h; exact absurd h (by simp)
  | some g =>
    rw [hg] at h
    exact ⟨g, slotsPerDay, rfl, h⟩

/-- **The loop ends for the times up to the last slot of a day only.** -/
theorem OnGrid.catchesUp_iff (h : f.OnGrid) : f.CatchesUp timestamp ↔ timestamp ≤ 235959900 := by
  constructor
  · intro hc
    by_contra hlate
    rw [not_le] at hlate
    obtain ⟨g, rounds, hg, hsome⟩ := hc (lt_of_le_of_lt h.onTick.le hlate)
    rw [stepSnapshot_eq h.iirState] at hg
    obtain rfl := Option.some.inj hg
    rw [stepSnapshotLoop_of_late hlate rounds h.iirState h.onTick] at hsome
    exact absurd hsome (by simp)
  · intro hle
    obtain ⟨n, hn, -⟩ := h.stepSnapshotUntil hle
    exact .of_stepSnapshotUntil (by rw [hn]; rfl)

end FState

namespace StockCompute

/-! ## The times of a run -/

/-- The time a trade handler hands to `addRealTrade`; a trade of the call auction
    hands none. -/
def catchUpTime (b : Build) (tick : b.Tick) : Option ℤ :=
  match b, tick with
  | .replay _, tick => if tick.timestamp < 93000000 then none else some tick.timestamp
  | .ne .SH, tick =>
    if TickMergeSse.tickTime tick < 9300000 then none
    else some (Word.toSigned 32 (Word.toUnsigned 32 (TickMergeSse.tickTime tick * 10)))
  | .ne .SZ, tick =>
    let timestamp := Word.toSigned 32 ↑(TradeSz.transactTime tick % 1000000000)
    if timestamp < 93000000 then none else some timestamp
  | .ost _, _ => none

/-- The times a run of ticks hands to `addRealTrade`, up to the end sign. -/
def catchUpTimes (b : Build) : List b.Tick → List ℤ
  | [] => []
  | tick :: ticks =>
    match dispatch b tick with
    | some (.logLimitUp _ _) => []
    | some .onTrade => (catchUpTime b tick).toList ++ catchUpTimes b ticks
    | _ => catchUpTimes b ticks

variable {c d : StockCompute R} {b : Build} {tick : b.Tick}

theorem onTradeOf_isSome_iff {no timestamp price quantity : ℤ} {openCall : Prop}
    [Decidable openCall] (hc : c.fState.OnGrid) :
    (c.onTradeOf no openCall timestamp price quantity).isSome ↔
      ∀ t ∈ if openCall then none else some timestamp, t ≤ 235959900 := by
  rw [← not_iff_not, Option.not_isSome_iff_eq_none, onTradeOf_eq_none_iff hc,
    decide_eq_false_iff_not]
  split
  case isTrue h => exact ⟨fun hn => absurd h hn.1, fun hn => absurd (fun _ ht => by cases ht) hn⟩
  case isFalse h =>
    constructor
    · rintro ⟨-, hlate⟩ hle
      exact absurd (hle _ rfl) (not_le.2 hlate)
    · intro hn
      refine ⟨h, not_le.1 fun hle => hn ?_⟩
      intro t ht
      obtain rfl := Option.mem_some_iff.1 ht
      exact hle

theorem onTrade_isSome_iff (hc : c.fState.OnGrid) :
    (c.onTrade b tick).isSome ↔ ∀ t ∈ catchUpTime b tick, t ≤ 235959900 := by
  rcases b with _ | ⟨_ | _⟩ | _
  · rw [onTrade, onTradeReplay, onTradeOf_isSome_iff hc, catchUpTime]
  · rw [onTrade, onTradeNeSh, onTradeOf_isSome_iff hc, catchUpTime]
  · rw [onTrade, onTradeNeSz, onTradeOf_isSome_iff hc, catchUpTime]
  · simp [onTrade, catchUpTime]

/-- A tick that is no end sign and returns leaves the stock alive. -/
theorem alive_of_onTick (hs : c.Sound) (hc : c.alive)
    (hd : ∀ timestamp intent, dispatch b tick ≠ some (.logLimitUp timestamp intent))
    (h : c.onTick b tick = some d) : d.alive := by
  rcases onTick_cases hs.onGrid h with ⟨_, _, hcalls, -⟩ | rfl | ⟨-, _, _, _, _, _, -, rfl⟩
  · rw [calls, if_pos hc] at hcalls
    exact absurd hcalls (hd _ _)
  · exact hc
  · exact hc

theorem Sound.runTicks (hs : c.Sound) {ticks : List b.Tick} (h : c.runTicks b ticks = some d) :
    d.Sound := by
  induction ticks generalizing c with
  | nil =>
    obtain rfl := Option.some.inj h
    exact hs
  | cons tick ticks ih =>
    rw [StockCompute.runTicks] at h
    obtain ⟨e, he, hrest⟩ := Option.bind_eq_some_iff.1 h
    exact ih (hs.onTick he) hrest

/-- Every loop that a run of ticks enters ends. -/
def LoopsEnd (b : Build) : StockCompute R → List b.Tick → Prop
  | _, [] => True
  | c, tick :: ticks =>
    (c.calls b tick = some .onTrade → ∀ t ∈ catchUpTime b tick, c.fState.CatchesUp t) ∧
      ∀ d, c.onTick b tick = some d → LoopsEnd b d ticks

/-- A stock that is not alive enters no loop. -/
theorem loopsEnd_of_not_alive (hc : ¬c.alive) (ticks : List b.Tick) : c.LoopsEnd b ticks := by
  induction ticks with
  | nil => trivial
  | cons tick ticks ih =>
    have hcalls : c.calls b tick = none := by rw [calls, if_neg hc]
    refine ⟨by simp [hcalls], ?_⟩
    intro d hd
    rw [onTick, hcalls] at hd
    obtain rfl := Option.some.inj hd
    exact ih

/-- For a stock that is alive, they end when all the times are in the day. -/
theorem loopsEnd_iff (hs : c.Sound) (hc : c.alive) (ticks : List b.Tick) :
    c.LoopsEnd b ticks ↔ ∀ t ∈ catchUpTimes b ticks, t ≤ 235959900 := by
  induction ticks generalizing c with
  | nil => simp [LoopsEnd, catchUpTimes]
  | cons tick ticks ih =>
    have hcalls : c.calls b tick = dispatch b tick := by rw [calls, if_pos hc]
    -- a tick that returns and is no end sign leaves the rest of the run to decide
    have hrest : (∀ timestamp intent, dispatch b tick ≠ some (.logLimitUp timestamp intent)) →
        (c.onTick b tick).isSome →
        ((∀ d, c.onTick b tick = some d → LoopsEnd b d ticks) ↔
          ∀ t ∈ catchUpTimes b ticks, t ≤ 235959900) := by
      intro hd hsome
      obtain ⟨d, hd'⟩ := Option.isSome_iff_exists.1 hsome
      simp only [hd', Option.some.injEq, forall_eq']
      exact ih (hs.onTick hd') (alive_of_onTick hs hc hd hd')
    rw [LoopsEnd, catchUpTimes, hcalls]
    cases hcall : dispatch b tick with
    | none =>
      have hsome : (c.onTick b tick).isSome := by simp [onTick, hcalls, hcall]
      simpa [hcall] using hrest (by simp [hcall]) hsome
    | some call =>
      cases call with
      | logLimitUp timestamp intent =>
        have hstop : c.onTick b tick = some c.stop := by simp [onTick, hcalls, hcall, perform]
        simp only [hstop, Option.some.injEq, forall_eq', reduceCtorEq, false_imp_iff, true_and,
          List.not_mem_nil, implies_true, iff_true]
        exact loopsEnd_of_not_alive (by simp [StockCompute.stop]) ticks
      | onOrder =>
        have hsome : (c.onTick b tick).isSome := by simp [onTick, hcalls, hcall, perform]
        simpa using hrest (by simp [hcall]) hsome
      | onCancel =>
        have hsome : (c.onTick b tick).isSome := by simp [onTick, hcalls, hcall, perform]
        simpa using hrest (by simp [hcall]) hsome
      | onTrade =>
        have hsome : (c.onTick b tick).isSome ↔ ∀ t ∈ catchUpTime b tick, t ≤ 235959900 := by
          rw [← onTrade_isSome_iff (hs.onGrid hc), onTick, hcalls, hcall]
          rfl
        simp only [forall_const, (hs.onGrid hc).catchesUp_iff, List.mem_append, or_imp, forall_and,
          Option.mem_toList]
        exact and_congr_right fun hle => hrest (by simp [hcall]) (hsome.2 hle)

/-- **The loop in every state that ticks lead to**: it ends exactly for the times
    up to 23:59:59.900.  So all loops of a run of ticks end exactly when none of the
    times the run hands to `addRealTrade` is later. -/
theorem catchUp_ends_iff (b : Build) (s : StockState) (ticks : List b.Tick) :
    (∀ c : StockCompute R, (({} : StockCompute R).start s).runTicks b ticks = some c → c.alive →
      ∀ timestamp, c.fState.CatchesUp timestamp ↔ timestamp ≤ 235959900) ∧
    ((({} : StockCompute R).start s).LoopsEnd b ticks ↔
      (s.alive → ∀ t ∈ catchUpTimes b ticks, t ≤ 235959900)) := by
  have hs : (({} : StockCompute R).start s).Sound := Sound.start s
  refine ⟨fun c hrun hc timestamp => ((hs.runTicks hrun).onGrid hc).catchesUp_iff, ?_⟩
  by_cases ha : s.alive
  · rw [loopsEnd_iff hs (by rw [StockCompute.start, if_pos ha])]
    simp [ha]
  · have hnot : ¬(({} : StockCompute R).start s).alive := by
      rw [StockCompute.start, if_neg ha]
      simp
    simp [loopsEnd_of_not_alive hnot, ha]

/-- A trade at 23:59:59.950, the first of the day: the loop never ends. -/
theorem catchUp_late_trade :
    let c := ({} : StockCompute ℚ).start { alive := true }
    let tick : L2.Tick := ⟨600000, 235959950, 1000, 100, 1, 2⟩
    c.calls (.replay .SH) tick = some .onTrade ∧ catchUpTime (.replay .SH) tick = some 235959950 ∧
      ¬c.fState.CatchesUp 235959950 := by
  refine ⟨by decide, by decide, ?_⟩
  rw [(onGrid_start rfl _).catchesUp_iff]
  norm_num

end StockCompute

end Mdd2
