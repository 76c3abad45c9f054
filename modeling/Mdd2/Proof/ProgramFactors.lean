/-
  The factors that the model is asked with, in the runs of the program, over exact
  arithmetic.

  `Limited` is what an exchange promises of the prices of a day.  Under it, in every run and
  at any time,

  * `program_momentum`: the momentum factors are the means and deviations of the first and
    the last price changes;
  * `program_determined`, `program_bounded`: the volatility factors are finite exactly when
    they have something to measure, and are the shares and times that they stand for.

  `program_crowd`: the crowd factors are those of the volumes of all slots, and shares,
  whatever the prices are.
-/
import Mdd2.Proof.CrowdBounds
import Mdd2.Proof.Limits
import Mdd2.Proof.Momentum
import Mdd2.Proof.Volatility

namespace Mdd2

open MDD (InBounds)

/-- The bands of the volatility factors, in hundredths of the previous close. -/
def bands : List (ℚ × ℚ) := [(104, 107), (105, 108), (106, 109)]

namespace Program

section
variable {R : Type} [FactorScalar R] {b : Build} {p : Setup R} {w : Program b R} {c id : Int32}
  {asked : StockCompute R} {lo hi : ℤ}

/-- The prices of the stock are between the limits of the day. -/
structure Limited (lo hi : ℤ) (w : Program b R) (id : Int32) : Prop where
  positive : 0 < lo
  preClosePrice : lo ≤ (w.computes id).preClosePrice ∧ (w.computes id).preClosePrice ≤ hi
  upperLimitPrice : lo ≤ (w.computes id).upperLimitPrice ∧ (w.computes id).upperLimitPrice ≤ hi
  records : InLimits lo hi (w.computes id).upperLimitPriceApproach b (w.handled id)

/-- **The model is asked with prices between the limits.** -/
theorem Reachable.quoted (hp : p.Valid) (hw : Reachable p w) (hid : InBounds p.stockCodes id)
    (hring : p.ring id = some c) (hmain : w.main.Computing id) (hasked : w.Asked id asked)
    (hl : Limited lo hi w id) : asked.Quoted lo hi := by
  obtain ⟨s, d, hs, hrun, hsettled⟩ := hw.alive_of_asked hp hid hring hmain hasked
  obtain ⟨hclose, hupper, -⟩ := StockCompute.runTicks_frame hrun
  have hclose' : (w.computes id).preClosePrice =
      (StockCompute.start {} s : StockCompute R).preClosePrice :=
    (congrArg (fun c => c.preClosePrice) hsettled).trans hclose
  have hupper' : (w.computes id).upperLimitPrice =
      (StockCompute.start {} s : StockCompute R).upperLimitPrice :=
    (congrArg (fun c => c.upperLimitPrice) hsettled).trans hupper
  have hprices := And.intro hl.preClosePrice hl.upperLimitPrice
  rw [hclose', hupper', StockCompute.start, if_pos hs] at hprices
  have hquoted := ((StockCompute.Quoted.start hs hprices.1 hprices.2).runTicks
    (StockCompute.alive_start hs) hl.records.trades hrun).congr hsettled
  obtain ⟨firstCompute, hspec⟩ := hasked
  exact StockCompute.Quoted.speculate (c := { w.computes id with firstCompute })
    ⟨hquoted.upperLimitPrice, hquoted.series⟩ hspec

/-- **The model is asked with volumes and amounts between the limits**, if their sums fit. -/
theorem Reachable.binsPriced (hp : p.Valid) (hw : Reachable p w) (hid : InBounds p.stockCodes id)
    (hring : p.ring id = some c) (hmain : w.main.Computing id) (hasked : w.Asked id asked)
    (hl : Limited lo hi w id)
    (hfit : (w.computes id).AskedFit (executions b (w.handled id))) : asked.BinsPriced lo hi := by
  obtain ⟨s, d, hs, hrun, hsettled⟩ := hw.alive_of_asked hp hid hring hmain hasked
  obtain ⟨-, -, happroach⟩ := StockCompute.runTicks_frame hrun
  have happroach' : (w.computes id).upperLimitPriceApproach =
      (StockCompute.start {} s : StockCompute R).upperLimitPriceApproach :=
    (congrArg (fun c => c.upperLimitPriceApproach) hsettled).trans happroach
  have hpriced := ((StockCompute.Priced.start hs).runTicks (StockCompute.alive_start hs)
    (happroach' ▸ hl.records) hfit.trades hrun).congr hsettled
  obtain ⟨firstCompute, hspec⟩ := hasked
  have hframe : StockCompute.Priced lo hi (executions b (w.handled id))
      { w.computes id with firstCompute } :=
    ⟨hpriced.account.of_frame rfl rfl rfl rfl, hpriced.series, hpriced.upSellOrders⟩
  exact hframe.speculate ⟨hfit.opening, hfit.bins⟩ hl.records.trades hl.preClosePrice hspec

/-- The asked state has the prices of the day. -/
theorem Asked.preClosePrice (hasked : w.Asked id asked) :
    asked.preClosePrice = (w.computes id).preClosePrice := by
  obtain ⟨firstCompute, hspec⟩ := hasked
  obtain ⟨bState, f, -, rfl⟩ := StockCompute.speculate_eq_some hspec
  rfl

/-- **The momentum factors.**  In every run, with prices between positive limits, they are
    the means and deviations of the first and the last price changes of their duration, or
    unset while there are too few snapshots. -/
theorem program_momentum (hp : p.Valid) (hw : Reachable p w) (hid : InBounds p.stockCodes id)
    (hring : p.ring id = some c) (hmain : w.main.Computing id) (hasked : w.Asked id asked)
    (hl : Limited lo hi w id) (sqrt : ℚ → ℚ) :
    asked.computeMomentum sqrt = kMomentumDurations.map fun d =>
      if d < asked.prices.length then
        Momentum.ofChanges sqrt ((changeRates asked.prices).take d)
          ((changeRates asked.prices).drop ((changeRates asked.prices).length - d))
      else {} := by
  have hquoted := hw.quoted hp hid hring hmain hasked hl
  have hpos : ∀ p ∈ asked.prices, 0 < p := by
    rintro p hp
    obtain ⟨s, hs, rfl⟩ := List.mem_map.1 hp
    have hlast := lt_of_lt_of_le hl.positive (hquoted.series.snapshots s hs).1
    exact_mod_cast hlast
  have hd : ∀ d ∈ kMomentumDurations, 0 < d := by simp [kMomentumDurations]
  exact List.map_congr_left fun d hmem => Momentum.compute_eq sqrt (hd d hmem) hpos

/-- What the bins of the asked state satisfy. -/
theorem Reachable.bins (hp : p.Valid) (hw : Reachable p w) (hid : InBounds p.stockCodes id)
    (hring : p.ring id = some c) (hmain : w.main.Computing id) (hasked : w.Asked id asked)
    (hl : Limited lo hi w id)
    (hfit : (w.computes id).AskedFit (executions b (w.handled id))) :
    (∀ b ∈ asked.bins, 0 < b.vwap) ∧ Held asked.bins ∧
    ∀ q ∈ bands, (∃ b ∈ asked.bins, b.InBand (asked.preClosePrice * (q.1 / 100))
        (asked.preClosePrice * (q.2 / 100))) →
      0 < (asked.bins.map Bin.volume).sum ∧ 0 < (asked.bins.map Bin.amount).sum := by
  have hpriced := hw.binsPriced hp hid hring hmain hasked hl hfit
  refine ⟨fun b hb => ?_, ⟨fun b hb => (hpriced.gathered hb).volume, fun b hb => ?_,
    hpriced.sum_lt.1, hpriced.sum_lt.2⟩, ?_⟩
  · have hlo : (0 : ℚ) < lo := by exact_mod_cast hl.positive
    exact lt_of_lt_of_le hlo (hpriced.bins b hb).1
  · obtain ⟨hvolume, hamount, -⟩ := hpriced.gathered hb
    exact (mul_nonneg hl.positive.le hvolume).trans hamount
  · rintro q hq ⟨b, hb, hband, -⟩
    have hclose : (0 : ℚ) < asked.preClosePrice := by
      rw [hasked.preClosePrice]
      exact_mod_cast lt_of_lt_of_le hl.positive hl.preClosePrice.1
    have hq1 : 104 ≤ q.1 := by
      simp only [bands, List.mem_cons, List.not_mem_nil, or_false] at hq
      rcases hq with rfl | rfl | rfl <;> norm_num
    have hne : b.vwap ≠ asked.preClosePrice := by
      intro heq
      rw [heq] at hband
      nlinarith
    have hvolume := hpriced.volume_pos hb hne
    exact ⟨hvolume, hpriced.amount_pos hl.positive hvolume⟩

/-- **Which volatility factors are finite.**  In every run, with prices between positive
    limits, no division of a band is one by zero: its factors are finite exactly when two of
    its bins follow each other, those of the changes when the average price changes there,
    and the moments from four bins on. -/
theorem program_determined (hp : p.Valid) (hw : Reachable p w) (hid : InBounds p.stockCodes id)
    (hring : p.ring id = some c) (hmain : w.main.Computing id) (hasked : w.Asked id asked)
    (hl : Limited lo hi w id) (hfit : (w.computes id).AskedFit (executions b (w.handled id)))
    {sqrt : ℚ → ℚ} (hsqrt : ∀ x, 0 < x → 0 < sqrt x) {floatMV : ℚ} (hfloat : floatMV ≠ 0) :
    List.Forall₂ (fun f q => Volatility.Determined f asked.bins
      ((w.computes id).preClosePrice * (q.1 / 100)) ((w.computes id).preClosePrice * (q.2 / 100)))
      (asked.computeVolatility sqrt floatMV) bands := by
  obtain ⟨hv, hheld, hpos⟩ := hw.bins hp hid hring hmain hasked hl hfit
  rw [← hasked.preClosePrice]
  have hband : ∀ q ∈ bands, Volatility.Determined (Volatility.compute sqrt floatMV asked.bins
      (bandRange (asked.preClosePrice * (q.1 / 100)) (asked.preClosePrice * (q.2 / 100))
        asked.bins)) asked.bins (asked.preClosePrice * (q.1 / 100))
      (asked.preClosePrice * (q.2 / 100)) :=
    fun q hq => Volatility.compute_determined hsqrt hfloat hv hheld (hpos q hq)
  exact .cons (hband (104, 107) (by simp [bands]))
    (.cons (hband (105, 108) (by simp [bands])) (.cons (hband (106, 109) (by simp [bands])) .nil))

/-- **The bounds of the volatility factors.**  In every run, with prices between positive
    limits, the average price of every bin is between the limits; the longest run of a band
    counts two bins or more, and no more than the band; its shares of amount and volume are
    at most those of the band, and these at most one. -/
theorem program_bounded (hp : p.Valid) (hw : Reachable p w) (hid : InBounds p.stockCodes id)
    (hring : p.ring id = some c) (hmain : w.main.Computing id) (hasked : w.Asked id asked)
    (hl : Limited lo hi w id) (hfit : (w.computes id).AskedFit (executions b (w.handled id)))
    (sqrt : ℚ → ℚ) {floatMV : ℚ} (hfloat : 0 < floatMV) :
    (∀ bin ∈ asked.bins, (lo : ℚ) ≤ bin.vwap ∧ bin.vwap ≤ hi) ∧
    ∀ f ∈ asked.computeVolatility sqrt floatMV, Volatility.Bounded f asked.bins.length := by
  obtain ⟨hv, hheld, hpos⟩ := hw.bins hp hid hring hmain hasked hl hfit
  refine ⟨(hw.binsPriced hp hid hring hmain hasked hl hfit).bins, fun f hf => ?_⟩
  obtain ⟨r, hr, rfl⟩ := List.mem_map.1 hf
  obtain ⟨q, hq, rfl⟩ := List.mem_map.1 hr
  exact Volatility.compute_bounded hfloat hv hheld (hpos q hq)

end

section
variable {b : Build} {p : Setup ℚ} {w : Program b ℚ} {c id : Int32} {asked : StockCompute ℚ}

/-- **The crowd factors.**  In every run, the filters have seen the volumes of all slots, once
    each and in order, and the factors are those of this history: three of them are shares
    of an energy, finite from ten slots on, or from five hundred. -/
theorem program_crowd (hp : p.Valid) (hw : Reachable p w) (hid : InBounds p.stockCodes id)
    (hring : p.ring id = some c) (hmain : w.main.Computing id) (hasked : w.Asked id asked) :
    let vs := (asked.fState.snapshots.map fun s => (s.volume : ℚ)).reverse
    ∀ s, asked.fState.iirState = some s →
      s.finalCompute = IIRState.crowdind vs ∧ IIRState.Shares s.finalCompute vs.length := by
  intro vs s hs
  obtain ⟨state, d, -, hrun, hsettled⟩ := hw.alive_of_asked hp hid hring hmain hasked
  obtain ⟨firstCompute, hspec⟩ := hasked
  have hfiltered : (w.computes id).fState.Filtered := by
    have hf : (w.computes id).fState = d.fState := congrArg (fun c => c.fState) hsettled
    rw [hf]
    exact StockCompute.runTicks_filtered (StockCompute.filtered_start state) hrun
  have htracks := StockCompute.speculate_filtered (c := { w.computes id with firstCompute })
    hfiltered hspec s hs
  rw [htracks.finalCompute]
  exact ⟨rfl, IIRState.crowdind_shares vs⟩

end

/-! ## A run -/

/-- A square root of fractions, exact for squares. -/
def ratSqrt (x : ℚ) : ℚ := x.num.toNat.sqrt / x.den.sqrt

theorem ratSqrt_pos {x : ℚ} (hx : 0 < x) : 0 < ratSqrt x := by
  have hnum : 0 < x.num.toNat.sqrt := Nat.sqrt_pos.2 (by have := Rat.num_pos.2 hx; omega)
  have hden : 0 < x.den.sqrt := Nat.sqrt_pos.2 x.den_pos
  exact div_pos (by exact_mod_cast hnum) (by exact_mod_cast hden)

/-- A run with trades and a tracked order below the limit price. -/
theorem exists_limited : ∃ (w : Program (.replay .SH) ℚ) (asked : StockCompute ℚ),
    Reachable twoStocks w ∧ w.main.Computing 0 ∧ w.Asked 0 asked ∧ Limited 1 1100 w 0 ∧
    (w.computes 0).AskedFit (executions (.replay .SH) (w.handled 0)) := by
  obtain ⟨w, hw, hmain, -, hhandled, ⟨ha, ht, hclose, hupper, horders⟩, -⟩ := exists_decided
  have hid : InBounds twoStocks.stockCodes 0 := ⟨by decide, by decide⟩
  obtain ⟨asked, hasked⟩ := hw.exists_asked valid_twoStocks hid (by rw [hmain]; trivial) ha
    (ht ▸ gridTime_onTick 2)
  refine ⟨w, asked, hw, by rw [hmain]; trivial, hasked, ⟨one_pos, ?_, ?_, ?_⟩, ?_⟩
  · rw [hclose]; decide
  · rw [hupper]; decide
  · rw [hhandled]
    refine ⟨?_, ?_⟩
    · exact List.forall_mem_cons.2 ⟨⟨by decide, by decide⟩,
        List.forall_mem_singleton.2 ⟨by decide, by decide⟩⟩
    · have hpriced : ∀ tick ∈ nearLimitTicks, UpSell.Priced 1 1100 ⟨tick.price, tick.quantity⟩ :=
        List.forall_mem_cons.2 ⟨⟨by decide, by decide⟩, List.forall_mem_cons.2
          ⟨⟨by decide, by decide⟩, List.forall_mem_singleton.2 ⟨by decide, by decide⟩⟩⟩
      exact fun tick htick sell hsell => placed_replay hsell ▸ hpriced tick htick
  · have hsells : (w.computes 0).sells = [(300, 328500)] := by
      rw [StockCompute.sells, horders]; rfl
    rw [hhandled]
    exact ⟨by decide, by rw [hclose, hsells]; exact ⟨by decide, by decide⟩⟩

theorem program_momentum_two : ∃ (w : Program (.replay .SH) ℚ) (asked : StockCompute ℚ),
    Reachable twoStocks w ∧ Limited 1 1100 w 0 ∧
    asked.computeMomentum ratSqrt = kMomentumDurations.map fun d =>
      if d < asked.prices.length then
        Momentum.ofChanges ratSqrt ((changeRates asked.prices).take d)
          ((changeRates asked.prices).drop ((changeRates asked.prices).length - d))
      else {} := by
  obtain ⟨w, asked, hw, hmain, hasked, hl, -⟩ := exists_limited
  exact ⟨w, asked, hw, hl, program_momentum (c := 0) valid_twoStocks hw
    ⟨by decide, by decide⟩ (by decide) hmain hasked hl ratSqrt⟩

theorem program_determined_two : ∃ (w : Program (.replay .SH) ℚ) (asked : StockCompute ℚ),
    Reachable twoStocks w ∧ Limited 1 1100 w 0 ∧
    List.Forall₂ (fun f q => Volatility.Determined f asked.bins
      ((w.computes 0).preClosePrice * (q.1 / 100)) ((w.computes 0).preClosePrice * (q.2 / 100)))
      (asked.computeVolatility ratSqrt 1000) bands := by
  obtain ⟨w, asked, hw, hmain, hasked, hl, hfit⟩ := exists_limited
  exact ⟨w, asked, hw, hl, program_determined (c := 0) valid_twoStocks hw
    ⟨by decide, by decide⟩ (by decide) hmain hasked hl hfit (fun _ => ratSqrt_pos) (by norm_num)⟩

theorem program_bounded_two : ∃ (w : Program (.replay .SH) ℚ) (asked : StockCompute ℚ),
    Reachable twoStocks w ∧ Limited 1 1100 w 0 ∧
    (∀ bin ∈ asked.bins, ((1 : ℤ) : ℚ) ≤ bin.vwap ∧ bin.vwap ≤ ((1100 : ℤ) : ℚ)) ∧
    ∀ f ∈ asked.computeVolatility ratSqrt 1000, Volatility.Bounded f asked.bins.length := by
  obtain ⟨w, asked, hw, hmain, hasked, hl, hfit⟩ := exists_limited
  exact ⟨w, asked, hw, hl, program_bounded (c := 0) valid_twoStocks hw
    ⟨by decide, by decide⟩ (by decide) hmain hasked hl hfit ratSqrt (by norm_num)⟩

theorem program_crowd_two : ∃ (w : Program (.replay .SH) ℚ) (asked : StockCompute ℚ),
    Reachable twoStocks w ∧ w.Asked 0 asked ∧
    let vs := (asked.fState.snapshots.map fun s => (s.volume : ℚ)).reverse
    ∀ s, asked.fState.iirState = some s →
      s.finalCompute = IIRState.crowdind vs ∧ IIRState.Shares s.finalCompute vs.length := by
  obtain ⟨w, asked, hw, hmain, hasked, -⟩ := exists_limited
  exact ⟨w, asked, hw, hasked, program_crowd (c := 0) valid_twoStocks hw
    ⟨by decide, by decide⟩ (by decide) hmain hasked⟩

end Program

end Mdd2
