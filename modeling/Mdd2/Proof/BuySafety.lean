/-
  No buy request without a decision to buy.

  The want cache carries a decision in the parity of a time, so its answer is
  right because every slot time is even.  `System.Inv` holds in all interleavings
  of the two threads (`Inv.step`), and gives the safety of the buy request
  (`buy_of_decision`).
-/
import Mdd2.Proof.Protocol
import Mdd2.Proof.Speculation
import Mdd2.System

namespace Mdd2

/-- A slot that was never written, or holds one of the decisions. -/
def Written (ds : List Decision) (value : ℤ) : Prop :=
  value = 0 ∨ ∃ d ∈ ds, value = WantCache.slotValue d.timestamp d.wantBuy

theorem Written.append {ds : List Decision} {value : ℤ} (h : Written ds value)
    (new : List Decision) : Written (ds ++ new) value := by
  rcases h with h | ⟨d, hd, h⟩
  · exact .inl h
  · exact .inr ⟨d, List.mem_append_left new hd, h⟩

/-- An odd slot was written by a decision to buy. -/
theorem Written.wantBuy {ds : List Decision} {value : ℤ} (h : Written ds value)
    (hds : ∀ d ∈ ds, OnTick d.timestamp) (hodd : value % 2 ≠ 0) :
    ∃ d ∈ ds, d.wantBuy ∧ value = timestampLinear d.timestamp - 1 := by
  rcases h with rfl | ⟨d, hd, rfl⟩
  · exact absurd rfl hodd
  · have heven := (hds d hd).even
    unfold WantCache.slotValue at hodd ⊢
    by_cases hbuy : d.wantBuy
    · exact ⟨d, hd, hbuy, by rw [if_pos hbuy]⟩
    · rw [if_neg hbuy, sub_zero] at hodd
      exact absurd heven hodd

theorem written_pushWantBuyTimestamp {ds : List Decision} {w : WantCache} {d : Decision}
    (h : ∀ i, Written ds (w.wantBuyTimestamp i)) (i : Fin 16) :
    Written (ds ++ [d]) ((w.pushWantBuyTimestamp d.timestamp d.wantBuy).wantBuyTimestamp i) := by
  simp only [WantCache.pushWantBuyTimestamp, Function.update_apply]
  split_ifs
  · exact .inr ⟨d, by simp, rfl⟩
  · exact (h i).append [d]

/-- The scan holds the value of a slot, with its distance. -/
structure Checking.Valid (ds : List Decision) (c : Checking) : Prop where
  written : Written ds c.scan.minTimestamp
  minDt : c.scan.minDt = |c.scan.minTimestamp - c.scan.timestamp|
  timestamp : c.scan.timestamp = WantCache.roundedTime c.timestamp

theorem Checking.Valid.next {ds : List Decision} {c : Checking} (h : c.Valid ds) {value : ℤ}
    (hv : Written ds value) (loaded : ℕ) :
    Checking.Valid ds { c with scan := c.scan.next value, loaded } := by
  obtain ⟨hw, hdt, ht⟩ := h
  unfold WantCache.Scan.next
  dsimp only
  split_ifs
  · exact ⟨hv, rfl, ht⟩
  · exact ⟨hw, hdt, ht⟩

namespace System
variable {R : Type} [FactorScalar R] {b : Build} {model : StockCompute R → Bool} {w v : System R}

structure Inv (w : System R) : Prop where
  compute : w.compute.Inv
  decisions : ∀ d ∈ w.decisions, OnTick d.timestamp
  slots : ∀ i, Written w.decisions (w.compute.cache.wantBuyTimestamp i)
  checking : ∀ c, w.checking = some c → c.Valid w.decisions

theorem Inv.init (s s' : StockState) : Inv (init s s' : System R) where
  compute := .init s'
  decisions := nofun
  slots _ := .inl rfl
  checking := nofun

theorem Inv.step {es : List (Effect b)} (hi : w.Inv) (h : Step b model w es v) : v.Inv := by
  obtain ⟨hc, hds, hslots, hchecking⟩ := hi
  cases h with
  | tick => exact ⟨hc, hds, hslots, nofun⟩
  | check =>
    refine ⟨hc, hds, hslots, fun c hc => ?_⟩
    cases hc
    exact ⟨hslots 0, rfl, rfl⟩
  | load hload =>
    refine ⟨hc, hds, hslots, fun c hc => ?_⟩
    cases hc
    exact (hchecking _ rfl).next (hslots _) _
  | answer => exact ⟨hc, hds, hslots, nofun⟩
  | stop => exact ⟨hc, hds, hslots, nofun⟩
  | @compute s c t u ds new hstep =>
    rcases hc.cache hstep with ⟨rfl, hcache⟩ | ⟨d, rfl, hd, hcache⟩
    · rw [List.append_nil]
      exact ⟨hc.step hstep, hds, by rw [hcache]; exact hslots, hchecking⟩
    · refine ⟨hc.step hstep, ?_, ?_, fun c hc => ?_⟩
      · exact List.forall_mem_append.2 ⟨hds, List.forall_mem_singleton.2 hd⟩
      · rw [hcache]; exact written_pushWantBuyTimestamp hslots
      · obtain ⟨hw, hdt, ht⟩ := hchecking c hc
        exact ⟨hw.append [d], hdt, ht⟩

theorem Reachable.inv (h : Reachable b model w) : w.Inv := by
  induction h with
  | init s s' => exact Inv.init s s'
  | step _ hstep ih => exact ih.step hstep

/-- Only the answer of the want cache sends a buy request. -/
theorem Step.buy {es : List (Effect b)} (h : Step b model w es v)
    (hbuy : Effect.sendBuyRequest ∈ es) :
    ∃ c, w.checking = some c ∧ c.scan.intent = .WantBuy := by
  cases h with
  | @tick s t ds tick check hnone =>
    by_cases hs : s.alive
    · rw [StockState.onTick_of_none hs (hnone hs)] at hbuy
      exact absurd hbuy (by simp)
    · rw [StockState.onTick, if_neg hs] at hbuy
      exact absurd hbuy (by simp)
  | check => exact absurd hbuy List.not_mem_nil
  | load => exact absurd hbuy List.not_mem_nil
  | @answer s c t ds hloaded =>
    refine ⟨c, rfl, ?_⟩
    by_contra hintent
    simp only [StockState.onIntent, hintent, StockState.stop] at hbuy
    split_ifs at hbuy <;> simp_all
  | @stop s t ds =>
    simp only [StockState.stop] at hbuy
    split_ifs at hbuy <;> simp at hbuy
  | compute => exact absurd hbuy List.not_mem_nil

/-- The want cache answers to buy because of a decision. -/
theorem Reachable.near_decision (hw : Reachable b model w) {c : Checking}
    (hc : w.checking = some c) (hintent : c.scan.intent = .WantBuy) :
    ∃ d ∈ w.decisions, d.wantBuy ∧
      |timestampLinear d.timestamp - 1 - WantCache.roundedTime c.timestamp| ≤
        kWantBuyTimeTolerance := by
  obtain ⟨hnearest, hdt, ht⟩ := hw.inv.checking c hc
  unfold WantCache.Scan.intent at hintent
  split_ifs at hintent with hfar hodd
  obtain ⟨d, hd, hbuy, hvalue⟩ := hnearest.wantBuy hw.inv.decisions hodd
  refine ⟨d, hd, hbuy, ?_⟩
  rw [← hvalue, ← ht, ← hdt]
  exact not_lt.1 hfar

/-- **No buy request without a decision to buy.**  Every slot time has an even linear value,
    and a buy request answers a limit-up tick for which an earlier decision, on a slot time
    within the tolerance, was to buy. -/
theorem buy_of_decision (h : Reachable b model w) :
    (∀ d ∈ w.decisions, timestampLinear d.timestamp % 2 = 0) ∧
    ∀ (es : List (Effect b)) (v : System R), Step b model w es v → Effect.sendBuyRequest ∈ es →
      ∃ c, w.checking = some c ∧ ∃ d ∈ w.decisions, d.wantBuy ∧
        |timestampLinear d.timestamp - 1 - WantCache.roundedTime c.timestamp| ≤
          kWantBuyTimeTolerance := by
  refine ⟨fun d hd => (h.inv.decisions d hd).even, fun es v hstep hbuy => ?_⟩
  obtain ⟨c, hc, hintent⟩ := hstep.buy hbuy
  exact ⟨c, hc, h.near_decision hc hintent⟩

/-! ## An undisturbed scan -/

/-- The slots from `k` on. -/
theorem drop_finRange {k : ℕ} (hk : k < 16) :
    (List.finRange 16).drop k = ⟨k, hk⟩ :: (List.finRange 16).drop (k + 1) := by
  rw [List.drop_eq_getElem_cons (by simpa using hk)]
  simp

/-- The remaining loads, with no step in between. -/
theorem Reachable.loads {s : StockState} {t : ComputeThread R} {ds : List Decision} :
    ∀ (n : ℕ) {c : Checking}, c.loaded + n = 16 → Reachable b model ⟨s, some c, t, ds⟩ →
      Reachable b model ⟨s, some { c with
        scan := (((List.finRange 16).drop c.loaded).map t.cache.wantBuyTimestamp).foldl
          WantCache.Scan.next c.scan
        loaded := 16 }, t, ds⟩
  | 0, ⟨timestamp, scan, loaded⟩, hn, h => by
    obtain rfl : loaded = 16 := hn
    rw [List.drop_eq_nil_of_le (by simp)]
    exact h
  | n + 1, c, hn, h => by
    have hlt : c.loaded < 16 := by omega
    rw [drop_finRange hlt]
    exact Reachable.loads n (by simp only; omega) (h.step (.load hlt))

/-- **A scan with no step in between answers `checkWantBuyAtTimestamp`.** -/
theorem Reachable.check {s : StockState} {t : ComputeThread R} {ds : List Decision}
    (h : Reachable b model ⟨s, none, t, ds⟩) (tick : b.Tick) {timestamp : ℤ} (hs : s.alive)
    (htick : (s.limitUp b tick).2 = some timestamp) :
    ∃ c, Reachable b model ⟨(s.limitUp b tick).1, some c, t, ds⟩ ∧ c.loaded = 16 ∧
      c.timestamp = timestamp ∧
      c.scan.intent = t.cache.checkWantBuyAtTimestamp timestamp :=
  ⟨_, Reachable.loads 15 rfl (h.step (.check tick hs htick)), rfl, rfl, rfl⟩

theorem buy_of_decision_open :
    ∃ (w v : System ℚ) (es : List (Effect (.replay .SH))), Effect.sendBuyRequest ∈ es ∧
      Step (.replay .SH) (fun _ => true) w es v ∧
      (∀ d ∈ w.decisions, timestampLinear d.timestamp % 2 = 0) ∧
      ∃ c, w.checking = some c ∧ ∃ d ∈ w.decisions, d.wantBuy ∧
        |timestampLinear d.timestamp - 1 - WantCache.roundedTime c.timestamp| ≤
          kWantBuyTimeTolerance := by
  have hinit : Reachable (.replay .SH) (fun _ => true)
      (System.init { upperLimitPrice := 1100, alive := true }
        { upperLimitPrice := 1100, alive := true } : System ℚ) := .init _ _
  have htick := (hinit.step (.compute .clear)).step
    (.compute (.tick ⟨600000, 93000000, 1090, 100, 5, 6⟩ rfl))
  have hfirst := (htick.step (.compute .check)).step (.compute (.first rfl rfl))
  obtain ⟨c, hc, hloaded, -, hintent⟩ := hfirst.check ⟨600000, 93000120, 1100, 100, 7, 0⟩ rfl rfl
  replace hintent : c.scan.intent = .WantBuy := hintent.trans rfl
  have hbuy : ∀ s : StockState, Effect.sendBuyRequest ∈
      (s.onIntent (.replay .SH) false c.timestamp c.scan.intent).2 := by
    intro s
    rw [hintent]
    exact List.mem_append_left _ List.mem_cons_self
  obtain ⟨heven, hdecided⟩ := buy_of_decision hc
  exact ⟨_, _, _, hbuy _, .answer hloaded, heven, hdecided _ _ (.answer hloaded) (hbuy _)⟩

end System

end Mdd2
