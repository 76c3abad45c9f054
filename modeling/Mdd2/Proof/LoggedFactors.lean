/-
  The factor list that is logged with a limit-up tick.

  `Recorded` are the contents of the two caches after any decisions, and
  `Recorded.spec` says that they hold the last 16, each with its factor list.
  `logged_iff` says when the factor list dumped is one of a decision as the answer:
  the dump takes the first slot for the time found, and the answer the nearest.
-/
import Mdd2.FactorCache
import Mdd2.Proof.Freshness

namespace Mdd2

variable {R F : Type} [FactorScalar R]

/-- The want cache and the factor list cache after any decisions for slot times,
    with the decisions and their factor lists, the newest first. -/
inductive Recorded (model : StockCompute R → Bool) (factors : StockCompute R → F) :
    WantCache → (Fin 16 → F) → List (Decision × F) → Prop
  | init (factorListCache : Fin 16 → F) : Recorded model factors .init factorListCache []
  | step {c c' : StockCompute R} {w w' cache cache' ps d factorList} :
      Recorded model factors w cache ps →
      OnTick c.futureTimestamp →
      c.computeFutureWantBuyRecord model factors w cache = some (c', w', cache', d, factorList) →
      Recorded model factors w' cache' ((d, factorList) :: ps)

theorem StockCompute.speculate_futureTimestamp {c c' : StockCompute R}
    (h : c.speculate = some c') : c'.futureTimestamp = c.futureTimestamp := by
  simp only [speculate, saveSnapshot, Option.bind_eq_bind] at h
  cases hf : c.fState.iirState with
  | none => simp [hf] at h
  | some iirState =>
    cases hb : c.bState.iirState with
    | none => simp [hf, hb] at h
    | some iirState' =>
      simp only [hf, hb, Option.bind_some, Option.bind_eq_some_iff, Option.some.injEq] at h
      obtain ⟨f, -, g, -, rfl⟩ := h
      rfl

/-- What one decision stores. -/
theorem StockCompute.computeFutureWantBuyRecord_eq_some {model : StockCompute R → Bool}
    {factors : StockCompute R → F} {c c' : StockCompute R} {w w' : WantCache}
    {cache cache' : Fin 16 → F} {d : Decision} {factorList : F}
    (h : c.computeFutureWantBuyRecord model factors w cache =
      some (c', w', cache', d, factorList)) :
    d.timestamp = c.futureTimestamp ∧ w' = w.pushWantBuyTimestamp d.timestamp d.wantBuy ∧
      cache' = Function.update cache w.wantBuyCurrentIndex factorList := by
  simp only [computeFutureWantBuyRecord, computeFutureWantBuy, Option.bind_eq_bind] at h
  cases hspec : c.speculate with
  | none => simp [hspec] at h
  | some asked =>
    simp only [hspec, Option.bind_some, Option.some.injEq, Prod.mk.injEq] at h
    obtain ⟨-, rfl, rfl, rfl, rfl⟩ := h
    refine ⟨speculate_futureTimestamp hspec, rfl, ?_⟩
    simp only [WantCache.lastIndex, WantCache.pushWantBuyTimestamp, add_sub_cancel_right]

/-- **The caches hold the last 16 decisions**, each with its factor list. -/
theorem Recorded.spec {model : StockCompute R → Bool} {factors : StockCompute R → F}
    {w : WantCache} {cache : Fin 16 → F} {ps : List (Decision × F)}
    (h : Recorded model factors w cache ps) :
    w = WantCache.pushAll (ps.map Prod.fst) ∧ (∀ p ∈ ps, OnTick p.1.timestamp) ∧
      ∀ (i : Fin 16) p, RecentRing.slots 16 ps i = some p → cache i = p.2 := by
  induction h with
  | init cache => exact ⟨rfl, nofun, nofun⟩
  | @step c c' w w' cache cache' ps d factorList _ ht hstep ih =>
    obtain ⟨rfl, hps, hcache⟩ := ih
    obtain ⟨hd, rfl, rfl⟩ := StockCompute.computeFutureWantBuyRecord_eq_some hstep
    refine ⟨rfl, List.forall_mem_cons.2 ⟨hd ▸ ht, hps⟩, fun i p hp => ?_⟩
    simp only [Function.update_apply, WantCache.eq_wantBuyCurrentIndex_iff, List.length_map]
    simp only [RecentRing.slots, Function.update_apply] at hp
    split_ifs at hp ⊢
    · rw [← Option.some.inj hp]
    · exact hcache i p hp

namespace WantCache

variable {w : WantCache} {cache : Fin 16 → F} {ps : List (Decision × F)} {timestamp : ℤ}

/-- The answer is a decision, and the factor list dumped is that of a slot with
    the same decision. -/
def LoggedAgrees (w : WantCache) (cache : Fin 16 → F) (ps : List (Decision × F))
    (timestamp : ℤ) : Prop :=
  w.checkWantBuyAtTimestamp timestamp ≠ .NotSure →
    ∃ (i : Fin 16) (p : Decision × F), w.dumpSlot (w.bestTime timestamp) = some i ∧
      RecentRing.slots 16 ps i = some p ∧ w.logLimitUp cache timestamp = some p.2 ∧
      w.checkWantBuyAtTimestamp timestamp = .ofBool p.1.wantBuy

/-- No slot before the nearest one, if it is within the tolerance, is for the same
    time. -/
def NearestIsFirst (w : WantCache) (timestamp : ℤ) : Prop :=
  ∀ i, IsNearest w.wantBuyTimestamp (roundedTime timestamp) i →
    |w.wantBuyTimestamp i - roundedTime timestamp| ≤ kWantBuyTimeTolerance →
    ∀ j < i, unmarked (w.wantBuyTimestamp j) ≠ unmarked (w.wantBuyTimestamp i)

theorem IsNearest.unique {value : Fin 16 → ℤ} {time : ℤ} {i j : Fin 16}
    (hi : IsNearest value time i) (hj : IsNearest value time j) : i = j := by
  rcases lt_trichotomy i j with h | h | h
  · exact absurd (hi.1 j) (not_le.2 (hj.2 i h))
  · exact h
  · exact absurd (hj.1 i) (not_le.2 (hi.2 j h))

/-- No limit-up time is near to a slot that was never written. -/
theorem le_roundedTime (h : 93000000 ≤ timestamp) : 34200000 ≤ roundedTime timestamp := by
  have hlin : 34200000 ≤ timestampLinear timestamp := by
    simp only [timestampLinear]
    rw [Int.tdiv_eq_ediv_of_nonneg (by omega), Int.tdiv_eq_ediv_of_nonneg (by omega),
      Int.tdiv_eq_ediv_of_nonneg (by omega), Int.tmod_eq_emod_of_nonneg (by omega),
      Int.tmod_eq_emod_of_nonneg (by omega), Int.tmod_eq_emod_of_nonneg (by omega)]
    omega
  rw [roundedTime, Int.tdiv_eq_ediv_of_nonneg (by omega)]
  omega

theorem unmarked_value {d : Decision} (h : OnTick d.timestamp) :
    unmarked (value d) = timestampLinear d.timestamp := by
  have heven := h.even
  rw [unmarked, value_eq]
  split_ifs <;> omega

/-- The time of a decision is found again. -/
theorem timestampLinear_delinear {d : Decision} (h : OnTick d.timestamp) :
    timestampLinear (timestampDelinear (timestampLinear d.timestamp)) =
      timestampLinear d.timestamp := by
  obtain ⟨t, ht, -⟩ := h
  rw [← ht, ClockTime.timestampLinear_timestamp, ClockTime.timestampDelinear_natCast,
    ClockTime.timestampLinear_timestamp, ClockTime.linear_ofLinear_of_lt t.linear_lt]

theorem dumpSlot_eq_some_iff {i : Fin 16} : w.dumpSlot timestamp = some i ↔
    timestampLinear timestamp = unmarked (w.wantBuyTimestamp i) ∧
      ∀ j < i, timestampLinear timestamp ≠ unmarked (w.wantBuyTimestamp j) := by
  simp only [dumpSlot, List.find?_eq_some_iff_getElem, decide_eq_true_eq, List.getElem_finRange]
  refine and_congr_right fun _ => ?_
  constructor
  · rintro ⟨n, hn, rfl, hbefore⟩ j hj
    simpa using hbefore j hj
  · intro hbefore
    exact ⟨i, by simp, rfl, fun j hj => by simpa using hbefore ⟨j, by omega⟩ hj⟩

/-- What a slot holds, with its factor list. -/
theorem slots_cases (ps : List (Decision × F)) (i : Fin 16) :
    (pushAll (ps.map Prod.fst)).wantBuyTimestamp i = 0 ∨
      ∃ p ∈ ps, RecentRing.slots 16 ps i = some p := by
  rw [wantBuyTimestamp_pushAll, RecentRing.slots_map]
  cases hi : RecentRing.slots 16 ps i with
  | none => exact .inl rfl
  | some p =>
    have hmem := (RecentRing.mem_slots_iff (by omega)).1 ⟨i, hi⟩
    exact .inr ⟨p, List.mem_of_mem_take hmem, rfl⟩

theorem wantBuyTimestamp_of_slots {i : Fin 16} {p : Decision × F}
    (h : RecentRing.slots 16 ps i = some p) :
    (pushAll (ps.map Prod.fst)).wantBuyTimestamp i = value p.1 := by
  rw [wantBuyTimestamp_pushAll, RecentRing.slots_map, h]
  rfl

/-- The nearest slot, if it is within the tolerance, holds a decision; that is the
    answer, and its time is dumped. -/
theorem answer_of_near (hps : ∀ p ∈ ps, OnTick p.1.timestamp) (ht : 93000000 ≤ timestamp)
    {i : Fin 16} (hnear : IsNearest (pushAll (ps.map Prod.fst)).wantBuyTimestamp
      (roundedTime timestamp) i)
    (htol : |(pushAll (ps.map Prod.fst)).wantBuyTimestamp i - roundedTime timestamp| ≤
      kWantBuyTimeTolerance) :
    ∃ p ∈ ps, RecentRing.slots 16 ps i = some p ∧
      (pushAll (ps.map Prod.fst)).checkWantBuyAtTimestamp timestamp = .ofBool p.1.wantBuy ∧
      timestampLinear ((pushAll (ps.map Prod.fst)).bestTime timestamp) =
        unmarked ((pushAll (ps.map Prod.fst)).wantBuyTimestamp i) := by
  have hround := le_roundedTime ht
  obtain ⟨p, hp, hslot⟩ := (slots_cases ps i).resolve_left fun hzero => by
    rw [hzero, abs_le, kWantBuyTimeTolerance] at htol
    omega
  have hvalue := wantBuyTimestamp_of_slots hslot
  obtain ⟨i', hnear', hscan⟩ := scan_eq (pushAll (ps.map Prod.fst)) timestamp
  rw [hnear'.unique hnear] at hscan
  refine ⟨p, hp, hslot, ?_, ?_⟩
  · rw [checkWantBuyAtTimestamp_eq, hscan, hvalue]
    exact intent_value (hps p hp).even (hvalue ▸ htol)
  · rw [bestTime, hscan, hvalue, unmarked_value (hps p hp), timestampLinear_delinear (hps p hp)]

theorem answer_of_far {i : Fin 16} (hnear : IsNearest w.wantBuyTimestamp (roundedTime timestamp) i)
    (htol : ¬ |w.wantBuyTimestamp i - roundedTime timestamp| ≤ kWantBuyTimeTolerance) :
    w.checkWantBuyAtTimestamp timestamp = .NotSure := by
  obtain ⟨i', hnear', hscan⟩ := scan_eq w timestamp
  rw [checkWantBuyAtTimestamp_eq, hscan, hnear'.unique hnear, Scan.intent, if_pos (not_le.1 htol)]

/-- Two decisions for one time, and as to whether to buy, are equally near. -/
theorem value_eq_of_same {d e : Decision} (hd : OnTick d.timestamp) (he : OnTick e.timestamp)
    (hbuy : d.wantBuy = e.wantBuy) (hsame : unmarked (value d) = unmarked (value e)) :
    value d = value e := by
  rw [unmarked_value hd, unmarked_value he] at hsame
  rw [value_eq, value_eq, hbuy, hsame]

/-- **The factor list logged is one of a decision as the answer if and only if no
    slot before the nearest one is for its time.** -/
theorem logged_iff {model : StockCompute R → Bool} {factors : StockCompute R → F}
    (h : Recorded model factors w cache ps) (ht : 93000000 ≤ timestamp) :
    LoggedAgrees w cache ps timestamp ↔ NearestIsFirst w timestamp := by
  obtain ⟨rfl, hps, hcache⟩ := h.spec
  obtain ⟨i, hnear, -⟩ := scan_eq (pushAll (ps.map Prod.fst)) timestamp
  by_cases htol : |(pushAll (ps.map Prod.fst)).wantBuyTimestamp i - roundedTime timestamp| ≤
      kWantBuyTimeTolerance
  · obtain ⟨p, hp, hslot, hanswer, hbest⟩ := answer_of_near hps ht hnear htol
    constructor
    · intro hagrees i' hi' _ j hj hsame
      obtain rfl := hi'.unique hnear
      obtain ⟨k, q, hdump, hslot', -, hsure⟩ := hagrees (by
        rw [hanswer]; exact Intent.ofBool_ne_notSure _)
      obtain ⟨hk, hfirst⟩ := dumpSlot_eq_some_iff.1 hdump
      have hkj : k ≤ j := not_lt.1 fun hlt => hfirst j hlt (hbest.trans hsame.symm)
      -- the slots dumped and answered hold one time, and one decision
      have hq : q ∈ ps := List.mem_of_mem_take ((RecentRing.mem_slots_iff (by omega)).1 ⟨k, hslot'⟩)
      have hbuy : p.1.wantBuy = q.1.wantBuy := Intent.ofBool_inj.1 (hanswer.symm.trans hsure)
      have hlt := hnear.2 k (lt_of_le_of_lt hkj hj)
      rw [hk] at hbest
      rw [wantBuyTimestamp_of_slots hslot, wantBuyTimestamp_of_slots hslot'] at hbest hlt
      rw [value_eq_of_same (hps p hp) (hps q hq) hbuy hbest.symm] at hlt
      exact absurd hlt (lt_irrefl _)
    · intro hfirst _
      have hdump : (pushAll (ps.map Prod.fst)).dumpSlot
          ((pushAll (ps.map Prod.fst)).bestTime timestamp) = some i := by
        rw [dumpSlot_eq_some_iff]
        exact ⟨hbest, fun j hj heq => hfirst i hnear htol j hj (heq.symm.trans hbest)⟩
      refine ⟨i, p, hdump, hslot, ?_, hanswer⟩
      rw [logLimitUp, dumpFactors, hdump, Option.map_some, hcache i p hslot]
  · refine iff_of_true (fun hsure => absurd (answer_of_far hnear htol) hsure)
      fun i' hi' htol' => ?_
    rw [hi'.unique hnear] at htol'
    exact absurd htol' htol

/-- A stock that decides for a slot of the day. -/
def decider (slot : ℕ) (openPrice : ℤ) : StockCompute ℚ :=
  { StockCompute.start {} { upperLimitPrice := 1100, alive := true } with
    futureTimestamp := gridTime slot, openPrice }

theorem onTick_decider (slot : ℕ) (openPrice : ℤ) :
    OnTick (decider slot openPrice).futureTimestamp := gridTime_onTick slot

/-- Decisions for three slots; the limit-up tick is nearest to the second one. -/
theorem logged_iff_three :
    let model : StockCompute ℚ → Bool := fun c => c.openPrice = 0
    let factors : StockCompute ℚ → ℤ := fun c => c.openPrice
    let ps : List (Decision × ℤ) :=
      [(⟨93000300, false⟩, 2), (⟨93000200, true⟩, 0), (⟨93000100, false⟩, 1)]
    ∃ w cache, Recorded model factors w cache ps ∧
      w.checkWantBuyAtTimestamp 93000180 = .WantBuy ∧ w.logLimitUp cache 93000180 = some 0 ∧
      (LoggedAgrees w cache ps 93000180 ↔ NearestIsFirst w 93000180) := by
  intro model factors ps
  have hfirst : Recorded model factors _ _ [(⟨93000100, false⟩, 1)] :=
    .step (.init fun _ => -1) (onTick_decider 1 1) rfl
  have hsecond : Recorded model factors _ _ [(⟨93000200, true⟩, 0), (⟨93000100, false⟩, 1)] :=
    .step hfirst (onTick_decider 2 0) rfl
  have hthird : Recorded model factors _ _ ps := .step hsecond (onTick_decider 3 2) rfl
  exact ⟨_, _, hthird, by decide, by decide, logged_iff hthird (by omega)⟩

/-- Two decisions for one slot: the second one, not to buy, is the answer, and the
    factor list of the first one is dumped. -/
theorem not_logged_same_slot : ∃ w cache,
    Recorded (fun c : StockCompute ℚ => c.openPrice = 0) (fun c => c.openPrice) w cache
      [(⟨93000100, false⟩, 1), (⟨93000100, true⟩, 0)] ∧
    w.checkWantBuyAtTimestamp 93000100 = .DontBuy ∧ w.logLimitUp cache 93000100 = some 0 := by
  refine ⟨_, _, .step (.step (.init fun _ => -1) (onTick_decider 1 0) rfl) (onTick_decider 1 1) rfl,
    ?_, ?_⟩
  · decide
  · decide

end WantCache

end Mdd2
