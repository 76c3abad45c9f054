/-
  The hypothetical fill of `computeFutureWantBuy` against real trades.

  `fillTracked` lets every tracked order be bought by a trade of its own at the
  future slot time.  Once `stepSnapshotUntil` has passed to that slot, a trade
  there passes no more slots (`foldlM_addRealTrade`), so it only counts, as the
  hypothetical fill does; the two differ in the price the last snapshot is left
  with (`speculate_fillTracked`).
-/
import Mdd2.Proof.Speculation

namespace Mdd2

variable {R : Type} [FactorScalar R]

namespace FState
variable {f g : FState R} {timestamp : ℤ}

theorem stepSnapshotLoop_le {fuel : ℕ} (h : stepSnapshotLoop fuel timestamp f = some g) :
    timestamp ≤ g.nextTickTimestamp := by
  induction fuel generalizing f with
  | zero => exact absurd h (by simp [stepSnapshotLoop])
  | succ fuel ih =>
    rw [stepSnapshotLoop] at h
    split at h
    case isTrue =>
      obtain ⟨f', -, h⟩ := Option.bind_eq_some_iff.1 h
      exact ih h
    case isFalse hle =>
      obtain rfl := Option.some.inj h
      exact not_lt.1 hle

/-- When `stepSnapshotUntil` returns, the series has passed to the given time. -/
theorem stepSnapshotUntil_le (h : f.stepSnapshotUntil timestamp = some g) :
    timestamp ≤ g.nextTickTimestamp := by
  rw [stepSnapshotUntil] at h
  split at h
  case isTrue =>
    obtain ⟨f', -, h⟩ := Option.bind_eq_some_iff.1 h
    exact stepSnapshotLoop_le h
  case isFalse hle =>
    obtain rfl := Option.some.inj h
    exact not_lt.1 hle

/-- A trade that is not later than the current slot only counts. -/
theorem addRealTrade_of_le (h : timestamp ≤ f.nextTickTimestamp) (price quantity : ℤ) :
    f.addRealTrade timestamp price quantity = some (f.countTrade price quantity) :=
  addRealTrade_eq (by rw [stepSnapshotUntil, if_neg (not_lt.2 h)]) price quantity

/-- Trades of the current slot only count. -/
theorem foldlM_addRealTrade (h : timestamp ≤ f.nextTickTimestamp) (sells : List (ℤ × UpSell)) :
    sells.foldlM (fun f p => f.addRealTrade timestamp p.2.price p.2.quantity) f =
      some (sells.foldl (fun f p => f.countTrade p.2.price p.2.quantity) f) := by
  induction sells generalizing f with
  | nil => rfl
  | cons p sells ih =>
    rw [List.foldlM_cons, addRealTrade_of_le h]
    exact ih (f := f.countTrade p.2.price p.2.quantity) h

end FState

namespace StockCompute
variable {c : StockCompute R}

/-- The real path: the series passes to `futureTimestamp`, every tracked order is
    bought by a trade there, and the slot is recorded. -/
def fillTracked (c : StockCompute R) : Option (FState R) := do
  let f ← c.fState.stepSnapshotUntil c.futureTimestamp
  let f ← c.upSellOrders.toList.foldlM
    (fun f p => f.addRealTrade c.futureTimestamp p.2.price p.2.quantity) f
  f.stepSnapshot

omit [FactorScalar R] in
/-- Counting trades and the hypothetical fill differ in the last price only. -/
theorem foldl_countTrade (f : FState R) (m : UpSellOrders) : ∃ price,
    m.toList.foldl (fun f p => f.countTrade p.2.price p.2.quantity) f =
      { f with currSnapshot := { buyUpSellOrders m f.currSnapshot with lastPrice := price } } := by
  rw [buyUpSellOrders, Std.ExtTreeMap.foldl_eq_foldl_toList]
  induction m.toList using List.reverseRecOn with
  | nil => exact ⟨f.currSnapshot.lastPrice, rfl⟩
  | append_singleton sells p ih =>
    obtain ⟨price, hprice⟩ := ih
    rw [List.foldl_append, List.foldl_append, hprice]
    exact ⟨p.2.price, rfl⟩

theorem fillTracked_eq (c : StockCompute R) : ∃ price : FState R → ℤ, c.fillTracked =
    (c.fState.stepSnapshotUntil c.futureTimestamp).bind fun f =>
      FState.stepSnapshot { f with currSnapshot :=
        { buyUpSellOrders c.upSellOrders f.currSnapshot with lastPrice := price f } } := by
  choose price hprice using fun f : FState R => foldl_countTrade f c.upSellOrders
  refine ⟨price, ?_⟩
  rw [fillTracked]
  cases hf : c.fState.stepSnapshotUntil c.futureTimestamp with
  | none => rfl
  | some f =>
    simp only [Option.bind_eq_bind, Option.bind_some]
    rw [FState.foldlM_addRealTrade (FState.stepSnapshotUntil_le hf), hprice]
    rfl

/-- The fill of a stock that has not been started. -/
theorem fillTracked_of_not_started (h : c.fState.iirState = none) : c.fillTracked = none := by
  obtain ⟨price, hprice⟩ := c.fillTracked_eq
  rw [hprice, FState.stepSnapshotUntil]
  split
  · simp [FState.stepSnapshot, h]
  · simp [FState.stepSnapshot, h]

/-- **The hypothetical fill is the real one but for the last price.** -/
theorem speculate_fillTracked (hf : c.fState.OnGrid) (hb : c.bState.iirState.isSome)
    (ht : c.futureTimestamp ≤ 235959900) :
    ∃ d f l last, c.speculate = some d ∧ c.fillTracked = some f ∧
      f.snapshots = l ++ [last] ∧
      d.fState.snapshots = l ++ [{ last with lastPrice := c.upperLimitPrice }] ∧
      d.fState.iirState = f.iirState := by
  obtain ⟨price, hprice⟩ := c.fillTracked_eq
  obtain ⟨n, hn, hgrid⟩ := hf.stepSnapshotUntil ht
  rw [speculate, saveSnapshot_eq hf.iirState hb, hprice]
  simp only [Option.bind_eq_bind, Option.bind_some, hn]
  have hstep : ∀ curr : Snapshot, FState.stepSnapshot
      { FState.nextSlot^[n] c.fState with currSnapshot := curr } = some (FState.recorded
      { FState.nextSlot^[n] c.fState with currSnapshot := curr }) :=
    fun curr => FState.stepSnapshot_eq hgrid.iirState
  rw [hstep, hstep]
  exact ⟨_, _, (FState.nextSlot^[n] c.fState).snapshots, _, rfl, rfl, rfl, rfl, rfl⟩

end StockCompute

/-! ## Every state of the thread -/

namespace ComputeThread
variable {b : Build} {model : StockCompute R → Bool} {t u : ComputeThread R}

/-- A stock that has been started keeps both filters and its place on the grid,
    also after it is stopped. -/
structure Started (t : ComputeThread R) : Prop where
  onGrid : t.stock.fState.iirState.isSome → t.stock.fState.OnGrid
  bState : t.stock.fState.iirState.isSome → t.stock.bState.iirState.isSome

theorem Started.init (s : StockState) : Started (init s : ComputeThread R) := by
  by_cases hs : s.alive
  · refine ⟨fun _ => StockCompute.onGrid_start hs _, fun _ => ?_⟩
    rw [ComputeThread.init, StockCompute.start, if_pos hs]
    rfl
  · constructor <;>
    · rw [ComputeThread.init, StockCompute.start, if_neg hs]
      exact fun h => absurd h (by simp)

theorem Started.step {ds : List Decision} (hi : t.Inv) (hs : t.Started)
    (h : Step b model t ds u) : u.Started := by
  cases h with
  | clear => exact ⟨hs.onGrid, hs.bState⟩
  | tick tick htick =>
    rcases StockCompute.onTick_cases hi.sound.onGrid htick with
      ⟨_, _, -, rfl⟩ | rfl | ⟨ha, _, _, _, _, f, hf, rfl⟩
    · exact ⟨hs.onGrid, hs.bState⟩
    · exact ⟨hs.onGrid, hs.bState⟩
    · exact ⟨fun _ => hf, fun _ => hi.sound.bState ha⟩
  | @check c w =>
    unfold StockCompute.checkApproach
    split_ifs <;> exact ⟨hs.onGrid, hs.bState⟩
  | skip => exact ⟨hs.onGrid, hs.bState⟩
  | @first c d w w' dec ha hstep =>
    obtain ⟨bState, wantBuy, hb, heq⟩ := hi.approachStep_eq (.inl rfl) c.firstCompute model w
    cases heq.symm.trans hstep
    exact ⟨hs.onGrid, fun _ => hb⟩
  | @second c d w w' dec hstep =>
    obtain ⟨bState, wantBuy, hb, heq⟩ := hi.approachStep_eq (.inr rfl) false model w
    cases heq.symm.trans hstep
    exact ⟨hs.onGrid, fun _ => hb⟩
  | stop hp => exact ⟨hs.onGrid, hs.bState⟩

theorem Reachable.started (h : Reachable b model t) : t.Started := by
  induction h with
  | init s => exact Started.init s
  | step hr hstep ih => exact ih.step hr.inv hstep

/-- **Speculation agrees with the real path**, in every state of the thread and
    for every slot time: both fail, for a stock that has not been started, or the
    model is asked with the series and the filters of the real path, except that
    the last price is the upper limit. -/
theorem speculate_agrees (h : Reachable b model t) {m : ℕ} (hm : m ≤ lastSlot) :
    let c := { t.stock with futureTimestamp := gridTime m }
    c.fState.iirState = none ∧ c.speculate = none ∧ c.fillTracked = none ∨
    ∃ d f l last, c.speculate = some d ∧ c.fillTracked = some f ∧
      f.snapshots = l ++ [last] ∧
      d.fState.snapshots = l ++ [{ last with lastPrice := c.upperLimitPrice }] ∧
      d.fState.iirState = f.iirState := by
  intro c
  by_cases hs : c.fState.iirState.isSome
  · exact .inr (StockCompute.speculate_fillTracked (h.started.onGrid hs) (h.started.bState hs)
      (gridTime_last ▸ gridTime_le hm le_rfl))
  · rw [Option.not_isSome_iff_eq_none] at hs
    refine .inl ⟨hs, ?_, StockCompute.fillTracked_of_not_started hs⟩
    rw [StockCompute.speculate, StockCompute.saveSnapshot, hs]
    rfl

/-- After a sell order near the limit and a trade, the order is filled at a later slot. -/
theorem speculate_agrees_traded : ∃ t : ComputeThread ℚ,
    Reachable (.replay .SH) (fun _ => true) t ∧
    t.stock.upSellOrders.toList = [(7, ⟨1095, 300⟩)] ∧
    t.stock.fState.currSnapshot = ⟨1090, 1, 100, 109000⟩ ∧
    let c := { t.stock with futureTimestamp := gridTime 2 }
    ∃ d f l last, c.speculate = some d ∧ c.fillTracked = some f ∧
      f.snapshots = l ++ [last] ∧
      d.fState.snapshots = l ++ [{ last with lastPrice := c.upperLimitPrice }] ∧
      d.fState.iirState = f.iirState := by
  have hstart : Reachable (.replay .SH) (fun _ => true)
      (init { upperLimitPrice := 1100, alive := true } : ComputeThread ℚ) := .init _
  have horder := (hstart.step .clear).step
    (.tick (⟨600000, 92600000, 1095, 300, 0, 7⟩ : L2.Tick) rfl)
  have htrade := horder.step (.tick (⟨600000, 93000000, 1090, 100, 5, 6⟩ : L2.Tick) rfl)
  refine ⟨_, htrade, by decide +kernel, by decide +kernel, ?_⟩
  exact (speculate_agrees htrade (by decide)).resolve_left fun hnone => absurd hnone.1 (by decide)

end ComputeThread

end Mdd2
