/-
  Prices between the limits of a day.

  * `placed` is the order that a handler may insert for a record;
  * `InLimits` says that the records of a run keep the limits;
  * `StockCompute.Quoted`: the last prices then do, whatever the volumes are;
  * `StockCompute.Priced` is what holds of volumes and amounts too, as long as the sums fit,
    and `BinsPriced` of the state in which the model is asked (`Priced.speculate`);
  * `BinsPriced.bins`: so the average price of every bin is between the limits, and some bin
    has a volume as soon as one lies in a band above the previous close
    (`BinsPriced.volume_pos`).
-/
import Mdd2.Proof.Accounts
import Mdd2.Proof.Tracking

namespace Mdd2

variable {R : Type}

/-! ## Orders of a build -/

/-- The order that a handler inserts, if it is not tracked already. -/
def placed (b : Build) (approach : ℤ) (tick : b.Tick) : Option UpSell :=
  match b, tick, dispatch b tick with
  | .replay _, tick, some .onOrder =>
    if tick.isSellOrder ∧ tick.price ≥ approach then some ⟨tick.price, tick.quantity⟩ else none
  | .ne .SH, tick, some .onOrder =>
    if TickMergeSse.tickBSFlag tick = '1'.toNat
        ∧ TickMergeSse.price tick ≥ Word.toUnsigned 32 (approach * 10) then
      some ⟨Word.toSigned 32 ↑(TickMergeSse.price tick / 10),
        Word.toSigned 32 ↑(TickMergeSse.qty tick / 1000)⟩
    else none
  | .ne .SZ, tick, some .onOrder =>
    if OrderSz.side tick = '2'.toNat ∧ OrderSz.orderType tick = '2'.toNat
        ∧ OrderSz.price tick ≥ Word.toUnsigned 64 (approach * 100) then
      some ⟨Word.toSigned 32 ↑(OrderSz.price tick / 100),
        Word.toSigned 32 ↑(OrderSz.qty tick / 100)⟩
    else none
  -- the cancel handler inserts
  | .ne .SZ, tick, some .onCancel =>
    if OrderSz.price tick ≥ Word.toUnsigned 64 (approach * 100) then
      some ⟨Word.toSigned 32 ↑(OrderSz.price tick / 100),
        Word.toSigned 32 ↑(OrderSz.qty tick / 100)⟩
    else none
  | _, _, _ => none

theorem placed_replay {market : Market} {approach : ℤ} {tick : L2.Tick} {sell : UpSell}
    (h : placed (.replay market) approach tick = some sell) :
    sell = ⟨tick.price, tick.quantity⟩ := by
  simp only [placed] at h
  cases hdispatch : dispatch (.replay market) tick with
  | none => simp [hdispatch] at h
  | some call =>
    cases call with
    | onOrder =>
      simp only [hdispatch] at h
      split_ifs at h
      exact (Option.some.inj h).symm
    | _ => simp [hdispatch] at h

/-- The price is between the limits, and something is sold. -/
def UpSell.Priced (lo hi : ℤ) (sell : UpSell) : Prop :=
  (lo ≤ sell.price ∧ sell.price ≤ hi) ∧ 0 < sell.quantity

def Execution.Priced (lo hi : ℤ) (e : Execution) : Prop :=
  (lo ≤ e.price ∧ e.price ≤ hi) ∧ 0 < e.quantity

/-- The records keep the limits. -/
structure InLimits (lo hi approach : ℤ) (b : Build) (ticks : List b.Tick) : Prop where
  trades : ∀ e ∈ executions b ticks, e.Priced lo hi
  orders : ∀ tick ∈ ticks, ∀ sell, placed b approach tick = some sell → sell.Priced lo hi

namespace UpSellOrders

def Priced (lo hi : ℤ) (m : UpSellOrders) : Prop :=
  ∀ (no : ℤ) (sell : UpSell), m[no]? = some sell → sell.Priced lo hi

variable {lo hi : ℤ} {m : UpSellOrders}

theorem Priced.insertIfNew (h : m.Priced lo hi) {sell : UpSell} (hs : sell.Priced lo hi) (no : ℤ) :
    UpSellOrders.Priced lo hi (m.insertIfNew no sell) := by
  intro n s hn
  rw [OrderedMap.getElem?_insertIfNew] at hn
  split at hn
  · obtain rfl := Option.some.inj hn
    exact hs
  · exact h n s hn

theorem Priced.erase (h : m.Priced lo hi) (no : ℤ) : UpSellOrders.Priced lo hi (m.erase no) := by
  intro n s hn
  rw [OrderedMap.getElem?_erase] at hn
  split at hn
  · exact absurd hn (by simp)
  · exact h n s hn

/-- What is left of an order keeps its price. -/
theorem Priced.fill (h : m.Priced lo hi) (no quantity : ℤ) : (m.fill no quantity).Priced lo hi := by
  intro n s hn
  rw [getElem?_fill] at hn
  split at hn
  case isTrue =>
    obtain ⟨sell, hsell, hn⟩ := Option.bind_eq_some_iff.1 hn
    split at hn
    case isTrue => exact absurd hn (by simp)
    case isFalse hleft =>
      obtain rfl := Option.some.inj hn
      exact ⟨(h no sell hsell).1, not_le.1 hleft⟩
  case isFalse => exact h n s hn

end UpSellOrders

namespace StockCompute
variable {lo hi : ℤ} {b : Build} {c : StockCompute R}

/-- The order handlers insert what is placed. -/
theorem onOrder_priced (h : c.upSellOrders.Priced lo hi) {tick : b.Tick}
    (hd : dispatch b tick = some .onOrder)
    (hp : ∀ sell, placed b c.upperLimitPriceApproach tick = some sell → sell.Priced lo hi) :
    (c.onOrder b tick).upSellOrders.Priced lo hi := by
  rcases b with _ | ⟨_ | _⟩ | _
  · simp only [placed, hd] at hp
    rw [onOrder, onOrderReplay]
    split_ifs with hc
    · exact h.insertIfNew (hp _ (if_pos hc)) _
    · exact h
  · simp only [placed, hd] at hp
    rw [onOrder, onOrderNeSh]
    split_ifs with hc
    · exact h.insertIfNew (hp _ (if_pos hc)) _
    · exact h
  · simp only [placed, hd] at hp
    rw [onOrder, onOrderNeSz]
    split_ifs with hc
    · exact h.insertIfNew (hp _ (if_pos hc)) _
    · exact h
  · exact h

theorem onCancel_priced (h : c.upSellOrders.Priced lo hi) {tick : b.Tick}
    (hd : dispatch b tick = some .onCancel)
    (hp : ∀ sell, placed b c.upperLimitPriceApproach tick = some sell → sell.Priced lo hi) :
    (c.onCancel b tick).upSellOrders.Priced lo hi := by
  rcases b with _ | ⟨_ | _⟩ | _
  · rw [onCancel, onCancelReplay]
    split_ifs
    · exact h.erase _
    · exact h
  · rw [onCancel, onCancelNeSh]
    split_ifs
    · exact h.erase _
    · exact h
  · simp only [placed, hd] at hp
    rw [onCancel, onCancelNeSz]
    split_ifs with hc
    · exact h.insertIfNew (hp _ (if_pos hc)) _
    · exact h
  · exact h

end StockCompute

/-! ## Last prices -/

namespace FState

/-- The last prices of the series are between the limits. -/
structure Quoted (lo hi : ℤ) (f : FState R) : Prop where
  snapshots : ∀ s ∈ f.snapshots, lo ≤ s.lastPrice ∧ s.lastPrice ≤ hi
  currSnapshot : lo ≤ f.currSnapshot.lastPrice ∧ f.currSnapshot.lastPrice ≤ hi

variable [FactorScalar R] {lo hi : ℤ} {f g : FState R}

theorem Quoted.recorded (h : f.Quoted lo hi) : f.recorded.Quoted lo hi where
  snapshots := by
    rintro s hs
    rcases List.mem_append.1 hs with hs | hs
    · exact h.snapshots s hs
    · rw [List.mem_singleton.1 hs]
      exact h.currSnapshot
  currSnapshot := h.currSnapshot

theorem Quoted.stepSnapshotUntil {timestamp : ℤ} (h : f.Quoted lo hi)
    (hg : f.stepSnapshotUntil timestamp = some g) : g.Quoted lo hi := by
  refine stepSnapshotUntil_induct (P := FState.Quoted lo hi) ?_ (fun _ h => ⟨h.1, h.2⟩) h hg
  intro f g hf hg
  rw [stepSnapshot_eq_some hg]
  exact hf.recorded

end FState

namespace StockCompute

structure Quoted (lo hi : ℤ) (c : StockCompute R) : Prop where
  upperLimitPrice : lo ≤ c.upperLimitPrice ∧ c.upperLimitPrice ≤ hi
  series : c.fState.Quoted lo hi

variable [FactorScalar R] {lo hi : ℤ} {b : Build} {c d : StockCompute R} {es : List Execution}

theorem Quoted.start {s : StockState} (hs : s.alive)
    (hc : lo ≤ s.preClosePrice ∧ s.preClosePrice ≤ hi)
    (hu : lo ≤ s.upperLimitPrice ∧ s.upperLimitPrice ≤ hi) :
    (StockCompute.start {} s : StockCompute R).Quoted lo hi := by
  rw [StockCompute.start, if_pos hs]
  exact ⟨hu, fun s hs => absurd hs List.not_mem_nil, hc⟩

omit [FactorScalar R] in
theorem Quoted.congr (h : c.Quoted lo hi) (hd : d.settled = c.settled) : d.Quoted lo hi := by
  have hf : d.fState = c.fState := congrArg (fun c => c.fState) hd
  have hu : d.upperLimitPrice = c.upperLimitPrice := congrArg (fun c => c.upperLimitPrice) hd
  exact ⟨hu ▸ h.upperLimitPrice, hf ▸ h.series⟩

theorem Quoted.onTradeOf (h : c.Quoted lo hi) {e : Execution} (he : e.Priced lo hi)
    (hd : c.onTradeOf e.sellOrderNo e.openCall e.timestamp e.price e.quantity = some d) :
    d.Quoted lo hi := by
  obtain ⟨no, openCall, timestamp, price, quantity⟩ := e
  cases openCall with
  | true =>
    obtain rfl := Option.some.inj hd
    exact ⟨h.upperLimitPrice, h.series.snapshots, he.1⟩
  | false =>
    rw [onTradeOf_false] at hd
    obtain ⟨f, hf, rfl⟩ := Option.map_eq_some_iff.1 hd
    obtain ⟨f', hf', rfl⟩ := FState.addRealTrade_eq_some hf
    exact ⟨h.upperLimitPrice, (h.series.stepSnapshotUntil hf').snapshots, he.1⟩

theorem Quoted.runTicks {ticks : List b.Tick} (ha : c.alive) (h : c.Quoted lo hi)
    (hticks : ∀ e ∈ executions b ticks, e.Priced lo hi) (hd : c.runTicks b ticks = some d) :
    d.Quoted lo hi :=
  runTicks_induct (P := fun _ c => c.Quoted lo hi) (Q := fun _ => True) (fun h => ⟨h.1, h.2⟩)
    (fun _ _ _ h => ⟨h.1, h.2⟩) (fun _ _ _ h => ⟨h.1, h.2⟩)
    (fun hpre htrade h => h.onTradeOf (hticks _ (hpre.subset (by simp))) htrade)
    (fun _ _ => trivial) (List.nil_append _) ha h hd

/-- **The model is asked with last prices between the limits.** -/
theorem Quoted.speculate (h : c.Quoted lo hi) (hd : c.speculate = some d) : d.Quoted lo hi := by
  obtain ⟨bState, f, hf, rfl⟩ := speculate_eq_some hd
  exact ⟨h.upperLimitPrice,
    FState.Quoted.recorded ⟨(h.series.stepSnapshotUntil hf).snapshots, h.upperLimitPrice⟩⟩

end StockCompute

/-! ## Volumes and amounts -/

/-- Volume and amount of trades between the limits. -/
structure Gathered (lo hi : ℤ) (x : ℤ × ℤ) : Prop where
  volume : 0 ≤ x.1
  amount : lo * x.1 ≤ x.2 ∧ x.2 ≤ hi * x.1

section
variable {lo hi : ℤ} {x y : ℤ × ℤ}

theorem gathered_zero (lo hi : ℤ) : Gathered lo hi 0 := ⟨le_rfl, by simp, by simp⟩

theorem Gathered.add (hx : Gathered lo hi x) (hy : Gathered lo hi y) : Gathered lo hi (x + y) := by
  obtain ⟨hv, hlo, hhi⟩ := hx
  obtain ⟨hv', hlo', hhi'⟩ := hy
  refine ⟨add_nonneg hv hv', ?_, ?_⟩ <;> simp only [Prod.fst_add, Prod.snd_add, mul_add] <;> omega

theorem gathered_sum {l : List (ℤ × ℤ)} (h : ∀ x ∈ l, Gathered lo hi x) :
    Gathered lo hi l.sum := by
  induction l with
  | nil => exact gathered_zero lo hi
  | cons x l ih =>
    obtain ⟨hx, hl⟩ := List.forall_mem_cons.1 h
    rw [List.sum_cons]
    exact hx.add (ih hl)

/-- The volume and the amount of one trade. -/
theorem gathered_of_price {price quantity : ℤ} (hp : lo ≤ price ∧ price ≤ hi)
    (hq : 0 ≤ quantity) : Gathered lo hi (quantity, price * quantity) :=
  ⟨hq, mul_le_mul_of_nonneg_right hp.1 hq, mul_le_mul_of_nonneg_right hp.2 hq⟩

end

namespace FState

/-- The series holds trades between the limits. -/
def Priced (lo hi : ℤ) (f : FState R) : Prop := ∀ x ∈ f.totals, Gathered lo hi x

variable [FactorScalar R] {lo hi : ℤ} {f g : FState R}

theorem Priced.stepSnapshotUntil {timestamp : ℤ} (h : f.Priced lo hi)
    (hg : f.stepSnapshotUntil timestamp = some g) : g.Priced lo hi := by
  refine stepSnapshotUntil_induct (P := FState.Priced lo hi) ?_ (fun _ h => h) h hg
  intro f g hf hg
  rw [stepSnapshot_eq_some hg, Priced, totals_recorded]
  exact List.forall_mem_append.2 ⟨hf, List.forall_mem_singleton.2 (gathered_zero lo hi)⟩

theorem Priced.addRealTrade {timestamp price quantity : ℤ} (h : f.Priced lo hi)
    (hfit : Word.Fits (f.gross + Word.sizes (quantity, price * quantity)))
    (hp : lo ≤ price ∧ price ≤ hi) (hq : 0 < quantity)
    (hg : f.addRealTrade timestamp price quantity = some g) : g.Priced lo hi := by
  obtain ⟨f', hf', rfl⟩ := addRealTrade_eq_some hg
  have h' := h.stepSnapshotUntil hf'
  rw [← (stepSnapshotUntil_traded hf').2] at hfit
  rw [Priced, totals_countTrade hfit]
  rw [Priced, totals, List.forall_mem_append, List.forall_mem_singleton] at h'
  exact List.forall_mem_append.2 ⟨h'.1,
    List.forall_mem_singleton.2 (h'.2.add (gathered_of_price hp hq.le))⟩

end FState

/-! ## The compute -/

namespace StockCompute

/-- The compute holds trades and orders between the limits. -/
structure Priced (lo hi : ℤ) (es : List Execution) (c : StockCompute R) : Prop where
  account : c.Account es
  series : c.fState.Priced lo hi
  upSellOrders : c.upSellOrders.Priced lo hi

variable [FactorScalar R] {lo hi : ℤ} {b : Build} {c d : StockCompute R} {es : List Execution}

theorem Priced.start {s : StockState} (hs : s.alive) :
    (StockCompute.start {} s : StockCompute R).Priced lo hi [] := by
  refine ⟨.start hs, ?_, ?_⟩
  · rw [StockCompute.start, if_pos hs]
    exact List.forall_mem_singleton.2 (gathered_zero lo hi)
  · rw [StockCompute.start, if_pos hs]
    exact fun no sell h => absurd h (by simp)

omit [FactorScalar R] in
theorem Priced.congr (h : c.Priced lo hi es) (hd : d.settled = c.settled) : d.Priced lo hi es := by
  have hf : d.fState = c.fState := congrArg (fun c => c.fState) hd
  have hm : d.upSellOrders = c.upSellOrders := congrArg (fun c => c.upSellOrders) hd
  exact ⟨h.account.congr hd, hf ▸ h.series, hm ▸ h.upSellOrders⟩

/-- **A trade between the limits keeps the volumes and amounts there.** -/
theorem Priced.onTradeOf (h : c.Priced lo hi es) {e : Execution} (he : e.Priced lo hi)
    (hfit : TradesFit (es ++ [e]))
    (hd : c.onTradeOf e.sellOrderNo e.openCall e.timestamp e.price e.quantity = some d) :
    d.Priced lo hi (es ++ [e]) := by
  have haccount := h.account.onTradeOf hfit hd
  obtain ⟨no, openCall, timestamp, price, quantity⟩ := e
  obtain ⟨hp, hq⟩ := he
  cases openCall with
  | true =>
    obtain rfl := Option.some.inj hd
    exact ⟨haccount, h.series, h.upSellOrders.fill _ _⟩
  | false =>
    rw [onTradeOf_false] at hd
    obtain ⟨f, hf, rfl⟩ := Option.map_eq_some_iff.1 hd
    exact ⟨haccount, h.series.addRealTrade (h.account.fits hfit) hp hq hf, h.upSellOrders.fill _ _⟩

/-- **So after any ticks whose trades fit.** -/
theorem Priced.runTicks {ticks : List b.Tick} (ha : c.alive) (h : c.Priced lo hi [])
    (hticks : InLimits lo hi c.upperLimitPriceApproach b ticks)
    (hfit : TradesFit (executions b ticks)) (hd : c.runTicks b ticks = some d) :
    d.Priced lo hi (executions b ticks) := by
  refine (runTicks_induct (P := fun es d => d.Priced lo hi es ∧
      d.upperLimitPriceApproach = c.upperLimitPriceApproach) (Q := fun tick => ∀ sell,
        placed b c.upperLimitPriceApproach tick = some sell → sell.Priced lo hi)
    ?_ ?_ ?_ ?_ hticks.orders (List.nil_append _) ha ⟨h, rfl⟩ hd).1
  · rintro es c ⟨h, happroach⟩
    exact ⟨⟨h.account.of_frame rfl rfl rfl rfl, h.series, h.upSellOrders⟩, happroach⟩
  · rintro es c tick m hplaced hdispatch hm ⟨h, happroach⟩
    have hpriced := onOrder_priced h.upSellOrders hdispatch (happroach ▸ hplaced)
    rw [hm] at hpriced
    exact ⟨⟨h.account.of_frame rfl rfl rfl rfl, h.series, hpriced⟩, happroach⟩
  · rintro es c tick m hplaced hdispatch hm ⟨h, happroach⟩
    have hpriced := onCancel_priced h.upSellOrders hdispatch (happroach ▸ hplaced)
    rw [hm] at hpriced
    exact ⟨⟨h.account.of_frame rfl rfl rfl rfl, h.series, hpriced⟩, happroach⟩
  · rintro es c d e hpre htrade ⟨h, happroach⟩
    have he := hticks.trades e (hpre.subset (by simp))
    exact ⟨h.onTradeOf he (hfit.of_prefix hpre) htrade,
      (onTradeOf_frame htrade).2.2.2.trans happroach⟩

omit [FactorScalar R] in
/-- The opening auction of trades between the limits. -/
theorem Account.opening (h : c.Account es) (hes : ∀ e ∈ es, e.Priced lo hi)
    (hc : lo ≤ c.preClosePrice ∧ c.preClosePrice ≤ hi) :
    (lo ≤ c.openPrice ∧ c.openPrice ≤ hi) ∧ 0 ≤ c.openVolume ∧
      (c.openVolume = 0 → c.openPrice = c.preClosePrice) := by
  have hpriced : ∀ e ∈ es.filter (·.openCall), e.Priced lo hi := fun e he =>
    hes e (List.mem_of_mem_filter he)
  rw [h.openVolume, h.openPrice, openingVolume, openingPrice]
  generalize es.filter (·.openCall) = opening at hpriced
  cases opening using List.reverseRecOn with
  | nil => exact ⟨hc, le_rfl, fun _ => rfl⟩
  | append_singleton opening e =>
    have he := hpriced e (by simp)
    have hrest : 0 ≤ (opening.map (·.quantity)).sum := by
      refine List.sum_nonneg fun q hq => ?_
      obtain ⟨e', he', rfl⟩ := List.mem_map.1 hq
      exact (hpriced e' (List.mem_append_left _ he')).2.le
    have hpos : 0 < ((opening ++ [e]).map (·.quantity)).sum := by
      rw [List.map_append, List.sum_append, List.map_singleton, List.sum_singleton]
      exact add_pos_of_nonneg_of_pos hrest he.2
    exact ⟨by simpa using he.1, hpos.le, fun h0 => absurd h0 hpos.ne'⟩

/-- The model is asked with trades and orders between the limits. -/
structure BinsPriced (lo hi : ℤ) (c : StockCompute R) : Prop where
  fit : c.BinsFit
  openPrice : lo ≤ c.openPrice ∧ c.openPrice ≤ hi
  openVolume : 0 ≤ c.openVolume
  opened : c.openVolume = 0 → c.openPrice = c.preClosePrice
  snapshots : ∀ x ∈ c.fState.snapshots.map Snapshot.total, Gathered lo hi x

omit [FactorScalar R] in
theorem gathered_tracked (h : c.upSellOrders.Priced lo hi) : Gathered lo hi c.tracked := by
  refine gathered_sum fun x hx => ?_
  obtain ⟨p, hp, rfl⟩ := List.mem_map.1 hx
  obtain ⟨hprice, hq⟩ := h p.1 p.2 (Std.ExtTreeMap.mem_toList_iff_getElem?_eq_some.1 hp)
  exact gathered_of_price hprice hq.le

/-- **The model is asked with volumes and amounts between the limits.** -/
theorem Priced.speculate (h : c.Priced lo hi es) (hfit : c.AskedFit es)
    (hes : ∀ e ∈ es, e.Priced lo hi) (hc : lo ≤ c.preClosePrice ∧ c.preClosePrice ≤ hi)
    (hd : c.speculate = some d) : d.BinsPriced lo hi := by
  obtain ⟨hprice, hvolume, hopened⟩ := h.account.opening hes hc
  obtain ⟨f, hf, hsnapshots⟩ := speculate_totals (h.account.seriesFit hfit) hd
  have hbins := h.account.binsFit hfit hd
  have hseries := h.series.stepSnapshotUntil hf
  rw [FState.Priced, FState.totals, List.forall_mem_append, List.forall_mem_singleton] at hseries
  obtain ⟨bState, f', -, rfl⟩ := speculate_eq_some hd
  refine ⟨hbins, hprice, hvolume, hopened, ?_⟩
  rw [hsnapshots]
  exact List.forall_mem_append.2 ⟨hseries.1,
    List.forall_mem_singleton.2 (hseries.2.add (gathered_tracked h.upSellOrders))⟩

end StockCompute

/-! ## The bins -/

namespace StockCompute
variable {lo hi : ℤ} {c : StockCompute R}

theorem gather_priced {ss : List (Snapshot × ℕ)} (hs : ∀ p ∈ ss, Gathered lo hi p.1.total)
    {g : List (ℤ × ℤ)} (hg : ∀ x ∈ g, Gathered lo hi x) :
    ∀ x ∈ ss.foldl (fun g p => g.modify (p.2 / 5) (· + p.1.total)) g, Gathered lo hi x := by
  induction ss generalizing g with
  | nil => exact hg
  | cons p ss ih =>
    have hp := hs p List.mem_cons_self
    refine ih (fun q hq => hs q (List.mem_cons_of_mem p hq)) ?_
    rintro x hx
    obtain ⟨i, hlt, rfl⟩ := List.mem_iff_getElem.1 hx
    rw [List.getElem_modify]
    split
    · exact (hg _ (List.getElem_mem _)).add hp
    · exact hg _ (List.getElem_mem _)

theorem BinsPriced.gatherBins (h : c.BinsPriced lo hi) : ∀ x ∈ c.gatherBins, Gathered lo hi x := by
  rw [gatherBins_eq h.fit]
  refine gather_priced (fun p hp => h.snapshots _
    (List.mem_map_of_mem (List.fst_mem_of_mem_zipIdx hp))) ?_
  rintro x hx
  rcases List.mem_or_eq_of_mem_set hx with hx | rfl
  · rw [(List.mem_replicate.1 hx).2]
    exact gathered_zero lo hi
  · rw [mul_comm c.openVolume]
    exact gathered_of_price h.openPrice h.openVolume

/-- The averages of trades between the limits are there. -/
theorem vwapBins_priced {g : List (ℤ × ℤ)} (hg : ∀ x ∈ g, Gathered lo hi x) {lastVWAP : ℚ}
    (hl : (lo : ℚ) ≤ lastVWAP ∧ lastVWAP ≤ hi) :
    ∀ b ∈ vwapBins lastVWAP g, (lo : ℚ) ≤ b.vwap ∧ b.vwap ≤ hi := by
  induction g generalizing lastVWAP with
  | nil => exact fun b hb => absurd hb List.not_mem_nil
  | cons p g ih =>
    obtain ⟨hv, hlo, hhi⟩ := hg p List.mem_cons_self
    have hnew : (lo : ℚ) ≤ (if p.1 ≠ 0 then (p.2 : ℚ) / p.1 else lastVWAP) ∧
        (if p.1 ≠ 0 then (p.2 : ℚ) / p.1 else lastVWAP) ≤ hi := by
      split_ifs with h0
      · have hpos : (0 : ℚ) < p.1 := by exact_mod_cast lt_of_le_of_ne hv (Ne.symm h0)
        rw [le_div_iff₀ hpos, div_le_iff₀ hpos]
        exact ⟨by exact_mod_cast hlo, by exact_mod_cast hhi⟩
      · exact hl
    rintro b hb
    rcases List.mem_cons.1 hb with rfl | hb
    · exact hnew
    · exact ih (fun q hq => hg q (List.mem_cons_of_mem p hq)) hnew b hb

/-- **The average price of every bin is between the limits.** -/
theorem BinsPriced.bins (h : c.BinsPriced lo hi) :
    ∀ b ∈ c.bins, (lo : ℚ) ≤ b.vwap ∧ b.vwap ≤ hi := by
  refine vwapBins_priced h.gatherBins ?_
  exact_mod_cast h.openPrice

theorem BinsPriced.gathered (h : c.BinsPriced lo hi) {b : Bin} (hb : b ∈ c.bins) :
    Gathered lo hi (b.volume, b.amount) := by
  refine h.gatherBins _ ?_
  rw [← vwapBins_gathered c.openPrice c.gatherBins]
  exact List.mem_map_of_mem hb

theorem vwapBins_of_volume_eq_zero {g : List (ℤ × ℤ)} (hg : ∀ b ∈ g, b.1 = 0) (lastVWAP : ℚ) :
    ∀ b ∈ vwapBins lastVWAP g, b.vwap = lastVWAP := by
  induction g with
  | nil => exact fun b hb => absurd hb List.not_mem_nil
  | cons p g ih =>
    have hp : (if p.1 ≠ 0 then (p.2 : ℚ) / p.1 else lastVWAP) = lastVWAP :=
      if_neg (not_not_intro (hg p List.mem_cons_self))
    rintro b hb
    rw [vwapBins, hp] at hb
    rcases List.mem_cons.1 hb with rfl | hb
    · rfl
    · exact ih (fun q hq => hg q (List.mem_cons_of_mem p hq)) b hb

/-- **Without a trade, all averages are the previous close.** -/
theorem BinsPriced.volume_pos (h : c.BinsPriced lo hi) {b : Bin} (hb : b ∈ c.bins)
    (hne : b.vwap ≠ c.preClosePrice) : 0 < (c.bins.map Bin.volume).sum := by
  have hnonneg : ∀ v ∈ c.bins.map Bin.volume, 0 ≤ v := by
    rintro v hv
    obtain ⟨b', hb', rfl⟩ := List.mem_map.1 hv
    exact (h.gathered hb').volume
  refine lt_of_le_of_ne (List.sum_nonneg hnonneg) fun hsum => hne ?_
  have hzero : ∀ b ∈ c.gatherBins, b.1 = 0 := by
    rintro b' hb'
    rw [← vwapBins_gathered c.openPrice c.gatherBins] at hb'
    obtain ⟨b'', hb'', rfl⟩ := List.mem_map.1 hb'
    exact List.all_zero_of_le_zero_le_of_sum_eq_zero hnonneg hsum.symm (List.mem_map_of_mem hb'')
  have hopen : c.openVolume = 0 := by
    have hsnap := (gathered_sum h.snapshots).volume
    have hfst := congrArg Prod.fst (sum_bins h.fit)
    have hv := h.openVolume
    simp only [Prod.fst_add] at hfst
    omega
  rw [vwapBins_of_volume_eq_zero hzero c.openPrice b hb, h.opened hopen]

theorem BinsPriced.amount_pos (h : c.BinsPriced lo hi) (h0 : 0 < lo)
    (hv : 0 < (c.bins.map Bin.volume).sum) : 0 < (c.bins.map Bin.amount).sum := by
  refine lt_of_lt_of_le (mul_pos h0 hv) ?_
  rw [← List.sum_map_mul_left]
  exact List.sum_le_sum fun b hb => (h.gathered hb).amount.1

/-- The sums of the bins fit. -/
theorem BinsPriced.sum_lt (h : c.BinsPriced lo hi) :
    (c.bins.map Bin.volume).sum < 2 ^ 63 ∧ (c.bins.map Bin.amount).sum < 2 ^ 63 := by
  have hle : Word.sizes ((c.bins.map Bin.volume).sum, (c.bins.map Bin.amount).sum) ≤
      Word.sizes (c.openVolume, c.openVolume * c.openPrice) +
        ((c.fState.snapshots.map Snapshot.total).map Word.sizes).sum := by
    rw [sum_bins h.fit]
    exact (Word.sizes_add_le _ _).trans (by gcongr; exact Word.sizes_sum_le _)
  have hfit := h.fit.mono hle
  exact ⟨(le_abs_self _).trans_lt hfit.1, (le_abs_self _).trans_lt hfit.2⟩

end StockCompute

end Mdd2
