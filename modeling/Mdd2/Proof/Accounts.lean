/-
  What the totals of the factors are made of.

  * `execution` is what the trade handler of a build reads, `executions` the trades that a
    compute is given before the end sign;
  * `runTicks_induct`: what orders, cancels and the end sign keep, and trades extend, holds
    after any ticks;
  * `Account` says that the series holds these trades, and `Account.runTicks` that it does
    after any ticks whose sums fit 64 bits;
  * `sum_bins`: the bins of the volatility factors hold the opening auction and the series;
  * `Program.program_accounts`: whenever the model is asked, the totals are the trades so far
    and the tracked orders, each once, as long as they fit.
-/
import Mdd2.Factors
import Mdd2.Proof.ProgramStream
import Mdd2.Proof.SpeculatedFill

namespace Mdd2

open MDD (InBounds)

variable {R : Type}

/-! ## Trades of a build -/

/-- The values that a trade handler reads. -/
structure Execution where
  sellOrderNo : ℤ
  openCall : Bool
  timestamp : ℤ
  price : ℤ
  quantity : ℤ
  deriving DecidableEq

/-- The OST builds read no trades. -/
def execution (b : Build) (tick : b.Tick) : Option Execution :=
  match b, tick with
  | .replay _, tick =>
    some ⟨tick.sellOrderNo, tick.timestamp < 93000000, tick.timestamp, tick.price, tick.quantity⟩
  | .ne .SH, tick =>
    some ⟨Word.toSigned 32 (TickMergeSse.sellOrderNo tick), TickMergeSse.tickTime tick < 9300000,
      Word.toSigned 32 (Word.toUnsigned 32 (TickMergeSse.tickTime tick * 10)),
      Word.toSigned 32 ↑(TickMergeSse.price tick / 10),
      Word.toSigned 32 ↑(TickMergeSse.qty tick / 1000)⟩
  | .ne .SZ, tick =>
    let timestamp := Word.toSigned 32 ↑(TradeSz.transactTime tick % 1000000000)
    some ⟨Word.toSigned 32 (TradeSz.offerapplSeqnum tick), timestamp < 93000000, timestamp,
      Word.toSigned 32 ↑(TradeSz.tradePrice tick / 100),
      Word.toSigned 32 ↑(TradeSz.tradeQty tick / 100)⟩
  | .ost _, _ => none

/-- The trades that a compute handles; the end sign stops it. -/
def executions (b : Build) : List b.Tick → List Execution
  | [] => []
  | tick :: ticks =>
    match dispatch b tick with
    | some (.logLimitUp _ _) => []
    | some .onTrade => (execution b tick).toList ++ executions b ticks
    | _ => executions b ticks

/-- The volume of the opening auction. -/
def openingVolume (es : List Execution) : ℤ :=
  ((es.filter (·.openCall)).map (·.quantity)).sum

/-- The price of the opening auction; without one, the previous close. -/
def openingPrice (preClosePrice : ℤ) (es : List Execution) : ℤ :=
  ((es.filter (·.openCall)).getLast?.map (·.price)).getD preClosePrice

/-- Volumes and amounts of continuous trading. -/
def deals (es : List Execution) : List (ℤ × ℤ) :=
  (es.filter (!·.openCall)).map fun e => (e.quantity, e.price * e.quantity)

/-- Volume and amount of continuous trading. -/
def continuous (es : List Execution) : ℤ × ℤ := (deals es).sum

/-- The sizes of the volumes of the opening auction. -/
def openingGross (es : List Execution) : ℤ :=
  ((es.filter (·.openCall)).map fun e => |e.quantity|).sum

/-- The sizes of the volumes and amounts of continuous trading. -/
def continuousGross (es : List Execution) : ℤ × ℤ := ((deals es).map Word.sizes).sum

/-- No sum over the trades outgrows 64 bits. -/
structure TradesFit (es : List Execution) : Prop where
  opening : openingGross es < 2 ^ 63
  continuous : Word.Fits (continuousGross es)

theorem openingGross_append (es es' : List Execution) :
    openingGross (es ++ es') = openingGross es + openingGross es' := by
  simp [openingGross]

theorem deals_append (es es' : List Execution) : deals (es ++ es') = deals es ++ deals es' := by
  simp [deals]

theorem continuousGross_append (es es' : List Execution) :
    continuousGross (es ++ es') = continuousGross es + continuousGross es' := by
  simp [continuousGross, deals_append]

theorem openingGross_nonneg (es : List Execution) : 0 ≤ openingGross es := by
  refine List.sum_nonneg fun x hx => ?_
  obtain ⟨e, -, rfl⟩ := List.mem_map.1 hx
  exact abs_nonneg _

theorem TradesFit.of_prefix {es es' : List Execution} (h : TradesFit es') (hes : es <+: es') :
    TradesFit es := by
  obtain ⟨r, rfl⟩ := hes
  obtain ⟨hopening, hcontinuous⟩ := h
  rw [openingGross_append] at hopening
  rw [continuousGross_append] at hcontinuous
  have hr := openingGross_nonneg r
  exact ⟨by omega, hcontinuous.mono (le_add_of_nonneg_right (Word.sum_sizes_nonneg _))⟩

theorem abs_openingVolume_le (es : List Execution) : |openingVolume es| ≤ openingGross es :=
  Word.abs_sum_map_le _ _

/-- Volume and amount of a snapshot. -/
def Snapshot.total (s : Snapshot) : ℤ × ℤ := (s.volume, s.amount)

theorem Snapshot.total_count (s : Snapshot) (price quantity : ℤ) :
    (s.count price quantity).total = Word.hold (s.total + (quantity, price * quantity)) := rfl

variable [FactorScalar R]

theorem StockCompute.onTrade_eq (b : Build) (c : StockCompute R) (tick : b.Tick) :
    c.onTrade b tick = match execution b tick with
      | none => some c
      | some e => c.onTradeOf e.sellOrderNo e.openCall e.timestamp e.price e.quantity := by
  rcases b with _ | ⟨_ | _⟩ | _
  · rw [onTrade, onTradeReplay, execution]
  · rw [onTrade, onTradeNeSh, execution]
  · rw [onTrade, onTradeNeSz, execution]
  · rw [onTrade, execution]

/-! ## The series -/

namespace FState
variable {f g : FState R} {timestamp : ℤ}

/-- What every snapshot and every clock keeps, `stepSnapshotUntil` keeps. -/
theorem stepSnapshotLoop_induct {P : FState R → Prop}
    (hstep : ∀ {f g : FState R}, P f → f.stepSnapshot = some g → P g)
    (hclock : ∀ {f : FState R} (t : ℤ), P f → P { f with nextTickTimestamp := t }) {fuel : ℕ}
    (hf : P f) (h : stepSnapshotLoop fuel timestamp f = some g) : P g := by
  induction fuel generalizing f with
  | zero => exact absurd h (by simp [stepSnapshotLoop])
  | succ fuel ih =>
    rw [stepSnapshotLoop] at h
    split at h
    case isTrue =>
      obtain ⟨f', hf', h⟩ := Option.bind_eq_some_iff.1 h
      exact ih (hstep (hclock _ hf) hf') h
    case isFalse =>
      obtain rfl := Option.some.inj h
      exact hclock _ hf

theorem stepSnapshotUntil_induct {P : FState R → Prop}
    (hstep : ∀ {f g : FState R}, P f → f.stepSnapshot = some g → P g)
    (hclock : ∀ {f : FState R} (t : ℤ), P f → P { f with nextTickTimestamp := t })
    (hf : P f) (h : f.stepSnapshotUntil timestamp = some g) : P g := by
  rw [stepSnapshotUntil] at h
  split at h
  case isTrue =>
    obtain ⟨f', hf', h⟩ := Option.bind_eq_some_iff.1 h
    exact stepSnapshotLoop_induct hstep hclock (hstep hf hf') h
  case isFalse =>
    obtain rfl := Option.some.inj h
    exact hf

theorem stepSnapshot_eq_some (h : f.stepSnapshot = some g) : g = f.recorded := by
  have hi : f.iirState.isSome := by
    by_contra hn
    rw [Option.not_isSome_iff_eq_none] at hn
    simp [stepSnapshot, hn] at h
  exact (Option.some.inj ((stepSnapshot_eq hi).symm.trans h)).symm

/-- What a trade handler does to the series. -/
theorem addRealTrade_eq_some {price quantity : ℤ}
    (h : f.addRealTrade timestamp price quantity = some g) :
    ∃ f', f.stepSnapshotUntil timestamp = some f' ∧ g = f'.countTrade price quantity := by
  obtain ⟨f', hf', hg⟩ := Option.bind_eq_some_iff.1 h
  exact ⟨f', hf', (Option.some.inj hg).symm⟩

omit [FactorScalar R] in
/-- Volumes and amounts of the snapshots, and of the current one. -/
def totals (f : FState R) : List (ℤ × ℤ) :=
  f.snapshots.map Snapshot.total ++ [f.currSnapshot.total]

omit [FactorScalar R] in
def traded (f : FState R) : ℤ × ℤ := f.totals.sum

omit [FactorScalar R] in
/-- Their sizes. -/
def gross (f : FState R) : ℤ × ℤ := (f.totals.map Word.sizes).sum

theorem totals_recorded (f : FState R) : f.recorded.totals = f.totals ++ [0] := by
  simp [totals, recorded, nextSlot, Snapshot.total]

/-- Slots that pass add nothing. -/
theorem stepSnapshotUntil_traded (h : f.stepSnapshotUntil timestamp = some g) :
    g.traded = f.traded ∧ g.gross = f.gross := by
  refine stepSnapshotUntil_induct
    (P := fun g => g.traded = f.traded ∧ g.gross = f.gross) ?_ (fun _ h => h) ⟨rfl, rfl⟩ h
  rintro f' g' ⟨htraded, hgross⟩ hg'
  rw [stepSnapshot_eq_some hg', ← htraded, ← hgross]
  simp [traded, gross, totals_recorded, Word.sizes]

omit [FactorScalar R] in
/-- A trade that fits is added to the current snapshot. -/
theorem total_countTrade {price quantity : ℤ}
    (hfit : Word.Fits (f.gross + Word.sizes (quantity, price * quantity))) :
    (f.countTrade price quantity).currSnapshot.total =
      f.currSnapshot.total + (quantity, price * quantity) := by
  have hle : Word.sizes f.currSnapshot.total ≤ f.gross := Word.sizes_le_sum (by simp [totals])
  exact (Snapshot.total_count _ _ _).trans
    (Word.hold_eq (hfit.mono ((Word.sizes_add_le _ _).trans (by gcongr))))

omit [FactorScalar R] in
theorem totals_countTrade {price quantity : ℤ}
    (hfit : Word.Fits (f.gross + Word.sizes (quantity, price * quantity))) :
    (f.countTrade price quantity).totals = f.snapshots.map Snapshot.total ++
      [f.currSnapshot.total + (quantity, price * quantity)] := by
  rw [totals, total_countTrade hfit]
  rfl

/-- A trade that fits is added to the series. -/
theorem addRealTrade_traded {price quantity : ℤ}
    (hfit : Word.Fits (f.gross + Word.sizes (quantity, price * quantity)))
    (h : f.addRealTrade timestamp price quantity = some g) :
    g.traded = f.traded + (quantity, price * quantity) ∧
      g.gross ≤ f.gross + Word.sizes (quantity, price * quantity) := by
  obtain ⟨f', hf', rfl⟩ := addRealTrade_eq_some h
  obtain ⟨htraded, hgross⟩ := stepSnapshotUntil_traded hf'
  rw [← hgross] at hfit
  rw [← htraded, ← hgross]
  have hcurr := totals_countTrade hfit
  constructor
  · rw [traded, hcurr]
    simp only [traded, totals, List.sum_append, List.sum_singleton, add_assoc]
  · rw [gross, hcurr]
    simp only [gross, totals, List.map_append, List.sum_append, List.map_singleton,
      List.sum_singleton, add_assoc]
    gcongr
    exact Word.sizes_add_le _ _

end FState

/-! ## Accounts -/

namespace StockCompute
variable {b : Build} {c d : StockCompute R} {es : List Execution}

omit [FactorScalar R] in
/-- The compute holds the trades, each once. -/
structure Account (c : StockCompute R) (es : List Execution) : Prop where
  openVolume : c.openVolume = openingVolume es
  openPrice : c.openPrice = openingPrice c.preClosePrice es
  traded : c.fState.traded = continuous es
  gross : c.fState.gross ≤ continuousGross es

omit [FactorScalar R] in
theorem Account.of_frame (h : c.Account es) (hv : d.openVolume = c.openVolume)
    (hp : d.openPrice = c.openPrice) (hc : d.preClosePrice = c.preClosePrice)
    (hf : d.fState = c.fState) : d.Account es :=
  ⟨hv ▸ h.openVolume, hp ▸ hc ▸ h.openPrice, hf ▸ h.traded, hf ▸ h.gross⟩

omit [FactorScalar R] in
theorem Account.congr (h : c.Account es) (hcd : d.settled = c.settled) : d.Account es :=
  h.of_frame (congrArg (fun c => c.openVolume) hcd) (congrArg (fun c => c.openPrice) hcd)
    (congrArg (fun c => c.preClosePrice) hcd) (congrArg (fun c => c.fState) hcd)

theorem Account.start {s : StockState} (hs : s.alive) :
    Account (StockCompute.start {} s : StockCompute R) [] := by
  rw [StockCompute.start, if_pos hs]
  exact ⟨rfl, rfl, rfl, le_rfl⟩

omit [FactorScalar R] in
/-- A trade of continuous trading fits with the series. -/
theorem Account.fits (h : c.Account es) {no timestamp price quantity : ℤ}
    (hfit : TradesFit (es ++ [⟨no, false, timestamp, price, quantity⟩])) :
    Word.Fits (c.fState.gross + Word.sizes (quantity, price * quantity)) := by
  have hcontinuous := hfit.continuous
  rw [continuousGross_append] at hcontinuous
  refine hcontinuous.mono (add_le_add h.gross (le_of_eq ?_))
  simp [continuousGross, deals]

/-- **A trade is counted once**, in the opening auction or in the series. -/
theorem Account.onTradeOf (h : c.Account es) {e : Execution} (hfit : TradesFit (es ++ [e]))
    (hd : c.onTradeOf e.sellOrderNo e.openCall e.timestamp e.price e.quantity = some d) :
    d.Account (es ++ [e]) := by
  obtain ⟨no, openCall, timestamp, price, quantity⟩ := e
  cases openCall with
  | true =>
    obtain rfl := Option.some.inj hd
    have hheld : Word.toSigned 64 (openingVolume es + quantity) = openingVolume es + quantity := by
      refine Word.toSigned_of_abs_lt
        ((abs_add_le _ _).trans_lt (lt_of_le_of_lt ?_ hfit.opening))
      simpa [openingGross_append, openingGross] using abs_openingVolume_le es
    refine ⟨?_, by simp [openingPrice], ?_, ?_⟩
    · show Word.toSigned 64 (c.openVolume + quantity) = _
      rw [h.openVolume, hheld]
      simp [openingVolume]
    · refine Eq.trans (b := c.fState.traded) rfl ?_
      rw [h.traded]
      simp [continuous, deals]
    · refine le_trans (b := c.fState.gross) le_rfl (h.gross.trans ?_)
      simp [continuousGross, deals]
  | false =>
    rw [onTradeOf_false] at hd
    obtain ⟨f, hf, rfl⟩ := Option.map_eq_some_iff.1 hd
    have hdeal : deals [⟨no, false, timestamp, price, quantity⟩] = [(quantity, price * quantity)] :=
      rfl
    obtain ⟨htraded, hle⟩ := FState.addRealTrade_traded (h.fits hfit) hf
    refine ⟨?_, ?_, ?_, ?_⟩
    · simpa [openingVolume] using h.openVolume
    · simpa [openingPrice] using h.openPrice
    · show f.traded = _
      rw [htraded, h.traded, continuous, continuous, deals_append, hdeal, List.sum_append,
        List.sum_singleton]
    · show f.gross ≤ _
      rw [continuousGross_append]
      refine hle.trans (add_le_add h.gross (le_of_eq ?_))
      simp [continuousGross, hdeal]

theorem onTradeOf_frame {no timestamp price quantity : ℤ} {openCall : Bool}
    (h : c.onTradeOf no openCall timestamp price quantity = some d) :
    d.alive = c.alive ∧ d.preClosePrice = c.preClosePrice ∧
      d.upperLimitPrice = c.upperLimitPrice ∧
      d.upperLimitPriceApproach = c.upperLimitPriceApproach := by
  cases openCall with
  | true =>
    obtain rfl := Option.some.inj h
    exact ⟨rfl, rfl, rfl, rfl⟩
  | false =>
    rw [onTradeOf_false] at h
    obtain ⟨f, -, rfl⟩ := Option.map_eq_some_iff.1 h
    exact ⟨rfl, rfl, rfl, rfl⟩

/-- What a tick does to a compute. -/
inductive Handled (b : Build) (c : StockCompute R) (tick : b.Tick) : StockCompute R → Prop
  | dead : ¬c.alive → Handled b c tick c
  | ignored : c.alive → dispatch b tick = none → Handled b c tick c
  | stopped {timestamp intent : ℤ} : c.alive →
      dispatch b tick = some (.logLimitUp timestamp intent) → Handled b c tick c.stop
  | order {m : UpSellOrders} : c.alive → dispatch b tick = some .onOrder →
      c.onOrder b tick = { c with upSellOrders := m } →
      Handled b c tick { c with upSellOrders := m }
  | cancel {m : UpSellOrders} : c.alive → dispatch b tick = some .onCancel →
      c.onCancel b tick = { c with upSellOrders := m } →
      Handled b c tick { c with upSellOrders := m }
  | unread : c.alive → dispatch b tick = some .onTrade → execution b tick = none →
      Handled b c tick c
  | trade {e : Execution} {d : StockCompute R} : c.alive → dispatch b tick = some .onTrade →
      execution b tick = some e →
      c.onTradeOf e.sellOrderNo e.openCall e.timestamp e.price e.quantity = some d →
      Handled b c tick d

theorem onTick_handled {tick : b.Tick} (h : c.onTick b tick = some d) : Handled b c tick d := by
  rw [onTick, calls] at h
  by_cases ha : c.alive
  case neg =>
    rw [if_neg ha] at h
    obtain rfl := Option.some.inj h
    exact .dead ha
  rw [if_pos ha] at h
  cases hdispatch : dispatch b tick with
  | none =>
    rw [hdispatch] at h
    obtain rfl := Option.some.inj h
    exact .ignored ha hdispatch
  | some call =>
    rw [hdispatch] at h
    cases call with
    | logLimitUp timestamp intent =>
      obtain rfl := Option.some.inj h
      exact .stopped ha hdispatch
    | onOrder =>
      obtain ⟨m, hm⟩ := c.onOrder_eq b tick
      obtain rfl := (Option.some.inj h).symm.trans hm
      exact .order ha hdispatch hm
    | onCancel =>
      obtain ⟨m, hm⟩ := c.onCancel_eq b tick
      obtain rfl := (Option.some.inj h).symm.trans hm
      exact .cancel ha hdispatch hm
    | onTrade =>
      replace h : c.onTrade b tick = some d := h
      rw [onTrade_eq] at h
      cases he : execution b tick with
      | none =>
        rw [he] at h
        obtain rfl := Option.some.inj h
        exact .unread ha hdispatch he
      | some e =>
        rw [he] at h
        exact .trade ha hdispatch he h

/-- A stock that has stopped ignores its ticks. -/
theorem runTicks_of_not_alive {ticks : List b.Tick} (hc : ¬ c.alive) :
    c.runTicks b ticks = some c := by
  induction ticks with
  | nil => rfl
  | cons tick ticks ih =>
    have htick : c.onTick b tick = some c := by rw [onTick, calls, if_neg hc]
    rw [runTicks, htick]
    exact ih

/-- The prices of the day stay. -/
theorem runTicks_frame {ticks : List b.Tick} (hd : c.runTicks b ticks = some d) :
    d.preClosePrice = c.preClosePrice ∧ d.upperLimitPrice = c.upperLimitPrice ∧
      d.upperLimitPriceApproach = c.upperLimitPriceApproach := by
  induction ticks generalizing c with
  | nil =>
    obtain rfl := Option.some.inj hd
    exact ⟨rfl, rfl, rfl⟩
  | cons tick ticks ih =>
    obtain ⟨c', hc', hd⟩ := Option.bind_eq_some_iff.1 hd
    obtain ⟨hclose, hupper, happroach⟩ := ih hd
    rw [hclose, hupper, happroach]
    cases onTick_handled hc' with
    | dead | ignored | stopped | order | cancel | unread => exact ⟨rfl, rfl, rfl⟩
    | trade _ _ _ htrade => exact (onTradeOf_frame htrade).2

/-- **What orders, cancels and the end sign keep, and trades extend, holds after any ticks.**
    `Q` is what is known of the ticks, and `all` their trades after those of before. -/
theorem runTicks_induct {P : List Execution → StockCompute R → Prop} {Q : b.Tick → Prop}
    {all : List Execution} (hstop : ∀ {es} {c : StockCompute R}, P es c → P es c.stop)
    (horder : ∀ {es} {c : StockCompute R} {tick m}, Q tick → dispatch b tick = some .onOrder →
      c.onOrder b tick = { c with upSellOrders := m } → P es c → P es { c with upSellOrders := m })
    (hcancel : ∀ {es} {c : StockCompute R} {tick m}, Q tick → dispatch b tick = some .onCancel →
      c.onCancel b tick = { c with upSellOrders := m } → P es c → P es { c with upSellOrders := m })
    (htrade : ∀ {es} {c d : StockCompute R} {e}, es ++ [e] <+: all →
      c.onTradeOf e.sellOrderNo e.openCall e.timestamp e.price e.quantity = some d →
      P es c → P (es ++ [e]) d)
    {ticks : List b.Tick} (hticks : ∀ tick ∈ ticks, Q tick) (hes : es ++ executions b ticks = all)
    (ha : c.alive) (h : P es c) (hd : c.runTicks b ticks = some d) : P all d := by
  induction ticks generalizing c es with
  | nil =>
    obtain rfl := Option.some.inj hd
    rwa [← hes, executions, List.append_nil]
  | cons tick ticks ih =>
    obtain ⟨c', hc', hd⟩ := Option.bind_eq_some_iff.1 hd
    obtain ⟨htick, hticks⟩ := List.forall_mem_cons.1 hticks
    rw [executions] at hes
    cases onTick_handled hc' with
    | dead hn => exact absurd ha hn
    | ignored _ hdispatch =>
      simp only [hdispatch] at hes
      exact ih hticks hes ha h hd
    | stopped _ hdispatch =>
      rw [runTicks_of_not_alive (by simp [StockCompute.stop])] at hd
      obtain rfl := Option.some.inj hd
      simp only [hdispatch, List.append_nil] at hes
      exact hes ▸ hstop h
    | @order m _ hdispatch hm =>
      simp only [hdispatch] at hes
      exact ih (c := { c with upSellOrders := m }) hticks hes ha (horder htick hdispatch hm h) hd
    | @cancel m _ hdispatch hm =>
      simp only [hdispatch] at hes
      exact ih (c := { c with upSellOrders := m }) hticks hes ha (hcancel htick hdispatch hm h) hd
    | unread _ hdispatch he =>
      simp only [hdispatch, he, Option.toList_none, List.nil_append] at hes
      exact ih hticks hes ha h hd
    | @trade e _ _ hdispatch he htraded =>
      simp only [hdispatch, he, Option.toList_some, ← List.append_assoc] at hes
      exact ih hticks hes ((onTradeOf_frame htraded).1.trans ha)
        (htrade ⟨_, hes⟩ htraded h) hd

/-- **After any ticks whose trades fit, the series is made of them.** -/
theorem Account.runTicks {ticks : List b.Tick} (ha : c.alive) (h : c.Account es)
    (hfit : TradesFit (es ++ executions b ticks)) (hd : c.runTicks b ticks = some d) :
    d.Account (es ++ executions b ticks) :=
  runTicks_induct (P := fun es c => c.Account es) (Q := fun _ => True)
    (fun h => h.of_frame rfl rfl rfl rfl) (fun _ _ _ h => h.of_frame rfl rfl rfl rfl)
    (fun _ _ _ h => h.of_frame rfl rfl rfl rfl)
    (fun hpre htrade h => h.onTradeOf (hfit.of_prefix hpre) htrade) (fun _ _ => trivial) rfl ha h hd

/-- What snapshots and clocks keep of the series, whatever the current snapshot is, ticks
    keep. -/
theorem runTicks_fState {P : FState R → Prop} (hrecorded : ∀ f : FState R, P f → P f.recorded)
    (hclock : ∀ {f : FState R} (t : ℤ), P f → P { f with nextTickTimestamp := t })
    (hcurr : ∀ {f : FState R} (s : Snapshot), P f → P { f with currSnapshot := s })
    {ticks : List b.Tick} (h : P c.fState) (hd : c.runTicks b ticks = some d) : P d.fState := by
  by_cases ha : c.alive
  case neg =>
    rw [runTicks_of_not_alive ha] at hd
    obtain rfl := Option.some.inj hd
    exact h
  refine runTicks_induct (P := fun _ c => P c.fState) (Q := fun _ => True) (fun h => h)
    (fun _ _ _ h => h) (fun _ _ _ h => h) ?_ (fun _ _ => trivial)
    (List.nil_append (executions b ticks)) ha h hd
  rintro es c d ⟨no, openCall, timestamp, price, quantity⟩ - htrade h
  cases openCall with
  | true =>
    obtain rfl := Option.some.inj htrade
    exact hcurr _ h
  | false =>
    rw [onTradeOf_false] at htrade
    obtain ⟨f, hf, rfl⟩ := Option.map_eq_some_iff.1 htrade
    obtain ⟨f', hf', rfl⟩ := FState.addRealTrade_eq_some hf
    exact hcurr _ (FState.stepSnapshotUntil_induct
      (fun hg hg' => FState.stepSnapshot_eq_some hg' ▸ hrecorded _ hg) hclock h hf')

/-! ## The state in which the model is asked -/

/-- The series passes to the slot, the tracked orders are bought, and the slot is recorded. -/
theorem speculate_eq_some (h : c.speculate = some d) :
    ∃ bState f, c.fState.stepSnapshotUntil c.futureTimestamp = some f ∧
      d = { c with
        bState
        fState := FState.recorded { f with currSnapshot :=
          { buyUpSellOrders c.upSellOrders f.currSnapshot with
            lastPrice := c.upperLimitPrice } } } := by
  obtain ⟨c', hsave, h⟩ := Option.bind_eq_some_iff.1 h
  obtain ⟨f, hf, h⟩ := Option.bind_eq_some_iff.1 h
  obtain ⟨g, hg, h⟩ := Option.bind_eq_some_iff.1 h
  obtain rfl := Option.some.inj h
  rw [saveSnapshot] at hsave
  split at hsave
  case h_1 iirState _ hi _ =>
    obtain rfl := Option.some.inj hsave
    have hsame : { c.fState with iirState := some iirState } = c.fState := by rw [← hi]
    rw [FState.stepSnapshot_eq_some hg]
    exact ⟨_, f, hsame ▸ hf, rfl⟩
  case h_2 => exact absurd hsave (by simp)

omit [FactorScalar R] in
/-- Volumes and amounts of the tracked orders. -/
def sells (c : StockCompute R) : List (ℤ × ℤ) :=
  c.upSellOrders.toList.map fun p => (p.2.quantity, p.2.price * p.2.quantity)

omit [FactorScalar R] in
/-- Volume and amount of the tracked orders. -/
def tracked (c : StockCompute R) : ℤ × ℤ := c.sells.sum

omit [FactorScalar R] in
/-- No sum that the bins are made of outgrows 64 bits. -/
structure AskedFit (c : StockCompute R) (es : List Execution) : Prop where
  opening : openingGross es < 2 ^ 63
  bins : Word.Fits (Word.sizes (openingVolume es,
    openingVolume es * openingPrice c.preClosePrice es) + continuousGross es +
      (c.sells.map Word.sizes).sum)

omit [FactorScalar R] in
theorem AskedFit.trades (h : c.AskedFit es) : TradesFit es := by
  refine ⟨h.opening, h.bins.mono ?_⟩
  calc continuousGross es ≤ Word.sizes (openingVolume es,
        openingVolume es * openingPrice c.preClosePrice es) + continuousGross es :=
        le_add_of_nonneg_left (Word.sizes_nonneg _)
    _ ≤ _ := le_add_of_nonneg_right (Word.sum_sizes_nonneg _)

omit [FactorScalar R] in
theorem total_buyUpSellOrders (c : StockCompute R) (curr : Snapshot) :
    (buyUpSellOrders c.upSellOrders curr).total =
      c.sells.foldl (fun s x => Word.hold (s + x)) curr.total := by
  rw [buyUpSellOrders, Std.ExtTreeMap.foldl_eq_foldl_toList, sells, List.foldl_map]
  induction c.upSellOrders.toList using List.reverseRecOn with
  | nil => rfl
  | append_singleton orders p ih =>
    rw [List.foldl_append, List.foldl_append, ← ih]
    exact Snapshot.total_count _ _ _

/-- Tracked orders that fit are added to the slot that is bought in. -/
theorem speculate_totals (hfit : Word.Fits (c.fState.gross + (c.sells.map Word.sizes).sum))
    (h : c.speculate = some d) :
    ∃ f, c.fState.stepSnapshotUntil c.futureTimestamp = some f ∧
      d.fState.snapshots.map Snapshot.total =
        f.snapshots.map Snapshot.total ++ [f.currSnapshot.total + c.tracked] := by
  obtain ⟨bState, f, hf, rfl⟩ := speculate_eq_some h
  rw [← (FState.stepSnapshotUntil_traded hf).2] at hfit
  have hle : Word.sizes f.currSnapshot.total ≤ f.gross :=
    Word.sizes_le_sum (by simp [FState.totals])
  have hbuy : (buyUpSellOrders c.upSellOrders f.currSnapshot).total =
      f.currSnapshot.total + c.tracked := by
    rw [total_buyUpSellOrders, Word.foldl_hold (hfit.mono (by gcongr)), tracked]
  refine ⟨f, hf, ?_⟩
  rw [← hbuy]
  exact List.map_append

/-- **The model is asked with the series and the tracked orders.** -/
theorem speculate_traded (hfit : Word.Fits (c.fState.gross + (c.sells.map Word.sizes).sum))
    (h : c.speculate = some d) :
    (d.fState.snapshots.map Snapshot.total).sum = c.fState.traded + c.tracked ∧
      ((d.fState.snapshots.map Snapshot.total).map Word.sizes).sum ≤
        c.fState.gross + (c.sells.map Word.sizes).sum := by
  obtain ⟨f, hf, hsnapshots⟩ := speculate_totals hfit h
  obtain ⟨htraded, hgross⟩ := FState.stepSnapshotUntil_traded hf
  rw [← htraded, ← hgross]
  simp only [hsnapshots, FState.traded, FState.gross, FState.totals, List.map_append,
    List.sum_append, List.map_singleton, List.sum_singleton, add_assoc, true_and]
  gcongr
  exact (Word.sizes_add_le _ _).trans (by gcongr; exact Word.sizes_sum_le _)

/-! ## The bins -/

omit [FactorScalar R] in
/-- The opening auction fits 64 bits with the series. -/
def BinsFit (c : StockCompute R) : Prop :=
  Word.Fits (Word.sizes (c.openVolume, c.openVolume * c.openPrice) +
    ((c.fState.snapshots.map Snapshot.total).map Word.sizes).sum)

omit [FactorScalar R] in
theorem sum_modify {α : Type} [AddCommMonoid α] (l : List α) {i : ℕ} (hi : i < l.length) (a : α) :
    (l.modify i (· + a)).sum = l.sum + a := by
  induction l generalizing i with
  | nil => exact absurd hi (Nat.not_lt_zero i)
  | cons b l ih =>
    cases i with
    | zero => rw [List.modify_zero_cons, List.sum_cons, List.sum_cons, add_right_comm]
    | succ i =>
      rw [List.modify_succ_cons, List.sum_cons, ih (Nat.lt_of_succ_lt_succ hi), List.sum_cons,
        add_assoc]

omit [FactorScalar R] in
theorem sizes_modify_le (l : List (ℤ × ℤ)) (i : ℕ) (a : ℤ × ℤ) :
    ((l.modify i (· + a)).map Word.sizes).sum ≤ (l.map Word.sizes).sum + Word.sizes a := by
  induction l generalizing i with
  | nil => simpa using Word.sizes_nonneg a
  | cons b l ih =>
    cases i with
    | zero =>
      rw [List.modify_zero_cons, List.map_cons, List.map_cons, List.sum_cons, List.sum_cons,
        add_right_comm]
      gcongr
      exact Word.sizes_add_le b a
    | succ i =>
      rw [List.modify_succ_cons, List.map_cons, List.map_cons, List.sum_cons, List.sum_cons,
        add_assoc]
      gcongr
      exact ih i

omit [FactorScalar R] in
theorem modify_hold {l : List (ℤ × ℤ)} {a : ℤ × ℤ}
    (hfit : Word.Fits ((l.map Word.sizes).sum + Word.sizes a)) (i : ℕ) :
    l.modify i (fun b => Word.hold (b + a)) = l.modify i (· + a) := by
  refine List.ext_getElem (by simp) fun n h h' => ?_
  rw [List.getElem_modify, List.getElem_modify]
  have hn : n < l.length := by simpa using h
  have hle := Word.sizes_le_sum (List.getElem_mem hn)
  rw [Word.hold_eq (hfit.mono ((Word.sizes_add_le _ _).trans (by gcongr)))]

omit [FactorScalar R] in
/-- The loop over the snapshots, whose sums fit. -/
theorem gather_eq {ss : List (Snapshot × ℕ)} {g : List (ℤ × ℤ)}
    (hfit : Word.Fits ((g.map Word.sizes).sum +
      ((ss.map fun p => p.1.total).map Word.sizes).sum)) :
    ss.foldl (fun g p => g.modify (p.2 / 5) fun b => Word.hold (b + p.1.total)) g =
      ss.foldl (fun g p => g.modify (p.2 / 5) (· + p.1.total)) g := by
  induction ss generalizing g with
  | nil => rfl
  | cons p ss ih =>
    rw [List.map_cons, List.map_cons, List.sum_cons, ← add_assoc] at hfit
    rw [List.foldl_cons, List.foldl_cons, modify_hold
      (hfit.mono (le_add_of_nonneg_right (Word.sum_sizes_nonneg _)))]
    exact ih (hfit.mono (by gcongr; exact sizes_modify_le _ _ _))

omit [FactorScalar R] in
/-- **The bins, whose sums fit.** -/
theorem gatherBins_eq {c : StockCompute R} (hfit : c.BinsFit) :
    c.gatherBins = c.fState.snapshots.zipIdx.foldl
      (fun g p => g.modify (p.2 / 5) (· + p.1.total))
      ((List.replicate (c.fState.snapshots.length / 5 + 1) (0, 0)).set 0
        (c.openVolume, c.openVolume * c.openPrice)) := by
  have hopen : Word.toSigned 64 (c.openVolume * c.openPrice) = c.openVolume * c.openPrice :=
    Word.toSigned_of_abs_lt
      (hfit.mono (le_add_of_nonneg_right (Word.sum_sizes_nonneg _))).2
  rw [gatherBins, hopen]
  refine gather_eq (hfit.mono (le_of_eq ?_))
  congr 1
  · rw [List.replicate_succ, List.set_cons_zero, List.map_cons, List.sum_cons, List.map_replicate]
    simp [Word.sizes]
  · conv_rhs => rw [← List.zipIdx_map_fst 0 c.fState.snapshots, List.map_map (f := Prod.fst)]
    rfl

omit [FactorScalar R] in
/-- What the loop over the snapshots adds to the bins; a snapshot belongs to one of them. -/
theorem sum_gather (ss : List (Snapshot × ℕ)) (g : List (ℤ × ℤ))
    (h : ∀ p ∈ ss, p.2 / 5 < g.length) :
    (ss.foldl (fun g p => g.modify (p.2 / 5) (· + p.1.total)) g).sum =
      g.sum + (ss.map fun p => p.1.total).sum := by
  induction ss generalizing g with
  | nil => simp
  | cons p ss ih =>
    have hp := h p List.mem_cons_self
    rw [List.foldl_cons, ih _ fun q hq => by
      rw [List.length_modify]; exact h q (List.mem_cons_of_mem p hq)]
    rw [sum_modify g hp, List.map_cons, List.sum_cons, add_assoc]

omit [FactorScalar R] in
theorem sum_gatherBins {c : StockCompute R} (hfit : c.BinsFit) :
    c.gatherBins.sum = (c.openVolume, c.openVolume * c.openPrice) +
      (c.fState.snapshots.map Snapshot.total).sum := by
  rw [gatherBins_eq hfit, sum_gather]
  · congr 1
    · rw [List.replicate_succ, List.set_cons_zero, List.sum_cons]
      simp
    · conv_rhs => rw [← List.zipIdx_map_fst 0 c.fState.snapshots, List.map_map]
      rfl
  · rintro p hp
    have hlt := List.snd_lt_of_mem_zipIdx hp
    rw [List.length_set, List.length_replicate]
    omega

omit [FactorScalar R] in
theorem vwapBins_gathered (lastVWAP : ℚ) (g : List (ℤ × ℤ)) :
    (vwapBins lastVWAP g).map (fun b => (b.volume, b.amount)) = g := by
  induction g generalizing lastVWAP with
  | nil => rfl
  | cons p g ih => rw [vwapBins, List.map_cons, ih]

omit [FactorScalar R] in
/-- **The bins hold the opening auction and the snapshots.** -/
theorem sum_bins {c : StockCompute R} (hfit : c.BinsFit) :
    ((c.bins.map Bin.volume).sum, (c.bins.map Bin.amount).sum) =
      (c.openVolume, c.openVolume * c.openPrice) +
        (c.fState.snapshots.map Snapshot.total).sum := by
  rw [← sum_gatherBins hfit, ← vwapBins_gathered c.openPrice c.gatherBins]
  rw [bins]
  induction vwapBins c.openPrice c.gatherBins with
  | nil => rfl
  | cons b bs ih =>
    rw [List.map_cons, List.map_cons, List.map_cons, List.sum_cons, List.sum_cons, List.sum_cons,
      ← ih]
    rfl

omit [FactorScalar R] in
/-- The tracked orders fit with the series. -/
theorem Account.seriesFit (h : c.Account es) (hfit : c.AskedFit es) :
    Word.Fits (c.fState.gross + (c.sells.map Word.sizes).sum) := by
  refine hfit.bins.mono ?_
  gcongr
  exact h.gross.trans (le_add_of_nonneg_left (Word.sizes_nonneg _))

/-- The sums of the bins fit if those of the trades and the tracked orders do. -/
theorem Account.binsFit (h : c.Account es) (hfit : c.AskedFit es) (hs : c.speculate = some d) :
    d.BinsFit := by
  have hsnapshots := (speculate_traded (h.seriesFit hfit) hs).2
  have hbins := hfit.bins
  rw [← h.openVolume, ← h.openPrice, add_assoc] at hbins
  obtain ⟨bState, f, -, rfl⟩ := speculate_eq_some hs
  refine hbins.mono ?_
  gcongr
  refine hsnapshots.trans ?_
  gcongr
  exact h.gross

/-- **The bins of the model** hold the opening auction, the series and the tracked orders. -/
theorem Account.sum_bins (h : c.Account es) (hfit : c.AskedFit es) (hs : c.speculate = some d) :
    ((d.bins.map Bin.volume).sum, (d.bins.map Bin.amount).sum) =
      (openingVolume es, openingVolume es * openingPrice c.preClosePrice es) + continuous es +
        c.tracked := by
  have hsum := StockCompute.sum_bins (h.binsFit hfit hs)
  rw [(speculate_traded (h.seriesFit hfit) hs).1] at hsum
  obtain ⟨bState, f, -, rfl⟩ := speculate_eq_some hs
  rw [hsum, h.traded, ← add_assoc, ← h.openVolume, ← h.openPrice]

theorem start_of_not_alive {s : StockState} (hs : ¬ s.alive) :
    StockCompute.start ({} : StockCompute R) s = {} := by
  rw [StockCompute.start, if_neg hs]

/-- The model is only asked for a stock that was alive at the start. -/
theorem alive_of_speculate {s : StockState} {e : StockCompute R} {ticks : List b.Tick}
    (hd : (StockCompute.start {} s).runTicks b ticks = some d) (hcd : c.settled = d.settled)
    (hs : c.speculate = some e) : s.alive := by
  by_contra hn
  rw [start_of_not_alive hn, runTicks_of_not_alive (by simp)] at hd
  obtain rfl := Option.some.inj hd
  have hi : c.fState.iirState = none := congrArg (fun c => c.fState.iirState) hcd
  rw [speculate, saveSnapshot, hi] at hs
  exact absurd hs (by simp)

theorem alive_start {s : StockState} (hs : s.alive) :
    (StockCompute.start {} s : StockCompute R).alive := by
  rw [StockCompute.start, if_pos hs]

end StockCompute

/-! ## The program -/

namespace Program
variable {b : Build} {p : Setup R} {w : Program b R} {c id : Int32} {asked : StockCompute R}

/-- The state in which the model is asked for the first or the second decision. -/
def Asked (w : Program b R) (id : Int32) (asked : StockCompute R) : Prop :=
  ∃ firstCompute, StockCompute.speculate { w.computes id with firstCompute } = some asked

/-- The compute of a stock that is asked is where its ticks have led it from the start. -/
theorem Reachable.alive_of_asked (hp : p.Valid) (hw : Reachable p w)
    (hid : InBounds p.stockCodes id) (hring : p.ring id = some c)
    (hmain : w.main.Computing id) (h : w.Asked id asked) :
    ∃ (s : StockState) (d : StockCompute R), s.alive ∧
      (StockCompute.start {} s).runTicks b (w.handled id) = some d ∧
      (w.computes id).settled = d.settled := by
  obtain ⟨s, d, hrun, hsettled⟩ := (hw.follower hp hid hring).computing hmain
  obtain ⟨firstCompute, hspec⟩ := h
  exact ⟨s, d, StockCompute.alive_of_speculate
    (c := { w.computes id with firstCompute }) hrun hsettled hspec, hrun, hsettled⟩

/-- The compute holds its trades, if they fit. -/
theorem Reachable.account (hp : p.Valid) (hw : Reachable p w) (hid : InBounds p.stockCodes id)
    (hring : p.ring id = some c) (hmain : w.main.Computing id) (hasked : w.Asked id asked)
    (hfit : TradesFit (executions b (w.handled id))) :
    (w.computes id).Account (executions b (w.handled id)) := by
  obtain ⟨s, d, hs, hrun, hsettled⟩ := hw.alive_of_asked hp hid hring hmain hasked
  exact ((StockCompute.Account.start hs).runTicks (StockCompute.alive_start hs) hfit hrun).congr
    hsettled

/-- **Every trade counts once in what the model is asked with.**  In every run of the
    program, at any time, the bins that the model would be asked with hold the opening
    auction, the trades of continuous trading that the compute was given before the end
    sign, and its tracked orders, and nothing else, as long as these fit 64 bits. -/
theorem program_accounts (hp : p.Valid) (hw : Reachable p w) (hid : InBounds p.stockCodes id)
    (hring : p.ring id = some c) (hmain : w.main.Computing id) (hasked : w.Asked id asked)
    (hfit : (w.computes id).AskedFit (executions b (w.handled id))) :
    let es := executions b (w.handled id)
    let opening := (openingVolume es,
      openingVolume es * openingPrice (w.computes id).preClosePrice es)
    ((asked.bins.map Bin.volume).sum, (asked.bins.map Bin.amount).sum) =
      opening + continuous es + (w.computes id).tracked := by
  intro es opening
  have haccount := hw.account hp hid hring hmain hasked hfit.trades
  obtain ⟨firstCompute, hspec⟩ := hasked
  exact (haccount.of_frame (d := { w.computes id with firstCompute }) rfl rfl rfl rfl).sum_bins
    ⟨hfit.opening, hfit.bins⟩ hspec

/-- Between two decisions, a stock that is alive can be asked. -/
theorem Reachable.exists_asked (hp : p.Valid) (hw : Reachable p w)
    (hid : InBounds p.stockCodes id) (hstarted : w.main.Started id) (ha : (w.computes id).alive)
    (ht : OnTick (w.computes id).futureTimestamp) : ∃ asked, w.Asked id asked := by
  obtain ⟨c, hring⟩ := hp.exists_ring hid
  have hsound := ((hw.refines hp hid hring).started hstarted).reachable.inv.compute.sound
  obtain ⟨f, r, -, -, hspec⟩ :=
    StockCompute.speculate_eq (hsound.onGrid ha) (hsound.bState ha) ht
  exact ⟨_, (w.computes id).firstCompute, hspec⟩

/-- After the ticks near the limit, an order of 300 at 1095 is tracked. -/
theorem program_accounts_two : ∃ (w : Program (.replay .SH) ℚ) (asked : StockCompute ℚ),
    Reachable twoStocks w ∧ w.handled 0 = nearLimitTicks ∧
    (w.computes 0).tracked = (300, 328500) ∧ w.Asked 0 asked ∧
    let es := executions (.replay .SH) (w.handled 0)
    let opening := (openingVolume es,
      openingVolume es * openingPrice (w.computes 0).preClosePrice es)
    ((asked.bins.map Bin.volume).sum, (asked.bins.map Bin.amount).sum) =
      opening + continuous es + (w.computes 0).tracked := by
  obtain ⟨w, hw, hmain, -, hhandled, ⟨ha, ht, hclose, -, horders⟩, -⟩ := exists_decided
  have hid : InBounds twoStocks.stockCodes 0 := ⟨by decide, by decide⟩
  obtain ⟨asked, hasked⟩ := hw.exists_asked valid_twoStocks hid (by rw [hmain]; trivial) ha
    (ht ▸ gridTime_onTick 2)
  have hsells : (w.computes 0).sells = [(300, 328500)] := by rw [StockCompute.sells, horders]; rfl
  have hfit : (w.computes 0).AskedFit (executions (.replay .SH) (w.handled 0)) := by
    rw [hhandled]
    exact ⟨by decide, by rw [hclose, hsells]; exact ⟨by decide, by decide⟩⟩
  exact ⟨w, asked, hw, hhandled, by rw [StockCompute.tracked, hsells]; rfl, hasked,
    program_accounts (c := 0) valid_twoStocks hw hid (by decide) (by rw [hmain]; trivial) hasked
      hfit⟩

end Program

end Mdd2
