/-
  The buy requests of the whole program.

  * `Requested`: what a stock has sent, with the limit-up tick and the decision behind it;
  * `program_buys`: in every run of the program a stock is bought at most once, on its own
    limit-up tick, and only after a decision of its own compute to buy;
  * `program_ost`: the OST builds make no decision, and never buy.

  `ALWAYS_BUY` is off, as in `System`.
-/
import Mdd2.Proof.Program

namespace Mdd2

open MDD (InBounds)
open StockState (LimitUpTime)

variable {R : Type} [FactorScalar R] {b : Build} {model : StockCompute R → Bool}

namespace System
variable {w v : System R} {es : List (Effect b)}

/-! ## The OST builds -/

/-- No stock approaches the limit. -/
structure Idle (w : System R) : Prop where
  approach : w.compute.stock.approachingLimitUp = false
  phase : w.compute.phase = .clear ∨ w.compute.phase = .drain
  decisions : w.decisions = []

/-- The OST trade handler does nothing. -/
theorem onTick_approach {market : Market} {c d : StockCompute R} {tick : (Build.ost market).Tick}
    (h : c.onTick (.ost market) tick = some d) (hc : c.approachingLimitUp = false) :
    d.approachingLimitUp = false := by
  rw [StockCompute.onTick] at h
  cases hcall : c.calls (.ost market) tick with
  | none => rw [hcall] at h; obtain rfl := Option.some.inj h; exact hc
  | some call =>
    rw [hcall] at h
    cases call with
    | logLimitUp _ _ => obtain rfl := Option.some.inj h; rfl
    | onOrder | onCancel | onTrade => obtain rfl := Option.some.inj h; exact hc

theorem Idle.step {market : Market} {fs : List (Effect (.ost market))} (h : Idle w)
    (hs : Step (.ost market) model w fs v) : Idle v := by
  cases hs with
  | tick | check | load | answer | stop => exact ⟨h.approach, h.phase, h.decisions⟩
  | @compute s c t u ds new hstep =>
    obtain ⟨happroach, hphase, rfl⟩ := h
    cases hstep with
    | clear => exact ⟨rfl, .inr rfl, rfl⟩
    | tick tick htick => exact ⟨onTick_approach htick happroach, .inr rfl, rfl⟩
    | @check c w =>
      have hcheck : c.checkApproach = (c, false) := by
        rw [StockCompute.checkApproach, if_neg (by simpa using happroach)]
      rw [hcheck]
      exact ⟨happroach, .inl rfl, rfl⟩
    | skip | first | second => simp at hphase
    | stop hp => exact ⟨rfl, hp, rfl⟩

theorem Run.idle {market : Market} {es : List (Effect (.ost market))}
    (h : Run (.ost market) model w es) : Idle w := by
  induction h with
  | start hstart =>
    obtain ⟨s, s', rfl⟩ := hstart
    refine ⟨?_, .inl rfl, rfl⟩
    rw [init, ComputeThread.init, StockCompute.start]
    split_ifs <;> rfl
  | step _ hs ih => exact ih.step hs

end System

namespace Program
variable {p : Setup R} {w v : Program b R} {id : Int32}

/-! ## The request of a stock -/

/-- What the two threads of the stock have done, started or not. -/
theorem Reachable.system (hp : p.Valid) (hw : Reachable p w) (hid : InBounds p.stockCodes id) :
    ∃ t : ComputeThread R,
      System.Run b p.model ⟨w.states id, w.checking id, t, w.decisions id⟩ (w.effects id) := by
  obtain ⟨c, hring⟩ := hp.exists_ring hid
  have href := hw.refines hp hid hring
  by_cases hs : w.main.Started id
  · exact ⟨_, href.started hs⟩
  · obtain ⟨hrun, -, -, hdecisions⟩ := href.waiting hs
    exact ⟨_, hdecisions ▸ hrun {}⟩

/-- At an earlier step of the run a tick was the limit-up tick of the stock, which was alive,
    had these effects, and was left in the state `s`. -/
def LimitUpTick (p : Setup R) (id : Int32) (timestamp : ℤ) (s : StockState)
    (es : List (Effect b)) (w : Program b R) : Prop :=
  ∃ (u u' : Program b R) (tick : b.Tick), Reachable p u ∧ Step p u u' ∧
    Relation.ReflTransGen (Step p) u' w ∧ p.idOf b tick = id ∧ (u.states id).alive ∧
    (u.states id).limitUp b tick = (s, some timestamp) ∧ u.effects id = es ∧
    u.checking id = none ∧ (u'.checking id).map Checking.timestamp = some timestamp

/-- The stock was bought on its limit-up tick, after a decision to buy on a slot time near it;
    its end sign is all that it has pushed since. -/
def Bought (p : Setup R) (id : Int32) (w : Program b R) : Prop :=
  ∃ (timestamp : ℤ) (s : StockState) (es : List (Effect b)), LimitUpTick p id timestamp s es w ∧
    LimitUpTime b timestamp ∧ buys es = 0 ∧ w.states id = { s with alive := false } ∧
    w.effects id = es ++ [.sendBuyRequest,
      .pushTick (StockState.endSign b s.stockCode (timestamp + WantCache.Intent.WantBuy.toInt))] ∧
    ∃ d ∈ w.decisions id, d.wantBuy ∧
      |timestampLinear d.timestamp - 1 - WantCache.roundedTime timestamp| ≤ kWantBuyTimeTolerance

/-- What a stock has sent. -/
structure Requested (p : Setup R) (id : Int32) (w : Program b R) : Prop where
  alive : (w.states id).alive → buys (w.effects id) = 0
  checking : ∀ c, w.checking id = some c → (w.states id).alive ∧
    LimitUpTick p id c.timestamp (w.states id) (w.effects id) w
  bought : buys (w.effects id) ≠ 0 → buys (w.effects id) = 1 ∧ Bought p id w

theorem Requested.once (h : Requested p id w) : buys (w.effects id) ≤ 1 := by
  by_cases hzero : buys (w.effects id) = 0
  · omega
  · exact (h.bought hzero).1.le

theorem LimitUpTick.step {timestamp : ℤ} {s : StockState} {es : List (Effect b)}
    (h : LimitUpTick p id timestamp s es w) (hs : Step p w v) :
    LimitUpTick p id timestamp s es v := by
  obtain ⟨u, u', tick, hu, hstep, hrun, hrest⟩ := h
  exact ⟨u, u', tick, hu, hstep, hrun.tail hs, hrest⟩

theorem LimitUpTick.time {timestamp : ℤ} {s : StockState} {es : List (Effect b)}
    (h : LimitUpTick p id timestamp s es w) : LimitUpTime b timestamp := by
  obtain ⟨u, -, tick, -, -, -, -, -, hlimit, -⟩ := h
  exact StockState.limitUp_time b (u.states id) tick (by rw [hlimit])

/-- A stock that has sent nothing, and has no call in progress. -/
theorem Requested.of_zero (hzero : buys (w.effects id) = 0) (hchecking : w.checking id = none) :
    Requested p id w :=
  ⟨fun _ => hzero, fun c hc => absurd (hchecking.symm.trans hc) (by simp),
    fun hne => absurd hzero hne⟩

/-- A step that leaves the stock as it was, but for a load and for decisions. -/
theorem Requested.same (h : Requested p id w) (hs : Step p w v)
    (hstates : v.states id = w.states id) (heffects : v.effects id = w.effects id)
    (hchecking : (v.checking id).map Checking.timestamp =
      (w.checking id).map Checking.timestamp)
    (hdecisions : w.decisions id ⊆ v.decisions id) : Requested p id v := by
  refine ⟨fun halive => ?_, fun c hc => ?_, fun hne => ?_⟩
  · rw [heffects]
    exact h.alive (hstates ▸ halive)
  · rw [hc] at hchecking
    obtain ⟨c', hc', htime⟩ := Option.map_eq_some_iff.1 hchecking.symm
    obtain ⟨halive, htick⟩ := h.checking c' hc'
    rw [hstates, heffects, ← htime]
    exact ⟨halive, htick.step hs⟩
  · rw [heffects] at hne ⊢
    obtain ⟨hone, timestamp, s, es, htick, htime, hzero, hdead, hes, d, hd, hnear⟩ := h.bought hne
    exact ⟨hone, timestamp, s, es, htick.step hs, htime, hzero, hstates.trans hdead,
      heffects.trans hes, d, hdecisions hd, hnear⟩

theorem Requested.tickStep (hp : p.Valid) (hw : Reachable p w) (h : Requested p id w)
    (hid : InBounds p.stockCodes id) (hs : TickStep p w v) : Requested p id v := by
  have hstep : Step p w v := .tick hs
  -- a step for another stock
  have hother : ∀ {i : Int32}, id ≠ i → (∀ j, j ≠ i → v.states j = w.states j ∧
      v.effects j = w.effects j ∧ v.checking j = w.checking j) → Requested p id v := by
    intro i hi hrest
    obtain ⟨hstates, heffects, hchecking⟩ := hrest id hi
    refine h.same hstep hstates heffects (by rw [hchecking]) ?_
    rw [hs.frame.2.2.2.2.2]
    exact fun _ hd => hd
  cases hs with
  | @tick i c tick check reject _ _ _ _ _ hnone hlimit _ =>
    by_cases hi : id = i
    · subst hi
      by_cases halive : (w.states id).alive
      · refine .of_zero ?_ hnone
        simp only [emit, Function.update_self]
        rw [buys_append, h.alive halive, StockState.onTick_of_none halive (hlimit halive)]
        rfl
      · have hdead : (w.states id).onTick b false check tick = (w.states id, []) := by
          rw [StockState.onTick, if_neg halive]
        refine h.same hstep ?_ ?_ rfl fun _ hd => hd
        · rw [emit, hdead]; exact Function.update_self _ _ _
        · rw [emit, hdead]; simp
    · exact hother hi fun j hj => ⟨Function.update_of_ne hj _ _, Function.update_of_ne hj _ _, rfl⟩
  | @check i timestamp tick _ hlookup _ _ hnone halive hlimit =>
    by_cases hi : id = i
    · subst hi
      have hzero := h.alive halive
      refine ⟨fun _ => hzero, fun c hc => ?_, fun hne => absurd hzero hne⟩
      simp only [setChecking, Function.update_self] at hc
      obtain rfl := Option.some.inj hc
      simp only [Function.update_self, StockState.limitUp_alive]
      refine ⟨halive, w, _, tick, hw, hstep, .refl, hlookup, halive, Prod.ext rfl hlimit, rfl,
        hnone, ?_⟩
      simp [setChecking]
    · exact hother hi fun j hj => ⟨Function.update_of_ne hj _ _, rfl, Function.update_of_ne hj _ _⟩
  | @load i checking hlt _ hchecking =>
    by_cases hi : id = i
    · subst hi
      refine h.same hstep rfl rfl ?_ fun _ hd => hd
      simp [setChecking, hchecking]
    · exact hother hi fun j hj => ⟨rfl, rfl, Function.update_of_ne hj _ _⟩
  | @answer i c checking reject _ _ hchecking hloaded _ =>
    by_cases hi : id = i
    · subst hi
      obtain ⟨halive, htick⟩ := h.checking checking hchecking
      have hzero := h.alive halive
      rw [StockState.onIntent_eq halive] at hstep ⊢
      by_cases hbuy : checking.scan.intent = .WantBuy
      · obtain ⟨t, hrun⟩ := hw.system hp hid
        obtain ⟨d, hd, hnear⟩ := (System.Run.reachable hrun).near_decision hchecking hbuy
        simp only [hbuy, true_or, if_true] at hstep ⊢
        refine ⟨fun hdead => ?_, fun c hc => ?_, fun _ => ⟨?_, checking.timestamp, w.states id,
          w.effects id, htick.step hstep, htick.time, hzero, ?_, ?_, d, hd, hnear⟩⟩
        · simp [emit, setChecking] at hdead
        · simp [setChecking] at hc
        · simp only [emit, setChecking, Function.update_self]
          rw [buys_append, hzero]
          rfl
        · simp [emit, setChecking]
        · simp [emit, setChecking]
      · refine .of_zero ?_ (Function.update_self _ _ _)
        simp only [emit, setChecking, Function.update_self, hbuy]
        rw [buys_append, hzero]
        rfl
    · exact hother hi fun j hj => ⟨Function.update_of_ne hj _ _, Function.update_of_ne hj _ _,
        Function.update_of_ne hj _ _⟩

theorem Requested.mainStep (hp : p.Valid) (hw : Reachable p w) (h : Requested p id w)
    (hid : InBounds p.stockCodes id) (hs : MainStep p w v) : Requested p id v := by
  have hstep : Step p w v := .main hs
  have hi := hw.inv hp
  cases hs with
  | @handleStatic i stat hmain _ _ _ =>
    obtain ⟨c, hring⟩ := hp.exists_ring hid
    refine .of_zero ?_ (hi.checking (by simp [hmain, Main.Receives]) id)
    show buys (w.effects id) = 0
    rw [(hw.refines hp hid hring).statics hmain]
    rfl
  | @stopState i c reject hmain _ _ _ =>
    by_cases hii : id = .ofNat i
    · subst hii
      by_cases halive : (w.states (.ofNat i)).alive
      · refine .of_zero ?_ (hi.checking (by simp [hmain, Main.Receives]) _)
        simp only [emit, Function.update_self]
        rw [buys_append, h.alive halive, StockState.stop, if_pos halive]
        rfl
      · have hdead : (w.states (.ofNat i)).stop b 0 = (w.states (.ofNat i), []) := by
          rw [StockState.stop, if_neg halive]
        refine h.same hstep ?_ ?_ rfl fun _ hd => hd
        · simp [emit, hdead]
        · simp [emit, hdead]
    · exact h.same hstep (Function.update_of_ne hii _ _) (Function.update_of_ne hii _ _) rfl
        fun _ hd => hd
  | _ => exact h.same hstep rfl rfl rfl fun _ hd => hd

theorem Requested.threadStep (hp : p.Valid) (hw : Reachable p w) (h : Requested p id w)
    {c : Int32} (hc : c ∈ MDD.channels p.kChannelCount)
    (hs : ThreadStep p c w v) : Requested p id v := by
  have hi := hw.inv hp
  have hframe := hs.frame hi hp hc
  refine h.same (.thread hc hs) (by rw [hframe.states]) (by rw [hframe.effects])
    (by rw [hframe.checking]) ?_
  by_cases hring : p.ring id = some c
  · obtain ⟨new, hdecisions, -⟩ := hs.moves hi hp hc hring
    rw [hdecisions]
    exact List.subset_append_left _ _
  · obtain ⟨-, -, -, hdecisions⟩ := hframe.stocks id hring
    rw [hdecisions]
    exact fun _ hd => hd

theorem Requested.step (hp : p.Valid) (hw : Reachable p w) (h : Requested p id w)
    (hid : InBounds p.stockCodes id) (hs : Step p w v) : Requested p id v := by
  cases hs with
  | main hs => exact h.mainStep hp hw hid hs
  | tick hs => exact h.tickStep hp hw hid hs
  | thread hc hs => exact h.threadStep hp hw hc hs

theorem Reachable.requested (hp : p.Valid) (hw : Reachable p w)
    (hid : InBounds p.stockCodes id) : Requested p id w := by
  induction hw with
  | init => exact .of_zero rfl rfl
  | step hw hs ih => exact ih.step hp hw hid hs

/-- **A stock is bought at most once.**  If it was, it is dead; its last acts were the buy
    request and the end sign, in answer to its limit-up tick, and its own compute had decided
    to buy on a slot time within the tolerance of that tick.  This holds in every run of the
    program, whatever the order of the steps of its threads. -/
theorem program_buys (hp : p.Valid) (hw : Reachable p w) (hid : InBounds p.stockCodes id) :
    buys (w.effects id) ≤ 1 ∧
      (buys (w.effects id) = 1 → (w.states id).alive = false ∧ Bought p id w) := by
  have h := hw.requested hp hid
  refine ⟨h.once, fun hone => ⟨?_, (h.bought (by omega)).2⟩⟩
  rw [← Bool.not_eq_true]
  exact fun halive => absurd (h.alive halive) (by omega)

/-! ## An undisturbed call -/

/-- The remaining loads, with no step in between. -/
theorem Reachable.loads (hid : InBounds p.stockCodes id) : ∀ (n : ℕ) {w : Program b R}
    {checking : Checking}, checking.loaded + n = 16 → w.checking id = some checking →
      Reachable p w → Reachable p (w.setChecking id (some { checking with
        scan := (((List.finRange 16).drop checking.loaded).map
          (w.caches id).wantBuyTimestamp).foldl WantCache.Scan.next checking.scan
        loaded := 16 }))
  | 0, w, ⟨timestamp, scan, loaded⟩, hn, hchecking, hw => by
    obtain rfl : loaded = 16 := hn
    rw [List.drop_eq_nil_of_le (by simp)]
    have hsame : w.setChecking id (some ⟨timestamp, scan, 16⟩) = w := by
      rw [setChecking, ← hchecking, Function.update_eq_self]
    exact hsame.symm ▸ hw
  | n + 1, w, checking, hn, hchecking, hw => by
    have hlt : checking.loaded < 16 := by omega
    have hnext := Reachable.loads hid n (by simp only; omega) (Function.update_self _ _ _)
      (hw.step (.tick (.load hlt hid hchecking)))
    rw [System.drop_finRange hlt]
    simpa only [setChecking, Function.update_idem, List.map_cons, List.foldl_cons] using hnext

/-- **A call of `onTick` with no step in between is one step**: the want cache answers
    `checkWantBuyAtTimestamp`. -/
theorem Reachable.onTick (hw : Reachable p w) {c : Int32} (tick : b.Tick) (timestamp : ℤ)
    (hmain : w.main.Receives) (hlookup : p.idOf b tick = id) (hneg : id ≠ -1)
    (hid : InBounds p.stockCodes id) (hring : p.ring id = some c) (hnone : w.checking id = none)
    (halive : (w.states id).alive) (hlimit : ((w.states id).limitUp b tick).2 = some timestamp)
    (hfits : (w.rings c).length + 1 < kRingSize) :
    Reachable p (w.emit id c
      ((w.states id).onTick b false (w.caches id).checkWantBuyAtTimestamp tick) false) := by
  have hcheck := hw.step (.tick (.check tick hmain hlookup hneg hid hnone halive hlimit))
  have hloads := Reachable.loads hid 15 rfl (Function.update_self _ _ _) hcheck
  have hanswer := hloads.step (.tick (.answer (c := c) false hid hring
    (Function.update_self _ _ _) rfl ?_))
  · rw [StockState.onTick_of_some halive hlimit]
    simpa [emit, setChecking, ← hnone, WantCache.checkWantBuyAtTimestamp] using hanswer
  · have hs : ((w.states id).limitUp b tick).1.alive := by
      rw [StockState.limitUp_alive]
      exact halive
    refine .inr ?_
    simp only [setChecking, Function.update_self, StockState.onIntent_eq hs]
    split_ifs <;> simpa [pushed] using hfits

theorem program_buys_two : ∃ w : Program (.replay .SH) ℚ, Reachable twoStocks w ∧
    buys (w.effects 0) = 1 ∧ (buys (w.effects 0) ≤ 1 ∧ (buys (w.effects 0) = 1 →
      (w.states 0).alive = false ∧ Bought twoStocks 0 w)) := by
  have hzero : InBounds twoStocks.stockCodes 0 := ⟨by decide, by decide⟩
  obtain ⟨w, hw, hmain, -, -, -, hstate, hnone, hring, -, hintent⟩ := exists_decided
  have halive : (w.states 0).alive := by rw [hstate]
  have hlimit : ((w.states 0).limitUp (.replay .SH) ⟨600000, 93000120, 1100, 100, 8, 0⟩).2 =
      some 93000120 := by rw [hstate]; rfl
  have hbuys := (hw.requested valid_twoStocks hzero).alive halive
  have hcall := hw.onTick (⟨600000, 93000120, 1100, 100, 8, 0⟩ : L2.Tick) 93000120
    (by rw [hmain]; trivial) (by decide) (by decide) hzero (c := 0) (by decide) hnone halive hlimit
    (by rw [hring]; decide)
  refine ⟨_, hcall, ?_, program_buys valid_twoStocks hcall hzero⟩
  have hlive : ((w.states 0).limitUp (.replay .SH)
      (⟨600000, 93000120, 1100, 100, 8, 0⟩ : L2.Tick)).1.alive := by
    rw [StockState.limitUp_alive]
    exact halive
  rw [StockState.onTick_of_some halive hlimit, StockState.onIntent_eq hlive, hintent]
  simp only [emit, Function.update_self]
  rw [buys_append, hbuys]
  rfl

/-- **The OST builds never buy**: no compute ever asks the model, and so no stock is bought,
    in any run of the program. -/
theorem program_ost {market : Market} {w : Program (.ost market) R} (hp : p.Valid)
    (hw : Reachable p w) {id : Int32} (hid : InBounds p.stockCodes id) :
    w.decisions id = [] ∧ buys (w.effects id) = 0 := by
  obtain ⟨t, hrun⟩ := hw.system hp hid
  have hidle : w.decisions id = [] := hrun.idle.decisions
  refine ⟨hidle, ?_⟩
  by_contra hne
  obtain ⟨-, -, -, -, -, -, -, -, -, d, hd, -⟩ := (hw.requested hp hid).bought hne
  rw [hidle] at hd
  exact absurd hd List.not_mem_nil

/-- A new buy order of the first stock at its limit price. -/
def limitUpOrderSh : Image :=
  let m : Image := Packed.setBytes 0 8 (StockState.securityID 600000)
  let m := Packed.setField m 19 4 9300012                                 -- tickTime
  let m := Packed.setField m 23 1 (BitVec.ofNat _ 'A'.toNat)              -- tickType
  let m := Packed.setField m 40 4 11000                                   -- orderPrice
  Packed.setField m 60 1 (BitVec.ofNat _ '0'.toNat)                       -- sideFlag

theorem program_ost_two : ∃ w : Program (.ost .SH) ℚ, Reachable twoStocks w ∧
    (w.states 0).alive = false ∧ (w.effects 0).length = 1 ∧
    w.decisions 0 = [] ∧ buys (w.effects 0) = 0 := by
  have hzero : InBounds twoStocks.stockCodes 0 := ⟨by decide, by decide⟩
  have hstatic := Reachable.init.step (p := twoStocks) (b := .ost .SH)
    (.main (.handleStatic ⟨600000, .SH, 1000, 1100, 20250722⟩ rfl rfl (by decide) hzero))
  have hreceive := hstatic.step (.main (.startReceive rfl))
  have hcall := hreceive.onTick (c := 0) (limitUpOrderSh : (Build.ost .SH).Tick) 93000120 trivial
    (by decide +kernel) (by decide) hzero (by decide) rfl rfl (by decide +kernel) (by decide)
  refine ⟨_, hcall, ?_, ?_, program_ost valid_twoStocks hcall hzero⟩
  · decide +kernel
  · decide +kernel

end Program

end Mdd2
