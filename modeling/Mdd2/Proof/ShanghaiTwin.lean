/-
  The live NE build for Shanghai, against the replay build on the same messages.

  `shTick` is the tick of the replay that says the same as a record.  The two
  builds take the same record for the limit-up tick (`limitUp_shTick`), and do the
  same with every record (`onTick_shTick`) and with the end sign.  `ShTwin.Inv`
  holds over all runs (`ShTwin.Inv.step`), and gives `ShTwin.builds_agree`.
-/
import Mdd2.Lib.Run
import Mdd2.MDD
import Mdd2.Proof.EndSign
import Mdd2.Proof.Handlers

namespace Mdd2

/-! ## Records and their ticks -/

/-- A record of an order, a cancel or a trade of one stock, in the units of the
    replay. -/
structure ShRecord (stockCode : Int32) (m : Image) : Prop where
  stock : tickStockCode (.ne .SH) m = stockCode
  kind : TickMergeSse.tickType m = 'A'.toNat ∨ TickMergeSse.tickType m = 'D'.toNat ∨
    TickMergeSse.tickType m = 'T'.toNat
  side : TickMergeSse.tickType m ≠ 'T'.toNat →
    TickMergeSse.tickBSFlag m = '0'.toNat ∨ TickMergeSse.tickBSFlag m = '1'.toNat
  price : TickMergeSse.price m % 10 = 0
  qty : TickMergeSse.qty m % 1000 = 0 ∧ 0 < TickMergeSse.qty m ∧
    TickMergeSse.qty m / 1000 < 2 ^ 31
  buyOrderNo : TickMergeSse.tickType m = 'T'.toNat ∨ TickMergeSse.tickBSFlag m = '0'.toNat →
    0 < TickMergeSse.buyOrderNo m ∧ TickMergeSse.buyOrderNo m < 2 ^ 31
  sellOrderNo : TickMergeSse.tickType m = 'T'.toNat ∨ TickMergeSse.tickBSFlag m = '1'.toNat →
    0 < TickMergeSse.sellOrderNo m ∧ TickMergeSse.sellOrderNo m < 2 ^ 31
  time : ∃ t : ClockTime, t.timestamp = TickMergeSse.tickTime m * 10

/-- The tick of a record: a cancel has a negative quantity, and an order or cancel
    only the number of its own side. -/
def shTick (m : Image) : L2.Tick where
  stock := tickStockCode (.ne .SH) m
  timestamp := TickMergeSse.tickTime m * 10
  price := ↑(TickMergeSse.price m / 10)
  quantity := if TickMergeSse.tickType m = 'D'.toNat then -↑(TickMergeSse.qty m / 1000)
    else ↑(TickMergeSse.qty m / 1000)
  buyOrderNo := if TickMergeSse.tickType m = 'T'.toNat ∨ TickMergeSse.tickBSFlag m = '0'.toNat
    then TickMergeSse.buyOrderNo m else 0
  sellOrderNo := if TickMergeSse.tickType m = 'T'.toNat ∨ TickMergeSse.tickBSFlag m = '1'.toNat
    then TickMergeSse.sellOrderNo m else 0

theorem char_range (x : ℤ) : -128 ≤ Word.toSigned 8 x ∧ Word.toSigned 8 x ≤ 127 := by
  have hlo := Int.le_bmod (x := x) (m := 2 ^ 8) (by norm_num)
  have hhi := Int.bmod_lt (x := x) (m := 2 ^ 8) (by norm_num)
  norm_num at hlo hhi
  unfold Word.toSigned
  norm_num
  omega

/-- Six characters give a code of at most eight digits. -/
theorem natAbs_atou6_lt {s : Fin 6 → ℤ} (h : ∀ k, -128 ≤ s k ∧ s k ≤ 127) :
    (atou6 s).toInt.natAbs < 10 ^ 8 := by
  have hzero : (('0'.toNat : ℕ) : ℤ) = 48 := by decide
  have h0 := h 0
  have h1 := h 1
  have h2 := h 2
  have h3 := h 3
  have h4 := h 4
  have h5 := h 5
  simp only [atou6, hzero]
  rw [Int32.toInt_ofInt_of_le] <;> omega

/-- The code of a record is short enough for the end sign. -/
theorem ShRecord.length_securityID {stockCode : Int32} {m : Image} (h : ShRecord stockCode m) :
    (StockState.securityID stockCode).length ≤ 10 := by
  have hcode : stockCode.toInt.natAbs < 10 ^ 8 := by
    have hcode : stockCode = atou6 fun k => Word.toSigned 8 (Image.unsigned m (6 + k) 1) :=
      h.stock.symm
    rw [hcode]
    exact natAbs_atou6_lt fun k => char_range _
  have hlen := Nat.toDigits_length 10 _ 8 (by omega) hcode
  simp only [StockState.securityID, List.length_append, List.length_map, List.length_singleton]
  split_ifs <;> simp only [List.length_cons, List.length_leftpad] <;> omega

section
variable {stockCode : Int32} {m : Image}

theorem ShRecord.tickTime_lt (h : ShRecord stockCode m) : TickMergeSse.tickTime m < 24000000 := by
  obtain ⟨⟨hour, minute, second, ms, hh, hm, hs, hms⟩, ht⟩ := h.time
  simp only [ClockTime.timestamp] at ht
  omega

theorem ShRecord.qty_pos (h : ShRecord stockCode m) : 0 < TickMergeSse.qty m / 1000 := by
  obtain ⟨hmod, hpos, -⟩ := h.qty
  omega

theorem kinds_ne : 'A'.toNat ≠ 'D'.toNat ∧ 'A'.toNat ≠ 'T'.toNat ∧ 'D'.toNat ≠ 'T'.toNat ∧
    '0'.toNat ≠ '1'.toNat := by
  decide

/-- The quantity of a cancel is negative, and others are positive. -/
theorem ShRecord.quantity (h : ShRecord stockCode m) :
    (TickMergeSse.tickType m = 'D'.toNat → (shTick m).quantity < 0) ∧
      (TickMergeSse.tickType m ≠ 'D'.toNat →
        (shTick m).quantity = ↑(TickMergeSse.qty m / 1000) ∧ 0 < (shTick m).quantity) := by
  have hqty := h.qty_pos
  constructor <;> intro hk
  · simp only [shTick, if_pos hk]
    omega
  · simp only [shTick, if_neg hk, true_and]
    omega

/-- The numbers of an order or cancel. -/
theorem ShRecord.ofSide (h : ShRecord stockCode m) (hk : TickMergeSse.tickType m ≠ 'T'.toNat) :
    (TickMergeSse.tickBSFlag m = '0'.toNat ∧ 0 < (shTick m).buyOrderNo ∧
      (shTick m).sellOrderNo = 0) ∨
    (TickMergeSse.tickBSFlag m = '1'.toNat ∧ (shTick m).buyOrderNo = 0 ∧
      (shTick m).sellOrderNo = TickMergeSse.sellOrderNo m ∧ 0 < TickMergeSse.sellOrderNo m ∧
      TickMergeSse.sellOrderNo m < 2 ^ 31) := by
  obtain ⟨-, -, -, hchars⟩ := kinds_ne
  rcases h.side hk with hs | hs
  · have hno := h.buyOrderNo (.inr hs)
    left
    simp only [shTick, hk, hs, or_true, if_true, false_or, if_neg hchars]
    exact ⟨trivial, by omega, trivial⟩
  · have hno := h.sellOrderNo (.inr hs)
    right
    simp only [shTick, hk, hs, or_true, if_true, false_or, if_neg hchars.symm]
    exact ⟨trivial, trivial, trivial, hno⟩

theorem ShRecord.isOrder (h : ShRecord stockCode m) (hk : TickMergeSse.tickType m ≠ 'T'.toNat) :
    (shTick m).isOrder := by
  rcases h.ofSide hk with ⟨-, hbuy, hsell⟩ | ⟨-, hbuy, hsell, hpos, -⟩
  · simp [L2.Tick.isOrder, hbuy.ne', hsell]
  · have hsell' : (shTick m).sellOrderNo ≠ 0 := by omega
    simp [L2.Tick.isOrder, hbuy, hsell']

theorem ShRecord.isSellOrder_iff (h : ShRecord stockCode m)
    (hk : TickMergeSse.tickType m ≠ 'T'.toNat) :
    (shTick m).isSellOrder ↔ TickMergeSse.tickBSFlag m = '1'.toNat := by
  obtain ⟨-, -, -, hchars⟩ := kinds_ne
  rcases h.ofSide hk with ⟨hs, hbuy, -⟩ | ⟨hs, hbuy, hsell, hpos, -⟩
  · refine iff_of_false ?_ (by rw [hs]; exact hchars)
    simp [L2.Tick.isSellOrder, hbuy.ne']
  · refine iff_of_true ?_ hs
    simp [L2.Tick.isSellOrder, hbuy, hsell]
    omega

/-- The number of a sell order or of its cancel, as the live build reads it. -/
theorem ShRecord.orderNo (h : ShRecord stockCode m) (hk : TickMergeSse.tickType m ≠ 'T'.toNat)
    (hs : TickMergeSse.tickBSFlag m = '1'.toNat) :
    Word.toSigned 32 (TickMergeSse.sellOrderNo m) = (shTick m).orderNo := by
  obtain ⟨-, -, -, hchars⟩ := kinds_ne
  rcases h.ofSide hk with ⟨hs', -⟩ | ⟨-, hbuy, hsell, -, hlt⟩
  · exact absurd (hs'.symm.trans hs) hchars
  · rw [Word.toSigned_of_range (by omega) (by omega)]
    simp [L2.Tick.orderNo, hbuy, hsell]

/-- The numbers of a trade. -/
theorem ShRecord.ofTrade (h : ShRecord stockCode m) (hk : TickMergeSse.tickType m = 'T'.toNat) :
    0 < (shTick m).buyOrderNo ∧ (shTick m).sellOrderNo = TickMergeSse.sellOrderNo m ∧
      0 < TickMergeSse.sellOrderNo m ∧ TickMergeSse.sellOrderNo m < 2 ^ 31 := by
  have hbuyNo := h.buyOrderNo (.inl hk)
  have hsellNo := h.sellOrderNo (.inl hk)
  simp only [shTick, hk, true_or, if_true]
  exact ⟨by omega, trivial, hsellNo⟩

theorem TickMergeSse.price_lt (m : Image) : TickMergeSse.price m < 2 ^ 32 :=
  (Packed.field m 49 4).isLt

/-- The time of a record, as the live build converts it. -/
theorem ShRecord.timestamp (h : ShRecord stockCode m) :
    Word.toSigned 32 (Word.toUnsigned 32 (TickMergeSse.tickTime m * 10)) =
      (shTick m).timestamp := by
  have hlt := h.tickTime_lt
  rw [Word.toUnsigned_of_range (by omega) (by omega), Word.toSigned_of_range (by omega) (by omega)]
  rfl

/-- **The two builds take the same record for the limit-up tick.** -/
theorem limitUp_shTick (h : ShRecord stockCode m) {live replay : StockState}
    (hprice : (live.upperLimitPrice1000 : ℤ) = replay.upperLimitPrice * 10) :
    live.limitUp (.ne .SH) m = (live, (replay.limitUp (.replay .SH) (shTick m)).2) ∧
      (replay.limitUp (.replay .SH) (shTick m)).1 = replay := by
  have hqty := h.qty_pos
  have htime := h.timestamp
  have hmod := h.price
  have hiff : (TickMergeSse.tickType m = 'A'.toNat ∧ TickMergeSse.tickBSFlag m = '0'.toNat ∧
      TickMergeSse.price m = live.upperLimitPrice1000 ∧ TickMergeSse.tickTime m ≥ 9300000 ∧
      TickMergeSse.tickTime m < 14570000) ↔
      ((shTick m).buyOrderNo ≠ 0 ∧ (shTick m).sellOrderNo = 0 ∧ (shTick m).quantity > 0 ∧
        (shTick m).price = replay.upperLimitPrice ∧ (shTick m).timestamp ≥ 93000000 ∧
        (shTick m).timestamp < 145700000) := by
    obtain ⟨hAD, hAT, hDT, hchars⟩ := kinds_ne
    obtain ⟨hcancel, hother⟩ := h.quantity
    have htimestamp : (shTick m).timestamp = TickMergeSse.tickTime m * 10 := rfl
    have hprice' : (shTick m).price = ↑(TickMergeSse.price m / 10) := rfl
    rcases h.kind with hk | hk | hk
    · obtain ⟨-, hq⟩ := hother (by rw [hk]; exact hAD)
      rcases h.ofSide (by rw [hk]; exact hAT) with ⟨hs, hbuy, hsell⟩ | ⟨hs, hbuy, -⟩
      · omega
      · rw [hs]
        omega
    · have hq := hcancel hk
      rw [hk]
      omega
    · obtain ⟨-, hsell, hpos, -⟩ := h.ofTrade hk
      rw [hk]
      omega
  simp only [StockState.limitUp, StockState.limitUpNeSh, StockState.limitUpSh,
    StockState.limitUpReplaySh, hiff, htime]
  split_ifs <;> exact ⟨rfl, rfl⟩

end

/-! ## The compute thread -/

namespace StockCompute

variable {R : Type} [FactorScalar R] {c : StockCompute R} {stockCode : Int32} {m : Image}

/-- The price from which on the live build tracks an order. -/
theorem approach_le_iff_sh (m : Image) {approach : ℤ} (hlo : 0 ≤ approach)
    (hhi : approach * 10 < 2 ^ 31) :
    TickMergeSse.price m ≥ Word.toUnsigned 32 (approach * 10) ↔
      (shTick m).price ≥ approach := by
  have hcast := Word.toUnsigned_of_range (w := 32) (show 0 ≤ approach * 10 by omega) (by omega)
  simp only [shTick]
  omega

theorem toSigned_of_nat {n : ℕ} (h : n < 2 ^ 31) : Word.toSigned 32 n = n :=
  Word.toSigned_of_range (by omega) (by omega)

omit [FactorScalar R] in
/-- An order does the same in both builds. -/
theorem onOrder_shTick (h : ShRecord stockCode m) (hk : TickMergeSse.tickType m = 'A'.toNat)
    (hlo : 0 ≤ c.upperLimitPriceApproach) (hhi : c.upperLimitPriceApproach * 10 < 2 ^ 31) :
    c.onOrderNeSh m = c.onOrderReplay (shTick m) := by
  obtain ⟨hAD, hAT, -, -⟩ := kinds_ne
  have hkT : TickMergeSse.tickType m ≠ 'T'.toNat := by rw [hk]; exact hAT
  obtain ⟨hquantity, -⟩ := h.quantity.2 (by rw [hk]; exact hAD)
  have hprice := TickMergeSse.price_lt m
  simp only [onOrderNeSh, onOrderReplay, approach_le_iff_sh m hlo hhi, h.isSellOrder_iff hkT]
  split_ifs with hs
  · rw [h.orderNo hkT hs.1, hquantity, toSigned_of_nat (n := _ / 10) (by omega),
      toSigned_of_nat h.qty.2.2]
    rfl
  · rfl

omit [FactorScalar R] in
/-- A cancel does the same in both builds. -/
theorem onCancel_shTick (h : ShRecord stockCode m) (hk : TickMergeSse.tickType m = 'D'.toNat) :
    c.onCancelNeSh m = c.onCancelReplay (shTick m) := by
  obtain ⟨-, -, hDT, -⟩ := kinds_ne
  have hkT : TickMergeSse.tickType m ≠ 'T'.toNat := by rw [hk]; exact hDT
  simp only [onCancelNeSh, onCancelReplay, h.isSellOrder_iff hkT]
  split_ifs with hs
  · rw [h.orderNo hkT hs]
  · rfl

/-- A trade does the same in both builds. -/
theorem onTrade_shTick (h : ShRecord stockCode m) (hk : TickMergeSse.tickType m = 'T'.toNat) :
    c.onTradeNeSh m = c.onTradeReplay (shTick m) := by
  obtain ⟨-, -, hDT, -⟩ := kinds_ne
  obtain ⟨hquantity, -⟩ := h.quantity.2 (by rw [hk]; exact hDT.symm)
  obtain ⟨-, hsell, -, hlt⟩ := h.ofTrade hk
  have hprice := TickMergeSse.price_lt m
  have htime : TickMergeSse.tickTime m < 9300000 ↔ (shTick m).timestamp < 93000000 := by
    simp only [shTick]
    omega
  rw [onTradeNeSh, onTradeReplay, h.timestamp, hsell, hquantity,
    toSigned_of_nat hlt, toSigned_of_nat (n := _ / 10) (by omega), toSigned_of_nat h.qty.2.2]
  simp only [htime]
  rfl

/-- **Every record does the same in both builds.** -/
theorem onTick_shTick (h : ShRecord stockCode m) (hlo : 0 ≤ c.upperLimitPriceApproach)
    (hhi : c.upperLimitPriceApproach * 10 < 2 ^ 31) :
    c.onTick (.ne .SH) m = c.onTick (.replay .SH) (shTick m) := by
  obtain ⟨hAD, hAT, hDT, -⟩ := kinds_ne
  obtain ⟨hcancel, hother⟩ := h.quantity
  have hzero : 'A'.toNat ≠ 0 ∧ 'D'.toNat ≠ 0 ∧ 'T'.toNat ≠ 0 := by decide
  by_cases ha : c.alive
  · simp only [onTick, calls, if_pos ha, dispatch, dispatchSh, dispatchReplay]
    rcases h.kind with hk | hk | hk
    · have hq := (hother (by rw [hk]; exact hAD)).2
      have horder : (shTick m).isOrder := h.isOrder (by rw [hk]; exact hAT)
      have hnew : ¬ (shTick m).isOrderCancel := by simp [L2.Tick.isOrderCancel]; omega
      rw [hk, if_neg hzero.1, if_pos rfl, if_neg hq.ne', if_pos horder, if_neg hnew]
      exact congrArg some (onOrder_shTick h hk hlo hhi)
    · have hq := hcancel hk
      have horder : (shTick m).isOrder := h.isOrder (by rw [hk]; exact hDT)
      have hold : (shTick m).isOrderCancel := by simp [L2.Tick.isOrderCancel, hq]
      rw [hk, if_neg hzero.2.1, if_neg hAD.symm, if_pos rfl, if_neg hq.ne, if_pos horder,
        if_pos hold]
      exact congrArg some (onCancel_shTick h hk)
    · have hq := (hother (by rw [hk]; exact hDT.symm)).2
      obtain ⟨hbuy, hsell, hpos, -⟩ := h.ofTrade hk
      have hsell' : (shTick m).sellOrderNo ≠ 0 := by omega
      have horder : ¬ (shTick m).isOrder := by simp [L2.Tick.isOrder, hbuy.ne', hsell']
      have htrade : (shTick m).isTrade := by simp [L2.Tick.isTrade, hbuy.ne', hsell']
      rw [hk, if_neg hzero.2.2, if_neg hAT.symm, if_neg hDT.symm, if_pos rfl, if_neg hq.ne',
        if_neg horder, if_pos htrade]
      exact onTrade_shTick h hk
  · rw [onTick, onTick, calls, calls, if_neg ha, if_neg ha]

theorem runTicks_singleton (b : Build) (c : StockCompute R) (tick : b.Tick) :
    c.runTicks b [tick] = c.onTick b tick := by
  simp only [runTicks, Option.bind_eq_bind]
  exact Option.bind_fun_some _

/-- The end sign of either build stops the stock. -/
theorem onTick_endSign {b : Build} {code : Int32} {timestamp : ℤ}
    (ht : StockState.LimitUpTime b timestamp) (hexact : EndSignExact b code timestamp)
    (intent : WantCache.Intent) :
    c.onTick b (StockState.endSign b code (timestamp + intent.toInt)) =
      some (if c.alive then c.stop else c) := by
  obtain ⟨h0, h2⟩ := intent.toInt_range
  obtain ⟨n, rfl⟩ := Int.eq_ofNat_of_zero_le (show 0 ≤ timestamp by have := ht.le; omega)
  obtain ⟨i, hi⟩ := Int.eq_ofNat_of_zero_le h0
  rw [onTick, calls, hi]
  split_ifs with ha
  · rw [(dispatch_endSign_iff code ht (by omega)).2 hexact]
    rfl
  · rfl

end StockCompute

/-! ## Runs of the two builds -/

variable {R : Type} [FactorScalar R]

/-- The effects of the two builds for one message: the same request, a record and
    its tick, or the end signs of one time. -/
inductive Corresponds (stockCode : Int32) : Effect (.ne .SH) → Effect (.replay .SH) → Prop
  | sendBuyRequest : Corresponds stockCode .sendBuyRequest .sendBuyRequest
  | tick (m : Image) : Corresponds stockCode (.pushTick m) (.pushTick (shTick m))
  | endSign (timestamp : ℤ) : Corresponds stockCode
      (.pushTick (StockState.endSign (.ne .SH) stockCode timestamp))
      (.pushTick (StockState.endSign (.replay .SH) stockCode timestamp))

/-- The two threads of the stock in the two builds.  A stock of the compute thread
    is gone once a call on it has not returned. -/
structure ShTwin (R : Type) where
  live : StockState
  replay : StockState
  liveCompute : Option (StockCompute R)
  replayCompute : Option (StockCompute R)

namespace ShTwin

/-- The stock after its static data. -/
def start (stockCode : Int32) (stat : Stat) : ShTwin R :=
  let live := (StockState.start stockCode).onStatic (.ne .SH) stat
  let replay := (StockState.start stockCode).onStatic (.replay .SH) stat
  ⟨live, replay, some (StockCompute.start {} live), some (StockCompute.start {} replay)⟩

section
variable (alwaysBuy : Bool)

/-- A record with the answer of the want cache. -/
def liveTick (x : ShTwin R) (e : Image × WantCache.Intent) :
    StockState × List (Effect (.ne .SH)) :=
  x.live.onTick (.ne .SH) alwaysBuy (fun _ => e.2) e.1

def replayTick (x : ShTwin R) (e : Image × WantCache.Intent) :
    StockState × List (Effect (.replay .SH)) :=
  x.replay.onTick (.replay .SH) alwaysBuy (fun _ => e.2) (shTick e.1)

/-- The record in the live build and its tick in the replay build; the compute
    threads take what is pushed. -/
def step (x : ShTwin R) (e : Image × WantCache.Intent) : ShTwin R where
  live := (x.liveTick alwaysBuy e).1
  replay := (x.replayTick alwaysBuy e).1
  liveCompute := x.liveCompute.bind fun c =>
    c.runTicks (.ne .SH) (pushed (x.liveTick alwaysBuy e).2)
  replayCompute := x.replayCompute.bind fun c =>
    c.runTicks (.replay .SH) (pushed (x.replayTick alwaysBuy e).2)

/-- The effects correspond one by one. -/
def SameEffects (stockCode : Int32) (x : ShTwin R) (e : Image × WantCache.Intent) : Prop :=
  List.Forall₂ (Corresponds stockCode) (x.liveTick alwaysBuy e).2 (x.replayTick alwaysBuy e).2

end

/-- What is compared of the two stocks of the compute threads. -/
def view (c : StockCompute R) :
    UpSellOrders × Bool × ℤ × ℤ × List Snapshot × Snapshot × ℤ :=
  (c.upSellOrders, c.approachingLimitUp, c.openPrice, c.openVolume, c.fState.snapshots,
    c.fState.currSnapshot, c.fState.nextTickTimestamp)

def Agree (x : ShTwin R) : Prop := x.liveCompute.map view = x.replayCompute.map view

/-- The stocks of the compute threads are equal, and in a state in which records
    do the same to both. -/
structure SameCompute (l r : Option (StockCompute R)) : Prop where
  eq : l = r
  sound : ∀ c, l = some c → c.Sound
  approach : ∀ c, l = some c →
    0 ≤ c.upperLimitPriceApproach ∧ c.upperLimitPriceApproach * 10 < 2 ^ 31

/-- The invariant: the stocks of the tick threads have the same limit price, and
    those of the compute threads are equal. -/
structure Inv (stockCode : Int32) (x : ShTwin R) : Prop where
  alive : x.live.alive = x.replay.alive
  liveCode : x.live.stockCode = stockCode
  replayCode : x.replay.stockCode = stockCode
  limit : (x.live.upperLimitPrice1000 : ℤ) = x.replay.upperLimitPrice * 10
  compute : SameCompute x.liveCompute x.replayCompute

variable {stockCode : Int32} {x : ShTwin R} {e : Image × WantCache.Intent}

omit [FactorScalar R] in
theorem Inv.agree (h : Inv stockCode x) : x.Agree := by rw [Agree, h.compute.eq]

omit [FactorScalar R] in
/-- What one record does: nothing to a dead stock; if it is not the limit-up tick,
    it is pushed; on the limit-up tick both stop. -/
theorem Inv.step_cases (hx : Inv stockCode x) (he : ShRecord stockCode e.1) (alwaysBuy : Bool) :
    (x.live.alive = false ∧ x.liveTick alwaysBuy e = (x.live, []) ∧
      x.replayTick alwaysBuy e = (x.replay, [])) ∨
    (x.liveTick alwaysBuy e = (x.live, [.pushTick e.1]) ∧
      x.replayTick alwaysBuy e = (x.replay, [.pushTick (shTick e.1)])) ∨
    ∃ timestamp, StockState.LimitUpTime (.ne .SH) timestamp ∧
      x.liveTick alwaysBuy e = ({ x.live with alive := false },
        (if e.2 = .WantBuy ∨ alwaysBuy then [.sendBuyRequest] else []) ++
          [.pushTick (StockState.endSign (.ne .SH) stockCode (timestamp + e.2.toInt))]) ∧
      x.replayTick alwaysBuy e = ({ x.replay with alive := false },
        (if e.2 = .WantBuy ∨ alwaysBuy then [.sendBuyRequest] else []) ++
          [.pushTick (StockState.endSign (.replay .SH) stockCode (timestamp + e.2.toInt))]) := by
  obtain ⟨hlive, hreplay⟩ := limitUp_shTick he hx.limit
  unfold liveTick replayTick
  by_cases ha : x.live.alive
  · have ha' : x.replay.alive := hx.alive ▸ ha
    right
    cases ht : (x.replay.limitUp (.replay .SH) (shTick e.1)).2 with
    | none =>
      left
      have hnone : (x.live.limitUp (.ne .SH) e.1).2 = none := by rw [hlive, ht]
      rw [StockState.onTick_of_none ha hnone, StockState.onTick_of_none ha' ht, hlive, hreplay]
      exact ⟨rfl, rfl⟩
    | some timestamp =>
      right
      have hsome : (x.live.limitUp (.ne .SH) e.1).2 = some timestamp := by rw [hlive, ht]
      refine ⟨timestamp, StockState.limitUp_time _ _ _ hsome, ?_, ?_⟩
      · rw [StockState.onTick_of_some ha hsome, hlive, StockState.onIntent_eq ha, ← hx.liveCode]
      · rw [StockState.onTick_of_some ha' ht, hreplay, StockState.onIntent_eq ha',
          ← hx.replayCode]
  · have ha' : ¬ x.replay.alive := hx.alive ▸ ha
    left
    rw [StockState.onTick, StockState.onTick, if_neg ha, if_neg ha']
    exact ⟨by simpa using ha, rfl, rfl⟩

omit [FactorScalar R] in
/-- **The two builds have the same effects.** -/
theorem Inv.sameEffects (hx : Inv stockCode x) (he : ShRecord stockCode e.1) (alwaysBuy : Bool) :
    SameEffects alwaysBuy stockCode x e := by
  rcases hx.step_cases he alwaysBuy with ⟨-, hl, hr⟩ | ⟨hl, hr⟩ |
    ⟨timestamp, -, hl, hr⟩
  · rw [SameEffects, hl, hr]
    exact .nil
  · rw [SameEffects, hl, hr]
    exact .cons (.tick e.1) .nil
  · rw [SameEffects, hl, hr]
    split_ifs
    · exact .cons .sendBuyRequest (.cons (.endSign _) .nil)
    · exact .cons (.endSign _) .nil

/-- A tick that does the same to both stocks keeps them equal. -/
theorem SameCompute.tick {l r : Option (StockCompute R)} (h : SameCompute l r) {m : Image}
    {t : L2.Tick} (heq : ∀ c, l = some c → c.onTick (.ne .SH) m = c.onTick (.replay .SH) t) :
    SameCompute (l.bind fun c => c.runTicks (.ne .SH) [m])
      (r.bind fun c => c.runTicks (.replay .SH) [t]) := by
  obtain ⟨rfl, hsound, happroach⟩ := h
  cases l with
  | none =>
    rw [Option.bind_none, Option.bind_none]
    exact ⟨rfl, fun c hc => absurd hc (by simp), fun c hc => absurd hc (by simp)⟩
  | some c =>
    have hl : c.runTicks (.ne .SH) [m] = c.onTick (.ne .SH) m :=
      StockCompute.runTicks_singleton (.ne .SH) c m
    have hr : c.runTicks (.replay .SH) [t] = c.onTick (.replay .SH) t :=
      StockCompute.runTicks_singleton (.replay .SH) c t
    rw [Option.bind_some, Option.bind_some, hl, hr]
    refine ⟨heq c rfl, fun d hd => (hsound c rfl).onTick hd, fun d hd => ?_⟩
    rw [(StockCompute.onTick_frame (hsound c rfl).onGrid hd).upperLimitPriceApproach]
    exact happroach c rfl

omit [FactorScalar R] in
theorem pushed_stop {b : Build} (p : Prop) [Decidable p] (tick : b.Tick) :
    pushed ((if p then [.sendBuyRequest] else []) ++ [.pushTick tick]) = [tick] := by
  split_ifs <;> rfl

/-- The compute threads take the same, one tick of each record or the end sign. -/
theorem Inv.sameCompute (hx : Inv stockCode x) (he : ShRecord stockCode e.1) (alwaysBuy : Bool) :
    SameCompute (ShTwin.step alwaysBuy x e).liveCompute
      (ShTwin.step alwaysBuy x e).replayCompute := by
  simp only [ShTwin.step]
  rcases hx.step_cases he alwaysBuy with ⟨-, hl, hr⟩ | ⟨hl, hr⟩ |
    ⟨timestamp, htime, hl, hr⟩
  · rw [hl, hr]
    simpa [pushed, StockCompute.runTicks] using hx.compute
  · rw [hl, hr]
    refine hx.compute.tick fun c hc => ?_
    obtain ⟨hlo, hhi⟩ := hx.compute.approach c hc
    exact StockCompute.onTick_shTick he hlo hhi
  · rw [hl, hr, pushed_stop, pushed_stop]
    refine hx.compute.tick fun c hc => ?_
    have hreplay : StockState.LimitUpTime (.replay .SH) timestamp :=
      ⟨htime.le, htime.lt, fun h => by simp at h⟩
    rw [StockCompute.onTick_endSign htime he.length_securityID e.2,
      StockCompute.onTick_endSign hreplay (htime.coarse (.inl rfl)) e.2]

theorem Inv.step (hx : Inv stockCode x) (he : ShRecord stockCode e.1) (alwaysBuy : Bool) :
    Inv stockCode (step alwaysBuy x e) := by
  have hcompute := hx.sameCompute he alwaysBuy
  rcases hx.step_cases he alwaysBuy with ⟨-, hl, hr⟩ | ⟨hl, hr⟩ |
    ⟨timestamp, -, hl, hr⟩
  · refine ⟨?_, ?_, ?_, ?_, hcompute⟩ <;> simp only [ShTwin.step, hl, hr]
    · exact hx.alive
    · exact hx.liveCode
    · exact hx.replayCode
    · exact hx.limit
  · refine ⟨?_, ?_, ?_, ?_, hcompute⟩ <;> simp only [ShTwin.step, hl, hr]
    · exact hx.alive
    · exact hx.liveCode
    · exact hx.replayCode
    · exact hx.limit
  · refine ⟨?_, ?_, ?_, ?_, hcompute⟩ <;> simp only [ShTwin.step, hl, hr]
    · exact hx.liveCode
    · exact hx.replayCode
    · exact hx.limit

theorem Inv.start {stat : Stat} (hmarket : stat.marketType = .SH)
    (hlo : 10 ≤ stat.upperLimitPrice) (hhi : stat.upperLimitPrice * 10 < 2 ^ 31) :
    Inv stockCode (start stockCode stat : ShTwin R) := by
  have hne : stat.upperLimitPrice ≠ 0 := by omega
  have hcast := Word.toUnsigned_of_range (w := 32) (show 0 ≤ stat.upperLimitPrice * 10 by omega)
    (by omega)
  have hsound := StockCompute.Sound.start (R := R)
  simp only [ShTwin.start, StockState.start, StockState.onStatic, StockState.watch, if_pos hmarket,
    if_neg hne]
  refine ⟨rfl, rfl, rfl, hcast, rfl, fun c hc => ?_, fun c hc => ?_⟩
  · rw [← Option.some.inj hc]
    exact hsound _
  · rw [← Option.some.inj hc]
    show 0 ≤ stat.upperLimitPrice * 100 / 102 - 1 ∧
      (stat.upperLimitPrice * 100 / 102 - 1) * 10 < 2 ^ 31
    omega

/-- What is known of the stocks as long as no message is late. -/
def Kept (stockCode : Int32) (x : ShTwin R) : Prop := Inv stockCode x ∧ x.liveCompute.isSome

/-- A record that is not late does not lose the stocks. -/
theorem Kept.step (hx : Kept stockCode x) (he : ShRecord stockCode e.1)
    (htime : (shTick e.1).timestamp ≤ 235959900) (alwaysBuy : Bool) :
    Kept stockCode (step alwaysBuy x e) := by
  obtain ⟨hx, hsome⟩ := hx
  refine ⟨hx.step he alwaysBuy, ?_⟩
  obtain ⟨c, hc⟩ := Option.isSome_iff_exists.1 hsome
  simp only [ShTwin.step, hc, Option.bind_some]
  rcases hx.step_cases he alwaysBuy with ⟨-, hl, -⟩ | ⟨hl, -⟩ |
    ⟨timestamp, hlimit, hl, -⟩
  · rw [hl]
    rfl
  · obtain ⟨hlo, hhi⟩ := hx.compute.approach c hc
    have hone : c.runTicks (.ne .SH) (pushed (x.liveTick alwaysBuy e).2) =
        c.onTick (.replay .SH) (shTick e.1) := by
      rw [hl, ← StockCompute.onTick_shTick he hlo hhi]
      exact StockCompute.runTicks_singleton (.ne .SH) c e.1
    rw [hone, Option.isSome_iff_ne_none]
    by_cases ha : c.alive
    · rw [Ne, StockCompute.onTick_replay_eq_none_iff .SH ha ((hx.compute.sound c hc).onGrid ha)]
      rintro ⟨-, -, hlate⟩
      omega
    · rw [StockCompute.onTick, StockCompute.calls, if_neg ha]
      exact Option.some_ne_none c
  · have hone : c.runTicks (.ne .SH) (pushed (x.liveTick alwaysBuy e).2) =
        some (if c.alive then c.stop else c) := by
      rw [hl, pushed_stop, ← StockCompute.onTick_endSign hlimit he.length_securityID e.2]
      exact StockCompute.runTicks_singleton (.ne .SH) c _
    rw [hone]
    rfl

/-- **The two Shanghai builds agree** on every run: the effects of the tick threads
    correspond, message by message; the stocks of the compute threads agree after
    every message; and they are not lost if no message is after the last slot of
    the day. -/
theorem builds_agree {stat : Stat} (hmarket : stat.marketType = .SH)
    (hlo : 10 ≤ stat.upperLimitPrice) (hhi : stat.upperLimitPrice * 10 < 2 ^ 31) (alwaysBuy : Bool)
    {es : List (Image × WantCache.Intent)} (hes : ∀ e ∈ es, ShRecord stockCode e.1) :
    Run.EachStep (step alwaysBuy) (SameEffects alwaysBuy stockCode)
      (start stockCode stat : ShTwin R) es ∧
    Run.Always (step alwaysBuy) Agree (start stockCode stat : ShTwin R) es ∧
    ((∀ e ∈ es, (shTick e.1).timestamp ≤ 235959900) → Run.Always (step alwaysBuy)
      (fun x => x.liveCompute.isSome) (start stockCode stat : ShTwin R) es) := by
  have hstart : Inv stockCode (start stockCode stat : ShTwin R) := .start hmarket hlo hhi
  have hinv : Run.Always (step alwaysBuy) (Inv stockCode) (start stockCode stat : ShTwin R) es :=
    Run.always_of_step (fun _ _ hx he => hx.step he alwaysBuy) hstart hes
  refine ⟨hinv.eachStep (fun _ _ hx he => hx.sameEffects he alwaysBuy) hes,
    hinv.mono fun _ hx => hx.agree, fun htime => ?_⟩
  have hkept : Run.Always (step alwaysBuy) (Kept stockCode)
      (start stockCode stat : ShTwin R) es :=
    Run.always_of_step
      (fun _ e hx (he : ShRecord stockCode e.1 ∧ (shTick e.1).timestamp ≤ 235959900) =>
        hx.step he.1 he.2 alwaysBuy)
      ⟨hstart, rfl⟩ fun e he => ⟨hes e he, htime e he⟩
  exact hkept.mono fun _ hx => hx.2

/-- A record of stock 600000. -/
def shRecord (tickType bsFlag : Char) (tickTime buyOrderNo sellOrderNo price qty : ℕ) : Image :=
  let m : Image := 0
  let m := Packed.setBytes m 6 (StockState.securityID 600000)
  let m := Packed.setField m 15 1 (BitVec.ofNat _ tickType.toNat)
  let m := Packed.setField m 16 1 (BitVec.ofNat _ bsFlag.toNat)
  let m := Packed.setField m 29 4 (BitVec.ofNat _ tickTime)
  let m := Packed.setField m 33 8 (BitVec.ofNat _ buyOrderNo)
  let m := Packed.setField m 41 8 (BitVec.ofNat _ sellOrderNo)
  let m := Packed.setField m 49 4 (BitVec.ofNat _ price)
  Packed.setField m 53 8 (BitVec.ofNat _ qty)

/-- A sell order, a trade of a part of it, the cancel of the rest, and a buy order at the
    limit price. -/
def limitUpRecords : List (Image × WantCache.Intent) :=
  [(shRecord 'A' '1' 9300000 0 7 10950 300000, .NotSure),
    (shRecord 'T' '0' 9300001 5 7 10950 100000, .NotSure),
    (shRecord 'D' '1' 9300005 0 7 10950 200000, .NotSure),
    (shRecord 'A' '0' 9300012 8 0 11000 300000, .WantBuy)]

theorem shRecord_limitUpRecords : ∀ e ∈ limitUpRecords, ShRecord 600000 e.1 := by
  simp only [limitUpRecords, List.forall_mem_cons]
  refine ⟨⟨?_, ?_, ?_, ?_, ?_, ?_, ?_, ⟨9, 30, 0, 0, ?_, ?_, ?_, ?_⟩, ?_⟩,
    ⟨?_, ?_, ?_, ?_, ?_, ?_, ?_, ⟨9, 30, 0, 10, ?_, ?_, ?_, ?_⟩, ?_⟩,
    ⟨?_, ?_, ?_, ?_, ?_, ?_, ?_, ⟨9, 30, 0, 50, ?_, ?_, ?_, ?_⟩, ?_⟩,
    ⟨?_, ?_, ?_, ?_, ?_, ?_, ?_, ⟨9, 30, 0, 120, ?_, ?_, ?_, ?_⟩, ?_⟩,
    fun e he => absurd he List.not_mem_nil⟩ <;> decide +kernel

theorem builds_agree_limitUp :
    let x : ShTwin ℚ := start 600000 ⟨600000, .SH, 1000, 1100, 20250722⟩
    (limitUpRecords.foldl (step false) x).live.alive = false ∧
    Run.EachStep (step false) (SameEffects false 600000) x limitUpRecords ∧
    Run.Always (step false) Agree x limitUpRecords ∧
    ((∀ e ∈ limitUpRecords, (shTick e.1).timestamp ≤ 235959900) →
      Run.Always (step false) (fun x => x.liveCompute.isSome) x limitUpRecords) := by
  intro x
  exact ⟨by decide +kernel,
    builds_agree rfl (by simp) (by norm_num) false shRecord_limitUpRecords⟩

end ShTwin

end Mdd2
