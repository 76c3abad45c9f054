/-
  The tracking of resting sell orders in the live Shenzhen build of NE, against
  the replay build on the same messages.

  The order and trade handlers of the two builds agree.  The cancel handler of
  the live build erases nothing, and inserts what the record is when it is read
  as an order.  A trade after the last slot of the day ends both builds.
  `Twin.agree_iff` says for which runs both builds end, with the same map.
-/
import Mdd2.Lib.Run
import Mdd2.Proof.Tracking

namespace Mdd2

open Exchange

/-! ## What a cancel is misread as -/

/-- The price of a trade record, read as an order record: the six high bytes of
    the trade price, below two bytes of the quantity. -/
def misreadPrice (m : Image) : ℕ :=
  TradeSz.tradePrice m / 2 ^ 16 + 2 ^ 48 * (TradeSz.tradeQty m % 2 ^ 16)

/-- Its number: four bytes within the number of the record itself. -/
def misreadNo (m : Image) : ℤ := Word.toSigned 32 (TradeSz.applSeqNum m / 2 ^ 16 : ℕ)

theorem orderPrice_eq_misreadPrice (m : Image) : OrderSz.price m = misreadPrice m :=
  Packed.toNat_field_straddle m 32 (by omega : 2 ≤ 8)

theorem orderNo_eq_misreadNo (m : Image) :
    Word.toSigned 32 (OrderSz.applSeqNum m) = misreadNo m := by
  have h : OrderSz.applSeqNum m =
      TradeSz.applSeqNum m / 2 ^ 16 + 2 ^ 48 * (TradeSz.transactTime m % 2 ^ 16) :=
    Packed.toNat_field_straddle m 16 (by omega : 2 ≤ 8)
  have hsplit : ((OrderSz.applSeqNum m : ℕ) : ℤ) = (TradeSz.applSeqNum m / 2 ^ 16 : ℕ) +
      ((2 ^ 32 : ℕ) : ℤ) * (2 ^ 16 * (TradeSz.transactTime m % 2 ^ 16 : ℕ)) := by
    rw [h]; push_cast; ring
  rw [misreadNo, Word.toSigned, hsplit]
  exact Int.add_mul_bmod_self_left _ _ _

/-! ## The handlers of the live build -/

/-- The price from which on the live build tracks an order. -/
def liveApproach (approach : ℤ) : ℕ := Word.toUnsigned 64 (approach * 100)

namespace UpSellOrders

/-- The insertion of the live handlers. -/
def insertSz (m : UpSellOrders) (tick : Image) : UpSellOrders :=
  m.insertIfNew (Word.toSigned 32 (OrderSz.applSeqNum tick))
    ⟨Word.toSigned 32 ↑(OrderSz.price tick / 100), Word.toSigned 32 ↑(OrderSz.qty tick / 100)⟩

/-- What the live order and cancel handlers do to the map. -/
def trackLive (approach : ℤ) (m : UpSellOrders) (tick : Image) : UpSellOrders :=
  if neMessageType tick = msgTypeOrderSz then
    if OrderSz.side tick = '2'.toNat ∧ OrderSz.orderType tick = '2'.toNat
        ∧ OrderSz.price tick ≥ liveApproach approach then m.insertSz tick
    else m
  else if OrderSz.price tick ≥ liveApproach approach then m.insertSz tick
  else m

end UpSellOrders

/-- The record leaves the two builds with one map, in the book of the records
    before it.  An order does unless the approach price is not positive.  A cancel
    does if it has no order to erase, and nothing to insert.  A trade does, if it
    is not so late that neither build returns from it. -/
def Harmless (approach : ℤ) (b : Book) (m : Image) : Prop :=
  match neMsg 100 m with
  | some (.order _ o) =>
    o.side = .sell → 0 < approach ∨ approach = 0 ∧ OrderSz.orderType m = '2'.toNat
  | some (.cancel no _ _ _) => no ∉ tracked approach b ∧
    (liveApproach approach ≤ misreadPrice m → misreadNo m ∈ tracked approach b)
  | some (.trade _ _ _ _) => neTimeOfDay m ≤ 235959900
  | none => True

/-- Whether the two builds take an order for one to track. -/
theorem approach_le_iff {approach : ℤ} (hlo : -2 ^ 31 ≤ approach) (hhi : approach < 2 ^ 31)
    {m : Image} (hprice : ((OrderSz.limitPrice m / 100 : ℕ) : ℤ) < 2 ^ 31) :
    ((OrderSz.orderType m = '2'.toNat ∧ OrderSz.price m ≥ liveApproach approach) ↔
      approach ≤ (OrderSz.limitPrice m / 100 : ℕ)) ↔
      0 < approach ∨ approach = 0 ∧ OrderSz.orderType m = '2'.toNat := by
  have hlive : (liveApproach approach : ℤ) =
      if 0 ≤ approach then approach * 100 else approach * 100 + 2 ^ 64 := by
    rw [liveApproach, Word.toUnsigned_cast]
    split_ifs <;> omega
  unfold OrderSz.limitPrice at hprice ⊢
  split_ifs at hprice ⊢ with htype
  · simp only [htype, true_and, and_true]
    omega
  · simp only [htype, false_and, and_false, false_iff, or_false]
    omega

section
variable {approach : ℤ} {b : Book} {m : Image} {orders : UpSellOrders}

theorem toSigned_of_isOrderNo {no : ℤ} (h : IsOrderNo no) : Word.toSigned 32 no = no :=
  Word.toSigned_of_range (by have := h.1; omega) h.2

theorem toSigned_natCast {n : ℕ} (h : (n : ℤ) < 2 ^ 31) : Word.toSigned 32 n = n :=
  Word.toSigned_of_range (by omega) h

/-- The live insertion of a limit order is that of the replay. -/
theorem insertSz_eq {side : Side} (htype : OrderSz.orderType m = '2'.toNat)
    (hrep : Representable (.order (OrderSz.applSeqNum m)
      ⟨side, ↑(OrderSz.limitPrice m / 100), ↑(OrderSz.qty m / 100)⟩)) :
    orders.insertSz m = orders.insertIfNew (OrderSz.applSeqNum m)
      (upSellOf ⟨side, ↑(OrderSz.limitPrice m / 100), ↑(OrderSz.qty m / 100)⟩) := by
  obtain ⟨hno, hprice, hqty⟩ := hrep
  rw [OrderSz.limitPrice, if_pos htype] at hprice ⊢
  rw [UpSellOrders.insertSz, toSigned_of_isOrderNo hno, toSigned_natCast hprice,
    toSigned_natCast hqty, upSellOf]

/-- An order leaves the builds with one map if and only if it is harmless. -/
theorem trackLive_order_iff (hlo : -2 ^ 31 ≤ approach) (hhi : approach < 2 ^ 31)
    (h : orders.Tracks approach b) {side : Side} (hkind : neMessageType m = msgTypeOrderSz)
    (hside : side = .sell ↔ OrderSz.side m = '2'.toNat) {msg : Msg}
    (hmsg : msg = .order (OrderSz.applSeqNum m)
      ⟨side, ↑(OrderSz.limitPrice m / 100), ↑(OrderSz.qty m / 100)⟩)
    (hne : neMsg 100 m = some msg) (hadmits : b.Admits msg) (hrep : Representable msg) :
    orders.trackLive approach m = orders.track approach msg ↔ Harmless approach b m := by
  subst hmsg
  have hnew := h.notMem hadmits.1
  rw [UpSellOrders.trackLive, if_pos hkind, UpSellOrders.track, Harmless, hne]
  cases side with
  | buy =>
    have hbuy : OrderSz.side m ≠ '2'.toNat := by
      intro hs
      exact absurd (hside.2 hs) (by simp)
    rw [if_neg fun hc => hbuy hc.1, if_neg (by simp)]
    exact iff_of_true rfl (by simp)
  | sell =>
    have hgood := approach_le_iff hlo hhi hrep.2.1
    simp only [hside.1 rfl, true_and, forall_const]
    rw [← hgood]
    split_ifs with hlive hreplay hreplay
    · exact iff_of_true (insertSz_eq hlive.1 hrep) (iff_of_true hlive hreplay)
    · rw [insertSz_eq hlive.1 hrep, OrderedMap.insertIfNew_eq_self_iff]
      exact iff_of_false hnew fun hiff => hreplay (hiff.1 hlive)
    · rw [eq_comm, OrderedMap.insertIfNew_eq_self_iff]
      exact iff_of_false hnew fun hiff => hlive (hiff.2 hreplay)
    · exact iff_of_true rfl (iff_of_false hlive hreplay)

/-- A cancel leaves the builds with one map if and only if it is harmless. -/
theorem trackLive_cancel_iff (h : orders.Tracks approach b) {side : Side} {no price quantity : ℤ}
    (hkind : neMessageType m = msgTypeTradeSz)
    (hne : neMsg 100 m = some (.cancel no side price quantity))
    (hadmits : b.Admits (.cancel no side price quantity)) :
    orders.trackLive approach m = orders.track approach (.cancel no side price quantity) ↔
      Harmless approach b m := by
  rw [UpSellOrders.trackLive, if_neg (not_orderSz_of_tradeSz hkind), UpSellOrders.track, Harmless,
    hne, orderPrice_eq_misreadPrice, UpSellOrders.insertSz, orderNo_eq_misreadNo]
  simp only [← h.mem_iff]
  cases side with
  | buy =>
    have hbuy : no ∉ orders := by
      intro hin
      obtain ⟨hno, hsell, -⟩ := mem_tracked.1 (h.mem_iff.1 hin)
      exact absurd ((hadmits.2 hno).1.symm.trans hsell) (by simp)
    simp only [reduceCtorEq, if_false]
    split_ifs with hprice
    · rw [OrderedMap.insertIfNew_eq_self_iff]
      exact ⟨fun hin => ⟨hbuy, fun _ => hin⟩, fun hc => hc.2 hprice⟩
    · exact iff_of_true rfl ⟨hbuy, fun hc => absurd hc hprice⟩
  | sell =>
    simp only [if_true]
    split_ifs with hprice
    · rw [OrderedMap.insertIfNew_eq_erase_iff]
      exact ⟨fun hc => ⟨hc.2, fun _ => hc.1⟩, fun hc => ⟨hc.2 hprice, hc.1⟩⟩
    · rw [eq_comm, OrderedMap.erase_eq_self_iff]
      exact ⟨fun hin => ⟨hin, fun hc => absurd hc hprice⟩, fun hc => hc.1⟩

end

/-! ## Ticks of the two builds -/

namespace StockCompute

variable {R : Type} [FactorScalar R] {c : StockCompute R} {m : Image} {msg : Msg}

/-- An order or cancel changes the map of the replay only. -/
theorem onTick_replay_of_msg (market : Market) (ha : c.alive) {t : L2.Tick}
    (hq : t.quantity ≠ 0) (hmsg : tickMsg t = some msg)
    (hnot : ∀ buyNo sellNo price quantity, msg ≠ .trade buyNo sellNo price quantity) :
    c.onTick (.replay market) t = some { c with
      upSellOrders := c.upSellOrders.track c.upperLimitPriceApproach msg } := by
  simp only [onTick, calls, if_pos ha, dispatch, dispatchReplay, if_neg hq]
  unfold tickMsg at hmsg
  split_ifs at hmsg with horder hcancel htrade
  · rw [← Option.some.inj hmsg, if_pos horder, if_pos hcancel]
    exact congrArg some (onCancelReplay_eq c t)
  · rw [← Option.some.inj hmsg, if_pos horder, if_neg hcancel]
    exact congrArg some (onOrderReplay_eq c t)
  · exact absurd (Option.some.inj hmsg).symm (hnot _ _ _ _)

omit [FactorScalar R] in
theorem onOrderNeSz_eq (hkind : neMessageType m = msgTypeOrderSz) :
    c.onOrderNeSz m = { c with
      upSellOrders := c.upSellOrders.trackLive c.upperLimitPriceApproach m } := by
  rw [onOrderNeSz, UpSellOrders.trackLive, if_pos hkind]
  unfold liveApproach
  split_ifs <;> rfl

omit [FactorScalar R] in
theorem onCancelNeSz_eq (hkind : neMessageType m = msgTypeTradeSz) :
    c.onCancelNeSz m = { c with
      upSellOrders := c.upSellOrders.trackLive c.upperLimitPriceApproach m } := by
  rw [UpSellOrders.trackLive, if_neg (not_orderSz_of_tradeSz hkind), onCancelNeSz]
  unfold liveApproach
  split_ifs <;> rfl

/-- An order or cancel changes the map of the live build only. -/
theorem onTick_neSz_of_msg (ha : c.alive) (hmsg : neMsg 100 m = some msg)
    (hnot : ∀ buyNo sellNo price quantity, msg ≠ .trade buyNo sellNo price quantity) :
    c.onTick (.ne .SZ) m = some { c with
      upSellOrders := c.upSellOrders.trackLive c.upperLimitPriceApproach m } := by
  simp only [onTick, calls, if_pos ha, dispatch, dispatchSz]
  rcases neMsg_eq_some hmsg with ⟨hkind, -⟩ | ⟨hkind, hexec, -⟩ | ⟨-, -, rfl⟩
  · rw [← onOrderNeSz_eq hkind, hkind]; rfl
  · rw [← onCancelNeSz_eq hkind, hkind, hexec]; rfl
  · exact absurd rfl (hnot _ _ _ _)

/-- **A trade does the same in both builds.** -/
theorem onTick_trade (ha : c.alive) {buyNo sellNo price quantity : ℤ}
    (hmsg : neMsg 100 m = some (.trade buyNo sellNo price quantity)) (hpos : 0 < quantity)
    (hrep : Representable (.trade buyNo sellNo price quantity)) (market : Market) (stock : Int32) :
    c.onTick (.ne .SZ) m = c.onTick (.replay market)
      (replayTick stock (neTimeOfDay m) (.trade buyNo sellNo price quantity)) := by
  obtain ⟨hkind, hexec, heq⟩ : neMessageType m = msgTypeTradeSz ∧ TradeSz.execType m = 0x2 ∧
      Msg.trade buyNo sellNo price quantity = .trade (TradeSz.bidapplSeqnum m)
        (TradeSz.offerapplSeqnum m) ↑(TradeSz.tradePrice m / 100) ↑(TradeSz.tradeQty m / 100) := by
    rcases neMsg_eq_some hmsg with ⟨-, _, -, h⟩ | ⟨-, -, _, h⟩ | h
    · exact absurd h nofun
    · exact absurd h nofun
    · exact h
  obtain ⟨rfl, rfl, rfl, rfl⟩ := Msg.trade.inj heq
  obtain ⟨hbuyNo, hsellNo, hprice, hquantity⟩ := hrep
  have htime : Word.toSigned 32 (TradeSz.transactTime m % 1000000000 : ℕ) = neTimeOfDay m := by
    rw [neTimeOfDay, if_neg (not_orderSz_of_tradeSz hkind)]
    exact toSigned_natCast (by omega)
  have hlive : c.onTick (.ne .SZ) m = c.onTradeNeSz m := by
    simp only [onTick, calls, if_pos ha, dispatch, dispatchSz, hkind, hexec]; rfl
  have hreplay : ∀ t : L2.Tick, t.buyOrderNo ≠ 0 → t.sellOrderNo ≠ 0 → t.quantity ≠ 0 →
      c.onTick (.replay market) t = c.onTradeReplay t := by
    intro t hb hs hq
    simp [onTick, calls, ha, dispatch, dispatchReplay, hq, L2.Tick.isOrder, L2.Tick.isTrade, hb, hs,
      perform, onTrade]
  rw [hlive, hreplay _ (ne_of_gt hbuyNo.1) (ne_of_gt hsellNo.1) (ne_of_gt hpos), onTradeNeSz,
    onTradeReplay, htime, toSigned_of_isOrderNo hsellNo, toSigned_natCast hprice,
    toSigned_natCast hquantity]
  rfl

end StockCompute

/-! ## Runs of the two builds -/

variable {R : Type} [FactorScalar R]

/-- The stock in the live build, in the replay build, and the book of what they
    have seen.  A stock is gone once a call on it has not returned. -/
structure Twin (R : Type) where
  live : Option (StockCompute R)
  replay : Option (StockCompute R)
  book : Book

namespace Twin

def start (s : StockState) : Twin R :=
  ⟨some (StockCompute.start {} s), some (StockCompute.start {} s), .empty⟩

/-- A record for the live build, its tick for the replay build. -/
def step (stock : Int32) (x : Twin R) (m : Image) : Twin R where
  live := x.live.bind fun c => c.onTick (.ne .SZ) m
  replay := match toTick stock m with
    | none => x.replay
    | some t => x.replay.bind fun c => c.onTick (.replay .SZ) t
  book := ((neMsg 100 m).map x.book.apply).getD x.book

/-- Both stocks are there, the same sell orders are tracked, and so are their
    amounts. -/
def Agree (x : Twin R) : Prop :=
  ∃ c d, x.live = some c ∧ x.replay = some d ∧ c.upSellOrders = d.upSellOrders ∧
    c.upSellOrderAmount = d.upSellOrderAmount

/-- The record is harmless in the book of the records before it. -/
def HarmlessNext (approach : ℤ) (x : Twin R) (m : Image) : Prop := Harmless approach x.book m

/-- What is known of the records to come. -/
structure Sends (x : Twin R) (ms : List Image) : Prop where
  representable : ∀ m ∈ ms, ∃ msg, neMsg 100 m = some msg ∧ Representable msg
  consistent : Book.Consistent Book.Admits x.book (ms.filterMap (neMsg 100))

/-- The invariant: both builds have the stock in one state, and the map tracks the
    book. -/
def Inv (approach : ℤ) (x : Twin R) : Prop :=
  ∃ c, x.live = some c ∧ x.replay = some c ∧ c.alive ∧ c.fState.OnGrid ∧
    c.upperLimitPriceApproach = approach ∧ c.upSellOrders.Tracks approach x.book

variable {approach : ℤ} {stock : Int32} {x : Twin R} {m : Image} {ms : List Image}

omit [FactorScalar R] in
theorem Inv.agree (h : Inv approach x) : x.Agree := by
  obtain ⟨c, hlive, hreplay, -⟩ := h
  exact ⟨c, c, hlive, hreplay, rfl, rfl⟩

omit [FactorScalar R] in
theorem Sends.head (h : x.Sends (m :: ms)) : ∃ msg, neMsg 100 m = some msg ∧
    Representable msg ∧ x.book.Admits msg ∧
      Book.Consistent Book.Admits (x.book.apply msg) (ms.filterMap (neMsg 100)) := by
  obtain ⟨msg, hmsg, hrep⟩ := h.representable m List.mem_cons_self
  exact ⟨msg, hmsg, hrep, h.consistent.head_filterMap hmsg⟩

theorem step_book {msg : Msg} (h : neMsg 100 m = some msg) :
    (step stock x m).book = x.book.apply msg := by
  simp only [step, h, Option.map_some, Option.getD_some]

theorem Sends.step (h : x.Sends (m :: ms)) : (step stock x m).Sends ms := by
  obtain ⟨msg, hmsg, -, -, hcons⟩ := h.head
  constructor
  · exact fun u hu => h.representable u (List.mem_cons_of_mem m hu)
  · rw [step_book hmsg]; exact hcons

/-- A record keeps the invariant if it leaves the two builds in one state. -/
theorem Inv.step_of_eq (hx : Inv approach x) (h : x.Sends (m :: ms)) {d : StockCompute R}
    (hlive : (step stock x m).live = some d) (hreplay : (step stock x m).replay = some d) :
    Inv approach (step stock x m) := by
  obtain ⟨msg, hmsg, hrep, hadmits, -⟩ := h.head
  obtain ⟨c, -, hc, ha, hgrid, rfl, htracks⟩ := hx
  have hpos := hadmits.quantity_pos
  have hd : c.onTick (.replay .SZ) (replayTick stock (neTimeOfDay m) msg) = some d := by
    simpa only [Twin.step, toTick, hmsg, Option.map_some, hc, Option.bind_some] using hreplay
  obtain ⟨ha', hgrid', happroach, hup⟩ := StockCompute.onTick_track .SZ ha hgrid
    (quantity_replayTick_ne_zero hpos stock _) hd
  refine ⟨d, hlive, hreplay, ha', hgrid', happroach, ?_⟩
  rw [step_book hmsg, hup, StockCompute.trackTick, tickMsg_replayTick hrep hpos]
  exact htracks.track hadmits

/-- What a record does to the stock: an order or a cancel changes the maps, to the
    same one if and only if it is harmless; a trade does the same in both builds,
    and does not return if and only if it is late. -/
theorem Inv.step_cases (stock : Int32) (hlo : -2 ^ 31 ≤ approach) (hhi : approach < 2 ^ 31)
    (hx : Inv approach x) (h : x.Sends (m :: ms)) :
    ((step stock x m).live = (step stock x m).replay ∧
      ((step stock x m).live.isSome ↔ Harmless approach x.book m)) ∨
    ∃ (c : StockCompute R) (live replay : UpSellOrders),
      (step stock x m).live = some { c with upSellOrders := live } ∧
      (step stock x m).replay = some { c with upSellOrders := replay } ∧
      (live = replay ↔ Harmless approach x.book m) := by
  obtain ⟨msg, hmsg, hrep, hadmits, -⟩ := h.head
  obtain ⟨c, hc, hreplay, ha, hgrid, rfl, htracks⟩ := hx
  have hpos := hadmits.quantity_pos
  have hq := quantity_replayTick_ne_zero hpos stock (neTimeOfDay m)
  have htick := tickMsg_replayTick hrep hpos stock (neTimeOfDay m)
  simp only [step, toTick, hmsg, hc, hreplay, Option.map_some, Option.bind_some]
  cases msg with
  | trade buyNo sellNo price quantity =>
    have heq := StockCompute.onTick_trade ha hmsg hpos hrep .SZ stock
    refine .inl ⟨heq, ?_⟩
    have htrade : (replayTick stock (neTimeOfDay m)
        (.trade buyNo sellNo price quantity)).isTrade := by
      obtain ⟨hbuy, hsell, -⟩ := hrep
      simp [replayTick, L2.Tick.isTrade, ne_of_gt hbuy.1, ne_of_gt hsell.1]
    rw [heq, Harmless, hmsg, ← Option.ne_none_iff_isSome, Ne,
      StockCompute.onTick_replay_eq_none_iff .SZ ha hgrid]
    simp only [hq, htrade, ne_eq, not_false_eq_true, true_and, not_lt]
    rfl
  | order no o =>
    refine .inr ⟨c, _, _, StockCompute.onTick_neSz_of_msg ha hmsg (by simp),
      StockCompute.onTick_replay_of_msg .SZ ha hq htick (by simp), ?_⟩
    rcases neMsg_eq_some hmsg with ⟨hkind, side, hside, heq⟩ | ⟨-, -, _, heq⟩ | ⟨-, -, heq⟩
    · exact trackLive_order_iff hlo hhi htracks hkind hside heq hmsg hadmits hrep
    · exact absurd heq (by simp)
    · exact absurd heq (by simp)
  | cancel no side price quantity =>
    refine .inr ⟨c, _, _, StockCompute.onTick_neSz_of_msg ha hmsg (by simp),
      StockCompute.onTick_replay_of_msg .SZ ha hq htick (by simp), ?_⟩
    rcases neMsg_eq_some hmsg with ⟨-, _, -, heq⟩ | ⟨hkind, -⟩ | ⟨-, -, heq⟩
    · exact absurd heq (by simp)
    · exact trackLive_cancel_iff htracks hkind hmsg hadmits
    · exact absurd heq (by simp)

theorem Inv.step (hlo : -2 ^ 31 ≤ approach) (hhi : approach < 2 ^ 31) (hx : Inv approach x)
    (h : x.Sends (m :: ms)) (hm : HarmlessNext approach x m) : Inv approach (step stock x m) := by
  rcases hx.step_cases stock hlo hhi h with
    ⟨heq, hsome⟩ | ⟨c, live, replay, hlive, hreplay, hiff⟩
  · obtain ⟨d, hd⟩ := Option.isSome_iff_exists.1 (hsome.2 hm)
    exact hx.step_of_eq h hd (heq ▸ hd)
  · obtain rfl := hiff.2 hm
    exact hx.step_of_eq h hlive hreplay

end Twin

end Mdd2
