/-
  The tracking of resting sell orders in the replay builds.

  `UpSellOrders.Tracks` says that the map holds the live sell orders of the book
  near the limit price, with what remains of each.  The handlers do what `track`
  says for the message of a tick (`onTick_track`), every message the book admits
  keeps the relation (`Tracks.track`), and so does every run (`runTicks_tracks`).
  The amount of the orders is theirs as 64 bits hold it, and exact if it fits.
-/
import Mdd2.Lib.OrderedMap
import Mdd2.Proof.Handlers
import Mdd2.Proof.Messages

namespace Mdd2

open Exchange

/-! ## The orders to track -/

/-- The numbers of the orders to track: the live sell orders near the limit. -/
def tracked (approach : ℤ) (b : Book) : Finset ℤ :=
  b.numbers.filter fun no =>
    (b.order no).side = .sell ∧ approach ≤ (b.order no).price ∧ 0 < (b.order no).remaining

def upSellOf (o : Order) : UpSell := ⟨o.price, o.remaining⟩

theorem mem_tracked {approach : ℤ} {b : Book} {no : ℤ} : no ∈ tracked approach b ↔
    no ∈ b.numbers ∧ (b.order no).side = .sell ∧ approach ≤ (b.order no).price ∧
      0 < (b.order no).remaining := by
  simp only [tracked, Finset.mem_filter]

namespace UpSellOrders

/-- The map holds exactly the orders to track. -/
def Tracks (m : UpSellOrders) (approach : ℤ) (b : Book) : Prop :=
  OrderedMap.Describes m (tracked approach b) fun no => upSellOf (b.order no)

/-- What the handlers do to the map. -/
def track (approach : ℤ) (m : UpSellOrders) : Msg → UpSellOrders
  | .order no o =>
    if o.side = .sell ∧ approach ≤ o.price then m.insertIfNew no (upSellOf o) else m
  | .cancel no side _ _ => if side = .sell then m.erase no else m
  | .trade _ sellNo _ quantity => m.fill sellNo quantity

theorem getElem?_fill (m : UpSellOrders) (no quantity n : ℤ) :
    (m.fill no quantity)[n]? = if n = no then
      m[no]?.bind fun sell => if sell.quantity - quantity ≤ 0 then none
        else some { sell with quantity := sell.quantity - quantity }
    else m[n]? := by
  unfold fill
  cases hm : m[no]? with
  | none =>
    by_cases h : n = no
    · rw [if_pos h, h, hm]; rfl
    · rw [if_neg h]
  | some sell =>
    simp only [Option.bind_some]
    split_ifs
    · rw [OrderedMap.getElem?_erase, if_pos ‹_›]
    · rw [OrderedMap.getElem?_erase, if_neg ‹_›]
    · rw [OrderedMap.getElem?_insert, if_pos ‹_›]
    · rw [OrderedMap.getElem?_insert, if_neg ‹_›]

/-- The amount is the sum over the orders, as 64 bits hold it. -/
theorem amount_eq (m : UpSellOrders) : m.amount =
    Word.toSigned 64 (m.foldl (fun amount _ sell => amount + sell.price * sell.quantity) 0) := by
  rw [amount, Std.ExtTreeMap.foldl_eq_foldl_toList, Std.ExtTreeMap.foldl_eq_foldl_toList]
  have hsum := Word.foldl_toSigned_add 64
    (fun p : ℤ × UpSell => p.2.price * p.2.quantity) m.toList 0
  rw [show Word.toSigned 64 0 = 0 from rfl] at hsum
  rw [hsum, List.sum_eq_foldl, List.foldl_map, zero_add]

namespace Tracks
variable {m : UpSellOrders} {approach : ℤ} {b : Book}

/-- An order that was not introduced is not tracked. -/
theorem notMem (h : m.Tracks approach b) {no : ℤ} (hno : no ∉ b.numbers) : no ∉ m := by
  intro hin
  exact hno (mem_tracked.1 (h.mem_iff.1 hin)).1

theorem order (h : m.Tracks approach b) {no : ℤ} {o : Order} (hno : no ∉ b.numbers)
    (hpos : 0 < o.remaining) :
    (m.track approach (.order no o)).Tracks approach (b.apply (.order no o)) := by
  have hm := h.notMem hno
  intro n
  by_cases hn : n = no
  · subst hn
    have hin : n ∈ tracked approach (b.apply (.order n o)) ↔
        o.side = .sell ∧ approach ≤ o.price := by
      simp [mem_tracked, Book.apply, hpos]
    simp only [track, hin]
    split_ifs with ho
    · rw [OrderedMap.getElem?_insertIfNew, if_pos ⟨rfl, hm⟩]; simp [Book.apply]
    · rw [h n, if_neg fun hin => hno (mem_tracked.1 hin).1]
  · have hin : n ∈ tracked approach (b.apply (.order no o)) ↔ n ∈ tracked approach b := by
      simp [mem_tracked, Book.apply, hn]
    have ho : (b.apply (.order no o)).order n = b.order n := by simp [Book.apply, hn]
    simp only [hin, ho, ← h n]
    simp only [track]
    split_ifs
    · rw [OrderedMap.getElem?_insertIfNew, if_neg fun hk => hn hk.1]
    · rfl

theorem reduce_of_ne (h : m.Tracks approach b) {no n : ℤ} (hn : n ≠ no) (quantity : ℤ) :
    m[n]? = if n ∈ tracked approach (b.reduce no quantity) then
      some (upSellOf ((b.reduce no quantity).order n)) else none := by
  have hin : n ∈ tracked approach (b.reduce no quantity) ↔ n ∈ tracked approach b := by
    simp only [mem_tracked, Book.numbers_reduce, Book.order_reduce_of_ne _ _ _ hn]
  simp only [hin, Book.order_reduce_of_ne _ _ _ hn]
  exact h n

/-- A buy order is not tracked, whatever remains of it. -/
theorem reduce_buy (h : m.Tracks approach b) {no : ℤ}
    (hb : no ∈ b.numbers → (b.order no).side = .buy) (quantity : ℤ) :
    m.Tracks approach (b.reduce no quantity) := by
  intro n
  by_cases hn : n = no
  · subst hn
    have hnot : ∀ b' : Book, b'.numbers = b.numbers → (b'.order n).side = (b.order n).side →
        n ∉ tracked approach b' := by
      intro b' hnum hside hin
      obtain ⟨hmem, hsell, -⟩ := mem_tracked.1 hin
      rw [hside, hb (hnum ▸ hmem)] at hsell
      exact absurd hsell (by simp)
    rw [h n, if_neg (hnot b rfl rfl), if_neg (hnot (b.reduce n quantity) rfl
      (b.side_reduce n quantity n))]
  · exact h.reduce_of_ne hn quantity

/-- What is left of a sell order after a trade. -/
theorem fill (h : m.Tracks approach b) {no quantity : ℤ} (hpos : 0 < quantity)
    (hs : no ∈ b.numbers → b.Fits no .sell quantity) :
    (m.fill no quantity).Tracks approach (b.reduce no quantity) := by
  intro n
  rw [getElem?_fill]
  by_cases hn : n = no
  · subst hn
    have hleft : n ∈ tracked approach (b.reduce n quantity) ↔
        n ∈ tracked approach b ∧ 0 < (b.order n).remaining - quantity := by
      simp only [mem_tracked, Book.numbers_reduce, Book.order_reduce_self, Order.reduce]
      exact ⟨fun ⟨h1, h2, h3, h4⟩ => ⟨⟨h1, h2, h3, by omega⟩, h4⟩,
        fun ⟨⟨h1, h2, h3, _⟩, h4⟩ => ⟨h1, h2, h3, h4⟩⟩
    rw [if_pos rfl, h n]
    simp only [hleft, Book.order_reduce_self]
    by_cases hin : n ∈ tracked approach b
    · rw [if_pos hin, Option.bind_some]
      by_cases hq : (b.order n).remaining - quantity ≤ 0
      · have hleft' : ¬ (n ∈ tracked approach b ∧ 0 < (b.order n).remaining - quantity) :=
          fun h => absurd h.2 (not_lt.2 hq)
        rw [if_neg hleft']; exact if_pos hq
      · have hleft' : n ∈ tracked approach b ∧ 0 < (b.order n).remaining - quantity :=
          ⟨hin, not_le.1 hq⟩
        rw [if_pos hleft']; exact if_neg hq
    · rw [if_neg hin, if_neg fun h => hin h.1]; rfl
  · rw [if_neg hn]; exact h.reduce_of_ne hn quantity

/-- A cancel takes all that remains of a sell order. -/
theorem erase (h : m.Tracks approach b) {no quantity : ℤ}
    (hs : no ∈ b.numbers → quantity = (b.order no).remaining) :
    Tracks (m.erase no) approach (b.reduce no quantity) := by
  intro n
  rw [OrderedMap.getElem?_erase]
  by_cases hn : n = no
  · subst hn
    rw [if_pos rfl, if_neg]
    intro hin
    obtain ⟨hmem, -, -, hpos⟩ := mem_tracked.1 hin
    rw [Book.order_reduce_self, hs hmem, Order.reduce, sub_self] at hpos
    exact absurd hpos (lt_irrefl 0)
  · rw [if_neg hn]; exact h.reduce_of_ne hn quantity

/-- **Every message keeps the orders tracked.** -/
theorem track (h : m.Tracks approach b) {msg : Msg} (hmsg : b.Admits msg) :
    (m.track approach msg).Tracks approach (b.apply msg) := by
  cases msg with
  | order no o => exact h.order hmsg.1 hmsg.2
  | cancel no side price quantity =>
    cases side with
    | buy => exact h.reduce_buy (fun hin => (hmsg.2 hin).1) quantity
    | sell => exact h.erase fun hin => (hmsg.2 hin).2
  | trade buyNo sellNo price quantity =>
    obtain ⟨hpos, hbuy, hsell⟩ := hmsg
    refine (h.reduce_buy (fun hin => (hbuy hin).1) quantity).fill hpos fun hin => ?_
    by_cases he : sellNo = buyNo
    · have hside := (hbuy (he ▸ hin)).1
      rw [← he, (hsell hin).1] at hside
      exact absurd hside (by simp)
    · unfold Book.Fits
      rw [Book.order_reduce_of_ne _ _ _ he]
      exact hsell hin

end Tracks

end UpSellOrders

/-! ## Runs of the replay builds -/

namespace StockCompute

variable {R : Type} [FactorScalar R]

/-- The map after a tick. -/
def trackTick (approach : ℤ) (m : UpSellOrders) (t : L2.Tick) : UpSellOrders :=
  ((tickMsg t).map (m.track approach)).getD m

omit [FactorScalar R] in
theorem onOrderReplay_eq (c : StockCompute R) (t : L2.Tick) :
    c.onOrderReplay t = { c with
      upSellOrders := c.upSellOrders.track c.upperLimitPriceApproach
        (.order t.orderNo ⟨tickSide t, t.price, t.quantity⟩) } := by
  by_cases hs : t.isSellOrder
  · simp only [onOrderReplay, UpSellOrders.track, tickSide, hs, if_true, true_and]
    split_ifs <;> rfl
  · simp [onOrderReplay, UpSellOrders.track, tickSide, hs]

omit [FactorScalar R] in
theorem onCancelReplay_eq (c : StockCompute R) (t : L2.Tick) :
    c.onCancelReplay t = { c with
      upSellOrders := c.upSellOrders.track c.upperLimitPriceApproach
        (.cancel t.orderNo (tickSide t) t.price (-t.quantity)) } := by
  by_cases hs : t.isSellOrder
  · simp only [onCancelReplay, UpSellOrders.track, tickSide, hs, if_true]
  · simp [onCancelReplay, UpSellOrders.track, tickSide, hs]

/-- **A tick does what its message says**, and leaves the stock alive. -/
theorem onTick_track (market : Market) {c d : StockCompute R} (ha : c.alive)
    (hc : c.fState.OnGrid) {t : L2.Tick} (hq : t.quantity ≠ 0)
    (h : c.onTick (.replay market) t = some d) :
    d.alive ∧ d.fState.OnGrid ∧ d.upperLimitPriceApproach = c.upperLimitPriceApproach ∧
      d.upSellOrders = trackTick c.upperLimitPriceApproach c.upSellOrders t := by
  simp only [onTick, calls, if_pos ha, dispatch, dispatchReplay, if_neg hq] at h
  unfold trackTick tickMsg
  by_cases horder : t.isOrder
  · rw [if_pos horder] at h ⊢
    by_cases hcancel : t.isOrderCancel
    · rw [if_pos hcancel] at h ⊢
      have hd : c.onCancelReplay t = d := Option.some.inj h
      rw [← hd, onCancelReplay_eq]
      exact ⟨ha, hc, rfl, rfl⟩
    · rw [if_neg hcancel] at h ⊢
      have hd : c.onOrderReplay t = d := Option.some.inj h
      rw [← hd, onOrderReplay_eq]
      exact ⟨ha, hc, rfl, rfl⟩
  · rw [if_neg horder] at h ⊢
    by_cases htrade : t.isTrade
    · rw [if_pos htrade] at h ⊢
      have hd : c.onTradeReplay t = some d := h
      obtain ⟨_, _, _, f, hf, rfl⟩ := onTradeOf_eq_some hc hd
      exact ⟨ha, hf, rfl, rfl⟩
    · rw [if_neg htrade] at h ⊢
      rw [← Option.some.inj h]
      exact ⟨ha, hc, rfl, rfl⟩

variable {market : Market}

/-- A run keeps the orders tracked. -/
theorem runTicks_track {ts : List L2.Tick} {b : Book} {c d : StockCompute R} (ha : c.alive)
    (hc : c.fState.OnGrid) (h : c.upSellOrders.Tracks c.upperLimitPriceApproach b)
    (hq : ∀ t ∈ ts, t.quantity ≠ 0)
    (hcons : Book.Consistent Book.Admits b (ts.filterMap tickMsg))
    (hrun : c.runTicks (.replay market) ts = some d) :
    d.upSellOrders.Tracks c.upperLimitPriceApproach (b.run (ts.filterMap tickMsg)) := by
  induction ts generalizing b c with
  | nil =>
    obtain rfl := Option.some.inj hrun
    exact h
  | cons t ts ih =>
    obtain ⟨c', hc', hrun⟩ := Option.bind_eq_some_iff.1 hrun
    have hq' : ∀ u ∈ ts, u.quantity ≠ 0 := fun u hu => hq u (List.mem_cons_of_mem t hu)
    obtain ⟨ha', hgrid', happroach, hup⟩ :=
      onTick_track market ha hc (hq t List.mem_cons_self) hc'
    rw [← happroach]
    cases hm : tickMsg t with
    | none =>
      rw [List.filterMap_cons_none hm] at hcons ⊢
      refine ih ha' hgrid' ?_ hq' hcons hrun
      rw [hup, trackTick, hm, happroach]
      exact h
    | some msg =>
      obtain ⟨hadmits, hcons⟩ := hcons.head_filterMap hm
      rw [List.filterMap_cons_some hm]
      refine ih ha' hgrid' ?_ hq' hcons hrun
      rw [hup, trackTick, hm, happroach]
      exact h.track hadmits

/-- A run of ticks of a day is processed to its end. -/
theorem runTicks_isSome {ts : List L2.Tick} {c : StockCompute R} (hc : c.Sound) (ha : c.alive)
    (hq : ∀ t ∈ ts, t.quantity ≠ 0) (hday : ∀ t ∈ ts, t.isTrade → t.timestamp ≤ 235959900) :
    (c.runTicks (.replay market) ts).isSome := by
  induction ts generalizing c with
  | nil => rfl
  | cons t ts ih =>
    have hsome : c.onTick (.replay market) t ≠ none := fun hnone =>
      have hlate := ((onTick_replay_eq_none_iff market ha (hc.onGrid ha)).1 hnone).2
      absurd (hday t List.mem_cons_self hlate.1) (not_le.2 hlate.2)
    obtain ⟨c', hc'⟩ := Option.ne_none_iff_exists'.1 hsome
    have ha' := (onTick_track market ha (hc.onGrid ha) (hq t List.mem_cons_self) hc').1
    rw [runTicks, hc']
    exact ih (hc.onTick hc') ha' (fun u hu => hq u (List.mem_cons_of_mem t hu))
      fun u hu => hday u (List.mem_cons_of_mem t hu)

omit [FactorScalar R] in
theorem upSellOrderAmount_of_tracks {c : StockCompute R} {approach : ℤ} {b : Book}
    (h : c.upSellOrders.Tracks approach b) : c.upSellOrderAmount = Word.toSigned 64
      (∑ no ∈ tracked approach b, (b.order no).price * (b.order no).remaining) := by
  rw [upSellOrderAmount, UpSellOrders.amount_eq]
  exact congrArg (Word.toSigned 64)
    (OrderedMap.Describes.foldl_add h fun _ sell => sell.price * sell.quantity)

/-- **The tracked orders.**  In a run of ticks that fit a book, after any of them,
    the map holds the live sell orders near the limit, and the amount is theirs, as
    64 bits hold it, and exactly so if it fits.  The run is processed to its end if no
    trade is later than the last slot. -/
theorem runTicks_tracks (market : Market) {s : StockState} (hs : s.alive) {ts : List L2.Tick}
    (hq : ∀ t ∈ ts, t.quantity ≠ 0)
    (hcons : Book.Consistent Book.Admits .empty (ts.filterMap tickMsg)) :
    let c₀ : StockCompute R := StockCompute.start {} s
    (∀ l r c, ts = l ++ r → c₀.runTicks (.replay market) l = some c →
      let b := Book.empty.run (l.filterMap tickMsg)
      c.upSellOrders.Tracks (approachPrice s.upperLimitPrice) b ∧
        c.upSellOrderAmount = Word.toSigned 64
          (∑ no ∈ tracked (approachPrice s.upperLimitPrice) b,
            (b.order no).price * (b.order no).remaining) ∧
        (∑ no ∈ tracked (approachPrice s.upperLimitPrice) b,
            |(b.order no).price * (b.order no).remaining| < 2 ^ 63 →
          c.upSellOrderAmount = ∑ no ∈ tracked (approachPrice s.upperLimitPrice) b,
            (b.order no).price * (b.order no).remaining)) ∧
    ((∀ t ∈ ts, t.isTrade → t.timestamp ≤ 235959900) →
      (c₀.runTicks (.replay market) ts).isSome) := by
  intro c₀
  have ha : c₀.alive := by simp only [c₀, start, if_pos hs]
  have happroach : c₀.upperLimitPriceApproach = approachPrice s.upperLimitPrice := by
    simp only [c₀, start, if_pos hs]
  have hempty : c₀.upSellOrders.Tracks c₀.upperLimitPriceApproach .empty := by
    intro no
    simp [c₀, start, hs, tracked, Book.empty]
  refine ⟨?_, runTicks_isSome (Sound.start s) ha hq⟩
  intro l r c hts hrun
  subst hts
  rw [List.filterMap_append] at hcons
  have htracks := runTicks_track ha (onGrid_start hs _) hempty
    (fun t ht => hq t (List.mem_append_left r ht)) hcons.left hrun
  rw [happroach] at htracks
  have hamount := upSellOrderAmount_of_tracks htracks
  refine ⟨htracks, hamount, fun hfits => ?_⟩
  rw [hamount]
  exact Word.toSigned_of_abs_lt ((Finset.abs_sum_le_sum_abs _ _).trans_lt hfits)

theorem runTicks_tracks_auction :
    let s : StockState := { upperLimitPrice := 1100, alive := true }
    let ts : List L2.Tick := [⟨1, 92000000, 1095, 300, 0, 7⟩, ⟨1, 92500000, 1095, 100, 9, 7⟩,
      ⟨1, 93000010, 1095, -200, 0, 7⟩]
    let c₀ : StockCompute ℚ := StockCompute.start {} s
    (∀ l r c, ts = l ++ r → c₀.runTicks (.replay .SZ) l = some c →
      let b := Book.empty.run (l.filterMap tickMsg)
      c.upSellOrders.Tracks (approachPrice s.upperLimitPrice) b ∧
        c.upSellOrderAmount = Word.toSigned 64
          (∑ no ∈ tracked (approachPrice s.upperLimitPrice) b,
            (b.order no).price * (b.order no).remaining) ∧
        (∑ no ∈ tracked (approachPrice s.upperLimitPrice) b,
            |(b.order no).price * (b.order no).remaining| < 2 ^ 63 →
          c.upSellOrderAmount = ∑ no ∈ tracked (approachPrice s.upperLimitPrice) b,
            (b.order no).price * (b.order no).remaining)) ∧
    ((∀ t ∈ ts, t.isTrade → t.timestamp ≤ 235959900) →
      (c₀.runTicks (.replay .SZ) ts).isSome) :=
  runTicks_tracks .SZ rfl (by decide) (by decide)

/-- The amount of three orders may be too much for 64 bits. -/
theorem not_runTicks_tracks_overflow :
    let s : StockState := { upperLimitPrice := 2147483647, alive := true }
    let ts : List L2.Tick := [⟨1, 92000000, 2147483647, 2147483647, 0, 7⟩,
      ⟨1, 92000000, 2147483647, 2147483647, 0, 8⟩, ⟨1, 92000000, 2147483647, 2147483647, 0, 9⟩]
    let b := Book.empty.run (ts.filterMap tickMsg)
    Book.Consistent Book.Admits .empty (ts.filterMap tickMsg) ∧
      ∃ c : StockCompute ℚ, (StockCompute.start {} s).runTicks (.replay .SZ) ts = some c ∧
        c.upSellOrderAmount ≠ ∑ no ∈ tracked (approachPrice s.upperLimitPrice) b,
          (b.order no).price * (b.order no).remaining :=
  ⟨by decide, _, rfl, by decide +kernel⟩

end StockCompute

end Mdd2
