/-
  The levels of the order book are the totals of its limit orders.

  * `levelTotal side p` is what remains of the limit orders of a side at a price;
  * `Tracks` relates the book of the program to the book of the exchange: the
    levels are the totals, and the kept prices those of the live limit orders.
    `Tracks.order` introduces an order, `Tracks.reduce` takes some of one off;
  * `addTicks_levels`: after every prefix of ticks that an exchange can send, all
    levels are the totals.
-/
import Mdd2.Lib.OrderedMap
import Mdd2.OrderBook
import Mdd2.Proof.Messages

namespace L2

open Exchange Mdd2

namespace OrderBook

/-! ## Totals of a level -/

/-- What an order contributes to a level; an order with price 0 is a market order. -/
def levelValue (side : Side) (p : ℤ) (o : Order) : ℤ :=
  if o.side = side ∧ o.price = p ∧ p ≠ 0 then o.remaining else 0

/-- The total remaining quantity of the limit orders of a side at a price. -/
def levelTotal (side : Side) (p : ℤ) (b : Book) : ℤ := b.total (levelValue side p)

variable {b : Book} {side : Side} {p no quantity : ℤ}

theorem levelTotal_order (hno : no ∉ b.numbers) (o : Order) :
    levelTotal side p (b.apply (.order no o)) = levelTotal side p b + levelValue side p o :=
  Book.total_order _ hno o

/-- What a change of an order takes off a level. -/
def taken (b : Book) (no quantity : ℤ) (side : Side) (p : ℤ) : ℤ :=
  if no ∈ b.numbers ∧ (b.order no).side = side ∧ (b.order no).price = p ∧ p ≠ 0 then quantity else 0

theorem levelTotal_reduce (b : Book) (no quantity : ℤ) (side : Side) (p : ℤ) :
    levelTotal side p (b.reduce no quantity) =
      levelTotal side p b - taken b no quantity side p := by
  by_cases hno : no ∈ b.numbers
  · rw [levelTotal, Book.total_reduce _ hno, levelTotal, taken, levelValue, levelValue]
    by_cases h : (b.order no).side = side ∧ (b.order no).price = p ∧ p ≠ 0
    · have h' : ((b.order no).reduce quantity).side = side ∧
          ((b.order no).reduce quantity).price = p ∧ p ≠ 0 := h
      rw [if_pos h', if_pos h, if_pos ⟨hno, h⟩, Order.reduce]
      ring
    · have h' : ¬(((b.order no).reduce quantity).side = side ∧
          ((b.order no).reduce quantity).price = p ∧ p ≠ 0) := h
      rw [if_neg h', if_neg h, if_neg (fun hn => h hn.2)]
      ring
  · have hrest : ∀ n ∈ b.numbers, levelValue side p ((b.reduce no quantity).order n) =
        levelValue side p (b.order n) := by
      intro n hn
      rw [Book.order_reduce_of_ne]
      rintro rfl
      exact hno hn
    rw [levelTotal, levelTotal, Book.total, Book.numbers_reduce, Finset.sum_congr rfl hrest,
      ← Book.total, taken, if_neg (by simp [hno]), sub_zero]

/-! ## Changes of a level -/

section
variable {ob : OrderBook}

theorem level_inj {p p' : ℤ} {i : ℕ} (h : ob.level p = some i) (h' : ob.level p' = some i) :
    p = p' := by
  simp only [level, Option.ite_none_right_eq_some, Option.some.injEq] at h h'
  omega

theorem addQtyAt_eq_some (ob : OrderBook) (quantity : ℤ) {x : ℤ} (h : ob.qtyAt side p = some x)
    (hlo : -2 ^ 31 ≤ x + quantity) (hhi : x + quantity < 2 ^ 31) :
    ∃ ob', ob.addQtyAt side p quantity = some ob' ∧ ob'.ordPrice = ob.ordPrice ∧
      ob'.lowerLimitPrice = ob.lowerLimitPrice ∧ ob'.upperLimitPrice = ob.upperLimitPrice ∧
      ∀ side' p', ob'.qtyAt side' p' =
        if side' = side ∧ p' = p then some (x + quantity) else ob.qtyAt side' p' := by
  obtain ⟨i, hi, hx⟩ := Option.bind_eq_some_iff.mp h
  have hlt : i < (ob.qty side).length := (List.getElem?_eq_some_iff.mp hx).1
  refine ⟨ob.setQty ((ob.qty side).set i (x + quantity)) side, ?_, ?_, ?_, ?_, ?_⟩
  · simp only [addQtyAt, hi, hx, Option.bind_eq_bind, Option.bind_some]
    rw [Word.toSigned_of_range hlo hhi]
  · cases side <;> rfl
  · cases side <;> rfl
  · cases side <;> rfl
  · intro side' p'
    have hlevel : (ob.setQty ((ob.qty side).set i (x + quantity)) side).level p' = ob.level p' := by
      cases side <;> rfl
    rw [qtyAt, hlevel]
    by_cases hside : side' = side
    · subst hside
      have hqty : (ob.setQty ((ob.qty side').set i (x + quantity)) side').qty side' =
          (ob.qty side').set i (x + quantity) := by
        cases side' <;> rfl
      rw [hqty]
      by_cases hp : p' = p
      · subst hp
        simp [hi, hlt]
      · rw [if_neg (fun hn => hp hn.2), qtyAt]
        cases hi' : ob.level p' with
        | none => rfl
        | some i' =>
          have hne : i ≠ i' := fun he => hp (level_inj hi' (he ▸ hi))
          simp [List.getElem?_set_ne hne]
    · have hqty :
          (ob.setQty ((ob.qty side).set i (x + quantity)) side).qty side' = ob.qty side' := by
        cases side <;> cases side' <;> first | rfl | exact absurd rfl hside
      rw [hqty, if_neg (fun hn => hside hn.1), qtyAt]

end

/-! ## The book of the program and the book of the exchange -/

structure Tracks (ob : OrderBook) (b : Book) : Prop where
  /-- the levels are the totals -/
  levels : ∀ side p, ob.lowerLimitPrice ≤ p → p ≤ ob.upperLimitPrice →
    ob.qtyAt side p = some (levelTotal side p b)
  /-- a kept price is that of a limit order -/
  sound : ∀ no p, ob.ordPrice[no]? = some p →
    no ∈ b.numbers ∧ (b.order no).price = p ∧ p ≠ 0
  /-- the price of a live limit order is kept -/
  complete : ∀ no ∈ b.numbers, (b.order no).price ≠ 0 → (b.order no).remaining ≠ 0 →
    ob.ordPrice[no]? = some (b.order no).price
  limits : ∀ no ∈ b.numbers, (b.order no).price ≠ 0 →
    ob.lowerLimitPrice ≤ (b.order no).price ∧ (b.order no).price ≤ ob.upperLimitPrice ∧
      0 ≤ (b.order no).remaining
  bound : ∀ side p, levelTotal side p b < 2 ^ 31

namespace Tracks
variable {ob ob' : OrderBook} {t : Tick}

theorem levelValue_nonneg (h : ob.Tracks b) (side : Side) (p : ℤ) (hno : no ∈ b.numbers) :
    0 ≤ levelValue side p (b.order no) := by
  rw [levelValue]
  split
  case isTrue hv => exact (h.limits no hno (hv.2.1 ▸ hv.2.2)).2.2
  case isFalse => exact le_refl 0

theorem levelTotal_nonneg (h : ob.Tracks b) (side : Side) (p : ℤ) : 0 ≤ levelTotal side p b :=
  Finset.sum_nonneg fun _ hn => h.levelValue_nonneg side p hn

/-- An order that is not kept is no live limit order. -/
theorem price_eq_zero (h : ob.Tracks b) (hnone : ob.ordPrice[no]? = none)
    (hlive : (b.order no).price ≠ 0 → (b.order no).remaining ≠ 0) (hno : no ∈ b.numbers) :
    (b.order no).price = 0 := by
  by_contra h0
  have hsome := h.complete no hno h0 (hlive h0)
  rw [hnone] at hsome
  exact absurd hsome (by simp)

/-! ### An order -/

/-- A new order: a limit order is kept and added to its level. -/
theorem order (h : ob.Tracks b) {o : Order} (hno : no ∉ b.numbers) (hpos : 0 < o.remaining)
    (hprice : o.price ≠ 0 → ob.lowerLimitPrice ≤ o.price ∧ o.price ≤ ob.upperLimitPrice)
    (hbound : ∀ side p, levelTotal side p (b.apply (.order no o)) < 2 ^ 31)
    (hlo : ob'.lowerLimitPrice = ob.lowerLimitPrice)
    (hup : ob'.upperLimitPrice = ob.upperLimitPrice)
    (hmap : ob'.ordPrice = if o.price ≠ 0 then ob.ordPrice.insertIfNew no o.price else ob.ordPrice)
    (hqty : ∀ side p, ob'.qtyAt side p = (ob.qtyAt side p).map (· + levelValue side p o)) :
    ob'.Tracks (b.apply (.order no o)) := by
  have hnone : no ∉ ob.ordPrice := by
    rw [OrderedMap.mem_iff_getElem?_ne_none, not_not]
    by_contra hsome
    obtain ⟨p, hp⟩ := Option.ne_none_iff_exists'.mp hsome
    exact hno (h.sound no p hp).1
  have hget : ∀ n, ob'.ordPrice[n]? =
      if n = no ∧ o.price ≠ 0 then some o.price else ob.ordPrice[n]? := by
    intro n
    rw [hmap]
    by_cases hp : o.price = 0
    · simp [hp]
    · rw [if_pos hp, OrderedMap.getElem?_insertIfNew]
      simp [hp, hnone]
  have hself : (b.apply (.order no o)).order no = o := Function.update_self ..
  have hne : ∀ n ≠ no, (b.apply (.order no o)).order n = b.order n :=
    fun n hn => Function.update_of_ne hn ..
  refine ⟨?_, ?_, ?_, ?_, hbound⟩
  · intro side p h1 h2
    rw [hqty, h.levels side p (hlo ▸ h1) (hup ▸ h2), levelTotal_order hno]
    rfl
  · intro n p hn
    rw [hget] at hn
    split at hn
    case isTrue hv =>
      obtain ⟨rfl, hp⟩ := hv
      obtain rfl := Option.some.inj hn
      exact ⟨Finset.mem_insert_self _ _, by rw [hself], hp⟩
    case isFalse =>
      obtain ⟨hin, hp, h0⟩ := h.sound n p hn
      have hnne : n ≠ no := fun he => hno (he ▸ hin)
      exact ⟨Finset.mem_insert_of_mem hin, by rw [hne n hnne, hp], h0⟩
  · intro n hn hp hr
    rw [hget]
    by_cases hnno : n = no
    · subst hnno
      rw [hself] at hp ⊢
      rw [if_pos ⟨rfl, hp⟩]
    · rw [hne n hnno] at hp hr ⊢
      rw [if_neg (fun hv => hnno hv.1)]
      exact h.complete n (Finset.mem_of_mem_insert_of_ne hn hnno) hp hr
  · intro n hn hp
    rw [hlo, hup]
    by_cases hnno : n = no
    · subst hnno
      rw [hself] at hp ⊢
      exact ⟨(hprice hp).1, (hprice hp).2, hpos.le⟩
    · rw [hne n hnno] at hp ⊢
      exact h.limits n (Finset.mem_of_mem_insert_of_ne hn hnno) hp

/-! ### A trade or cancel -/

/-- Some of a limit order is taken off its level, or the order is no limit order
    and no level changes; the price of an order that is used up may be erased. -/
theorem reduce (h : ob.Tracks b) (hpos : 0 < quantity)
    (hfit : no ∈ b.numbers → (b.order no).price ≠ 0 → quantity ≤ (b.order no).remaining)
    (hlo : ob'.lowerLimitPrice = ob.lowerLimitPrice)
    (hup : ob'.upperLimitPrice = ob.upperLimitPrice)
    (hmap : ob'.ordPrice = ob.ordPrice ∨ ob'.ordPrice = ob.ordPrice.erase no ∧
      (no ∈ b.numbers → (b.order no).price ≠ 0 → quantity = (b.order no).remaining))
    (hqty : ∀ side p, ob'.qtyAt side p =
      (ob.qtyAt side p).map (· - taken b no quantity side p)) :
    ob'.Tracks (b.reduce no quantity) := by
  have hprice : ∀ n, ((b.reduce no quantity).order n).price = (b.order n).price :=
    fun n => b.price_reduce no quantity n
  have hself : ((b.reduce no quantity).order no).remaining = (b.order no).remaining - quantity := by
    rw [Book.order_reduce_self]
    rfl
  refine ⟨?_, ?_, ?_, ?_, ?_⟩
  · intro side p h1 h2
    rw [hqty, h.levels side p (hlo ▸ h1) (hup ▸ h2), levelTotal_reduce]
    rfl
  · intro n p hn
    have hold : ob.ordPrice[n]? = some p := by
      rcases hmap with hmap | ⟨hmap, -⟩
      · rwa [hmap] at hn
      · rw [hmap, OrderedMap.getElem?_erase] at hn
        split at hn
        · exact absurd hn (by simp)
        · exact hn
    rw [hprice]
    exact h.sound n p hold
  · intro n hn hp hr
    rw [hprice] at hp ⊢
    by_cases hnno : n = no
    · subst hnno
      rw [hself] at hr
      rcases hmap with hmap | ⟨-, hall⟩
      · rw [hmap]
        have := hfit hn hp
        exact h.complete n hn hp (by omega)
      · have := hall hn hp
        omega
    · rw [Book.order_reduce_of_ne b no quantity hnno] at hr
      have hold := h.complete n hn hp hr
      rcases hmap with hmap | ⟨hmap, -⟩
      · rw [hmap, hold]
      · rw [hmap, OrderedMap.getElem?_erase, if_neg hnno, hold]
  · intro n hn hp
    rw [hprice] at hp ⊢
    rw [hlo, hup]
    obtain ⟨h1, h2, h3⟩ := h.limits n hn hp
    refine ⟨h1, h2, ?_⟩
    by_cases hnno : n = no
    · subst hnno
      rw [hself]
      have := hfit hn hp
      omega
    · rwa [Book.order_reduce_of_ne b no quantity hnno]
  · intro side p
    have hb := h.bound side p
    rw [levelTotal_reduce, taken]
    split <;> omega

theorem remaining_le_levelTotal (h : ob.Tracks b) (hno : no ∈ b.numbers)
    (hp : (b.order no).price ≠ 0) :
    (b.order no).remaining ≤ levelTotal (b.order no).side (b.order no).price b := by
  have hself : levelValue (b.order no).side (b.order no).price (b.order no) =
      (b.order no).remaining := if_pos ⟨rfl, rfl, hp⟩
  rw [← hself]
  exact Finset.single_le_sum (f := fun n => levelValue _ _ (b.order n))
    (fun _ hn => h.levelValue_nonneg _ _ hn) hno

/-- Taking some of a kept order off its level. -/
theorem addQtyAt_kept (h : ob.Tracks b) (ob₁ : OrderBook) (hqty : ob₁.qtyAt = ob.qtyAt)
    (hlo : ob₁.lowerLimitPrice = ob.lowerLimitPrice)
    (hup : ob₁.upperLimitPrice = ob.upperLimitPrice) {p : ℤ} (hp : ob.ordPrice[no]? = some p)
    (hpos : 0 < quantity) (hside : (b.order no).side = side)
    (hfit : quantity ≤ (b.order no).remaining) :
    ∃ ob', ob₁.addQtyAt side p (-quantity) = some ob' ∧ ob'.ordPrice = ob₁.ordPrice ∧
      ob'.lowerLimitPrice = ob.lowerLimitPrice ∧ ob'.upperLimitPrice = ob.upperLimitPrice ∧
      ∀ side p, ob'.qtyAt side p = (ob.qtyAt side p).map (· - taken b no quantity side p) := by
  obtain ⟨hno, rfl, h0⟩ := h.sound no p hp
  obtain ⟨h1, h2, -⟩ := h.limits no hno h0
  have hle := h.remaining_le_levelTotal hno h0
  have hbound := h.bound (b.order no).side (b.order no).price
  have hlevel := h.levels (b.order no).side (b.order no).price h1 h2
  rw [← hqty] at hlevel
  subst hside
  obtain ⟨ob', hob, hmap, hlo', hup', hqty'⟩ :=
    addQtyAt_eq_some ob₁ (-quantity) hlevel (by omega) (by omega)
  refine ⟨ob', hob, hmap, hlo'.trans hlo, hup'.trans hup, fun side p => ?_⟩
  rw [hqty', taken]
  by_cases hv : side = (b.order no).side ∧ p = (b.order no).price
  · obtain ⟨rfl, rfl⟩ := hv
    rw [if_pos ⟨rfl, rfl⟩, if_pos ⟨hno, rfl, rfl, h0⟩, ← hqty, hlevel]
    rfl
  · rw [if_neg hv, if_neg (fun hn => hv ⟨hn.2.1.symm, hn.2.2.1.symm⟩), hqty]
    simp

/-- A change of an order that is no limit order changes no level. -/
theorem qtyAt_eq_map_taken (hnot : no ∈ b.numbers → (b.order no).price = 0) (side : Side) (p : ℤ) :
    ob.qtyAt side p = (ob.qtyAt side p).map (· - taken b no quantity side p) := by
  rw [taken, if_neg (fun hn => hn.2.2.2 (hn.2.2.1 ▸ hnot hn.1))]
  simp

/-- One side of a trade. -/
theorem fillAt (h : ob.Tracks b) (hpos : 0 < quantity)
    (hfit : no ∈ b.numbers → b.Fits no side quantity) :
    ∃ ob', ob.fillAt side no quantity = some ob' ∧ ob'.lowerLimitPrice = ob.lowerLimitPrice ∧
      ob'.upperLimitPrice = ob.upperLimitPrice ∧ ob'.Tracks (b.reduce no quantity) := by
  rw [OrderBook.fillAt]
  cases hp : ob.ordPrice[no]? with
  | none =>
    have hnot : no ∈ b.numbers → (b.order no).price = 0 := fun hno =>
      h.price_eq_zero hp (fun _ => by have := (hfit hno).2; omega) hno
    exact ⟨ob, rfl, rfl, rfl, h.reduce hpos (fun hno h0 => absurd (hnot hno) h0) rfl rfl (.inl rfl)
      (qtyAt_eq_map_taken hnot)⟩
  | some p =>
    obtain ⟨hno, -⟩ := h.sound no p hp
    obtain ⟨hside, hle⟩ := hfit hno
    obtain ⟨ob', hob, hmap, hlo, hup, hqty⟩ := h.addQtyAt_kept ob rfl rfl rfl hp hpos hside hle
    exact ⟨ob', hob, hlo, hup, h.reduce hpos (fun _ _ => hle) hlo hup (.inl hmap) hqty⟩

end Tracks

/-! ## Ticks -/

/-- What the exchange can send: orders are introduced once, with a price within
    the limits or no price; a cancel takes all of a limit order, or has no price;
    and trades take no more than remains of the orders that were introduced. -/
def Admits (lower upper : ℤ) (b : Book) : Msg → Prop
  | .order no o => no ∉ b.numbers ∧ 0 < o.remaining ∧
      (o.price ≠ 0 → lower ≤ o.price ∧ o.price ≤ upper)
  | .cancel no side price quantity => 0 < quantity ∧
      if no ∈ b.numbers ∧ (b.order no).price ≠ 0 then
        (b.order no).side = side ∧ quantity = (b.order no).remaining
      else price = 0
  | .trade buyNo sellNo _ quantity => 0 < quantity ∧
      (buyNo ∈ b.numbers → b.Fits buyNo .buy quantity) ∧
      (sellNo ∈ b.numbers → b.Fits sellNo .sell quantity)

variable {ob : OrderBook} {t : Tick}

theorem keepPrice_isBuyOrder (ob : OrderBook) (t : Tick) :
    (ob.keepPrice t).2.isBuyOrder = t.isBuyOrder := by
  rw [keepPrice]
  split
  · split <;> rfl
  · split <;> rfl

theorem isBuyOrder_iff (h : t.isOrder) : t.isBuyOrder ↔ tickSide t = .buy := by
  by_cases hb : t.buyOrderNo = 0 <;> by_cases hs : t.sellOrderNo = 0 <;>
    simp_all [Tick.isOrder, Tick.isBuyOrder, tickSide, Tick.isSellOrder]

/-- An order or a cancel: the map, then the level of the tick's side. -/
theorem addTick_of_isOrder (h : t.isOrder) : ob.addTick t =
    (if (ob.keepPrice t).2.price ≠ 0 then
      (ob.keepPrice t).1.addQtyAt (tickSide t) (ob.keepPrice t).2.price (ob.keepPrice t).2.quantity
    else some (ob.keepPrice t).1).map (·, (ob.keepPrice t).2) := by
  rw [addTick, if_pos h]
  simp only [keepPrice_isBuyOrder, isBuyOrder_iff h, Option.bind_eq_bind]
  by_cases hp : (ob.keepPrice t).2.price = 0
  · cases tickSide t <;> simp [hp, Option.map_eq_bind]
  · cases tickSide t <;> simp [hp, Option.map_eq_bind]

namespace Tracks

/-- A tick that introduces an order. -/
theorem addTick_order (h : ob.Tracks b) (ht : t.isOrder) (hc : ¬t.isOrderCancel)
    (hm : Admits ob.lowerLimitPrice ob.upperLimitPrice b
      (.order t.orderNo ⟨tickSide t, t.price, t.quantity⟩))
    (hbound : ∀ side p, levelTotal side p
      (b.apply (.order t.orderNo ⟨tickSide t, t.price, t.quantity⟩)) < 2 ^ 31) :
    ∃ ob' t', ob.addTick t = some (ob', t') ∧ ob'.lowerLimitPrice = ob.lowerLimitPrice ∧
      ob'.upperLimitPrice = ob.upperLimitPrice ∧
      ob'.Tracks (b.apply (.order t.orderNo ⟨tickSide t, t.price, t.quantity⟩)) := by
  obtain ⟨hno, hpos, hprice⟩ := hm
  rw [addTick_of_isOrder ht, keepPrice, if_neg hc]
  by_cases hp : t.price = 0
  · -- a market order
    simp only [hp, ne_eq, not_true_eq_false, if_false, Option.map_some]
    refine ⟨ob, t, rfl, rfl, rfl, ?_⟩
    rw [hp] at hprice hbound
    refine h.order hno hpos hprice hbound rfl rfl (by simp) fun side p => ?_
    have hzero : levelValue side p ⟨tickSide t, 0, t.quantity⟩ = 0 :=
      if_neg fun hv => hv.2.2 hv.2.1.symm
    simp [hzero]
  · obtain ⟨h1, h2⟩ := hprice hp
    have hlevel := h.levels (tickSide t) t.price h1 h2
    have hnonneg := h.levelTotal_nonneg (tickSide t) t.price
    have hafter := hbound (tickSide t) t.price
    have hself : levelValue (tickSide t) t.price ⟨tickSide t, t.price, t.quantity⟩ = t.quantity :=
      if_pos ⟨rfl, rfl, hp⟩
    rw [levelTotal_order hno, hself] at hafter
    have hpos' : 0 < t.quantity := hpos
    obtain ⟨ob', hob, hmap, hlo, hup, hqty⟩ := addQtyAt_eq_some
      { ob with ordPrice := ob.ordPrice.insertIfNew t.orderNo t.price } t.quantity hlevel
      (by omega) hafter
    simp only [ne_eq, hp, not_false_eq_true, if_true, hob, Option.map_some]
    refine ⟨ob', t, rfl, hlo, hup, h.order hno hpos hprice hbound hlo hup ?_ fun side p => ?_⟩
    · rw [hmap, if_pos hp]
    · rw [hqty, levelValue]
      by_cases hv : side = tickSide t ∧ p = t.price
      · obtain ⟨rfl, rfl⟩ := hv
        rw [if_pos ⟨rfl, rfl⟩, if_pos ⟨rfl, rfl, hp⟩, hlevel]
        rfl
      · rw [if_neg hv, if_neg (fun hn => hv ⟨hn.1.symm, hn.2.1.symm⟩)]
        simp only [add_zero, Option.map_id']
        rfl

/-- A tick that cancels an order. -/
theorem addTick_cancel (h : ob.Tracks b) (ht : t.isOrder) (hc : t.isOrderCancel)
    (hm : Admits ob.lowerLimitPrice ob.upperLimitPrice b
      (.cancel t.orderNo (tickSide t) t.price (-t.quantity))) :
    ∃ ob' t', ob.addTick t = some (ob', t') ∧ ob'.lowerLimitPrice = ob.lowerLimitPrice ∧
      ob'.upperLimitPrice = ob.upperLimitPrice ∧
      ob'.Tracks (b.apply (.cancel t.orderNo (tickSide t) t.price (-t.quantity))) := by
  obtain ⟨hpos, hm⟩ := hm
  rw [addTick_of_isOrder ht, keepPrice, if_pos hc]
  cases hp : ob.ordPrice[t.orderNo]? with
  | none =>
    have hnot : t.orderNo ∈ b.numbers → (b.order t.orderNo).price = 0 := by
      intro hno
      refine h.price_eq_zero hp (fun h0 => ?_) hno
      rw [if_pos ⟨hno, h0⟩] at hm
      omega
    rw [if_neg (fun hn => hn.2 (hnot hn.1))] at hm
    simp only [hm, ne_eq, not_true_eq_false, if_false, Option.map_some]
    exact ⟨ob, t, rfl, rfl, rfl, h.reduce hpos (fun hno h0 => absurd (hnot hno) h0) rfl rfl
      (.inl rfl) (qtyAt_eq_map_taken hnot)⟩
  | some p =>
    obtain ⟨hno, rfl, h0⟩ := h.sound _ p hp
    rw [if_pos ⟨hno, h0⟩] at hm
    obtain ⟨hside, hall⟩ := hm
    obtain ⟨ob', hob, hmap, hlo, hup, hqty⟩ := h.addQtyAt_kept
      { ob with ordPrice := ob.ordPrice.erase t.orderNo } rfl rfl rfl hp hpos hside hall.le
    rw [neg_neg] at hob
    simp only [ne_eq, h0, not_false_eq_true, if_true, hob, Option.map_some]
    exact ⟨ob', _, rfl, hlo, hup, h.reduce hpos (fun _ _ => hall.le) hlo hup
      (.inr ⟨hmap, fun _ _ => hall⟩) hqty⟩

/-- A tick that is a trade. -/
theorem addTick_trade (h : ob.Tracks b) (ho : ¬t.isOrder) (ht : t.isTrade)
    (hm : Admits ob.lowerLimitPrice ob.upperLimitPrice b
      (.trade t.buyOrderNo t.sellOrderNo t.price t.quantity)) :
    ∃ ob' t', ob.addTick t = some (ob', t') ∧ ob'.lowerLimitPrice = ob.lowerLimitPrice ∧
      ob'.upperLimitPrice = ob.upperLimitPrice ∧
      ob'.Tracks (b.apply (.trade t.buyOrderNo t.sellOrderNo t.price t.quantity)) := by
  obtain ⟨hpos, hbuy, hsell⟩ := hm
  obtain ⟨ob₁, hob₁, hlo₁, hup₁, h₁⟩ := h.fillAt hpos hbuy
  have hsell' : t.sellOrderNo ∈ (b.reduce t.buyOrderNo t.quantity).numbers →
      (b.reduce t.buyOrderNo t.quantity).Fits t.sellOrderNo .sell t.quantity := by
    intro hno
    obtain ⟨hside, hle⟩ := hsell hno
    have hne : t.sellOrderNo ≠ t.buyOrderNo := by
      intro heq
      have hb := (hbuy (heq ▸ hno)).1
      rw [← heq, hside] at hb
      exact absurd hb (by simp)
    rw [Book.Fits, Book.order_reduce_of_ne _ _ _ hne]
    exact ⟨hside, hle⟩
  obtain ⟨ob₂, hob₂, hlo₂, hup₂, h₂⟩ := h₁.fillAt hpos hsell'
  rw [addTick, if_neg ho, if_pos ht, hob₁, Option.bind_eq_bind, Option.bind_some, hob₂]
  exact ⟨_, t, rfl, hlo₂.trans hlo₁, hup₂.trans hup₁,
    h₂.levels, h₂.sound, h₂.complete, h₂.limits, h₂.bound⟩

end Tracks

/-! ## Runs -/

/-- **One tick** keeps the levels of the book. -/
theorem Tracks.addTick {msg : Msg} (h : ob.Tracks b) (ht : tickMsg t = some msg)
    (hm : Admits ob.lowerLimitPrice ob.upperLimitPrice b msg)
    (hbound : ∀ side p, levelTotal side p (b.apply msg) < 2 ^ 31) :
    ∃ ob' t', ob.addTick t = some (ob', t') ∧ ob'.lowerLimitPrice = ob.lowerLimitPrice ∧
      ob'.upperLimitPrice = ob.upperLimitPrice ∧ ob'.Tracks (b.apply msg) := by
  rw [tickMsg] at ht
  split at ht
  case isTrue horder =>
    split at ht
    case isTrue hcancel =>
      obtain rfl := Option.some.inj ht
      exact h.addTick_cancel horder hcancel hm
    case isFalse hcancel =>
      obtain rfl := Option.some.inj ht
      exact h.addTick_order horder hcancel hm hbound
  case isFalse horder =>
    split at ht
    case isTrue htrade =>
      obtain rfl := Option.some.inj ht
      exact h.addTick_trade horder htrade hm
    case isFalse => exact absurd ht (by simp)

/-- A tick without a message changes nothing. -/
theorem addTick_of_none (h : tickMsg t = none) : ob.addTick t = some (ob, t) := by
  rw [tickMsg] at h
  split at h
  case isTrue => split at h <;> exact absurd h (by simp)
  case isFalse horder =>
    split at h
    case isTrue => exact absurd h (by simp)
    case isFalse htrade => rw [OrderBook.addTick, if_neg horder, if_neg htrade]

theorem Tracks.addTicks {ts : List Tick} (h : ob.Tracks b)
    (hc : Book.Consistent (Admits ob.lowerLimitPrice ob.upperLimitPrice) b (ts.filterMap tickMsg))
    (hr : ∀ ms, ms <+: ts.filterMap tickMsg → ∀ side p, levelTotal side p (b.run ms) < 2 ^ 31) :
    ∃ ob', ob.addTicks ts = some ob' ∧ ob'.lowerLimitPrice = ob.lowerLimitPrice ∧
      ob'.upperLimitPrice = ob.upperLimitPrice ∧ ob'.Tracks (b.run (ts.filterMap tickMsg)) := by
  induction ts generalizing ob b with
  | nil => exact ⟨ob, rfl, rfl, rfl, h⟩
  | cons t ts ih =>
    rw [OrderBook.addTicks, List.foldlM_cons]
    cases ht : tickMsg t with
    | none =>
      rw [List.filterMap_cons_none ht] at hc hr ⊢
      rw [addTick_of_none ht]
      exact ih h hc hr
    | some msg =>
      rw [List.filterMap_cons_some ht] at hc hr ⊢
      obtain ⟨ob₁, t₁, hob₁, hlo, hup, h₁⟩ := h.addTick ht hc.1 fun side p =>
        hr [msg] (by simp) side p
      rw [hob₁]
      obtain ⟨ob', hob', hlo', hup', h'⟩ := ih h₁ (by rw [hlo, hup]; exact hc.2) fun ms hms =>
        hr (msg :: ms) (List.cons_prefix_cons.mpr ⟨rfl, hms⟩)
      exact ⟨ob', hob', hlo'.trans hlo, hup'.trans hup, h'⟩

theorem Tracks.initStat {stat : Stat} (h : initStat stat = some ob) :
    ob.lowerLimitPrice = stat.lowerLimitPrice ∧ ob.upperLimitPrice = stat.upperLimitPrice ∧
      ob.Tracks Book.empty := by
  rw [OrderBook.initStat] at h
  split at h
  case isTrue => exact absurd h (by simp)
  case isFalse hlevels =>
    obtain rfl := Option.some.inj h
    refine ⟨rfl, rfl, ?_, ?_, ?_, ?_, ?_⟩
    · intro side p hlo hup
      simp only at hlo hup
      have hlt : (p - stat.lowerLimitPrice).toNat <
          (stat.upperLimitPrice - stat.lowerLimitPrice + 1).toNat := by omega
      have hrange : p ≥ stat.lowerLimitPrice ∧ p ≤ stat.upperLimitPrice := ⟨hlo, hup⟩
      cases side <;>
        simp [qtyAt, level, qty, hrange, hlt, levelTotal, Book.total, Book.empty]
    · intro no p hn
      simp at hn
    · simp [Book.empty]
    · simp [Book.empty]
    · intro side p
      simp [levelTotal, Book.total, Book.empty]

/-- **The levels are exact.**  From a book that `initStat` has initialized, after
    every prefix of ticks that the exchange can send, the quantities of all levels
    are what remains of the limit orders there. -/
theorem addTicks_levels {stat : Stat} {ob : OrderBook} (h : initStat stat = some ob)
    {ts : List Tick}
    (hc : Book.Consistent (Admits stat.lowerLimitPrice stat.upperLimitPrice) Book.empty
      (ts.filterMap tickMsg))
    (hr : ∀ ms, ms <+: ts.filterMap tickMsg →
      ∀ side p, levelTotal side p (Book.empty.run ms) < 2 ^ 31)
    {pre : List Tick} (hpre : pre <+: ts) :
    ∃ ob', ob.addTicks pre = some ob' ∧
      ∀ p, stat.lowerLimitPrice ≤ p → p ≤ stat.upperLimitPrice →
        let book := Book.empty.run (pre.filterMap tickMsg)
        ob'.bidQtyAt p = some (levelTotal .buy p book) ∧
        ob'.askQtyAt p = some (levelTotal .sell p book) ∧
        0 ≤ levelTotal .buy p book ∧ 0 ≤ levelTotal .sell p book := by
  obtain ⟨hlo, hup, h0⟩ := Tracks.initStat h
  obtain ⟨post, rfl⟩ := hpre
  rw [List.filterMap_append] at hc hr
  obtain ⟨ob', hob', hlo', hup', h'⟩ := h0.addTicks (by rw [hlo, hup]; exact hc.left) fun ms hms =>
    hr ms (hms.trans (List.prefix_append _ _))
  refine ⟨ob', hob', fun p h1 h2 => ?_⟩
  rw [← hlo, ← hlo'] at h1
  rw [← hup, ← hup'] at h2
  exact ⟨h'.levels .buy p h1 h2, h'.levels .sell p h1 h2, h'.levelTotal_nonneg .buy p,
    h'.levelTotal_nonneg .sell p⟩

/-- An order of 100 at 1000, of which 40 are traded and the rest cancelled. -/
theorem addTicks_levels_cancel :
    let stat : Stat := ⟨600000, 990, 1000, 1000, 1100, 900⟩
    let ts : List Tick := [⟨600000, 91500000, 1000, 100, 5, 0⟩, ⟨600000, 93000000, 1000, 40, 5, 7⟩,
      ⟨600000, 93000010, 0, -60, 5, 0⟩]
    ∃ ob ob', initStat stat = some ob ∧ ob.addTicks ts = some ob' ∧
      ∀ p, 900 ≤ p → p ≤ 1100 →
        let book := Book.empty.run (ts.filterMap tickMsg)
        ob'.bidQtyAt p = some (levelTotal .buy p book) ∧
        ob'.askQtyAt p = some (levelTotal .sell p book) ∧
        0 ≤ levelTotal .buy p book ∧ 0 ≤ levelTotal .sell p book := by
  intro stat ts
  have hmsgs : ts.filterMap tickMsg = [.order 5 ⟨.buy, 1000, 100⟩, .trade 5 7 1000 40,
      .cancel 5 .buy 0 60] := by decide
  have hc : Book.Consistent (Admits stat.lowerLimitPrice stat.upperLimitPrice) Book.empty
      (ts.filterMap tickMsg) := by
    rw [hmsgs]
    simp [Book.Consistent, Admits, Book.apply, Book.reduce, Book.Fits, Order.reduce, Book.empty,
      stat]
  have hr : ∀ ms, ms <+: ts.filterMap tickMsg →
      ∀ side p, levelTotal side p (Book.empty.run ms) < 2 ^ 31 := by
    rw [hmsgs]
    intro ms hms side p
    simp only [List.prefix_cons_iff, List.prefix_nil] at hms
    have hle : ∀ remaining : ℤ, remaining < 2 ^ 31 →
        levelValue side p ⟨.buy, 1000, remaining⟩ < 2 ^ 31 := by
      intro remaining hlt
      rw [levelValue]
      split
      · exact hlt
      · norm_num
    obtain rfl | ⟨_, rfl, rfl | ⟨_, rfl, rfl | ⟨_, rfl, rfl⟩⟩⟩ := hms
    · simp [levelTotal, Book.total, Book.run, Book.empty]
    · simpa [levelTotal, Book.total, Book.run, Book.empty, Book.apply] using hle 100 (by norm_num)
    · simpa [levelTotal, Book.total, Book.run, Book.empty, Book.apply, Book.reduce, Order.reduce]
        using hle 60 (by norm_num)
    · simpa [levelTotal, Book.total, Book.run, Book.empty, Book.apply, Book.reduce, Order.reduce]
        using hle 0 (by norm_num)
  have hinit : initStat stat = some _ := rfl
  obtain ⟨ob', h'⟩ := addTicks_levels hinit hc hr (List.prefix_refl ts)
  exact ⟨_, ob', rfl, h'⟩

end OrderBook

end L2
