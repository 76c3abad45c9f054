/-
  The counter of the Shenzhen limit-up detectors.

  `SzFeed` is one of the two feeds whose order messages are modelled.  The counter
  is meant to be `atLimit`, what remains of the sell orders at the limit price.
  The handlers change it by the price of the message, where `atLimit` changes with
  the price of the order: `counterExact_iff` says when the two stay equal.
-/
import Mdd2.Lib.Run
import Mdd2.Proof.Messages
import Mdd2.Proof.Protocol

namespace Mdd2

open Exchange

inductive SzFeed where
  | replay
  | ne
  deriving DecidableEq

namespace SzFeed

def build : SzFeed → Build
  | replay => .replay .SZ
  | ne => .ne .SZ

/-- The message of a tick, in the units of the feed. -/
def msg : (f : SzFeed) → f.build.Tick → Option Msg
  | replay, t => tickMsg t
  | ne, m => neMsg 1 m

/-- The quantity of a replay tick is an `int32_t`. -/
def InRange : (f : SzFeed) → f.build.Tick → Prop
  | replay, t => -2 ^ 31 ≤ t.quantity ∧ t.quantity < 2 ^ 31
  | ne, _ => True

def counter : SzFeed → StockState → ℤ
  | replay, s => s.upRemainQty
  | ne, s => s.upRemainQty100

def limit : SzFeed → StockState → ℤ
  | replay, s => s.upperLimitPrice
  | ne, s => s.upperLimitPrice10000

/-- What the counter can hold: `uint64_t`, `int64_t`. -/
def bound : SzFeed → ℤ
  | replay => 2 ^ 64
  | ne => 2 ^ 63

/-- What the handler adds to the counter. -/
def change (f : SzFeed) (limit : ℤ) : Msg → ℤ
  | .order _ o => if o.side = .sell ∧ o.price = limit then o.remaining else 0
  | .cancel _ side price quantity =>
    if price = limit ∧ (f = .ne ∨ side = .sell) then -quantity else 0
  | .trade _ _ price quantity => if price = limit then -quantity else 0

/-- The price of the message says whether a sell order at the limit is meant. -/
def Faithful (f : SzFeed) (limit : ℤ) (b : Book) : Msg → Prop
  | .order .. => True
  | .cancel _ side price _ => f = .ne → price = limit → side = .sell
  | .trade _ sellNo price _ => price = limit ↔ (b.order sellNo).price = limit

end SzFeed

/-! ## What remains of the sell orders at the limit -/

/-- Nothing remains of an order that is not live. -/
def atLimit (limit : ℤ) (o : Order) : ℤ :=
  if o.side = .sell ∧ o.price = limit then o.remaining else 0

theorem total_atLimit_nonneg {b : Book} (h : b.Nonneg) (limit : ℤ) :
    0 ≤ b.total (atLimit limit) := by
  refine Finset.sum_nonneg fun no hno => ?_
  unfold atLimit
  split_ifs
  · exact h no hno
  · exact le_rfl

/-- What remains of an order changes `atLimit` if it is a sell order at the limit. -/
theorem atLimit_reduce (limit : ℤ) (o : Order) (quantity : ℤ) :
    atLimit limit (o.reduce quantity) - atLimit limit o =
      if o.side = .sell ∧ o.price = limit then -quantity else 0 := by
  by_cases h : o.side = .sell ∧ o.price = limit
  · simp only [atLimit, Order.reduce, h, and_self, if_true]; ring
  · simp only [atLimit, Order.reduce, h, if_false, sub_self]

/-- What a message adds to the total. -/
def growth (limit : ℤ) (b : Book) : Msg → ℤ
  | .order _ o => atLimit limit o
  | .cancel _ side price quantity => if side = .sell ∧ price = limit then -quantity else 0
  | .trade _ sellNo _ quantity => if (b.order sellNo).price = limit then -quantity else 0

theorem total_apply {b : Book} {msg : Msg} (h : b.AdmitsStrict msg) (limit : ℤ) :
    (b.apply msg).total (atLimit limit) = b.total (atLimit limit) + growth limit b msg := by
  cases msg with
  | order no o => exact Book.total_order _ h.1 o
  | cancel no side price quantity =>
    obtain ⟨-, hno, ho⟩ := h
    rw [Book.apply, Book.total_reduce _ hno, atLimit_reduce, ho, growth]
  | trade buyNo sellNo price quantity =>
    obtain ⟨-, ⟨hbuyNo, hbuy⟩, ⟨hsellNo, hsell⟩, -⟩ := h
    have hnotBuy : ¬ ((b.order buyNo).side = .sell ∧ (b.order buyNo).price = limit) := by
      rintro ⟨hside, -⟩
      exact absurd (hbuy.1.symm.trans hside) (by simp)
    rw [Book.apply, Book.total_reduce _ (by exact hsellNo), Book.total_reduce _ hbuyNo,
      atLimit_reduce, atLimit_reduce, if_neg hnotBuy, Book.side_reduce, Book.price_reduce, add_zero,
      growth]
    simp only [hsell.1, true_and]

/-- The handler follows the total on the messages it reads rightly, and on no
    other. -/
theorem change_eq_growth_iff (f : SzFeed) {limit : ℤ} {b : Book} {msg : Msg}
    (h : b.AdmitsStrict msg) :
    f.change limit msg = growth limit b msg ↔ f.Faithful limit b msg := by
  cases msg with
  | order no o => exact iff_of_true rfl trivial
  | cancel no side price quantity =>
    have hq := h.1
    by_cases hp : price = limit
    · cases f <;> cases side <;> simp [SzFeed.change, growth, SzFeed.Faithful, hp]
      omega
    · simp [SzFeed.change, growth, SzFeed.Faithful, hp]
  | trade buyNo sellNo price quantity =>
    have hq := h.1
    simp only [SzFeed.change, growth, SzFeed.Faithful]
    split_ifs with hp hs hs
    · exact iff_of_true rfl (iff_of_true hp hs)
    · exact iff_of_false (by omega) fun h => hs (h.1 hp)
    · exact iff_of_false (by omega) fun h => hp (h.2 hs)
    · exact iff_of_true rfl (iff_of_false hp hs)

/-! ## The counter -/

namespace SzFeed

/-- The arithmetic of the counter. -/
def wrap : SzFeed → ℤ → ℤ
  | replay, x => x % 2 ^ 64
  | ne, x => Word.toSigned 64 x

theorem wrap_eq_self (f : SzFeed) {x : ℤ} (hlo : 0 ≤ x) (hhi : x < f.bound) : f.wrap x = x := by
  cases f with
  | replay => exact Int.emod_eq_of_lt hlo hhi
  | ne => exact Word.toSigned_of_range (by omega) hhi

theorem wrap_lt (f : SzFeed) (x : ℤ) : f.wrap x < f.bound := by
  cases f with
  | replay => exact Int.emod_lt_of_pos x (by norm_num)
  | ne => exact (Int.bmod_lt (by norm_num)).trans_le (by norm_num [bound])

/-- The counter is what was added, up to a multiple of the word size. -/
theorem wrap_dvd (f : SzFeed) (x : ℤ) : 2 ^ 64 ∣ x - f.wrap x := by
  cases f with
  | replay => exact Int.dvd_self_sub_emod
  | ne => exact Int.dvd_self_sub_bmod

/-- What the replay handler adds for a tick, in terms of its fields. -/
theorem change_replay {t : L2.Tick} {msg : Msg} (h : tickMsg t = some msg) (limit : ℤ) :
    replay.change limit msg =
      if t.sellOrderNo ≠ 0 ∧ t.price = limit then
        if t.buyOrderNo = 0 then t.quantity else -t.quantity
      else 0 := by
  rcases tickMsg_eq_some h with ⟨hb, hs, rfl⟩ | ⟨hone, hside, rfl | rfl⟩
  · simp [change, hb, hs]
  · by_cases hs : t.sellOrderNo = 0 <;> simp [change, hside, hone, hs]
  · by_cases hs : t.sellOrderNo = 0 <;> simp [change, hside, hone, hs]

theorem counter_limitUpReplaySz {s : StockState} {t : L2.Tick} {msg : Msg}
    (hmsg : tickMsg t = some msg) (hcounter : s.upRemainQty < 2 ^ 64)
    (h : (s.limitUpReplaySz t).2 = none) :
    ((s.limitUpReplaySz t).1.upRemainQty : ℤ) =
      (s.upRemainQty + replay.change s.upperLimitPrice msg) % 2 ^ 64 := by
  rw [change_replay hmsg]
  simp only [StockState.limitUpReplaySz] at h ⊢
  split_ifs at h ⊢ with h1 h2 h3
  · rw [Word.toUnsigned_cast]
  · rw [Word.toUnsigned_cast, sub_eq_add_neg]
  · simp; omega

theorem counter_limitUpNeSz {s : StockState} {m : Image} {msg : Msg}
    (hmsg : neMsg 1 m = some msg) (hlimit : s.upperLimitPrice10000 ≠ 0)
    (hcounter : Word.toSigned 64 s.upRemainQty100 = s.upRemainQty100) :
    (s.limitUpNeSz m).1.upRemainQty100 =
      Word.toSigned 64 (s.upRemainQty100 + ne.change s.upperLimitPrice10000 msg) := by
  have hkinds : msgTypeOrderSz ≠ msgTypeTradeSz := by decide
  unfold StockState.limitUpNeSz
  rcases neMsg_eq_some hmsg with ⟨htype, side, hside, rfl⟩ | ⟨htype, hexec, side, rfl⟩ |
    ⟨htype, hexec, rfl⟩
  · have hat : (OrderSz.side m = '2'.toNat ∧ OrderSz.orderType m = '2'.toNat ∧
        OrderSz.price m = s.upperLimitPrice10000) ↔
        side = .sell ∧ OrderSz.limitPrice m = s.upperLimitPrice10000 := by
      rw [hside, OrderSz.limitPrice]
      split_ifs with hl
      · rw [and_iff_right hl]
      · exact iff_of_false (fun h => hl h.2.1) fun h => hlimit h.2.symm
    rw [htype, if_neg hkinds, if_pos rfl]
    simp only [hat, change, Nat.div_one, Nat.cast_inj]
    split_ifs
    · rfl
    · rw [add_zero, hcounter]
  · rw [htype, if_pos rfl]
    simp only [change, Nat.div_one, Nat.cast_inj, true_or, and_true]
    split_ifs
    · rw [StockState.tradeAtLimitSz_fst, ← sub_eq_add_neg]; rfl
    · rw [add_zero, hcounter]
  · rw [htype, if_pos rfl]
    simp only [change, Nat.div_one, Nat.cast_inj]
    split_ifs
    · rw [StockState.tradeAtLimitSz_fst, ← sub_eq_add_neg]; rfl
    · rw [add_zero, hcounter]

/-- **What a tick does to the counter**, if it is not the limit-up tick. -/
theorem counter_limitUp (f : SzFeed) {s : StockState} {t : f.build.Tick} {msg : Msg}
    (hmsg : f.msg t = some msg) (hlimit : f.limit s ≠ 0)
    (hcounter : f.wrap (f.counter s) = f.counter s) (h : (s.limitUp f.build t).2 = none) :
    f.counter (s.limitUp f.build t).1 = f.wrap (f.counter s + f.change (f.limit s) msg) := by
  cases f with
  | replay =>
    have hlt : (s.upRemainQty : ℤ) < 2 ^ 64 := by
      rw [← show (s.upRemainQty : ℤ) % 2 ^ 64 = s.upRemainQty from hcounter]
      exact Int.emod_lt_of_pos _ (by norm_num)
    exact counter_limitUpReplaySz hmsg (by exact_mod_cast hlt) h
  | ne => exact counter_limitUpNeSz hmsg (fun h => hlimit (congrArg Nat.cast h)) hcounter

theorem quantity_lt {f : SzFeed} {t : f.build.Tick} {msg : Msg} (hmsg : f.msg t = some msg)
    (ht : f.InRange t) : msg.quantity < 2 ^ 64 := by
  cases f with
  | replay =>
    obtain ⟨hlo, hhi⟩ : -2 ^ 31 ≤ L2.Tick.quantity t ∧ L2.Tick.quantity t < 2 ^ 31 := ht
    rcases tickMsg_eq_some hmsg with ⟨-, -, rfl⟩ | ⟨-, -, rfl | rfl⟩ <;>
      simp only [Msg.quantity] <;> omega
  | ne =>
    have hqty : ∀ off, Image.unsigned t off 8 < 2 ^ 64 := fun off => (Packed.field t off 8).isLt
    rcases neMsg_eq_some hmsg with ⟨-, side, -, rfl⟩ | ⟨-, -, side, rfl⟩ | ⟨-, -, rfl⟩
    · simp only [Msg.quantity, Nat.div_one]; exact_mod_cast hqty 42
    · simp only [Msg.quantity, Nat.div_one]; exact_mod_cast hqty 40
    · simp only [Msg.quantity, Nat.div_one]; exact_mod_cast hqty 40

theorem abs_change_sub_growth_lt (f : SzFeed) {limit : ℤ} {b : Book} {msg : Msg}
    (h : b.AdmitsStrict msg) (hq : msg.quantity < 2 ^ 64) :
    |f.change limit msg - growth limit b msg| < 2 ^ 64 := by
  cases msg with
  | order no o => simp [change, growth, atLimit]
  | cancel no side price quantity =>
    have hpos := h.1
    simp only [Msg.quantity] at hq
    simp only [change, growth, abs_lt]
    split_ifs <;> constructor <;> omega
  | trade buyNo sellNo price quantity =>
    have hpos := h.1
    simp only [Msg.quantity] at hq
    simp only [change, growth, abs_lt]
    split_ifs <;> constructor <;> omega

/-- **The counter follows the total** over a message if and only if its price
    says what sell order is meant, and the total fits the word. -/
theorem wrap_eq_total_iff (f : SzFeed) (limit : ℤ) {b : Book} {msg : Msg} (hb : b.Nonneg)
    (h : b.AdmitsStrict msg) (hq : msg.quantity < 2 ^ 64) :
    f.wrap (b.total (atLimit limit) + f.change limit msg) = (b.apply msg).total (atLimit limit) ↔
      f.Faithful limit b msg ∧ (b.apply msg).total (atLimit limit) < f.bound := by
  rw [← change_eq_growth_iff f h]
  have hnonneg := total_atLimit_nonneg (hb.apply h) limit
  rw [total_apply h] at hnonneg ⊢
  constructor
  · intro heq
    refine ⟨?_, heq ▸ f.wrap_lt _⟩
    have hdvd := f.wrap_dvd (b.total (atLimit limit) + f.change limit msg)
    rw [heq, add_sub_add_left_eq_sub] at hdvd
    have hzero := Int.eq_zero_of_abs_lt_dvd hdvd (f.abs_change_sub_growth_lt h hq)
    exact sub_eq_zero.1 hzero
  · rintro ⟨heq, hlt⟩
    rw [heq]
    exact f.wrap_eq_self hnonneg hlt

end SzFeed

/-! ## Runs -/

section
variable {f : SzFeed} {alwaysBuy : Bool} {check : ℤ → WantCache.Intent} {limit : ℤ}

/-- A tick for the stock, and its message for the book. -/
def feedStep (f : SzFeed) (alwaysBuy : Bool) (check : ℤ → WantCache.Intent)
    (x : StockState × Book) (t : f.build.Tick) : StockState × Book :=
  ((x.1.onTick f.build alwaysBuy check t).1, ((f.msg t).map x.2.apply).getD x.2)

/-- While the stock is alive, the counter is what remains of the sell orders at the
    limit. -/
def CounterExact (f : SzFeed) (limit : ℤ) (x : StockState × Book) : Prop :=
  x.1.alive → f.counter x.1 = x.2.total (atLimit limit)

/-- The tick, if it is not the limit-up tick, is one that the counter can follow. -/
def Followed (f : SzFeed) (limit : ℤ) (x : StockState × Book) (t : f.build.Tick) : Prop :=
  x.1.alive → (x.1.limitUp f.build t).2 = none → ∀ msg, f.msg t = some msg →
    f.Faithful limit x.2 msg ∧ (x.2.apply msg).total (atLimit limit) < f.bound

/-- The invariant: an exact counter, and room for it in its word. -/
structure CounterFits (f : SzFeed) (limit : ℤ) (x : StockState × Book) : Prop where
  exact : CounterExact f limit x
  lt : x.1.alive → x.2.total (atLimit limit) < f.bound

/-- What is known of a stock and the ticks to come. -/
structure Feeds (f : SzFeed) (limit : ℤ) (x : StockState × Book) (ts : List f.build.Tick) :
    Prop where
  isSome : ∀ t ∈ ts, (f.msg t).isSome
  inRange : ∀ t ∈ ts, f.InRange t
  consistent : Book.Consistent Book.AdmitsStrict x.2 (ts.filterMap f.msg)
  nonneg : x.2.Nonneg
  limit : x.1.alive → f.limit x.1 = limit

variable {x : StockState × Book} {t : f.build.Tick} {ts : List f.build.Tick}

theorem feedStep_snd {msg : Msg} (h : f.msg t = some msg) :
    (feedStep f alwaysBuy check x t).2 = x.2.apply msg := by
  simp only [feedStep, h, Option.map_some, Option.getD_some]

theorem Feeds.head (h : Feeds f limit x (t :: ts)) :
    ∃ msg, f.msg t = some msg ∧ x.2.AdmitsStrict msg ∧
      Book.Consistent Book.AdmitsStrict (x.2.apply msg) (ts.filterMap f.msg) := by
  obtain ⟨msg, hmsg⟩ := Option.isSome_iff_exists.1 (h.isSome t List.mem_cons_self)
  exact ⟨msg, hmsg, h.consistent.head_filterMap hmsg⟩

theorem Feeds.step (h : Feeds f limit x (t :: ts)) :
    Feeds f limit (feedStep f alwaysBuy check x t) ts := by
  obtain ⟨msg, hmsg, hadmits, hcons⟩ := h.head
  constructor
  · exact fun u hu => h.isSome u (List.mem_cons_of_mem t hu)
  · exact fun u hu => h.inRange u (List.mem_cons_of_mem t hu)
  · rw [feedStep_snd hmsg]; exact hcons
  · rw [feedStep_snd hmsg]; exact h.nonneg.apply hadmits
  · intro ha
    obtain ⟨hx, hnone⟩ := StockState.alive_of_onTick ha
    obtain ⟨q, q100, hup⟩ := x.1.limitUp_frame f.build t
    rw [feedStep, StockState.onTick_of_none hx hnone, hup, ← h.limit hx]
    cases f <;> rfl

/-- A tick that is followed keeps the counter exact, and no other tick does. -/
theorem counterExact_step (hlimit : limit ≠ 0) (h : Feeds f limit x (t :: ts))
    (hx : CounterFits f limit x) :
    CounterExact f limit (feedStep f alwaysBuy check x t) ↔ Followed f limit x t := by
  obtain ⟨msg, hmsg, hadmits, -⟩ := h.head
  by_cases ha : x.1.alive ∧ (x.1.limitUp f.build t).2 = none
  · obtain ⟨ha, hnone⟩ := ha
    have hself : f.wrap (f.counter x.1) = f.counter x.1 := by
      rw [hx.exact ha]
      exact f.wrap_eq_self (total_atLimit_nonneg h.nonneg limit) (hx.lt ha)
    have hcount := f.counter_limitUp hmsg (h.limit ha ▸ hlimit) hself hnone
    rw [hx.exact ha, h.limit ha] at hcount
    have hiff := f.wrap_eq_total_iff limit h.nonneg hadmits
      (SzFeed.quantity_lt hmsg (h.inRange t List.mem_cons_self))
    rw [← hcount] at hiff
    have halive : (x.1.limitUp f.build t).1.alive := by rw [StockState.limitUp_alive]; exact ha
    rw [CounterExact, feedStep_snd hmsg, feedStep, StockState.onTick_of_none ha hnone]
    constructor
    · intro hexact _ _ msg' hmsg'
      rw [← Option.some.inj (hmsg.symm.trans hmsg')]
      exact hiff.1 (hexact halive)
    · intro hfollowed _
      exact hiff.2 (hfollowed ha hnone msg hmsg)
  · refine iff_of_true (fun hstep => absurd (StockState.alive_of_onTick hstep) ha) ?_
    exact fun h1 h2 => absurd ⟨h1, h2⟩ ha

theorem CounterFits.step (hlimit : limit ≠ 0) (h : Feeds f limit x (t :: ts))
    (hx : CounterFits f limit x) (ht : Followed f limit x t) :
    CounterFits f limit (feedStep f alwaysBuy check x t) := by
  refine ⟨(counterExact_step hlimit h hx).2 ht, fun halive => ?_⟩
  obtain ⟨msg, hmsg, -⟩ := h.head
  obtain ⟨ha, hnone⟩ := StockState.alive_of_onTick halive
  rw [feedStep_snd hmsg]
  exact (ht ha hnone msg hmsg).2

/-- **The counter is exact in every state of a run if and only if it can follow
    every tick**: the price of each trade is the limit exactly if its sell order
    is priced there, the live build sees no cancel of a buy order at the limit,
    and what remains fits the counter. -/
theorem counterExact_iff (f : SzFeed) (alwaysBuy : Bool) (check : ℤ → WantCache.Intent)
    {s : StockState} (hcounter : f.counter s = 0) (hlimit : f.limit s ≠ 0)
    {ts : List f.build.Tick} (hmsg : ∀ t ∈ ts, (f.msg t).isSome) (hrange : ∀ t ∈ ts, f.InRange t)
    (hcons : Book.Consistent Book.AdmitsStrict .empty (ts.filterMap f.msg)) :
    Run.Always (feedStep f alwaysBuy check) (CounterExact f (f.limit s)) (s, .empty) ts ↔
      Run.EachStep (feedStep f alwaysBuy check) (Followed f (f.limit s)) (s, .empty) ts := by
  have hfeeds : Feeds f (f.limit s) (s, .empty) ts :=
    ⟨hmsg, hrange, hcons, fun no hno => absurd hno (Finset.notMem_empty no), fun _ => rfl⟩
  have hempty : Book.total (atLimit (f.limit s)) .empty = 0 := Finset.sum_empty
  have hstart : CounterFits f (f.limit s) (s, .empty) := by
    refine ⟨fun _ => hcounter.trans hempty.symm, fun _ => ?_⟩
    rw [hempty]
    cases f <;> exact by decide
  exact Run.always_iff_eachStep (fun _ _ _ => Feeds.step) (fun _ hx => hx.exact)
    (fun _ _ _ h hx ht => hx.step hlimit h ht)
    (fun _ _ _ h hx hobs => (counterExact_step hlimit h hx).1 hobs) hfeeds hstart

theorem counterExact_iff_auction :
    let s : StockState := { upperLimitPrice := 1100, alive := true }
    let ts : List L2.Tick := [⟨1, 92000000, 1100, 300, 0, 7⟩, ⟨1, 92100000, 1100, 200, 9, 0⟩,
      ⟨1, 92500000, 1100, 200, 9, 7⟩]
    Run.Always (feedStep .replay false fun _ => .NotSure) (CounterExact .replay 1100)
        (s, .empty) ts ↔
      Run.EachStep (feedStep .replay false fun _ => .NotSure) (Followed .replay 1100)
        (s, .empty) ts := by
  intro s ts
  have hmsg : ∀ t ∈ ts, (tickMsg t).isSome := by decide
  have hrange : ∀ t ∈ ts, -2 ^ 31 ≤ t.quantity ∧ t.quantity < 2 ^ 31 := by decide
  exact counterExact_iff .replay false _ rfl (by decide) hmsg hrange (by decide)

/-- A sell order below the limit is traded at the limit in the call auction: the
    replay counter wraps below zero. -/
theorem not_counterExact_auction :
    let s : StockState := { upperLimitPrice := 1100, alive := true }
    let ts : List L2.Tick := [⟨1, 92000000, 1099, 300, 0, 7⟩, ⟨1, 92100000, 1100, 300, 9, 0⟩,
      ⟨1, 92500000, 1100, 300, 9, 7⟩]
    Book.Consistent Book.AdmitsStrict .empty (ts.filterMap tickMsg) ∧
      ¬ Run.Always (feedStep .replay false fun _ => .NotSure) (CounterExact .replay 1100)
        (s, .empty) ts := by
  intro s ts
  refine ⟨by decide, fun h => ?_⟩
  have hend := h ts (List.prefix_refl ts) (by decide)
  exact absurd hend (by decide)

end

end Mdd2
