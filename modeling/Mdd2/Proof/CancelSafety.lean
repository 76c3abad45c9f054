/-
  Cancels in the limit-up detectors of the replay.

  A cancel is a tick of negative quantity with one order number.  The Shanghai
  detector asks for a positive quantity, and the Shenzhen one compares the
  quantity with an unsigned counter, so that a negative one is a large one.

  * `limitUp_of_cancel` says which cancels are taken for the limit-up tick;
  * `remainingStep` runs the stock together with the exact value of its counter;
  * `cancel_safe_iff`: no cancel of a run sends an order or stops the stock if and
    only if none of them is of a buy order at the limit price.
-/
import Mdd2.Lib.Run
import Mdd2.Proof.Protocol

namespace Mdd2

/-- What the fields of a tick can hold. -/
def IsInt32 (x : ℤ) : Prop := -2 ^ 31 ≤ x ∧ x < 2 ^ 31

/-- Exactly one order number, and a negative quantity. -/
def IsCancel (t : L2.Tick) : Prop := t.isOrder ∧ t.quantity < 0

/-- The cancel is of a buy order at the limit price in continuous trading, and the
    counter is less than what the quantity is converted to. -/
def MistakenCancel (s : StockState) (t : L2.Tick) : Prop :=
  t.isBuyOrder ∧ t.price = s.upperLimitPrice ∧ 93000000 ≤ t.timestamp ∧
    t.timestamp < 145700000 ∧ (s.upRemainQty : ℤ) < 2 ^ 64 + t.quantity

theorem toUnsigned_of_neg {q : ℤ} (hlo : -2 ^ 31 ≤ q) (hneg : q < 0) :
    (Word.toUnsigned 64 q : ℤ) = 2 ^ 64 + q := by
  rw [Word.toUnsigned_cast]
  omega

/-- **The comparison with the counter is the mathematical one** if the quantity is
    not negative, or the counter is within its amount of the largest. -/
theorem gt_counter_iff {q : ℤ} (hq : IsInt32 q) (counter : ℕ) :
    ((Word.toUnsigned 64 q > counter) ↔ q > counter) ↔ 0 ≤ q ∨ 2 ^ 64 + q ≤ counter := by
  obtain ⟨hlo, hhi⟩ := hq
  rcases lt_or_ge q 0 with hneg | hnonneg
  · have hcast := toUnsigned_of_neg hlo hneg
    omega
  · have hcast := Word.toUnsigned_of_range (w := 64) hnonneg (by omega)
    omega

/-- The comparison with an exact value of less than 63 bits is the mathematical one if
    quantity and value have the same sign. -/
theorem gt_exact_iff {q n : ℤ} (hq : IsInt32 q) (hlo : -2 ^ 63 ≤ n) (hhi : n < 2 ^ 63)
    {counter : ℕ} (hcounter : (counter : ℤ) = n % 2 ^ 64) :
    ((Word.toUnsigned 64 q > counter) ↔ q > n) ↔ (0 ≤ q ↔ 0 ≤ n) := by
  have hcast := Word.toUnsigned_cast 64 q
  obtain ⟨hqlo, hqhi⟩ := hq
  rcases lt_or_ge q 0 with hneg | hnonneg <;> rcases lt_or_ge n 0 with hn | hn <;> omega

/-- **The cancels that are taken for the limit-up tick.** -/
theorem limitUp_of_cancel (m : Market) {s : StockState} {t : L2.Tick} (ht : IsCancel t)
    (hq : IsInt32 t.quantity) :
    (s.limitUp (.replay m) t).2.isSome ↔ m = .SZ ∧ MistakenCancel s t := by
  obtain ⟨-, hneg⟩ := ht
  cases m with
  | SH =>
    have hnot : ¬ t.quantity > 0 := by omega
    simp [StockState.limitUp, StockState.limitUpReplaySh, hnot]
  | SZ =>
    have hcast := toUnsigned_of_neg hq.1 hneg
    have hgt : Word.toUnsigned 64 t.quantity > s.upRemainQty ↔
        (s.upRemainQty : ℤ) < 2 ^ 64 + t.quantity := by omega
    simp only [StockState.limitUp, StockState.limitUpReplaySz, hgt, true_and, MistakenCancel,
      L2.Tick.isBuyOrder, decide_eq_true_eq, ge_iff_le]
    split_ifs with h1 h2 h3
    · exact iff_of_true rfl ⟨⟨h1.1, h1.2.1⟩, h1.2.2.2.1, h1.2.2.2.2.1, h1.2.2.2.2.2, h1.2.2.1⟩
    all_goals
      refine iff_of_false (by simp) ?_
      rintro ⟨⟨hb, hs⟩, hprice, hlo, hhi, hcounter⟩
      exact h1 ⟨hb, hs, hcounter, hprice, hlo, hhi⟩

/-! ## Runs -/

section
variable (m : Market) (alwaysBuy : Bool) (check : ℤ → WantCache.Intent)

/-- What a tick that is not the limit-up tick adds to the counter. -/
def counterChange (limit : ℤ) (t : L2.Tick) : ℤ :=
  if t.sellOrderNo ≠ 0 ∧ t.price = limit then
    if t.buyOrderNo = 0 then t.quantity else -t.quantity
  else 0

/-- A tick for the stock, and for the exact value of its counter. -/
def remainingStep (x : StockState × ℤ) (t : L2.Tick) : StockState × ℤ :=
  ((x.1.onTick (.replay m) alwaysBuy check t).1,
    if x.1.alive ∧ (x.1.limitUp (.replay m) t).2 = none then
      x.2 + counterChange x.1.upperLimitPrice t
    else x.2)

/-- A cancel that reaches a live stock is forwarded, and has no other effect. -/
def CancelSafe (x : StockState × ℤ) (t : L2.Tick) : Prop :=
  x.1.alive → IsCancel t →
    (x.1.onTick (.replay m) alwaysBuy check t).2 = [.pushTick t]

/-- No cancel that reaches a live stock is mistaken. -/
def NotMistaken (x : StockState × ℤ) (t : L2.Tick) : Prop :=
  x.1.alive → IsCancel t → ¬ (m = .SZ ∧ MistakenCancel x.1 t)

/-- The counter is the exact value but for multiples of the word size, and is
    compared rightly with the quantities that `gt_counter_iff` lists; an exact value
    of less than 63 bits, with those that `gt_exact_iff` lists. -/
def CounterRead (x : StockState × ℤ) : Prop :=
  (x.1.upRemainQty : ℤ) = x.2 % 2 ^ 64 ∧ ∀ q, IsInt32 q →
    (((Word.toUnsigned 64 q > x.1.upRemainQty) ↔ q > x.1.upRemainQty) ↔
      0 ≤ q ∨ 2 ^ 64 + q ≤ x.1.upRemainQty) ∧
    (-2 ^ 63 ≤ x.2 → x.2 < 2 ^ 63 →
      (((Word.toUnsigned 64 q > x.1.upRemainQty) ↔ q > x.2) ↔ (0 ≤ q ↔ 0 ≤ x.2)))

end

section
variable {m : Market} {alwaysBuy : Bool} {check : ℤ → WantCache.Intent}

theorem cancelSafe_iff {x : StockState × ℤ} {t : L2.Tick} (hq : IsInt32 t.quantity) :
    CancelSafe m alwaysBuy check x t ↔ NotMistaken m x t := by
  refine forall₂_congr fun ha ht => ?_
  rw [← limitUp_of_cancel m ht hq, Option.not_isSome_iff_eq_none]
  constructor
  · intro heffects
    by_contra hsome
    obtain ⟨timestamp, htime⟩ := Option.ne_none_iff_exists'.1 hsome
    have hl : (x.1.limitUp (.replay m) t).1.alive := by rw [StockState.limitUp_alive]; exact ha
    rw [StockState.onTick_of_some ha htime, StockState.onIntent_eq hl] at heffects
    -- the end sign has no quantity
    have hmem : Effect.pushTick (StockState.endSign (.replay m)
        (x.1.limitUp (.replay m) t).1.stockCode (timestamp + (check timestamp).toInt)) ∈
        [Effect.pushTick (b := .replay m) t] := by
      rw [← heffects]
      exact List.mem_append_right _ List.mem_cons_self
    have hneg := ht.2
    rw [← Effect.pushTick.inj (List.mem_singleton.1 hmem)] at hneg
    exact absurd hneg (lt_irrefl 0)
  · intro hnone
    rw [StockState.onTick_of_none ha hnone]

/-- **The Shenzhen counter adds up what ticks bring, modulo its word size.** -/
theorem counter_remainingStep {x : StockState × ℤ} (hx : (x.1.upRemainQty : ℤ) = x.2 % 2 ^ 64)
    (t : L2.Tick) : ((remainingStep .SZ alwaysBuy check x t).1.upRemainQty : ℤ) =
      (remainingStep .SZ alwaysBuy check x t).2 % 2 ^ 64 := by
  unfold remainingStep
  by_cases ha : x.1.alive
  · cases hlimit : (x.1.limitUp (.replay .SZ) t).2 with
    | none =>
      rw [StockState.onTick_of_none ha hlimit, if_pos ⟨ha, rfl⟩]
      simp only [StockState.limitUp, StockState.limitUpReplaySz, counterChange] at hlimit ⊢
      split_ifs at hlimit ⊢
      · rw [Word.toUnsigned_cast, hx, Int.emod_add_emod]
      · rw [Word.toUnsigned_cast, hx, ← sub_eq_add_neg, Int.emod_sub_emod]
      · rw [add_zero, hx]
    | some timestamp =>
      have hl : (x.1.limitUp (.replay .SZ) t).1.alive := by
        rw [StockState.limitUp_alive]; exact ha
      have hnot : ¬ (x.1.alive ∧ some timestamp = none) := by simp
      rw [if_neg hnot, StockState.onTick_of_some ha hlimit, StockState.onIntent_eq hl]
      simp only [StockState.limitUp, StockState.limitUpReplaySz] at hlimit ⊢
      split_ifs at hlimit ⊢
      exact hx
  · rw [StockState.onTick, if_neg ha, if_neg fun h => ha h.1]
    exact hx

theorem counterRead_run {x : StockState × ℤ} (hx : (x.1.upRemainQty : ℤ) = x.2 % 2 ^ 64)
    (ts : List L2.Tick) : Run.Always (remainingStep .SZ alwaysBuy check) CounterRead x ts := by
  have hrun : Run.Always (remainingStep .SZ alwaysBuy check)
      (fun x => (x.1.upRemainQty : ℤ) = x.2 % 2 ^ 64) x ts :=
    Run.always_of_step (fun _ t hx _ => counter_remainingStep hx t) hx fun _ _ => trivial
  exact hrun.mono fun _ hx =>
    ⟨hx, fun _ hq => ⟨gt_counter_iff hq _, fun hlo hhi => gt_exact_iff hq hlo hhi hx⟩⟩

end

/-- **No cancel of a run of a stock sends an order or stops the stock if and only
    if no cancel is mistaken**: on Shenzhen, none is of a buy order at the limit
    price, in continuous trading, while the counter is less than the quantity as
    it is converted.  In every state of a Shenzhen run, the counter is compared
    rightly with the quantities that are not negative, and with no other that is
    converted to more than the counter; its exact value, as long as 63 bits hold it, is
    compared rightly with the quantities of its own sign. -/
theorem cancel_safe_iff (m : Market) (alwaysBuy : Bool) (check : ℤ → WantCache.Intent)
    {s : StockState} (hs : s.upRemainQty = 0) {ts : List L2.Tick}
    (hts : ∀ t ∈ ts, IsInt32 t.quantity) :
    (Run.EachStep (remainingStep m alwaysBuy check) (CancelSafe m alwaysBuy check) (s, 0) ts ↔
      Run.EachStep (remainingStep m alwaysBuy check) (NotMistaken m) (s, 0) ts) ∧
    (m = .SZ → Run.Always (remainingStep m alwaysBuy check) CounterRead (s, 0) ts) := by
  refine ⟨?_, ?_⟩
  · refine forall₃_congr fun l t hl => cancelSafe_iff (hts t ?_)
    exact hl.subset (by simp)
  · rintro rfl
    exact counterRead_run (by rw [hs]; rfl) ts

theorem cancel_safe_iff_sell :
    let s : StockState := { upperLimitPrice := 1100, alive := true }
    let ts : List L2.Tick := [⟨1, 93000000, 1100, 300, 0, 7⟩, ⟨1, 93000120, 1100, -300, 0, 7⟩]
    (Run.EachStep (remainingStep .SZ false fun _ => .NotSure)
        (CancelSafe .SZ false fun _ => .NotSure) (s, 0) ts ↔
      Run.EachStep (remainingStep .SZ false fun _ => .NotSure) (NotMistaken .SZ) (s, 0) ts) ∧
    ((.SZ : Market) = .SZ → Run.Always (remainingStep .SZ false fun _ => .NotSure) CounterRead
      (s, 0) ts) := by
  intro s ts
  have hts : ∀ t ∈ ts, IsInt32 t.quantity := by
    simp only [ts, List.forall_mem_cons, IsInt32]
    norm_num
  exact cancel_safe_iff .SZ false _ rfl hts

/-- The cancel of a buy order of 300 shares at the limit price sends an order. -/
theorem not_cancel_safe_buy :
    let s : StockState := { upperLimitPrice := 1100, alive := true }
    let t : L2.Tick := ⟨1, 93000120, 1100, -300, 7, 0⟩
    (t.isOrder ∧ t.quantity < 0) ∧ .sendBuyRequest ∈
      (s.onTick (.replay .SZ) false (fun _ => .WantBuy) t).2 := by
  intro s t
  refine ⟨⟨rfl, by decide⟩, ?_⟩
  have hlimit : (s.limitUp (.replay .SZ) t).2 = some 93000120 := by decide
  rw [StockState.onTick_of_some rfl hlimit]
  exact List.mem_cons_self

end Mdd2
