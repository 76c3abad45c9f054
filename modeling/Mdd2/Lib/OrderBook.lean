/-
  The order book of an exchange, as its messages describe it.

  A book knows the orders introduced so far, with what remains of each.  An
  observer may miss orders, so `Admits` allows messages about orders that were
  not introduced; `AdmitsStrict` does not, and is what an exchange sends that
  introduces every order before it trades.

  `total` sums a value over the orders; `total_order` and `total_reduce` say how
  a message changes it.
-/
import Mathlib

namespace Exchange

inductive Side where
  | buy
  | sell
  deriving DecidableEq

structure Order where
  side : Side
  price : ℤ
  remaining : ℤ
  deriving DecidableEq

/-- What is left of an order after a trade or cancel. -/
def Order.reduce (o : Order) (quantity : ℤ) : Order :=
  { o with remaining := o.remaining - quantity }

inductive Msg where
  | order (no : ℤ) (o : Order)
  | cancel (no : ℤ) (side : Side) (price quantity : ℤ)
  | trade (buyNo sellNo price quantity : ℤ)
  deriving DecidableEq

def Msg.quantity : Msg → ℤ
  | .order _ o => o.remaining
  | .cancel _ _ _ quantity | .trade _ _ _ quantity => quantity

/-- `order` matters at the numbers introduced only. -/
structure Book where
  numbers : Finset ℤ
  order : ℤ → Order

namespace Book

def empty : Book where
  numbers := ∅
  order := fun _ => ⟨.buy, 0, 0⟩

/-- Change what remains of an order. -/
def reduce (b : Book) (no quantity : ℤ) : Book :=
  { b with order := Function.update b.order no ((b.order no).reduce quantity) }

def apply (b : Book) : Msg → Book
  | .order no o => ⟨insert no b.numbers, Function.update b.order no o⟩
  | .cancel no _ _ quantity => b.reduce no quantity
  | .trade buyNo sellNo _ quantity => (b.reduce buyNo quantity).reduce sellNo quantity

/-- The book after some messages. -/
def run (b : Book) (ms : List Msg) : Book := ms.foldl apply b

/-- The message fits an introduced order: its side, and what remains of it. -/
def Fits (b : Book) (no : ℤ) (side : Side) (quantity : ℤ) : Prop :=
  (b.order no).side = side ∧ quantity ≤ (b.order no).remaining

/-- What the exchange can send, to an observer that may have missed orders: an
    order is introduced once, a cancel takes all that remains of an order, and a
    trade no more than that. -/
def Admits (b : Book) : Msg → Prop
  | .order no o => no ∉ b.numbers ∧ 0 < o.remaining
  | .cancel no side _ quantity => 0 < quantity ∧
      (no ∈ b.numbers → (b.order no).side = side ∧ quantity = (b.order no).remaining)
  | .trade buyNo sellNo _ quantity => 0 < quantity ∧
      (buyNo ∈ b.numbers → b.Fits buyNo .buy quantity) ∧
      (sellNo ∈ b.numbers → b.Fits sellNo .sell quantity)

theorem Admits.quantity_pos {b : Book} {m : Msg} (h : b.Admits m) : 0 < m.quantity := by
  cases m with
  | order no o => exact h.2
  | cancel no side price quantity => exact h.1
  | trade buyNo sellNo price quantity => exact h.1

/-- Every message names introduced orders, a cancel carries the price of its
    order, and a trade is at a price between the limits of its orders. -/
def AdmitsStrict (b : Book) : Msg → Prop
  | .order no o => no ∉ b.numbers ∧ 0 < o.remaining
  | .cancel no side price quantity => 0 < quantity ∧ no ∈ b.numbers ∧
      b.order no = ⟨side, price, quantity⟩
  | .trade buyNo sellNo price quantity => 0 < quantity ∧
      (buyNo ∈ b.numbers ∧ b.Fits buyNo .buy quantity) ∧
      (sellNo ∈ b.numbers ∧ b.Fits sellNo .sell quantity) ∧
      (b.order sellNo).price ≤ price ∧ price ≤ (b.order buyNo).price

/-- Every message is admitted in the book of those before it. -/
def Consistent (admits : Book → Msg → Prop) : Book → List Msg → Prop
  | _, [] => True
  | b, m :: ms => admits b m ∧ Consistent admits (b.apply m) ms

instance (b : Book) (no : ℤ) (side : Side) (quantity : ℤ) : Decidable (b.Fits no side quantity) :=
  inferInstanceAs (Decidable (_ ∧ _))

instance : DecidableRel Admits
  | _, .order .. => inferInstanceAs (Decidable (_ ∧ _))
  | _, .cancel .. => inferInstanceAs (Decidable (_ ∧ _))
  | _, .trade .. => inferInstanceAs (Decidable (_ ∧ _))

instance : DecidableRel AdmitsStrict
  | _, .order .. => inferInstanceAs (Decidable (_ ∧ _))
  | _, .cancel .. => inferInstanceAs (Decidable (_ ∧ _))
  | _, .trade .. => inferInstanceAs (Decidable (_ ∧ _))

instance decidableConsistent (admits : Book → Msg → Prop) [DecidableRel admits] :
    ∀ b ms, Decidable (Consistent admits b ms)
  | _, [] => isTrue trivial
  | b, m :: ms =>
    have := decidableConsistent admits (b.apply m) ms
    inferInstanceAs (Decidable (_ ∧ _))

theorem Consistent.left {admits : Book → Msg → Prop} : ∀ {b : Book} {ms ms' : List Msg},
    Consistent admits b (ms ++ ms') → Consistent admits b ms
  | _, [], _, _ => trivial
  | _, _ :: _, _, h => ⟨h.1, Consistent.left h.2⟩

/-- The first input with a message, of inputs whose messages are consistent. -/
theorem Consistent.head_filterMap {admits : Book → Msg → Prop} {b : Book} {α : Type*}
    {f : α → Option Msg} {a : α} {as : List α} {m : Msg}
    (h : Consistent admits b ((a :: as).filterMap f)) (ha : f a = some m) :
    admits b m ∧ Consistent admits (b.apply m) (as.filterMap f) := by
  rw [List.filterMap_cons_some ha] at h
  exact h

section
variable (b : Book) (no quantity : ℤ)

theorem numbers_reduce : (b.reduce no quantity).numbers = b.numbers := rfl

theorem order_reduce_self : (b.reduce no quantity).order no = (b.order no).reduce quantity :=
  Function.update_self ..

theorem order_reduce_of_ne {n : ℤ} (h : n ≠ no) : (b.reduce no quantity).order n = b.order n :=
  Function.update_of_ne h ..

theorem side_reduce (n : ℤ) : ((b.reduce no quantity).order n).side = (b.order n).side := by
  by_cases h : n = no
  · rw [h, order_reduce_self]; rfl
  · rw [order_reduce_of_ne b no quantity h]

theorem price_reduce (n : ℤ) : ((b.reduce no quantity).order n).price = (b.order n).price := by
  by_cases h : n = no
  · rw [h, order_reduce_self]; rfl
  · rw [order_reduce_of_ne b no quantity h]

end

/-! ## Totals -/

/-- The sum of a value over the orders introduced. -/
def total (v : Order → ℤ) (b : Book) : ℤ := ∑ no ∈ b.numbers, v (b.order no)

/-- Never more than all of an order is traded or cancelled. -/
def Nonneg (b : Book) : Prop := ∀ no ∈ b.numbers, 0 ≤ (b.order no).remaining

section
variable {b : Book} {no : ℤ} (v : Order → ℤ)

theorem total_order (hno : no ∉ b.numbers) (o : Order) :
    (b.apply (.order no o)).total v = b.total v + v o := by
  have hrest : ∀ n ∈ b.numbers, v (Function.update b.order no o n) = v (b.order n) := by
    intro n hn
    rw [Function.update_of_ne]
    rintro rfl
    exact hno hn
  simp only [total, apply]
  rw [Finset.sum_insert hno, Function.update_self, Finset.sum_congr rfl hrest, add_comm]

theorem total_reduce (hno : no ∈ b.numbers) (quantity : ℤ) :
    (b.reduce no quantity).total v =
      b.total v + (v ((b.order no).reduce quantity) - v (b.order no)) := by
  have hrest : ∀ n ∈ b.numbers.erase no, v ((b.reduce no quantity).order n) = v (b.order n) := by
    intro n hn
    rw [order_reduce_of_ne b no quantity (Finset.ne_of_mem_erase hn)]
  simp only [total, numbers_reduce]
  rw [← Finset.add_sum_erase _ _ hno, Finset.sum_congr rfl hrest, order_reduce_self,
    ← Finset.add_sum_erase b.numbers _ hno]
  ring

theorem Nonneg.reduce (h : b.Nonneg) {quantity : ℤ} (hq : quantity ≤ (b.order no).remaining) :
    (b.reduce no quantity).Nonneg := by
  intro n hn
  by_cases he : n = no
  · rw [he, order_reduce_self]
    exact sub_nonneg.2 hq
  · rw [order_reduce_of_ne b no quantity he]
    exact h n hn

theorem Nonneg.apply (h : b.Nonneg) {m : Msg} (hm : b.AdmitsStrict m) : (b.apply m).Nonneg := by
  cases m with
  | order no o =>
    intro n hn
    by_cases he : n = no
    · simp only [Book.apply, he, Function.update_self]
      exact hm.2.le
    · simp only [Book.apply, Function.update_of_ne he]
      exact h n (Finset.mem_of_mem_insert_of_ne hn he)
  | cancel no side price quantity =>
    obtain ⟨-, -, ho⟩ := hm
    exact h.reduce (by rw [ho])
  | trade buyNo sellNo price quantity =>
    obtain ⟨-, ⟨-, hbuy⟩, ⟨-, hsell⟩, -⟩ := hm
    refine (h.reduce hbuy.2).reduce ?_
    rw [order_reduce_of_ne]
    · exact hsell.2
    · rintro rfl
      exact absurd (hbuy.1.symm.trans hsell.1) (by simp)

end

end Book

end Exchange
