/-
  Bounded queues.

  A queue of `n` slots leaves one of them unused.  In a step it takes in items behind those
  that it holds, or gives out its first items.

  * `Run`: the items taken in so far, those given out, and those held;
  * `Run.fifo`: nothing is lost, doubled or reordered;
  * `Run.length_lt`: the queue never holds as many items as it has slots.
-/
import Mathlib

namespace BoundedQueue

variable {α : Type*}

/-- What a queue holds, what it takes in and gives out, and what it then holds. -/
inductive Step (n : ℕ) : List α → List α → List α → List α → Prop
  | stay (q : List α) : Step n q [] [] q
  | push (q items : List α) : (q ++ items).length < n → Step n q items [] (q ++ items)
  | pop (q : List α) (k : ℕ) : Step n q [] (q.take k) (q.drop k)

/-- What was taken in and given out by any steps, and what is held. -/
inductive Run (n : ℕ) : List α → List α → List α → Prop
  | init : Run n [] [] []
  | step {taken given q i o q' : List α} : Run n taken given q → Step n q i o q' →
      Run n (taken ++ i) (given ++ o) q'

variable {n : ℕ} {taken given q i o q' : List α}

theorem Step.append_eq (h : Step n q i o q') : q ++ i = o ++ q' := by
  cases h with
  | stay => rw [List.append_nil, List.nil_append]
  | push => rfl
  | pop k => rw [List.append_nil, List.take_append_drop]

theorem Step.length_lt (h : Step n q i o q') (hq : q.length < n) : q'.length < n := by
  cases h with
  | stay => exact hq
  | push items hlt => exact hlt
  | pop k => exact (List.drop_sublist k q).length_le.trans_lt hq

/-- **What is taken in is given out or held, in order.** -/
theorem Run.fifo (h : Run n taken given q) : taken = given ++ q := by
  induction h with
  | init => rfl
  | step _ hs ih => rw [ih, List.append_assoc, hs.append_eq, ← List.append_assoc]

theorem Run.length_lt (hn : 0 < n) (h : Run n taken given q) : q.length < n := by
  induction h with
  | init => exact hn
  | step _ hs ih => exact hs.length_lt ih

end BoundedQueue
