/-
  Stacks as linked lists in memory.

  `next` holds, for each cell, the cell below it; a stack is known by its top
  cell.  A cell outside of the stack can be written, and pushed, without a change
  to the cells of the stack.
-/
import Mathlib

namespace LinkedStack

variable {α : Type*} [DecidableEq α] {next : α → Option α} {top : Option α} {a : α} {l : List α}

/-- The cells from the top on. -/
def IsStack (next : α → Option α) : Option α → List α → Prop
  | top, [] => top = none
  | top, a :: l => top = some a ∧ IsStack next (next a) l

theorem IsStack.update (h : IsStack next top l) (ha : a ∉ l) (b : Option α) :
    IsStack (Function.update next a b) top l := by
  induction l generalizing top with
  | nil => exact h
  | cons c l ih =>
    obtain ⟨rfl, hl⟩ := h
    simp only [List.mem_cons, not_or] at ha
    refine ⟨rfl, ?_⟩
    rw [Function.update_of_ne (Ne.symm ha.1)]
    exact ih hl ha.2

theorem IsStack.push (h : IsStack next top l) (ha : a ∉ l) :
    IsStack (Function.update next a top) (some a) (a :: l) := by
  refine ⟨rfl, ?_⟩
  rw [Function.update_self]
  exact h.update ha top

omit [DecidableEq α] in
theorem IsStack.pop (h : IsStack next top (a :: l)) :
    top = some a ∧ IsStack next (next a) l := h

end LinkedStack
