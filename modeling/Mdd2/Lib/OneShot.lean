/-
  One-shot machines.

  A machine consumes inputs and emits outputs.  It is one-shot if, while it is
  live, it passes every input on and stays live, up to the first input that
  fires; that one makes it dead, and a dead machine does nothing.

  `Machine.OneShot.run_eq` gives the outputs of a whole run: those of the inputs before
  the first one that fires (`before`), and those of the firing step.
-/
import Mathlib

namespace Machine

variable {σ ι ω : Type*}

/-- Run a machine over a list of inputs, collecting the outputs. -/
def run (step : σ → ι → σ × List ω) : σ → List ι → σ × List ω
  | s, [] => (s, [])
  | s, i :: is =>
    let r := run step (step s i).1 is
    (r.1, (step s i).2 ++ r.2)

theorem run_append (step : σ → ι → σ × List ω) (s : σ) (is js : List ι) :
    run step s (is ++ js) =
      ((run step (run step s is).1 js).1,
        (run step s is).2 ++ (run step (run step s is).1 js).2) := by
  induction is generalizing s with
  | nil => simp [run]
  | cons i is ih => simp only [List.cons_append, run, ih, List.append_assoc]

/-- The laws of a one-shot machine: `pass i` is what it emits for an input
    `i` that does not fire. -/
structure OneShot (step : σ → ι → σ × List ω) (live : σ → Prop) (fires : σ → ι → Prop)
    (pass : ι → List ω) : Prop where
  of_dead : ∀ s i, ¬ live s → step s i = (s, [])
  of_fires : ∀ s i, live s → fires s i → ¬ live (step s i).1
  stays_live : ∀ s i, live s → ¬ fires s i → live (step s i).1
  passes : ∀ s i, live s → ¬ fires s i → (step s i).2 = pass i

section
variable (step : σ → ι → σ × List ω) (fires : σ → ι → Prop)

open Classical in
/-- The inputs before the first one that fires in the state then reached. -/
noncomputable def before : σ → List ι → List ι
  | _, [] => []
  | s, i :: is => if fires s i then [] else i :: before (step s i).1 is

/-- The inputs from the first one on that fires. -/
noncomputable def fromFiring (s : σ) (is : List ι) : List ι :=
  is.drop (before step fires s is).length

theorem before_append_fromFiring (s : σ) (is : List ι) :
    before step fires s is ++ fromFiring step fires s is = is := by
  induction is generalizing s with
  | nil => rfl
  | cons i is ih =>
    unfold fromFiring at ih ⊢
    unfold before
    split_ifs
    · rfl
    · simp only [List.cons_append, List.length_cons, List.drop_succ_cons, ih]

/-- No input of `before` fires. -/
theorem not_fires_of_before (s : σ) (is l : List ι) (i : ι) (r : List ι)
    (h : before step fires s is = l ++ i :: r) : ¬ fires (run step s l).1 i := by
  induction is generalizing s l with
  | nil => simp [before] at h
  | cons j is ih =>
    unfold before at h
    split_ifs at h with hj
    · simp at h
    · cases l with
      | nil => simp only [List.nil_append, List.cons.injEq] at h; exact h.1 ▸ hj
      | cons k l =>
        simp only [List.cons_append, List.cons.injEq] at h
        obtain ⟨rfl, h⟩ := h
        exact ih (step s j).1 l h

/-- The first of the remaining inputs fires. -/
theorem fires_of_fromFiring (s : σ) (is : List ι) (i : ι) (r : List ι)
    (h : fromFiring step fires s is = i :: r) :
    fires (run step s (before step fires s is)).1 i := by
  induction is generalizing s with
  | nil => simp [fromFiring] at h
  | cons j is ih =>
    unfold fromFiring at h
    unfold before at h ⊢
    split_ifs at h ⊢ with hj
    · simp only [List.length_nil, List.drop_zero, List.cons.injEq] at h
      exact h.1 ▸ hj
    · exact ih (step s j).1 (by simpa [fromFiring] using h)

end

namespace OneShot
variable {step : σ → ι → σ × List ω} {live : σ → Prop} {fires : σ → ι → Prop}
  {pass : ι → List ω} (h : OneShot step live fires pass)
include h

theorem run_dead {s : σ} (hs : ¬ live s) (is : List ι) : run step s is = (s, []) := by
  induction is with
  | nil => rfl
  | cons i is ih => simp only [run, h.of_dead s i hs, ih, List.append_nil]

/-- A run stays live over inputs that do not fire, and passes them on. -/
theorem run_before {s : σ} (hs : live s) (is : List ι) :
    live (run step s (before step fires s is)).1 ∧
      (run step s (before step fires s is)).2 = (before step fires s is).flatMap pass := by
  induction is generalizing s with
  | nil => exact ⟨hs, rfl⟩
  | cons i is ih =>
    unfold before
    split_ifs with hi
    · exact ⟨hs, rfl⟩
    · obtain ⟨h1, h2⟩ := ih (h.stays_live s i hs hi)
      exact ⟨h1, by simp only [run, h.passes s i hs hi, h2, List.flatMap_cons]⟩

/-- A run in which no input fires passes all of them on. -/
theorem run_of_nil {s : σ} (hs : live s) {is : List ι} (hr : fromFiring step fires s is = []) :
    before step fires s is = is ∧ live (run step s is).1 ∧ (run step s is).2 = is.flatMap pass := by
  have hsplit := before_append_fromFiring step fires s is
  rw [hr, List.append_nil] at hsplit
  have hb := h.run_before hs is
  rw [hsplit] at hb
  exact ⟨hsplit, hb⟩

/-- **A run in which an input fires**: the inputs before it are passed on, then
    comes the firing step, and nothing after it. -/
theorem run_of_cons {s : σ} (hs : live s) {is : List ι} {i : ι} {r : List ι}
    (hr : fromFiring step fires s is = i :: r) :
    run step s is = ((step (run step s (before step fires s is)).1 i).1,
      (before step fires s is).flatMap pass ++
        (step (run step s (before step fires s is)).1 i).2) := by
  obtain ⟨hl, hp⟩ := h.run_before hs is
  have hsplit := before_append_fromFiring step fires s is
  have hf := fires_of_fromFiring step fires s is i r hr
  conv_lhs => rw [← hsplit, hr, run_append]
  simp only [run, h.run_dead (h.of_fires _ i hl hf), hp, List.append_nil]

theorem not_live_of_cons {s : σ} (hs : live s) {is : List ι} {i : ι} {r : List ι}
    (hr : fromFiring step fires s is = i :: r) : ¬ live (run step s is).1 := by
  rw [h.run_of_cons hs hr]
  exact h.of_fires _ i (h.run_before hs is).1 (fires_of_fromFiring step fires s is i r hr)

end OneShot

end Machine
