/-
  Runs of a transition system that emits.

  * `Run.inv`: what the start states have, and every step keeps, relates each state reached
    to what was emitted up to it;
  * `Stutter`: a step, or none; `Run.stutter` appends one to a run.
-/
import Mathlib

namespace Trace

variable {σ ω : Type*} {start : σ → Prop} {step : σ → List ω → σ → Prop} {s t : σ}
  {es fs : List ω}

/-- A state reached, with what was emitted. -/
inductive Run (start : σ → Prop) (step : σ → List ω → σ → Prop) : σ → List ω → Prop
  | start {s : σ} : start s → Run start step s []
  | step {s t : σ} {es fs : List ω} : Run start step s es → step s fs t →
      Run start step t (es ++ fs)

theorem Run.inv {P : σ → List ω → Prop} (hstart : ∀ s, start s → P s [])
    (hstep : ∀ s t es fs, P s es → step s fs t → P t (es ++ fs)) (h : Run start step s es) :
    P s es := by
  induction h with
  | start hs => exact hstart _ hs
  | step _ hst ih => exact hstep _ _ _ _ ih hst

/-- A step, or none. -/
inductive Stutter (step : σ → List ω → σ → Prop) : σ → List ω → σ → Prop
  | stay {s : σ} : Stutter step s [] s
  | step {s t : σ} {es : List ω} : step s es t → Stutter step s es t

theorem Run.stutter (h : Run start step s es) (hs : Stutter step s fs t) :
    Run start step t (es ++ fs) := by
  cases hs with
  | stay => rwa [List.append_nil]
  | step hst => exact h.step hst

end Trace
