/-
  Properties of the states and of the steps of a run.

  A run folds a step function over a list of inputs.

  * `foldlM_eq_foldl`: a loop whose rounds do not fail;
  * `Always step P s as`: `P` holds of every state of the run;
  * `EachStep step Q s as`: `Q` holds of every step, in the state before it;
  * `always_of_step`, `Always.eachStep`: an invariant, and what it gives;
  * `eachStep_congr`: two properties of steps agree on the steps of a run if they
    agree wherever an invariant holds;
  * `always_iff_eachStep`: what is observed holds in every state if and only if
    every step is good, where a step from a state with the invariant is good
    if it keeps the invariant, and bad if what is observed fails after it.
-/
import Mathlib

namespace Run

variable {σ ι : Type*} (step : σ → ι → σ)

def Always (P : σ → Prop) (s : σ) (as : List ι) : Prop :=
  ∀ l, l <+: as → P (l.foldl step s)

def EachStep (Q : σ → ι → Prop) (s : σ) (as : List ι) : Prop :=
  ∀ l a, l ++ [a] <+: as → Q (l.foldl step s) a

variable {step} {P : σ → Prop} {Q : σ → ι → Prop} {s : σ} {a : ι} {as : List ι}

theorem Always.head (h : Always step P s as) : P s := h [] List.nil_prefix

theorem always_nil : Always step P s [] ↔ P s := by
  refine ⟨Always.head, fun h l hl => ?_⟩
  rw [List.prefix_nil.1 hl]
  exact h

theorem always_cons : Always step P s (a :: as) ↔ P s ∧ Always step P (step s a) as := by
  constructor
  · intro h
    exact ⟨h.head, fun l hl => h (a :: l) (List.cons_prefix_cons.2 ⟨rfl, hl⟩)⟩
  · rintro ⟨hs, h⟩ l hl
    rcases List.prefix_cons_iff.1 hl with rfl | ⟨l, rfl, hl'⟩
    · exact hs
    · exact h l hl'

theorem eachStep_nil : EachStep step Q s [] := by
  intro l a hl
  have := List.prefix_nil.1 hl
  simp at this

theorem eachStep_cons : EachStep step Q s (a :: as) ↔ Q s a ∧ EachStep step Q (step s a) as := by
  constructor
  · intro h
    exact ⟨h [] a (List.cons_prefix_cons.2 ⟨rfl, List.nil_prefix⟩),
      fun l b hl => h (a :: l) b (List.cons_prefix_cons.2 ⟨rfl, hl⟩)⟩
  · rintro ⟨ha, h⟩ l b hl
    cases l with
    | nil =>
      obtain ⟨rfl, -⟩ := List.cons_prefix_cons.1 hl
      exact ha
    | cons c l =>
      obtain ⟨rfl, hl'⟩ := List.cons_prefix_cons.1 hl
      exact h l b hl'

theorem Always.mono {P' : σ → Prop} (h : Always step P s as) (hP : ∀ s, P s → P' s) :
    Always step P' s as := fun l hl => hP _ (h l hl)

/-- **An invariant holds of every state of a run.** -/
theorem always_of_step {Inv : σ → Prop} {Good : ι → Prop}
    (hstep : ∀ s a, Inv s → Good a → Inv (step s a)) (hs : Inv s) (has : ∀ a ∈ as, Good a) :
    Always step Inv s as := by
  induction as generalizing s with
  | nil => exact always_nil.2 hs
  | cons a as ih =>
    obtain ⟨ha, has'⟩ := List.forall_mem_cons.1 has
    exact always_cons.2 ⟨hs, ih (hstep s a hs ha) has'⟩

/-- What an invariant gives for each step. -/
theorem Always.eachStep {Inv : σ → Prop} {Good : ι → Prop} (h : Always step Inv s as)
    (hQ : ∀ s a, Inv s → Good a → Q s a) (has : ∀ a ∈ as, Good a) : EachStep step Q s as := by
  intro l a hl
  exact hQ _ a (h l ((List.prefix_append l [a]).trans hl)) (has a (hl.subset (by simp)))

/-- **Properties that agree under an invariant agree along a run.**  `Pre` is what
    is known of the state and the inputs to come. -/
theorem eachStep_congr {Pre : σ → List ι → Prop} {Inv : σ → Prop} {Q' : σ → ι → Prop}
    (hpre : ∀ s a as, Pre s (a :: as) → Pre (step s a) as)
    (hstep : ∀ s a as, Pre s (a :: as) → Inv s → Inv (step s a))
    (hiff : ∀ s a as, Pre s (a :: as) → Inv s → (Q s a ↔ Q' s a)) (hp : Pre s as) (hs : Inv s) :
    EachStep step Q s as ↔ EachStep step Q' s as := by
  induction as generalizing s with
  | nil => exact iff_of_true eachStep_nil eachStep_nil
  | cons a as ih =>
    rw [eachStep_cons, eachStep_cons, hiff s a as hp hs]
    exact and_congr_right fun _ => ih (hpre s a as hp) (hstep s a as hp hs)

/-- **What is observed always holds if and only if every step is good.**
    `Pre` is what is known of the state and the inputs to come. -/
theorem always_iff_eachStep {Pre : σ → List ι → Prop} {Inv Obs : σ → Prop}
    {Good : σ → ι → Prop} (hpre : ∀ s a as, Pre s (a :: as) → Pre (step s a) as)
    (hobs : ∀ s, Inv s → Obs s)
    (hgood : ∀ s a as, Pre s (a :: as) → Inv s → Good s a → Inv (step s a))
    (hbad : ∀ s a as, Pre s (a :: as) → Inv s → Obs (step s a) → Good s a)
    (hp : Pre s as) (hs : Inv s) : Always step Obs s as ↔ EachStep step Good s as := by
  induction as generalizing s with
  | nil => exact iff_of_true (always_nil.2 (hobs s hs)) eachStep_nil
  | cons a as ih =>
    rw [always_cons, eachStep_cons]
    constructor
    · rintro ⟨-, h⟩
      have ha := hbad s a as hp hs h.head
      exact ⟨ha, (ih (hpre s a as hp) (hgood s a as hp hs ha)).1 h⟩
    · rintro ⟨ha, h⟩
      exact ⟨hobs s hs, (ih (hpre s a as hp) (hgood s a as hp hs ha)).2 h⟩

/-- A loop whose rounds do not fail. -/
theorem foldlM_eq_foldl {f : σ → ι → Option σ} (h : ∀ s, ∀ a ∈ as, f s a = some (step s a)) :
    as.foldlM f s = some (as.foldl step s) := by
  induction as generalizing s with
  | nil => rfl
  | cons a as ih =>
    rw [List.foldlM_cons, h s a List.mem_cons_self, Option.bind_eq_bind, Option.bind_some,
      ih fun s b hb => h s b (List.mem_cons_of_mem a hb)]
    rfl

end Run
