/-
  Algorithms on the cells of an array.

  A program compares two locations, moves the content of one to another, or swaps
  two; a location is a cell or a temporary.  What a comparison answers is up to a
  comparator, which is given the locations, and may fault.

  * `Selection n nth`: a program that puts the right element into the cell `nth`, and no
    greater ones before it, whenever the comparator is a strict weak order on the
    contents (`byValue`);
  * `exchangeSelection`: one that compares and swaps cells only;
  * `Selection.afterCopy`, `Selection.shuffled`: a selection remains one after a copy to a
    temporary and a comparison with it, or a permutation of the cells.
-/
import Mathlib

namespace InPlace

inductive Loc (n : ℕ) where
  | cell (i : Fin n)
  | temp (t : ℕ)
  deriving DecidableEq

inductive Prog (n : ℕ) where
  | done
  | cmp (x y : Loc n) (yes no : Prog n)
  | move (src dst : Loc n) (next : Prog n)
  | swap (x y : Loc n) (next : Prog n)

/-- The answer for two locations, or a fault. -/
abbrev Comparator (n : ℕ) (α : Type) := (Loc n → α) → Loc n → Loc n → Option Bool

variable {n : ℕ} {α : Type}

namespace Prog

/-- The memory at the end, unless a comparison faults. -/
def run (comp : Comparator n α) : Prog n → (Loc n → α) → Option (Loc n → α)
  | done, m => some m
  | cmp x y yes no, m =>
    match comp m x y with
    | none => none
    | some true => yes.run comp m
    | some false => no.run comp m
  | move src dst next, m => next.run comp (Function.update m dst (m src))
  | swap x y next, m => next.run comp (m ∘ Equiv.swap x y)

/-- The program compares cells only. -/
def ComparesCells : Prog n → Prop
  | done => True
  | cmp x y yes no => (∃ i j, x = .cell i ∧ y = .cell j) ∧ yes.ComparesCells ∧ no.ComparesCells
  | move _ _ next => next.ComparesCells
  | swap _ _ next => next.ComparesCells

/-- Two comparators that agree on cells agree on such a program. -/
theorem run_congr {comp comp' : Comparator n α} {p : Prog n} (hp : p.ComparesCells)
    (h : ∀ m i j, comp m (.cell i) (.cell j) = comp' m (.cell i) (.cell j)) (m : Loc n → α) :
    p.run comp m = p.run comp' m := by
  induction p generalizing m with
  | done => rfl
  | cmp x y yes no ihyes ihno =>
    obtain ⟨⟨i, j, rfl, rfl⟩, hyes, hno⟩ := hp
    rw [run, run, h m i j]
    cases comp' m (.cell i) (.cell j) with
    | none => rfl
    | some b =>
      cases b with
      | false => exact ihno hno m
      | true => exact ihyes hyes m
  | move src dst next ih => exact ih hp _
  | swap x y next ih => exact ih hp _

end Prog

theorem swap_cell (i j k : Fin n) :
    Equiv.swap (Loc.cell i) (Loc.cell j) (.cell k) = .cell (Equiv.swap i j k) := by
  simp only [Equiv.swap_apply_def, Loc.cell.injEq]
  split_ifs <;> rfl

/-! ## Selections -/

/-- The comparator of a relation on contents. -/
def byValue (lt : α → α → Prop) [DecidableRel lt] : Comparator n α :=
  fun m x y => some (decide (lt (m x) (m y)))

/-- The cells are permuted, the one at `nth` is not greater than any after it, and those
    before are not greater than it. -/
structure Selected (lt : α → α → Prop) (nth : ℕ) (m m' : Loc n → α) : Prop where
  perm : ∃ σ : Equiv.Perm (Fin n), ∀ i, m' (.cell i) = m (.cell (σ i))
  least : ∀ i j : Fin n, (i : ℕ) ≤ nth → nth ≤ j → ¬ lt (m' (.cell j)) (m' (.cell i))

/-- An in-place selection. -/
structure Selection (n nth : ℕ) where
  prog : Prog n
  selects : ∀ {α : Type} (lt : α → α → Prop) [DecidableRel lt] [IsStrictWeakOrder α lt]
    (m : Loc n → α), ∃ m', prog.run (byValue lt) m = some m' ∧ Selected lt nth m m'

variable {nth : ℕ}

/-- A copy of a cell is compared first, to no effect. -/
def Selection.afterCopy (s : Selection n nth) (i j : Fin n) : Selection n nth where
  prog := .move (.cell i) (.temp 0) (.cmp (.temp 0) (.cell j) s.prog s.prog)
  selects lt _ _ m := by
    obtain ⟨m', hrun, hsel⟩ := s.selects lt (Function.update m (.temp 0) (m (.cell i)))
    refine ⟨m', ?_, ?_, hsel.least⟩
    · rw [Prog.run, Prog.run, byValue]
      cases decide (lt _ _) <;> exact hrun
    · obtain ⟨σ, hσ⟩ := hsel.perm
      refine ⟨σ, fun k => ?_⟩
      rw [hσ, Function.update_of_ne (by simp)]

/-- Two cells are swapped first. -/
def Selection.afterSwap (s : Selection n nth) (i j : Fin n) : Selection n nth where
  prog := .swap (.cell i) (.cell j) s.prog
  selects lt _ _ m := by
    obtain ⟨m', hrun, hsel⟩ := s.selects lt (m ∘ Equiv.swap (.cell i) (.cell j))
    refine ⟨m', hrun, ?_, hsel.least⟩
    obtain ⟨σ, hσ⟩ := hsel.perm
    refine ⟨σ.trans (Equiv.swap i j), fun k => ?_⟩
    rw [hσ, Function.comp_apply, swap_cell, Equiv.trans_apply]

/-- **The cells can be permuted first**, in any way. -/
theorem Selection.exists_shuffled (s : Selection n nth) (hs : s.prog.ComparesCells)
    (π : Equiv.Perm (Fin n)) : ∃ s' : Selection n nth, s'.prog.ComparesCells ∧
      ∀ {α : Type} (comp : Comparator n α) (m : Loc n → α), ∃ m',
        s'.prog.run comp m = s.prog.run comp m' ∧ ∀ i, m' (.cell i) = m (.cell (π i)) := by
  induction π using Equiv.Perm.swap_induction_on with
  | one => exact ⟨s, hs, fun comp m => ⟨m, rfl, fun i => rfl⟩⟩
  | swap_mul f i j _ ih =>
    obtain ⟨s', hs', hrun⟩ := ih
    refine ⟨s'.afterSwap i j, hs', fun comp m => ?_⟩
    obtain ⟨m', hrun', hm'⟩ := hrun comp (m ∘ Equiv.swap (.cell i) (.cell j))
    refine ⟨m', hrun', fun k => ?_⟩
    rw [hm', Function.comp_apply, swap_cell, Equiv.Perm.mul_apply]

/-! ## Exchanges -/

/-- Each pair of cells is compared, and swapped if the second is less. -/
def exchanges : List (Fin n × Fin n) → Prog n
  | [] => .done
  | (i, j) :: ps =>
    .cmp (.cell j) (.cell i) (.swap (.cell i) (.cell j) (exchanges ps)) (exchanges ps)

theorem comparesCells_exchanges (ps : List (Fin n × Fin n)) : (exchanges ps).ComparesCells := by
  induction ps with
  | nil => trivial
  | cons p ps ih => exact ⟨⟨p.2, p.1, rfl, rfl⟩, ih, ih⟩

/-- One exchange, on the contents of the cells. -/
def exchange (less : (Fin n → α) → Fin n → Fin n → Bool) (a : Fin n → α) (p : Fin n × Fin n) :
    Fin n → α :=
  if less a p.2 p.1 then a ∘ Equiv.swap p.1 p.2 else a

theorem run_exchanges {comp : Comparator n α} (less : (Fin n → α) → Fin n → Fin n → Bool)
    (hcomp : ∀ m i j, comp m (.cell i) (.cell j) = some (less (m ∘ .cell) i j))
    (ps : List (Fin n × Fin n)) (m : Loc n → α) : ∃ m', (exchanges ps).run comp m = some m' ∧
      m' ∘ .cell = ps.foldl (exchange less) (m ∘ .cell) := by
  induction ps generalizing m with
  | nil => exact ⟨m, rfl, rfl⟩
  | cons p ps ih =>
    rw [exchanges, Prog.run, hcomp, List.foldl_cons, exchange]
    cases less (m ∘ .cell) p.2 p.1 with
    | false => exact ih m
    | true =>
      obtain ⟨m', hrun, hcells⟩ := ih (m ∘ Equiv.swap (.cell p.1) (.cell p.2))
      refine ⟨m', hrun, ?_⟩
      rw [hcells, if_pos rfl]
      congr 1
      funext k
      rw [Function.comp_apply, Function.comp_apply, swap_cell]
      rfl

/-- Exchanges permute, by a permutation that does not depend on the contents if the
    answers do not. -/
theorem foldl_exchange_static (less : Fin n → Fin n → Bool) (ps : List (Fin n × Fin n)) :
    ∃ σ : Equiv.Perm (Fin n), ∀ {α : Type} (a : Fin n → α),
      ps.foldl (exchange fun _ => less) a = a ∘ σ := by
  induction ps with
  | nil => exact ⟨1, fun a => rfl⟩
  | cons p ps ih =>
    obtain ⟨σ, hσ⟩ := ih
    by_cases h : less p.2 p.1
    · refine ⟨σ.trans (Equiv.swap p.1 p.2), fun a => ?_⟩
      rw [List.foldl_cons, exchange, if_pos h, hσ]
      rfl
    · refine ⟨σ, fun a => ?_⟩
      rw [List.foldl_cons, exchange, if_neg h, hσ]

theorem foldl_exchange_perm (less : (Fin n → α) → Fin n → Fin n → Bool)
    (ps : List (Fin n × Fin n)) (a : Fin n → α) :
    ∃ σ : Equiv.Perm (Fin n), ps.foldl (exchange less) a = a ∘ σ := by
  induction ps generalizing a with
  | nil => exact ⟨1, rfl⟩
  | cons p ps ih =>
    obtain ⟨σ, hσ⟩ := ih (exchange less a p)
    rw [List.foldl_cons, hσ, exchange]
    split_ifs
    · exact ⟨σ.trans (Equiv.swap p.1 p.2), rfl⟩
    · exact ⟨σ, rfl⟩

/-! ## Selection by exchanges -/

/-- The cells after a cell. -/
def after (i : Fin n) : List (Fin n) := (List.finRange n).filter (i < ·)

/-- Each cell up to `nth` is exchanged with those after it. -/
def selectionPairs (n nth : ℕ) : List (Fin n × Fin n) :=
  ((List.finRange n).filter fun i => i.val ≤ nth).flatMap fun i => (after i).map (i, ·)

section
variable {lt : α → α → Prop} [DecidableRel lt]

/-- The comparison of contents. -/
def lessOf (lt : α → α → Prop) [DecidableRel lt] (a : Fin n → α) (i j : Fin n) : Bool :=
  decide (lt (a i) (a j))

theorem byValue_cell (m : Loc n → α) (i j : Fin n) :
    byValue lt m (.cell i) (.cell j) = some (lessOf lt (m ∘ .cell) i j) := rfl

/-- No cell after `k` is less. -/
def Least (lt : α → α → Prop) (a : Fin n → α) (k : Fin n) : Prop :=
  ∀ j, k < j → ¬ lt (a j) (a k)

/-- Exchanges after a cell keep it least. -/
theorem Least.exchange {a : Fin n → α} {k : Fin n} {p : Fin n × Fin n} (h : Least lt a k)
    (hi : k < p.1) (hj : k < p.2) : Least lt (exchange (lessOf lt) a p) k := by
  rw [InPlace.exchange]
  split_ifs
  · intro j hkj
    rw [Function.comp_apply, Function.comp_apply, Equiv.swap_apply_of_ne_of_ne hi.ne hj.ne]
    refine h _ ?_
    rw [Equiv.swap_apply_def]
    split_ifs
    · exact hj
    · exact hi
    · exact hkj
  · exact h

theorem Least.foldl {ps : List (Fin n × Fin n)} {a : Fin n → α} {k : Fin n} (h : Least lt a k)
    (hps : ∀ p ∈ ps, k < p.1 ∧ k < p.2) :
    Least lt (ps.foldl (InPlace.exchange (lessOf lt)) a) k := by
  induction ps generalizing a with
  | nil => exact h
  | cons p ps ih =>
    obtain ⟨⟨hi, hj⟩, hps'⟩ := List.forall_mem_cons.1 hps
    exact ih (h.exchange hi hj) hps'

variable [IsStrictWeakOrder α lt]

/-- After its exchange with `j`, a cell that was not greater than some is not greater
    than these and `j`. -/
theorem exchange_least {a : Fin n → α} {i j : Fin n} {ds : List (Fin n)} (hi : i ∉ ds)
    (h : ∀ d ∈ ds, ¬ lt (a d) (a i)) :
    ∀ d ∈ j :: ds, ¬ lt (exchange (lessOf lt) a (i, j) d) (exchange (lessOf lt) a (i, j) i) := by
  rw [exchange]
  split_ifs with hless
  · have hlt : lt (a j) (a i) := of_decide_eq_true hless
    intro d hd
    rw [Function.comp_apply, Function.comp_apply, Equiv.swap_apply_left]
    by_cases hdj : d = j
    · rw [hdj, Equiv.swap_apply_right]
      exact asymm hlt
    · have hmem : d ∈ ds := (List.mem_cons.1 hd).resolve_left hdj
      rw [Equiv.swap_apply_of_ne_of_ne (ne_of_mem_of_not_mem hmem hi) hdj]
      exact fun hd' => h d hmem (IsTrans.trans _ _ _ hd' hlt)
  · have hge : ¬ lt (a j) (a i) := fun hlt => hless (decide_eq_true hlt)
    exact List.forall_mem_cons.2 ⟨hge, h⟩

theorem foldl_least {i : Fin n} {js ds : List (Fin n)} {a : Fin n → α} (hi : i ∉ js ++ ds)
    (h : ∀ d ∈ ds, ¬ lt (a d) (a i)) : ∀ d ∈ js ++ ds,
      ¬ lt ((js.map (i, ·)).foldl (exchange (lessOf lt)) a d)
        ((js.map (i, ·)).foldl (exchange (lessOf lt)) a i) := by
  induction js generalizing ds a with
  | nil => exact h
  | cons j js ih =>
    rw [List.cons_append, List.mem_cons, not_or] at hi
    obtain ⟨hij, hi'⟩ := hi
    have hds : i ∉ ds := fun hmem => hi' (List.mem_append_right _ hmem)
    intro d hd
    have hperm : d ∈ js ++ j :: ds := by
      rw [List.mem_append, List.mem_cons]
      rcases List.mem_append.1 hd with hd | hd
      · rcases List.mem_cons.1 hd with hd | hd
        · exact Or.inr (Or.inl hd)
        · exact Or.inl hd
      · exact Or.inr (Or.inr hd)
    refine ih ?_ (exchange_least hds h) d hperm
    rw [List.mem_append, List.mem_cons, not_or, not_or]
    exact ⟨fun hmem => hi' (List.mem_append_left _ hmem), hij, hds⟩

/-- The exchanges of a cell with those after it make it least. -/
theorem least_after (a : Fin n → α) (i : Fin n) :
    Least lt (((after i).map (i, ·)).foldl (exchange (lessOf lt)) a) i := by
  intro j hij
  have hi : i ∉ after i ++ [] := by simp [after]
  exact foldl_least hi (fun d hd => absurd hd List.not_mem_nil) j (by simp [after, hij])

/-- The rounds, in order, make the cells least one after another. -/
theorem least_rounds {is : List (Fin n)} (hsorted : is.Pairwise (· < ·)) (a : Fin n → α) :
    ∀ k ∈ is, Least lt ((is.flatMap fun i => (after i).map (i, ·)).foldl
      (exchange (lessOf lt)) a) k := by
  induction is generalizing a with
  | nil => exact fun k hk => absurd hk List.not_mem_nil
  | cons i is ih =>
    obtain ⟨hlt, hsorted'⟩ := List.pairwise_cons.1 hsorted
    intro k hk
    rw [List.flatMap_cons, List.foldl_append]
    rcases List.mem_cons.1 hk with rfl | hk
    · -- later rounds work on later cells
      refine (least_after a k).foldl fun p hp => ?_
      obtain ⟨i, hi, hp⟩ := List.mem_flatMap.1 hp
      obtain ⟨j, hj, rfl⟩ := List.mem_map.1 hp
      have hki := hlt i hi
      have hij : i < j := by simpa [after] using hj
      exact ⟨hki, hki.trans hij⟩
    · exact ih hsorted' _ k hk

end

/-- Selection by exchanges. -/
def exchangeSelection (n nth : ℕ) : Selection n nth where
  prog := exchanges (selectionPairs n nth)
  selects lt _ _ m := by
    obtain ⟨m', hrun, hcells⟩ :=
      run_exchanges (lessOf lt) byValue_cell (selectionPairs n nth) m
    refine ⟨m', hrun, ?_, fun i j hi hj => ?_⟩
    · obtain ⟨σ, hσ⟩ := foldl_exchange_perm (lessOf lt) (selectionPairs n nth) (m ∘ .cell)
      rw [hσ] at hcells
      exact ⟨σ, congrFun hcells⟩
    · have hsorted : ((List.finRange n).filter fun i => i.val ≤ nth).Pairwise (· < ·) :=
        (List.pairwise_lt_finRange n).filter _
      have hleast : Least lt (m' ∘ .cell) i := by
        rw [hcells]
        exact least_rounds hsorted (m ∘ .cell) i (by simp [hi])
      rcases (show i ≤ j from hi.trans hj).eq_or_lt with rfl | hij
      · exact irrefl _
      · exact hleast j hij

theorem comparesCells_exchangeSelection (n nth : ℕ) :
    (exchangeSelection n nth).prog.ComparesCells := comparesCells_exchanges _

end InPlace
