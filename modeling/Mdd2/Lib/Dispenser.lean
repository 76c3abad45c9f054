/-
  A counter from which parties take blocks of numbers.

  A party takes the next numbers of the counter as a block, uses them from the
  front, and may drop what is left.  In no order of steps is a number used twice
  (`Reachable.nodup`).
-/
import Mathlib

/-- The numbers below `next` are taken; `held t` is what is left of the block of
    the party `t`, as a half-open interval. -/
structure Dispenser (τ : Type) where
  next : ℕ
  held : τ → Option (ℕ × ℕ)
  used : List ℕ

namespace Dispenser

variable {τ : Type} [DecidableEq τ]

/-- Nothing is taken from `lo` on. -/
def init (lo : ℕ) : Dispenser τ where
  next := lo
  held := fun _ => none
  used := []

def take (d : Dispenser τ) (t : τ) (n : ℕ) : Dispenser τ :=
  { d with next := d.next + n, held := Function.update d.held t (some (d.next, d.next + n)) }

/-- The party `t` uses the first number of its block. -/
def use (d : Dispenser τ) (t : τ) (a b : ℕ) : Dispenser τ :=
  { d with held := Function.update d.held t (some (a + 1, b)), used := a :: d.used }

def drop (d : Dispenser τ) (t : τ) : Dispenser τ :=
  { d with held := Function.update d.held t none }

inductive Reachable (lo : ℕ) : Dispenser τ → Prop
  | init : Reachable lo (init lo)
  | take {d} (t : τ) (n : ℕ) : Reachable lo d → Reachable lo (d.take t n)
  | use {d} {t : τ} {a b : ℕ} : Reachable lo d → d.held t = some (a, b) → a < b →
      Reachable lo (d.use t a b)
  | drop {d} (t : τ) : Reachable lo d → Reachable lo (d.drop t)

/-- The used numbers and the blocks do not meet. -/
structure Inv (lo : ℕ) (d : Dispenser τ) : Prop where
  lo_le : lo ≤ d.next
  nodup : d.used.Nodup
  range : ∀ x ∈ d.used, lo ≤ x ∧ x < d.next
  held : ∀ t a b, d.held t = some (a, b) → lo ≤ a ∧ b ≤ d.next ∧ ∀ x ∈ d.used, x < a ∨ b ≤ x
  disjoint : ∀ t t' a b a' b', t ≠ t' → d.held t = some (a, b) → d.held t' = some (a', b') →
    b ≤ a' ∨ b' ≤ a

variable {lo : ℕ} {d : Dispenser τ}

/-- What is at a place after an update is new, or was there. -/
theorem update_eq_some {α : Type} {f : τ → Option α} {t t' : τ} {p : Option α} {q : α}
    (h : Function.update f t p t' = some q) : (t' = t ∧ p = some q) ∨ (t' ≠ t ∧ f t' = some q) := by
  by_cases ht : t' = t
  · subst ht
    rw [Function.update_self] at h
    exact Or.inl ⟨rfl, h⟩
  · rw [Function.update_of_ne ht] at h
    exact Or.inr ⟨ht, h⟩

/-- A block that is away from those of the other parties keeps the blocks apart. -/
theorem Inv.disjoint_update (h : d.Inv lo) {t : τ} {a b : ℕ}
    (hnew : ∀ t' a' b', t' ≠ t → d.held t' = some (a', b') → b ≤ a' ∨ b' ≤ a) :
    ∀ t₁ t₂ a₁ b₁ a₂ b₂, t₁ ≠ t₂ → Function.update d.held t (some (a, b)) t₁ = some (a₁, b₁) →
      Function.update d.held t (some (a, b)) t₂ = some (a₂, b₂) → b₁ ≤ a₂ ∨ b₂ ≤ a₁ := by
  intro t₁ t₂ a₁ b₁ a₂ b₂ hne h₁ h₂
  rcases update_eq_some h₁ with ⟨rfl, hp₁⟩ | ⟨ht₁, hheld₁⟩ <;>
    rcases update_eq_some h₂ with ⟨rfl, hp₂⟩ | ⟨ht₂, hheld₂⟩
  · exact absurd rfl hne
  · cases hp₁
    exact hnew t₂ a₂ b₂ ht₂ hheld₂
  · cases hp₂
    exact (hnew t₁ a₁ b₁ ht₁ hheld₁).symm
  · exact h.disjoint t₁ t₂ a₁ b₁ a₂ b₂ hne hheld₁ hheld₂

omit [DecidableEq τ] in
theorem Inv.init : Inv lo (init lo : Dispenser τ) := by
  refine ⟨le_refl lo, List.nodup_nil, ?_, ?_, ?_⟩ <;> simp [Dispenser.init]

theorem Inv.take (h : d.Inv lo) (t : τ) (n : ℕ) : (d.take t n).Inv lo := by
  refine ⟨Nat.le_add_right_of_le h.lo_le, h.nodup, ?_, ?_, h.disjoint_update ?_⟩
  · intro x hx
    have := h.range x hx
    exact ⟨this.1, by show x < d.next + n; omega⟩
  · intro t' a b hheld
    simp only [Dispenser.take] at hheld ⊢
    rcases update_eq_some hheld with ⟨rfl, hp⟩ | ⟨ht, hheld⟩
    · cases hp
      exact ⟨h.lo_le, le_refl _, fun x hx => Or.inl (h.range x hx).2⟩
    · obtain ⟨h1, h2, h3⟩ := h.held t' a b hheld
      exact ⟨h1, by omega, h3⟩
  · intro t' a b _ hheld
    exact Or.inr (h.held t' a b hheld).2.1

theorem Inv.use (h : d.Inv lo) {t : τ} {a b : ℕ} (hheld : d.held t = some (a, b)) (hab : a < b) :
    (d.use t a b).Inv lo := by
  obtain ⟨hlo, hhi, hout⟩ := h.held t a b hheld
  refine ⟨h.lo_le, ?_, ?_, ?_, h.disjoint_update ?_⟩
  · refine List.nodup_cons.mpr ⟨fun ha => ?_, h.nodup⟩
    have := hout a ha
    omega
  · rintro x (_ | ⟨_, hx⟩)
    · exact ⟨hlo, by show a < d.next; omega⟩
    · exact h.range x hx
  · intro t' a' b' h'
    simp only [Dispenser.use] at h' ⊢
    rcases update_eq_some h' with ⟨rfl, hp⟩ | ⟨ht, h'⟩
    · cases hp
      refine ⟨by omega, hhi, ?_⟩
      rintro x (_ | ⟨_, hx⟩)
      · exact Or.inl (Nat.lt_succ_self a)
      · have := hout x hx
        omega
    · obtain ⟨h1, h2, h3⟩ := h.held t' a' b' h'
      refine ⟨h1, h2, ?_⟩
      rintro x (_ | ⟨_, hx⟩)
      · have := h.disjoint t t' a b a' b' ht.symm hheld h'
        omega
      · exact h3 x hx
  · intro t' a' b' ht h'
    have := h.disjoint t t' a b a' b' ht.symm hheld h'
    omega

theorem Inv.drop (h : d.Inv lo) (t : τ) : (d.drop t).Inv lo := by
  have hsub : ∀ t' p, (d.drop t).held t' = some p → d.held t' = some p := by
    intro t' p hp
    simp only [Dispenser.drop] at hp
    rcases update_eq_some hp with ⟨-, hp⟩ | ⟨-, hp⟩
    · exact absurd hp (by simp)
    · exact hp
  refine ⟨h.lo_le, h.nodup, h.range, ?_, ?_⟩
  · exact fun t' a b hheld => h.held t' a b (hsub t' _ hheld)
  · exact fun t₁ t₂ a b a' b' hne h1 h2 =>
      h.disjoint t₁ t₂ a b a' b' hne (hsub t₁ _ h1) (hsub t₂ _ h2)

theorem Reachable.inv (h : d.Reachable lo) : d.Inv lo := by
  induction h with
  | init => exact Inv.init
  | take t n _ ih => exact ih.take t n
  | use _ hheld hab ih => exact ih.use hheld hab
  | drop t _ ih => exact ih.drop t

/-- **No number is used twice.** -/
theorem Reachable.nodup (h : d.Reachable lo) : d.used.Nodup := h.inv.nodup

theorem Reachable.range (h : d.Reachable lo) {x : ℕ} (hx : x ∈ d.used) : lo ≤ x ∧ x < d.next :=
  h.inv.range x hx

end Dispenser
