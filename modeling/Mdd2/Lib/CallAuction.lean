/-
  The opening price of a call auction.

  At each price some volume would be matched, and some imbalance left.  The opening
  price (`IsOpening`) matches the most, with the least imbalance; of several such
  prices it is the highest one up to a reference price, or else the lowest one.

  A scan over the prices in ascending order finds it: `IsOpening.insert_of_improves`
  and `IsOpening.insert_of_not_improves` are one step, `isOpening_insert_of_lt` is
  the first price with any volume.
-/
import Mathlib

namespace CallAuction

variable {ι α β : Type*} [LinearOrder α] [LinearOrder β]

section
variable (volume : ι → α) (imbalance : ι → β)

/-- `p` matches the most of the prices of `s`, and among those it leaves the least. -/
def Optimal (s : Set ι) (p : ι) : Prop :=
  p ∈ s ∧ ∀ q ∈ s, volume q < volume p ∨ volume q = volume p ∧ imbalance p ≤ imbalance q

/-- The highest optimal price up to `ref`; if there is none, the lowest one. -/
def IsOpening [LinearOrder ι] (s : Set ι) (ref p : ι) : Prop :=
  IsGreatest {q | Optimal volume imbalance s q ∧ q ≤ ref} p ∨
    (∀ q, Optimal volume imbalance s q → ref < q) ∧ IsLeast {q | Optimal volume imbalance s q} p

/-- The test of the scan, at a price `p` above the best one, `b`. -/
def Improves [LinearOrder ι] (ref b p : ι) : Prop :=
  volume b < volume p ∨ volume p = volume b ∧
    if p ≤ ref then imbalance p ≤ imbalance b else imbalance p < imbalance b

/-- What a price is chosen by, before the reference price decides. -/
def key (p : ι) : α ×ₗ βᵒᵈ := toLex (volume p, OrderDual.toDual (imbalance p))

end

variable {volume : ι → α} {imbalance : ι → β} {s : Set ι} {ref b p q : ι}

theorem key_le_iff : key volume imbalance q ≤ key volume imbalance p ↔
    volume q < volume p ∨ volume q = volume p ∧ imbalance p ≤ imbalance q := by
  simp [key, Prod.Lex.toLex_le_toLex]

theorem key_lt_iff : key volume imbalance q < key volume imbalance p ↔
    volume q < volume p ∨ volume q = volume p ∧ imbalance p < imbalance q := by
  simp [key, Prod.Lex.toLex_lt_toLex]

theorem optimal_iff : Optimal volume imbalance s p ↔
    p ∈ s ∧ ∀ q ∈ s, key volume imbalance q ≤ key volume imbalance p := by
  simp only [Optimal, key_le_iff]

/-- A price that is better than all others is the only optimal one. -/
theorem optimal_insert_of_lt (h : ∀ q ∈ s, key volume imbalance q < key volume imbalance p) :
    Optimal volume imbalance (insert p s) q ↔ q = p := by
  rw [optimal_iff]
  constructor
  · rintro ⟨rfl | hq, hmax⟩
    · rfl
    · exact absurd (h q hq) (not_lt.2 (hmax p (Set.mem_insert p s)))
  · rintro rfl
    refine ⟨Set.mem_insert q s, ?_⟩
    rintro r (rfl | hr)
    · exact le_refl _
    · exact (h r hr).le

variable [LinearOrder ι]

/-- A price improves if it is better, or as good and up to `ref`. -/
theorem improves_iff : Improves volume imbalance ref b p ↔
    key volume imbalance b < key volume imbalance p ∨
      key volume imbalance b ≤ key volume imbalance p ∧ p ≤ ref := by
  rw [Improves, key_le_iff, key_lt_iff]
  by_cases hp : p ≤ ref
  · simp only [hp, if_true, and_true]
    constructor
    · rintro (h | ⟨heq, hle⟩)
      · exact Or.inl (Or.inl h)
      · exact Or.inr (Or.inr ⟨heq.symm, hle⟩)
    · rintro ((h | ⟨heq, hlt⟩) | (h | ⟨heq, hle⟩))
      · exact Or.inl h
      · exact Or.inr ⟨heq.symm, hlt.le⟩
      · exact Or.inl h
      · exact Or.inr ⟨heq.symm, hle⟩
  · simp only [hp, if_false, and_false, or_false]
    rw [eq_comm]

theorem IsOpening.optimal (h : IsOpening volume imbalance s ref b) :
    Optimal volume imbalance s b := by
  rcases h with h | ⟨-, h⟩
  · exact h.1.1
  · exact h.1

theorem isOpening_of_optimal_iff (h : ∀ q, Optimal volume imbalance s q ↔ q = p) :
    IsOpening volume imbalance s ref p := by
  by_cases hp : p ≤ ref
  · refine Or.inl ⟨⟨(h p).2 rfl, hp⟩, ?_⟩
    rintro q ⟨hq, -⟩
    exact ((h q).1 hq).le
  · refine Or.inr ⟨fun q hq => ?_, (h p).2 rfl, fun q hq => ((h q).1 hq).ge⟩
    rw [(h q).1 hq]
    exact not_le.1 hp

/-- **The first price with more volume than all before.** -/
theorem isOpening_insert_of_lt (h : ∀ q ∈ s, volume q < volume p) :
    IsOpening volume imbalance (insert p s) ref p :=
  isOpening_of_optimal_iff fun _ =>
    optimal_insert_of_lt fun q hq => key_lt_iff.2 (Or.inl (h q hq))

/-- **A price that improves is the opening price of the prices so far.** -/
theorem IsOpening.insert_of_improves (h : IsOpening volume imbalance s ref b)
    (hp : ∀ q ∈ s, q < p) (himp : Improves volume imbalance ref b p) :
    IsOpening volume imbalance (insert p s) ref p := by
  have hmax := (optimal_iff.1 h.optimal).2
  rcases improves_iff.1 himp with hlt | ⟨hle, href⟩
  · exact isOpening_of_optimal_iff fun _ =>
      optimal_insert_of_lt fun q hq => (hmax q hq).trans_lt hlt
  · refine Or.inl ⟨⟨optimal_iff.2 ⟨Set.mem_insert p s, ?_⟩, href⟩, ?_⟩
    · rintro q (rfl | hq)
      · exact le_refl _
      · exact (hmax q hq).trans hle
    · rintro q ⟨⟨rfl | hq, -⟩, -⟩
      · exact le_refl _
      · exact (hp q hq).le

/-- **A price that does not improve changes nothing.** -/
theorem IsOpening.insert_of_not_improves (h : IsOpening volume imbalance s ref b)
    (hp : ∀ q ∈ s, q < p) (himp : ¬Improves volume imbalance ref b p) :
    IsOpening volume imbalance (insert p s) ref b := by
  obtain ⟨hb, hmax⟩ := optimal_iff.1 h.optimal
  rw [improves_iff, not_or, not_lt] at himp
  obtain ⟨hle, href⟩ := himp
  -- `p` is worse than `b`, or as good and above `ref`
  have hb' : Optimal volume imbalance (insert p s) b := by
    refine optimal_iff.2 ⟨Set.mem_insert_of_mem p hb, ?_⟩
    rintro q (rfl | hq)
    · exact hle
    · exact hmax q hq
  have hold : ∀ q, Optimal volume imbalance (insert p s) q →
      Optimal volume imbalance s q ∨ q = p ∧ ref < p := by
    intro q hq
    obtain ⟨hq | hq, hqmax⟩ := optimal_iff.1 hq
    · subst hq
      have hbq := hqmax b (Set.mem_insert_of_mem q hb)
      exact Or.inr ⟨rfl, not_le.1 fun hqref => href ⟨hbq, hqref⟩⟩
    · exact Or.inl (optimal_iff.2 ⟨hq, fun r hr => hqmax r (Set.mem_insert_of_mem p hr)⟩)
  rcases h with ⟨⟨-, hbref⟩, hgreatest⟩ | ⟨habove, -, hleast⟩
  · refine Or.inl ⟨⟨hb', hbref⟩, ?_⟩
    rintro q ⟨hq, hqref⟩
    rcases hold q hq with hq | ⟨rfl, hlt⟩
    · exact hgreatest ⟨hq, hqref⟩
    · exact absurd hqref (not_le.2 hlt)
  · refine Or.inr ⟨fun q hq => ?_, hb', fun q hq => ?_⟩
    · rcases hold q hq with hq | ⟨rfl, hlt⟩
      · exact habove q hq
      · exact hlt
    · rcases hold q hq with hq | ⟨rfl, -⟩
      · exact hleast hq
      · exact (hp b hb).le

end CallAuction
