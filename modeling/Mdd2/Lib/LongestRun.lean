/-
  Runs of consecutive integers in a set, and the last one of the greatest
  length.

  A set is grown upwards: a new element above all others is the end of the top
  run of the larger set (`IsTop`), and every run of the larger set is a run of
  the smaller one or a final part of that top run (`IsTop.isRun_insert`).
-/
import Mathlib

namespace LongestRun

variable {S : Set ℤ} {a b c d n : ℤ}

/-- `[a, b]` is a run of `S`. -/
def IsRun (S : Set ℤ) (a b : ℤ) : Prop := a ≤ b ∧ Set.Icc a b ⊆ S

/-- `[a, b]` is the last of the longest runs of `S`. -/
structure IsLastLongest (S : Set ℤ) (a b : ℤ) : Prop where
  run : IsRun S a b
  longest : ∀ {c d}, IsRun S c d → d - c ≤ b - a
  last : ∀ {c d}, IsRun S c d → d - c = b - a → d ≤ b

/-- `[a, b]` is the run that ends at the greatest element of `S`, prolonged
    downwards as far as it goes. -/
structure IsTop (S : Set ℤ) (a b : ℤ) : Prop where
  run : IsRun S a b
  greatest : ∀ x ∈ S, x ≤ b
  start : a - 1 ∉ S

theorem IsRun.left_mem (h : IsRun S a b) : a ∈ S := h.2 ⟨le_refl a, h.1⟩

theorem IsRun.right_mem (h : IsRun S a b) : b ∈ S := h.2 ⟨h.1, le_refl b⟩

theorem isRun_pair_iff : IsRun S a (a + 1) ↔ a ∈ S ∧ a + 1 ∈ S := by
  constructor
  · intro h
    exact ⟨h.left_mem, h.right_mem⟩
  · rintro ⟨ha, hb⟩
    refine ⟨by omega, ?_⟩
    rintro x ⟨h1, h2⟩
    obtain rfl | rfl : x = a ∨ x = a + 1 := by omega
    · exact ha
    · exact hb

/-- A run of more than one element contains two that follow each other. -/
theorem IsRun.exists_pair (h : IsRun S a b) (hlt : a < b) : ∃ i ∈ S, i + 1 ∈ S :=
  ⟨a, h.left_mem, h.2 ⟨by omega, by omega⟩⟩

/-! ## The top run -/

theorem IsTop.le_of_isRun (h : IsTop S a b) (hr : IsRun S c b) : a ≤ c := by
  by_contra hlt
  exact h.start (hr.2 ⟨by omega, by have := h.run.1; omega⟩)

theorem isTop_singleton : IsTop {n} n n := by
  refine ⟨⟨le_refl n, ?_⟩, ?_, ?_⟩
  · rintro x ⟨h1, h2⟩
    exact le_antisymm h2 h1
  · rintro x rfl
    exact le_refl x
  · simp

theorem IsTop.insert_next (h : IsTop S a b) : IsTop (insert (b + 1) S) a (b + 1) := by
  have hab := h.run.1
  refine ⟨⟨by omega, ?_⟩, ?_, ?_⟩
  · rintro x ⟨h1, h2⟩
    by_cases hx : x = b + 1
    · exact Or.inl hx
    · exact Or.inr (h.run.2 ⟨h1, by omega⟩)
  · rintro x (rfl | hx)
    · exact le_refl _
    · have := h.greatest x hx
      omega
  · rintro (heq | hmem)
    · omega
    · exact h.start hmem

theorem IsTop.insert_apart (h : IsTop S a b) (hn : b + 1 < n) : IsTop (insert n S) n n := by
  refine ⟨⟨le_refl n, ?_⟩, ?_, ?_⟩
  · rintro x ⟨h1, h2⟩
    exact Or.inl (by omega)
  · rintro x (rfl | hx)
    · exact le_refl _
    · have := h.greatest x hx
      omega
  · rintro (heq | hmem)
    · omega
    · have := h.greatest _ hmem
      omega

/-- Every run of the larger set is a final part of the top run, or was there. -/
theorem IsTop.isRun_insert (h : IsTop (insert n S) a n) (hr : IsRun (insert n S) c d) :
    d = n ∧ a ≤ c ∨ IsRun S c d := by
  by_cases hd : d = n
  · subst hd
    exact Or.inl ⟨rfl, h.le_of_isRun hr⟩
  · refine Or.inr ⟨hr.1, ?_⟩
    rintro x hx
    obtain rfl | hmem := hr.2 hx
    · have hdn := h.greatest d hr.right_mem
      exact absurd (le_antisymm hdn hx.2) hd
    · exact hmem

theorem IsRun.insert (h : IsRun S a b) : IsRun (insert n S) a b :=
  ⟨h.1, h.2.trans (Set.subset_insert n S)⟩

/-! ## The last longest run -/

/-- The top run takes over when no run is longer. -/
theorem IsTop.isLastLongest (h : IsTop (insert n S) a n)
    (hle : ∀ {c d}, IsRun S c d → d - c ≤ n - a) : IsLastLongest (insert n S) a n where
  run := h.run
  longest {c d} hr := by
    obtain ⟨rfl, hac⟩ | hold := h.isRun_insert hr
    · omega
    · exact hle hold
  last {c d} hr _ := h.greatest d hr.right_mem

/-- The last longest run stays so when the top run is shorter. -/
theorem IsLastLongest.insert (hb : IsLastLongest S a b) (ht : IsTop (insert n S) c n)
    (hlt : n - c < b - a) : IsLastLongest (insert n S) a b where
  run := hb.run.insert
  longest {c d} hr := by
    obtain ⟨rfl, hac⟩ | hold := ht.isRun_insert hr
    · omega
    · exact hb.longest hold
  last {c d} hr heq := by
    obtain ⟨rfl, hac⟩ | hold := ht.isRun_insert hr
    · omega
    · exact hb.last hold heq

end LongestRun
