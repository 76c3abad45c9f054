/-
  The choice among approaching stocks against the amounts.

  The comparator orders positions, not ids: its answers stay the same while the ids
  move, and it faults on a temporary.

  * `not_selects_afterCopy`: a selection that compares a temporary accesses the amounts
    out of range;
  * `exists_not_selects`: one that compares cells only drops an id for a dearer one, if
    two amounts differ;
  * `select_iff`: no list of more than three ids is safe, and with comparisons of cells
    only those are whose amounts are all equal.
-/
import Mdd2.ApproachSelect

namespace Mdd2

namespace ApproachSelect

open InPlace

/-- What is to remain: two of the ids, with amounts not greater than that of any id
    dropped. -/
def IsCheapest (upSellOrderAmount : Int32 → ℤ) (approachStockIds kept : List Int32) : Prop :=
  kept.length = 2 ∧ ∃ dropped, (kept ++ dropped).Perm approachStockIds ∧
    ∀ k ∈ kept, ∀ d ∈ dropped, upSellOrderAmount k ≤ upSellOrderAmount d

/-- All accesses are in range, and the cheapest ids remain. -/
def Selects (upSellOrderAmount : Int32 → ℤ) (approachStockIds : List Int32)
    (nth_element : Selection approachStockIds.length 2) : Prop :=
  ∃ kept, select upSellOrderAmount approachStockIds nth_element = some kept ∧
    IsCheapest upSellOrderAmount approachStockIds kept

variable {amount : Int32 → ℤ} {ids : List Int32}

/-! ## Runs -/

theorem less_cell (m : Loc ids.length → Int32) (i j : Fin ids.length) :
    less (ids.map amount) m (.cell i) (.cell j) =
      some (decide (amount (ids.get i) < amount (ids.get j))) := by
  have hget : ∀ k : Fin ids.length,
      (ids.map amount)[(k : ℕ)]? = some (amount (ids.get k)) := fun k => by
    rw [List.getElem?_map, List.getElem?_eq_getElem k.isLt, Option.map_some]
    rfl
  rw [less]
  simp only [index, Option.bind_eq_bind, Option.bind_some, hget]
  rfl

/-- The ids that remain of a permutation of the cells. -/
def keptBy (ids : List Int32) (τ : Equiv.Perm (Fin ids.length)) : List Int32 :=
  (List.ofFn fun i => ids[τ i]).take 2

def droppedBy (ids : List Int32) (τ : Equiv.Perm (Fin ids.length)) : List Int32 :=
  (List.ofFn fun i => ids[τ i]).drop 2

theorem keptBy_append (τ : Equiv.Perm (Fin ids.length)) :
    (keptBy ids τ ++ droppedBy ids τ).Perm ids := by
  rw [keptBy, droppedBy, List.take_append_drop]
  have h := Equiv.Perm.ofFn_comp_perm τ ids.get
  rwa [List.ofFn_get] at h

theorem select_eq (hlen : 3 < ids.length) (nth_element : Selection ids.length 2) :
    select amount ids nth_element =
      (nth_element.prog.run (less (ids.map amount)) (memory ids)).map
        fun m => (List.ofFn (m ∘ .cell)).take 2 := by
  rw [select, if_pos hlen, Option.map_eq_bind]
  rfl

theorem select_of_run (hlen : 3 < ids.length) {nth_element : Selection ids.length 2}
    {τ : Equiv.Perm (Fin ids.length)} {m : Loc ids.length → Int32}
    (hrun : nth_element.prog.run (less (ids.map amount)) (memory ids) = some m)
    (hm : ∀ i, m (.cell i) = ids[τ i]) : select amount ids nth_element = some (keptBy ids τ) := by
  have hcells : m ∘ .cell = fun i => ids[τ i] := funext hm
  rw [select_eq hlen, hrun, Option.map_some, keptBy, ← hcells]

theorem not_isCheapest {τ : Equiv.Perm (Fin ids.length)} {i j : Fin ids.length} (hi : (i : ℕ) < 2)
    (hj : 2 ≤ (j : ℕ)) (hlt : amount ids[τ j] < amount ids[τ i]) :
    ¬ IsCheapest amount ids (keptBy ids τ) := by
  rintro ⟨-, dropped, hperm, hle⟩
  have hdropped : dropped.Perm (droppedBy ids τ) :=
    (List.perm_append_left_iff _).1 (hperm.trans (keptBy_append τ).symm)
  have hmem : ids[τ i] ∈ keptBy ids τ :=
    List.mem_take_iff_getElem.2 ⟨i, by simpa using hi, by simp⟩
  have hmem' : ids[τ j] ∈ droppedBy ids τ :=
    List.mem_drop_iff_getElem.2 ⟨j - 2, by simp; omega, by simp [Nat.add_sub_cancel' hj]⟩
  exact absurd (hle _ hmem _ (hdropped.mem_iff.2 hmem')) (not_le.2 hlt)

/-! ## Selections that break it -/

theorem not_selects_afterCopy (hlen : 3 < ids.length) (i j : Fin ids.length) :
    ¬ Selects amount ids ((exchangeSelection ids.length 2).afterCopy i j) := by
  rintro ⟨kept, hselect, -⟩
  rw [select_eq hlen] at hselect
  simp [Selection.afterCopy, Prog.run, less, index] at hselect

/-- The exchanges are the same whatever the cells hold. -/
theorem exists_run_exchangeSelection (amount : Int32 → ℤ) (ids : List Int32) :
    ∃ σ : Equiv.Perm (Fin ids.length), ∀ m, ∃ m',
      (exchangeSelection ids.length 2).prog.run (less (ids.map amount)) m = some m' ∧
        ∀ i, m' (.cell i) = m (.cell (σ i)) := by
  let answer : Fin ids.length → Fin ids.length → Bool :=
    fun i j => decide (amount (ids.get i) < amount (ids.get j))
  obtain ⟨σ, hσ⟩ := foldl_exchange_static answer (selectionPairs ids.length 2)
  refine ⟨σ, fun m => ?_⟩
  obtain ⟨m', hrun, hcells⟩ :=
    run_exchanges (fun _ => answer) less_cell (selectionPairs ids.length 2) m
  rw [hσ] at hcells
  exact ⟨m', hrun, congrFun hcells⟩

theorem exists_perm {n : ℕ} {i j p q : Fin n} (hij : i ≠ j) (hpq : p ≠ q) :
    ∃ τ : Equiv.Perm (Fin n), τ i = q ∧ τ j = p := by
  have hne : Equiv.swap i q j ≠ q := fun he =>
    hij ((Equiv.swap i q).injective (he.trans (Equiv.swap_apply_left i q).symm)).symm
  refine ⟨(Equiv.swap i q).trans (Equiv.swap (Equiv.swap i q j) p), ?_, ?_⟩
  · rw [Equiv.trans_apply, Equiv.swap_apply_left, Equiv.swap_apply_of_ne_of_ne hne.symm hpq.symm]
  · rw [Equiv.trans_apply, Equiv.swap_apply_left]

/-- **If two amounts differ, some selection drops the cheaper id for the dearer.** -/
theorem exists_not_selects (hlen : 3 < ids.length) {p q : Fin ids.length}
    (hlt : amount (ids.get p) < amount (ids.get q)) : ∃ nth_element : Selection ids.length 2,
      nth_element.prog.ComparesCells ∧ ¬ Selects amount ids nth_element := by
  have hpq : p ≠ q := by
    rintro rfl
    exact lt_irrefl _ hlt
  have h0 : 0 < ids.length := by omega
  have h2 : 2 < ids.length := by omega
  have hij : (⟨0, h0⟩ : Fin ids.length) ≠ ⟨2, h2⟩ := fun h => absurd (Fin.mk.inj h) (by decide)
  obtain ⟨σ, hσ⟩ := exists_run_exchangeSelection amount ids
  obtain ⟨τ, hτ0, hτ2⟩ := exists_perm hij hpq
  -- first move the ids to where the exchanges, which only depend on the positions, put
  -- the dearer one first
  obtain ⟨nth_element, hcells, hshuffle⟩ := (exchangeSelection ids.length 2).exists_shuffled
    (comparesCells_exchangeSelection _ _) (σ.symm.trans τ)
  refine ⟨nth_element, hcells, ?_⟩
  rintro ⟨kept, hselect, hcheapest⟩
  obtain ⟨m, hrun, hm⟩ := hshuffle (less (ids.map amount)) (memory ids)
  obtain ⟨m', hrun', hm'⟩ := hσ m
  have hkept : select amount ids nth_element = some (keptBy ids τ) := by
    refine select_of_run hlen (hrun.trans hrun') fun i => ?_
    rw [hm', hm, Equiv.trans_apply, Equiv.symm_apply_apply]
    rfl
  rw [hkept, Option.some.injEq] at hselect
  rw [← hselect] at hcheapest
  have hless : amount (ids.get (τ ⟨2, h2⟩)) < amount (ids.get (τ ⟨0, h0⟩)) := by
    rw [hτ0, hτ2]
    exact hlt
  exact not_isCheapest (show 0 < 2 by decide) (le_refl 2) hless hcheapest

/-! ## Equal amounts -/

theorem isStrictWeakOrder_false : IsStrictWeakOrder Int32 fun _ _ => False where
  irrefl _ h := h
  trans _ _ _ h _ := h
  incomp_trans _ _ _ _ _ := ⟨id, id⟩

/-- If all amounts are equal, the answers on cells are those of a strict weak order. -/
theorem selects_of_equal (hlen : 3 < ids.length)
    (hequal : ∀ a ∈ ids, ∀ b ∈ ids, amount a = amount b) {nth_element : Selection ids.length 2}
    (hcells : nth_element.prog.ComparesCells) : Selects amount ids nth_element := by
  have hmem : ∀ i : Fin ids.length, ids.get i ∈ ids := ids.get_mem
  have := isStrictWeakOrder_false
  obtain ⟨m, hrun, hsel⟩ := nth_element.selects (fun _ _ : Int32 => False) (memory ids)
  have hless : ∀ (m : Loc ids.length → Int32) i j, less (ids.map amount) m (.cell i) (.cell j) =
      byValue (fun _ _ => False) m (.cell i) (.cell j) := fun m i j => by
    rw [less_cell, byValue, hequal _ (hmem i) _ (hmem j), decide_eq_false (lt_irrefl _)]
    rfl
  obtain ⟨τ, hτ⟩ := hsel.perm
  refine ⟨keptBy ids τ, select_of_run hlen ((Prog.run_congr hcells hless _).trans hrun) hτ, ?_, ?_⟩
  · rw [keptBy, List.length_take, List.length_ofFn]
    omega
  · refine ⟨droppedBy ids τ, keptBy_append τ, fun k hk d hd => ?_⟩
    have hsub := (keptBy_append τ).subset
    exact (hequal k (hsub (List.mem_append_left _ hk)) d (hsub (List.mem_append_right _ hd))).le

/-! ## The lists that are safe -/

/-- **No list of more than three ids is safe**: some selection accesses the amounts out
    of range.  With selections that compare cells only, a list is safe if and only if all
    amounts are equal. -/
theorem select_iff {amount : Int32 → ℤ} {ids : List Int32} (hlen : 3 < ids.length) :
    (¬ ∀ nth_element, Selects amount ids nth_element) ∧
      ((∀ nth_element : Selection ids.length 2, nth_element.prog.ComparesCells →
        Selects amount ids nth_element) ↔ ∀ a ∈ ids, ∀ b ∈ ids, amount a = amount b) := by
  refine ⟨fun h => ?_, fun h a ha b hb => ?_, fun h nth_element => selects_of_equal hlen h⟩
  · exact not_selects_afterCopy hlen ⟨0, by omega⟩ ⟨1, by omega⟩ (h _)
  · obtain ⟨i, hi, rfl⟩ := List.getElem_of_mem ha
    obtain ⟨j, hj, rfl⟩ := List.getElem_of_mem hb
    have hnot : ∀ p q : Fin ids.length, ¬ amount (ids.get p) < amount (ids.get q) := by
      intro p q hlt
      obtain ⟨nth_element, hcells, hbreaks⟩ := exists_not_selects hlen hlt
      exact hbreaks (h nth_element hcells)
    exact le_antisymm (not_lt.1 (hnot ⟨j, hj⟩ ⟨i, hi⟩)) (not_lt.1 (hnot ⟨i, hi⟩ ⟨j, hj⟩))

/-- The amounts 3, 1, 2 and 0 of four ids. -/
def fourAmounts (id : Int32) : ℤ := if id = 0 then 3 else if id = 3 then 0 else id.toInt

theorem select_iff_four :
    (¬ ∀ nth_element, Selects fourAmounts [0, 1, 2, 3] nth_element) ∧
      ((∀ nth_element : Selection 4 2, nth_element.prog.ComparesCells →
        Selects fourAmounts [0, 1, 2, 3] nth_element) ↔
          ∀ a ∈ [0, 1, 2, 3], ∀ b ∈ [0, 1, 2, 3], fourAmounts a = fourAmounts b) :=
  select_iff (by decide)

/-- Selection by exchanges drops the id with amount 1 for the one with amount 2. -/
theorem select_four :
    select fourAmounts [0, 1, 2, 3] (exchangeSelection 4 2) = some [3, 2] ∧
      ¬ Selects fourAmounts [0, 1, 2, 3] (exchangeSelection 4 2) := by
  have hselect : select fourAmounts [0, 1, 2, 3] (exchangeSelection 4 2) = some [3, 2] := by decide
  refine ⟨hselect, ?_⟩
  rintro ⟨kept, hkept, -, dropped, hperm, hle⟩
  rw [hselect, Option.some.injEq] at hkept
  subst hkept
  have hmem : (1 : Int32) ∈ dropped := by
    have h := hperm.mem_iff.2 (show (1 : Int32) ∈ [0, 1, 2, 3] by decide)
    exact (List.mem_append.1 h).resolve_left (by decide)
  exact absurd (hle 2 (by decide) 1 hmem) (by decide)

end ApproachSelect

end Mdd2
