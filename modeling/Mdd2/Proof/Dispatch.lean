/-
  The dispatch of messages to stocks.

  * `exactDispatch_iff`: the lookup is exact for every code if and only if
    the table serves every configured code.
-/
import Mdd2.MDD

namespace Mdd2

/-- The codes with a slot of their own. -/
def Served (market : Market) (stock : Int32) : Prop :=
  match market with
  | .SH => 600000 ≤ stock.toInt ∧ stock.toInt ≤ 608190
  | .SZ => 0 ≤ stock.toInt ∧ stock.toInt ≤ 8190

instance (market : Market) (stock : Int32) : Decidable (Served market stock) := by
  cases market <;> exact instDecidableAnd

/-! ## The slot of a code -/

/-- The slot of the codes that are out of range. -/
def overflowSlot : UInt16 := 0x1FFF

theorem and_not_mask_eq_zero_iff (u : UInt32) : u &&& ~~~0x1FFF = 0 ↔ u.toNat < 0x2000 := by
  rw [← UInt32.toBitVec_inj, UInt32.toBitVec_and, UInt32.toBitVec_not]
  refine (Word.and_not_eq_zero_iff _ _).trans ?_
  rw [← BitVec.toNat_inj, BitVec.toNat_and]
  have hmask : (UInt32.toBitVec 0x1FFF).toNat = 2 ^ 13 - 1 := rfl
  rw [hmask, Nat.and_two_pow_sub_one_eq_mod, UInt32.toNat_toBitVec]
  omega

/-- What is compressed to 13 bits. -/
def offset (market : Market) (stock : Int32) : UInt32 :=
  match market with
  | .SH => stock.toUInt32 - 600000
  | .SZ => stock.toUInt32

theorem toNat_linearizeStockId (market : Market) (stock : Int32) :
    (linearizeStockId market stock).toNat = min (offset market stock).toNat 0x1FFF := by
  have h : linearizeStockId market stock =
      (if offset market stock &&& ~~~0x1FFF ≠ 0 then 0x1FFF else offset market stock).toUInt16 := by
    cases market <;> rfl
  rw [h]
  by_cases hu : (offset market stock).toNat < 0x2000
  · rw [if_neg (not_not.2 ((and_not_mask_eq_zero_iff _).2 hu)), UInt32.toNat_toUInt16]
    omega
  · rw [if_pos (fun h0 => hu ((and_not_mask_eq_zero_iff _).1 h0))]
    have : (UInt32.toUInt16 0x1FFF).toNat = 0x1FFF := rfl
    omega

/-- The index is in the bounds of the table. -/
theorem linearizeStockId_lt (market : Market) (stock : Int32) :
    (linearizeStockId market stock).toNat < 0x2000 := by
  rw [toNat_linearizeStockId]; omega

theorem toNat_toUInt32 (stock : Int32) : (stock.toUInt32.toNat : ℤ) = stock.toInt % 2 ^ 32 := by
  have h : stock.toInt = (stock.toUInt32.toNat : ℤ).bmod (2 ^ 32) := BitVec.toInt_eq_toNat_bmod _
  have hlt : stock.toUInt32.toNat < 2 ^ 32 := stock.toUInt32.toNat_lt
  rw [h, Int.bmod_def]
  split_ifs <;> omega

theorem offset_toNat (market : Market) (stock : Int32) :
    ((offset market stock).toNat : ℤ) =
      (stock.toInt - match market with | .SH => 600000 | .SZ => 0) % 2 ^ 32 := by
  have h := toNat_toUInt32 stock
  cases market with
  | SH =>
    have hbase : UInt32.toNat 600000 = 600000 := rfl
    simp only [offset, UInt32.toNat_sub, hbase]
    omega
  | SZ => simp only [offset]; omega

theorem offset_lt_iff (market : Market) (stock : Int32) :
    (offset market stock).toNat < 0x1FFF ↔ Served market stock := by
  have h := offset_toNat market stock
  have hlo := stock.le_toInt
  have hhi := stock.toInt_lt
  cases market <;> simp only [Served] at h ⊢ <;> omega

/-- Codes outside of the range share a slot. -/
theorem linearizeStockId_of_not_served {market : Market} {stock : Int32}
    (h : ¬ Served market stock) : linearizeStockId market stock = overflowSlot := by
  rw [← offset_lt_iff] at h
  apply UInt16.toNat_inj.1
  rw [toNat_linearizeStockId, overflowSlot]
  exact min_eq_right (by omega)

theorem linearizeStockId_lt_of_served {market : Market} {stock : Int32} (h : Served market stock) :
    (linearizeStockId market stock).toNat < 0x1FFF := by
  rw [← offset_lt_iff] at h
  rw [toNat_linearizeStockId]
  omega

/-- A code of the range shares its slot with no other code. -/
theorem linearizeStockId_inj {market : Market} {stock stock' : Int32} (h : Served market stock)
    (he : linearizeStockId market stock' = linearizeStockId market stock) : stock' = stock := by
  have h' : Served market stock' := by
    by_contra h'
    have hlt := linearizeStockId_lt_of_served h
    rw [← he, linearizeStockId_of_not_served h'] at hlt
    exact absurd hlt (lt_irrefl _)
  have hn := congrArg UInt16.toNat he
  rw [toNat_linearizeStockId, toNat_linearizeStockId] at hn
  have ho := offset_toNat market stock
  have ho' := offset_toNat market stock'
  have hlt := (offset_lt_iff market stock).2 h
  have hlt' := (offset_lt_iff market stock').2 h'
  apply Int32.toInt_inj.1
  cases market <;> simp only [Served] at h h' ho ho' <;> omega

/-! ## The table -/

theorem fillStockIdLut_of_forall_ne {market : Market} {slot : UInt16} (codes : List Int32)
    (lut : StockIdLut) (i : ℕ) (h : ∀ code ∈ codes, linearizeStockId market code ≠ slot) :
    fillStockIdLut market lut i codes slot = lut slot := by
  induction codes generalizing lut i with
  | nil => rfl
  | cons code codes ih =>
    rw [fillStockIdLut, ih _ _ fun c hc => h c (List.mem_cons_of_mem _ hc)]
    exact Function.update_of_ne (h code List.mem_cons_self).symm _ _

/-- The position of the only code with a slot. -/
theorem fillStockIdLut_of_unique {market : Market} {stock : Int32} (codes : List Int32)
    (lut : StockIdLut) (i j : ℕ) (hj : j < codes.length) (hcode : codes[j] = stock)
    (hne : ∀ k (hk : k < codes.length), j < k →
      linearizeStockId market codes[k] ≠ linearizeStockId market stock) :
    fillStockIdLut market lut i codes (linearizeStockId market stock) = Int16.ofNat (i + j) := by
  induction codes generalizing lut i j with
  | nil => exact absurd hj (by simp)
  | cons code codes ih =>
    rw [fillStockIdLut]
    cases j with
    | zero =>
      rw [fillStockIdLut_of_forall_ne codes]
      · rw [List.getElem_cons_zero] at hcode
        rw [hcode, Function.update_self, Nat.add_zero]
      · intro c hc
        obtain ⟨k, hk, rfl⟩ := List.getElem_of_mem hc
        exact hne (k + 1) (by simpa using hk) (by omega)
    | succ j =>
      rw [ih _ _ j (by simpa using hj) (by simpa using hcode)]
      · congr 1; omega
      · intro k hk hjk
        exact hne (k + 1) (by simpa using hk) (by omega)

/-- An entry of the table is initial, or the position of a code of its slot, wrapped. -/
theorem fillStockIdLut_cases (market : Market) (codes : List Int32) (lut : StockIdLut) (i : ℕ)
    (slot : UInt16) : fillStockIdLut market lut i codes slot = lut slot ∨
      ∃ j, ∃ hj : j < codes.length, linearizeStockId market codes[j] = slot ∧
        fillStockIdLut market lut i codes slot = Int16.ofNat (i + j) := by
  induction codes generalizing lut i with
  | nil => exact Or.inl rfl
  | cons code codes ih =>
    rw [fillStockIdLut]
    rcases ih (Function.update lut (linearizeStockId market code) (Int16.ofNat i)) (i + 1) with
      h | ⟨j, hj, hslot, h⟩
    · by_cases hcode : slot = linearizeStockId market code
      · refine Or.inr ⟨0, Nat.succ_pos _, hcode.symm, ?_⟩
        rw [h, hcode, Function.update_self, Nat.add_zero]
      · exact Or.inl (by rw [h, Function.update_of_ne hcode])
    · refine Or.inr ⟨j + 1, Nat.succ_lt_succ hj, hslot, ?_⟩
      rw [h]
      congr 1
      omega

theorem lookupStockId_cases (market : Market) (stockCodes : List Int32) (stock : Int32) :
    lookupStockId market stockCodes stock = -1 ∨
      ∃ j, ∃ hj : j < stockCodes.length,
        linearizeStockId market stockCodes[j] = linearizeStockId market stock ∧
          (lookupStockId market stockCodes stock).toInt = (j : ℤ).bmod (2 ^ 16) := by
  rw [lookupStockId, initStockIdLut]
  rcases fillStockIdLut_cases market stockCodes (fun _ => -1) 0 (linearizeStockId market stock) with
    h | ⟨j, hj, hslot, h⟩
  · exact Or.inl (by rw [h]; rfl)
  · refine Or.inr ⟨j, hj, hslot, ?_⟩
    rw [h, Int16.toInt_toInt32, Nat.zero_add, Int16.toInt_ofNat']
    rfl

theorem lookupStockId_of_notMem {market : Market} {stockCodes : List Int32}
    (hserved : ∀ code ∈ stockCodes, Served market code) {stock : Int32} (h : stock ∉ stockCodes) :
    lookupStockId market stockCodes stock = -1 := by
  rw [lookupStockId, initStockIdLut, fillStockIdLut_of_forall_ne]
  · rfl
  · intro code hc he
    exact h (linearizeStockId_inj (hserved code hc) he.symm ▸ hc)

/-- Distinct codes of the range are at most as many as there are slots. -/
theorem length_le_of_served {market : Market} {stockCodes : List Int32} (hnodup : stockCodes.Nodup)
    (hserved : ∀ code ∈ stockCodes, Served market code) : stockCodes.length ≤ 0x1FFF := by
  have hmap : (stockCodes.map fun code => (linearizeStockId market code).toNat).Nodup := by
    refine (List.nodup_map_iff_inj_on hnodup).2 fun c hc d hd he => ?_
    exact linearizeStockId_inj (hserved d hd) (UInt16.toNat_inj.1 he)
  have hsub : (stockCodes.map fun code => (linearizeStockId market code).toNat).toFinset ⊆
      Finset.range 0x1FFF := by
    intro n hn
    obtain ⟨code, hc, rfl⟩ := List.mem_map.1 (List.mem_toFinset.1 hn)
    exact Finset.mem_range.2 (linearizeStockId_lt_of_served (hserved code hc))
  have hcard := Finset.card_le_card hsub
  rwa [List.toFinset_card_of_nodup hmap, List.length_map, Finset.card_range] at hcard

theorem lookupStockId_of_mem {market : Market} {stockCodes : List Int32}
    (hnodup : stockCodes.Nodup) (hserved : ∀ code ∈ stockCodes, Served market code) {i : ℕ}
    (hi : i < stockCodes.length) : (lookupStockId market stockCodes stockCodes[i]).toInt = i := by
  have hlen := length_le_of_served hnodup hserved
  rw [lookupStockId, initStockIdLut, fillStockIdLut_of_unique _ _ 0 i hi rfl]
  · rw [Nat.zero_add, Int16.toInt_toInt32, Int16.toInt_ofNat_of_lt (by omega)]
  · intro k hk hik he
    have hc := linearizeStockId_inj (hserved _ (List.getElem_mem hi)) he
    exact absurd ((List.Nodup.getElem_inj_iff hnodup).1 hc) (by omega)

/-- The lookup is exact: it yields the position of a configured code, and drops
    every other code. -/
def ExactDispatch (market : Market) (stockCodes : List Int32) : Prop :=
  ∀ stock, (∀ i (hi : i < stockCodes.length), stockCodes[i] = stock →
      (lookupStockId market stockCodes stock).toInt = i) ∧
    (stock ∉ stockCodes → lookupStockId market stockCodes stock = -1)

/-- A code outside of the range, other than a given one. -/
theorem exists_not_served (market : Market) (stock : Int32) :
    ∃ stock', stock' ≠ stock ∧ ¬ Served market stock' := by
  by_cases h : stock = -1
  · exact ⟨-2, by rw [h]; decide, by cases market <;> decide⟩
  · exact ⟨-1, fun h' => h h'.symm, by cases market <;> decide⟩

/-- **The lookup is exact if and only if every configured code has a slot of
    its own.** -/
theorem exactDispatch_iff {market : Market} {stockCodes : List Int32} (hnodup : stockCodes.Nodup) :
    ExactDispatch market stockCodes ↔ ∀ code ∈ stockCodes, Served market code := by
  constructor
  · intro hexact code hc
    by_contra hns
    -- another code of the shared slot is taken for this one
    obtain ⟨stock, hne, hns'⟩ := exists_not_served market code
    obtain ⟨i, hi, rfl⟩ := List.getElem_of_mem hc
    have hcode := (hexact stockCodes[i]).1 i hi rfl
    have hsame : lookupStockId market stockCodes stock =
        lookupStockId market stockCodes stockCodes[i] := by
      rw [lookupStockId, lookupStockId, linearizeStockId_of_not_served hns,
        linearizeStockId_of_not_served hns']
    rw [← hsame] at hcode
    by_cases hmem : stock ∈ stockCodes
    · obtain ⟨j, hj, rfl⟩ := List.getElem_of_mem hmem
      have hj' := (hexact stockCodes[j]).1 j hj rfl
      have hij : i = j := by omega
      subst hij
      exact hne rfl
    · rw [(hexact stock).2 hmem] at hcode
      exact absurd hcode (by have : (-1 : Int32).toInt = -1 := rfl; omega)
  · intro hserved stock
    refine ⟨fun i hi hcode => ?_, lookupStockId_of_notMem hserved⟩
    rw [← hcode]
    exact lookupStockId_of_mem hnodup hserved hi

theorem exactDispatch_iff_sh : ExactDispatch .SH [600000, 601318, 605499] ↔
    ∀ code ∈ [600000, 601318, 605499], Served .SH code :=
  exactDispatch_iff (by decide)

/-- A list with a code out of range takes in every other one. -/
theorem not_exactDispatch_sz :
    ¬ ExactDispatch .SZ [300750] ∧ (lookupStockId .SZ [300750] 300751).toInt = 0 := by
  refine ⟨fun h => ?_, by decide⟩
  have hlookup := (h 300751).2 (by decide)
  exact absurd hlookup (by decide)

end Mdd2
