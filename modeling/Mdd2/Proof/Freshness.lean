/-
  What the want cache answers after any decisions.

  * `scan_eq` says what the scan finds: the first of the nearest slots
    (`IsNearest`);
  * `pushAll` is the cache after a list of decisions, and holds the last 16
    (`wantBuyTimestamp_pushAll`);
  * `freshestWins_iff` says when the answer is the latest of the decisions for the
    slot: a decision to buy is stored one millisecond early, and so is further away
    than an older one not to buy.
-/
import Mdd2.Lib.RecentRing
import Mdd2.Proof.Clock
import Mdd2.StockCompute

namespace Mdd2

namespace WantCache

/-! ## The scan -/

theorem checkWantBuyAtTimestamp_eq (w : WantCache) (timestamp : ℤ) :
    w.checkWantBuyAtTimestamp timestamp = (w.scan timestamp).intent := rfl

/-- The slot is the first of those nearest to a time. -/
def IsNearest (value : Fin 16 → ℤ) (time : ℤ) (i : Fin 16) : Prop :=
  (∀ j, |value i - time| ≤ |value j - time|) ∧ ∀ j < i, |value i - time| < |value j - time|

/-- The scan of some slots keeps the first of the nearest ones. -/
theorem foldl_next (value : Fin 16 → ℤ) (time : ℤ) (i : Fin 16) (l : List (Fin 16)) :
    ∃ m, (i :: l).argmin (fun j => |value j - time|) = some m ∧
      (l.map value).foldl Scan.next ⟨time, value i, |value i - time|⟩ =
        ⟨time, value m, |value m - time|⟩ := by
  induction l using List.reverseRecOn with
  | nil => exact ⟨i, rfl, rfl⟩
  | append_singleton l j ih =>
    obtain ⟨m, hm, hfold⟩ := ih
    rw [← List.cons_append, List.argmin_concat, hm, List.map_append, List.foldl_append, hfold]
    simp only [List.map_cons, List.map_nil, List.foldl_cons, List.foldl_nil, Scan.next]
    split_ifs
    · exact ⟨j, rfl, rfl⟩
    · exact ⟨m, rfl, rfl⟩

/-- **The scan finds the first of the nearest slots.** -/
theorem scan_eq (w : WantCache) (timestamp : ℤ) :
    ∃ i, IsNearest w.wantBuyTimestamp (roundedTime timestamp) i ∧
      w.scan timestamp = ⟨roundedTime timestamp, w.wantBuyTimestamp i,
        |w.wantBuyTimestamp i - roundedTime timestamp|⟩ := by
  obtain ⟨m, hm, hfold⟩ := foldl_next w.wantBuyTimestamp (roundedTime timestamp) 0
    (List.finRange 16).tail
  have hcons : (0 : Fin 16) :: (List.finRange 16).tail = List.finRange 16 := by decide
  rw [hcons] at hm
  obtain ⟨-, hle, hfirst⟩ := List.argmin_eq_some_iff.1 hm
  refine ⟨m, ⟨fun j => hle j (List.mem_finRange j), fun j hj => ?_⟩, ?_⟩
  · by_contra! hge
    have hidx := hfirst j (List.mem_finRange j) hge
    rw [List.idxOf_finRange, List.idxOf_finRange] at hidx
    exact absurd (Fin.lt_def.1 hj) (not_lt.2 hidx)
  · rw [scan, ← List.map_tail]
    exact hfold

/-! ## The last 16 decisions -/

/-- The cache after the decisions, the newest first. -/
def pushAll (ds : List Decision) : WantCache :=
  ds.foldr (fun d w => w.pushWantBuyTimestamp d.timestamp d.wantBuy) .init

/-- What is stored for a decision. -/
def value (d : Decision) : ℤ := slotValue d.timestamp d.wantBuy

theorem wantBuyCurrentIndex_pushAll (ds : List Decision) :
    ((pushAll ds).wantBuyCurrentIndex : ℕ) = ds.length % 16 := by
  induction ds with
  | nil => rfl
  | cons d ds ih =>
    show (((pushAll ds).wantBuyCurrentIndex + 1 : Fin 16) : ℕ) = _
    rw [Fin.val_add, ih, List.length_cons, Nat.mod_add_mod]
    rfl

theorem eq_wantBuyCurrentIndex_iff {ds : List Decision} {i : Fin 16} :
    i = (pushAll ds).wantBuyCurrentIndex ↔ (i : ℕ) = ds.length % 16 := by
  rw [Fin.ext_iff, wantBuyCurrentIndex_pushAll]

/-- **The slots hold the last 16 decisions.** -/
theorem wantBuyTimestamp_pushAll (ds : List Decision) (i : Fin 16) :
    (pushAll ds).wantBuyTimestamp i = ((RecentRing.slots 16 ds i).map value).getD 0 := by
  induction ds with
  | nil => rfl
  | cons d ds ih =>
    show Function.update (pushAll ds).wantBuyTimestamp (pushAll ds).wantBuyCurrentIndex
      (value d) i = _
    simp only [RecentRing.slots, Function.update_apply, eq_wantBuyCurrentIndex_iff]
    split_ifs
    · rfl
    · exact ih

/-- A slot holds one of the last 16 decisions, or was never written. -/
theorem wantBuyTimestamp_cases (ds : List Decision) (i : Fin 16) :
    (pushAll ds).wantBuyTimestamp i = 0 ∨
      ∃ d ∈ ds.take 16, (pushAll ds).wantBuyTimestamp i = value d := by
  rw [wantBuyTimestamp_pushAll]
  cases h : RecentRing.slots 16 ds i with
  | none => exact .inl rfl
  | some d => exact .inr ⟨d, (RecentRing.mem_slots_iff (by omega)).1 ⟨i, h⟩, rfl⟩

theorem exists_wantBuyTimestamp {ds : List Decision} {d : Decision} (h : d ∈ ds.take 16) :
    ∃ i, (pushAll ds).wantBuyTimestamp i = value d := by
  obtain ⟨i, hi⟩ := (RecentRing.mem_slots_iff (by omega)).2 h
  exact ⟨⟨i, RecentRing.slot_lt (by omega) hi⟩, by rw [wantBuyTimestamp_pushAll, hi]; rfl⟩

/-! ## The decisions for a slot -/

/-- The decision is for the slot that is looked up for a time. -/
def ForSlot (timestamp : ℤ) (d : Decision) : Prop :=
  timestampLinear d.timestamp = roundedTime timestamp

instance (timestamp : ℤ) : DecidablePred (ForSlot timestamp) := fun d =>
  inferInstanceAs (Decidable (timestampLinear d.timestamp = roundedTime timestamp))

/-- The latest of the last 16 decisions for a slot. -/
def freshest (ds : List Decision) (timestamp : ℤ) : Option Decision :=
  (ds.take 16).find? fun d => ForSlot timestamp d

/-- The answer that says what has been decided. -/
def Intent.ofBool : Bool → Intent
  | true => .WantBuy
  | false => .DontBuy

theorem Intent.ofBool_ne_notSure (wantBuy : Bool) : Intent.ofBool wantBuy ≠ .NotSure := by
  cases wantBuy <;> simp [Intent.ofBool]

theorem Intent.ofBool_inj {b c : Bool} : Intent.ofBool b = .ofBool c ↔ b = c := by
  cases b <;> cases c <;> simp [Intent.ofBool]

/-- The latest decision for the slot, if the cache has one, is the answer. -/
def FreshestWins (ds : List Decision) (timestamp : ℤ) : Prop :=
  ∀ d, freshest ds timestamp = some d →
    (pushAll ds).checkWantBuyAtTimestamp timestamp = .ofBool d.wantBuy

/-- No decision for the slot is masked: if the latest one is to buy, then so are
    the others that the cache has. -/
def Unmasked (ds : List Decision) (timestamp : ℤ) : Prop :=
  ∀ d, freshest ds timestamp = some d → d.wantBuy →
    ∀ e ∈ ds.take 16, ForSlot timestamp e → e.wantBuy

theorem freshest_eq_some {ds : List Decision} {timestamp : ℤ} {d : Decision}
    (h : freshest ds timestamp = some d) : d ∈ ds.take 16 ∧ ForSlot timestamp d :=
  ⟨List.mem_of_find?_eq_some h, by simpa using List.find?_some h⟩

section
variable {d : Decision} {timestamp : ℤ}

/-- The linear value of a slot of the day. -/
theorem timestampLinear_slot (h : ∃ k ≤ lastSlot, d.timestamp = gridTime k) :
    34200000 ≤ timestampLinear d.timestamp ∧ timestampLinear d.timestamp % 100 = 0 := by
  obtain ⟨k, hk, hd⟩ := h
  rw [hd, gridTime, ClockTime.timestampLinear_timestamp,
    ClockTime.linear_ofLinear_of_lt (gridLinear_lt hk)]
  unfold gridLinear
  split_ifs <;> omega

theorem value_eq (d : Decision) :
    value d = timestampLinear d.timestamp - if d.wantBuy then 1 else 0 := rfl

theorem roundedTime_mod (timestamp : ℤ) : roundedTime timestamp % 100 = 0 := by
  rw [roundedTime, Int.mul_emod_left]

/-- Near to a slot time there is only what is stored for that slot. -/
theorem forSlot_of_near (h : ∃ k ≤ lastSlot, d.timestamp = gridTime k)
    (hnear : |value d - roundedTime timestamp| ≤ 1) : ForSlot timestamp d := by
  obtain ⟨-, hmod⟩ := timestampLinear_slot h
  have hround := roundedTime_mod timestamp
  rw [value_eq, abs_le] at hnear
  rw [ForSlot]
  split_ifs at hnear <;> omega

/-- The distance of what is stored for the slot. -/
theorem abs_value_sub (h : ForSlot timestamp d) :
    |value d - roundedTime timestamp| = if d.wantBuy then 1 else 0 := by
  rw [value_eq, h]
  split_ifs <;> simp

end

/-- The answer for the nearest slot, if it is within the tolerance. -/
theorem intent_value {d : Decision} (heven : timestampLinear d.timestamp % 2 = 0)
    {time minDt : ℤ} (hdt : minDt ≤ kWantBuyTimeTolerance) :
    Scan.intent ⟨time, value d, minDt⟩ = .ofBool d.wantBuy := by
  rw [Scan.intent, if_neg (not_lt.2 hdt), value_eq]
  cases d.wantBuy with
  | true => rw [if_neg (by simp only [if_true]; omega)]; rfl
  | false => rw [if_pos (by simp only [Bool.false_eq_true, if_false]; omega)]; rfl

section
variable {ds : List Decision} {timestamp : ℤ} {i : Fin 16}

/-- If the cache has a decision for the slot, then the nearest slot holds one. -/
theorem IsNearest.forSlot (hds : ∀ d ∈ ds, ∃ k ≤ lastSlot, d.timestamp = gridTime k)
    (hex : ∃ d ∈ ds.take 16, ForSlot timestamp d)
    (hnear : IsNearest (pushAll ds).wantBuyTimestamp (roundedTime timestamp) i) :
    ∃ e ∈ ds.take 16, ForSlot timestamp e ∧ (pushAll ds).wantBuyTimestamp i = value e := by
  obtain ⟨d, hd, hslot⟩ := hex
  obtain ⟨hlo, -⟩ := timestampLinear_slot (hds d (List.mem_of_mem_take hd))
  have hone : |(pushAll ds).wantBuyTimestamp i - roundedTime timestamp| ≤ 1 := by
    obtain ⟨j, hj⟩ := exists_wantBuyTimestamp hd
    have hle := hnear.1 j
    rw [hj, abs_value_sub hslot] at hle
    split_ifs at hle <;> omega
  rcases wantBuyTimestamp_cases ds i with hzero | ⟨e, he, hvalue⟩
  · rw [hzero, ← hslot, abs_le] at hone
    omega
  · rw [hvalue] at hone
    exact ⟨e, he, forSlot_of_near (hds e (List.mem_of_mem_take he)) hone, hvalue⟩

/-- It holds one not to buy, if the cache has one. -/
theorem IsNearest.wantBuy_iff {e : Decision} (he : e ∈ ds.take 16) (hslot : ForSlot timestamp e)
    (hnear : IsNearest (pushAll ds).wantBuyTimestamp (roundedTime timestamp) i)
    (hvalue : (pushAll ds).wantBuyTimestamp i = value e) :
    e.wantBuy ↔ ∀ e ∈ ds.take 16, ForSlot timestamp e → e.wantBuy := by
  constructor
  · intro hbuy e' he' hslot'
    obtain ⟨j, hj⟩ := exists_wantBuyTimestamp he'
    have hle := hnear.1 j
    rw [hvalue, hj, abs_value_sub hslot, abs_value_sub hslot', if_pos hbuy] at hle
    by_contra hnot
    rw [if_neg hnot] at hle
    omega
  · intro hall
    exact hall e he hslot

end

/-- **What the cache answers for a slot that it has**: not to buy, if one of the
    last 16 decisions for it was so. -/
theorem checkWantBuyAtTimestamp_pushAll {ds : List Decision} {timestamp : ℤ}
    (hds : ∀ d ∈ ds, ∃ k ≤ lastSlot, d.timestamp = gridTime k)
    (hex : ∃ d ∈ ds.take 16, ForSlot timestamp d) :
    (pushAll ds).checkWantBuyAtTimestamp timestamp = .ofBool
      (decide (∀ e ∈ ds.take 16, ForSlot timestamp e → e.wantBuy)) := by
  obtain ⟨i, hnear, hscan⟩ := scan_eq (pushAll ds) timestamp
  obtain ⟨e, he, hslot, hvalue⟩ := hnear.forSlot hds hex
  obtain ⟨-, hmod⟩ := timestampLinear_slot (hds e (List.mem_of_mem_take he))
  have hdt : |value e - roundedTime timestamp| ≤ kWantBuyTimeTolerance := by
    rw [abs_value_sub hslot, kWantBuyTimeTolerance]
    split_ifs <;> omega
  rw [checkWantBuyAtTimestamp_eq, hscan, hvalue, intent_value (by omega) hdt]
  have hbuy := hnear.wantBuy_iff he hslot hvalue
  by_cases h : e.wantBuy = true
  · rw [h, decide_eq_true (hbuy.1 h)]
  · rw [Bool.eq_false_of_not_eq_true h, decide_eq_false fun hall => h (hbuy.2 hall)]

/-- **The latest decision for a slot is the answer if and only if it is not
    masked**: it is not to buy, or no older one of the last 16 was not to buy. -/
theorem freshestWins_iff {ds : List Decision}
    (hds : ∀ d ∈ ds, ∃ k ≤ lastSlot, d.timestamp = gridTime k) (timestamp : ℤ) :
    FreshestWins ds timestamp ↔ Unmasked ds timestamp := by
  refine forall₂_congr fun d hd => ?_
  obtain ⟨hmem, hslot⟩ := freshest_eq_some hd
  rw [checkWantBuyAtTimestamp_pushAll hds ⟨d, hmem, hslot⟩]
  cases hbuy : d.wantBuy with
  | true =>
    by_cases h : ∀ e ∈ ds.take 16, ForSlot timestamp e → e.wantBuy
    · rw [decide_eq_true h]
      exact iff_of_true rfl fun _ => h
    · rw [decide_eq_false h]
      exact iff_of_false nofun fun hall => h (hall rfl)
  | false =>
    have h : ¬ ∀ e ∈ ds.take 16, ForSlot timestamp e → e.wantBuy := by
      intro hall
      exact absurd (hall d hmem hslot) (by simp [hbuy])
    rw [decide_eq_false h]
    exact iff_of_true rfl (fun h => absurd h (by simp))

theorem freshestWins_iff_two : FreshestWins [⟨93000100, true⟩, ⟨93000000, false⟩] 93000050 ↔
    Unmasked [⟨93000100, true⟩, ⟨93000000, false⟩] 93000050 := by
  apply freshestWins_iff
  rintro d hd
  rcases List.mem_cons.1 hd with rfl | hd
  · exact ⟨1, by unfold lastSlot; omega, by decide⟩
  · rw [List.mem_singleton.1 hd]
    exact ⟨0, Nat.zero_le _, by decide⟩

/-- The second decision for 9:30:00.100 is to buy, and the first one is the answer. -/
theorem not_freshestWins_masked :
    let ds : List Decision := [⟨93000100, true⟩, ⟨93000100, false⟩]
    (∀ d ∈ ds, d.timestamp = gridTime 1) ∧ freshest ds 93000100 = some ⟨93000100, true⟩ ∧
      (pushAll ds).checkWantBuyAtTimestamp 93000100 = .DontBuy := by
  decide

end WantCache

end Mdd2
