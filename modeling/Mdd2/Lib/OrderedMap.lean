/-
  Ordered maps with decidable equality of keys, and their descriptions by a finite
  set of keys and a function.

  * `Describes m s f`: the map `m` holds `f k` at the keys `k` of `s`, and no
    other key;
  * `insertIfNew_eq_erase_iff`: an insertion and an erasure have one result only
    if neither changes the map;
  * `Describes.foldl_add`: folding an addition over the map is the sum over `s`.
-/
import Mathlib

namespace OrderedMap

variable {κ β : Type} {cmp : κ → κ → Ordering} [Std.TransCmp cmp] [Std.LawfulEqCmp cmp]
  [DecidableEq κ]

section
variable (m : Std.ExtTreeMap κ β cmp) (k k' : κ) (v : β)

theorem getElem?_insert : (m.insert k v)[k']? = if k' = k then some v else m[k']? := by
  rw [Std.ExtTreeMap.getElem?_insert]
  simp only [Std.LawfulEqCmp.compare_eq_iff_eq, eq_comm (a := k')]

theorem getElem?_erase : (m.erase k)[k']? = if k' = k then none else m[k']? := by
  rw [Std.ExtTreeMap.getElem?_erase]
  simp only [Std.LawfulEqCmp.compare_eq_iff_eq, eq_comm (a := k')]

theorem getElem?_insertIfNew :
    (m.insertIfNew k v)[k']? = if k' = k ∧ k ∉ m then some v else m[k']? := by
  rw [Std.ExtTreeMap.getElem?_insertIfNew]
  simp only [Std.LawfulEqCmp.compare_eq_iff_eq, eq_comm (a := k')]

omit [Std.LawfulEqCmp cmp] [DecidableEq κ] in
theorem mem_iff_getElem?_ne_none : k ∈ m ↔ m[k]? ≠ none := by
  rw [Std.ExtTreeMap.mem_iff_isSome_getElem?, Option.isSome_iff_ne_none]

theorem erase_of_not_mem (h : k ∉ m) : m.erase k = m := by
  apply Std.ExtTreeMap.ext_getElem?
  intro k'
  rw [getElem?_erase]
  split_ifs with hk
  · rw [hk, Std.ExtTreeMap.getElem?_eq_none h]
  · rfl

theorem insertIfNew_of_mem (h : k ∈ m) : m.insertIfNew k v = m := by
  apply Std.ExtTreeMap.ext_getElem?
  intro k'
  rw [getElem?_insertIfNew, if_neg fun hk => hk.2 h]

/-- **An insertion and an erasure agree only if neither changes the map.** -/
theorem insertIfNew_eq_erase_iff : m.insertIfNew k v = m.erase k' ↔ k ∈ m ∧ k' ∉ m := by
  constructor
  · intro h
    constructor
    · by_contra hk
      have hget := congrArg (fun m => m[k]?) h
      simp only [getElem?_insertIfNew, getElem?_erase, hk, not_false_eq_true, and_self, if_true,
        Std.ExtTreeMap.getElem?_eq_none hk, ite_self] at hget
      exact absurd hget (by simp)
    · intro hk'
      have hget := congrArg (fun m => m[k']?) h
      simp only [getElem?_erase, if_true] at hget
      rw [getElem?_insertIfNew] at hget
      split_ifs at hget
      exact (mem_iff_getElem?_ne_none m k').1 hk' hget
  · rintro ⟨hk, hk'⟩
    rw [insertIfNew_of_mem m k v hk, erase_of_not_mem m k' hk']

/-- A new key changes the map. -/
theorem insertIfNew_eq_self_iff : m.insertIfNew k v = m ↔ k ∈ m := by
  refine ⟨fun h => ?_, insertIfNew_of_mem m k v⟩
  by_contra hk
  have hget := congrArg (fun m => m[k]?) h
  simp only [getElem?_insertIfNew, hk, not_false_eq_true, and_self, if_true,
    Std.ExtTreeMap.getElem?_eq_none hk] at hget
  exact absurd hget (by simp)

theorem erase_eq_self_iff : m.erase k = m ↔ k ∉ m := by
  refine ⟨fun h hk => ?_, erase_of_not_mem m k⟩
  have hget := congrArg (fun m => m[k]?) h
  simp only [getElem?_erase, if_true] at hget
  exact (mem_iff_getElem?_ne_none m k).1 hk hget.symm

end

/-- The map holds `f` at the keys of `s`, and nothing else. -/
def Describes (m : Std.ExtTreeMap κ β cmp) (s : Finset κ) (f : κ → β) : Prop :=
  ∀ k, m[k]? = if k ∈ s then some (f k) else none

namespace Describes
variable {m : Std.ExtTreeMap κ β cmp} {s : Finset κ} {f : κ → β}

theorem mem_toList_iff (h : Describes m s f) {k : κ} {v : β} :
    (k, v) ∈ m.toList ↔ k ∈ s ∧ v = f k := by
  rw [Std.ExtTreeMap.mem_toList_iff_getElem?_eq_some, h]
  split_ifs with hk
  · simp [hk, eq_comm]
  · simp [hk]

omit [Std.LawfulEqCmp cmp] in
theorem mem_iff (h : Describes m s f) {k : κ} : k ∈ m ↔ k ∈ s := by
  rw [mem_iff_getElem?_ne_none, h k]
  split_ifs with hk <;> simp [hk]

theorem toList_eq (h : Describes m s f) : m.toList = m.keys.map fun k => (k, f k) := by
  rw [← Std.ExtTreeMap.map_fst_toList_eq_keys, List.map_map]
  refine (List.map_id m.toList).symm.trans (List.map_congr_left fun p hp => ?_)
  exact Prod.ext rfl (h.mem_toList_iff.1 hp).2

theorem toFinset_keys (h : Describes m s f) : m.keys.toFinset = s := by
  ext k
  rw [List.mem_toFinset, ← Std.ExtTreeMap.map_fst_toList_eq_keys, List.mem_map]
  constructor
  · rintro ⟨⟨k', v⟩, hp, rfl⟩; exact (h.mem_toList_iff.1 hp).1
  · exact fun hk => ⟨(k, f k), h.mem_toList_iff.2 ⟨hk, rfl⟩, rfl⟩

/-- **The sum over a map.** -/
theorem foldl_add {M : Type} [AddCommMonoid M] (h : Describes m s f) (g : κ → β → M) :
    m.foldl (fun a k v => a + g k v) 0 = ∑ k ∈ s, g k (f k) := by
  have hnodup : m.keys.Nodup := Std.ExtTreeMap.nodup_keys
  rw [Std.ExtTreeMap.foldl_eq_foldl_toList, h.toList_eq, List.foldl_map, ← h.toFinset_keys,
    List.sum_toFinset _ hnodup, List.sum_eq_foldl, List.foldl_map]

end Describes

end OrderedMap
