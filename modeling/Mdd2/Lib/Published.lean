/-
  Counts published between two sides of a ring.

  A side of a ring of `n` slots makes accesses one slot after the other.  From time
  to time it publishes the position of the next one; the other side loads some
  publication, not older than the last that it loaded, and then knows the accesses
  before it.  The publications are listed in order.

  * `Valid`: each publication is of the accesses made when it was, so that later
    ones are of more;
  * `Valid.publish`, `Valid.mono_total`: what keeps it;
  * `Valid.load_le_load`: what is loaded later is of more accesses.
-/
import Mathlib

structure Publication where
  pos : ℕ
  /-- the number of accesses before it -/
  done : ℕ

namespace Published

/-- The publication loaded from a place in the list. -/
def load (h : List Publication) (k : ℕ) : Publication := h.getD k ⟨0, 0⟩

def latest (h : List Publication) : Publication := h.getLastD ⟨0, 0⟩

structure Valid (n : ℕ) (h : List Publication) (total : ℕ) : Prop where
  pos : ∀ p ∈ h, p.pos = p.done % n
  le : ∀ p ∈ h, p.done ≤ total
  mono : h.Pairwise fun p q => p.done ≤ q.done

variable {n total k : ℕ} {h : List Publication}

@[simp] theorem latest_append (h : List Publication) (p : Publication) :
    latest (h ++ [p]) = p := by
  simp [latest, List.getLastD_eq_getLast?]

theorem load_append (hk : k < h.length) (l : List Publication) : load (h ++ l) k = load h k := by
  rw [load, load, List.getD_append _ _ _ _ hk]

theorem load_mem (hk : k < h.length) : load h k ∈ h := by
  rw [load, List.getD_eq_getElem _ _ hk]
  exact List.getElem_mem hk

theorem valid_init (n : ℕ) : Valid n [⟨0, 0⟩] 0 where
  pos := by simp
  le := by simp
  mono := List.pairwise_singleton _ _

namespace Valid

/-- The next publication is of all accesses. -/
theorem publish (v : Valid n h total) : Valid n (h ++ [⟨total % n, total⟩]) total where
  pos := List.forall_mem_append.2 ⟨v.pos, by simp⟩
  le := List.forall_mem_append.2 ⟨v.le, by simp⟩
  mono := by
    refine List.pairwise_append.2 ⟨v.mono, List.pairwise_singleton _ _, fun p hp q hq => ?_⟩
    rw [List.mem_singleton.1 hq]
    exact v.le p hp

theorem mono_total {total' : ℕ} (v : Valid n h total) (hle : total ≤ total') :
    Valid n h total' :=
  ⟨v.pos, fun p hp => (v.le p hp).trans hle, v.mono⟩

theorem load_pos (v : Valid n h total) (hk : k < h.length) :
    (load h k).pos = (load h k).done % n := v.pos _ (load_mem hk)

theorem load_le (v : Valid n h total) (hk : k < h.length) : (load h k).done ≤ total :=
  v.le _ (load_mem hk)

/-- **What is loaded later is of more accesses.** -/
theorem load_le_load (v : Valid n h total) {k' : ℕ} (hle : k ≤ k') (hk' : k' < h.length) :
    (load h k).done ≤ (load h k').done := by
  rcases hle.eq_or_lt with rfl | hlt
  · exact le_rfl
  · rw [load, load, List.getD_eq_getElem _ _ (hlt.trans hk'), List.getD_eq_getElem _ _ hk']
    exact List.pairwise_iff_getElem.1 v.mono k k' _ hk' hlt

end Valid

end Published
