/-
  Stable bucket passes, and their computation by counters.

  * `bucketed bin N l` is the list in the order of the bins, each bin in the order
    of the list; passes over the digits of a key sort by it
    (`pairwise_bucketed`), and keep equal keys in order (`filter_bucketed`);
  * `starts bin l b` is the number of elements in the bins before `b`.  Elements
    that are taken from `l` in order, and put at the counter of their bin, fill an
    array of any contents with `bucketed bin N l` (`Filling.init`, `Filling.step`,
    `Filling.eq_bucketed`);
  * a stable sort by a key is determined by the list (`eq_of_pairwise_of_filter`).
-/
import Mathlib

namespace CountingSort

variable {α : Type} {bin : α → ℕ} {N b i : ℕ} {l : List α} {a : α}

/-- The elements bin after bin. -/
def bucketed (bin : α → ℕ) (N : ℕ) (l : List α) : List α :=
  (List.range N).flatMap fun b => l.filter (bin · = b)

/-- The number of elements in the bins before `b`. -/
def starts (bin : α → ℕ) (l : List α) (b : ℕ) : ℕ :=
  ((List.range b).map fun b => l.countP (bin · = b)).sum

/-! ## Bucket passes -/

theorem filter_lt_succ (l : List α) (N : ℕ) :
    (l.filter (bin · < N) ++ l.filter (bin · = N)).Perm (l.filter (bin · < N + 1)) := by
  have h1 : l.filter (bin · < N) = (l.filter (bin · < N + 1)).filter (bin · < N) := by
    rw [List.filter_filter]
    congr 1
    ext a
    grind
  have h2 : l.filter (bin · = N) =
      (l.filter (bin · < N + 1)).filter (fun a => !decide (bin a < N)) := by
    rw [List.filter_filter]
    congr 1
    ext a
    grind
  rw [h1, h2]
  exact List.filter_append_perm _ _

theorem bucketed_succ : bucketed bin (N + 1) l = bucketed bin N l ++ l.filter (bin · = N) := by
  simp [bucketed, List.range_succ]

theorem bucketed_perm_filter (l : List α) (N : ℕ) :
    (bucketed bin N l).Perm (l.filter (bin · < N)) := by
  induction N with
  | zero => simp [bucketed]
  | succ N ih =>
    rw [bucketed_succ]
    exact (ih.append_right _).trans (filter_lt_succ l N)

theorem bucketed_perm (h : ∀ a ∈ l, bin a < N) : (bucketed bin N l).Perm l := by
  have hall : l.filter (bin · < N) = l := List.filter_eq_self.mpr fun a ha => by simpa using h a ha
  have hperm : (bucketed bin N l).Perm (l.filter (bin · < N)) := bucketed_perm_filter l N
  rwa [hall] at hperm

theorem starts_eq_length (h : ∀ a ∈ l, bin a < N) : starts bin l N = l.length := by
  have hlen := (bucketed_perm h).length_eq
  rw [← hlen, bucketed, List.length_flatMap, starts]
  simp only [List.countP_eq_length_filter]

theorem bin_of_mem_bucketed (ha : a ∈ bucketed bin N l) : a ∈ l ∧ bin a < N := by
  simp only [bucketed, List.mem_flatMap, List.mem_range, List.mem_filter, decide_eq_true_eq] at ha
  obtain ⟨b, hb, hal, rfl⟩ := ha
  exact ⟨hal, hb⟩

/-- **A pass orders by the bin, and leaves each bin in the order it had.** -/
theorem pairwise_bucketed {r : α → α → Prop} (h : l.Pairwise r) :
    (bucketed bin N l).Pairwise fun a b => bin a < bin b ∨ bin a = bin b ∧ r a b := by
  induction N with
  | zero => simp [bucketed]
  | succ N ih =>
    rw [bucketed_succ, List.pairwise_append]
    refine ⟨ih, ?_, ?_⟩
    · refine List.Pairwise.imp_of_mem ?_ (h.sublist List.filter_sublist)
      intro a b ha hb hab
      simp only [List.mem_filter, decide_eq_true_eq] at ha hb
      exact Or.inr ⟨ha.2.trans hb.2.symm, hab⟩
    · intro a ha b hb
      have hlt := (bin_of_mem_bucketed ha).2
      simp only [List.mem_filter, decide_eq_true_eq] at hb
      exact Or.inl (by omega)

/-- **A pass keeps the order of elements of one bin.** -/
theorem filter_bucketed {p : α → Bool} (hb : b < N) (hp : ∀ a ∈ l, p a → bin a = b) :
    (bucketed bin N l).filter p = l.filter p := by
  induction N with
  | zero => omega
  | succ N ih =>
    rw [bucketed_succ, List.filter_append, List.filter_filter]
    by_cases hbN : b = N
    · -- the elements are all in the last bin
      have hnil : (bucketed bin N l).filter p = [] := by
        rw [List.filter_eq_nil_iff]
        intro a ha hpa
        obtain ⟨hal, hlt⟩ := bin_of_mem_bucketed ha
        have := hp a hal hpa
        omega
      rw [hnil, List.nil_append]
      apply List.filter_congr
      intro a ha
      by_cases hpa : p a
      · simp [hpa, hp a ha hpa, hbN]
      · simp [hpa]
    · have hnil : l.filter (fun a => p a && decide (bin a = N)) = [] := by
        rw [List.filter_eq_nil_iff]
        intro a ha hpa
        have := hp a ha
        grind
      rw [hnil, List.append_nil]
      exact ih (by omega)

/-! ## Segments -/

section
variable (segs : ℕ → List α)

theorem length_flatMap_range_le (hb : b < N) :
    ((List.range b).flatMap segs).length + (segs b).length ≤
      ((List.range N).flatMap segs).length := by
  induction N with
  | zero => omega
  | succ N ih =>
    rw [List.range_succ, List.flatMap_append, List.length_append]
    by_cases hbN : b = N
    · subst hbN
      simp
    · have := ih (by omega)
      omega

theorem flatMap_range_update_of_le (hb : N ≤ b) (s : List α) :
    (List.range N).flatMap (Function.update segs b s) = (List.range N).flatMap segs := by
  rw [List.flatMap_def, List.flatMap_def]
  congr 1
  refine List.map_congr_left fun n hn => ?_
  have hlt := List.mem_range.mp hn
  rw [Function.update_of_ne (by omega)]

/-- A write into one segment. -/
theorem set_flatMap_range (hb : b < N) (hi : i < (segs b).length) (a : α) :
    ((List.range N).flatMap segs).set (((List.range b).flatMap segs).length + i) a =
      (List.range N).flatMap (Function.update segs b ((segs b).set i a)) := by
  induction N with
  | zero => omega
  | succ N ih =>
    rw [List.range_succ, List.flatMap_append, List.flatMap_append]
    by_cases hbN : b = N
    · subst hbN
      rw [List.set_append_right _ _ (by omega), flatMap_range_update_of_le segs le_rfl]
      simp
    · have hle := length_flatMap_range_le segs (show b < N by omega)
      rw [List.set_append_left _ _ (by omega), ih (by omega)]
      simp [Function.update_of_ne (Ne.symm hbN)]

/-- Every list is made of segments of given lengths, up to its own length. -/
theorem exists_segments (out : List α) (c : ℕ → ℕ) (N : ℕ)
    (h : out.length = ((List.range N).map c).sum) :
    ∃ segs : ℕ → List α, (∀ b < N, (segs b).length = c b) ∧ out = (List.range N).flatMap segs := by
  induction N generalizing out with
  | zero => exact ⟨fun _ => [], by simp, by simpa using h⟩
  | succ N ih =>
    rw [List.range_succ, List.map_append, List.sum_append, List.map_singleton,
      List.sum_singleton] at h
    obtain ⟨segs, hlen, hsegs⟩ := ih (out.take (((List.range N).map c).sum)) (by simp; omega)
    refine ⟨Function.update segs N (out.drop (((List.range N).map c).sum)), ?_, ?_⟩
    · intro b hb
      by_cases hbN : b = N
      · subst hbN
        simp [h]
      · rw [Function.update_of_ne hbN]
        exact hlen b (by omega)
    · rw [List.range_succ, List.flatMap_append, flatMap_range_update_of_le segs le_rfl, ← hsegs]
      simp

end

/-! ## Filling by counters -/

/-- The elements `done` have been put into `out`, those of `rest` are to come, and
    `next` holds the counters: a bin starts with its elements so far, in order,
    and goes on with one place for each to come. -/
structure Filling (bin : α → ℕ) (N : ℕ) (done rest : List α) (next : ℕ → ℕ) (out : List α) :
    Prop where
  segments : ∃ junk : ℕ → List α, (∀ b < N, (junk b).length = rest.countP (bin · = b)) ∧
    out = (List.range N).flatMap fun b => done.filter (bin · = b) ++ junk b
  next : ∀ b < N, next b = starts bin (done ++ rest) b + done.countP (bin · = b)

theorem Filling.init {out : List α} (h : ∀ a ∈ l, bin a < N) (hlen : out.length = l.length) :
    Filling bin N [] l (starts bin l) out where
  segments := by
    obtain ⟨segs, hsegs, hout⟩ := exists_segments out (fun b => l.countP (bin · = b)) N
      (by rw [hlen, ← starts_eq_length h, starts])
    exact ⟨segs, hsegs, by simpa using hout⟩
  next := by simp

section
variable {done rest : List α} {next : ℕ → ℕ} {out : List α}

/-- The place of the next element: the start of its bin, and the elements of the
    bin so far. -/
theorem starts_eq_length_segments {junk : ℕ → List α} (hb : b ≤ N)
    (hjunk : ∀ b < N, (junk b).length = rest.countP (bin · = b)) :
    starts bin (done ++ rest) b =
      ((List.range b).flatMap fun b => done.filter (bin · = b) ++ junk b).length := by
  rw [starts, List.length_flatMap]
  congr 1
  refine List.map_congr_left fun n hn => ?_
  have hlt := List.mem_range.mp hn
  rw [List.length_append, hjunk n (by omega), List.countP_append, List.countP_eq_length_filter]

/-- **One element**: its counter is a place of `out`, and takes it. -/
theorem Filling.step (h : Filling bin N done (a :: rest) next out) (ha : bin a < N) :
    next (bin a) < out.length ∧
      Filling bin N (done ++ [a]) rest (Function.update next (bin a) (next (bin a) + 1))
        (out.set (next (bin a)) a) := by
  obtain ⟨junk, hjunk, hout⟩ := h.segments
  set segs : ℕ → List α := fun b => done.filter (bin · = b) ++ junk b with hsegs
  obtain ⟨x, js, hcons⟩ : ∃ x js, junk (bin a) = x :: js := by
    refine List.exists_cons_of_length_pos ?_
    rw [hjunk _ ha]
    simp
  have hplace : next (bin a) =
      ((List.range (bin a)).flatMap segs).length + (done.filter (bin · = bin a)).length := by
    rw [h.next _ ha, starts_eq_length_segments ha.le hjunk, List.countP_eq_length_filter]
  have hi : (done.filter (bin · = bin a)).length < (segs (bin a)).length := by
    simp [hsegs, hcons]
  have hset : (segs (bin a)).set (done.filter (bin · = bin a)).length a =
      (done ++ [a]).filter (bin · = bin a) ++ js := by
    simp [hsegs, hcons, List.set_append_right]
  refine ⟨?_, ?_, ?_⟩
  · have := length_flatMap_range_le segs ha
    rw [hout, hplace]
    omega
  · refine ⟨Function.update junk (bin a) js, ?_, ?_⟩
    · intro b hb
      by_cases hba : b = bin a
      · subst hba
        have := hjunk _ ha
        rw [hcons] at this
        simpa using this
      · rw [Function.update_of_ne hba, hjunk b hb]
        simp [Ne.symm hba]
    · rw [hout, hplace, set_flatMap_range segs ha hi, hset]
      rw [List.flatMap_def, List.flatMap_def]
      congr 1
      refine List.map_congr_left fun b _ => ?_
      by_cases hba : b = bin a
      · subst hba
        simp
      · simp [Function.update_of_ne hba, hsegs, Ne.symm hba]
  · intro b hb
    rw [List.append_assoc, List.singleton_append]
    by_cases hba : b = bin a
    · subst hba
      simp [h.next _ hb]
      omega
    · rw [Function.update_of_ne hba, h.next b hb]
      simp [Ne.symm hba]

theorem Filling.eq_bucketed (h : Filling bin N l [] next out) : out = bucketed bin N l := by
  obtain ⟨junk, hjunk, hout⟩ := h.segments
  rw [hout, bucketed, List.flatMap_def, List.flatMap_def]
  congr 1
  refine List.map_congr_left fun b hb => ?_
  have hnil : junk b = [] := List.eq_nil_of_length_eq_zero (hjunk b (List.mem_range.mp hb))
  rw [hnil, List.append_nil]

end

/-! ## Stable sorts -/

section
variable {κ : Type} [LE κ] [DecidableEq κ] {key : α → κ} {l' : List α}

/-- **Two lists in the order of their keys are equal when they have the same
    elements of each key, in the same order.** -/
theorem eq_of_pairwise_of_filter (hrefl : ∀ k : κ, k ≤ k)
    (hanti : ∀ k k' : κ, k ≤ k' → k' ≤ k → k = k')
    (h : l.Pairwise (key · ≤ key ·)) (h' : l'.Pairwise (key · ≤ key ·))
    (hf : ∀ k, l.filter (key · = k) = l'.filter (key · = k)) : l = l' := by
  induction l generalizing l' with
  | nil =>
    cases l' with
    | nil => rfl
    | cons b l' => simpa using hf (key b)
  | cons a l ih =>
    cases l' with
    | nil => simpa using hf (key a)
    | cons b l' =>
      obtain ⟨hle, hl⟩ := List.pairwise_cons.mp h
      obtain ⟨hle', hl'⟩ := List.pairwise_cons.mp h'
      have hab : key a = key b := by
        have ha : a ∈ (b :: l').filter (key · = key a) := by simp [← hf (key a)]
        have hb : b ∈ (a :: l).filter (key · = key b) := by simp [hf (key b)]
        refine hanti _ _ ?_ ?_
        · rcases List.mem_cons.mp (List.mem_filter.mp hb).1 with rfl | hb
          · exact hrefl _
          · exact hle b hb
        · rcases List.mem_cons.mp (List.mem_filter.mp ha).1 with rfl | ha
          · exact hrefl _
          · exact hle' a ha
      have heq : a = b ∧ l.filter (key · = key a) = l'.filter (key · = key a) := by
        simpa [hab] using hf (key a)
      obtain ⟨rfl, htail⟩ := heq
      rw [ih hl hl' fun k => ?_]
      by_cases hk : key a = k
      · exact hk ▸ htail
      · simpa [hk] using hf k

end

/-- A merge sort keeps the order of elements that may stand in any order. -/
theorem filter_mergeSort {le : α → α → Bool} (htrans : ∀ a b c, le a b → le b c → le a c)
    (htotal : ∀ a b, le a b || le b a) {p : α → Bool} (hp : ∀ a b, p a → p b → le a b)
    (l : List α) : (l.mergeSort le).filter p = l.filter p := by
  have hpair : (l.filter p).Pairwise (le · ·) := by
    rw [List.pairwise_filter]
    exact List.pairwise_of_forall fun a b => hp a b
  have hsub : ((l.filter p).filter p).Sublist ((l.mergeSort le).filter p) :=
    (List.sublist_mergeSort htrans htotal hpair List.filter_sublist).filter p
  rw [List.filter_filter] at hsub
  simp only [Bool.and_self] at hsub
  exact (hsub.eq_of_length (((List.mergeSort_perm l le).filter p).length_eq).symm).symm

end CountingSort
