/-
  The ranges of the volatility factors and the longest run of bins.

  `LCSRange` keeps the top run of the added indices exactly (`Tracks.top`), and
  the last longest one as soon as it has two bins: `lcsAdd` records a run only
  when it is prolonged.  So it finds the last longest run if and only if two
  consecutive indices were added (`lcsAdd_isLastLongest_iff`); a band with
  single bins only is left with the empty range `[0, -1]`.
-/
import Mdd2.Lib.LongestRun
import Mdd2.Volatility

namespace Mdd2

open LongestRun

namespace LCSRange

/-- The range `r` after the indices of `S`. -/
structure Tracks (r : LCSRange) (S : Set ℤ) : Prop where
  top : S = ∅ ∧ r.curr = -1 ∨ IsTop S r.curr r.last ∧ 0 ≤ r.curr
  best : (¬∃ i ∈ S, i + 1 ∈ S) ∧ r.start = 0 ∧ r.stop = -1 ∨
    r.start < r.stop ∧ IsLastLongest S r.start r.stop

theorem tracks_empty : Tracks {} ∅ where
  top := Or.inl ⟨rfl, rfl⟩
  best := Or.inl ⟨by simp, rfl, rfl⟩

variable {r : LCSRange} {S : Set ℤ} {i : ℤ}

theorem lcsAdd_of_apart (h : r.curr = -1 ∨ i ≠ r.last + 1) :
    r.lcsAdd i = { r with curr := i, last := i } := by
  simp [lcsAdd, h]

theorem lcsAdd_of_longer (hc : r.curr ≠ -1) (hi : i = r.last + 1)
    (h : r.stop - r.start ≤ i - r.curr) :
    r.lcsAdd i = { r with start := r.curr, stop := i, last := i } := by
  subst hi
  simp [lcsAdd, hc, h]

theorem lcsAdd_of_shorter (hc : r.curr ≠ -1) (hi : i = r.last + 1)
    (h : i - r.curr < r.stop - r.start) : r.lcsAdd i = { r with last := i } := by
  subst hi
  simp [lcsAdd, hc, not_le.mpr h]

/-- An index that does not follow the last one starts a run of its own, which is
    not recorded. -/
theorem Tracks.lcsAdd_apart (h : r.Tracks S) (hlt : ∀ x ∈ S, x < i) (h0 : 0 ≤ i)
    (hi : r.curr = -1 ∨ i ≠ r.last + 1) : (r.lcsAdd i).Tracks (insert i S) := by
  have htop : IsTop (insert i S) i i := by
    rcases h.top with ⟨rfl, -⟩ | ⟨ht, hc⟩
    · simpa using isTop_singleton
    · have hlast := hlt _ ht.run.right_mem
      exact ht.insert_apart (by omega)
  rw [lcsAdd_of_apart hi]
  refine ⟨Or.inr ⟨htop, h0⟩, ?_⟩
  rcases h.best with ⟨hno, hs⟩ | ⟨hlen, hb⟩
  · refine Or.inl ⟨?_, hs⟩
    rintro ⟨j, hj, hj1⟩
    obtain ⟨heq, hle⟩ | hold := htop.isRun_insert (isRun_pair_iff.mpr ⟨hj, hj1⟩)
    · omega
    · exact hno ⟨j, isRun_pair_iff.mp hold⟩
  · exact Or.inr ⟨hlen, hb.insert htop (by show i - i < _; omega)⟩

/-- An index that follows the last one prolongs the top run, and is recorded
    when the best run is not longer. -/
theorem Tracks.lcsAdd_next (h : r.Tracks S) (hc : r.curr ≠ -1) (hi : i = r.last + 1) :
    (r.lcsAdd i).Tracks (insert i S) := by
  rcases h.top with ⟨-, hnone⟩ | ⟨ht, h0⟩
  · exact absurd hnone hc
  have hrun := ht.run.1
  have htop : IsTop (insert i S) r.curr i := hi ▸ ht.insert_next
  by_cases hlen : r.stop - r.start ≤ i - r.curr
  · rw [lcsAdd_of_longer hc hi hlen]
    refine ⟨Or.inr ⟨htop, h0⟩, Or.inr ⟨by show r.curr < i; omega, htop.isLastLongest ?_⟩⟩
    intro c d hcd
    rcases h.best with ⟨hno, -⟩ | ⟨-, hb⟩
    · have hle : ¬c < d := fun hlt => hno (hcd.exists_pair hlt)
      omega
    · have := hb.longest hcd
      omega
  · rw [lcsAdd_of_shorter hc hi (by omega)]
    refine ⟨Or.inr ⟨htop, h0⟩, ?_⟩
    rcases h.best with ⟨-, hstart, hstop⟩ | ⟨hlt, hb⟩
    · omega
    · exact Or.inr ⟨hlt, hb.insert htop (by omega)⟩

theorem Tracks.lcsAdd (h : r.Tracks S) (hlt : ∀ x ∈ S, x < i) (h0 : 0 ≤ i) :
    (r.lcsAdd i).Tracks (insert i S) := by
  by_cases hi : r.curr = -1 ∨ i ≠ r.last + 1
  · exact h.lcsAdd_apart hlt h0 hi
  · push Not at hi
    exact h.lcsAdd_next hi.1 hi.2

theorem Tracks.foldl_lcsAdd {is : List ℤ} (h : r.Tracks S) (hs : is.Pairwise (· < ·))
    (hlt : ∀ x ∈ S, ∀ i ∈ is, x < i) (h0 : ∀ i ∈ is, 0 ≤ i) :
    (is.foldl LCSRange.lcsAdd r).Tracks (S ∪ {i | i ∈ is}) := by
  induction is generalizing r S with
  | nil => simpa using h
  | cons i is ih =>
    have hcons := List.pairwise_cons.mp hs
    have hi := h.lcsAdd (fun x hx => hlt x hx i (by simp)) (h0 i (by simp))
    have hset : S ∪ {j | j ∈ i :: is} = insert i S ∪ {j | j ∈ is} := by
      ext x
      simp only [Set.mem_union, Set.mem_ofPred_eq, List.mem_cons, Set.mem_insert_iff]
      tauto
    rw [hset]
    refine ih hi hcons.2 ?_ (fun j hj => h0 j (by simp [hj]))
    rintro x (rfl | hx) j hj
    · exact hcons.1 j hj
    · exact hlt x hx j (by simp [hj])

/-- The range holds the last longest run exactly when some run has two bins. -/
theorem Tracks.isLastLongest_iff (h : r.Tracks S) :
    IsLastLongest S r.start r.stop ↔ ∃ i ∈ S, i + 1 ∈ S := by
  rcases h.best with ⟨hno, hstart, hstop⟩ | ⟨hlt, hb⟩
  · refine ⟨fun hb => ?_, fun hex => absurd hex hno⟩
    have := hb.run.1
    omega
  · exact ⟨fun hb => hb.run.exists_pair hlt, fun _ => hb⟩

/-- After a strictly increasing sequence of indices, `start` and `stop` are the
    last longest run of them if and only if two of them follow each other. -/
theorem lcsAdd_isLastLongest_iff (is : List ℤ) (hs : is.Pairwise (· < ·))
    (h0 : ∀ i ∈ is, 0 ≤ i) :
    IsLastLongest {i | i ∈ is} (is.foldl lcsAdd {}).start (is.foldl lcsAdd {}).stop ↔
      ∃ i ∈ is, i + 1 ∈ is := by
  have h := tracks_empty.foldl_lcsAdd hs (by simp) h0
  rw [Set.empty_union] at h
  exact h.isLastLongest_iff

theorem lcsAdd_isLastLongest_two :
    ([(3 : ℤ), 4].Pairwise (· < ·) ∧ ∀ i ∈ [(3 : ℤ), 4], 0 ≤ i) ∧
    IsLastLongest {i | i ∈ [(3 : ℤ), 4]} ([(3 : ℤ), 4].foldl lcsAdd {}).start
      ([(3 : ℤ), 4].foldl lcsAdd {}).stop :=
  ⟨⟨by simp, by simp⟩,
    (lcsAdd_isLastLongest_iff [3, 4] (by simp) (by simp)).mpr ⟨3, by simp, by simp⟩⟩

/-- A single bin in the band leaves the range empty. -/
theorem lcsAdd_single :
    ¬IsLastLongest {i | i ∈ [(3 : ℤ)]} ([(3 : ℤ)].foldl lcsAdd {}).start
      ([(3 : ℤ)].foldl lcsAdd {}).stop := by
  intro h
  have hle : (0 : ℤ) ≤ -1 := h.run.1
  omega

/-! ## The bands -/

theorem Tracks.addBin (h : r.Tracks S) (b : Bin) (hlt : ∀ x ∈ S, x < i) (h0 : 0 ≤ i) :
    (r.addBin i b).Tracks (insert i S) :=
  ⟨(h.lcsAdd hlt h0).top, (h.lcsAdd hlt h0).best⟩

end LCSRange

/-- The numbers of the bins in the band. -/
def bandBins (lo hi : ℚ) (bins : List Bin) : Set ℤ :=
  {i | ∃ p ∈ bins.zipIdx, (lo ≤ p.1.vwap ∧ p.1.vwap ≤ hi) ∧ i = p.2}

theorem mem_bandBins_append {lo hi : ℚ} {bins : List Bin} {b : Bin} {i : ℤ} :
    i ∈ bandBins lo hi (bins ++ [b]) ↔
      i ∈ bandBins lo hi bins ∨ (lo ≤ b.vwap ∧ b.vwap ≤ hi) ∧ i = bins.length := by
  simp [bandBins, List.zipIdx_append, or_and_right, exists_or]

theorem bandRange_append (lo hi : ℚ) (bins : List Bin) (b : Bin) :
    bandRange lo hi (bins ++ [b]) =
      if lo ≤ b.vwap ∧ b.vwap ≤ hi then (bandRange lo hi bins).addBin bins.length b
      else bandRange lo hi bins := by
  simp [bandRange, List.zipIdx_append]

theorem bandRange_tracks (lo hi : ℚ) (bins : List Bin) :
    (bandRange lo hi bins).Tracks (bandBins lo hi bins) := by
  induction bins using List.reverseRecOn with
  | nil => simpa [bandRange, bandBins] using LCSRange.tracks_empty
  | append_singleton bins b ih =>
    rw [bandRange_append]
    split
    case isTrue hb =>
      have hset :
          bandBins lo hi (bins ++ [b]) = insert (bins.length : ℤ) (bandBins lo hi bins) := by
        ext i
        simp [mem_bandBins_append, hb, or_comm]
      rw [hset]
      refine ih.addBin b ?_ (by omega)
      rintro x ⟨p, hp, -, rfl⟩
      have := List.snd_lt_of_mem_zipIdx hp
      omega
    case isFalse hb =>
      have hset : bandBins lo hi (bins ++ [b]) = bandBins lo hi bins := by
        ext i
        simp [mem_bandBins_append, hb]
      rw [hset]
      exact ih

/-- Each band of `computeVolatility` is left with the last longest run of its
    bins, or, when no two of them follow each other, without a range. -/
theorem bandRange_isLastLongest_iff (lo hi : ℚ) (bins : List Bin) :
    IsLastLongest (bandBins lo hi bins) (bandRange lo hi bins).start (bandRange lo hi bins).stop ↔
      ∃ i ∈ bandBins lo hi bins, i + 1 ∈ bandBins lo hi bins :=
  (bandRange_tracks lo hi bins).isLastLongest_iff

end Mdd2
