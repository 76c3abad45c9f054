/-
  The crowd factors in the runs of the program, over exact arithmetic.

  * `squares_sum_le`: a signal has at most the energy of another if the filters store what
    it lacks;
  * `crowdind_bounds`: so has each band at most the energy of the volumes, whatever they are,
    and three of the factors are shares;
  * `FState.Filtered` says that the filters have seen the volumes of the snapshots
    (`runTicks_filtered`).
-/
import Mdd2.Proof.Accounts
import Mdd2.Proof.CrowdWindows

namespace Mdd2

namespace IIRState

/-! ## Energies -/

theorem squares_nonneg (f : List ℚ → ℚ) (ds : List ℚ) : ∀ x ∈ squares f ds, 0 ≤ x := by
  induction ds with
  | nil => exact fun x hx => absurd hx List.not_mem_nil
  | cons d ds ih =>
    rintro x hx
    rcases List.mem_cons.1 hx with rfl | hx
    · exact sq_nonneg _
    · exact ih x hx

/-- **What a call puts out and stores is at most what it had stored and takes in.** -/
theorem squares_sum_le {f g V : List ℚ → ℚ} (hV : ∀ ds, 0 ≤ V ds) (h0 : V [] = 0)
    (h : ∀ d ds, f (d :: ds) ^ 2 + V (d :: ds) ≤ V ds + g (d :: ds) ^ 2) (ds : List ℚ) :
    (squares f ds).sum ≤ (squares g ds).sum := by
  have hstored : (squares f ds).sum + V ds ≤ (squares g ds).sum := by
    induction ds with
    | nil => simp [squares, h0]
    | cons d ds ih =>
      have hstep := h d ds
      rw [squares, squares, List.sum_cons, List.sum_cons]
      linarith
  exact (le_add_of_nonneg_right (hV ds)).trans hstored

/-- What the two averages store together. -/
def stored (ds : List ℚ) : ℚ :=
  11 * ema (2 / 31) ds ^ 2 - 42 * ema (2 / 31) ds * ema (2 / 601) ds + 225 * ema (2 / 601) ds ^ 2

theorem stored_nonneg (ds : List ℚ) : 0 ≤ stored ds := by
  rw [stored]
  nlinarith [sq_nonneg (11 * ema (2 / 31) ds - 21 * ema (2 / 601) ds),
    sq_nonneg (ema (2 / 601) ds)]

theorem ema_nil (α : ℚ) : ema α [] = 0 := by simp [ema]

theorem band_sum_le (ds : List ℚ) : (squares band ds).sum ≤ (squares volume ds).sum := by
  refine squares_sum_le stored_nonneg (by simp [stored, ema_nil]) (fun d ds => ?_) ds
  rw [band, stored, stored, volume, ema_cons, ema_cons, List.headD_cons]
  generalize ema (2 / 31) ds = s
  generalize ema (2 / 601) ds = l
  nlinarith [sq_nonneg (d - 2 / 3 * s + 2 / 3 * l), sq_nonneg (s - 2 / 3 * l), sq_nonneg l,
    sq_nonneg s]

theorem lowBand_sum_le (ds : List ℚ) : (squares lowBand ds).sum ≤ (squares volume ds).sum := by
  refine squares_sum_le (V := fun ds => 599 / 2 * ema (2 / 601) ds ^ 2)
    (fun ds => by positivity) (by simp [ema_nil]) (fun d ds => ?_) ds
  simp only [lowBand, volume, ema_cons, List.headD_cons]
  nlinarith [sq_nonneg (d - ema (2 / 601) ds)]

theorem sum_take_le {xs : List ℚ} (h : ∀ x ∈ xs, 0 ≤ x) {m n : ℕ} (hmn : m ≤ n) :
    (xs.take m).sum ≤ (xs.take n).sum := by
  have hsub : (xs.take m).Sublist (xs.take n) := by
    rw [← min_eq_left hmn, ← List.take_take]
    exact List.take_sublist _ _
  exact hsub.sum_le_sum fun x hx => h x (List.mem_of_mem_take hx)

theorem sum_take_le_sum {xs : List ℚ} (h : ∀ x ∈ xs, 0 ≤ x) (n : ℕ) : (xs.take n).sum ≤ xs.sum :=
  (List.take_sublist n xs).sum_le_sum h

/-! ## Shares -/

/-- The factors, as shares of an energy. -/
structure Shares (f : Crowdind ℚ) (calls : ℕ) : Prop where
  top20 : ∀ x ∈ f.crowdIndTop20, 0 ≤ x ∧ x < 1
  bottom20 : ∀ x ∈ f.crowdIndBottom20, 0 ≤ x ∧ x < 1
  last500Top20 : ∀ x ∈ f.crowdIndLast500Top20, 0 ≤ x
  last500Bottom20 : ∀ x ∈ f.crowdIndLast500Bottom20, 0 ≤ x ∧ x < 1
  finite : ∀ x ∈ [f.crowdIndTop20, f.crowdIndBottom20], (x.isSome ↔ 10 ≤ calls)
  last500Finite : ∀ x ∈ [f.crowdIndLast500Top20, f.crowdIndLast500Bottom20],
    (x.isSome ↔ 500 ≤ calls)

theorem kCrowdEpsilon_pos : (0 : ℚ) < kCrowdEpsilon := by norm_num [kCrowdEpsilon]

theorem share_lt_one {x y : ℚ} (hx : 0 ≤ x) (hxy : x ≤ y) :
    0 ≤ x / (y + kCrowdEpsilon) ∧ x / (y + kCrowdEpsilon) < 1 := by
  have hpos := add_pos_of_nonneg_of_pos (hx.trans hxy) kCrowdEpsilon_pos
  refine ⟨div_nonneg hx hpos.le, (div_lt_one hpos).2 ?_⟩
  exact lt_of_le_of_lt hxy (lt_add_of_pos_right y kCrowdEpsilon_pos)

/-- **The crowd factors are shares**, whatever the volumes are. -/
theorem crowdind_shares (vs : List ℚ) : Shares (crowdind vs) vs.length := by
  have hnonneg := fun f => squares_nonneg f (diffs vs)
  have hwindow : ∀ f n, 0 ≤ ((squares f (diffs vs)).take n).sum := fun f n =>
    List.sum_nonneg fun x hx => hnonneg f x (List.mem_of_mem_take hx)
  rw [crowdind]
  by_cases h10 : vs.length < 10
  · have h500 : ¬500 ≤ vs.length := by omega
    rw [if_pos h10]
    constructor <;> simp [h10, h500]
  rw [if_neg h10]
  constructor
  · rintro x hx
    obtain rfl := Option.some.inj hx
    exact share_lt_one (List.sum_nonneg (hnonneg band)) (band_sum_le _)
  · rintro x hx
    obtain rfl := Option.some.inj hx
    exact share_lt_one (hwindow lowBand 100)
      ((sum_take_le_sum (hnonneg lowBand) 100).trans (lowBand_sum_le _))
  · rintro x hx
    simp only at hx
    split_ifs at hx
    · obtain rfl := Option.some.inj hx
      exact div_nonneg (hwindow band 500) (add_nonneg (hwindow volume 500) kCrowdEpsilon_pos.le)
    · exact absurd hx (by simp)
  · rintro x hx
    simp only at hx
    split_ifs at hx
    · obtain rfl := Option.some.inj hx
      exact share_lt_one (hwindow volume 100) (sum_take_le (hnonneg volume) (by omega))
    · exact absurd hx (by simp)
  · simp [not_lt.1 h10]
  · simp only [List.forall_mem_cons]
    refine ⟨?_, ?_, ?_⟩
    · split_ifs with h <;> simp [h]
    · split_ifs with h <;> simp [h]
    · simp

end IIRState

/-! ## Runs -/

namespace FState

/-- The filters have seen the volumes of the snapshots. -/
def Filtered (f : FState ℚ) : Prop :=
  ∀ s, f.iirState = some s → s.Tracks (f.snapshots.map fun s => (s.volume : ℚ)).reverse

theorem Filtered.recorded {f : FState ℚ} (h : f.Filtered) : f.recorded.Filtered := by
  intro s hs
  obtain ⟨s', hs', rfl⟩ := Option.map_eq_some_iff.1 hs
  have hnext := (h s' hs').addVolumeTick (f.currSnapshot.volume : ℚ)
  simp only [FState.recorded, nextSlot, List.map_append, List.map_singleton, List.reverse_append,
    List.reverse_singleton, List.singleton_append]
  exact hnext

end FState

namespace StockCompute
variable {c d : StockCompute ℚ} {b : Build}

theorem filtered_start (s : StockState) :
    (StockCompute.start {} s : StockCompute ℚ).fState.Filtered := by
  intro i hi
  by_cases hs : s.alive
  · rw [StockCompute.start, if_pos hs] at hi ⊢
    obtain rfl := Option.some.inj hi
    exact IIRState.tracks_zero
  · rw [start_of_not_alive hs] at hi
    exact absurd hi (by simp)

theorem runTicks_filtered {ticks : List b.Tick} (h : c.fState.Filtered)
    (hd : c.runTicks b ticks = some d) : d.fState.Filtered :=
  runTicks_fState (P := FState.Filtered) (fun _ hf => hf.recorded) (fun _ hf => hf)
    (fun _ hf => hf) h hd

theorem speculate_filtered (h : c.fState.Filtered) (hd : c.speculate = some d) :
    d.fState.Filtered := by
  obtain ⟨bState, f, hf, rfl⟩ := speculate_eq_some hd
  have hf' := FState.stepSnapshotUntil_induct (P := FState.Filtered)
    (fun hf hg => FState.stepSnapshot_eq_some hg ▸ hf.recorded) (fun _ hf => hf) h hf
  exact FState.Filtered.recorded (f := { f with currSnapshot :=
    { buyUpSellOrders c.upSellOrders f.currSnapshot with lastPrice := c.upperLimitPrice } }) hf'

end StockCompute

end Mdd2
