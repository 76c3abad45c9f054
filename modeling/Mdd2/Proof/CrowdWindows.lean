/-
  The running sums of the crowd factors over exact arithmetic.

  * `diffs`, `band`, `lowBand` and `volume` are the signals of a history of
    volumes, directly: the averages are weighted sums of all volumes (`ema`);
  * `Tracks` says that a state holds the sums of the squared signals, over all
    calls and over the last 100 or 500 (`Window`), with its cursors at the length
    of the history (`Cursor`);
  * `addVolumeTick_windows`: so it is after any calls on a fresh state, and
    `finalCompute` computes the factors of the history.

  Histories have the newest volume first.
-/
import Mdd2.IIRState
import Mdd2.Lib.RecentRing

namespace Mdd2

namespace IIRState

open RecentRing

/-! ## Signals of a history -/

/-- The volumes that count: the first call only starts the series. -/
def diffs : List ℚ → List ℚ
  | [] => []
  | [_] => [0]
  | v :: w :: vs => v :: diffs (w :: vs)

/-- The exponential moving average: the volume `k` calls ago has the weight
    `α (1 - α)ᵏ`. -/
def ema (α : ℚ) (ds : List ℚ) : ℚ := ∑ k ∈ Finset.range ds.length, α * (1 - α) ^ k * ds.getD k 0

/-- The high band: the average over 30 calls less that over 600. -/
def band (ds : List ℚ) : ℚ := ema (2 / 31) ds - ema (2 / 601) ds

def lowBand (ds : List ℚ) : ℚ := ema (2 / 601) ds

def volume (ds : List ℚ) : ℚ := ds.headD 0

/-- The squares of a signal at every call. -/
def squares (f : List ℚ → ℚ) : List ℚ → List ℚ
  | [] => []
  | d :: ds => f (d :: ds) ^ 2 :: squares f ds

/-- The factors of a history, directly. -/
def crowdind (vs : List ℚ) : Crowdind ℚ :=
  let ds := diffs vs
  let total (f : List ℚ → ℚ) := (squares f ds).sum
  let last (n : ℕ) (f : List ℚ → ℚ) := ((squares f ds).take n).sum
  if vs.length < 10 then ⟨none, none, none, none⟩
  else
    { crowdIndTop20 := some (total band / (total volume + kCrowdEpsilon))
      crowdIndBottom20 := some (last 100 lowBand / (total volume + kCrowdEpsilon))
      crowdIndLast500Top20 :=
        if 500 ≤ vs.length then some (last 500 band / (last 500 volume + kCrowdEpsilon)) else none
      crowdIndLast500Bottom20 :=
        if 500 ≤ vs.length then some (last 100 volume / (last 500 volume + kCrowdEpsilon))
        else none }

theorem diffs_cons (v : ℚ) (vs : List ℚ) :
    diffs (v :: vs) = (if vs.length = 0 then 0 else v) :: diffs vs := by
  cases vs <;> rfl

theorem length_diffs (vs : List ℚ) : (diffs vs).length = vs.length := by
  induction vs with
  | nil => rfl
  | cons v vs ih => rw [diffs_cons, List.length_cons, ih, List.length_cons]

theorem length_squares (f : List ℚ → ℚ) (ds : List ℚ) : (squares f ds).length = ds.length := by
  induction ds with
  | nil => rfl
  | cons d ds ih => rw [squares, List.length_cons, ih, List.length_cons]

/-- **An average is updated from the one before.** -/
theorem ema_cons (α d : ℚ) (ds : List ℚ) : ema α (d :: ds) = α * d + (1 - α) * ema α ds := by
  rw [ema, List.length_cons, Finset.sum_range_succ', ema, Finset.mul_sum, add_comm]
  congr 1
  · simp
  · refine Finset.sum_congr rfl fun k _ => ?_
    rw [List.getD_cons_succ]
    ring

/-! ## Cursors and windows -/

/-- A cursor of a ring of `n` slots, after `len` calls. -/
structure Cursor (n : ℕ) (pos : Fin n) (filled : Bool) (len : ℕ) : Prop where
  pos : (pos : ℕ) = len % n
  filled : filled = decide (n ≤ len)

/-- The sum and the ring of the last `n` of some values. -/
structure Window (n : ℕ) (sum : ℚ) (ring : Fin n → ℚ) (xs : List ℚ) : Prop where
  sum : sum = (xs.take n).sum
  ring : ∀ i : Fin n, ring i = (slots n xs i).getD 0

theorem Cursor.next {n len : ℕ} [NeZero n] {pos : Fin n} {filled : Bool} (hn : 1 < n)
    (h : Cursor n pos filled len) : Cursor n (pos + 1) (filled || pos + 1 == 0) (len + 1) := by
  have hone : ((1 : Fin n) : ℕ) = 1 := by rw [Fin.val_one', Nat.mod_eq_of_lt hn]
  have hpos : ((pos + 1 : Fin n) : ℕ) = (len + 1) % n := by
    rw [Fin.val_add, hone, h.pos, Nat.mod_add_mod]
  refine ⟨hpos, ?_⟩
  have hzero : (pos + 1 == 0) = decide ((len + 1) % n = 0) := by
    rw [Bool.eq_iff_iff]
    simp [← Fin.val_eq_zero_iff, hpos]
  rw [hzero, h.filled, Bool.eq_iff_iff, Bool.or_eq_true, decide_eq_true_eq, decide_eq_true_eq,
    decide_eq_true_eq]
  constructor
  · rintro (hle | hmod)
    · omega
    · exact Nat.le_of_dvd (by omega) (Nat.dvd_of_mod_eq_zero hmod)
  · intro hle
    rcases Nat.lt_or_eq_of_le hle with hlt | heq
    · exact Or.inl (by omega)
    · exact Or.inr (by rw [← heq, Nat.mod_self])

/-- **Adding the new value and subtracting the overwritten one keeps the sum of the
    window.** -/
theorem Window.next {n : ℕ} {sum : ℚ} {ring : Fin n → ℚ} {xs : List ℚ} {pos : Fin n}
    (h : Window n sum ring xs) (hpos : (pos : ℕ) = xs.length % n) (x : ℚ) :
    Window n (sum + (x - ring pos)) (Function.update ring pos x) (x :: xs) := by
  have hn : 0 < n := pos.pos
  constructor
  · rw [sum_take_cons hn, h.sum, h.ring pos, hpos]
  · intro i
    rw [slots]
    by_cases hi : i = pos
    · subst hi
      rw [Function.update_self, ← hpos, Function.update_self, Option.getD_some]
    · have hne : (i : ℕ) ≠ xs.length % n := fun he => hi (Fin.ext (he.trans hpos.symm))
      rw [Function.update_of_ne hi, Function.update_of_ne hne, h.ring i]

/-! ## States -/

/-- The state after the calls of a history. -/
structure Tracks (s : IIRState ℚ) (vs : List ℚ) : Prop where
  tick_count : s.tick_count = vs.length
  prev_cum_volume : s.prev_cum_volume = (diffs vs).sum
  short_ema : s.short_ema = ema (2 / 31) (diffs vs)
  long_ema : s.long_ema = ema (2 / 601) (diffs vs)
  band_energy : s.band_energy = (squares band (diffs vs)).sum
  low_freq_energy : s.low_freq_energy = (squares lowBand (diffs vs)).sum
  diff_energy : s.diff_energy = (squares volume (diffs vs)).sum
  cursor100 : Cursor 100 s.ring100_pos s.ring100_filled vs.length
  cursor500 : Cursor 500 s.ring500_pos s.ring500_filled vs.length
  band100 : Window 100 s.windowBand100_sum s.band2_ring100 (squares band (diffs vs))
  low100 : Window 100 s.windowLow100_sum s.low_band2_ring100 (squares lowBand (diffs vs))
  diff100 : Window 100 s.windowDiff100_sum s.diff2_ring100 (squares volume (diffs vs))
  band500 : Window 500 s.windowBand500_sum s.band2_ring500 (squares band (diffs vs))
  diff500 : Window 500 s.windowDiff500_sum s.diff2_ring500 (squares volume (diffs vs))

theorem tracks_zero : Tracks zero [] := by
  have hwindow : ∀ (n : ℕ) (f : List ℚ → ℚ),
      Window n (((0 : ℤ) : ℚ)) (fun _ => ((0 : ℤ) : ℚ)) (squares f (diffs [])) :=
    fun n f => ⟨by simp [squares, diffs], fun i => by simp [squares, diffs, slots]⟩
  exact {
    tick_count := rfl
    prev_cum_volume := rfl
    short_ema := by simp [zero, ema, diffs]
    long_ema := by simp [zero, ema, diffs]
    band_energy := rfl
    low_freq_energy := rfl
    diff_energy := rfl
    cursor100 := ⟨rfl, rfl⟩
    cursor500 := ⟨rfl, rfl⟩
    band100 := hwindow 100 band
    low100 := hwindow 100 lowBand
    diff100 := hwindow 100 volume
    band500 := hwindow 500 band
    diff500 := hwindow 500 volume }

/-- **One call adds its volume to the history.** -/
theorem Tracks.addVolumeTick {s : IIRState ℚ} {vs : List ℚ} (h : Tracks s vs) (v : ℚ) :
    Tracks (s.addVolumeTick v) (v :: vs) := by
  obtain ⟨d, hd⟩ : ∃ d, d = if vs.length = 0 then (0 : ℚ) else v := ⟨_, rfl⟩
  have hdiff : (if s.tick_count = 0 then ((0 : ℤ) : ℚ) else v) = d := by
    rw [h.tick_count, Int.cast_zero, hd]
  have hcons : diffs (v :: vs) = d :: diffs vs := by rw [diffs_cons, hd]
  have hshort : ((2 : ℤ) : ℚ) / ((kCrowdShortSpan + 1 : ℤ) : ℚ) * d +
      (((1 : ℤ) : ℚ) - ((2 : ℤ) : ℚ) / ((kCrowdShortSpan + 1 : ℤ) : ℚ)) * s.short_ema =
        ema (2 / 31) (d :: diffs vs) := by
    rw [h.short_ema, ema_cons]
    norm_num [kCrowdShortSpan]
  have hlong : ((2 : ℤ) : ℚ) / ((kCrowdLongSpan + 1 : ℤ) : ℚ) * d +
      (((1 : ℤ) : ℚ) - ((2 : ℤ) : ℚ) / ((kCrowdLongSpan + 1 : ℤ) : ℚ)) * s.long_ema =
        ema (2 / 601) (d :: diffs vs) := by
    rw [h.long_ema, ema_cons]
    norm_num [kCrowdLongSpan]
  have hpos100 : ∀ f : List ℚ → ℚ,
      (s.ring100_pos : ℕ) = (squares f (diffs vs)).length % 100 := fun f => by
    rw [length_squares, length_diffs, h.cursor100.pos]
  have hpos500 : ∀ f : List ℚ → ℚ,
      (s.ring500_pos : ℕ) = (squares f (diffs vs)).length % 500 := fun f => by
    rw [length_squares, length_diffs, h.cursor500.pos]
  -- the signals of the call, as the code computes them
  have hband : squares band (d :: diffs vs) =
      (ema (2 / 31) (d :: diffs vs) - ema (2 / 601) (d :: diffs vs)) *
        (ema (2 / 31) (d :: diffs vs) - ema (2 / 601) (d :: diffs vs)) ::
          squares band (diffs vs) := by
    rw [squares, sq, band]
  have hlow : squares lowBand (d :: diffs vs) =
      ema (2 / 601) (d :: diffs vs) * ema (2 / 601) (d :: diffs vs) ::
        squares lowBand (diffs vs) := by
    rw [squares, sq, lowBand]
  have hvol : squares volume (d :: diffs vs) = d * d :: squares volume (diffs vs) := by
    rw [squares, sq, volume, List.headD_cons]
  simp only [IIRState.addVolumeTick, hdiff, hshort, hlong]
  constructor <;> simp only [hcons, hband, hlow, hvol, List.sum_cons, List.length_cons]
  · rw [h.tick_count]
  · rw [h.prev_cum_volume, add_comm]
  · rw [h.band_energy, add_comm]
  · rw [h.low_freq_energy, add_comm]
  · rw [h.diff_energy, add_comm]
  · exact h.cursor100.next (by norm_num)
  · exact h.cursor500.next (by norm_num)
  · exact h.band100.next (hpos100 band) _
  · exact h.low100.next (hpos100 lowBand) _
  · exact h.diff100.next (hpos100 volume) _
  · exact h.band500.next (hpos500 band) _
  · exact h.diff500.next (hpos500 volume) _

/-- So after any calls. -/
theorem tracks_foldl (vs : List ℚ) {s : IIRState ℚ} {ws : List ℚ} (h : Tracks s ws) :
    Tracks (vs.foldl IIRState.addVolumeTick s) (vs.reverse ++ ws) := by
  induction vs generalizing s ws with
  | nil => exact h
  | cons v vs ih =>
    rw [List.foldl_cons, List.reverse_cons, List.append_assoc]
    exact ih (h.addVolumeTick v)

/-- **The ratios are those of the history.** -/
theorem Tracks.finalCompute {s : IIRState ℚ} {vs : List ℚ} (h : Tracks s vs) :
    s.finalCompute = crowdind vs := by
  have hboth : (s.ring500_filled && s.ring100_filled) = s.ring500_filled := by
    rw [h.cursor500.filled, h.cursor100.filled, Bool.and_eq_left_iff_imp, decide_eq_true_eq,
      decide_eq_true_eq]
    omega
  rw [IIRState.finalCompute, crowdind, hboth, h.tick_count, h.band_energy, h.diff_energy,
    h.low100.sum, h.diff100.sum, h.band500.sum, h.diff500.sum, h.cursor500.filled]
  simp only [decide_eq_true_eq]

/-- The state after calls with the volumes `vs`, in order. -/
def runVolumes (vs : List ℚ) : IIRState ℚ := vs.foldl IIRState.addVolumeTick zero

theorem tracks_runVolumes (vs : List ℚ) : Tracks (runVolumes vs) vs.reverse := by
  have h := tracks_foldl vs tracks_zero
  rwa [List.append_nil] at h

/-- **The sliding windows are exact.**  After any calls on a fresh state, every sum is
    that of the squared signals of its calls, the cursors are at the number of calls,
    and `finalCompute` computes the factors of the history. -/
theorem addVolumeTick_windows (vs : List ℚ) :
    (runVolumes vs).windowBand100_sum = ((squares band (diffs vs.reverse)).take 100).sum ∧
    (runVolumes vs).windowLow100_sum = ((squares lowBand (diffs vs.reverse)).take 100).sum ∧
    (runVolumes vs).windowDiff100_sum = ((squares volume (diffs vs.reverse)).take 100).sum ∧
    (runVolumes vs).windowBand500_sum = ((squares band (diffs vs.reverse)).take 500).sum ∧
    (runVolumes vs).windowDiff500_sum = ((squares volume (diffs vs.reverse)).take 500).sum ∧
    ((runVolumes vs).ring100_pos : ℕ) = vs.length % 100 ∧
    ((runVolumes vs).ring500_pos : ℕ) = vs.length % 500 ∧
    ((runVolumes vs).ring100_filled ↔ 100 ≤ vs.length) ∧
    ((runVolumes vs).ring500_filled ↔ 500 ≤ vs.length) ∧
    (runVolumes vs).band_energy = (squares band (diffs vs.reverse)).sum ∧
    (runVolumes vs).low_freq_energy = (squares lowBand (diffs vs.reverse)).sum ∧
    (runVolumes vs).diff_energy = (squares volume (diffs vs.reverse)).sum ∧
    (runVolumes vs).finalCompute = crowdind vs.reverse := by
  have h := tracks_runVolumes vs
  have hlen : vs.reverse.length = vs.length := List.length_reverse
  refine ⟨h.band100.sum, h.low100.sum, h.diff100.sum, h.band500.sum, h.diff500.sum, ?_, ?_, ?_, ?_,
    h.band_energy, h.low_freq_energy, h.diff_energy, h.finalCompute⟩
  · rw [h.cursor100.pos, hlen]
  · rw [h.cursor500.pos, hlen]
  · rw [h.cursor100.filled, hlen, decide_eq_true_eq]
  · rw [h.cursor500.filled, hlen, decide_eq_true_eq]

end IIRState

end Mdd2
