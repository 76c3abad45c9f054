/-
  The volatility factors of bins with positive prices, over exact arithmetic.

  * `bandRange_sums`: a range sums over the bins in the band, and its run is a part of them;
  * `Held` says that 64 bits hold the sums of the bins, and so those of a part;
  * `upSums_eq`: over the run, no division fails, and the sums are those of the changes;
  * `Determined` says which factors are finite, and `Bounded` in which bounds they are; both
    hold of every band (`compute_determined`, `compute_bounded`).
-/
import Mdd2.Factors
import Mdd2.Lib.Statistics
import Mdd2.Proof.LongestRun

namespace Mdd2

open LongestRun Statistics

/-! ## Ranges -/

/-- The bin is in the band. -/
def Bin.InBand (lo hi : ℚ) (b : Bin) : Prop := lo ≤ b.vwap ∧ b.vwap ≤ hi

instance (lo hi : ℚ) : DecidablePred (Bin.InBand lo hi) := fun _ =>
  inferInstanceAs (Decidable (_ ∧ _))

section
variable {lo hi : ℚ} {bins : List Bin}

/-- The bins in the band. -/
def inBand (lo hi : ℚ) (bins : List Bin) : List Bin := bins.filter fun b => Bin.InBand lo hi b

/-- **The sums of a range are those of the bins in its band**, as 64 bits hold them. -/
theorem bandRange_sums (lo hi : ℚ) (bins : List Bin) :
    (bandRange lo hi bins).amount = Word.toSigned 64 ((inBand lo hi bins).map Bin.amount).sum ∧
    (bandRange lo hi bins).volume = Word.toSigned 64 ((inBand lo hi bins).map Bin.volume).sum ∧
    (bandRange lo hi bins).count = (inBand lo hi bins).length := by
  have hadd : ∀ (r : LCSRange) (i : ℤ), (r.lcsAdd i).amount = r.amount ∧
      (r.lcsAdd i).volume = r.volume ∧ (r.lcsAdd i).count = r.count := by
    intro r i
    rw [LCSRange.lcsAdd]
    split_ifs <;> exact ⟨rfl, rfl, rfl⟩
  induction bins using List.reverseRecOn with
  | nil => exact ⟨rfl, rfl, rfl⟩
  | append_singleton bins b ih =>
    obtain ⟨hamount, hvolume, hcount⟩ := ih
    rw [bandRange_append, inBand, List.filter_append]
    by_cases hb : lo ≤ b.vwap ∧ b.vwap ≤ hi
    · have hfilter : [b].filter (fun b => Bin.InBand lo hi b) = [b] := by
        simp [Bin.InBand, hb]
      obtain ⟨ha, hv, hc⟩ := hadd (bandRange lo hi bins) bins.length
      rw [if_pos hb, hfilter]
      simp only [LCSRange.addBin, ha, hv, hc, hamount, hvolume, hcount, inBand, List.map_append,
        List.sum_append, List.map_singleton, List.sum_singleton, List.length_append,
        List.length_singleton, Word.toSigned_add]
      exact ⟨trivial, trivial, by push_cast; rfl⟩
    · have hfilter : [b].filter (fun b => Bin.InBand lo hi b) = [] := by
        simp only [Bin.InBand, hb, decide_false, List.filter_cons, List.filter_nil,
          Bool.false_eq_true, if_false]
      rw [if_neg hb, hfilter, List.append_nil]
      exact ⟨hamount, hvolume, hcount⟩

/-- Volumes and amounts are not negative, and 64 bits hold their sums. -/
structure Held (bins : List Bin) : Prop where
  volume : ∀ b ∈ bins, 0 ≤ b.volume
  amount : ∀ b ∈ bins, 0 ≤ b.amount
  volumes : (bins.map Bin.volume).sum < 2 ^ 63
  amounts : (bins.map Bin.amount).sum < 2 ^ 63

theorem toSigned_sum_of_sublist {part : List Bin} (h : part.Sublist bins) {g : Bin → ℤ}
    (hg : ∀ b ∈ bins, 0 ≤ g b) (hlt : (bins.map g).sum < 2 ^ 63) :
    Word.toSigned 64 (part.map g).sum = (part.map g).sum := by
  have h0 : 0 ≤ (part.map g).sum :=
    List.sum_nonneg (by simpa using fun b hb => hg b (h.subset hb))
  have hle := (h.map g).sum_le_sum (by simpa using hg)
  exact Word.toSigned_of_range (by omega) (hle.trans_lt hlt)

/-- The sums of a part are exact. -/
theorem Held.part (h : Held bins) {part : List Bin} (hp : part.Sublist bins) :
    Word.toSigned 64 (part.map Bin.volume).sum = (part.map Bin.volume).sum ∧
      Word.toSigned 64 (part.map Bin.amount).sum = (part.map Bin.amount).sum :=
  ⟨toSigned_sum_of_sublist hp h.volume h.volumes, toSigned_sum_of_sublist hp h.amount h.amounts⟩

theorem inBand_sublist (lo hi : ℚ) (bins : List Bin) : (inBand lo hi bins).Sublist bins :=
  List.filter_sublist

theorem mem_bandBins_iff {i : ℤ} :
    i ∈ bandBins lo hi bins ↔ ∃ (n : ℕ) (b : Bin), i = n ∧ bins[n]? = some b ∧ b.InBand lo hi := by
  constructor
  · rintro ⟨⟨b, n⟩, hp, hb, rfl⟩
    exact ⟨n, b, rfl, List.mem_zipIdx_iff_getElem?.1 hp, hb⟩
  · rintro ⟨n, b, rfl, hn, hb⟩
    exact ⟨(b, n), List.mem_zipIdx_iff_getElem?.2 hn, hb, rfl⟩

/-- A range that is not empty is a run of at least two bins in the band. -/
theorem bandRange_run (h : (bandRange lo hi bins).start ≤ (bandRange lo hi bins).stop) :
    ∃ start stop : ℕ, (bandRange lo hi bins).start = start ∧ (bandRange lo hi bins).stop = stop ∧
      start < stop ∧ stop < bins.length ∧
      ∀ n b, start ≤ n → n ≤ stop → bins[n]? = some b → b.InBand lo hi := by
  rcases (bandRange_tracks lo hi bins).best with ⟨-, hstart, hstop⟩ | ⟨hlt, hrun⟩
  · omega
  obtain ⟨m, b, hm, hmb, -⟩ := mem_bandBins_iff.1 hrun.run.left_mem
  obtain ⟨n, b', hn, hnb, -⟩ := mem_bandBins_iff.1 hrun.run.right_mem
  refine ⟨m, n, hm, hn, by omega, (List.getElem?_eq_some_iff.1 hnb).1, fun k b'' hmk hkn hk => ?_⟩
  have hmem : (k : ℤ) ∈ bandBins lo hi bins := hrun.run.2 ⟨by omega, by omega⟩
  obtain ⟨k', c, hkk, hc, hband⟩ := mem_bandBins_iff.1 hmem
  obtain rfl : k = k' := by exact_mod_cast hkk
  obtain rfl := Option.some.inj (hk.symm.trans hc)
  exact hband

theorem bandRange_start_le_stop_iff : (bandRange lo hi bins).start ≤ (bandRange lo hi bins).stop ↔
    ∃ i ∈ bandBins lo hi bins, i + 1 ∈ bandBins lo hi bins := by
  rw [← bandRange_isLastLongest_iff]
  constructor
  · intro h
    rcases (bandRange_tracks lo hi bins).best with ⟨-, hstart, hstop⟩ | ⟨-, hrun⟩
    · omega
    · exact hrun
  · intro h
    exact h.run.1

/-- The bins from `start` to `stop`. -/
def lcsBins (bins : List Bin) (start stop : ℕ) : List Bin := (bins.take (stop + 1)).drop start

theorem lcsBins_sublist_bins (bins : List Bin) (start stop : ℕ) :
    (lcsBins bins start stop).Sublist bins :=
  (List.drop_sublist _ _).trans (List.take_sublist _ _)

theorem length_lcsBins {start stop : ℕ} (h : stop < bins.length) :
    (lcsBins bins start stop).length = stop + 1 - start := by
  rw [lcsBins, List.length_drop, List.length_take, min_eq_left (by omega)]

/-- A run of bins in the band is a part of the bins in the band. -/
theorem lcsBins_sublist {start stop : ℕ}
    (h : ∀ n b, start ≤ n → n ≤ stop → bins[n]? = some b → b.InBand lo hi) :
    (lcsBins bins start stop).Sublist (inBand lo hi bins) := by
  have hall : (lcsBins bins start stop).filter (fun b => Bin.InBand lo hi b) =
      lcsBins bins start stop := by
    rw [List.filter_eq_self]
    rintro b hb
    obtain ⟨k, hk⟩ := List.mem_iff_getElem?.1 hb
    rw [lcsBins, List.getElem?_drop, List.getElem?_take] at hk
    split_ifs at hk with hlt
    exact decide_eq_true (h (start + k) b (by omega) (by omega) hk)
  rw [← hall]
  exact (lcsBins_sublist_bins bins start stop).filter _

end

/-! ## changes of the average price -/

/-- The change of the average price to bin `i`. -/
def changeAt (vwap : List ℚ) (i : ℕ) : ℚ := vwap.getD i 0 / vwap.getD (i - 1) 0 - 1

/-- The changes within a run; the first bin has none. -/
def runChanges (vwap : List ℚ) (start stop : ℕ) : List ℚ :=
  (List.range' (max 1 start) (stop + 1 - max 1 start)).map (changeAt vwap)

section
variable {vwap : List ℚ} {start stop : ℕ}

theorem vwapChange_eq (h : ∀ v ∈ vwap, 0 < v) {i : ℕ} (hi : i < vwap.length) :
    vwapChange vwap i = some (changeAt vwap i) := by
  have hprev : i - 1 < vwap.length := by omega
  have hne : vwap[i - 1] ≠ 0 := (h _ (List.getElem_mem hprev)).ne'
  simp [vwapChange, changeAt, quotient, List.getElem?_eq_getElem hi,
    List.getElem?_eq_getElem hprev, hne]

/-- **Over positive prices, no division of a run fails.** -/
theorem upSums_eq (h : ∀ v ∈ vwap, 0 < v) (hstop : stop < vwap.length) :
    upSums vwap start stop = some ((runChanges vwap start stop).foldl UpSums.add {}) := by
  have hfold : ∀ (is : List ℕ) (u : UpSums), (∀ i ∈ is, i < vwap.length) →
      is.foldlM (fun u i => (vwapChange vwap i).map u.add) u =
        some ((is.map (changeAt vwap)).foldl UpSums.add u) := by
    intro is
    induction is with
    | nil => exact fun u _ => rfl
    | cons i is ih =>
      intro u his
      rw [List.foldlM_cons, vwapChange_eq h (his i List.mem_cons_self)]
      exact ih _ fun j hj => his j (List.mem_cons_of_mem i hj)
  refine hfold _ _ fun i hi => ?_
  have hmem := List.mem_range'_1.1 hi
  omega

end

namespace UpSums

/-- What the sums of some changes are. -/
theorem foldl_add (rs : List ℚ) : rs.foldl UpSums.add {} =
    { sumSqr := total rs fun r => r * r
      sumPosSqr := total (rs.filter (0 < ·)) fun r => r * r
      sumPosSqrSqr := total (rs.filter (0 < ·)) fun r => r * r * (r * r)
      nPositive := (rs.filter (0 < ·)).length } := by
  induction rs using List.reverseRecOn with
  | nil => rfl
  | append_singleton rs r ih =>
    rw [List.foldl_append, ih, List.foldl_cons, List.foldl_nil, UpSums.add, List.filter_append]
    by_cases hr : 0 < r
    · simp [hr, total_append]
    · simp [hr, total_append]

theorem sumSqr_ne_zero_iff (rs : List ℚ) :
    (total rs fun r => r * r) ≠ 0 ↔ ∃ r ∈ rs, r ≠ 0 := by
  rw [ne_eq, total_eq_zero_iff rs _ fun r _ => mul_self_nonneg r]
  simp

/-- The part of the squares that goes up. -/
theorem sumPosSqr_le (rs : List ℚ) :
    total (rs.filter (0 < ·)) (fun r => r * r) ≤ total rs fun r => r * r :=
  (List.filter_sublist.map _).sum_le_sum (by simpa using fun r _ => mul_self_nonneg r)

end UpSums

/-! ## Moments -/

theorem quotient_isSome {a b : ℚ} (h : b ≠ 0) : quotient a b = some (a / b) := if_neg h

/-- **The moments are finite from four values on**, whatever the values. -/
theorem computeSkewKurt_isSome {sqrt : ℚ → ℚ} (hsqrt : ∀ x, 0 < x → 0 < sqrt x) (xs : List ℚ) :
    ((computeSkewKurt sqrt xs).1.isSome ↔ 3 < xs.length) ∧
    ((computeSkewKurt sqrt xs).2.isSome ↔ 3 < xs.length) := by
  rw [computeSkewKurt]
  by_cases hlen : xs.length ≤ 3
  · rw [if_pos hlen]
    simp [hlen]
  rw [if_neg hlen]
  have hlt : 3 < xs.length := by omega
  have hn : (4 : ℚ) ≤ xs.length := by exact_mod_cast hlt
  by_cases hvar : (xs.map fun x => (x - xs.sum / xs.length) ^ 2).sum ≤ 0
  · rw [if_pos hvar]
    simp [hlt]
  rw [if_neg hvar]
  have hpos := div_pos (not_le.1 hvar) (by linarith : (0 : ℚ) < xs.length)
  have hstd := hsqrt _ hpos
  have h2 : (xs.length : ℚ) - 2 ≠ 0 := by linarith
  have h3 : (xs.length : ℚ) - 3 ≠ 0 := by linarith
  have h0 : (xs.length : ℚ) ≠ 0 := by linarith
  have hskew := mul_ne_zero (mul_ne_zero h0 hpos.ne') hstd.ne'
  have hkurt := mul_ne_zero (mul_ne_zero h0 hpos.ne') hpos.ne'
  constructor
  · simp only [quotient_isSome hskew, Option.bind_eq_bind, Option.bind_some, quotient_isSome h2,
      Option.isSome_some, hlt]
  · simp only [quotient_isSome hkurt, Option.bind_eq_bind, Option.bind_some,
      quotient_isSome (mul_ne_zero h2 h3), Option.isSome_some, hlt]

/-! ## The factors of a band -/

namespace Volatility

/-- The average price changes, or goes up, between two bins of the run. -/
def changes (bins : List Bin) (r : LCSRange) : List ℚ :=
  if r.start ≤ r.stop then runChanges (bins.map Bin.vwap) r.start.toNat r.stop.toNat else []

/-- Which factors are finite: those of the run if two bins of the band follow each other, those
    of the changes if the average price changes in the run, and the moments from four bins
    on. -/
structure Determined (f : Volatility) (bins : List Bin) (lo hi : ℚ) : Prop where
  run : (∃ i ∈ bandBins lo hi bins, i + 1 ∈ bandBins lo hi bins) ↔ ∀ x ∈ [f.time, f.consecTime,
    f.amountRatio, f.volumeRatio, f.turnover, f.consecAmountRatio, f.consecVolumeRatio,
    f.consecTurnover], x.isSome
  noRun : (¬∃ i ∈ bandBins lo hi bins, i + 1 ∈ bandBins lo hi bins) ↔ ∀ x ∈ [f.time, f.consecTime,
    f.amountRatio, f.volumeRatio, f.turnover, f.consecAmountRatio, f.consecVolumeRatio,
    f.consecTurnover], x = none
  upVolume : f.upVolume.isSome ↔ ∃ r ∈ changes bins (bandRange lo hi bins), r ≠ 0
  upRatio : f.upRatio.isSome ↔ ∃ r ∈ changes bins (bandRange lo hi bins), r ≠ 0
  upStd : f.upStd.isSome ↔ 1 < ((changes bins (bandRange lo hi bins)).filter (0 < ·)).length
  vwapMoments : ∀ x ∈ [f.vwapSkew, f.vwapKurt], (x.isSome ↔ 3 < bins.length)
  consecMoments : ∀ x ∈ [f.consecVwapSkew, f.consecVwapKurt],
    (x.isSome ↔ (bandRange lo hi bins).start + 3 ≤ (bandRange lo hi bins).stop)

/-- The bounds: a run lasts at least two bins and at most as long as all of its band, and the
    shares of a run are at most those of its band. -/
structure Bounded (f : Volatility) (n : ℕ) : Prop where
  time : ∀ x ∈ f.consecTime, ∀ y ∈ f.time, 1 / 2 ≤ x ∧ x ≤ y ∧ y ≤ n / 4
  amountRatio : ∀ x ∈ f.consecAmountRatio, ∀ y ∈ f.amountRatio, 0 ≤ x ∧ x ≤ y ∧ y ≤ 1
  volumeRatio : ∀ x ∈ f.consecVolumeRatio, ∀ y ∈ f.volumeRatio, 0 ≤ x ∧ x ≤ y ∧ y ≤ 1
  turnover : ∀ x ∈ f.consecTurnover, ∀ y ∈ f.turnover, 0 ≤ x ∧ x ≤ y
  upRatio : ∀ x ∈ f.upRatio, 0 ≤ x ∧ x ≤ 1

section
variable {lo hi floatMV : ℚ} {bins : List Bin} {sqrt : ℚ → ℚ}

/-- A band is left without a range. -/
theorem compute_of_lt (h : ¬(bandRange lo hi bins).start ≤ (bandRange lo hi bins).stop) :
    Volatility.compute sqrt floatMV bins (bandRange lo hi bins) =
      { vwapSkew := (computeSkewKurt sqrt (bins.map Bin.vwap)).1
        vwapKurt := (computeSkewKurt sqrt (bins.map Bin.vwap)).2 } := by
  rw [compute]
  exact if_neg h

/-- A band is left with the run from `start` to `stop`. -/
theorem compute_of_run {start stop : ℕ} (hstart : (bandRange lo hi bins).start = start)
    (hstop : (bandRange lo hi bins).stop = stop) (hlt : start < stop) (hlen : stop < bins.length)
    (hv : ∀ b ∈ bins, 0 < b.vwap) (hheld : Held bins) (hfloat : floatMV ≠ 0)
    (hvolume : (((bins.map Bin.volume).sum : ℤ) : ℚ) ≠ 0)
    (hamount : (((bins.map Bin.amount).sum : ℤ) : ℚ) ≠ 0) :
    let u := (runChanges (bins.map Bin.vwap) start stop).foldl UpSums.add {}
    let lcs := lcsBins bins start stop
    let band := inBand lo hi bins
    let share (part : List Bin) (g : Bin → ℤ) : ℚ := ((part.map g).sum : ℤ) / ((bins.map g).sum : ℤ)
    Volatility.compute sqrt floatMV bins (bandRange lo hi bins) =
      { upVolume := u.upVolume sqrt
        upRatio := u.upRatio
        upStd := u.upStd sqrt
        time := some (band.length * (1 / 4))
        consecTime := some ((stop - start + 1) * (1 / 4))
        turnover := some (((band.map Bin.amount).sum : ℤ) / floatMV * (1 / 100))
        amountRatio := some (share band Bin.amount)
        volumeRatio := some (share band Bin.volume)
        consecTurnover := some (((lcs.map Bin.amount).sum : ℤ) / floatMV * (1 / 100))
        consecAmountRatio := some (share lcs Bin.amount)
        consecVolumeRatio := some (share lcs Bin.volume)
        vwapSkew := (computeSkewKurt sqrt (bins.map Bin.vwap)).1
        vwapKurt := (computeSkewKurt sqrt (bins.map Bin.vwap)).2
        consecVwapSkew := (computeSkewKurt sqrt (lcs.map Bin.vwap)).1
        consecVwapKurt := (computeSkewKurt sqrt (lcs.map Bin.vwap)).2 } := by
  intro u lcs band share
  have hvwap : ∀ v ∈ bins.map Bin.vwap, 0 < v := by simpa using hv
  have hup : upSums (bins.map Bin.vwap) start stop = some u :=
    upSums_eq hvwap (by rwa [List.length_map])
  obtain ⟨ha, hvol, hcount⟩ := bandRange_sums lo hi bins
  obtain ⟨htotalVolume, htotalAmount⟩ := hheld.part (.refl bins)
  obtain ⟨hbandVolume, hbandAmount⟩ := hheld.part (inBand_sublist lo hi bins)
  obtain ⟨hlcsVolume, hlcsAmount⟩ := hheld.part (lcsBins_sublist_bins bins start stop)
  rw [lcsBins] at hlcsVolume hlcsAmount
  have hle : (bandRange lo hi bins).start ≤ (bandRange lo hi bins).stop := by omega
  rw [compute]
  simp only [if_pos hle]
  rw [hstart, hstop, Int.toNat_natCast, Int.toNat_natCast, hup, ha, hvol, hcount, htotalVolume,
    htotalAmount, hbandVolume, hbandAmount, hlcsVolume, hlcsAmount, quotient_isSome hfloat,
    quotient_isSome hfloat, quotient_isSome hamount, quotient_isSome hvolume,
    quotient_isSome hamount, quotient_isSome hvolume]
  simp only [Int.cast_natCast]
  rfl

theorem changes_of_run {start stop : ℕ} (hstart : (bandRange lo hi bins).start = start)
    (hstop : (bandRange lo hi bins).stop = stop) (hlt : start < stop) :
    changes bins (bandRange lo hi bins) = runChanges (bins.map Bin.vwap) start stop := by
  rw [changes, hstart, hstop, if_pos (by omega), Int.toNat_natCast, Int.toNat_natCast]

theorem one_lt_length_filter_imp {rs : List ℚ} (h : 1 < (rs.filter (0 < ·)).length) :
    ∃ r ∈ rs, r ≠ 0 := by
  obtain ⟨r, hr⟩ := List.exists_mem_of_length_pos (by omega : 0 < (rs.filter (0 < ·)).length)
  have hmem := List.mem_filter.1 hr
  exact ⟨r, hmem.1, (of_decide_eq_true hmem.2).ne'⟩

/-- **Which factors of a band are finite.** -/
theorem compute_determined (hsqrt : ∀ x, 0 < x → 0 < sqrt x) (hfloat : floatMV ≠ 0)
    (hv : ∀ b ∈ bins, 0 < b.vwap) (hheld : Held bins)
    (hpos : (∃ b ∈ bins, b.InBand lo hi) →
      0 < (bins.map Bin.volume).sum ∧ 0 < (bins.map Bin.amount).sum) :
    Determined (Volatility.compute sqrt floatMV bins (bandRange lo hi bins)) bins lo hi := by
  have hmoments := computeSkewKurt_isSome hsqrt (bins.map Bin.vwap)
  rw [List.length_map] at hmoments
  by_cases hrange : (bandRange lo hi bins).start ≤ (bandRange lo hi bins).stop
  case neg =>
    have hno := mt bandRange_start_le_stop_iff.2 hrange
    have hchanges : changes bins (bandRange lo hi bins) = [] := if_neg hrange
    rw [compute_of_lt hrange]
    constructor
    · simp [hno]
    · simp [hno]
    · simp [hchanges]
    · simp [hchanges]
    · simp [hchanges]
    · simpa using hmoments
    · have hlt : ¬(bandRange lo hi bins).start + 3 ≤ (bandRange lo hi bins).stop := by omega
      simp [hlt]
  have hex := bandRange_start_le_stop_iff.1 hrange
  obtain ⟨start, stop, hstart, hstop, hlt, hlen, hband⟩ := bandRange_run hrange
  have hfirst : bins[start]? = some bins[start] := List.getElem?_eq_getElem (by omega)
  obtain ⟨hvolume, hamount⟩ := hpos ⟨bins[start], List.getElem_mem _,
    hband start _ le_rfl hlt.le hfirst⟩
  rw [compute_of_run hstart hstop hlt hlen hv hheld hfloat (by exact_mod_cast hvolume.ne')
    (by exact_mod_cast hamount.ne')]
  have hconsec := computeSkewKurt_isSome hsqrt ((lcsBins bins start stop).map Bin.vwap)
  rw [List.length_map, length_lcsBins hlen] at hconsec
  have hthree : 3 < stop + 1 - start ↔ (start : ℤ) + 3 ≤ stop := by omega
  constructor
  · simp [hex]
  · simp [hex]
  · rw [changes_of_run hstart hstop hlt, UpSums.foldl_add, UpSums.upVolume,
      ← UpSums.sumSqr_ne_zero_iff]
    split_ifs with h <;> simp [h]
  · rw [changes_of_run hstart hstop hlt, UpSums.foldl_add, UpSums.upRatio,
      ← UpSums.sumSqr_ne_zero_iff]
    split_ifs with h
    · simp [quotient_isSome h, h]
    · simp [h]
  · rw [changes_of_run hstart hstop hlt, UpSums.foldl_add, UpSums.upStd]
    by_cases hup : 1 < ((runChanges (bins.map Bin.vwap) start stop).filter (0 < ·)).length
    · have hne := (UpSums.sumSqr_ne_zero_iff _).2 (one_lt_length_filter_imp hup)
      rw [if_pos ⟨hne, hup⟩]
      simp [hup]
    · rw [if_neg fun h => hup h.2]
      simp [hup]
  · simpa using hmoments
  · rw [hstart, hstop, ← hthree]
    simpa using hconsec

/-- A share of a part is at most that of the whole. -/
theorem share_le {l₁ l₂ : List Bin} (h : l₁.Sublist l₂) {g : Bin → ℤ} (hg : ∀ b ∈ l₂, 0 ≤ g b)
    {d : ℚ} (hd : 0 < d) :
    0 ≤ (((l₁.map g).sum : ℤ) : ℚ) / d ∧
      (((l₁.map g).sum : ℤ) : ℚ) / d ≤ (((l₂.map g).sum : ℤ) : ℚ) / d := by
  have hle := (h.map g).sum_le_sum (by simpa using hg)
  have h0 : 0 ≤ (l₁.map g).sum := List.sum_nonneg (by simpa using fun b hb => hg b (h.subset hb))
  constructor
  · exact div_nonneg (by exact_mod_cast h0) hd.le
  · exact div_le_div_of_nonneg_right (by exact_mod_cast hle) hd.le

/-- **The bounds of the factors of a band.** -/
theorem compute_bounded (hfloat : 0 < floatMV) (hv : ∀ b ∈ bins, 0 < b.vwap)
    (hheld : Held bins)
    (hpos : (∃ b ∈ bins, b.InBand lo hi) →
      0 < (bins.map Bin.volume).sum ∧ 0 < (bins.map Bin.amount).sum) :
    Bounded (Volatility.compute sqrt floatMV bins (bandRange lo hi bins)) bins.length := by
  by_cases hrange : (bandRange lo hi bins).start ≤ (bandRange lo hi bins).stop
  case neg =>
    rw [compute_of_lt hrange]
    constructor <;> simp
  obtain ⟨start, stop, hstart, hstop, hlt, hlen, hband⟩ := bandRange_run hrange
  have hfirst : bins[start]? = some bins[start] := List.getElem?_eq_getElem (by omega)
  obtain ⟨hvolume, hamount⟩ := hpos ⟨bins[start], List.getElem_mem _,
    hband start _ le_rfl hlt.le hfirst⟩
  have hvolume' : (0 : ℚ) < ((bins.map Bin.volume).sum : ℤ) := by exact_mod_cast hvolume
  have hamount' : (0 : ℚ) < ((bins.map Bin.amount).sum : ℤ) := by exact_mod_cast hamount
  rw [compute_of_run hstart hstop hlt hlen hv hheld hfloat.ne' hvolume'.ne' hamount'.ne']
  have hlcs := lcsBins_sublist hband
  have hall := inBand_sublist lo hi bins
  have hin : ∀ b ∈ inBand lo hi bins, 0 ≤ b.volume ∧ 0 ≤ b.amount := fun b hb =>
    ⟨hheld.volume b (hall.subset hb), hheld.amount b (hall.subset hb)⟩
  constructor
  · have hlength := hlcs.length_le
    have htotal := hall.length_le
    rw [length_lcsBins hlen] at hlength
    have h1 : (start : ℚ) + 1 ≤ stop := by exact_mod_cast hlt
    have h2 : (stop : ℚ) - start + 1 ≤ (inBand lo hi bins).length := by
      have hnat : stop + 1 ≤ (inBand lo hi bins).length + start := by omega
      have hcast : (stop : ℚ) + 1 ≤ (inBand lo hi bins).length + start := by exact_mod_cast hnat
      linarith
    have h3 : ((inBand lo hi bins).length : ℚ) ≤ bins.length := by exact_mod_cast htotal
    rintro x hx y hy
    obtain rfl := Option.some.inj hx
    obtain rfl := Option.some.inj hy
    refine ⟨?_, ?_, ?_⟩ <;> linarith
  · rintro x hx y hy
    obtain rfl := Option.some.inj hx
    obtain rfl := Option.some.inj hy
    obtain ⟨h0, hle⟩ := share_le hlcs (fun b hb => (hin b hb).2) hamount'
    obtain ⟨-, hle'⟩ := share_le hall hheld.amount hamount'
    rw [div_self hamount'.ne'] at hle'
    exact ⟨h0, hle, hle'⟩
  · rintro x hx y hy
    obtain rfl := Option.some.inj hx
    obtain rfl := Option.some.inj hy
    obtain ⟨h0, hle⟩ := share_le hlcs (fun b hb => (hin b hb).1) hvolume'
    obtain ⟨-, hle'⟩ := share_le hall hheld.volume hvolume'
    rw [div_self hvolume'.ne'] at hle'
    exact ⟨h0, hle, hle'⟩
  · rintro x hx y hy
    obtain rfl := Option.some.inj hx
    obtain rfl := Option.some.inj hy
    obtain ⟨h0, hle⟩ := share_le hlcs (fun b hb => (hin b hb).2) hfloat
    exact ⟨mul_nonneg h0 (by norm_num), mul_le_mul_of_nonneg_right hle (by norm_num)⟩
  · rintro x hx
    rw [UpSums.foldl_add] at hx
    simp only [UpSums.upRatio] at hx
    split_ifs at hx with hne
    · rw [quotient_isSome hne] at hx
      obtain rfl := Option.some.inj hx
      have hle := UpSums.sumPosSqr_le (runChanges (bins.map Bin.vwap) start stop)
      have h0 := total_nonneg ((runChanges (bins.map Bin.vwap) start stop).filter (0 < ·))
        (fun r => r * r) fun r _ => mul_self_nonneg r
      have hpos' := lt_of_le_of_ne (h0.trans hle) (Ne.symm hne)
      exact ⟨div_nonneg h0 hpos'.le, (div_le_one hpos').2 hle⟩
    · exact absurd hx (by simp)

end

end Volatility

end Mdd2
