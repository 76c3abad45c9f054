/-
  The daily factor file is read back, and no part of it is accepted.

  The counts of the header are 32 bits wide, so that lists of 2^31 elements or more
  do not fit.

  * `parseDailyConfig_file`: the reader gets what was written;
  * `parseDailyConfig_take`: it rejects what is left of a file that was cut, since
    a stream that is bad after any read makes one of the later checks fail
    (`readArrays_of_bad`);
  * `dailyFile_codec` is both.
-/
import Mdd2.DailyState

namespace Mdd2

/-- An exception is thrown. -/
def Throws {α : Type} (r : Except String α) : Prop := ∃ message, r = .error message

theorem Throws.bind {α β : Type} {r : Except String α} {f : α → Except String β}
    (h : ∀ a, r = .ok a → Throws (f a)) : Throws (r >>= f) := by
  cases r with
  | error message => exact ⟨message, rfl⟩
  | ok a => exact h a rfl

theorem Throws.bind_left {α β : Type} {r : Except String α} (h : Throws r)
    (f : α → Except String β) : Throws (r >>= f) := by
  obtain ⟨message, rfl⟩ := h
  exact ⟨message, rfl⟩

/-! ## Counts -/

/-- The count is one that the header holds. -/
def FitsCount (n : ℕ) : Prop := n < 2 ^ 31

theorem resize_astypeInt32 {n : ℕ} (h : FitsCount n) :
    resize (FetchState.astypeInt32 n) = .ok n := by
  have hint : (FetchState.astypeInt32 n).toInt = n := by
    rw [FetchState.astypeInt32, Int32.toInt_ofInt]
    have hlt : (n : ℤ) < 2 ^ 31 := by rw [FitsCount] at h; omega
    exact Word.toSigned_of_range (w := 31) (by omega) hlt
  have hneg : ¬ FetchState.astypeInt32 n < 0 := by
    rw [Int32.lt_iff_toInt_lt, hint]
    exact not_lt.2 (Int.natCast_nonneg n)
  rw [resize, if_neg hneg, hint, Int.toNat_natCast]
  rfl

theorem astypeInt32_ne_zero {n : ℕ} (h : FitsCount n) (hn : n ≠ 0) :
    FetchState.astypeInt32 n ≠ 0 := by
  intro h0
  have := resize_astypeInt32 h
  rw [h0] at this
  cases this
  exact hn rfl

/-! ## The header -/

section
variable (market : Market) (today : Int32) (stocks prevLimits : List Int32)

/-- The header as it is written. -/
def writtenHeader : DailyHeader where
  fileVersion := 250722
  today := today
  marketID := market.id
  stockCount := FetchState.astypeInt32 stocks.length
  prevLimitUpCount := FetchState.astypeInt32 prevLimits.length
  factorCount := FetchState.astypeInt32 kMaxFactors
  factorDtypeSize := 8

theorem check_writtenHeader (h : FetchState.astypeInt32 stocks.length ≠ 0) :
    (writtenHeader market today stocks prevLimits).check market today = .ok () := by
  have hcount : FetchState.astypeInt32 kMaxFactors = Int32.ofNat kMaxFactors := by decide
  have hsize : (8 : Int32) = Int32.ofNat sizeofScalar := by decide
  simp only [DailyHeader.check, writtenHeader, hcount, ← hsize, ne_eq, not_true_eq_false, if_false,
    h]
  rfl

/-- The header of a file is read, with what follows it. -/
theorem parseDailyConfig_header (date : Int32) (rest : List UInt8) :
    parseDailyConfig market date
      (DailyHeader.codec.encode (FetchState.config market today stocks prevLimits) ++ rest) =
    (do
      (writtenHeader market today stocks prevLimits).check market date
      readArrays (writtenHeader market today stocks prevLimits) ⟨rest, false⟩) := by
  have hlen : (List.replicate DailyHeader.codec.width (0 : UInt8)).length =
      (DailyHeader.codec.encode (FetchState.config market today stocks prevLimits)).length := by
    rw [List.length_replicate, DailyHeader.codec.length_encode]
  rw [parseDailyConfig, IStream.read_append _ _ hlen]
  simp only [DailyHeader.codec.decode_encode]
  rfl

end

/-! ## Arrays -/

section
variable {α : Type} {c : FixedCodec α} {message : String}

theorem throws_readArray_of_bad {bin : IStream} {size : ℕ}
    (h : (bin.readList c size).2.bad = true) : Throws (readArray bin c size message) := by
  refine ⟨message, ?_⟩
  rw [readArray, IStream.good, h]
  rfl

theorem readArray_encodeList (l : List α) (rest : List UInt8) :
    readArray ⟨c.encodeList l ++ rest, false⟩ c l.length message = .ok (l, ⟨rest, false⟩) := by
  rw [readArray, IStream.readList_encodeList]
  rfl

/-- The array of a file that was cut is not there, or what follows it was cut. -/
theorem throws_readArray_take {β : Type} {l : List α} {rest : List UInt8} {k : ℕ}
    {f : List α × IStream → Except String β}
    (h : ∀ m, k = (c.encodeList l).length + m → Throws (f (l, ⟨rest.take m, false⟩))) :
    Throws (readArray ⟨(c.encodeList l ++ rest).take k, false⟩ c l.length message >>= f) := by
  rcases IStream.readList_take c l rest k with hbad | ⟨m, hm, hread⟩
  · exact (throws_readArray_of_bad hbad).bind_left f
  · rw [readArray, hread]
    exact h m hm

end

/-- **A stream that is bad after the header is noticed.** -/
theorem readArrays_of_bad (header : DailyHeader) {bin : IStream} (h : bin.bad = true) :
    Throws (readArrays header bin) := by
  refine Throws.bind fun size _ => Throws.bind_left ?_ _
  exact throws_readArray_of_bad (IStream.bad_readList_of_bad h size)

theorem parseDailyConfig_of_bad {market : Market} {date : Int32} {file : List UInt8}
    (h : (IStream.read ⟨file, false⟩
      (List.replicate DailyHeader.codec.width 0)).2.bad = true) :
    Throws (parseDailyConfig market date file) :=
  Throws.bind fun _ _ => readArrays_of_bad _ h

/-! ## Files -/

section
variable {market : Market} {today : Int32} {stocks prevLimits : List Int32}
  {factors : List FactorList}

/-- The arrays of a file. -/
def arrays (stocks prevLimits : List Int32) (factors : List FactorList) : List UInt8 :=
  FixedCodec.int32.encodeList stocks ++
    (FixedCodec.int32.encodeList prevLimits ++ factorListCodec.encodeList factors)

theorem readArrays_arrays (hs : FitsCount stocks.length) (hp : FitsCount prevLimits.length)
    (hf : factors.length = stocks.length) :
    readArrays (writtenHeader market today stocks prevLimits)
      ⟨arrays stocks prevLimits factors, false⟩ = .ok ⟨stocks, prevLimits, factors⟩ := by
  have hfactors : ∀ message, readArray ⟨factorListCodec.encodeList factors ++ [], false⟩
      factorListCodec factors.length message = .ok (factors, ⟨[], false⟩) := fun message =>
    readArray_encodeList factors []
  simp only [List.append_nil, hf] at hfactors
  simp only [readArrays, writtenHeader, resize_astypeInt32 hs, resize_astypeInt32 hp, arrays,
    readArray_encodeList, hfactors, bind, Except.bind, pure, Except.pure]

/-- **Arrays that were cut are noticed.** -/
theorem readArrays_take (hs : FitsCount stocks.length) (hp : FitsCount prevLimits.length)
    (hf : factors.length = stocks.length) {k : ℕ}
    (hk : k < (arrays stocks prevLimits factors).length) :
    Throws (readArrays (writtenHeader market today stocks prevLimits)
      ⟨(arrays stocks prevLimits factors).take k, false⟩) := by
  rw [arrays, List.length_append, List.length_append] at hk
  simp only [readArrays, writtenHeader, resize_astypeInt32 hs, resize_astypeInt32 hp]
  refine throws_readArray_take fun m hm => ?_
  refine throws_readArray_take fun m' hm' => ?_
  -- the rest is less than the factors
  refine (throws_readArray_of_bad (IStream.bad_readList_of_lt ?_)).bind_left _
  rw [← hf, ← factorListCodec.length_encodeList]
  refine lt_of_le_of_lt (List.length_take_le m' _) ?_
  omega

/-- **The reader gets what was written.** -/
theorem parseDailyConfig_file (hne : stocks ≠ []) (hs : FitsCount stocks.length)
    (hp : FitsCount prevLimits.length) (hf : factors.length = stocks.length) :
    parseDailyConfig market today (FetchState.file market today stocks prevLimits factors) =
      .ok ⟨stocks, prevLimits, factors⟩ := by
  have hcount := astypeInt32_ne_zero hs (List.length_pos_iff.2 hne).ne'
  rw [FetchState.file, parseDailyConfig_header, check_writtenHeader _ _ _ _ hcount]
  exact readArrays_arrays hs hp hf

/-- A count that is read as a negative one is rejected. -/
theorem parseDailyConfig_of_neg (h : FetchState.astypeInt32 stocks.length < 0) :
    parseDailyConfig market today (FetchState.file market today stocks prevLimits factors) =
      .error "vector::_M_default_append" := by
  have hcount : FetchState.astypeInt32 stocks.length ≠ 0 := by
    intro h0
    rw [h0] at h
    exact absurd h (by decide)
  have harrays : ∀ bin, readArrays (writtenHeader market today stocks prevLimits) bin =
      .error "vector::_M_default_append" := by
    intro bin
    rw [readArrays, writtenHeader, resize, if_pos h]
    rfl
  rw [FetchState.file, parseDailyConfig_header, check_writtenHeader _ _ _ _ hcount]
  exact harrays _

/-- **A file that was cut is rejected.** -/
theorem parseDailyConfig_take (hne : stocks ≠ []) (hs : FitsCount stocks.length)
    (hp : FitsCount prevLimits.length) (hf : factors.length = stocks.length) {k : ℕ}
    (hk : k < (FetchState.file market today stocks prevLimits factors).length) :
    Throws (parseDailyConfig market today
      ((FetchState.file market today stocks prevLimits factors).take k)) := by
  have hcount := astypeInt32_ne_zero hs (List.length_pos_iff.2 hne).ne'
  have hwidth := DailyHeader.codec.length_encode (FetchState.config market today stocks prevLimits)
  rw [FetchState.file, List.length_append] at hk
  rcases lt_or_ge k DailyHeader.codec.width with hlt | hge
  · -- the header was cut: the stream is bad, whatever the header is taken for
    refine parseDailyConfig_of_bad (IStream.bad_read_of_lt ?_)
    rw [List.length_replicate]
    exact lt_of_le_of_lt (List.length_take_le k _) hlt
  · rw [FetchState.file, List.take_append, hwidth, List.take_of_length_le (by omega),
      parseDailyConfig_header, check_writtenHeader _ _ _ _ hcount]
    exact readArrays_take hs hp hf (by rw [arrays]; omega)

/-- **The daily factor file.**  With less than 2^31 codes in each list, what is
    written is read back, and each part of it, from the front, is rejected. -/
theorem dailyFile_codec (market : Market) (today : Int32) {stocks prevLimits : List Int32}
    {factors : List FactorList} (hne : stocks ≠ []) (hs : stocks.length < 2 ^ 31)
    (hp : prevLimits.length < 2 ^ 31) (hf : factors.length = stocks.length) :
    parseDailyConfig market today (FetchState.file market today stocks prevLimits factors) =
        .ok ⟨stocks, prevLimits, factors⟩ ∧
      ∀ k < (FetchState.file market today stocks prevLimits factors).length,
        ∃ message, parseDailyConfig market today
          ((FetchState.file market today stocks prevLimits factors).take k) = .error message :=
  ⟨parseDailyConfig_file hne hs hp hf, fun _ hk => parseDailyConfig_take hne hs hp hf hk⟩

end

/-- Two stocks with rows of their own, and a stock that was at the limit the day before. -/
theorem dailyFile_codec_two :
    let stocks : List Int32 := [300750, 1]
    let factors : List FactorList := [Vector.ofFn fun i => 0x3FF0000000000000 + UInt64.ofNat i.val,
      Vector.ofFn fun i => 0x7FF8000000000000 - UInt64.ofNat i.val]
    parseDailyConfig .SZ 20250102 (FetchState.file .SZ 20250102 stocks [1] factors) =
        .ok ⟨stocks, [1], factors⟩ ∧
      ∀ k < (FetchState.file .SZ 20250102 stocks [1] factors).length,
        ∃ message, parseDailyConfig .SZ 20250102
          ((FetchState.file .SZ 20250102 stocks [1] factors).take k) = .error message := by
  intro stocks factors
  exact dailyFile_codec .SZ 20250102 (List.cons_ne_nil _ _) (by simp [stocks]) (by norm_num) rfl

/-- The count of 2^31 codes is read as a negative one. -/
theorem not_dailyFile_codec_long :
    let stocks : List Int32 := List.replicate (2 ^ 31) 1
    let factors : List FactorList := List.replicate (2 ^ 31) (Vector.replicate kMaxFactors 0)
    stocks ≠ [] ∧ factors.length = stocks.length ∧
      parseDailyConfig .SZ 20250102 (FetchState.file .SZ 20250102 stocks [] factors) =
        .error "vector::_M_default_append" := by
  intro stocks factors
  have hlen : stocks.length = 2 ^ 31 := List.length_replicate
  refine ⟨?_, ?_, parseDailyConfig_of_neg ?_⟩
  · intro h
    rw [h] at hlen
    norm_num at hlen
  · rw [hlen]
    exact List.length_replicate
  · rw [hlen]
    decide

end Mdd2
