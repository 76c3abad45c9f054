/-
  The end sign, from `StockState::stop` to `StockCompute::onTick`.

  The time field of the end sign carries the limit-up time with the intent in
  its last digit.  `stop_logged_iff` says, build by build, for which times the
  two ends agree: the Shenzhen and replay builds lose the milliseconds, and the
  OST Shanghai build decodes what it did not encode.  A code of six digits is read
  back in every build (`tickStockCode_endSign`).
-/
import Mdd2.MDD
import Mdd2.Proof.Protocol
import Mdd2.StockCompute

namespace Mdd2

namespace StockState

/-! ## The security code -/

theorem digit_of_mem_leftpad {n m : ℕ} {d : Char}
    (h : d ∈ List.leftpad n '0' (Nat.toDigits 10 m)) : 48 ≤ d.toNat ∧ d.toNat ≤ 57 := by
  have hdigit : d.isDigit := by
    rcases List.mem_append.1 h with h | h
    · rw [List.eq_of_mem_replicate h]; rfl
    · exact Nat.isDigit_of_mem_toDigits (by decide) (by decide) h
  simpa [Char.isDigit, UInt32.le_iff_toNat_le] using hdigit

/-- The digits written, without the terminating zero. -/
theorem mem_securityID {stockCode : Int32} {c : BitVec 8}
    (h : c ∈ (securityID stockCode).dropLast) : c.toNat ≤ '9'.toNat ∧ c ≠ 0 := by
  have hbyte : ∀ d : Char, 48 ≤ d.toNat ∧ d.toNat ≤ 57 →
      (BitVec.ofNat 8 d.toNat).toNat ≤ '9'.toNat ∧ BitVec.ofNat 8 d.toNat ≠ 0 := by
    rintro d ⟨h1, h2⟩
    have hn : (BitVec.ofNat 8 d.toNat).toNat = d.toNat := Nat.mod_eq_of_lt (by omega)
    exact ⟨by rw [hn]; exact h2, fun h0 => by rw [h0] at hn; simp at hn; omega⟩
  simp only [securityID, List.dropLast_concat, List.mem_map] at h
  obtain ⟨d, hd, rfl⟩ := h
  split_ifs at hd
  · rcases List.mem_cons.1 hd with rfl | hd
    · decide
    · exact hbyte d (digit_of_mem_leftpad hd)
  · exact hbyte d (digit_of_mem_leftpad hd)

theorem length_securityID_le (stockCode : Int32) : (securityID stockCode).length ≤ 12 := by
  have hcode : stockCode.toInt.natAbs < 10 ^ 10 := by
    have h1 := stockCode.le_toInt
    have h2 := stockCode.toInt_lt
    omega
  have hlen := Nat.toDigits_length 10 _ 10 (by decide) hcode
  simp only [securityID, List.length_append, List.length_map, List.length_singleton]
  split_ifs <;> simp only [List.length_cons, List.length_leftpad] <;> omega

theorem getD_securityID {stockCode : Int32} (h : (securityID stockCode).length ≤ 10) :
    (securityID stockCode)[9]?.getD 0 = 0 := by
  simp only [securityID, List.length_append, List.length_singleton] at h ⊢
  rw [List.getElem?_append_right (by omega)]
  cases 9 - _ <;> rfl

theorem getD_mem_securityID {stockCode : Int32} (h : ¬ (securityID stockCode).length ≤ 10) :
    (securityID stockCode)[9]?.getD 0 ∈ (securityID stockCode).dropLast := by
  rw [List.getElem?_eq_getElem (by omega), Option.getD_some,
    ← List.getElem_dropLast (by rw [List.length_dropLast]; omega)]
  exact List.getElem_mem _

/-! ## Codes of six digits -/

/-- The codes that `%06d` writes in six digits. -/
def SixDigits (stockCode : Int32) : Prop := 0 ≤ stockCode.toInt ∧ stockCode.toInt < 1000000

instance (stockCode : Int32) : Decidable (SixDigits stockCode) := instDecidableAnd

/-- The digits that `%06d` writes. -/
def sixDigits (stockCode : Int32) : List Char :=
  List.leftpad 6 '0' (Nat.toDigits 10 stockCode.toInt.natAbs)

section
variable {stockCode : Int32} (h : SixDigits stockCode)
include h

theorem length_sixDigits : (sixDigits stockCode).length = 6 := by
  obtain ⟨hnonneg, hlt⟩ := h
  have hcode : stockCode.toInt.natAbs < 10 ^ 6 := by omega
  have hlen := Nat.toDigits_length 10 _ 6 (by decide) hcode
  rw [sixDigits, List.length_leftpad]
  omega

theorem securityID_eq : securityID stockCode =
    (sixDigits stockCode).map (fun c => BitVec.ofNat 8 c.toNat) ++ [0] := by
  rw [securityID, if_neg (not_lt.2 h.1), sixDigits]

/-- **Six digits are read back.** -/
theorem atou6_sixDigits {s : Fin 6 → ℤ}
    (hs : ∀ k : Fin 6, ∀ c, (sixDigits stockCode)[(k : ℕ)]? = some c → s k = c.toNat) :
    atou6 s = stockCode := by
  have hvalue : Nat.ofDigitChars 10 (sixDigits stockCode) 0 = stockCode.toInt.natAbs := by
    rw [sixDigits, List.leftpad, Nat.ofDigitChars_append, Nat.ofDigitChars_replicate_zero,
      Nat.mul_zero, Nat.ofDigitChars_ten_toDigits]
  obtain ⟨a, b, c, d, e, f, hl⟩ : ∃ a b c d e f, sixDigits stockCode = [a, b, c, d, e, f] := by
    have hlen := length_sixDigits h
    match hl : sixDigits stockCode, hlen with
    | [a, b, c, d, e, f], _ => exact ⟨a, b, c, d, e, f, rfl⟩
  have hdigit : ∀ x ∈ [a, b, c, d, e, f], 48 ≤ x.toNat ∧ x.toNat ≤ 57 := fun x hx =>
    digit_of_mem_leftpad (show x ∈ sixDigits stockCode from hl ▸ hx)
  simp only [List.forall_mem_cons] at hdigit
  rw [hl] at hvalue
  simp only [Nat.ofDigitChars_cons, Nat.ofDigitChars_nil] at hvalue
  have h0 := hs 0 a (by rw [hl]; rfl)
  have h1 := hs 1 b (by rw [hl]; rfl)
  have h2 := hs 2 c (by rw [hl]; rfl)
  have h3 := hs 3 d (by rw [hl]; rfl)
  have h4 := hs 4 e (by rw [hl]; rfl)
  have h5 := hs 5 f (by rw [hl]; rfl)
  have hzero : '0'.toNat = 48 := rfl
  rw [atou6, h0, h1, h2, h3, h4, h5, hzero]
  rw [hzero] at hvalue
  obtain ⟨hnonneg, -⟩ := h
  have hsum : 100000 * ((a.toNat : ℤ) - (48 : ℕ)) + 10000 * ((b.toNat : ℤ) - (48 : ℕ)) +
      1000 * ((c.toNat : ℤ) - (48 : ℕ)) + 100 * ((d.toNat : ℤ) - (48 : ℕ)) +
      10 * ((e.toNat : ℤ) - (48 : ℕ)) + ((f.toNat : ℤ) - (48 : ℕ)) = stockCode.toInt := by omega
  rw [hsum, Int32.ofInt_toInt]

/-- A live record with the code at an offset. -/
theorem securityId_of_field {m : Image} {off : ℕ}
    (hm : ∀ k (hk : k < (securityID stockCode).length),
      Packed.field m (off + k) 1 = (securityID stockCode)[k]) :
    Image.securityId m off = stockCode := by
  refine atou6_sixDigits h fun k c hc => ?_
  obtain ⟨hlt, hget⟩ := List.getElem?_eq_some_iff.1 hc
  have heq := securityID_eq h
  have hk : (k : ℕ) < (securityID stockCode).length := by
    rw [heq, List.length_append, List.length_map]
    omega
  have hbyte : (securityID stockCode)[(k : ℕ)] = BitVec.ofNat 8 c.toNat := by
    simp only [heq]
    rw [List.getElem_append_left (by simpa using hlt), List.getElem_map, hget]
  obtain ⟨h48, h57⟩ := digit_of_mem_leftpad (List.mem_of_getElem? hc)
  rw [Image.unsigned, hm k hk, hbyte, BitVec.toNat_ofNat, Nat.mod_eq_of_lt (by omega),
    Word.toSigned_of_range (by omega) (by omega)]

/-- **An end sign has the code of its stock, in every build.** -/
theorem tickStockCode_endSign (b : Build) (timestamp : ℤ) :
    tickStockCode b (endSign b stockCode timestamp) = stockCode := by
  have hlen : (securityID stockCode).length = 7 := by
    rw [securityID_eq h, List.length_append, List.length_map, length_sixDigits h]; rfl
  rcases b with m | ⟨_ | _⟩ | ⟨_ | _⟩
  · rfl
  all_goals
    refine securityId_of_field h fun k hk => ?_
    simp only [endSign]
    repeat rw [Packed.field_setField_of_disjoint _ _ (by omega)]
    exact Packed.field_setBytes _ _ _ _ hk (by omega)

end

/-! ## Reading the end sign -/

section
variable (code : Int32) (n : ℕ)

/-- The tick type of an NE Shanghai end sign is the byte after the code, if that
    code is one character too long. -/
theorem tickType_endSign : TickMergeSse.tickType (endSign (.ne .SH) code n) =
    (((securityID code)[9]?).getD 0).toNat := by
  have hlen := length_securityID_le code
  simp only [TickMergeSse.tickType, Image.unsigned, endSign]
  rw [Packed.field_setField_of_disjoint _ _ (by omega),
    Packed.field_setField_of_disjoint _ _ (by omega)]
  by_cases h : 9 < (securityID code).length
  · rw [Packed.field_setBytes _ _ 6 9 h (by omega), List.getElem?_eq_getElem h]; rfl
  · rw [Packed.field_setBytes_of_disjoint _ _ _ (by omega), Packed.field_setField _ _ (by omega),
      List.getElem?_eq_none (by omega)]; rfl

theorem tickTime_endSign : TickMergeSse.tickTime (endSign (.ne .SH) code n) = n / 10 % 2 ^ 32 := by
  simp only [TickMergeSse.tickTime, Image.unsigned, endSign]
  rw [Packed.field_setField_of_disjoint _ _ (by omega), Packed.field_setField _ _ (by omega)]
  rw [show (10 : ℤ) = (10 : ℕ) from rfl, ← Int.ofNat_tdiv, BitVec.ofInt_natCast,
    BitVec.toNat_ofNat]

theorem tickBSFlag_endSign : TickMergeSse.tickBSFlag (endSign (.ne .SH) code n) = n % 10 := by
  simp only [TickMergeSse.tickBSFlag, Image.unsigned, endSign]
  rw [Packed.field_setField _ _ (by omega)]
  rw [show (10 : ℤ) = (10 : ℕ) from rfl, ← Int.ofNat_tmod]
  simp; omega

theorem endSign_neSz : neMessageType (endSign (.ne .SZ) code n) = 0 ∧
    TradeSz.transactTime (endSign (.ne .SZ) code n) = n % 2 ^ 64 := by
  simp only [neMessageType, TradeSz.transactTime, Image.unsigned, endSign]
  rw [Packed.field_setField _ _ (by omega), Packed.field_setField_of_disjoint _ _ (by omega),
    Packed.field_setBytes_of_disjoint _ _ _ (by omega), Packed.field_setField _ _ (by omega)]
  simp

theorem endSign_ostSz : SzeHpfPktHead64.messageType (endSign (.ost .SZ) code n) = 0 ∧
    SzeHpfPktHead64.quoteUpdateTime (endSign (.ost .SZ) code n) = n % 2 ^ 64 := by
  simp only [SzeHpfPktHead64.messageType, SzeHpfPktHead64.quoteUpdateTime, Image.unsigned, endSign]
  rw [Packed.field_setField _ _ (by omega), Packed.field_setField_of_disjoint _ _ (by omega),
    Packed.field_setBytes_of_disjoint _ _ _ (by omega), Packed.field_setField _ _ (by omega)]
  simp

/-- The OST Shanghai end sign sets no side flag. -/
theorem endSign_ostSh : SseHpfTick64.tickType (endSign (.ost .SH) code n) = 0 ∧
    SseHpfTick64.tickTime (endSign (.ost .SH) code n) = n % 2 ^ 32 ∧
    SseHpfTick64.sideFlag (endSign (.ost .SH) code n) = 0 := by
  have hlen := length_securityID_le code
  simp only [SseHpfTick64.tickType, SseHpfTick64.tickTime, SseHpfTick64.sideFlag, Image.unsigned,
    endSign]
  rw [Packed.field_setField _ _ (by omega), Packed.field_setField_of_disjoint _ _ (by omega),
    Packed.field_setField_of_disjoint _ _ (by omega),
    Packed.field_setBytes_of_disjoint _ _ _ (by omega),
    Packed.field_setBytes_of_disjoint _ _ _ (by omega), Packed.field_setField _ _ (by omega),
    Packed.field_setField_of_disjoint _ _ (by omega)]
  exact ⟨rfl, by simp, by simp [Packed.field]⟩

end

end StockState

/-! ## Agreement -/

open StockState

theorem WantCache.Intent.toInt_range (intent : WantCache.Intent) :
    0 ≤ intent.toInt ∧ intent.toInt ≤ 2 := by
  cases intent <;> decide

/-- The times whose end sign is read back exactly, with every intent. -/
def EndSignExact (b : Build) (stockCode : Int32) (timestamp : ℤ) : Prop :=
  match b with
  | .replay _ | .ne .SZ | .ost .SZ => timestamp % 10 = 0
  | .ne .SH => (securityID stockCode).length ≤ 10
  | .ost .SH => False

section
variable {t : ℕ} {i : ℕ}

theorem dispatchSz_endSign_iff {typeTrade typeOrder execType : ℕ} (ht : t < 145700000)
    (hi : i ≤ 2) :
    dispatchSz typeTrade typeOrder 0 execType ((t + i) % 2 ^ 64) = some (.logLimitUp t i) ↔
      t % 10 = 0 := by
  rw [Nat.mod_eq_of_lt (by omega), dispatchSz, if_pos rfl,
    Word.toSigned_of_range (by omega) (by omega)]
  simp only [Option.some.injEq, Call.logLimitUp.injEq]
  omega

theorem dispatchSh_zero {tickTime bsFlag : ℕ} (htime : tickTime ≤ 145700001) (hflag : bsFlag ≤ 9) :
    dispatchSh 0 tickTime bsFlag = some (.logLimitUp (tickTime * 10) bsFlag) := by
  have hu : (Word.toUnsigned 32 (tickTime * 10) : ℤ) = tickTime * 10 :=
    Word.toUnsigned_of_range (by omega) (by omega)
  rw [dispatchSh, if_pos rfl, hu, Word.toSigned_of_range (by omega) (by omega),
    Word.toSigned_of_range (by omega) (by omega)]

/-- A byte of the code in the place of the tick type is no tick type. -/
theorem dispatchSh_digit {tickType tickTime bsFlag : ℕ} (h0 : tickType ≠ 0)
    (h9 : tickType ≤ '9'.toNat) : dispatchSh tickType tickTime bsFlag = none := by
  have h9' : tickType ≤ 57 := h9
  rw [dispatchSh, if_neg h0, if_neg, if_neg, if_neg] <;> (rintro rfl; revert h9'; decide)

end

theorem dispatch_endSign_iff {b : Build} (code : Int32) {t i : ℕ} (ht : LimitUpTime b t)
    (hi : i ≤ 2) :
    dispatch b (endSign b code (t + i)) = some (.logLimitUp t i) ↔ EndSignExact b code t := by
  obtain ⟨hlo, hhi, hcoarse⟩ := ht
  rcases b with m | ⟨_ | _⟩ | ⟨_ | _⟩
  · simp only [dispatch, dispatchReplay, endSign, if_pos, Option.some.injEq,
      Call.logLimitUp.injEq, EndSignExact]
    rw [Int.tdiv_eq_ediv_of_nonneg (by omega), Int.tmod_eq_emod_of_nonneg (by omega)]
    omega
  · have h10 : (t : ℤ) % 10 = 0 := hcoarse (by simp)
    rw [← Nat.cast_add, dispatch, tickType_endSign, tickTime_endSign, tickBSFlag_endSign]
    rw [Nat.mod_eq_of_lt (by omega)]
    by_cases hlen : (securityID code).length ≤ 10
    · have hzero : ((securityID code)[9]?.getD 0).toNat = 0 := by rw [getD_securityID hlen]; rfl
      rw [hzero, dispatchSh_zero (by omega) (by omega)]
      simp only [EndSignExact, hlen, iff_true, Option.some.injEq, Call.logLimitUp.injEq]
      omega
    · obtain ⟨h9, h0⟩ := mem_securityID (getD_mem_securityID hlen)
      rw [dispatchSh_digit (fun h => h0 (BitVec.eq_of_toNat_eq h)) h9]
      simp [EndSignExact, hlen]
  · rw [← Nat.cast_add, dispatch, (endSign_neSz code _).1, (endSign_neSz code _).2]
    rw [dispatchSz_endSign_iff (by omega) hi]
    simp only [EndSignExact]; omega
  · rw [← Nat.cast_add, dispatch, (endSign_ostSh code _).1, (endSign_ostSh code _).2.1,
      (endSign_ostSh code _).2.2, Nat.mod_eq_of_lt (by omega),
      dispatchSh_zero (by omega) (by omega)]
    simp only [EndSignExact, Option.some.injEq, Call.logLimitUp.injEq, iff_false, not_and]
    omega
  · rw [← Nat.cast_add, dispatch, (endSign_ostSz code _).1, (endSign_ostSz code _).2]
    rw [dispatchSz_endSign_iff (by omega) hi]
    simp only [EndSignExact]; omega

variable {R : Type}

/-- **The end sign is logged with its time and intent exactly if the time is one
    of `EndSignExact`**, whatever the intent. -/
theorem stop_logged_iff {b : Build} {s : StockState} (hs : s.alive) {c : StockCompute R}
    (hc : c.alive) {t : ℤ} (ht : LimitUpTime b t) (intent : WantCache.Intent) :
    ∃ tick, (s.stop b (t + intent.toInt)).2 = [.pushTick tick] ∧
      (c.calls b tick = some (.logLimitUp t intent.toInt) ↔ EndSignExact b s.stockCode t) := by
  refine ⟨_, by rw [StockState.stop, if_pos hs], ?_⟩
  obtain ⟨n, rfl⟩ := Int.eq_ofNat_of_zero_le (show 0 ≤ t by have := ht.le; omega)
  obtain ⟨h0, h2⟩ := intent.toInt_range
  obtain ⟨i, hi⟩ := Int.eq_ofNat_of_zero_le h0
  rw [StockCompute.calls, if_pos hc, hi]
  exact dispatch_endSign_iff s.stockCode ht (by omega)

theorem stop_logged_replay : ∃ tick,
    (StockState.stop (.replay .SZ) { stockCode := 1, alive := true } (93000120 + 1)).2 =
      [.pushTick tick] ∧
    ((({ alive := true } : StockCompute ℚ).calls (.replay .SZ) tick =
      some (.logLimitUp 93000120 1)) ↔ EndSignExact (.replay .SZ) 1 93000120) :=
  stop_logged_iff rfl rfl ⟨by decide, by decide, by decide⟩ .DontBuy

/-- A replay limit-up tick 3 ms after a multiple of 10 ms is logged 3 ms early,
    with a number that is no intent; an OST Shanghai one at another time. -/
theorem stop_logged_wrong :
    LimitUpTime (.replay .SZ) 93000123 ∧
    (∃ tick, (StockState.stop (.replay .SZ) { stockCode := 1, alive := true }
        (93000123 + WantCache.Intent.DontBuy.toInt)).2 = [.pushTick tick] ∧
      ({ alive := true } : StockCompute ℚ).calls (.replay .SZ) tick =
        some (.logLimitUp 93000120 4)) ∧
    LimitUpTime (.ost .SH) 93000120 ∧
    ∃ tick, (StockState.stop (.ost .SH) { stockCode := 600000, alive := true }
        (93000120 + WantCache.Intent.DontBuy.toInt)).2 = [.pushTick tick] ∧
      ({ alive := true } : StockCompute ℚ).calls (.ost .SH) tick =
        some (.logLimitUp 930001210 0) :=
  ⟨⟨by decide, by decide, by decide⟩, ⟨_, rfl, by decide⟩, ⟨by decide, by decide, by decide⟩,
    ⟨_, rfl, by decide +kernel⟩⟩

end Mdd2
