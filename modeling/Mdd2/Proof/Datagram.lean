/-
  Which datagrams `process_packet` gets right.

  It advances over an order by 8 bytes and over a trade by 16, since it shifts by
  the type minus 20; their sizes are 64 and 72.

  * `delivers_iff`: the records of a payload are delivered only if there are none;
  * `finishes_of_clean`, `clean_of_finishes`: the loop ends, and reads type bytes
    inside of the payload, if and only if the bytes it comes to are 20..50;
  * `datagram_iff` is both.
-/
import Mdd2.Ostmd

namespace Mdd2

namespace Ostmd

/-- The call passes on exactly the records, in order, and returns. -/
def Delivers (records : List Record) : Prop :=
  ∃ rounds, processPacket rounds (concat records) = (pointers 0 records, .finished)

/-- The call returns, and has read type bytes inside of the payload only. -/
def Finishes (payload : List UInt8) : Prop :=
  ∃ rounds, (processPacket rounds payload).2 = .finished

/-- The positions reached from a position over the types 20..50. -/
inductive VisitedFrom (payload : List UInt8) : ℤ → ℤ → Prop
  | refl (data : ℤ) : VisitedFrom payload data data
  | step {data data' : ℤ} (type : UInt8) :
      messageType payload data = some type → 20 ≤ type.toNat → type.toNat ≤ 50 →
      data + 2 ^ (type.toNat - 20) + sizeofOrder ≤ payload.length →
      VisitedFrom payload (data + 2 ^ (type.toNat - 20)) data' → VisitedFrom payload data data'

/-- The type bytes that the loop comes to are 20..50. -/
def Clean (payload : List UInt8) : Prop :=
  sizeofOrder ≤ payload.length → ∀ data, VisitedFrom payload 0 data →
    ∃ type, messageType payload data = some type ∧ 20 ≤ type.toNat ∧ type.toNat ≤ 50

/-! ## Strides -/

theorem stride_of_le {type : UInt8} (hlo : 20 ≤ type.toNat) (hhi : type.toNat ≤ 50) :
    stride type = some (2 ^ (type.toNat - 20)) := by
  have hamount : ((type.toNat : ℤ) - (sze_msg_type_order - 3)) = (type.toNat - 20 : ℕ) := by
    rw [sze_msg_type_order]
    omega
  have hpow : (2 : ℤ) ^ (type.toNat - 20) < 2 ^ 31 := pow_lt_pow_right₀ (by norm_num) (by omega)
  have hpos : (0 : ℤ) < 2 ^ (type.toNat - 20) := by positivity
  rw [stride, shiftOne, hamount, if_pos (by omega), Int.toNat_natCast,
    Word.toSigned_of_range (by omega) hpow]

/-- The other types either have no stride, or go back. -/
theorem stride_eq_some {type : UInt8} {n : ℤ} (h : stride type = some n) :
    (20 ≤ type.toNat ∧ type.toNat ≤ 50) ∨ n = -2 ^ 31 := by
  rw [stride, shiftOne] at h
  split_ifs at h with hrange
  rw [sze_msg_type_order] at hrange
  rcases Nat.lt_or_ge type.toNat 51 with hlt | hge
  · exact .inl ⟨by omega, by omega⟩
  · right
    have hamount : ((type.toNat : ℤ) - (sze_msg_type_order - 3)).toNat = 31 := by
      rw [sze_msg_type_order]
      omega
    rw [hamount] at h
    rw [← Option.some.inj h]
    rfl

theorem lt_of_messageType {payload : List UInt8} {data : ℤ} {type : UInt8}
    (h : messageType payload data = some type) : 0 ≤ data + 8 ∧ data + 8 < payload.length := by
  rw [messageType, byteAt, offsetofMessageType] at h
  split_ifs at h with hnonneg
  obtain ⟨hlt, -⟩ := List.getElem?_eq_some_iff.1 h
  push_cast at hnonneg hlt
  omega

/-! ## Arbitrary payloads -/

theorem finishes_of_clean_from {payload : List UInt8} (k : ℕ) (data : ℤ)
    (hk : payload.length - data ≤ k)
    (h : ∀ data', VisitedFrom payload data data' →
      ∃ type, messageType payload data' = some type ∧ 20 ≤ type.toNat ∧ type.toNat ≤ 50) :
    ∃ rounds, (processLoop payload (payload.length - sizeofOrder + 1) rounds data).2 =
      .finished := by
  induction k generalizing data with
  | zero =>
    obtain ⟨type, ht, -, -⟩ := h data (.refl data)
    have := lt_of_messageType ht
    omega
  | succ k ih =>
    obtain ⟨type, ht, hlo, hhi⟩ := h data (.refl data)
    by_cases hend : data + 2 ^ (type.toNat - 20) ≥ payload.length - sizeofOrder + 1
    · exact ⟨1, by simp only [processLoop, ht, stride_of_le hlo hhi, if_pos hend]⟩
    · have hpos : (0 : ℤ) < 2 ^ (type.toNat - 20) := by positivity
      obtain ⟨rounds, hrounds⟩ := ih (data + 2 ^ (type.toNat - 20)) (by omega) fun data' hd =>
        h data' (.step type ht hlo hhi (by omega) hd)
      exact ⟨rounds + 1, by simp only [processLoop, ht, stride_of_le hlo hhi, if_neg hend, hrounds]⟩

theorem finishes_of_clean {payload : List UInt8} (h : Clean payload) : Finishes payload := by
  by_cases hlen : payload.length < sizeofOrder
  · exact ⟨0, by rw [processPacket, if_pos hlen]⟩
  · obtain ⟨rounds, hrounds⟩ := finishes_of_clean_from payload.length 0 (by omega)
      (h (by omega))
    exact ⟨rounds, by rw [processPacket, if_neg hlen, hrounds]⟩

/-- **A loop that ends has come to types 20..50 only**: the type 51 goes back by
    2^31 bytes, out of the payload, and the others have no stride. -/
theorem clean_of_finishes_from {payload : List UInt8} (hlen : payload.length < 2 ^ 31)
    {rounds : ℕ} {data : ℤ} (hdata : data + sizeofOrder ≤ payload.length)
    (h : (processLoop payload (payload.length - sizeofOrder + 1) rounds data).2 = .finished)
    {data' : ℤ} (hv : VisitedFrom payload data data') :
    ∃ type, messageType payload data' = some type ∧ 20 ≤ type.toNat ∧ type.toNat ≤ 50 := by
  induction rounds generalizing data with
  | zero => cases h
  | succ rounds ih =>
    rw [processLoop] at h
    split at h
    · cases h
    · rename_i type ht
      split at h
      · cases h
      · rename_i n hn
        rcases stride_eq_some hn with ⟨hlo, hhi⟩ | rfl
        · have hstride := stride_of_le hlo hhi
          rw [hstride] at hn
          cases hv with
          | refl => exact ⟨type, ht, hlo, hhi⟩
          | step type' ht' hlo' hhi' hle hv' =>
            have htype : type = type' := Option.some.inj (ht.symm.trans ht')
            subst htype
            rw [← Option.some.inj hn, if_neg (by omega)] at h
            exact ih hle h hv'
        · -- the next type byte is before the payload
          have hsize : sizeofOrder = 64 := rfl
          rw [if_neg (by omega)] at h
          cases rounds with
          | zero => cases h
          | succ rounds =>
            have hnone : messageType payload (data + -2 ^ 31) = none := by
              rw [messageType, byteAt, if_neg]
              rw [offsetofMessageType]
              push_cast
              omega
            simp only [processLoop, hnone] at h
            cases h

theorem clean_of_finishes {payload : List UInt8} (hlen : payload.length < 2 ^ 31)
    (h : Finishes payload) : Clean payload := by
  intro hle data hv
  obtain ⟨rounds, hrounds⟩ := h
  rw [processPacket, if_neg (by omega)] at hrounds
  exact clean_of_finishes_from hlen (by omega) hrounds hv

/-! ## Records -/

theorem Record.messageType_of_append (r : Record) (rest : List UInt8) :
    ∃ type, messageType (r.bytes ++ rest) 0 = some type ∧
      ((r.bytes.length = 64 ∧ type.toNat = 23) ∨ (r.bytes.length = 72 ∧ type.toNat = 24)) := by
  have hlt : 8 < r.bytes.length := by
    rcases r.wf with ⟨h, -⟩ | ⟨h, -⟩ <;> rw [h] <;> decide
  have htype : messageType (r.bytes ++ rest) 0 = some r.bytes[8] := by
    show (r.bytes ++ rest)[8]? = _
    rw [List.getElem?_append_left hlt, List.getElem?_eq_getElem hlt]
  refine ⟨r.bytes[8], htype, ?_⟩
  rcases r.wf with ⟨h, ht⟩ | ⟨h, ht⟩
  · rw [offsetofMessageType, List.getElem?_eq_getElem hlt] at ht
    exact .inl ⟨h, Option.some.inj ht⟩
  · rw [offsetofMessageType, List.getElem?_eq_getElem hlt] at ht
    exact .inr ⟨h, Option.some.inj ht⟩

/-- The stride over a record is less than its size. -/
theorem Record.stride_of_append (r : Record) (rest : List UInt8) :
    ∃ type n, messageType (r.bytes ++ rest) 0 = some type ∧ stride type = some n ∧
      (r.bytes.length = 64 ∧ n = 8 ∨ r.bytes.length = 72 ∧ n = 16) := by
  obtain ⟨type, ht, ⟨hlen, htype⟩ | ⟨hlen, htype⟩⟩ := r.messageType_of_append rest
  · refine ⟨type, 8, ht, ?_, .inl ⟨hlen, rfl⟩⟩
    rw [stride_of_le (by omega) (by omega), htype]
    rfl
  · refine ⟨type, 16, ht, ?_, .inr ⟨hlen, rfl⟩⟩
    rw [stride_of_le (by omega) (by omega), htype]
    rfl

/-- What is delivered starts with the record at hand. -/
theorem head_processLoop {payload : List UInt8} {tail data data' : ℤ} {rounds : ℕ}
    (h : (processLoop payload tail rounds data).1.head? = some data') : data' = data := by
  cases rounds with
  | zero => cases h
  | succ rounds =>
    rw [processLoop] at h
    split at h
    · cases h
    · split at h
      · cases h
      · split at h
        · cases h
        · exact (Option.some.inj h).symm

/-- **The records of a payload are delivered only if there are none.** -/
theorem delivers_iff (records : List Record) : Delivers records ↔ records = [] := by
  constructor
  · rintro ⟨rounds, h⟩
    cases records with
    | nil => rfl
    | cons r records =>
      exfalso
      obtain ⟨type, n, ht, hn, hsize⟩ := r.stride_of_append (concat records)
      have hcons : concat (r :: records) = r.bytes ++ concat records := List.flatMap_cons
      have hlen : (concat (r :: records)).length = r.bytes.length + (concat records).length := by
        rw [hcons, List.length_append]
      have h64 : sizeofOrder = 64 := rfl
      rw [processPacket, if_neg (by omega)] at h
      cases rounds with
      | zero => cases congrArg Prod.fst h
      | succ rounds =>
        rw [hcons] at h
        simp only [processLoop, ht, hn] at h
        split_ifs at h with hend
        · -- a payload of one record
          cases congrArg Prod.fst h
        · cases records with
          | nil =>
            rw [show concat [] = [] from rfl, List.append_nil] at hend
            omega
          | cons r' records =>
            -- the second pointer is inside of the first record
            have hquotes := (List.cons.inj (congrArg Prod.fst h)).2
            have hhead := head_processLoop (congrArg List.head? hquotes)
            omega
  · rintro rfl
    exact ⟨0, rfl⟩

/-- **Datagrams.**  The call delivers the records of a payload exactly if there are
    none.  For a payload of any bytes it returns, and reads type bytes inside of it
    only, if the type bytes it comes to are 20..50; and only if they are, for
    payloads of less than 2^31 bytes. -/
theorem datagram_iff (records : List Record) (payload : List UInt8) :
    (Delivers records ↔ records = []) ∧ (Clean payload → Finishes payload) ∧
      (payload.length < 2 ^ 31 → Finishes payload → Clean payload) :=
  ⟨delivers_iff records, finishes_of_clean, clean_of_finishes⟩

/-- An order, empty but for its type. -/
def emptyOrder : Record where
  bytes := List.replicate 8 0 ++ [23] ++ List.replicate 55 0
  wf := .inl ⟨by decide, by decide⟩

theorem datagram_iff_empty :
    (Delivers [emptyOrder] ↔ [emptyOrder] = []) ∧ Clean emptyOrder.bytes := by
  obtain ⟨hdelivers, -, hclean⟩ := datagram_iff [emptyOrder] emptyOrder.bytes
  exact ⟨hdelivers, hclean (by simp [emptyOrder]) ⟨1, rfl⟩⟩

/-- A payload of one order is left without a delivery. -/
theorem not_delivers_order :
    (∀ rounds, processPacket (rounds + 1) (concat [emptyOrder]) = ([], .finished)) ∧
      ¬ Delivers [emptyOrder] := by
  have htype : messageType (concat [emptyOrder]) 0 = some 23 := by decide
  have hstride : stride 23 = some 8 := by decide
  have hlen : (concat [emptyOrder]).length = sizeofOrder := by decide
  have hloop : ∀ rounds, processPacket (rounds + 1) (concat [emptyOrder]) = ([], .finished) := by
    intro rounds
    rw [processPacket, hlen, if_neg (lt_irrefl _), sub_self]
    simp only [processLoop, htype, hstride]
    rfl
  refine ⟨hloop, ?_⟩
  rintro ⟨rounds, h⟩
  cases rounds with
  | zero => cases congrArg Prod.snd h
  | succ rounds =>
    rw [hloop] at h
    cases congrArg Prod.fst h

end Ostmd

end Mdd2
