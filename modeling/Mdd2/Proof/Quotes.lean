/-
  Datagrams of records of one size.

  `process_packet` hands on the records that fit into the payload, one after the
  other, and reads inside of them only.
-/
import Mdd2.Ostmd

namespace Mdd2

namespace Ostmd

namespace Quote

variable {q : Quote} {buffer : List UInt8} {len : ℕ}

/-- The record `i`, and what is read of it. -/
def record (q : Quote) (buffer : List UInt8) (i : ℕ) : ℤ × List UInt8 :=
  ((i * q.sizeof : ℕ), (buffer.drop (i * q.sizeof + q.readOffset)).take q.readLength)

theorem record_inside {i : ℕ} (hi : i < len / q.sizeof) : (i + 1) * q.sizeof ≤ len :=
  (Nat.le_div_iff_mul_le q.sizeof_pos).1 hi

theorem bytesAt_record {i : ℕ} (hi : i < len / q.sizeof) (hlen : len ≤ buffer.length) :
    bytesAt buffer ((i * q.sizeof : ℕ) + q.readOffset) q.readLength =
      some (record q buffer i).2 := by
  have hinside := record_inside hi
  have hread := q.read_inside
  rw [Nat.succ_mul] at hinside
  rw [bytesAt, ← Nat.cast_add, if_pos ⟨Int.natCast_nonneg _, by omega⟩, Int.toNat_natCast, record]

/-- A round of the loop, on the record `i`. -/
theorem processLoop_succ {i : ℕ} (hi : i < len / q.sizeof) (hlen : len ≤ buffer.length)
    (rounds : ℕ) :
    q.processLoop buffer (len - q.sizeof + 1) (rounds + 1) (i * q.sizeof : ℕ) =
      if i + 1 < len / q.sizeof then
        (record q buffer i :: (q.processLoop buffer (len - q.sizeof + 1) rounds
            ((i + 1) * q.sizeof : ℕ)).1,
          (q.processLoop buffer (len - q.sizeof + 1) rounds ((i + 1) * q.sizeof : ℕ)).2)
      else ([record q buffer i], .finished) := by
  have hdata : ((i * q.sizeof : ℕ) + q.sizeof : ℤ) = ((i + 1) * q.sizeof : ℕ) := by
    push_cast
    ring
  have hnext : ((i + 1) * q.sizeof : ℕ) < (len - q.sizeof + 1 : ℤ) ↔ i + 1 < len / q.sizeof := by
    rw [← Nat.succ_le_iff, Nat.le_div_iff_mul_le q.sizeof_pos, Nat.succ_mul (i + 1)]
    omega
  rw [processLoop, bytesAt_record hi hlen]
  simp only [hdata, hnext]
  split <;> rfl

/-- The loop from the record `i` on, with `n` records to follow it. -/
theorem processLoop_eq (hlen : len ≤ buffer.length) {n i rounds : ℕ}
    (hi : i + n + 1 = len / q.sizeof) (hrounds : n < rounds) :
    q.processLoop buffer (len - q.sizeof + 1) rounds (i * q.sizeof : ℕ) =
      ((List.range' i (n + 1)).map (record q buffer), .finished) := by
  obtain ⟨rounds, rfl⟩ := Nat.exists_eq_add_of_lt hrounds
  induction n generalizing i with
  | zero =>
    rw [processLoop_succ (by omega) hlen, if_neg (by omega)]
    rfl
  | succ n ih =>
    rw [processLoop_succ (by omega) hlen, if_pos (by omega),
      show n + 1 + rounds = n + rounds + 1 by omega, ih (by omega) (by omega)]
    rfl

/-- **The datagram is split into its records.**  For a record type of any size and any
    payload, the loop ends, has passed on the `len / sizeof` records that begin at the
    multiples of the size, in order, and has read bytes of these records only, which
    are inside of the payload. -/
theorem processPacket_eq (q : Quote) {buffer : List UInt8} {len : UInt32}
    (hlen : len.toNat ≤ buffer.length) :
    (∀ rounds, len.toNat / q.sizeof ≤ rounds → q.processPacket rounds buffer len =
      ((List.range (len.toNat / q.sizeof)).map (record q buffer), .finished)) ∧
    (∀ i, (record q buffer i).1 = i * q.sizeof ∧ (record q buffer i).2 =
      (buffer.drop (i * q.sizeof + q.readOffset)).take q.readLength ∧
      i * q.sizeof + q.readOffset + q.readLength ≤ (i + 1) * q.sizeof) ∧
    ∀ i < len.toNat / q.sizeof, (i + 1) * q.sizeof ≤ len.toNat := by
  refine ⟨fun rounds hrounds => ?_, fun i => ⟨?_, rfl, ?_⟩, fun i hi => record_inside hi⟩
  · rw [processPacket]
    split_ifs with hshort
    · rw [Nat.div_eq_of_lt hshort]
      rfl
    · have hpos : 0 < len.toNat / q.sizeof := Nat.div_pos (by omega) q.sizeof_pos
      have h := processLoop_eq (q := q) (n := len.toNat / q.sizeof - 1) (i := 0) hlen (by omega)
        (show _ < rounds by omega)
      rwa [Nat.zero_mul, Nat.sub_add_cancel hpos, ← List.range_eq_range'] at h
  · exact Nat.cast_mul i q.sizeof
  · have hread := q.read_inside
    rw [Nat.succ_mul]
    omega

/-- Two ticks, in a payload of 201 bytes. -/
theorem processPacket_eq_two : sse_hpf_tick.processPacket 2 (List.replicate 250 0) 201 =
    ([record sse_hpf_tick (List.replicate 250 0) 0, record sse_hpf_tick (List.replicate 250 0) 1],
      .finished) :=
  have hlen : (201 : UInt32).toNat ≤ (List.replicate 250 (0 : UInt8)).length := by
    rw [List.length_replicate]
    decide
  (processPacket_eq sse_hpf_tick hlen).1 2 (by decide)

end Quote

end Ostmd

end Mdd2
