/-
  Datagrams of the OST feeds (`ostmd/ostmd.cpp`, `ostmd/sze_hpf_quote.h`,
  `ostmd/sse_hpf_quote.h`): the orders and trades of Shenzhen, whose records differ
  in size, and the other feeds, which have one record type each.

  A pointer into the payload is its offset; a pointer before the payload is a
  negative one.
-/
import Mdd2.Lib.Word

namespace Mdd2

namespace Ostmd

def sze_msg_type_order : ℕ := 23
def sze_msg_type_trade : ℕ := 24

/-- `sizeof(sze_hpf_order_pkt)`. -/
def sizeofOrder : ℕ := 64

/-- `sizeof(sze_hpf_exe_pkt)`. -/
def sizeofExe : ℕ := 72

/-- `offsetof(sze_hpf_pkt_head, m_message_type)`. -/
def offsetofMessageType : ℕ := 8

/-- A byte of the payload, if the pointer is inside. -/
def byteAt (payload : List UInt8) (ptr : ℤ) : Option UInt8 :=
  if 0 ≤ ptr then payload[ptr.toNat]? else none

/-- `quote->m_message_type`. -/
def messageType (payload : List UInt8) (quote : ℤ) : Option UInt8 :=
  byteAt payload (quote + offsetofMessageType)

/-- `1 << n` in `int`, which has a meaning for the amounts 0..31 only. -/
def shiftOne (n : ℤ) : Option ℤ :=
  if 0 ≤ n ∧ n < 32 then some (Word.toSigned 32 (2 ^ n.toNat)) else none

/-- How far `process_packet` advances over a record. -/
def stride (m_message_type : UInt8) : Option ℤ :=
  shiftOne (m_message_type.toNat - (sze_msg_type_order - 3))

inductive Outcome where
  /-- the loop is left -/
  | finished
  /-- a byte is read outside of the payload -/
  | outside
  /-- a shift has no meaning -/
  | undefined
  /-- the loop goes on after the given number of rounds -/
  | running
  deriving DecidableEq

/-- The loop of `process_packet`: the records passed to `handleOstQuote`. -/
def processLoop (payload : List UInt8) (tail : ℤ) : ℕ → ℤ → List ℤ × Outcome
  | 0, _ => ([], .running)
  | rounds + 1, data =>
    match messageType payload data with
    | none => ([], .outside)
    | some type =>
      match stride type with
      | none => ([], .undefined)
      | some n =>
        if data + n ≥ tail then ([], .finished)
        else
          let (quotes, outcome) := processLoop payload tail rounds (data + n)
          (data :: quotes, outcome)

/-- `UdpQuoteClass<sze_hpf_pkt_head>::process_packet`, for a number of rounds. -/
def processPacket (rounds : ℕ) (payload : List UInt8) : List ℤ × Outcome :=
  if payload.length < sizeofOrder then ([], .finished)
  else processLoop payload (payload.length - sizeofOrder + 1) rounds 0

/-- A well-formed `sze_hpf_order_pkt` or `sze_hpf_exe_pkt`. -/
structure Record where
  bytes : List UInt8
  wf : (bytes.length = sizeofOrder ∧
      bytes[offsetofMessageType]?.map UInt8.toNat = some sze_msg_type_order) ∨
    (bytes.length = sizeofExe ∧
      bytes[offsetofMessageType]?.map UInt8.toNat = some sze_msg_type_trade)

/-- The records one after the other. -/
def concat (records : List Record) : List UInt8 := records.flatMap Record.bytes

/-- The pointers to the records, the first at a position. -/
def pointers : ℤ → List Record → List ℤ
  | _, [] => []
  | data, r :: records => data :: pointers (data + r.bytes.length) records

/-! ## Feeds with one record type -/

/-- A record type, and the part of a record that `handleOstQuote` leads to reads of. -/
structure Quote where
  sizeof : ℕ
  readOffset : ℕ
  readLength : ℕ
  sizeof_pos : 1 ≤ sizeof
  read_inside : readOffset + readLength ≤ sizeof

/-- The tick begins at `m_tick_index`, and has the 64 bytes of `MDS::Tick`. -/
def sse_hpf_tick : Quote := ⟨96, 26, 64, by decide, by decide⟩

/-- `snapStockCode` reads six bytes of `m_symbol_id`. -/
def sse_hpf_lev2 : Quote := ⟨440, 30, 6, by decide, by decide⟩

/-- `snapStockCode` reads six bytes of `m_symbol`. -/
def sze_hpf_lev2_pkt : Quote := ⟨376, 11, 6, by decide, by decide⟩

/-- The bytes from a pointer on, if they are inside. -/
def bytesAt (buffer : List UInt8) (ptr : ℤ) (n : ℕ) : Option (List UInt8) :=
  if 0 ≤ ptr ∧ ptr + n ≤ buffer.length then some ((buffer.drop ptr.toNat).take n) else none

namespace Quote

/-- The loop of `process_packet`: the records passed to `handleOstQuote`, with the
    bytes it reads. -/
def processLoop (q : Quote) (buffer : List UInt8) (tail : ℤ) :
    ℕ → ℤ → List (ℤ × List UInt8) × Outcome
  | 0, _ => ([], .running)
  | rounds + 1, data =>
    match bytesAt buffer (data + q.readOffset) q.readLength with
    | none => ([], .outside)
    | some bytes =>
      let (quotes, outcome) :=
        if data + q.sizeof < tail then q.processLoop buffer tail rounds (data + q.sizeof)
        else ([], .finished)
      ((data, bytes) :: quotes, outcome)

/-- `UdpQuoteClass<Quote>::process_packet`, for a number of rounds. -/
def processPacket (q : Quote) (rounds : ℕ) (buffer : List UInt8) (len : UInt32) :
    List (ℤ × List UInt8) × Outcome :=
  if len.toNat < q.sizeof then ([], .finished)
  else q.processLoop buffer (len.toNat - q.sizeof + 1) rounds 0

end Quote

end Ostmd

end Mdd2
