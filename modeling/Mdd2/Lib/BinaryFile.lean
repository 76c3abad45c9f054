/-
  Binary files: values of a fixed width, and the streams that read them.

  A `FixedCodec` writes every value of a type with the same number of bytes, and
  can read it back; integers are little-endian, and arrays are their elements one
  after the other.  An `IStream` is what is left of a file.  A read fills a buffer
  from it; if too little is left, it fills the front of the buffer only, and the
  stream is bad from then on.
-/
import Mathlib

/-! ## Little-endian numbers -/

namespace LittleEndian

def bytes : ℕ → ℕ → List UInt8
  | 0, _ => []
  | k + 1, n => UInt8.ofNat n :: bytes k (n / 256)

def value : List UInt8 → ℕ
  | [] => 0
  | b :: bs => b.toNat + 256 * value bs

@[simp] theorem length_bytes (k n : ℕ) : (bytes k n).length = k := by
  induction k generalizing n with
  | zero => rfl
  | succ k ih => rw [bytes, List.length_cons, ih]

theorem value_bytes (k n : ℕ) : value (bytes k n) = n % 256 ^ k := by
  induction k generalizing n with
  | zero => rw [bytes, value, pow_zero, Nat.mod_one]
  | succ k ih =>
    rw [bytes, value, ih, pow_succ', Nat.mod_mul, UInt8.toNat_ofNat']

theorem value_bytes_of_lt {k n : ℕ} (h : n < 256 ^ k) : value (bytes k n) = n := by
  rw [value_bytes, Nat.mod_eq_of_lt h]

end LittleEndian

/-! ## Codecs -/

structure FixedCodec (α : Type*) where
  width : ℕ
  encode : α → List UInt8
  decode : List UInt8 → α
  length_encode : ∀ a, (encode a).length = width
  decode_encode : ∀ a, decode (encode a) = a

namespace FixedCodec
variable {α : Type*} (c : FixedCodec α)

def int32 : FixedCodec Int32 where
  width := 4
  encode x := LittleEndian.bytes 4 x.toUInt32.toNat
  decode l := (UInt32.ofNat (LittleEndian.value l)).toInt32
  length_encode _ := LittleEndian.length_bytes ..
  decode_encode x := by
    rw [LittleEndian.value_bytes_of_lt x.toUInt32.toNat_lt, UInt32.ofNat_toNat,
      Int32.toInt32_toUInt32]

def uint32 : FixedCodec UInt32 where
  width := 4
  encode x := LittleEndian.bytes 4 x.toNat
  decode l := UInt32.ofNat (LittleEndian.value l)
  length_encode _ := LittleEndian.length_bytes ..
  decode_encode x := by
    rw [LittleEndian.value_bytes_of_lt x.toNat_lt, UInt32.ofNat_toNat]

def uint64 : FixedCodec UInt64 where
  width := 8
  encode x := LittleEndian.bytes 8 x.toNat
  decode l := UInt64.ofNat (LittleEndian.value l)
  length_encode _ := LittleEndian.length_bytes ..
  decode_encode x := by
    rw [LittleEndian.value_bytes_of_lt x.toNat_lt, UInt64.ofNat_toNat]

/-- The values one after the other. -/
def encodeList (l : List α) : List UInt8 := l.flatMap c.encode

/-- The value at an index. -/
def decodeAt (bytes : List UInt8) (i : ℕ) : α :=
  c.decode ((bytes.drop (i * c.width)).take c.width)

def decodeList (n : ℕ) (bytes : List UInt8) : List α := (List.range n).map (c.decodeAt bytes)

@[simp] theorem length_encodeList (l : List α) : (c.encodeList l).length = l.length * c.width := by
  rw [encodeList, List.length_flatMap]
  simp only [c.length_encode, List.map_const', List.sum_replicate, smul_eq_mul]

theorem decodeAt_encodeList (l : List α) (i : ℕ) (hi : i < l.length) :
    c.decodeAt (c.encodeList l) i = l[i] := by
  induction l generalizing i with
  | nil => exact absurd hi (Nat.not_lt_zero i)
  | cons a l ih =>
    rw [encodeList, List.flatMap_cons, decodeAt]
    cases i with
    | zero =>
      rw [zero_mul, List.drop_zero, List.take_left' (c.length_encode a), c.decode_encode]
      rfl
    | succ i =>
      have hlen : (i + 1) * c.width = (c.encode a).length + i * c.width := by
        rw [c.length_encode]
        ring
      rw [hlen, List.drop_length_add_append]
      exact ih i (Nat.lt_of_succ_lt_succ hi)

/-- **A list is read back.** -/
theorem decodeList_encodeList (l : List α) : c.decodeList l.length (c.encodeList l) = l := by
  apply List.ext_getElem
  · rw [decodeList, List.length_map, List.length_range]
  · intro i hi hi'
    simp only [decodeList, List.getElem_map, List.getElem_range]
    exact c.decodeAt_encodeList l i hi'

/-- Arrays. -/
def vector (n : ℕ) : FixedCodec (Vector α n) where
  width := n * c.width
  encode v := c.encodeList v.toList
  decode bytes := Vector.ofFn fun i => c.decodeAt bytes i
  length_encode v := by rw [length_encodeList, Vector.length_toList]
  decode_encode v := by
    ext i hi
    rw [Vector.getElem_ofFn, c.decodeAt_encodeList _ _ (by rwa [Vector.length_toList]),
      Vector.getElem_toList]

end FixedCodec

/-! ## Streams -/

structure IStream where
  rest : List UInt8
  bad : Bool := false

namespace IStream

/-- `good()`. -/
def good (s : IStream) : Bool := !s.bad

/-- `read` into a buffer. -/
def read (s : IStream) (buffer : List UInt8) : List UInt8 × IStream :=
  if s.bad then (buffer, s)
  else if buffer.length ≤ s.rest.length then
    (s.rest.take buffer.length, { s with rest := s.rest.drop buffer.length })
  else (s.rest ++ buffer.drop s.rest.length, ⟨[], true⟩)

/-- `read` into a new array, which starts as zeros. -/
def readList {α : Type*} (s : IStream) (c : FixedCodec α) (n : ℕ) : List α × IStream :=
  let (bytes, s) := s.read (List.replicate (n * c.width) 0)
  (c.decodeList n bytes, s)

variable {s : IStream} {α : Type*} {c : FixedCodec α}

theorem read_of_bad (h : s.bad = true) (buffer : List UInt8) : s.read buffer = (buffer, s) :=
  if_pos h

/-- A read of what is there. -/
theorem read_append (front rest : List UInt8) {buffer : List UInt8}
    (h : buffer.length = front.length) :
    IStream.read ⟨front ++ rest, false⟩ buffer = (front, ⟨rest, false⟩) := by
  rw [IStream.read, if_neg Bool.false_ne_true, if_pos (by rw [List.length_append]; omega), h,
    List.take_left, List.drop_left]

/-- A read of more than is there. -/
theorem bad_read_of_lt {buffer : List UInt8} (h : s.rest.length < buffer.length) :
    (s.read buffer).2.bad = true := by
  rw [IStream.read]
  split_ifs with hbad hle
  · exact hbad
  · omega
  · rfl

theorem bad_readList_of_bad (h : s.bad = true) (n : ℕ) : (s.readList c n).2.bad = true := by
  rw [readList, read_of_bad h]
  exact h

theorem bad_readList_of_lt {n : ℕ} (h : s.rest.length < n * c.width) :
    (s.readList c n).2.bad = true := by
  rw [readList]
  exact bad_read_of_lt (by rwa [List.length_replicate])

/-- **A list that is there is read back.** -/
theorem readList_encodeList (c : FixedCodec α) (l : List α) (rest : List UInt8) :
    IStream.readList ⟨c.encodeList l ++ rest, false⟩ c l.length = (l, ⟨rest, false⟩) := by
  have hlen : (List.replicate (l.length * c.width) (0 : UInt8)).length =
      (c.encodeList l).length := by rw [List.length_replicate, c.length_encodeList]
  rw [readList, read_append _ _ hlen]
  exact congrArg (·, _) (c.decodeList_encodeList l)

/-- **A prefix of a list and what follows it** either holds the list, or is too
    short to be read. -/
theorem readList_take (c : FixedCodec α) (l : List α) (rest : List UInt8) (k : ℕ) :
    (IStream.readList ⟨(c.encodeList l ++ rest).take k, false⟩ c l.length).2.bad = true ∨
      ∃ m, k = (c.encodeList l).length + m ∧
        IStream.readList ⟨(c.encodeList l ++ rest).take k, false⟩ c l.length =
          (l, ⟨rest.take m, false⟩) := by
  rcases lt_or_ge k (c.encodeList l).length with hlt | hge
  · left
    apply bad_readList_of_lt
    rw [← c.length_encodeList]
    exact lt_of_le_of_lt (List.length_take_le k _) hlt
  · right
    refine ⟨k - (c.encodeList l).length, by omega, ?_⟩
    rw [List.take_append, List.take_of_length_le hge]
    exact readList_encodeList c l _

end IStream
