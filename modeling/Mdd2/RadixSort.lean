/-
  The radix sort (`radixSort.h`), on arrays of 32-bit words.

  A record is `size` words, and its key is the word at `offset`.  A pass counts
  the digits of the keys, turns the counts into the places where the bins start,
  and copies each record of one array to the next place of its bin in the other.

  An access outside of an array yields `none`.
-/
import Mathlib

namespace Mdd2

/-- The words of an array. -/
abbrev Words := List UInt32

/-- The source of a `memcpy` of `n` words. -/
def Words.read (mem : Words) (i n : ℕ) : Option Words :=
  if i + n ≤ mem.length then some ((mem.drop i).take n) else none

/-- The destination of a `memcpy` or a `memset`. -/
def Words.write (mem : Words) (i : ℕ) (ws : Words) : Option Words :=
  if i + ws.length ≤ mem.length then some (mem.take i ++ ws ++ mem.drop (i + ws.length)) else none

namespace RadixSort

/-- `uint32_t(1) << shift`. -/
def numBins (shift : ℕ) : UInt32 := 1 <<< UInt32.ofNat shift

/-- The digit of a key in a pass. -/
def binOf (shift pass : ℕ) (x : UInt32) : ℕ :=
  ((x >>> UInt32.ofNat (pass * shift)) &&& (numBins shift - 1)).toNat

section
variable (shift pass offset size : ℕ)

/-- The first loop of a pass, on the record `i`. -/
def countBin (inp count : Words) (i : ℕ) : Option Words := do
  let x ← inp[i * size + offset]?
  let c ← count[binOf shift pass x]?
  some (count.set (binOf shift pass x) (c + 1))

/-- The second loop, on the bin `n`; `current` is the number of records before. -/
def startBin (s : Words × UInt32) (n : ℕ) : Option (Words × UInt32) := do
  let (count, current) := s
  let c ← count[n]?
  some (count.set n current, current + c)

/-- The third loop, on the record `i`. -/
def placeRecord (inp : Words) (s : Words × Words) (i : ℕ) : Option (Words × Words) := do
  let (count, out) := s
  let x ← inp[i * size + offset]?
  let c ← count[binOf shift pass x]?
  let record ← inp.read (i * size) size
  let out ← out.write (c.toNat * size) record
  some (count.set (binOf shift pass x) (c + 1), out)

/-- A pass, with the counters and the output it leaves. -/
def kernel (count out inp : Words) (num : ℕ) : Option (Words × Words) := do
  let N := (numBins shift).toNat
  let count ← count.write 0 (List.replicate N 0)
  let count ← (List.range num).foldlM (countBin shift pass offset size inp) count
  let (count, _) ← (List.range N).foldlM startBin (count, 0)
  (List.range num).foldlM (placeRecord shift pass offset size inp) (count, out)

end

/-- `halfpass` pairs of passes, from the array to the scratch and back; the result
    is the counters, the scratch and the array. -/
def radixSort32 (shift halfpass offset size : ℕ) (count out inp : Words) (num : ℕ) :
    Option (Words × Words × Words) :=
  (List.range halfpass).foldlM (fun (count, out, inp) i => do
    let (count, out) ← kernel shift (i <<< 1) offset size count out inp num
    let (count, inp) ← kernel shift (i <<< 1 ||| 1) offset size count inp out num
    some (count, out, inp)) (count, out, inp)

/-- The scratch and the counters, in words. -/
def radixSort32Size (shift size num : ℕ) : ℕ := num * size + (numBins shift).toNat

/-- The buffer of the thread; one that is too short is replaced by one of the
    needed size, whose words are not initialized. -/
def getRadixSortBuf (uninit : ℕ → UInt32) (buffer : Words) (size : ℕ) : Words :=
  if buffer.length < size then (List.range size).map uninit else buffer

/-- `radixSort` for 4-byte elements; offset and size are in bytes.  The result is
    the sorted array, and the buffer. -/
def radixSort (shift pass offset size : ℕ) (uninit : ℕ → UInt32) (buffer inp : Words) (num : ℕ) :
    Option (Words × Words) := do
  let size := size / 4
  let needed := radixSort32Size shift size num
  let buf := getRadixSortBuf uninit buffer needed
  let out := buf.take (num * size)
  let count := (buf.take needed).drop (num * size)
  let (count, out, inp) ← radixSort32 shift (pass / 2) (offset / 4) size count out inp num
  some (inp, out ++ count ++ buf.drop needed)

end RadixSort

end Mdd2
