/-
  The daily factor file (`DailyState.h`, `scripts/fetch_state.py`, and
  `parseDailyConfig` in `MDD.cpp`).

  The script writes a header and three arrays.  The reader zeroes the header,
  reads over it, checks it without looking at the stream, and looks at the stream
  after each array.
-/
import Mdd2.MDS
import Mdd2.Lib.BinaryFile
import Mdd2.Lib.Word

namespace Mdd2

/-- `FactorEnum::kMaxFactors`. -/
def kMaxFactors : ℕ := 144

/-- `FactorList::rawFactors`, the bits of each `double`. -/
abbrev FactorList := Vector UInt64 kMaxFactors

/-- `sizeof(FactorList::ScalarType)`. -/
def sizeofScalar : ℕ := 8

def factorListCodec : FixedCodec FactorList := FixedCodec.uint64.vector kMaxFactors

/-- `MARKET_ID`. -/
def Market.id : Market → Int32
  | .SH => 1
  | .SZ => 2

structure DailyHeader where
  fileVersion : Int32
  today : Int32
  marketID : Int32
  stockCount : Int32
  prevLimitUpCount : Int32
  factorCount : Int32
  factorDtypeSize : Int32

namespace DailyHeader

/-- The seven fields in the order of the memory. -/
def codec : FixedCodec (Vector Int32 7) := FixedCodec.int32.vector 7

def ofFields (v : Vector Int32 7) : DailyHeader :=
  ⟨v[0], v[1], v[2], v[3], v[4], v[5], v[6]⟩

end DailyHeader

/-! ## The writer -/

namespace FetchState

/-- `astype('int32')` of a count. -/
def astypeInt32 (n : ℕ) : Int32 := Int32.ofInt n

/-- The columns of `config`. -/
def config (market : Market) (today : Int32) (stocks prevLimits : List Int32) :
    Vector Int32 7 :=
  #v[250722, today, market.id, astypeInt32 stocks.length, astypeInt32 prevLimits.length,
    astypeInt32 kMaxFactors, 8]

/-- The bytes that `fetch_state.py` writes. -/
def file (market : Market) (today : Int32) (stocks prevLimits : List Int32)
    (factors : List FactorList) : List UInt8 :=
  DailyHeader.codec.encode (config market today stocks prevLimits) ++
    (FixedCodec.int32.encodeList stocks ++
      (FixedCodec.int32.encodeList prevLimits ++ factorListCodec.encodeList factors))

end FetchState

/-! ## The reader -/

/-- What `parseDailyConfig` leaves. -/
structure DailyState where
  g_stockCodes : List Int32
  g_prevLimitUpStockCodes : List Int32
  /-- `factorList.rawFactors` of the elements of `g_stockComputes` -/
  rawFactors : List FactorList
  deriving DecidableEq

/-- The checks of the header. -/
def DailyHeader.check (header : DailyHeader) (market : Market) (date : Int32) :
    Except String Unit :=
  if header.fileVersion ≠ 250722 then throw "daily factor file version mismatch"
  else if header.marketID ≠ market.id then throw "daily factor file market id mismatch"
  else if header.factorCount ≠ Int32.ofNat kMaxFactors then
    throw "daily factor file factor count mismatch"
  else if header.factorDtypeSize ≠ Int32.ofNat sizeofScalar then
    throw "daily factor file factor dtype mismatch"
  else if header.today ≠ date then throw "daily factor file today date mismatch"
  else if header.stockCount = 0 then
    throw "no stock subscription found in daily factor file"
  else pure ()

/-- The new size of a vector, which has a limit that only negative counts exceed. -/
def resize (count : Int32) : Except String ℕ :=
  if count < 0 then throw "vector::_M_default_append" else pure count.toInt.toNat

/-- A `read` of an array, and the check of the stream after it. -/
def readArray {α : Type} (bin : IStream) (c : FixedCodec α) (size : ℕ) (message : String) :
    Except String (List α × IStream) :=
  let r := bin.readList c size
  if r.2.good then pure r else throw message

/-- What follows the checks of the header. -/
def readArrays (header : DailyHeader) (bin : IStream) : Except String DailyState := do
  let size ← resize header.stockCount
  let (stockCodes, bin) ←
    readArray bin FixedCodec.int32 size "failed to read all stock subscribes"
  let prevSize ← resize header.prevLimitUpCount
  let (prevLimitUpStockCodes, bin) ←
    readArray bin FixedCodec.int32 prevSize "failed to read all prev-limit-up stocks"
  let (factors, _) ← readArray bin factorListCodec size "failed to read all stock factors"
  pure ⟨stockCodes, prevLimitUpStockCodes, factors⟩

/-- `parseDailyConfig`, from the factor file of the configuration on. -/
def parseDailyConfig (market : Market) (date : Int32) (file : List UInt8) :
    Except String DailyState := do
  let (bytes, bin) := IStream.read ⟨file, false⟩ (List.replicate DailyHeader.codec.width 0)
  let header := DailyHeader.ofFields (DailyHeader.codec.decode bytes)
  header.check market date
  readArrays header bin

end Mdd2
