/-
  The dispatch of messages to stocks (`MDD.cpp`).

  A message names its stock by the first six characters of a code.  A stock code
  is compressed to 13 bits, with one slot for all codes outside of the range, and
  a table maps the slots to positions of `g_stockCodes`.
-/
import Mdd2.MDS
import Mdd2.Lib.Word

namespace Mdd2

/-- `atou6`: six characters as a number, in `uint32_t`. -/
def atou6 (s : Fin 6 → ℤ) : Int32 :=
  Int32.ofInt (100000 * (s 0 - '0'.toNat) + 10000 * (s 1 - '0'.toNat) + 1000 * (s 2 - '0'.toNat)
    + 100 * (s 3 - '0'.toNat) + 10 * (s 4 - '0'.toNat) + (s 5 - '0'.toNat))

/-- The `securityId` of the characters of an image from an offset on; `char` is
    signed. -/
def Image.securityId (m : Image) (off : ℕ) : Int32 :=
  atou6 fun k => Word.toSigned 8 (m.unsigned (off + k) 1)

/-- `tickStockCode` (`tickProps.h`). -/
def tickStockCode (b : Build) (tick : b.Tick) : Int32 :=
  match b, tick with
  | .replay _, tick => tick.stock
  | .ne .SH, tick => Image.securityId tick 6
  | .ne .SZ, tick => Image.securityId tick 6
  | .ost .SH, tick => Image.securityId tick 8
  | .ost .SZ, tick => Image.securityId tick 3

/-- `g_stockIdLut`, indexed with the result of `linearizeStockId`, which stays
    below its length `0x2000`. -/
abbrev StockIdLut := UInt16 → Int16

def linearizeStockId (market : Market) (stock : Int32) : UInt16 :=
  let u := stock.toUInt32
  let u := match market with
    | .SH => u - 600000
    | .SZ => u
  let u := if u &&& ~~~0x1FFF ≠ 0 then 0x1FFF else u
  u.toUInt16

/-- The second loop of `initStockArrays`, from position `i` on. -/
def fillStockIdLut (market : Market) : StockIdLut → ℕ → List Int32 → StockIdLut
  | lut, _, [] => lut
  | lut, i, code :: codes =>
    fillStockIdLut market (Function.update lut (linearizeStockId market code) (Int16.ofNat i))
      (i + 1) codes

def initStockIdLut (market : Market) (stockCodes : List Int32) : StockIdLut :=
  fillStockIdLut market (fun _ => -1) 0 stockCodes

/-- The lookup of the handlers; the message is dropped at `-1`. -/
def lookupStockId (market : Market) (stockCodes : List Int32) (stock : Int32) : Int32 :=
  (initStockIdLut market stockCodes (linearizeStockId market stock)).toInt32

/-- `handleRspOrder` of the builds with a broker: the position of the stock that
    gets the response, if it is not dropped. -/
def handleRspOrder (market : Market) (stockCodes : List Int32) (userLocalID : UInt32) :
    Option Int32 :=
  let stock := userLocalID.toInt32
  let id := lookupStockId market stockCodes stock
  if id = -1 then none else some id

end Mdd2
