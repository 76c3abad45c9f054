/-
  Prices and the metadata of stocks (`getStatic` in `MDS_replay.cpp`, `L2/Stat.h`, and the
  first lines of `onStatic` in `StockState.cpp`).

  All feeds have prices as `double`s, the replay as decimal text in a CSV file.  The program
  rounds a price, times 100, to the nearest integer.  A `double` is a rational number with 53
  digits; none of the numbers here comes near the bounds of its exponents.
-/
import Mdd2.Lib.Rounding
import Mdd2.Lib.Text
import Mdd2.MDS
import Mdd2.OrderBook

open Rounding Text

namespace Mdd2

/-- A `double` next to a number. -/
def toDouble (x : ℚ) : ℚ := nearest 53 x

/-- `std::round(price * 100)`. -/
def cents (price : ℚ) : ℤ := roundAway (toDouble (price * 100))

/-- `std::stod`; hexadecimal numbers, infinities and NaN are left out. -/
def stod (s : List Char) : Except ConversionError ℚ := (decimal s).map toDouble

/-- What the live builds make of the prices of a feed. -/
def Stat.ofFeed (stock : Int32) (marketType : Market) (prevClosePx upperLimitPrice : ℚ)
    (tradingDay : ℤ) : Stat where
  stock := stock
  marketType := marketType
  preClosePrice := cents prevClosePx
  upperLimitPrice := cents upperLimitPrice
  tradingDay := tradingDay

/-- `L2::Stat`, with the fields that the order book does not read. -/
structure MetadataStat extends L2.Stat where
  highPrice : ℤ
  lowPrice : ℤ
  floatMV : ℚ

/-- `MDS::Stat{}`. -/
def MetadataStat.zero : MetadataStat := ⟨⟨0, 0, 0, 0, 0, 0⟩, 0, 0, 0⟩

/-- What the replay builds read of it. -/
def Stat.ofReplay (market : Market) (stat : MetadataStat) : Stat where
  stock := stat.stock
  marketType := market
  preClosePrice := stat.preClosePrice
  upperLimitPrice := stat.upperLimitPrice
  tradingDay := 0

namespace Metadata

/-- A line with the reads of it: a read at the end of the line leaves `token` alone. -/
structure TokenStream where
  rest : List Char
  eof : Bool := false
  token : List Char := []

/-- `std::getline(iss, token, ',')`. -/
def TokenStream.next (iss : TokenStream) : TokenStream :=
  if iss.eof then iss
  else match find iss.rest ',' with
    | some pos => ⟨substr iss.rest (pos + 1) none, false, substr iss.rest 0 (some pos)⟩
    | none => ⟨[], true, iss.rest⟩

/-- `std::round(100 * std::stod(token))`. -/
def TokenStream.price (iss : TokenStream) : Except ConversionError ℤ := (stod iss.token).map cents

/-- One round of the loop: the metadata, if the line is that of the stock. -/
def readLine (stock : Int32) (line : List Char) : Except ConversionError (Option MetadataStat) := do
  let iss := (TokenStream.mk line false []).next.next
  let code ← stoi iss.token
  if code ≠ stock then pure none
  else
    let iss := iss.next.next
    let openPrice ← iss.price
    let iss := iss.next
    let preClosePrice ← iss.price
    let iss := iss.next
    let highPrice ← iss.price
    let iss := iss.next
    let lowPrice ← iss.price
    let iss := iss.next
    let closePrice ← iss.price
    let iss := iss.next
    let upperLimitPrice ← iss.price
    let iss := iss.next
    let lowerLimitPrice ← iss.price
    let iss := iss.next
    let floatMV ← stod iss.token
    pure (some {
      stock := code, openPrice, preClosePrice, highPrice, lowPrice, closePrice, upperLimitPrice,
      lowerLimitPrice, floatMV := toDouble (floatMV * 10000) })

def readLines (stock : Int32) : List (List Char) → Except ConversionError MetadataStat
  | [] => .ok .zero
  | line :: lines => do
    match ← readLine stock line with
    | some stat => pure stat
    | none => readLines stock lines

inductive Error where
  /-- "cannot open stock metadata" -/
  | cannotOpen
  | conversion (error : ConversionError)

/-- `getStatic`; `none` is a file that cannot be opened.  The first line is a heading. -/
def getStatic (file : Option (List Char)) (stock : Int32) : Except Error MetadataStat :=
  match file with
  | none => .error .cannotOpen
  | some text => (readLines stock (getlines '\n' text).tail).mapError .conversion

end Metadata

end Mdd2
