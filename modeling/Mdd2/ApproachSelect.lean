/-
  The choice among approaching stocks (`computeThreadMain` in `MDD.cpp`).

  Of more than three ids, `std::nth_element` is to put the two with the smallest
  amounts first.  The comparator gets references to ids, and finds the amount of an id
  by the distance of the reference from the start of the array.
-/
import Mdd2.Lib.InPlace

namespace Mdd2

namespace ApproachSelect

open InPlace

/-- `&id - approachStockIds.data()`: a reference to a temporary is no element. -/
def index {n : ℕ} : Loc n → Option ℕ
  | .cell i => some i
  | .temp _ => none

/-- The comparator; `none` is an access out of range. -/
def less {n : ℕ} (remainSellAmounts : List ℤ) : Comparator n Int32 := fun _ id1 id2 => do
  let i ← index id1
  let j ← index id2
  let amount1 ← remainSellAmounts[i]?
  let amount2 ← remainSellAmounts[j]?
  return decide (amount1 < amount2)

/-- The array of ids; the temporaries of the algorithm hold no ids yet. -/
def memory (approachStockIds : List Int32) : Loc approachStockIds.length → Int32
  | .cell i => approachStockIds[i]
  | .temp _ => 0

/-- The ids that remain for `onApproach`, for the `upSellOrderAmount` of each id. -/
def select (upSellOrderAmount : Int32 → ℤ) (approachStockIds : List Int32)
    (nth_element : Selection approachStockIds.length 2) : Option (List Int32) :=
  if approachStockIds.length > 3 then do
    let remainSellAmounts := approachStockIds.map upSellOrderAmount
    let m ← nth_element.prog.run (less remainSellAmounts) (memory approachStockIds)
    return (List.ofFn (m ∘ .cell)).take 2
  else some approachStockIds

end ApproachSelect

end Mdd2
