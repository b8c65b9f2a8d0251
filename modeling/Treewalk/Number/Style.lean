import Treewalk.Number.Shortest

/-!
# How numbers are written

Finite numbers are written with the digits of `shortest`, never with an exponent and without a
fraction that is zero; a set sign bit is shown also on zero. Only the words for what is not a finite
number depend on where the number is shown.
-/

namespace Treewalk.Number

/-- The words for numbers that have no digits. -/
structure Style where
  /-- Stands for a result that is not a number. -/
  nan : String
  /-- Stands for infinity, after the sign if there is one. -/
  infinite : String

/-- The text of a double. -/
def Style.text (style : Style) (x : Float) : String :=
  let n := toGrid x
  if infinity < n then
    style.nan
  else
    let sign := if isNegative x then "-" else ""
    sign ++ if n = infinity then style.infinite else String.ofList (shortest n).plain

/-- Numbers as values show them. -/
def valueStyle : Style where
  nan := "NaN"
  infinite := "Infinity"

/-- Numbers as the one-line text of a program shows them. -/
def treeStyle : Style where
  nan := "NaN"
  infinite := "inf"

/-- Reads what `valueStyle` writes, with any number of digits: an optional `-` before
`digits(.digits)?` or `Infinity`, or `NaN`. -/
def ofText? (text : String) : Option Float :=
  let (negative, rest) :=
    match text.toList with
    | '-' :: rest => (true, rest)
    | rest => (false, rest)
  if text = "NaN" then
    some (0.0 / 0.0)
  else if String.ofList rest = "Infinity" then
    some (ofGrid negative infinity)
  else
    let whole := rest.takeWhile Char.isDigit
    let wellFormed :=
      match rest.dropWhile Char.isDigit with
      | [] => true
      | c :: places => c == '.' && !places.isEmpty && places.all Char.isDigit
    if whole.isEmpty || !wellFormed then none
    else some (ofGrid negative (Decimal.ofNumeral rest).toGrid)

end Treewalk.Number
