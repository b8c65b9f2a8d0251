import Treewalk.Number.Grid

/-!
# Decimal numbers

A `Decimal` is a coefficient times a power of ten. It is what a numeral denotes before it is rounded
to a double, and what a double is written as after the digits to show have been chosen.
-/

namespace Treewalk.Number

/-- The number `coefficient · 10 ^ exponent`. -/
structure Decimal where
  coefficient : Nat
  exponent : Int
  deriving DecidableEq

namespace Decimal

/-- The number of the double nearest to a decimal. -/
def toGrid (d : Decimal) : Nat :=
  nearest (unitsPerOne * (d.coefficient * pow10 d.exponent.toNat)) (pow10 (-d.exponent).toNat)

/-- The value of a row of digits. -/
def digitsValue (digits : List Char) : Nat :=
  digits.foldl (fun n c => 10 * n + (c.toNat - '0'.toNat)) 0

/-- The decimal that `digits` or `digits.digits` denotes. -/
def ofNumeral (numeral : List Char) : Decimal :=
  let whole := numeral.takeWhile Char.isDigit
  let places := (numeral.dropWhile Char.isDigit).drop 1
  ⟨digitsValue (whole ++ places), -places.length⟩

/-- The digits of a decimal, all of them, with a point where the ones end. -/
def plain (d : Decimal) : List Char :=
  let digits := Nat.toDigits 10 d.coefficient
  let places := (-d.exponent).toNat
  if places = 0 then
    digits ++ List.replicate d.exponent.toNat '0'
  else
    let padded := List.replicate (places + 1 - digits.length) '0' ++ digits
    padded.take (padded.length - places) ++ '.' :: padded.drop (padded.length - places)

end Decimal

/-- The double that a numeral `digits` or `digits.digits` denotes: the nearest one, infinity if the
numeral is too large. -/
def ofNumeral (numeral : List Char) : Float :=
  ofGrid false (Decimal.ofNumeral numeral).toGrid

end Treewalk.Number
