import Treewalk.Number.Decimal

/-!
# The shortest decimal that reads back

A double is shown with as few digits as tell it from every other double. Multiples of `10 ^ e` form
a decimal grid; the coarsest grid with a point that rounds to the given double has the fewest digits,
and on each grid only the two neighbours of the double need to be tried. If both round to it, the
nearer one is taken, and the upper one of two that are equally near.
-/

namespace Treewalk.Number

/-- The greatest point on the grid of multiples of `10 ^ e` that is not above the `n`-th double. -/
def floorOn (n : Nat) (e : Int) : Decimal :=
  ⟨units n * pow10 (-e).toNat / (unitsPerOne * pow10 e.toNat), e⟩

/-- Whether the `n`-th double is nearer to the point of the grid below it than to the one above. -/
def nearerFloor (n : Nat) (e : Int) : Bool :=
  2 * (units n * pow10 (-e).toNat % (unitsPerOne * pow10 e.toNat)) < unitsPerOne * pow10 e.toNat

/-- Of two neighbours of a double the one that is to show it, if one of them reads back. -/
def choose (lower upper : Decimal) (nearerLower : Bool) :
    (lowerReads upperReads : Bool) → Option Decimal
  | true, true => some (if nearerLower then lower else upper)
  | true, false => some lower
  | false, true => some upper
  | false, false => none

/-- The neighbour of the `n`-th double on the grid of multiples of `10 ^ e` that is to show it, if
one of the two reads back. -/
def onDecimalGrid (n : Nat) (e : Int) : Option Decimal :=
  let lower := floorOn n e
  let upper : Decimal := ⟨lower.coefficient + 1, e⟩
  choose lower upper (nearerFloor n e) (lower.toGrid == n) (upper.toGrid == n)

/-- Try the grids from `10 ^ e` on, each ten times finer than the last. -/
def refine (n : Nat) : Nat → Int → Decimal
  | 0, e => floorOn n e
  | fuel + 1, e => (onDecimalGrid n e).getD (refine n fuel (e - 1))

/-- How many digits the whole part of the `n`-th double has; none if it is zero. -/
def wholeDigits (n : Nat) : Nat :=
  let whole := units n / unitsPerOne
  if whole = 0 then 0 else (Nat.toDigits 10 whole).length

/-- The decimal that shows the `n`-th double. On the grid of `10⁻¹⁰⁷⁴` every finite double is a
point, so the search ends there at the latest. -/
def shortest (n : Nat) : Decimal :=
  refine n (wholeDigits n + 1074) (wholeDigits n)

end Treewalk.Number
