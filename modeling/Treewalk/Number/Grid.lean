/-!
# The doubles as a numbered grid

The non-negative doubles, in order, are numbered by their bit patterns: `0` is zero, `1` the least
positive number, and the pattern of infinity comes right after the greatest finite one. Every one of
them is a whole number of *units* of `2⁻¹⁰⁷⁴`, so rounding and comparing are done in `Nat`, without
loss.

`units n` is the value of the `n`-th double in units, and `nearest num den` the number of the double
nearest to the fraction `num / den`, also given in units. An exact tie goes to the double with the
even number, which is the one with the even mantissa; past the greatest finite double the same rule
leads to infinity, because `units infinity` is where the next binade would begin.
-/

namespace Treewalk.Number

/-- A power of two. -/
def pow2 (n : Nat) : Nat := Nat.pow 2 n

/-- A power of ten. -/
def pow10 (n : Nat) : Nat := Nat.pow 10 n

/-- How many units make one. -/
def unitsPerOne : Nat := pow2 1074

/-- The number of infinity; those below it are finite and those above it are not numbers. -/
def infinity : Nat := 0x7FF0000000000000

/-- The value of the `n`-th double, in units. The low 52 bits of `n` are the mantissa, which above
the least binade has a leading one that is not written. -/
def units (n : Nat) : Nat :=
  if n < pow2 52 then n else (pow2 52 + n % pow2 52) * pow2 (n / pow2 52 - 1)

/-- The number of the double nearest to `num / den` units, ties to even. -/
def nearest (num den : Nat) : Nat :=
  let whole := num / den
  let shift := whole.log2 - 52
  let mantissa := whole / pow2 shift
  let below := shift * pow2 52 + mantissa
  let rounded :=
    match compare (2 * num) ((2 * mantissa + 1) * pow2 shift * den) with
    | .lt => below
    | .eq => below + below % 2
    | .gt => below + 1
  min rounded infinity

/-- The double with a sign and a number. -/
def ofGrid (negative : Bool) (n : Nat) : Float :=
  Float.ofBits (if negative then UInt64.ofNat (pow2 63 + n) else UInt64.ofNat n)

/-- Whether the sign bit is set. -/
def isNegative (x : Float) : Bool :=
  pow2 63 ≤ x.toBits.toNat

/-- The number of a double, its sign left aside. -/
def toGrid (x : Float) : Nat :=
  x.toBits.toNat % pow2 63

end Treewalk.Number
