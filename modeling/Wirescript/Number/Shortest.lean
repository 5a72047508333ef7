import Wirescript.Number.Binary

/-!
# The decimal text of a float

A finite float is written with the fewest decimal digits that read back as the same float, in
positional notation whatever the magnitude. The search runs over the grids of multiples of a power
of ten, coarsest first: on the first grid that has a point inside the interval of reals which round
to the float, the point nearest to the float is taken.

All comparisons are between natural numbers. The float and the ends of its interval are held as
multiples of a quarter of its last place, so that the interval below a power of two, which is half
as wide as the one above, has a whole end as well.
-/

namespace Wirescript.Number

/-- The weight of a decimal place. -/
def tenPow (place : Nat) : Nat := Nat.pow 10 place

/-- The decimal `digits · 10 ^ exponent`. -/
structure Decimal where
  digits : Nat
  exponent : Int
  deriving DecidableEq, Repr

/-- The reals that round to a positive float, in units of `2 ^ unit`: the float itself, how far the
interval reaches to either side, and whether its ends belong to it. -/
structure Rounding where
  center : Nat
  below : Nat
  above : Nat
  closed : Bool
  unit : Int
  deriving DecidableEq, Repr

/-- The interval of the float `mantissa · 2 ^ exponent`. Below a power of two the neighbouring float
is only half as far away, and the ends belong to the interval of an even mantissa. -/
def Rounding.of (mantissa : Nat) (exponent : Int) : Rounding where
  center := 4 * mantissa
  below := if mantissa = twoPow 23 then 1 else 2
  above := 2
  closed := mantissa % 2 == 0
  unit := exponent - 2

/-- The point of the grid of multiples of `10 ^ exponent` that is nearest to the center, among the
two next to it that lie inside the interval. Halfway between two such points the greater is taken. -/
def Rounding.onGrid? (r : Rounding) (exponent : Int) : Option Decimal :=
  let scale := twoPow r.unit.toNat * tenPow (-exponent).toNat
  let step := twoPow (-r.unit).toNat * tenPow exponent.toNat
  let center := r.center * scale
  let quotient := center / step
  let rest := center % step
  let inside (distance reach : Nat) : Bool :=
    if r.closed then decide (distance ≤ reach) else decide (distance < reach)
  let down := inside rest (r.below * scale)
  let up := inside (step - rest) (r.above * scale)
  if up && (!down || decide (step ≤ 2 * rest)) then some ⟨quotient + 1, exponent⟩
  else if down then some ⟨quotient, exponent⟩
  else none

/-- The fewest digits that read back. No float reaches `10 ^ 39`, and every float is a multiple of
`10 ^ -149` to within its interval, so the search always ends inside the range. -/
def Rounding.shortest (r : Rounding) : Decimal :=
  ((List.range 200).findSome? fun (i : Nat) ↦ r.onGrid? (39 - i)).getD ⟨r.center, 0⟩

/-- Positional notation: a point only when there are digits behind it, and a zero before a leading
point. -/
def Decimal.positional (d : Decimal) : String :=
  let digits := toString d.digits
  if 0 ≤ d.exponent then
    digits ++ "".pushn '0' d.exponent.toNat
  else
    let places := (-d.exponent).toNat
    let whole := digits.length - places
    if whole = 0 then
      "0." ++ "".pushn '0' (places - digits.length) ++ digits
    else
      String.ofList (digits.toList.take whole) ++ "." ++ String.ofList (digits.toList.drop whole)

/-- The text of a float. Zero keeps its sign, a NaN has none. -/
def render (x : Float32) : String :=
  match decode x with
  | .nan => "NaN"
  | .infinite negative => if negative then "-inf" else "inf"
  | .finite negative mantissa exponent =>
    let sign := if negative then "-" else ""
    if mantissa = 0 then sign ++ "0"
    else sign ++ (Rounding.of mantissa exponent).shortest.positional

end Wirescript.Number
