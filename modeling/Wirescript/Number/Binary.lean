/-!
# Floats as exact binary fractions

A finite 32-bit float is a signed integer times a power of two. Rounding to a whole number and the
remainder of a division have exact results, so they are computed here on that integer and packed
again; no floating-point operation is involved and nothing is rounded on the way.
-/

namespace Wirescript.Number

/-- What a 32-bit float denotes: a finite one is `± mantissa · 2 ^ exponent`. -/
inductive Binary where
  | nan
  | infinite (negative : Bool)
  | finite (negative : Bool) (mantissa : Nat) (exponent : Int)
  deriving DecidableEq, Repr

/-- The exponent of the last place of the smallest positive float. -/
def lastPlace : Int := -149

/-- The number of mantissa bits of a normal float, the leading one included. -/
def precision : Nat := 24

/-- The weight of a binary place. -/
def twoPow (place : Nat) : Nat := Nat.pow 2 place

/-- Reads the fields of a float. -/
def decode (x : Float32) : Binary :=
  let bits := x.toBits.toNat
  let negative := decide (twoPow 31 ≤ bits)
  let exponent := bits / twoPow 23 % twoPow 8
  let fraction := bits % twoPow 23
  if exponent = 255 then
    if fraction = 0 then .infinite negative else .nan
  else if exponent = 0 then
    .finite negative fraction lastPlace
  else
    .finite negative (twoPow 23 + fraction) (lastPlace + (exponent - 1 : Nat))

/-- The float `± mantissa · 2 ^ exponent`, for a product that some float equals exactly. -/
def pack (negative : Bool) (mantissa : Nat) (exponent : Int) : Float32 :=
  let sign : Nat := if negative then twoPow 31 else 0
  if mantissa = 0 then
    Float32.ofBits (UInt32.ofNat sign)
  else
    let place : Int := max (exponent + (mantissa.log2 + 1 : Nat) - precision) lastPlace
    let digits :=
      if place ≤ exponent then mantissa * twoPow (exponent - place).toNat
      else mantissa / twoPow (place - exponent).toNat
    if digits < twoPow 23 then
      Float32.ofBits (UInt32.ofNat (sign + digits))
    else
      Float32.ofBits
        (UInt32.ofNat (sign + ((place - lastPlace).toNat + 1) * twoPow 23 + (digits - twoPow 23)))

/-! ### Rounding to a whole number -/

/-- Rounds a finite magnitude to a whole number: `up negative remainder denominator` tells whether
the magnitude goes to the next whole number. The sign is kept, also by a zero. -/
def roundBy (up : Bool → Nat → Nat → Bool) (x : Float32) : Float32 :=
  match decode x with
  | .nan | .infinite _ => x
  | .finite negative mantissa exponent =>
    if 0 ≤ exponent then x
    else
      let denominator := twoPow (-exponent).toNat
      let quotient := mantissa / denominator
      let remainder := mantissa % denominator
      if remainder = 0 then x
      else if up negative remainder denominator then pack negative (quotient + 1) 0
      else pack negative quotient 0

/-- The largest whole number that is not above. -/
def floor (x : Float32) : Float32 := roundBy (fun negative _ _ ↦ negative) x

/-- The smallest whole number that is not below. -/
def ceiling (x : Float32) : Float32 := roundBy (fun negative _ _ ↦ !negative) x

/-- The nearest whole number; a half goes away from zero. -/
def round (x : Float32) : Float32 :=
  roundBy (fun _ remainder denominator ↦ decide (denominator ≤ 2 * remainder)) x

/-! ### Remainder, minimum, maximum -/

/-- The remainder of the division that truncates toward zero. It has the sign of the dividend. -/
def remainder (x y : Float32) : Float32 :=
  match decode x, decode y with
  | .finite negative mx ex, .finite _ my ey =>
    if my = 0 then 0 / 0
    else
      let place := min ex ey
      pack negative (mx * twoPow (ex - place).toNat % (my * twoPow (ey - place).toNat)) place
  | .finite .., .infinite _ => x
  | _, _ => 0 / 0

/-- The lesser of two floats, the first one when they are equal. A NaN loses against anything. -/
def minimum (x y : Float32) : Float32 :=
  if x.isNaN then y else if y < x then y else x

/-- The greater of two floats, the first one when they are equal. A NaN loses against anything. -/
def maximum (x y : Float32) : Float32 :=
  if x.isNaN then y else if x < y then y else x

/-- The whole number from 0 to 255 that a float is, if it is one. -/
def byte? (x : Float32) : Option Nat :=
  match decode x with
  | .nan | .infinite _ => none
  | .finite negative mantissa exponent =>
    let (quotient, rest) :=
      if 0 ≤ exponent then (mantissa * twoPow exponent.toNat, 0)
      else (mantissa / twoPow (-exponent).toNat, mantissa % twoPow (-exponent).toNat)
    if rest ≠ 0 ∨ 255 < quotient ∨ (negative ∧ quotient ≠ 0) then none else some quotient

end Wirescript.Number
