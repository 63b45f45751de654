/-
  LineBasic.Decimal.Binary64

  Doubles as exact numbers.  The magnitude of a finite double is a whole number
  of units of `2 ^ -1074`, the smallest positive double, so exact arithmetic on
  doubles is arithmetic on natural numbers.

  - `Binary64.units` is the magnitude behind a bit pattern;
  - `Binary64.nearest` is the bit pattern of the double nearest to a quotient,
    an exact half going to the even pattern.
-/

import LineBasic.Decimal

namespace LineBasic

namespace Binary64

/-- One is `2 ^ unitBits` units. -/
def unitBits : Nat := 1074

/-- Number of stored bits of a significand. -/
def fractionBits : Nat := 52

/-- The bit pattern of positive infinity; smaller patterns are finite. -/
def infinity : Nat := 0x7FF0000000000000

/-- The bit pattern of a double without its sign. -/
def magnitude (x : Float) : Nat := x.toBits.toNat % Nat.pow 2 63

/-- Whether the sign bit is set. -/
def negative (x : Float) : Bool := Nat.pow 2 63 ≤ x.toBits.toNat

/-- The exponent field of a pattern. -/
def exponentField (bits : Nat) : Nat := bits / Nat.pow 2 fractionBits

/-- The fraction field of a pattern. -/
def fractionField (bits : Nat) : Nat := bits % Nat.pow 2 fractionBits

/-- The distance, in units, from a double to the next larger one. -/
def spacing (bits : Nat) : Nat := Nat.pow 2 (exponentField bits - 1)

/-- The magnitude, in units, of a finite pattern. -/
def units (bits : Nat) : Nat :=
  if exponentField bits = 0 then fractionField bits
  else (Nat.pow 2 fractionBits + fractionField bits) * spacing bits

/-- The whole number nearest to `n / d`, an exact half going to the even one. -/
def roundHalfEven (n d : Nat) : Nat :=
  let q := n / d
  let r := n % d
  if 2 * r < d then q
  else if d < 2 * r then q + 1
  else q + q % 2

/-- The pattern of the double nearest to `n / d`; infinity when that lies beyond
    the finite ones. -/
def nearest (n d : Nat) : Nat :=
  let scaled := n * Nat.pow 2 unitBits
  let shift := (scaled / d).log2 - fractionBits
  min infinity (shift * Nat.pow 2 fractionBits + roundHalfEven scaled (d * Nat.pow 2 shift))

end Binary64

namespace Decimal

/-- Exponents beyond which a number is known to be out of range without looking
    at its digits. -/
def exponentBound : Int := 400

/-- The pattern of the double nearest to a decimal number.  A number far out of
    range is settled by its exponent alone. -/
def nearestBits (d : Decimal) : Nat :=
  if d.coefficient = 0 then 0
  else if exponentBound < d.exponent then Binary64.infinity
  else if d.exponent < -(exponentBound + d.coefficient.log2) then 0
  else Binary64.nearest d.ratio.1 d.ratio.2

/-- The double nearest to a decimal number. -/
def toFloat (d : Decimal) : Float := Float.ofBits (UInt64.ofNat d.nearestBits)

end Decimal

end LineBasic
