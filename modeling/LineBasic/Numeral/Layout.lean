/-
  LineBasic.Numeral.Layout

  How doubles are written.  The digits are always the fewest that read back; a
  layout decides where the decimal point goes.  Two layouts are in use: literals
  of the generated code, and numbers in messages.
-/

import LineBasic.Decimal.Shortest

namespace LineBasic.Numeral

/-- Digits with a decimal point: `0.d₁d₂… * 10 ^ point`. -/
structure Digits where
  digits : List Char
  point : Int

/-- The digits of a decimal number, without zeros at the end. -/
def Digits.of (d : Decimal) : Digits :=
  let all := Decimal.digits d.coefficient
  { digits := (all.reverse.dropWhile (· = '0')).reverse
    point := all.length + d.exponent }

/-- Where the decimal point goes. -/
structure Layout where
  /-- The values of `point` that are written without a power of ten. -/
  positional : Int → Bool
  /-- Whether a whole number shows a dot and a zero behind it. -/
  showsPoint : Bool

namespace Layout

/-- The literals of the generated code always show a point, and have a power of
    ten below `10 ^ -4` and from `10 ^ 16` on. -/
def literal : Layout := ⟨fun point => -3 ≤ point && point ≤ 16, true⟩

/-- Numbers in messages have no power of ten, and show a point only where one is
    needed. -/
def plain : Layout := ⟨fun _ => true, false⟩

/-- What follows the last digit of a whole number. -/
def wholeEnd (layout : Layout) : List Char := if layout.showsPoint then ['.', '0'] else []

/-- Digits in their places. -/
def placed (layout : Layout) (d : Digits) : List Char :=
  if d.point ≤ 0 then
    '0' :: '.' :: List.replicate (-d.point).toNat '0' ++ d.digits
  else if d.digits.length ≤ d.point.toNat then
    d.digits ++ List.replicate (d.point.toNat - d.digits.length) '0' ++ layout.wholeEnd
  else
    d.digits.take d.point.toNat ++ '.' :: d.digits.drop d.point.toNat

/-- A point behind the first digit, and a power of ten. -/
def scientific (layout : Layout) (d : Digits) : List Char :=
  let exponent := d.point - 1
  let mantissa := match d.digits with
    | [] => []
    | [c] => c :: layout.wholeEnd
    | c :: rest => c :: '.' :: rest
  mantissa ++ 'e' :: (if exponent < 0 then ['-'] else []) ++ Decimal.digits exponent.natAbs

/-- The magnitude of a finite pattern. -/
def magnitude (layout : Layout) (bits : Nat) : List Char :=
  if bits = 0 then '0' :: layout.wholeEnd
  else
    let d := Digits.of (Decimal.shortest bits)
    if layout.positional d.point then layout.placed d else layout.scientific d

/-- A finite double with its sign. -/
def finite (layout : Layout) (x : Float) : String :=
  String.ofList
    ((if Binary64.negative x then ['-'] else []) ++ layout.magnitude (Binary64.magnitude x))

end Layout

/-- The sixteen upper-case hexadecimal digits of a bit pattern. -/
def hexWord (bits : Nat) : String :=
  let ds := (Nat.toDigits 16 bits).map Char.toUpper
  String.ofList (List.replicate (16 - ds.length) '0' ++ ds)

/-- A double in the generated code: infinities and undefined values by their bits,
    all others in decimal. -/
def literal (x : Float) : String :=
  if x.isFinite then Layout.literal.finite x else "0x" ++ hexWord x.toBits.toNat

/-- A double in a message. -/
def plain (x : Float) : String :=
  if x.isFinite then Layout.plain.finite x
  else if x.isNaN then "NaN"
  else if Binary64.negative x then "-inf" else "inf"

end LineBasic.Numeral
