/-
  LineBasic.Numeral

  Numbers in source texts: line numbers, and the literals of doubles.
-/

import LineBasic.Decimal.Binary64

namespace LineBasic.Numeral

/-- The largest line number. -/
def lineNumberMax : Nat := 4294967295

/-- Reads a line number: digits, perhaps behind a plus sign, that write a number
    within bounds. -/
def lineNumber? (text : String) : Option Nat :=
  let cs := match text.toList with
    | '+' :: rest => rest
    | cs => cs
  if cs ≠ [] ∧ cs.all Char.isDigit ∧ Decimal.ofDigits cs ≤ lineNumberMax then
    some (Decimal.ofDigits cs)
  else none

/-- Splits off a sign; true is minus. -/
def takeSign : List Char → Bool × List Char
  | '-' :: rest => (true, rest)
  | '+' :: rest => (false, rest)
  | cs => (false, cs)

/-- Reads what follows the digits of a decimal number: nothing, or a power of ten
    behind an `e` in either case. -/
def exponent? : List Char → Option Int
  | [] => some 0
  | c :: rest =>
    let (minus, cs) := takeSign rest
    if c.toLower = 'e' ∧ cs ≠ [] ∧ cs.all Char.isDigit then
      let n : Int := Decimal.ofDigits cs
      some (if minus then -n else n)
    else none

/-- Reads a decimal number without a sign: digits, perhaps a dot among, before or
    behind them, perhaps a power of ten. -/
def decimal? (cs : List Char) : Option Decimal :=
  let whole := cs.takeWhile Char.isDigit
  let (fraction, rest) := match cs.dropWhile Char.isDigit with
    | '.' :: rest => (rest.takeWhile Char.isDigit, rest.dropWhile Char.isDigit)
    | rest => ([], rest)
  if whole ++ fraction = [] then none
  else (exponent? rest).map fun e =>
    ⟨Decimal.ofDigits (whole ++ fraction), e - fraction.length⟩

/-- Reads a double without a sign: a decimal number, or one of the words for what
    is not a finite number, in any case. -/
def magnitude? (cs : List Char) : Option Float :=
  let word := String.ofList (cs.map Char.toLower)
  if word = "inf" ∨ word = "infinity" then some (1.0 / 0.0)
  else if word = "nan" then some (0.0 / 0.0)
  else (decimal? cs).map Decimal.toFloat

/-- Reads a double, perhaps behind a sign; of all doubles the nearest to the
    number written. -/
def double? (text : String) : Option Float :=
  let (minus, cs) := takeSign text.toList
  (magnitude? cs).map fun x => if minus then -x else x

end LineBasic.Numeral
