/-
  LineBasic.Code.Constant

  String literals as constant texts of a module: the bytes of the text in UTF-8
  and a zero byte.  Printable characters stand for themselves, except the double
  quote and the backslash; every other byte is a backslash and two digits.
-/

import LineBasic.Quoted

namespace LineBasic.Constant

/-- How one byte is written. -/
def escapeByte (b : UInt8) : List Char :=
  if 0x20 ≤ b ∧ b ≤ 0x7e ∧ b ≠ 0x22 ∧ b ≠ 0x5c then [Char.ofNat b.toNat]
  else '\\' :: Quoted.hexPair b.toNat

/-- How a text is written between the quotes of a constant. -/
def escape (s : String) : String := String.ofList (s.toUTF8.toList.flatMap escapeByte)

/-- The definition of the constant text number `k`. -/
def definition (k : Nat) (s : String) : String :=
  s!"@.str.{k} = private unnamed_addr constant [{s.utf8ByteSize + 1} x i8] c\"{escape s}\\00\""

end LineBasic.Constant
