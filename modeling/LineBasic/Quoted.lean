/-
  LineBasic.Quoted

  Texts on a single journal line.  Control characters, the double quote and the
  backslash are written as escapes, so that an escaped text never breaks a line
  and never closes the quotes around it.
-/

namespace LineBasic.Quoted

/-- Hexadecimal digit of `n < 16`, in upper case. -/
def hexDigit (n : Nat) : Char :=
  if n < 10 then Char.ofNat (48 + n) else Char.ofNat (55 + n)

/-- The two upper-case hexadecimal digits of `n < 256`. -/
def hexPair (n : Nat) : List Char := [hexDigit (n / 16), hexDigit (n % 16)]

/-- How one character is written on a journal line. -/
def escapeChar (c : Char) : List Char :=
  if c = '\\' then ['\\', '\\']
  else if c = '\n' then ['\\', 'n']
  else if c = '\r' then ['\\', 'r']
  else if c = '\t' then ['\\', 't']
  else if c = '"' then ['\\', '"']
  else if c.toNat < 0x20 ∨ c.toNat = 0x7f then '\\' :: 'x' :: hexPair c.toNat
  else [c]

/-- A text as it is written on a journal line. -/
def escape (s : String) : String := String.ofList (s.toList.flatMap escapeChar)

end LineBasic.Quoted
