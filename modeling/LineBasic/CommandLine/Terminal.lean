/-
  LineBasic.CommandLine.Terminal

  Messages on a terminal.  Characters that could steer the terminal are spelled
  out, so that a message that holds foreign text is shown and not obeyed.  Line
  ends and tabs stay as they are.
-/

namespace LineBasic.CommandLine.Terminal

/-- The hexadecimal digits of `n`, in lower case. -/
def hex (n : Nat) : List Char := Nat.toDigits 16 n

/-- How one character is shown.  Bell, backspace, form feed, escape and delete are
    spelled by their two digits, the control codes from 0x80 to 0x9F as code points. -/
def showChar (c : Char) : List Char :=
  if c.toNat = 0x07 ∨ c.toNat = 0x08 ∨ c.toNat = 0x0c then '\\' :: 'x' :: '0' :: hex c.toNat
  else if c.toNat = 0x1b ∨ c.toNat = 0x7f then '\\' :: 'x' :: hex c.toNat
  else if 0x80 ≤ c.toNat ∧ c.toNat ≤ 0x9f then '\\' :: 'u' :: '\x7b' :: hex c.toNat ++ ['\x7d']
  else [c]

/-- A message as it is shown. -/
def spell (message : String) : String := String.ofList (message.toList.flatMap showChar)

end LineBasic.CommandLine.Terminal
