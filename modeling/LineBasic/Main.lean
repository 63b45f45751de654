/-
  LineBasic.Main

  The command on a real machine.
-/

import LineBasic.CommandLine.Run

namespace LineBasic.CommandLine

/-- The reason of a failed operation in words, with the number the system gives it. -/
def complaint : IO.Error → String
  | .noFileOrDirectory _ code details => s!"{details} (os error {code})"
  | .permissionDenied _ code details => s!"{details} (os error {code})"
  | .inappropriateType _ code details => s!"{details} (os error {code})"
  | .invalidArgument _ code details => s!"{details} (os error {code})"
  | .resourceExhausted _ code details => s!"{details} (os error {code})"
  | .otherError code details => s!"{details} (os error {code})"
  | e => toString e

/-- The outcome of an operation, or the reason why it failed. -/
def attempt {α : Type} (action : IO α) : IO (Except String α) := do
  match ← action.toBaseIO with
  | .ok a => return .ok a
  | .error e => return .error (complaint e)

instance : Host IO where
  create path := attempt do
    IO.FS.writeBinFile path .empty
    return .unbounded
  read
    | .stdin => return .ok (← attempt do (← IO.getStdin).readBinToEnd)
    | .file path => do
      match ← attempt (IO.FS.Handle.mk path .read) with
      | .ok handle => return .ok (← attempt handle.readBinToEnd)
      | .error why => return .error why
  overwrite path bytes := do
    let handle ← IO.FS.Handle.mk path .readWrite
    handle.write bytes
  write path bytes := attempt (IO.FS.writeBinFile path bytes)
  print text := IO.print text
  tell line := IO.eprintln line

end LineBasic.CommandLine

/-- Runs the command with its arguments. -/
def main (args : List String) : IO UInt32 := do
  return UInt32.ofNat (← LineBasic.CommandLine.run args)
