/-
  LineBasic.CommandLine.Run

  Running the command.  The command works on whatever can make, read and write
  files and print lines (`Host`), so that the same steps run on a real machine
  and on a directory held in memory.
-/

import LineBasic.CommandLine.Arguments
import LineBasic.CommandLine.Terminal

namespace LineBasic.CommandLine

/-- What the command needs from its surroundings.  A complaint is the reason why
    something could not be done. -/
class Host (m : Type → Type) where
  /-- Makes an empty file, or empties the one that is there; the result is a sink for what is
      to be written to it. -/
  create : String → m (Except String Sink)
  /-- Opens the source and reads it; the two steps may fail for different reasons. -/
  read : Input → m (Except String (Except String ByteArray))
  /-- Writes over the first bytes of a file that was made before, as far as it takes them. -/
  overwrite : String → ByteArray → m Unit
  /-- Makes an empty file, or empties the one that is there, and writes the given bytes to it;
      either step may fail. -/
  write : String → ByteArray → m (Except String Unit)
  /-- Prints a text. -/
  print : String → m Unit
  /-- Prints a line for the eyes of the user. -/
  tell : String → m Unit

variable {m : Type → Type} [Monad m] [Host m]

/-- How the command introduces itself. -/
def versionText : String := "basicc 0.1.0\n"

/-- How the command is used. -/
def helpText : String :=
  "Compile line-numbered BASIC to LLVM IR\n\n" ++
  "Usage: basicc [OPTIONS] <INPUT>\n\n" ++
  "Arguments:\n" ++
  "  <INPUT>  Source file, or `-` to read standard input\n\n" ++
  "Options:\n" ++
  "      --ll <FILE>            Write the IR to FILE instead of standard output\n" ++
  "  -O, --optimize             Fold constants and simplify expressions before code generation\n" ++
  "      --relaxed              Warn about missing GOTO/GOSUB/IF targets instead of failing\n" ++
  "      --lex-log <FILE>       \n" ++
  "      --syntax-log <FILE>    \n" ++
  "      --semantic-log <FILE>  \n" ++
  "      --log <FILE>           Code generation log\n" ++
  "  -v, --verbose...           \n" ++
  "  -h, --help                 Print help\n" ++
  "  -V, --version              Print version\n"

/-- The least severe messages that are shown. -/
def Invocation.threshold (i : Invocation) : Severity :=
  match i.verbosity with
  | 0 => .warn
  | 1 => .info
  | _ => .debug

/-- Shows a message, if it matters enough. -/
def Invocation.say (i : Invocation) (d : Diagnostic) : m Unit :=
  if d.visibleAt i.threshold then Host.tell (Terminal.spell d.text) else pure ()

/-- Shows messages in order. -/
def Invocation.sayAll (i : Invocation) : List Diagnostic → m Unit
  | [] => pure ()
  | d :: ds => do
    i.say d
    i.sayAll ds

/-- Ends in failure. -/
def failure (why : String) : m Nat := do
  Host.tell s!"error: {why}"
  return 1

/-- Opens the journals of phases in order; a journal that cannot be opened is off. -/
def Invocation.openJournals (i : Invocation) (js : Journals) : List Phase → m Journals
  | [] => return js
  | phase :: phases => do
    match i.journals phase with
    | none => i.openJournals js phases
    | some path =>
      match ← Host.create path with
      | .ok sink => i.openJournals (js.set phase (.into sink)) phases
      | .error why =>
        i.say (Journal.openFailed path why)
        i.openJournals js phases

/-- Writes to their files what those journals of phases have received that were open at first. -/
def Invocation.writeJournals (i : Invocation) (opened js : Journals) : List Phase → m Unit
  | [] => return
  | phase :: phases => do
    match i.journals phase with
    | some path =>
      if (opened phase).enabled then
        Host.overwrite path (js phase).received
    | none => pure ()
    i.writeJournals opened js phases

/-- Puts the code where it belongs. -/
def Invocation.deliver (i : Invocation) (code : String) : m Nat := do
  match i.output with
  | none =>
    Host.print code
    return 0
  | some path =>
    match ← Host.write path code.toUTF8 with
    | .ok () =>
      i.say ⟨.info, s!"wrote {path}"⟩
      return 0
    | .error why => failure why

/-- Compiles as asked; the result is the exit code. -/
def Invocation.run (i : Invocation) : m Nat := do
  let journals ← i.openJournals .off Phase.all
  match ← Host.read i.input with
  | .error why => failure why
  | .ok source =>
    let report := compileBytes i.settings journals source
    i.sayAll report.said
    i.writeJournals journals report.journals Phase.all
    match report.outcome with
    | .ok module => i.deliver module.text
    | .error e => failure e.message

/-- Does what the arguments ask for; the result is the exit code. -/
def run (args : List String) : m Nat := do
  match Request.ofArguments args with
  | .ok (.compile i) => i.run
  | .ok .version =>
    Host.print versionText
    return 0
  | .ok .help =>
    Host.print helpText
    return 0
  | .error e =>
    Host.tell s!"error: {e.message}"
    return 2

end LineBasic.CommandLine
