/-
  LineBasic.CommandLine.Arguments

  The arguments of the command.  They are taken from left to right: the first one
  that makes no sense, or that asks for the version or for help, settles what
  happens.  Every flag but the one for more messages, and every option, may be
  given once.
-/

import LineBasic.Compile

namespace LineBasic.CommandLine

-- ============================================================================
-- Invocations
-- ============================================================================

/-- Where the source text comes from. -/
inductive Input where
  | stdin
  | file (path : String)
deriving DecidableEq, Repr

/-- What to compile, how, and where everything goes. -/
structure Invocation where
  input : Input
  output : Option String
  journals : Phase → Option String
  settings : Settings
  verbosity : Nat

/-- What the arguments ask for. -/
inductive Request where
  | compile (i : Invocation)
  | version
  | help

/-- What is wrong with the arguments. -/
inductive UsageError where
  | unknown (arg : String)
  | repeated (arg : String)
  | missingValue (arg : String)
  | unneededValue (arg : String)
  | unexpected (arg : String)
  | missingInput
deriving DecidableEq, Repr

/-- The fault in words. -/
def UsageError.message : UsageError → String
  | unknown arg => s!"unexpected argument '{arg}' found"
  | repeated arg => s!"the argument '{arg}' cannot be used multiple times"
  | missingValue arg => s!"a value is required for '{arg}' but none was supplied"
  | unneededValue arg => s!"unexpected value for '{arg}' found; no more were expected"
  | unexpected arg => s!"unexpected argument '{arg}' found"
  | missingInput => "the following required arguments were not provided:\n  <INPUT>"

-- ============================================================================
-- Options
-- ============================================================================

/-- A flag. -/
inductive Flag where
  | simplify
  | relaxed
  | verbose
  | version
  | help
deriving DecidableEq, Repr

/-- An option that takes a file. -/
inductive FileOption where
  | output
  | journal (phase : Phase)
deriving DecidableEq, Repr

/-- A flag or an option. -/
inductive Switch where
  | flag (f : Flag)
  | file (o : FileOption)
deriving DecidableEq, Repr

/-- The switch with a long name. -/
def Switch.ofLong? : String → Option Switch
  | "ll" => some (.file .output)
  | "lex-log" => some (.file (.journal .scan))
  | "syntax-log" => some (.file (.journal .read))
  | "semantic-log" => some (.file (.journal .check))
  | "log" => some (.file (.journal .lower))
  | "optimize" => some (.flag .simplify)
  | "relaxed" => some (.flag .relaxed)
  | "verbose" => some (.flag .verbose)
  | "version" => some (.flag .version)
  | "help" => some (.flag .help)
  | _ => none

/-- The flag with a short name. -/
def Flag.ofShort? : Char → Option Flag
  | 'O' => some .simplify
  | 'v' => some .verbose
  | 'V' => some .version
  | 'h' => some .help
  | _ => none

-- ============================================================================
-- Reading arguments
-- ============================================================================

/-- What the arguments so far have settled. -/
structure Draft where
  input : Option String
  output : Option String
  journals : Phase → Option String
  simplify : Bool
  relaxed : Bool
  verbosity : Nat

namespace Draft

/-- Nothing settled. -/
def initial : Draft := ⟨none, none, fun _ => none, false, false, 0⟩

/-- What reading an argument comes to: an early answer, or going on. -/
abbrev Answer : Type → Type := Except (Except UsageError Request)

/-- Ends in a fault. -/
def refuse {α : Type} (e : UsageError) : Answer α := .error (.error e)

/-- Takes a flag, written as `arg`. -/
def flag (d : Draft) (arg : String) : Flag → Answer Draft
  | .simplify =>
    if d.simplify then refuse (.repeated arg) else return { d with simplify := true }
  | .relaxed =>
    if d.relaxed then refuse (.repeated arg) else return { d with relaxed := true }
  | .verbose => return { d with verbosity := d.verbosity + 1 }
  | .version => .error (.ok .version)
  | .help => .error (.ok .help)

/-- Takes flags written together. -/
def flags (d : Draft) : List Char → Answer Draft
  | [] => return d
  | c :: cs => do
    match Flag.ofShort? c with
    | some f => flags (← d.flag (String.ofList ['-', c]) f) cs
    | none => refuse (.unknown (String.ofList ['-', c]))

/-- Takes the file of an option, written as `arg`; a file has a name. -/
def file (d : Draft) (arg : String) (o : FileOption) (path : String) : Answer Draft :=
  if path = "" then refuse (.missingValue arg)
  else
    match o with
    | .output =>
      if d.output.isSome then refuse (.repeated arg) else return { d with output := some path }
    | .journal phase =>
      if (d.journals phase).isSome then refuse (.repeated arg)
      else
        return { d with journals := fun p => if p = phase then some path else d.journals p }

/-- Takes the source. -/
def positional (d : Draft) (arg : String) : Answer Draft :=
  if d.input.isSome then refuse (.unexpected arg) else return { d with input := some arg }

/-- Takes several arguments that are no options. -/
def positionals (d : Draft) : List String → Answer Draft
  | [] => return d
  | arg :: args => do positionals (← d.positional arg) args

/-- Whether an argument could be the value of the option before it. -/
def isValue (arg : String) : Bool := !arg.startsWith "-" || arg = "-"

/-- Splits an argument at its first equals sign. -/
def splitValue (cs : List Char) : String × Option String :=
  let name := String.ofList (cs.takeWhile (· ≠ '='))
  match cs.dropWhile (· ≠ '=') with
  | _ :: value => (name, some (String.ofList value))
  | [] => (name, none)

/-- Takes all arguments. -/
def all (d : Draft) : List String → Answer Draft
  | [] => return d
  | arg :: args => do
    match arg.toList with
    | ['-', '-'] => d.positionals args
    | '-' :: '-' :: cs =>
      let (name, value) := splitValue cs
      match Switch.ofLong? name, value, args with
      | none, _, _ => refuse (.unknown arg)
      | some (.flag _), some _, _ => refuse (.unneededValue arg)
      | some (.flag f), none, args => all (← d.flag arg f) args
      | some (.file o), some path, args => all (← d.file arg o path) args
      | some (.file _), none, [] => refuse (.missingValue arg)
      | some (.file o), none, path :: args =>
        if isValue path then all (← d.file arg o path) args else refuse (.missingValue arg)
    | '-' :: c :: cs => all (← d.flags (c :: cs)) args
    | _ => all (← d.positional arg) args

/-- The invocation that has been settled. -/
def invocation (d : Draft) : Except UsageError Request :=
  match d.input with
  | none => .error .missingInput
  | some input =>
    .ok (.compile {
      input := if input = "-" then .stdin else .file input
      output := d.output
      journals := d.journals
      settings := ⟨!d.relaxed, d.simplify⟩
      verbosity := d.verbosity })

end Draft

/-- What the arguments ask for. -/
def Request.ofArguments (args : List String) : Except UsageError Request :=
  match Draft.initial.all args with
  | .ok draft => draft.invocation
  | .error answer => answer

end LineBasic.CommandLine
