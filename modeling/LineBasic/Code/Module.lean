/-
  LineBasic.Code.Module

  Modules of generated code.  The body of the one function is a list of
  emissions: labels, instructions with the line they belong to and the part they
  play there, and notes.  The text of the module shows labels and instructions,
  the journal shows instructions and notes.
-/

import LineBasic.Code.Constant
import LineBasic.Code.Instr
import LineBasic.Journal
import LineBasic.Position

namespace LineBasic

-- ============================================================================
-- Emissions
-- ============================================================================

/-- The part an instruction plays, where the instruction alone does not tell. -/
inductive Role where
  | ordinary
  | initial
  | goto
  | gosub
  | return_
  | end_
  | decision
  | loopInit
  | loopTest
  | loopStep
  | negation
deriving DecidableEq, Repr

/-- An instruction and the part it plays. -/
structure Step where
  role : Role
  instr : Instr
deriving DecidableEq, Repr

/-- The name a step goes by in journals. -/
def Step.eventName (s : Step) : String :=
  match s.role with
  | .ordinary => s.instr.eventName
  | .initial => "init"
  | .goto => "goto"
  | .gosub => "gosub"
  | .return_ => "return"
  | .end_ => "end"
  | .decision => "if"
  | .loopInit => "for_init"
  | .loopTest => "for_cond"
  | .loopStep => "for_inc"
  | .negation => "neg"

/-- Something the journal shows and the code does not. -/
inductive Note where
  | line (number : Nat)
  | subroutineLine (number : Nat)
  | danglingGoto (target : Nat) (pos : Position)
  | danglingGosub (target : Nat) (next : Label)
deriving DecidableEq, Repr

/-- How a note is written. -/
def Note.text : Note → String
  | line n => s!"begin line {n}"
  | subroutineLine n => s!"begin subroutine line {n}"
  | danglingGoto n pos => s!"dangling GOTO {n} at {pos.text} falls through"
  | danglingGosub n next => s!"dangling GOSUB {n} jumps to {next.text}"

/-- One piece of generated code. -/
inductive Emission where
  | label (l : Label)
  | step (site : Option Nat) (s : Step)
  | note (n : Note)
deriving DecidableEq, Repr

namespace Emission

/-- What an emission adds to the text of the code. -/
def text : Emission → String
  | label l => s!"{l.text}:\n"
  | step _ s => s!"  {s.instr.text}\n"
  | note _ => ""

/-- What an emission adds to the journal. -/
def record? : Emission → Option String
  | label _ => none
  | step (some n) s => some s!"line {n} {s.eventName} -> {s.instr.text}"
  | step none s => some s!"entry {s.eventName} -> {s.instr.text}"
  | note n => some n.text

/-- The instruction of an emission, if it has one. -/
def instr? : Emission → Option Instr
  | step _ s => some s.instr
  | _ => none

/-- The journal lines of emissions. -/
def entries (es : List Emission) : List Journal.Entry :=
  (es.filterMap record?).map .record

end Emission

-- ============================================================================
-- Modules
-- ============================================================================

/-- A module: the string literals of the program in order, the body of its
    function, and the size of what it was made from. -/
structure Module where
  texts : List String
  body : List Emission
  lineCount : Nat
  variableCount : Nat
  tempCount : Nat
deriving DecidableEq

namespace Module

/-- The instructions of a module. -/
def instrs (m : Module) : List Instr := m.body.filterMap Emission.instr?

/-- The functions a module has to declare: those it calls. -/
def externals (m : Module) : List External :=
  External.all.filter fun x => m.instrs.any fun i => i.external? = some x

/-- The first lines of every module. -/
def header : String := "; ModuleID = 'basic'\nsource_filename = \"basic\"\n\n"

/-- The declarations of a module, and a blank line behind them. -/
def declarations (m : Module) : String :=
  if m.externals = [] then ""
  else String.join (m.externals.map fun x => x.declaration ++ "\n") ++ "\n"

/-- The formats every module defines. -/
def formats : String :=
  "@.fmt_num = private unnamed_addr constant [4 x i8] c\"%f\\0A\\00\"\n" ++
  "@.fmt_str = private unnamed_addr constant [4 x i8] c\"%s\\0A\\00\"\n" ++
  "@.fmt_in = private unnamed_addr constant [4 x i8] c\"%lf\\00\"\n"

/-- The definitions of the string literals. -/
def constants (m : Module) : String :=
  String.join (m.texts.zipIdx.map fun (s, k) => Constant.definition k s ++ "\n")

/-- The function of a module. -/
def function (m : Module) : String :=
  "define i32 @main() \x7b\n" ++ String.join (m.body.map Emission.text) ++ "\x7d\n"

/-- How a module is written. -/
def text (m : Module) : String :=
  header ++ m.declarations ++ formats ++ m.constants ++ "\n" ++ m.function

/-- Said when a module has been made. -/
def generated (m : Module) : Diagnostic :=
  ⟨.debug, s!"generated module lines={m.lineCount} variables={m.variableCount} strings={m.texts.length} temps={m.tempCount}"⟩

end Module

end LineBasic
