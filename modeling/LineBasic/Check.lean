/-
  LineBasic.Check

  The rules a program has to keep: distinct line numbers, jumps to lines that
  exist, numbers where numbers are needed, calls of known functions with one
  argument in their domain.

  Checking a program leaves a list of findings, what was met in which order, up
  to the first fault.  Journal, messages and inventory are all read off the
  findings (`LineBasic.Check.Analysis`).
-/

import LineBasic.Builtin
import LineBasic.Numeral.Layout
import LineBasic.Program
import LineBasic.Traced

namespace LineBasic

-- ============================================================================
-- Faults
-- ============================================================================

/-- The type of a value. -/
inductive Ty where
  | number
  | text
deriving DecidableEq, Repr

/-- The name of a type. -/
def Ty.name : Ty → String
  | number => "number"
  | text => "string"

/-- A statement that names a line to go on from. -/
inductive Jump where
  | goto
  | gosub
  | ifThen
deriving DecidableEq, Repr

namespace Jump

/-- The keyword of a jump. -/
def keyword : Jump → String
  | goto => "GOTO"
  | gosub => "GOSUB"
  | ifThen => "IF"

/-- The name a jump goes by in journals. -/
def formName : Jump → String
  | goto => "Goto"
  | gosub => "Gosub"
  | ifThen => "IfThen"

end Jump

/-- The numbers that govern a loop. -/
inductive Bound where
  | start
  | stop
  | step
deriving DecidableEq, Repr

/-- The name of a bound. -/
def Bound.name : Bound → String
  | start => "start"
  | stop => "end"
  | step => "step"

/-- What a program can do wrong. -/
inductive Fault where
  | duplicateLine (number : Nat)
  | missingTarget (jump : Jump) (target : Nat)
  | textAssigned (name : String)
  | textCondition
  | textBound (bound : Bound)
  | textSigned (sign : Sign)
  | mixedComparison (lhs rhs : Ty)
  | textArithmetic (op : Arith)
  | unknownFunction (name : String)
  | wrongArity (name : String) (expected found : Nat)
  | textArgument (name : String)
  | comparisonArgument (name : String)
  | outOfDomain (name : String) (value : Float) (why : Builtin.DomainFault)
deriving DecidableEq, Repr

namespace Fault

/-- The fault in words, without its place. -/
def text : Fault → String
  | duplicateLine n => s!"ControlFlowError: duplicate line number {n}"
  | missingTarget jump n => s!"ControlFlowError: missing {jump.keyword} target line {n}"
  | textAssigned name => s!"TypeError: cannot assign string to numeric variable {name}"
  | textCondition => "TypeError: IF condition cannot be string"
  | textBound bound => s!"TypeError: FOR {bound.name} must be numeric"
  | textSigned sign => s!"TypeError: unary '{sign.spelling}' not applicable to string"
  | mixedComparison l r => s!"TypeError: cannot compare {l.name} with {r.name}"
  | textArithmetic op => s!"TypeError: arithmetic '{op.spelling}' on string"
  | unknownFunction name => s!"NameError: unknown function {name}"
  | wrongArity name expected found =>
    s!"ArityError: {name} expects {expected} argument(s), got {found}"
  | textArgument name => s!"TypeError: {name} argument must be numeric"
  | comparisonArgument name => s!"DomainError: {name} argument cannot be a comparison"
  | outOfDomain name x why => s!"DomainError: {name} of {Numeral.plain x} ({why.text})"

end Fault

/-- A fault and where it lies. -/
structure CheckError where
  fault : Fault
  pos : Position
deriving DecidableEq, Repr

/-- The fault in words. -/
def CheckError.message (e : CheckError) : String := s!"{e.fault.text} at {e.pos.text}"

-- ============================================================================
-- Findings
-- ============================================================================

/-- Something met while a program is checked. -/
inductive Finding where
  | line (number : Nat)
  | variable_ (name : String) (pos : Position)
  | literal (value : String) (pos : Position)
  | call (name : String) (pos : Position)
  | jump (jump : Jump) (target : Nat) (pos : Position)
  | missing (jump : Jump) (target : Nat) (pos : Position)
  | loop (name : String) (pos : Position)
  | bodyStart
  | bodyEnd
  | returned (pos : Position)
  | ended (pos : Position)
deriving DecidableEq, Repr

/-- A check: findings up to its end or up to the first fault. -/
abbrev Check : Type → Type := Traced CheckError Finding

namespace Check

/-- Reports a fault at `pos`. -/
def refuse {α : Type} (fault : Fault) (pos : Position) : Check α := Traced.fail ⟨fault, pos⟩

/-- Reports a fault unless a condition holds. -/
def require (condition : Bool) (fault : Fault) (pos : Position) : Check Unit :=
  if condition then pure () else refuse fault pos

end Check

-- ============================================================================
-- Expressions
-- ============================================================================

/-- Checks the argument of a function beyond its type: what the function refuses,
    and a constant outside its domain. -/
def Builtin.checkArgument (b : Builtin) (name : String) (arg : Expr) : Check Unit := do
  Check.require (!(b.refusesComparison && arg.isComparison)) (.comparisonArgument name) arg.pos
  match arg.constant? with
  | none => pure ()
  | some x =>
    match b.domainFault? x with
    | none => pure ()
    | some why => Check.refuse (.outOfDomain name x why) arg.pos

/-- The type of an operator's result, given the types of its operands. -/
def BinaryOp.check (op : BinaryOp) (pos : Position) (lhs rhs : Ty) : Check Ty := do
  match op with
  | .compare _ => Check.require (lhs = rhs) (.mixedComparison lhs rhs) pos
  | .arith a => Check.require (lhs = .number && rhs = .number) (.textArithmetic a) pos
  return .number

namespace Expr

/-- Checks an expression and finds its type. -/
def check : Expr → Check Ty
  | number _ _ => pure .number
  | text pos value => do
    Traced.note (.literal value pos)
    return .text
  | var pos name => do
    Traced.note (.variable_ name pos)
    return .number
  | unary pos sign operand => do
    let ty ← check operand
    Check.require (ty = .number) (.textSigned sign) pos
    return .number
  | binary pos op lhs rhs => do
    let l ← check lhs
    let r ← check rhs
    op.check pos l r
  | call pos name args => do
    Traced.note (.call name pos)
    match Builtin.ofName? name, args with
    | none, _ => Check.refuse (.unknownFunction name) pos
    | some b, [arg] => do
      let ty ← check arg
      Check.require (ty = .number) (.textArgument name) arg.pos
      b.checkArgument name arg
      return .number
    | some b, args => Check.refuse (.wrongArity name b.arity args.length) pos

/-- Checks an expression that has to be a number. -/
def checkNumber (e : Expr) (fault : Fault) : Check Unit := do
  let ty ← e.check
  Check.require (ty = .number) fault e.pos

end Expr

-- ============================================================================
-- Statements and programs
-- ============================================================================

/-- The lines a program has, and whether a jump elsewhere is a fault. -/
structure Targets where
  lines : List Nat
  strict : Bool

/-- Checks the target of a jump. -/
def Targets.check (targets : Targets) (jump : Jump) (target : Nat) (pos : Position) :
    Check Unit :=
  if target ∈ targets.lines then pure ()
  else if targets.strict then Check.refuse (.missingTarget jump target) pos
  else Traced.note (.missing jump target pos)

namespace Stmt

mutual

/-- Checks a statement. -/
def check (targets : Targets) : Stmt → Check Unit
  | assign pos name value => do
    Traced.note (.variable_ name pos)
    value.checkNumber (.textAssigned name)
  | print _ value => do
    let _ ← value.check
  | goto pos target => do
    Traced.note (.jump .goto target pos)
    targets.check .goto target pos
  | gosub pos target => do
    Traced.note (.jump .gosub target pos)
    targets.check .gosub target pos
  | return_ pos => Traced.note (.returned pos)
  | ifThen pos condition target => do
    Traced.note (.jump .ifThen target pos)
    condition.checkNumber .textCondition
    targets.check .ifThen target pos
  | input pos name => Traced.note (.variable_ name pos)
  | forNext pos name start stop step body => do
    Traced.note (.loop name pos)
    Traced.note (.variable_ name pos)
    start.checkNumber (.textBound .start)
    stop.checkNumber (.textBound .stop)
    match step with
    | some e => e.checkNumber (.textBound .step)
    | none => pure ()
    Traced.note .bodyStart
    checkList targets body
    Traced.note .bodyEnd
  | end_ pos => Traced.note (.ended pos)

/-- Checks statements in order. -/
def checkList (targets : Targets) : List Stmt → Check Unit
  | [] => pure ()
  | s :: ss => do
    check targets s
    checkList targets ss

end

end Stmt

/-- Checks lines in order. -/
def checkLines (targets : Targets) : List Line → Check Unit
  | [] => pure ()
  | l :: ls => do
    Traced.note (.line l.number)
    Stmt.checkList targets l.stmts
    checkLines targets ls

/-- The first line whose number is among `seen` or that of a line before it. -/
def repeated? (seen : List Nat) : List Line → Option Line
  | [] => none
  | l :: ls => if l.number ∈ seen then some l else repeated? (l.number :: seen) ls

/-- Checks a program. -/
def Program.check (p : Program) (strict : Bool) : Check Unit :=
  match repeated? [] p.lines with
  | some l => Check.refuse (.duplicateLine l.number) l.pos
  | none => checkLines ⟨p.lines.map Line.number, strict⟩ p.lines

end LineBasic
