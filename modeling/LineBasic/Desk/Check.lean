/-
  LineBasic.Desk.Check

  Checking programs at a desk.  The analyst has everything it met at hand: it asks
  its own memory whether a variable is new and whether a jump leads anywhere, and
  writes every finding down as it comes.  A fault is written down last.
-/

import LineBasic.Check.Analyst
import LineBasic.Desk

namespace LineBasic

/-- The work of an analyst. -/
abbrev Visit : Type → Type := Work Analyst CheckError

namespace Visit

-- ============================================================================
-- Findings and faults
-- ============================================================================

/-- Gives up because of a fault at `pos`. -/
def refuse {α : Type} (fault : Fault) (pos : Position) : Visit α := throw ⟨fault, pos⟩

/-- Gives up unless a condition holds. -/
def require (condition : Bool) (fault : Fault) (pos : Position) : Visit Unit :=
  if condition then pure () else refuse fault pos

/-- Writes a finding down and remembers it. -/
def find (f : Finding) : Visit Unit := do
  let scopes ← Work.look Analyst.scopes
  Work.enterAll (f.entries scopes)
  Work.change (·.meet f)

-- ============================================================================
-- Expressions
-- ============================================================================

/-- Checks the argument of a function beyond its type. -/
def argument (b : Builtin) (name : String) (arg : Expr) : Visit Unit := do
  require (!(b.refusesComparison && arg.isComparison)) (.comparisonArgument name) arg.pos
  match arg.constant? with
  | none => pure ()
  | some x =>
    match b.domainFault? x with
    | none => pure ()
    | some why => refuse (.outOfDomain name x why) arg.pos

/-- The type of an operator's result, given the types of its operands. -/
def operator (op : BinaryOp) (pos : Position) (lhs rhs : Ty) : Visit Ty := do
  match op with
  | .compare _ => require (lhs = rhs) (.mixedComparison lhs rhs) pos
  | .arith a => require (lhs = .number && rhs = .number) (.textArithmetic a) pos
  return .number

/-- Checks an expression and finds its type. -/
def expr : Expr → Visit Ty
  | .number _ _ => pure .number
  | .text pos value => do
    find (.literal value pos)
    return .text
  | .var pos name => do
    find (.variable_ name pos)
    return .number
  | .unary pos sign operand => do
    let ty ← expr operand
    require (ty = .number) (.textSigned sign) pos
    return .number
  | .binary pos op lhs rhs => do
    let l ← expr lhs
    let r ← expr rhs
    operator op pos l r
  | .call pos name args => do
    find (.call name pos)
    match Builtin.ofName? name, args with
    | none, _ => refuse (.unknownFunction name) pos
    | some b, [arg] => do
      let ty ← expr arg
      require (ty = .number) (.textArgument name) arg.pos
      argument b name arg
      return .number
    | some b, args => refuse (.wrongArity name b.arity args.length) pos

/-- Checks an expression that has to be a number. -/
def number (e : Expr) (fault : Fault) : Visit Unit := do
  let ty ← expr e
  require (ty = .number) fault e.pos

-- ============================================================================
-- Statements and programs
-- ============================================================================

/-- Checks the target of a jump against the lines taken in. -/
def target (jump : Jump) (target : Nat) (pos : Position) : Visit Unit := do
  let a ← Work.look id
  if target ∈ a.lines then pure ()
  else if a.strict then refuse (.missingTarget jump target) pos
  else find (.missing jump target pos)

mutual

/-- Checks a statement. -/
def stmt : Stmt → Visit Unit
  | .assign pos name value => do
    find (.variable_ name pos)
    number value (.textAssigned name)
  | .print _ value => do
    let _ ← expr value
  | .goto pos line => do
    find (.jump .goto line pos)
    target .goto line pos
  | .gosub pos line => do
    find (.jump .gosub line pos)
    target .gosub line pos
  | .return_ pos => find (.returned pos)
  | .ifThen pos condition line => do
    find (.jump .ifThen line pos)
    number condition .textCondition
    target .ifThen line pos
  | .input pos name => find (.variable_ name pos)
  | .forNext pos name start stop step body => do
    find (.loop name pos)
    find (.variable_ name pos)
    number start (.textBound .start)
    number stop (.textBound .stop)
    match step with
    | some e => number e (.textBound .step)
    | none => pure ()
    find .bodyStart
    stmts body
    find .bodyEnd
  | .end_ pos => find (.ended pos)

/-- Checks statements in order. -/
def stmts : List Stmt → Visit Unit
  | [] => pure ()
  | s :: rest => do
    stmt s
    stmts rest

end

/-- Checks lines in order. -/
def lines : List Line → Visit Unit
  | [] => pure ()
  | l :: rest => do
    find (.line l.number)
    stmts l.stmts
    lines rest

/-- Takes in the numbers of lines; one that is there already is a fault. -/
def register : List Line → Visit Unit
  | [] => pure ()
  | l :: rest => do
    let a ← Work.look id
    if l.number ∈ a.lines then refuse (.duplicateLine l.number) l.pos
    else
      Work.change fun a => { a with lines := a.lines.insert l.number }
      register rest

/-- Takes up a program and checks it. -/
def program (p : Program) : Visit Inventory := do
  Work.change Analyst.forget
  register p.lines
  lines p.lines
  Work.look Analyst.inventory

/-- Checks a program; the journal closes with the fault, if there is one. -/
def workOn (p : Program) : Visit Inventory :=
  tryCatch (program p) fun e => do
    Work.record e.message
    throw e

end Visit

end LineBasic
