/-
  LineBasic.Simplify

  Simplification before code is generated.  Operators on literals are worked
  out, operands that change nothing are dropped, a decision that is known
  beforehand is taken, and a step of one is left to the default.  A division by
  a literal zero stays as it is.
-/

import LineBasic.Diagnostic
import LineBasic.Program

namespace LineBasic

-- ============================================================================
-- Expressions
-- ============================================================================

namespace Expr

/-- Whether an expression is a literal that equals `x`; the two zeros are equal. -/
def isLiteral (e : Expr) (x : Float) : Bool :=
  match e.literal? with
  | some y => y == x
  | none => false

/-- An operator on two simplified operands of which at most one is a literal. -/
def dropNeutral (pos : Position) (op : BinaryOp) (lhs rhs : Expr) : Expr :=
  match op with
  | .arith .add =>
    if lhs.isLiteral 0.0 then rhs
    else if rhs.isLiteral 0.0 then lhs
    else .binary pos op lhs rhs
  | .arith .sub =>
    if rhs.isLiteral 0.0 then lhs else .binary pos op lhs rhs
  | .arith .mul =>
    if lhs.isLiteral 0.0 || rhs.isLiteral 0.0 then .number pos 0.0
    else if lhs.isLiteral 1.0 then rhs
    else if rhs.isLiteral 1.0 then lhs
    else .binary pos op lhs rhs
  | .arith .div =>
    if rhs.isLiteral 1.0 then lhs else .binary pos op lhs rhs
  | .compare _ => .binary pos op lhs rhs

/-- An operator on two simplified operands. -/
def simplifyBinary (pos : Position) (op : BinaryOp) (lhs rhs : Expr) : Expr :=
  match lhs.literal?, rhs.literal? with
  | some l, some r =>
    if op = .arith .div ∧ (r == 0.0) = true then .binary pos op lhs rhs
    else .number pos (op.apply l r)
  | _, _ => dropNeutral pos op lhs rhs

/-- A sign in front of a simplified operand. -/
def simplifySigned (pos : Position) (sign : Sign) (operand : Expr) : Expr :=
  match sign with
  | .plus => operand
  | .minus =>
    match operand.literal? with
    | some x => .number pos (-x)
    | none => .unary pos .minus operand

mutual

/-- The simplified form of an expression, worked out from the leaves upwards. -/
def simplify : Expr → Expr
  | number pos x => .number pos x
  | text pos s => .text pos s
  | var pos x => .var pos x
  | unary pos sign operand => simplifySigned pos sign (simplify operand)
  | binary pos op lhs rhs => simplifyBinary pos op (simplify lhs) (simplify rhs)
  | call pos name args => .call pos name (simplifyList args)

/-- The simplified forms of several expressions. -/
def simplifyList : List Expr → List Expr
  | [] => []
  | e :: es => simplify e :: simplifyList es

end

end Expr

-- ============================================================================
-- Statements
-- ============================================================================

namespace Stmt

/-- The simplified form of a statement in the body of a loop. -/
def simplifyInBody : Stmt → Stmt
  | assign pos name value => .assign pos name value.simplify
  | print pos value => .print pos value.simplify
  | s => s

/-- The simplified form of a step; a step of one is no step. -/
def simplifyStep (step : Option Expr) : Option Expr :=
  (step.map Expr.simplify).filter fun e => !e.isLiteral 1.0

/-- The simplified form of a decision.  A condition that is known to hold makes a
    jump of it, one that is known to fail leaves nothing. -/
def simplifyDecision (pos : Position) (condition : Expr) (target : Nat) : Option Stmt :=
  match condition.literal? with
  | some x => if x == 0.0 then none else some (.goto pos target)
  | none => some (.ifThen pos condition target)

/-- The simplified form of a statement on a line, if anything is left of it. -/
def simplify? : Stmt → Option Stmt
  | assign pos name value => some (.assign pos name value.simplify)
  | print pos value => some (.print pos value.simplify)
  | ifThen pos condition target => simplifyDecision pos condition.simplify target
  | forNext pos name start stop step body =>
    some (.forNext pos name start.simplify stop.simplify (simplifyStep step)
      (body.map simplifyInBody))
  | s => some s

end Stmt

-- ============================================================================
-- Programs
-- ============================================================================

/-- The simplified form of a line. -/
def Line.simplify (line : Line) : Line :=
  { line with stmts := line.stmts.filterMap Stmt.simplify? }

namespace Program

/-- The simplified form of a program. -/
def simplify (p : Program) : Program := ⟨p.lines.map Line.simplify⟩

/-- How many statements stand on the lines of a program. -/
def stmtCount (p : Program) : Nat := (p.lines.flatMap fun l => l.stmts).length

/-- Said when a program has been simplified: how many statements are gone. -/
def simplified (p : Program) : Diagnostic :=
  ⟨.debug, s!"optimized program removed={p.stmtCount - p.simplify.stmtCount}"⟩

end Program

end LineBasic
