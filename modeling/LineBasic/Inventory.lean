/-
  LineBasic.Inventory

  What a program holds: the variables it names, the texts it prints or compares,
  and the numbers of its lines.
-/

import LineBasic.Ascending
import LineBasic.Program

namespace LineBasic

/-- The variables, string literals and line numbers of a program. -/
structure Inventory where
  names : Ascending String
  texts : Ascending String
  lines : Ascending Nat
deriving DecidableEq

namespace Expr

mutual

/-- The variables that occur in an expression. -/
def names : Expr → List String
  | number _ _ => []
  | text _ _ => []
  | var _ name => [name]
  | unary _ _ operand => names operand
  | binary _ _ lhs rhs => names lhs ++ names rhs
  | call _ _ args => namesOfList args

/-- The variables that occur in some of the expressions. -/
def namesOfList : List Expr → List String
  | [] => []
  | e :: es => names e ++ namesOfList es

end

mutual

/-- The string literals that occur in an expression. -/
def texts : Expr → List String
  | number _ _ => []
  | text _ value => [value]
  | var _ _ => []
  | unary _ _ operand => texts operand
  | binary _ _ lhs rhs => texts lhs ++ texts rhs
  | call _ _ args => textsOfList args

/-- The string literals that occur in some of the expressions. -/
def textsOfList : List Expr → List String
  | [] => []
  | e :: es => texts e ++ textsOfList es

end

end Expr

namespace Stmt

mutual

/-- The variables that occur in a statement. -/
def names : Stmt → List String
  | assign _ name value => name :: value.names
  | print _ value => value.names
  | goto _ _ => []
  | gosub _ _ => []
  | return_ _ => []
  | ifThen _ condition _ => condition.names
  | input _ name => [name]
  | forNext _ name start stop step body =>
    name :: start.names ++ stop.names ++ Expr.namesOfList step.toList
      ++ namesOfList body
  | end_ _ => []

/-- The variables that occur in some of the statements. -/
def namesOfList : List Stmt → List String
  | [] => []
  | s :: ss => names s ++ namesOfList ss

end

mutual

/-- The string literals that occur in a statement. -/
def texts : Stmt → List String
  | assign _ _ value => value.texts
  | print _ value => value.texts
  | goto _ _ => []
  | gosub _ _ => []
  | return_ _ => []
  | ifThen _ condition _ => condition.texts
  | input _ _ => []
  | forNext _ _ start stop step body =>
    start.texts ++ stop.texts ++ Expr.textsOfList step.toList ++ textsOfList body
  | end_ _ => []

/-- The string literals that occur in some of the statements. -/
def textsOfList : List Stmt → List String
  | [] => []
  | s :: ss => texts s ++ textsOfList ss

end

end Stmt

namespace Program

/-- Everything a program holds. -/
def inventory (p : Program) : Inventory where
  names := .ofList (p.lines.flatMap fun l => Stmt.namesOfList l.stmts)
  texts := .ofList (p.lines.flatMap fun l => Stmt.textsOfList l.stmts)
  lines := .ofList (p.lines.map Line.number)

end Program

end LineBasic
