/-
  LineBasic.Program

  Programs: numbered lines of statements.  Lines are kept in the order in which
  they were written; `Program.listing` is the order in which they run.
-/

import LineBasic.Expr

namespace LineBasic

-- ============================================================================
-- Statements
-- ============================================================================

/-- A statement.  Every statement knows where it starts. -/
inductive Stmt where
  | assign (pos : Position) (name : String) (value : Expr)
  | print (pos : Position) (value : Expr)
  | goto (pos : Position) (target : Nat)
  | gosub (pos : Position) (target : Nat)
  | return_ (pos : Position)
  | ifThen (pos : Position) (condition : Expr) (target : Nat)
  | input (pos : Position) (name : String)
  | forNext (pos : Position) (name : String) (start stop : Expr) (step : Option Expr)
      (body : List Stmt)
  | end_ (pos : Position)
deriving Repr, Inhabited

namespace Stmt

/-- Where a statement starts. -/
def pos : Stmt → Position
  | assign p _ _ => p
  | print p _ => p
  | goto p _ => p
  | gosub p _ => p
  | return_ p => p
  | ifThen p _ _ => p
  | input p _ => p
  | forNext p _ _ _ _ _ => p
  | end_ p => p

/-- The name a statement's form goes by in journals. -/
def formName : Stmt → String
  | assign .. => "AssignStmt"
  | print .. => "PrintStmt"
  | goto .. => "GotoStmt"
  | gosub .. => "GosubStmt"
  | return_ .. => "ReturnStmt"
  | ifThen .. => "IfStmt"
  | input .. => "InputStmt"
  | forNext .. => "ForStmt"
  | end_ .. => "EndStmt"

mutual

/-- Whether two statements are the same, positions included. -/
def same : Stmt → Stmt → Bool
  | assign p x e, assign q y f => p = q && x = y && e = f
  | print p e, print q f => p = q && e = f
  | goto p n, goto q m => p = q && n = m
  | gosub p n, gosub q m => p = q && n = m
  | return_ p, return_ q => p = q
  | ifThen p e n, ifThen q f m => p = q && e = f && n = m
  | input p x, input q y => p = q && x = y
  | forNext p x a b c ss, forNext q y d e f ts =>
    p = q && x = y && a = d && b = e && c = f && sameList ss ts
  | end_ p, end_ q => p = q
  | _, _ => false

/-- Whether two lists hold the same statements in the same order. -/
def sameList : List Stmt → List Stmt → Bool
  | [], [] => true
  | s :: ss, t :: ts => same s t && sameList ss ts
  | _, _ => false

end

mutual

theorem same_iff (s t : Stmt) : same s t = true ↔ s = t := by
  cases s <;> cases t <;> simp [same, and_assoc]
  case forNext.forNext p x a b c ss q y d e f ts => simp [sameList_iff ss ts]

theorem sameList_iff (ss ts : List Stmt) : sameList ss ts = true ↔ ss = ts := by
  cases ss <;> cases ts <;> simp [sameList]
  case cons.cons s ss t ts => rw [same_iff s t, sameList_iff ss ts]

end

instance : DecidableEq Stmt := fun s t => decidable_of_iff _ (same_iff s t)

end Stmt

-- ============================================================================
-- Lines and programs
-- ============================================================================

/-- A numbered line. -/
structure Line where
  number : Nat
  stmts : List Stmt
  pos : Position
deriving DecidableEq, Repr

/-- A program, in the order in which its lines were written. -/
structure Program where
  lines : List Line
deriving DecidableEq, Repr

namespace Program

/-- Puts a line among lines in ascending order; a line that is already there under
    the same number gives way. -/
def place (line : Line) : List Line → List Line
  | [] => [line]
  | l :: ls =>
    if line.number < l.number then line :: l :: ls
    else if line.number = l.number then line :: ls
    else l :: place line ls

/-- The lines in ascending order.  Of several lines with one number the one that
    was written first counts. -/
def listing (p : Program) : List Line := p.lines.foldr place []

end Program

end LineBasic
