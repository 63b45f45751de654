/-
  LineBasic.Expr

  Expressions: operators, the tree, and the value of an expression that is made
  of number literals and operators alone.
-/

import LineBasic.Position

namespace LineBasic

-- ============================================================================
-- Operators
-- ============================================================================

/-- A sign in front of an operand. -/
inductive Sign where
  | plus
  | minus
deriving DecidableEq, Repr

namespace Sign

/-- How a sign is written. -/
def spelling : Sign → String
  | plus => "+"
  | minus => "-"

/-- The operand with the sign applied. -/
def apply : Sign → Float → Float
  | plus, x => x
  | minus, x => -x

end Sign

/-- An operation on two numbers. -/
inductive Arith where
  | add
  | sub
  | mul
  | div
deriving DecidableEq, Repr

namespace Arith

/-- How an operation is written. -/
def spelling : Arith → String
  | add => "+"
  | sub => "-"
  | mul => "*"
  | div => "/"

/-- The result of an operation on doubles. -/
def apply : Arith → Float → Float → Float
  | add, l, r => l + r
  | sub, l, r => l - r
  | mul, l, r => l * r
  | div, l, r => l / r

end Arith

/-- A relation between two values. -/
inductive Relation where
  | eq
  | ne
  | lt
  | le
  | gt
  | ge
deriving DecidableEq, Repr

namespace Relation

/-- How a relation is written. -/
def spelling : Relation → String
  | eq => "="
  | ne => "<>"
  | lt => "<"
  | le => "<="
  | gt => ">"
  | ge => ">="

/-- Whether a relation holds between doubles.  An undefined value is unequal to
    everything, itself included. -/
def holds : Relation → Float → Float → Bool
  | eq, l, r => l == r
  | ne, l, r => !(l == r)
  | lt, l, r => l < r
  | le, l, r => l ≤ r
  | gt, l, r => r < l
  | ge, l, r => r ≤ l

end Relation

/-- The number that stands for a truth value. -/
def truth (b : Bool) : Float := if b then 1.0 else 0.0

/-- An operator between two operands. -/
inductive BinaryOp where
  | arith (op : Arith)
  | compare (rel : Relation)
deriving DecidableEq, Repr

namespace BinaryOp

/-- How an operator is written. -/
def spelling : BinaryOp → String
  | arith op => op.spelling
  | compare rel => rel.spelling

/-- Whether an operator compares its operands. -/
def isComparison : BinaryOp → Bool
  | arith _ => false
  | compare _ => true

/-- The result of an operator on doubles; a comparison gives one or zero. -/
def apply : BinaryOp → Float → Float → Float
  | arith op, l, r => op.apply l r
  | compare rel, l, r => truth (rel.holds l r)

/-- Every operator, once. -/
def all : List BinaryOp :=
  [.add, .sub, .mul, .div].map arith ++ [.eq, .ne, .lt, .le, .gt, .ge].map compare

/-- The operator written as `spelling`. -/
def ofSpelling? (spelling : String) : Option BinaryOp :=
  all.find? fun op => op.spelling == spelling

end BinaryOp

-- ============================================================================
-- Expressions
-- ============================================================================

/-- An expression.  Every node knows where it stands: an operator's node where the
    operator is written, any other where it starts. -/
inductive Expr where
  | number (pos : Position) (value : Float)
  | text (pos : Position) (value : String)
  | var (pos : Position) (name : String)
  | unary (pos : Position) (sign : Sign) (operand : Expr)
  | binary (pos : Position) (op : BinaryOp) (lhs rhs : Expr)
  | call (pos : Position) (name : String) (args : List Expr)
deriving Repr, Inhabited

namespace Expr

/-- Where an expression stands. -/
def pos : Expr → Position
  | number p _ => p
  | text p _ => p
  | var p _ => p
  | unary p _ _ => p
  | binary p _ _ _ => p
  | call p _ _ => p

/-- Whether the outermost operator is a comparison. -/
def isComparison : Expr → Bool
  | binary _ op _ _ => op.isComparison
  | _ => false

/-- The value of a number literal. -/
def literal? : Expr → Option Float
  | number _ x => some x
  | _ => none

/-- The value of an expression that holds nothing but number literals and
    operators. -/
def constant? : Expr → Option Float
  | number _ x => some x
  | unary _ sign operand => (constant? operand).map sign.apply
  | binary _ op lhs rhs =>
    match constant? lhs, constant? rhs with
    | some l, some r => some (op.apply l r)
    | _, _ => none
  | _ => none

-- ----------------------------------------------------------------------------
-- Equality
-- ----------------------------------------------------------------------------

mutual

/-- Whether two expressions are the same, positions and bits of numbers included. -/
def same : Expr → Expr → Bool
  | number p x, number q y => p = q && x = y
  | text p s, text q t => p = q && s = t
  | var p x, var q y => p = q && x = y
  | unary p s e, unary q t f => p = q && s = t && same e f
  | binary p o a b, binary q r c d => p = q && o = r && same a c && same b d
  | call p f as, call q g bs => p = q && f = g && sameList as bs
  | _, _ => false

/-- Whether two lists hold the same expressions in the same order. -/
def sameList : List Expr → List Expr → Bool
  | [], [] => true
  | a :: as, b :: bs => same a b && sameList as bs
  | _, _ => false

end

mutual

theorem same_iff (a b : Expr) : same a b = true ↔ a = b := by
  cases a <;> cases b <;> simp [same, and_assoc]
  case unary.unary p s e q t f => simp [same_iff e f]
  case binary.binary p o a b q r c d => simp [same_iff a c, same_iff b d]
  case call.call p f as q g bs => simp [sameList_iff as bs]

theorem sameList_iff (as bs : List Expr) : sameList as bs = true ↔ as = bs := by
  cases as <;> cases bs <;> simp [sameList]
  case cons.cons a as b bs => rw [same_iff a b, sameList_iff as bs]

end

instance : DecidableEq Expr := fun a b => decidable_of_iff _ (same_iff a b)

end Expr

end LineBasic
