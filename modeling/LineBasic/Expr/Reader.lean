/-
  LineBasic.Expr.Reader

  Reading expressions: comparisons over sums over products over signs over
  operands.  Each of the three binary levels is a chain of operands that groups
  to the left, and differs from the others in its operators only.
-/

import LineBasic.Expr
import LineBasic.Reading

namespace LineBasic.Expr

-- ============================================================================
-- Operators of the levels
-- ============================================================================

/-- The comparison that a token writes. -/
def comparison? : TokenKind → Option BinaryOp
  | .symbol .equal => some (.compare .eq)
  | .symbol .notEqual => some (.compare .ne)
  | .symbol .less => some (.compare .lt)
  | .symbol .lessEqual => some (.compare .le)
  | .symbol .greater => some (.compare .gt)
  | .symbol .greaterEqual => some (.compare .ge)
  | _ => none

/-- The operator of a sum that a token writes. -/
def additive? : TokenKind → Option BinaryOp
  | .symbol .plus => some (.arith .add)
  | .symbol .minus => some (.arith .sub)
  | _ => none

/-- The operator of a product that a token writes. -/
def multiplicative? : TokenKind → Option BinaryOp
  | .symbol .star => some (.arith .mul)
  | .symbol .slash => some (.arith .div)
  | _ => none

/-- The sign that a token writes. -/
def sign? : TokenKind → Option Sign
  | .symbol .plus => some .plus
  | .symbol .minus => some .minus
  | _ => none

-- ============================================================================
-- Chains and signs
-- ============================================================================

/-- A way to read expressions off `ts` and everything no longer than `ts`. -/
abbrev Level (ts : List Token) : Type :=
  (us : List Token) → us.length ≤ ts.length → Reply Expr us

/-- Reads the operators and operands that follow `lhs`. -/
def chainRest (op? : TokenKind → Option BinaryOp) (lhs : Expr) :
    (ts : List Token) → Level ts → Reply Expr ts
  | [], _ => .ok lhs [] (List.suffix_refl _)
  | t :: us, operand =>
    match op? t.kind with
    | none => .ok lhs (t :: us) (List.suffix_refl _)
    | some op =>
      ((operand us (Nat.le_succ _)).andThen fun rhs rest h =>
        chainRest op? (.binary t.pos op lhs rhs) rest fun vs hv =>
          operand vs (Nat.le_trans hv (Nat.le_succ_of_le h.length_le))).widen
        (List.suffix_cons t us)
termination_by ts => ts.length
decreasing_by
  have := h.length_le
  simp only [List.length_cons]
  omega

/-- Reads operands with operators between them, grouped to the left. -/
def chain (op? : TokenKind → Option BinaryOp) (ts : List Token) (operand : Level ts) :
    Reply Expr ts :=
  (operand ts (Nat.le_refl _)).andThen fun lhs rest h =>
    chainRest op? lhs rest fun us hu => operand us (Nat.le_trans hu h.length_le)

/-- Reads an operand behind any number of signs. -/
def signed : (ts : List Token) → Level ts → Reply Expr ts
  | [], operand => operand [] (Nat.le_refl _)
  | t :: us, operand =>
    match sign? t.kind with
    | some s =>
      ((signed us fun vs hv => operand vs (Nat.le_succ_of_le hv)).map (.unary t.pos s)).widen
        (List.suffix_cons t us)
    | none => operand (t :: us) (Nat.le_refl _)

-- ============================================================================
-- Operands
-- ============================================================================

/-- Reads arguments with commas between them, and the closing parenthesis. -/
def arguments (ts : List Token) (argument : Level ts) : Reply (List Expr) ts :=
  (argument ts (Nat.le_refl _)).andThen fun arg rest h =>
    match rest, h with
    | [], _ => .error .rightParen [] (List.suffix_refl _)
    | t :: us, h =>
      if t.kind = .symbol .comma then
        ((arguments us fun vs hv =>
          argument vs (by have := h.length_le; simp only [List.length_cons] at this; omega)).map
            (arg :: ·)).widen (List.suffix_cons t us)
      else (takeRightParen (t :: us)).map fun _ => [arg]
termination_by ts.length
decreasing_by
  have := h.length_le
  simp only [List.length_cons] at this
  omega

/-- Reads what follows the opening parenthesis of a call. -/
def callRest (ts : List Token) (argument : Level ts) : Reply (List Expr) ts :=
  match ts with
  | [] => arguments [] argument
  | t :: us =>
    if t.kind = .symbol .rightParen then .ok [] us (List.suffix_cons t us)
    else arguments (t :: us) argument

/-- Reads a name, which is a call when a parenthesis follows. -/
def named (t : Token) (ts : List Token) (argument : Level ts) : Reply Expr ts :=
  match ts with
  | [] => .ok (.var t.pos t.lexeme) [] (List.suffix_refl _)
  | u :: us =>
    if u.kind = .symbol .leftParen then
      ((callRest us fun vs hv => argument vs (Nat.le_succ_of_le hv)).map
        (.call t.pos t.lexeme)).widen (List.suffix_cons u us)
    else .ok (.var t.pos t.lexeme) (u :: us) (List.suffix_refl _)

/-- Reads a literal, a variable, a call, or an expression in parentheses. -/
def operand : (ts : List Token) →
    ((us : List Token) → us.length < ts.length → Reply Expr us) → Reply Expr ts
  | [], _ => .error .expression [] (List.suffix_refl _)
  | t :: us, inner =>
    match t.kind with
    | .integer | .decimal =>
      match Numeral.double? t.lexeme with
      | some x => .ok (.number t.pos x) us (List.suffix_cons t us)
      | none => .error .numericLiteral (t :: us) (List.suffix_refl _)
    | .text => .ok (.text t.pos t.lexeme) us (List.suffix_cons t us)
    | .identifier =>
      (named t us fun vs hv => inner vs (Nat.lt_succ_of_le hv)).widen (List.suffix_cons t us)
    | .symbol .leftParen =>
      ((inner us (Nat.lt_succ_self _)).andThen fun e rest _ =>
        (takeRightParen rest).map fun _ => e).widen (List.suffix_cons t us)
    | _ => .error .expression (t :: us) (List.suffix_refl _)

-- ============================================================================
-- Expressions
-- ============================================================================

/-- Reads an expression. -/
def read (ts : List Token) : Reply Expr ts :=
  chain comparison? ts fun us _ =>
    chain additive? us fun vs _ =>
      chain multiplicative? vs fun ws _ =>
        signed ws fun xs _ =>
          operand xs fun ys _ => read ys
termination_by ts.length
decreasing_by omega

end LineBasic.Expr
