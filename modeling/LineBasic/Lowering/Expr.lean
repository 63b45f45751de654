/-
  LineBasic.Lowering.Expr

  The code of expressions.  Operands are worked out from left to right, each
  once; the value of an expression is an operand for the code that follows.
-/

import LineBasic.Lowering

namespace LineBasic

open Straight

/-- Code that tells whether a relation holds between the texts `a` and `b`. -/
def Relation.lowerTexts (env : Env) (rel : Relation) (a b : String) : Straight Temp := do
  let x ← env.textAddress a
  let y ← env.textAddress b
  let order ← define (.compareTexts · x y)
  define (.compareOrder · rel order)

/-- Code that tells whether a relation holds.  Two string literals are compared as
    texts; any other operands are worked out by the code given for them. -/
def Relation.lower (env : Env) (rel : Relation) (lhs rhs : Expr)
    (lhsCode rhsCode : Straight Operand) : Straight Temp :=
  match lhs, rhs with
  | .text _ a, .text _ b => rel.lowerTexts env a b
  | _, _ => do
    let l ← lhsCode
    let r ← rhsCode
    define (.compare · rel l r)

/-- Code for a function on the value of its argument. -/
def Builtin.lower (b : Builtin) (x : Operand) : Straight Operand :=
  match b with
  | .cdbl => return x
  | .rnd => return .temp (← define .draw)
  | .fix => do
    let whole ← define (.toInteger · x)
    return .temp (← define (.ofInteger · whole))
  | .sgn => do
    let above ← define (.compare · .gt x (.literal 0.0))
    let one ← define (.ofTruth · above)
    let below ← define (.compare · .lt x (.literal 0.0))
    let other ← define (.ofTruth · below)
    return .temp (← define (.arith · .sub (.temp one) (.temp other)))
  | .csng => do
    let single ← define (.toSingle · x)
    return .temp (← define (.ofSingle · single))
  | .math f => return .temp (← define (.call · f x))

namespace Expr

/-- Code for a numeric expression. -/
def lower (env : Env) : Expr → Straight Operand
  | number _ x => return .literal x
  | text pos _ => fail (.textAsNumber pos)
  | var _ name => do
    env.requireSlot name
    return .temp (← define (.load · name))
  | unary _ .plus operand => lower env operand
  | unary _ .minus operand => do
    let x ← lower env operand
    return .temp (← defineAs .negation (.arith · .sub (.literal 0.0) x))
  | binary _ (.compare rel) lhs rhs => do
    let c ← rel.lower env lhs rhs (lower env lhs) (lower env rhs)
    return .temp (← define (.ofTruth · c))
  | binary _ (.arith op) lhs rhs => do
    let l ← lower env lhs
    let r ← lower env rhs
    return .temp (← define (.arith · op l r))
  | call pos name args =>
    match Builtin.ofName? name, args with
    | none, _ => fail (.unknownFunction name pos)
    | some b, [arg] => do
      let x ← lower env arg
      b.lower x
    | some b, args => fail (.wrongArity name b.arity args.length pos)

/-- Code for the condition of a decision, which has to be a comparison. -/
def lowerCondition (env : Env) : Expr → Straight Temp
  | binary _ (.compare rel) lhs rhs =>
    rel.lower env lhs rhs (lhs.lower env) (rhs.lower env)
  | e => fail (.conditionNotComparison e.pos)

end Expr

end LineBasic
