/-
  LineBasic.Proofs.Meaning

  What expressions mean.  Nothing is assumed about numbers, their operations, the
  functions of the mathematical library or the world outside: a `Meaning` gives an
  arbitrary interpretation to each of them, and the value of an expression is worked
  out over it from left to right.
-/

import LineBasic.Builtin
import LineBasic.Expr

namespace LineBasic

-- ============================================================================
-- Memory and effects
-- ============================================================================

/-- Something a running program does that can be seen. -/
inductive Effect (Num : Type) where
  | stored (name : String) (value : Num)
  | printed (value : Num)
  | printedText (text : String)
  | read (name : String) (value : Option Num)
  | compared (rel : Relation) (outcome : Bool)

/-- The values of the variables, the world outside, and the effects so far. -/
structure Memory (Num Outer : Type) where
  store : String → Num
  outer : Outer
  done : List (Effect Num)

namespace Memory

variable {Num Outer : Type}

/-- Adds an effect. -/
def perform (μ : Memory Num Outer) (e : Effect Num) : Memory Num Outer :=
  { μ with done := μ.done ++ [e] }

/-- Gives a variable a value, unseen. -/
def set (μ : Memory Num Outer) (name : String) (value : Num) : Memory Num Outer :=
  { μ with store := fun x => if x = name then value else μ.store x }

/-- Gives a variable a value. -/
def assign (μ : Memory Num Outer) (name : String) (value : Num) : Memory Num Outer :=
  (μ.set name value).perform (.stored name value)

/-- Reads a number into a variable; if there is none to read, the variable keeps its
    value. -/
def input (μ : Memory Num Outer) (read : Outer → Option Num × Outer) (name : String) :
    Memory Num Outer :=
  let (value, outer) := read μ.outer
  let μ := { μ with outer := outer }
  match value with
  | some v => (μ.set name v).perform (.read name value)
  | none => μ.perform (.read name value)

/-- Gives variables the same value, one after the other. -/
def assignAll (μ : Memory Num Outer) (names : List String) (value : Num) : Memory Num Outer :=
  names.foldl (fun μ name => μ.assign name value) μ

theorem done_perform {μ : Memory Num Outer} {e : Effect Num} :
    μ.done <+: (μ.perform e).done := List.prefix_append ..

theorem done_assign {μ : Memory Num Outer} {name : String} {value : Num} :
    μ.done <+: (μ.assign name value).done := List.prefix_append ..

theorem done_assignAll {μ : Memory Num Outer} (names : List String) (value : Num) :
    μ.done <+: (μ.assignAll names value).done := by
  induction names generalizing μ with
  | nil => exact List.prefix_refl _
  | cons name names ih => exact done_assign.trans ih

/-- Reading a number is added to what was done, whether there was one or not. -/
theorem done_input {μ : Memory Num Outer} {read : Outer → Option Num × Outer} {name : String} :
    μ.done <+: (μ.input read name).done := by
  unfold input
  split
  dsimp only
  split
  · exact List.prefix_append ..
  · exact List.prefix_append ..

end Memory

-- ============================================================================
-- Meanings
-- ============================================================================

/-- An interpretation of numbers, of what can be done with them, and of the world
    outside. -/
structure Meaning where
  Num : Type
  Whole : Type
  Single : Type
  Outer : Type
  literal : Float → Num
  arith : Arith → Num → Num → Num
  holds : Relation → Num → Num → Bool
  ofTruth : Bool → Num
  toInteger : Num → Whole
  ofInteger : Whole → Num
  toSingle : Num → Single
  ofSingle : Single → Num
  call : MathFunction → Num → Num
  /-- How two texts compare: negative, zero or positive. -/
  order : String → String → Int
  /-- Draws a random number. -/
  draw : Outer → Num × Outer
  /-- Reads a number, if there is one. -/
  read : Outer → Option Num × Outer
  /-- The value of an expression that has none. -/
  undefined : Num

/-- Whether the outcome of comparing texts stands in a relation to zero. -/
def Relation.ofOrder : Relation → Int → Bool
  | eq, o => o = 0
  | ne, o => o ≠ 0
  | lt, o => o < 0
  | le, o => o ≤ 0
  | gt, o => 0 < o
  | ge, o => 0 ≤ o

namespace Meaning

/-- Memory with the numbers and the world of a meaning. -/
abbrev Mem (M : Meaning) : Type := Memory M.Num M.Outer

/-- Working something out: it may compare, and it may draw random numbers. -/
abbrev Eval (M : Meaning) : Type → Type := StateM M.Mem

variable (M : Meaning)

/-- The value of a variable. -/
def load (name : String) : M.Eval M.Num := fun μ => (μ.store name, μ)

/-- Compares two numbers. -/
def compare (rel : Relation) (l r : M.Num) : M.Eval Bool := fun μ =>
  (M.holds rel l r, μ.perform (.compared rel (M.holds rel l r)))

/-- Compares two texts. -/
def compareTexts (rel : Relation) (a b : String) : M.Eval Bool := fun μ =>
  (rel.ofOrder (M.order a b), μ.perform (.compared rel (rel.ofOrder (M.order a b))))

/-- A random number. -/
def random : M.Eval M.Num := fun μ =>
  ((M.draw μ.outer).1, { μ with outer := (M.draw μ.outer).2 })

end Meaning

-- ============================================================================
-- Expressions
-- ============================================================================

section Values

variable (M : Meaning)

/-- The value of a function. -/
def Builtin.eval (b : Builtin) (x : M.Num) : M.Eval M.Num :=
  match b with
  | .cdbl => return x
  | .rnd => M.random
  | .fix => return M.ofInteger (M.toInteger x)
  | .sgn => do
    let above ← M.compare .gt x (M.literal 0.0)
    let below ← M.compare .lt x (M.literal 0.0)
    return M.arith .sub (M.ofTruth above) (M.ofTruth below)
  | .csng => return M.ofSingle (M.toSingle x)
  | .math f => return M.call f x

/-- Whether a relation holds between two expressions whose values are worked out as
    given.  Two string literals are compared as texts. -/
def Relation.eval (rel : Relation) (lhs rhs : Expr) (l r : M.Eval M.Num) : M.Eval Bool :=
  match lhs, rhs with
  | .text _ a, .text _ b => M.compareTexts rel a b
  | _, _ => do
    let x ← l
    let y ← r
    M.compare rel x y

namespace Expr

/-- The value of a numeric expression. -/
def eval : Expr → M.Eval M.Num
  | number _ x => return M.literal x
  | text _ _ => return M.undefined
  | var _ name => M.load name
  | unary _ .plus operand => eval operand
  | unary _ .minus operand => do
    let x ← eval operand
    return M.arith .sub (M.literal 0.0) x
  | binary _ (.compare rel) lhs rhs => do
    let holds ← rel.eval M lhs rhs (eval lhs) (eval rhs)
    return M.ofTruth holds
  | binary _ (.arith op) lhs rhs => do
    let x ← eval lhs
    let y ← eval rhs
    return M.arith op x y
  | call _ name args =>
    match Builtin.ofName? name, args with
    | some b, [arg] => do
      let x ← eval arg
      b.eval M x
    | _, _ => return M.undefined

theorem eval_call {pos : Position} {name : String} {b : Builtin} {arg : Expr}
    (h : Builtin.ofName? name = some b) :
    (call pos name [arg]).eval M = arg.eval M >>= b.eval M := by
  rw [eval]
  exact h

/-- Whether a condition holds: the comparison itself, or any other number unless it is
    zero. -/
def test : Expr → M.Eval Bool
  | binary _ (.compare rel) lhs rhs => rel.eval M lhs rhs (lhs.eval M) (rhs.eval M)
  | e => do
    let x ← e.eval M
    M.compare .ne x (M.literal 0.0)

end Expr

end Values

end LineBasic
