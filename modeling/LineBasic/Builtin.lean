/-
  LineBasic.Builtin

  The functions that expressions may call.  Each takes one number; most are
  functions of the mathematical library under another name.
-/

namespace LineBasic

/-- A function of the mathematical library, from one double to another. -/
inductive MathFunction where
  | sqrt
  | fabs
  | sin
  | cos
  | tan
  | atan
  | log
  | exp
  | floor
  | round
deriving DecidableEq, Repr

namespace MathFunction

/-- The name of a function in the library. -/
def linkName : MathFunction → String
  | sqrt => "sqrt"
  | fabs => "fabs"
  | sin => "sin"
  | cos => "cos"
  | tan => "tan"
  | atan => "atan"
  | log => "log"
  | exp => "exp"
  | floor => "floor"
  | round => "round"

/-- Every function, once. -/
def all : List MathFunction := [sqrt, fabs, sin, cos, tan, atan, log, exp, floor, round]

end MathFunction

/-- A function that expressions may call. -/
inductive Builtin where
  /-- A function of the mathematical library. -/
  | math (f : MathFunction)
  /-- The whole part. -/
  | fix
  /-- Minus one, zero or one. -/
  | sgn
  /-- A random number. -/
  | rnd
  /-- The nearest number of single precision. -/
  | csng
  /-- The number itself. -/
  | cdbl
deriving DecidableEq, Repr

namespace Builtin

/-- The functions by their upper-case names. -/
def table : List (String × Builtin) :=
  [("SQR", .math .sqrt), ("SQRT", .math .sqrt), ("ABS", .math .fabs), ("SIN", .math .sin),
    ("COS", .math .cos), ("TAN", .math .tan), ("ATN", .math .atan), ("LOG", .math .log),
    ("EXP", .math .exp), ("INT", .math .floor), ("FIX", .fix), ("SGN", .sgn), ("RND", .rnd),
    ("CINT", .math .round), ("CSNG", .csng), ("CDBL", .cdbl)]

/-- The function that goes by `name`, in any mixture of cases. -/
def ofName? (name : String) : Option Builtin := table.lookup name.toUpper

/-- How many arguments a function takes. -/
def arity (_ : Builtin) : Nat := 1

/-- Why a function has no value at a number, if it has none. -/
inductive DomainFault where
  | negative
  | notPositive
deriving DecidableEq, Repr

/-- The reason in words. -/
def DomainFault.text : DomainFault → String
  | negative => "negative argument"
  | notPositive => "non-positive argument"

/-- What is wrong with the number `x` as an argument, if anything is. -/
def domainFault? (b : Builtin) (x : Float) : Option DomainFault :=
  match b with
  | math .sqrt => if x < 0.0 then some .negative else none
  | math .log => if x ≤ 0.0 then some .notPositive else none
  | _ => none

/-- Whether the outcome of a comparison is refused as an argument. -/
def refusesComparison : Builtin → Bool
  | math .sqrt | math .log => true
  | _ => false

end Builtin

end LineBasic
