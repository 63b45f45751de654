/-
  LineBasic.Code.Instr

  The instructions of the generated code.  Results live in numbered temporaries,
  variables in named slots; operands of arithmetic are literals or temporaries.
-/

import LineBasic.Builtin
import LineBasic.Code.Label
import LineBasic.Expr
import LineBasic.Numeral.Layout

namespace LineBasic

-- ============================================================================
-- Names and operands
-- ============================================================================

/-- A temporary. -/
structure Temp where
  index : Nat
deriving DecidableEq, Repr

/-- How a temporary is written. -/
def Temp.text (t : Temp) : String := s!"%t{t.index}"

/-- How the slot of a variable is written. -/
def slotText (name : String) : String := s!"%{name}.addr"

/-- A double in an instruction. -/
inductive Operand where
  | literal (value : Float)
  | temp (t : Temp)
deriving DecidableEq, Repr

/-- How an operand is written. -/
def Operand.text : Operand → String
  | literal x => Numeral.literal x
  | temp t => t.text

/-- A constant text of a module: one of three formats, or a string literal of the
    program by its place among them. -/
inductive Global where
  | numberFormat
  | textFormat
  | inputFormat
  | literal (k : Nat)
deriving DecidableEq, Repr

/-- How a constant text is referred to. -/
def Global.text : Global → String
  | numberFormat => "@.fmt_num"
  | textFormat => "@.fmt_str"
  | inputFormat => "@.fmt_in"
  | literal k => s!"@.str.{k}"

/-- A function that the module does not define itself. -/
inductive External where
  | printf
  | scanf
  | strcmp
  | math (f : MathFunction)
  | drand48
deriving DecidableEq, Repr

namespace External

/-- How a function is declared. -/
def declaration : External → String
  | printf => "declare i32 @printf(ptr, ...)"
  | scanf => "declare i32 @scanf(ptr, ...)"
  | strcmp => "declare i32 @strcmp(ptr, ptr)"
  | math f => s!"declare double @{f.linkName}(double)"
  | drand48 => "declare double @drand48()"

/-- Every function, in the order in which modules declare them. -/
def all : List External := [printf, scanf, strcmp] ++ MathFunction.all.map math ++ [drand48]

end External

-- ============================================================================
-- Instructions
-- ============================================================================

/-- An instruction.  One with a result names the temporary first. -/
inductive Instr where
  /-- Makes the slot of a variable. -/
  | alloca (name : String)
  /-- Puts a double into a slot. -/
  | store (value : Operand) (name : String)
  /-- Takes the double from a slot. -/
  | load (result : Temp) (name : String)
  /-- Works out an operation. -/
  | arith (result : Temp) (op : Arith) (lhs rhs : Operand)
  /-- Tells whether a relation holds; with an undefined value none does. -/
  | compare (result : Temp) (rel : Relation) (lhs rhs : Operand)
  /-- Compares two texts; negative, zero or positive. -/
  | compareTexts (result lhs rhs : Temp)
  /-- Tells whether the outcome of comparing texts stands in a relation to zero. -/
  | compareOrder (result : Temp) (rel : Relation) (order : Temp)
  /-- The double one or zero for a truth value. -/
  | ofTruth (result truth : Temp)
  /-- The whole part of a double. -/
  | toInteger (result : Temp) (value : Operand)
  /-- The double of a whole number. -/
  | ofInteger (result value : Temp)
  /-- The nearest number of single precision. -/
  | toSingle (result : Temp) (value : Operand)
  /-- The double of a number of single precision. -/
  | ofSingle (result value : Temp)
  /-- The address of a constant text. -/
  | address (result : Temp) (global : Global)
  /-- Calls a function of the mathematical library. -/
  | call (result : Temp) (f : MathFunction) (arg : Operand)
  /-- Draws a random number. -/
  | draw (result : Temp)
  /-- Prints a number. -/
  | printNumber (format : Temp) (value : Operand)
  /-- Prints a text. -/
  | printText (format value : Temp)
  /-- Reads a number into a slot. -/
  | readNumber (format : Temp) (name : String)
  /-- Goes on with another block. -/
  | br (target : Label)
  /-- Goes on with one of two blocks. -/
  | brIf (condition : Temp) (yes no : Label)
  /-- Ends the function. -/
  | ret
deriving DecidableEq, Repr

/-- The instruction for an operation. -/
def Arith.mnemonic : Arith → String
  | add => "fadd"
  | sub => "fsub"
  | mul => "fmul"
  | div => "fdiv"

/-- The condition code of a relation between doubles. -/
def Relation.floatCode : Relation → String
  | eq => "oeq"
  | ne => "one"
  | lt => "olt"
  | le => "ole"
  | gt => "ogt"
  | ge => "oge"

/-- The condition code of a relation between whole numbers. -/
def Relation.integerCode : Relation → String
  | eq => "eq"
  | ne => "ne"
  | lt => "slt"
  | le => "sle"
  | gt => "sgt"
  | ge => "sge"

namespace Instr

/-- How an instruction is written. -/
def text : Instr → String
  | alloca x => s!"{slotText x} = alloca double"
  | store v x => s!"store double {v.text}, ptr {slotText x}"
  | load t x => s!"{t.text} = load double, ptr {slotText x}"
  | arith t op l r => s!"{t.text} = {op.mnemonic} double {l.text}, {r.text}"
  | compare t rel l r => s!"{t.text} = fcmp {rel.floatCode} double {l.text}, {r.text}"
  | compareTexts t a b => s!"{t.text} = call i32 @strcmp(ptr {a.text}, ptr {b.text})"
  | compareOrder t rel o => s!"{t.text} = icmp {rel.integerCode} i32 {o.text}, 0"
  | ofTruth t c => s!"{t.text} = uitofp i1 {c.text} to double"
  | toInteger t v => s!"{t.text} = fptosi double {v.text} to i64"
  | ofInteger t i => s!"{t.text} = sitofp i64 {i.text} to double"
  | toSingle t v => s!"{t.text} = fptrunc double {v.text} to float"
  | ofSingle t f => s!"{t.text} = fpext float {f.text} to double"
  | address t g => s!"{t.text} = getelementptr inbounds i8, ptr {g.text}, i64 0"
  | call t f v => s!"{t.text} = call double @{f.linkName}(double {v.text})"
  | draw t => s!"{t.text} = call double @drand48()"
  | printNumber f v => s!"call i32 (ptr, ...) @printf(ptr {f.text}, double {v.text})"
  | printText f s => s!"call i32 (ptr, ...) @printf(ptr {f.text}, ptr {s.text})"
  | readNumber f x => s!"call i32 (ptr, ...) @scanf(ptr {f.text}, ptr {slotText x})"
  | br l => s!"br label %{l.text}"
  | brIf c yes no => s!"br i1 {c.text}, label %{yes.text}, label %{no.text}"
  | ret => "ret i32 0"

/-- The function that an instruction calls, if it calls one. -/
def external? : Instr → Option External
  | compareTexts .. => some .strcmp
  | call _ f _ => some (.math f)
  | draw _ => some .drand48
  | printNumber .. => some .printf
  | printText .. => some .printf
  | readNumber .. => some .scanf
  | _ => none

/-- The name an instruction goes by in journals when it plays no special part. -/
def eventName : Instr → String
  | alloca _ => "alloca"
  | store .. => "store"
  | load .. => "load"
  | arith _ op _ _ => op.mnemonic
  | compare .. => "fcmp"
  | compareTexts .. => "strcmp"
  | compareOrder .. => "icmp"
  | ofTruth .. => "bool"
  | toInteger .. => "fptosi"
  | ofInteger .. => "sitofp"
  | toSingle .. => "fptrunc"
  | ofSingle .. => "fpext"
  | address _ (.literal _) => "str"
  | address .. => "fmt"
  | call .. => "call"
  | draw _ => "call"
  | printNumber .. => "print"
  | printText .. => "print"
  | readNumber .. => "input"
  | br _ => "br"
  | brIf .. => "br"
  | ret => "ret"

end Instr

end LineBasic
