/-
  LineBasic.Lowering

  Turning programs into code: what can go wrong, what the code may refer to, and
  the steps of which the code of expressions and statements is made.  Temporaries
  are numbered in the order in which they are defined.
-/

import LineBasic.Ascending
import LineBasic.Code.Module
import LineBasic.Program
import LineBasic.Traced

namespace LineBasic

-- ============================================================================
-- Faults
-- ============================================================================

/-- Why a program has no code. -/
inductive LowerError where
  | conditionNotComparison (pos : Position)
  | unsupportedInLoop (pos : Position)
  | textAsNumber (pos : Position)
  | unknownFunction (name : String) (pos : Position)
  | wrongArity (name : String) (expected found : Nat) (pos : Position)
  | recursiveGosub (target : Nat)
  | undeclaredVariable (name : String)
  | missingText (value : String)
deriving DecidableEq, Repr

/-- The fault in words. -/
def LowerError.message : LowerError → String
  | conditionNotComparison pos => s!"IF condition must be a comparison at {pos.text}"
  | unsupportedInLoop pos => s!"Unsupported statement in FOR body at {pos.text}"
  | textAsNumber pos => s!"string literal used in numeric context at {pos.text}"
  | unknownFunction name pos => s!"unknown function {name} at {pos.text}"
  | wrongArity name expected found pos =>
    s!"{name} expects {expected} argument(s), got {found} at {pos.text}"
  | recursiveGosub n => s!"recursive GOSUB to line {n} cannot be inlined"
  | undeclaredVariable name => s!"variable {name} has no storage"
  | missingText value => s!"string literal \"{value}\" was not interned"

-- ============================================================================
-- Surroundings
-- ============================================================================

/-- What the code of a program may refer to. -/
structure Env where
  /-- The variables that have a slot. -/
  names : Ascending String
  /-- The string literals that have a constant. -/
  texts : Ascending String
  /-- The lines in the order in which they run. -/
  lines : List Line

namespace Env

/-- Whether there is a line to jump to. -/
def hasLine (env : Env) (number : Nat) : Bool := env.lines.any (·.number = number)

/-- The lines from the one with the given number on; none if there is no such
    line. -/
def linesFrom (env : Env) (number : Nat) : List Line :=
  env.lines.dropWhile (·.number ≠ number)

end Env

-- ============================================================================
-- Straight code
-- ============================================================================

/-- Making straight code: steps one after the other, without labels.  The state
    is the number of the next temporary. -/
abbrev Straight : Type → Type := StateT Nat (Traced LowerError Step)

namespace Straight

/-- Gives up. -/
def fail {α : Type} (e : LowerError) : Straight α := StateT.lift (Traced.fail e)

/-- Adds an instruction that plays a special part. -/
def emitAs (role : Role) (i : Instr) : Straight Unit := StateT.lift (Traced.note ⟨role, i⟩)

/-- Adds an instruction. -/
def emit (i : Instr) : Straight Unit := emitAs .ordinary i

/-- Adds an instruction that defines a new temporary and plays a special part. -/
def defineAs (role : Role) (i : Temp → Instr) : Straight Temp := do
  let n ← get
  set (n + 1)
  emitAs role (i ⟨n⟩)
  return ⟨n⟩

/-- Adds an instruction that defines a new temporary. -/
def define (i : Temp → Instr) : Straight Temp := defineAs .ordinary i

end Straight

namespace Env

/-- Makes sure that a variable has a slot. -/
def requireSlot (env : Env) (name : String) : Straight Unit :=
  if name ∈ env.names then pure () else Straight.fail (.undeclaredVariable name)

/-- The address of a string literal. -/
def textAddress (env : Env) (value : String) : Straight Temp :=
  match env.texts.toList.idxOf? value with
  | some k => Straight.define (.address · (.literal k))
  | none => Straight.fail (.missingText value)

end Env

-- ============================================================================
-- Code with labels
-- ============================================================================

/-- Making code.  The state is the number of the next temporary. -/
abbrev Lower : Type → Type := StateT Nat (Traced LowerError Emission)

namespace Lower

/-- Gives up. -/
def fail {α : Type} (e : LowerError) : Lower α := StateT.lift (Traced.fail e)

/-- Adds a label. -/
def label (l : Label) : Lower Unit := StateT.lift (Traced.note (.label l))

/-- Adds a note. -/
def note (n : Note) : Lower Unit := StateT.lift (Traced.note (.note n))

/-- Adds straight code that belongs to the line `site`. -/
def straight {α : Type} (site : Option Nat) (x : Straight α) : Lower α := fun n =>
  let made := x.run n
  ⟨made.notes.map (.step site), made.outcome⟩

/-- Adds an instruction that belongs to the line `site` and plays a special part. -/
def emitAs (site : Option Nat) (role : Role) (i : Instr) : Lower Unit :=
  StateT.lift (Traced.note (.step site ⟨role, i⟩))

/-- Adds an instruction that belongs to the line `site`. -/
def emit (site : Option Nat) (i : Instr) : Lower Unit := emitAs site .ordinary i

end Lower

end LineBasic
