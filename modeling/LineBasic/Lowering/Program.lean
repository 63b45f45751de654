/-
  LineBasic.Lowering.Program

  The code of programs: slots for all variables, then line after line in
  ascending order, and one end.
-/

import LineBasic.Inventory
import LineBasic.Lowering.Stmt

namespace LineBasic

/-- Code that makes the slots of variables and puts zero into them. -/
def lowerSlots : List String → Lower Unit
  | [] => return
  | name :: rest => do
    Lower.emit none (.alloca name)
    Lower.emitAs none .initial (.store (.literal 0.0) name)
    lowerSlots rest

/-- Code for a line, which goes on at `next`. -/
def lowerLine (env : Env) (l : Line) (next : Label) : Lower Unit := do
  Lower.note (.line l.number)
  Lower.label (.line l.number)
  match ← Stmt.lowerList env (expand env []) l.number ⟨.line l.number, .exit⟩ 0 l.stmts with
  | none => return
  | some _ => Lower.emit l.number (.br next)

/-- Code for lines, each of which goes on at the next one and the last at the end. -/
def lowerLines (env : Env) : List Line → Lower Unit
  | [] => return
  | l :: rest => do
    lowerLine env l (match rest with
      | [] => .exit
      | m :: _ => .line m.number)
    lowerLines env rest

/-- Code for a whole program. -/
def lowerMain (env : Env) : Lower Unit := do
  Lower.label .entry
  lowerSlots env.names.toList
  match env.lines with
  | [] => Lower.emit none .ret
  | l :: _ =>
    Lower.emit none (.br (.line l.number))
    lowerLines env env.lines
    Lower.label .exit
    Lower.emit none .ret

namespace Program

/-- What the code of a program may refer to, given the inventory to use. -/
def env (p : Program) (inventory : Inventory) : Env :=
  ⟨inventory.names, inventory.texts, p.listing⟩

/-- The module of a program, made with the given inventory; the notes are the
    emissions, also of a program that has no code. -/
def lower (p : Program) (inventory : Inventory) : Traced LowerError Emission Module :=
  let env := p.env inventory
  let made := (lowerMain env).run 0
  { notes := made.notes
    outcome := made.outcome.map fun (_, temps) =>
      { texts := env.texts.toList
        body := made.notes
        lineCount := env.lines.length
        variableCount := env.names.size
        tempCount := temps } }

end Program

/-- A maker of modules.  It may hold an inventory for the first program it is given;
    for any other it takes the program's own. -/
structure Generator where
  inventory : Option Inventory

namespace Generator

/-- Makes the module of a program, and the generator to go on with. -/
def generate (g : Generator) (p : Program) : Traced LowerError Emission Module × Generator :=
  (p.lower (g.inventory.getD p.inventory), ⟨none⟩)

end Generator

end LineBasic
