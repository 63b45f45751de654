/-
  LineBasic.Check.Analyst

  One analyst for many programs.  An analyst remembers what it met, also of a program
  that it gave up halfway, and forgets it when it takes up the next one.
-/

import LineBasic.Check.Analysis

namespace LineBasic

/-- How an analyst judges, and what it remembers. -/
structure Analyst where
  strict : Bool
  scopes : Scopes
  texts : Ascending String
  lines : Ascending Nat
deriving DecidableEq

namespace Analyst

/-- An analyst that has met nothing. -/
def fresh (strict : Bool) : Analyst := ⟨strict, .initial, .empty, .empty⟩

/-- Forgets everything that was met. -/
def forget (a : Analyst) : Analyst :=
  { a with scopes := .initial, texts := .empty, lines := .empty }

/-- Takes in the numbers of lines, up to the first one that is there already. -/
def enter (a : Analyst) : List Line → Analyst
  | [] => a
  | l :: ls =>
    if l.number ∈ a.lines then a
    else enter { a with lines := a.lines.insert l.number } ls

/-- Takes in a finding. -/
def meet (a : Analyst) (f : Finding) : Analyst :=
  { a with
    scopes := f.scope a.scopes
    texts := match f.literal? with
      | some value => a.texts.insert value
      | none => a.texts }

/-- Everything that was met. -/
def inventory (a : Analyst) : Inventory := ⟨a.scopes.names, a.texts, a.lines⟩

/-- Analyses a program, and gives the analyst to go on with. -/
def visit (a : Analyst) (p : Program) : Analysis × Analyst :=
  let checked := p.check a.strict
  let after := checked.notes.foldl meet (a.forget.enter p.lines)
  (⟨checked.notes, checked.outcome.map fun _ => after.inventory⟩, after)

/-- The analyst that has analysed programs one after the other. -/
def visitAll (a : Analyst) (ps : List Program) : Analyst :=
  ps.foldl (fun a p => (a.visit p).2) a

end Analyst

end LineBasic
