/-
  LineBasic.Check.Analysis

  What checking a program yields: a journal of the findings, warnings about
  jumps that lead nowhere, and the inventory of an accepted program.
-/

import LineBasic.Check
import LineBasic.Inventory
import LineBasic.Journal
import LineBasic.Scopes

namespace LineBasic

namespace Finding

/-- What a finding does to the scopes. -/
def scope (s : Scopes) : Finding → Scopes
  | variable_ name _ => s.declare name
  | bodyStart => s.enter
  | bodyEnd => s.leave
  | _ => s

/-- What a finding says, given what was met before it.  A variable met for the
    first time is announced; a jump that leads nowhere is also a warning. -/
def entries (s : Scopes) : Finding → List Journal.Entry
  | line n => [.record s!"Line {n}"]
  | variable_ name pos =>
    (if s.isNew name then
      [.record s!"VarDecl {name}", .record s!"VarImplicitDecl {name} @ {pos.text}"]
    else []) ++ [.record s!"VarRef {name} @ {pos.text}"]
  | literal _ pos => [.record s!"StringLiteral @ {pos.text}"]
  | call name pos => [.record s!"Call {name} @ {pos.text}"]
  | jump j target pos => [.record s!"{j.formName} target={target} @ {pos.text}"]
  | missing j target pos =>
    let fault := Fault.missingTarget j target
    [.report ⟨.warn, (CheckError.mk fault pos).message⟩,
      .record s!"Warning: {fault.text} @ {pos.text}"]
  | loop name pos => [.record s!"For var={name} @ {pos.text}"]
  | bodyStart => [.record "ScopeEnter"]
  | bodyEnd => [.record "ScopeExit"]
  | returned pos => [.record s!"Return @ {pos.text}"]
  | ended pos => [.record s!"End @ {pos.text}"]

/-- The string literal of a finding, if it is one. -/
def literal? : Finding → Option String
  | literal value _ => some value
  | _ => none

/-- The scopes after a list of findings. -/
def scopeAll (s : Scopes) (fs : List Finding) : Scopes := fs.foldl scope s

/-- What a list of findings says. -/
def entriesAll (s : Scopes) : List Finding → List Journal.Entry
  | [] => []
  | f :: fs => f.entries s ++ entriesAll (f.scope s) fs

end Finding

/-- What checking a program came to. -/
structure Analysis where
  findings : List Finding
  outcome : Except CheckError Inventory

namespace Analysis

/-- Checks a program and takes its inventory from the findings. -/
def of (p : Program) (strict : Bool) : Analysis :=
  let checked := p.check strict
  { findings := checked.notes
    outcome := checked.outcome.map fun _ =>
      { names := (Finding.scopeAll .initial checked.notes).names
        texts := .ofList (checked.notes.filterMap Finding.literal?)
        lines := .ofList (p.lines.map Line.number) } }

/-- Everything an analysis says; a fault comes last. -/
def entries (a : Analysis) : List Journal.Entry :=
  Finding.entriesAll .initial a.findings ++
    match a.outcome with
    | .ok _ => []
    | .error e => [.record e.message]

end Analysis

end LineBasic
