/-
  LineBasic.Desk

  Phases at work.  A phase has a journal on its desk, into which it writes a line
  the moment it has one, and it says what it has to say as it goes.  Beside the
  desk it has things of its own at hand.  Work that fails breaks off: journal and
  things at hand stay as they are.
-/

import LineBasic.Journal

namespace LineBasic

-- ============================================================================
-- Desks
-- ============================================================================

/-- A journal in use, and everything said so far. -/
structure Desk where
  journal : Journal
  said : List Diagnostic

namespace Desk

/-- A desk with a journal on it, at which nothing has been said. -/
def ofJournal (journal : Journal) : Desk := ⟨journal, []⟩

/-- Writes a line into the journal; the journal may have something to say about
    that. -/
def record (desk : Desk) (line : String) : Desk :=
  let (journal, said) := desk.journal.record line
  ⟨journal, desk.said ++ said⟩

/-- Says something. -/
def report (desk : Desk) (d : Diagnostic) : Desk := { desk with said := desk.said ++ [d] }

/-- Handles one entry. -/
def enter (desk : Desk) : Journal.Entry → Desk
  | .record line => desk.record line
  | .report d => desk.report d

/-- Handles entries in order. -/
def enterAll (desk : Desk) (entries : List Journal.Entry) : Desk := entries.foldl enter desk

end Desk

-- ============================================================================
-- Work
-- ============================================================================

/-- Work at a desk, with a `σ` at hand. -/
abbrev Work (σ ε : Type) : Type → Type := ExceptT ε (StateM (σ × Desk))

namespace Work

variable {σ ε α : Type}

/-- Looks at what is at hand. -/
def look (f : σ → α) : Work σ ε α := return f (← get).1

/-- Changes what is at hand. -/
def change (f : σ → σ) : Work σ ε Unit := modify fun s => (f s.1, s.2)

/-- Writes a line into the journal. -/
def record (line : String) : Work σ ε Unit := modify fun s => (s.1, s.2.record line)

/-- Says something. -/
def report (d : Diagnostic) : Work σ ε Unit := modify fun s => (s.1, s.2.report d)

/-- Handles entries in order. -/
def enterAll (entries : List Journal.Entry) : Work σ ε Unit :=
  modify fun s => (s.1, s.2.enterAll entries)

/-- Changes what is at hand when a piece of work is over, also one that failed. -/
def afterwards (x : Work σ ε α) (f : σ → σ) : Work σ ε α := ExceptT.mk do
  let outcome ← x.run
  modify fun s => (f s.1, s.2)
  return outcome

end Work

end LineBasic
