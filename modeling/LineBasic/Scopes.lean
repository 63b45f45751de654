/-
  LineBasic.Scopes

  The variables met so far and the depth of nested loops.  Variables are global:
  leaving a loop forgets none of them.
-/

import LineBasic.Ascending

namespace LineBasic

/-- The variables met so far, and how many loops are open. -/
structure Scopes where
  names : Ascending String
  depth : Nat
deriving DecidableEq

namespace Scopes

/-- No variable met, no loop open. -/
def initial : Scopes := ⟨.empty, 0⟩

/-- Whether a variable has not been met. -/
def isNew (s : Scopes) (name : String) : Bool := name ∉ s.names

/-- Meets a variable. -/
def declare (s : Scopes) (name : String) : Scopes :=
  { s with names := s.names.insert name }

/-- Opens a loop. -/
def enter (s : Scopes) : Scopes := { s with depth := s.depth + 1 }

/-- Closes a loop, if one is open. -/
def leave (s : Scopes) : Scopes := { s with depth := s.depth - 1 }

end Scopes

end LineBasic
