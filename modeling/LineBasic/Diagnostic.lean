/-
  LineBasic.Diagnostic

  What a compilation reports beside its result: short messages, each with a
  severity that decides whether a reader gets to see it.
-/

namespace LineBasic

/-- How much a diagnostic matters. -/
inductive Severity where
  | warn
  | info
  | debug
deriving DecidableEq, Repr

namespace Severity

/-- The name a severity goes by. -/
def name : Severity → String
  | warn => "WARN"
  | info => "INFO"
  | debug => "DEBUG"

/-- Smaller ranks matter more. -/
def rank : Severity → Nat
  | warn => 0
  | info => 1
  | debug => 2

end Severity

/-- One message about a compilation. -/
structure Diagnostic where
  severity : Severity
  message : String
deriving DecidableEq, Repr

namespace Diagnostic

/-- The message behind the name of its severity. -/
def text (d : Diagnostic) : String := s!"{d.severity.name} {d.message}"

/-- Whether a reader who asked for `least` and everything that matters more gets
    to see the message. -/
def visibleAt (least : Severity) (d : Diagnostic) : Bool := d.severity.rank ≤ least.rank

end Diagnostic

end LineBasic
