/-
  LineBasic.Code.Label

  The names of blocks in the generated code.  A label says what its block is for;
  blocks inside the code of a line or of an expanded subroutine are numbered
  under the label that code starts with, their owner.
-/

namespace LineBasic

/-- The name of a block. -/
inductive Label where
  /-- Where the function starts. -/
  | entry
  /-- Where the function ends. -/
  | exit
  /-- Where a line starts. -/
  | line (number : Nat)
  /-- What follows a decision. -/
  | decided (owner : Label) (k : Nat)
  /-- The test of a loop. -/
  | loopTest (owner : Label) (k : Nat)
  /-- The body of a loop. -/
  | loopBody (owner : Label) (k : Nat)
  /-- The step of a loop. -/
  | loopStep (owner : Label) (k : Nat)
  /-- What follows a loop. -/
  | loopEnd (owner : Label) (k : Nat)
  /-- Where an expanded subroutine starts. -/
  | subStart (owner : Label) (k : Nat)
  /-- What follows an expanded subroutine. -/
  | subEnd (owner : Label) (k : Nat)
  /-- A line of an expanded subroutine after its first. -/
  | subLine (start : Label) (i : Nat)
deriving DecidableEq, Repr

namespace Label

/-- How a label is written. -/
def text : Label → String
  | entry => "entry"
  | exit => "exit"
  | line n => s!"line{n}"
  | decided owner k => s!"{owner.text}_cont{k}"
  | loopTest owner k => s!"{owner.text}_for_cond{k}"
  | loopBody owner k => s!"{owner.text}_for_body{k}"
  | loopStep owner k => s!"{owner.text}_for_inc{k}"
  | loopEnd owner k => s!"{owner.text}_for_end{k}"
  | subStart owner k => s!"{owner.text}_gosub_entry{k}"
  | subEnd owner k => s!"{owner.text}_gosub_cont{k}"
  | subLine start i => s!"{start.text}_n{i}"

end Label

end LineBasic
