/-
  LineBasic.Desk.Scan

  Scanning at a desk.  Every token is written into the journal the moment it has
  been read; the tokens read so far are at hand.
-/

import LineBasic.Desk
import LineBasic.Token.Scan

namespace LineBasic

namespace Scan

/-- Takes a token that has been read: writes it down and keeps it. -/
def take (t : Token) : Work (List Token) ScanError Unit := do
  Work.record t.record
  Work.change (· ++ [t])

/-- Takes the token of a stretch of text, if it has one. -/
def takeIfAny : Option Token → Work (List Token) ScanError Unit
  | some t => take t
  | none => pure ()

/-- Scans `cs`, which starts at `pos`.  A text read to its end closes with an
    end-of-text token. -/
def runAt (pos : Position) (cs : List Char) : Work (List Token) ScanError Unit :=
  match cs with
  | [] => take ⟨.eof, "", pos⟩
  | c :: rest =>
    match _h : Segment.read pos c rest with
    | .error fault => throw fault
    | .ok (seg, left) => do
      takeIfAny (seg.tokenAt pos)
      runAt (pos.after seg.raw) left
termination_by cs.length
decreasing_by exact Segment.length_read_lt _h

/-- Scans a whole text. -/
def workOn (source : String) : Work (List Token) ScanError (List Token) := do
  runAt .start source.toList
  Work.look id

end Scan

end LineBasic
