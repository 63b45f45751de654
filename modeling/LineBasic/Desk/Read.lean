/-
  LineBasic.Desk.Read

  Reading programs at a desk.  Every statement is written into the journal the
  moment it has been read in full, before its line is known to be right.
-/

import LineBasic.Desk
import LineBasic.Program.Reader

namespace LineBasic

/-- Reads the statements of the line `number` up to its end. -/
def readStmtsAt (number : Nat) (ts : List Token) : StateM Desk (Reply (List Stmt) ts) :=
  match ts with
  | [] => return .ok [] [] (List.suffix_refl _)
  | t :: us =>
    if t.kind = .symbol .colon then
      return (← readStmtsAt number us).widen (List.suffix_cons t us)
    else if endsLine t.kind then return .ok [] (t :: us) (List.suffix_refl _)
    else
      match Stmt.read? t us with
      | none => return .error .statement (t :: us) (List.suffix_refl _)
      | some (.error expected rest h) =>
        return .error expected rest (h.trans (List.suffix_cons t us))
      | some (.ok stmt rest h) => do
        modify (·.record (stmt.record number))
        if headKind rest = .symbol .colon ∨ endsLine (headKind rest) then
          return ((← readStmtsAt number rest).map (stmt :: ·)).widen
            (h.trans (List.suffix_cons t us))
        else return .error .lineEnd rest (h.trans (List.suffix_cons t us))
termination_by ts.length
decreasing_by
  · simp
  · have := h.length_le
    simp only [List.length_cons]
    omega

/-- Reads lines up to the end of the text, and gives the tokens left. -/
def readLinesAt (ts : List Token) : StateM Desk (Except Expected (List Line) × List Token) :=
  match ts with
  | [] => return (.ok [], [])
  | t :: us =>
    match t.kind with
    | .newline => readLinesAt us
    | .eof => return (.ok [], t :: us)
    | _ =>
      match takeLineNumber .lineNumber (t :: us) with
      | .error expected rest _ => return (.error expected, rest)
      | .ok number _ _ => do
        match ← readStmtsAt number us with
        | .error expected rest _ => return (.error expected, rest)
        | .ok stmts rest _h =>
          let (later, left) ← readLinesAt rest
          return (later.map (⟨number, stmts, t.pos⟩ :: ·), left)
termination_by ts.length
decreasing_by
  · simp
  · have := _h.length_le
    simp only [List.length_cons]
    omega

namespace Program

/-- Reads a program from a cursor on, and gives the cursor to go on from. -/
def readAt (c : Cursor) : StateM Desk (Except ReadError Program × Cursor) := do
  let (lines, left) ← readLinesAt c.rest
  let cursor := { c with rest := left }
  match lines with
  | .ok ls => return (.ok ⟨ls⟩, cursor)
  | .error expected => return (.error (cursor.fault expected), cursor)

/-- Reads a program `n` times, each time from where the last reading stopped. -/
def readTimesAt (c : Cursor) : Nat → StateM Desk (List (Except ReadError Program))
  | 0 => return []
  | n + 1 => do
    let (program, cursor) ← readAt c
    return program :: (← readTimesAt cursor n)

end Program

end LineBasic
