/-
  LineBasic.Program.Reader

  Reading programs.  A program is read line by line; every statement that was
  read in full is kept for the journal, also when its line or a later one turns
  out to be faulty.  A cursor remembers how far the reading came, so that reading
  can go on from there.
-/

import LineBasic.Expr.Reader
import LineBasic.Program

namespace LineBasic

-- ============================================================================
-- Statements
-- ============================================================================

namespace Stmt

/-- Reads an equals sign and the value assigned to `name`. -/
def readAssignment (pos : Position) (name : String) (ts : List Token) : Reply Stmt ts :=
  (takeEquals ts).andThen fun _ rest _ => (Expr.read rest).map (.assign pos name)

/-- The parts of a loop in front of its body. -/
structure LoopHead where
  name : String
  start : Expr
  stop : Expr
  step : Option Expr

/-- Reads the step of a loop, if there is one. -/
def readStep (ts : List Token) : Reply (Option Expr) ts :=
  match ts with
  | [] => .stay none []
  | t :: us =>
    if t.kind = .keyword .step then ((Expr.read us).map some).widen (List.suffix_cons t us)
    else .stay none (t :: us)

/-- Reads a loop up to its body. -/
def readLoopHead (ts : List Token) : Reply LoopHead ts :=
  (takeName (.variableOf .for_) ts).andThen fun name rest _ =>
  (takeEquals rest).andThen fun _ rest _ =>
  (Expr.read rest).andThen fun start rest _ =>
  (takeKeyword .to_ rest).andThen fun _ rest _ =>
  (Expr.read rest).andThen fun stop rest _ =>
  (readStep rest).map fun step => ⟨name, start, stop, step⟩

/-- Skips the name behind NEXT, if there is one. -/
def skipName (ts : List Token) : Reply Unit ts :=
  match ts with
  | [] => .stay () []
  | t :: us =>
    if t.kind = .identifier then .ok () us (List.suffix_cons t us)
    else .stay () (t :: us)

mutual

/-- Reads the statement that starts with the token `t`, which stands in front of
    `ts`.  `none` when no statement starts with such a token. -/
def read? (t : Token) (ts : List Token) : Option (Reply Stmt ts) :=
  match t.kind with
  | .keyword .print => some ((Expr.read ts).map (.print t.pos))
  | .keyword .let_ =>
    some ((takeName (.variableOf .let_) ts).andThen fun name rest _ =>
      readAssignment t.pos name rest)
  | .identifier => some (readAssignment t.pos t.lexeme ts)
  | .keyword .if_ =>
    some ((Expr.read ts).andThen fun condition rest _ =>
      (takeKeyword .then_ rest).andThen fun _ rest _ =>
      (takeLineNumber (.targetOf .then_) rest).map (.ifThen t.pos condition))
  | .keyword .for_ =>
    some ((readLoopHead ts).andThen fun head rest _h =>
      (readBody rest).map (.forNext t.pos head.name head.start head.stop head.step))
  | .keyword .goto => some ((takeLineNumber (.targetOf .goto) ts).map (.goto t.pos))
  | .keyword .gosub => some ((takeLineNumber (.targetOf .gosub) ts).map (.gosub t.pos))
  | .keyword .return_ => some (.ok (.return_ t.pos) ts (List.suffix_refl _))
  | .keyword .input => some ((takeName (.variableOf .input) ts).map (.input t.pos))
  | .keyword .end_ => some (.ok (.end_ t.pos) ts (List.suffix_refl _))
  | _ => none
termination_by 2 * ts.length + 1
decreasing_by
  have := _h.length_le
  omega

/-- Reads the statements of a loop and its NEXT, all on one line.  Colons may stand
    anywhere between them, and need not. -/
def readBody (ts : List Token) : Reply (List Stmt) ts :=
  match ts with
  | [] => .error .nextOnLine [] (List.suffix_refl _)
  | t :: us =>
    match t.kind with
    | .keyword .next => ((skipName us).map fun _ => []).widen (List.suffix_cons t us)
    | .newline | .eof => .error .nextOnLine (t :: us) (List.suffix_refl _)
    | .symbol .colon => (readBody us).widen (List.suffix_cons t us)
    | _ =>
      match read? t us with
      | some reply =>
        (reply.andThen fun stmt rest _h => (readBody rest).map (stmt :: ·)).widen
          (List.suffix_cons t us)
      | none => .error .statement (t :: us) (List.suffix_refl _)
termination_by 2 * ts.length
decreasing_by
  all_goals simp only [List.length_cons]
  · omega
  · omega
  · have := _h.length_le
    omega

end

end Stmt

-- ============================================================================
-- Lines
-- ============================================================================

/-- Whether a token kind ends a line. -/
def endsLine : TokenKind → Bool
  | .newline | .eof => true
  | _ => false

/-- Reads the statements of a line up to its end.  The statements read in full come
    with the reply, whatever the reply is. -/
def readStmts (ts : List Token) : List Stmt × Reply Unit ts :=
  match ts with
  | [] => ([], .ok () [] (List.suffix_refl _))
  | t :: us =>
    if t.kind = .symbol .colon then
      let (stmts, reply) := readStmts us
      (stmts, reply.widen (List.suffix_cons t us))
    else if endsLine t.kind then ([], .ok () (t :: us) (List.suffix_refl _))
    else
      match Stmt.read? t us with
      | none => ([], .error .statement (t :: us) (List.suffix_refl _))
      | some (.error expected rest h) =>
        ([], .error expected rest (h.trans (List.suffix_cons t us)))
      | some (.ok stmt rest h) =>
        if headKind rest = .symbol .colon ∨ endsLine (headKind rest) then
          let (stmts, reply) := readStmts rest
          (stmt :: stmts, reply.widen (h.trans (List.suffix_cons t us)))
        else ([stmt], .error .lineEnd rest (h.trans (List.suffix_cons t us)))
termination_by ts.length
decreasing_by
  · simp
  · have := h.length_le
    simp only [List.length_cons]
    omega

-- ============================================================================
-- Programs
-- ============================================================================

/-- What reading lines off a list of tokens came to. -/
structure LinesRead where
  /-- The statements read in full, with the numbers of their lines. -/
  completed : List (Nat × Stmt)
  /-- The lines, or what was expected in place of the first token left. -/
  outcome : Except Expected (List Line)
  /-- The tokens left. -/
  rest : List Token

/-- Reads lines up to the end of the text. -/
def readLines (ts : List Token) : LinesRead :=
  match ts with
  | [] => ⟨[], .ok [], []⟩
  | t :: us =>
    match t.kind with
    | .newline => readLines us
    | .eof => ⟨[], .ok [], t :: us⟩
    | _ =>
      match takeLineNumber .lineNumber (t :: us) with
      | .error expected rest _ => ⟨[], .error expected, rest⟩
      | .ok number _ _ =>
        match readStmts us with
        | (stmts, .error expected rest _) =>
          ⟨stmts.map (number, ·), .error expected, rest⟩
        | (stmts, .ok _ rest _h) =>
          let later := readLines rest
          { later with
            completed := stmts.map (number, ·) ++ later.completed
            outcome := later.outcome.map (⟨number, stmts, t.pos⟩ :: ·) }
termination_by ts.length
decreasing_by
  · simp
  · have := _h.length_le
    simp only [List.length_cons]
    omega

/-- A place in a list of tokens, and the place in the text where the list ends. -/
structure Cursor where
  rest : List Token
  endPos : Position

namespace Cursor

/-- The place in front of all tokens. -/
def of (tokens : List Token) : Cursor :=
  ⟨tokens, ((tokens.getLast?).map Token.pos).getD ⟨0, 0⟩⟩

/-- The token at the cursor; behind the last one stands the end of the text. -/
def peek (c : Cursor) : Token := c.rest.head?.getD ⟨.eof, "", c.endPos⟩

/-- The fault of a token that is not what was expected. -/
def fault (c : Cursor) (expected : Expected) : ReadError :=
  ⟨expected, c.peek.kind, c.peek.pos⟩

end Cursor

/-- What reading a program from a cursor came to. -/
structure ProgramRead where
  completed : List (Nat × Stmt)
  outcome : Except ReadError Program
  cursor : Cursor

namespace Program

/-- Reads a program from a cursor on. -/
def read (c : Cursor) : ProgramRead :=
  let lines := readLines c.rest
  let cursor := { c with rest := lines.rest }
  { completed := lines.completed
    outcome := match lines.outcome with
      | .ok ls => .ok ⟨ls⟩
      | .error expected => .error (cursor.fault expected)
    cursor }

/-- Reads a program `n` times, each time from where the last reading stopped. -/
def readTimes (c : Cursor) : Nat → List ProgramRead
  | 0 => []
  | n + 1 =>
    let first := read c
    first :: readTimes first.cursor n

/-- The program that a whole list of tokens makes up. -/
def ofTokens (tokens : List Token) : Except ReadError Program := (read (.of tokens)).outcome

end Program

/-- The journal line of a statement on line `number`. -/
def Stmt.record (number : Nat) (stmt : Stmt) : String :=
  s!"line {number} {stmt.formName} @ {stmt.pos.text}"

/-- The journal lines of a reading. -/
def ProgramRead.records (r : ProgramRead) : List String :=
  r.completed.map fun (number, stmt) => stmt.record number

end LineBasic
