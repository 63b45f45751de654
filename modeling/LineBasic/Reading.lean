/-
  LineBasic.Reading

  Reading phrases off a list of tokens.  A phrase that was read leaves the rest
  of the tokens; one that could not be read tells what was expected, and leaves
  the tokens from the one that did not fit on.  Either way what is left is an
  end piece of what was there, and that is part of the type of a reply.
-/

import LineBasic.Numeral
import LineBasic.Token

namespace LineBasic

-- ============================================================================
-- What can be expected
-- ============================================================================

/-- What a reader would have accepted. -/
inductive Expected where
  | lineNumber
  | targetOf (word : Keyword)
  | variableOf (word : Keyword)
  | keyword (word : Keyword)
  | equals
  | nextOnLine
  | lineEnd
  | statement
  | expression
  | numericLiteral
  | rightParen
deriving DecidableEq, Repr

namespace Expected

/-- The expectation in words. -/
def text : Expected → String
  | lineNumber => "line number"
  | targetOf word => s!"line number after {word.spelling}"
  | variableOf word => s!"variable name after {word.spelling}"
  | keyword word => word.spelling
  | equals => "'='"
  | nextOnLine => "NEXT on the same line as FOR"
  | lineEnd => "':' or end of line"
  | statement => "statement"
  | expression => "expression"
  | numericLiteral => "numeric literal"
  | rightParen => "')'"

end Expected

/-- Why tokens make up no program: what was expected and what stood there. -/
structure ReadError where
  expected : Expected
  found : TokenKind
  pos : Position
deriving DecidableEq, Repr

namespace ReadError

/-- The fault in words. -/
def message (e : ReadError) : String :=
  s!"Expected {e.expected.text}, got '{e.found.name}' at {e.pos.text}"

end ReadError

-- ============================================================================
-- Replies
-- ============================================================================

/-- What reading a phrase off `ts` came to. -/
inductive Reply (α : Type) (ts : List Token) where
  | ok (value : α) (rest : List Token) (h : rest <:+ ts)
  | error (expected : Expected) (rest : List Token) (h : rest <:+ ts)

namespace Reply

variable {α β : Type} {ts us : List Token}

/-- The reply of a phrase of no tokens. -/
def stay (a : α) (ts : List Token) : Reply α ts := ok a ts (List.suffix_refl ts)

/-- A reply to an end piece is a reply to the whole. -/
def widen (r : Reply α us) (h : us <:+ ts) : Reply α ts :=
  match r with
  | ok a rest h' => ok a rest (h'.trans h)
  | error e rest h' => error e rest (h'.trans h)

/-- Goes on reading where a phrase ended. -/
def andThen (r : Reply α ts) (f : α → (rest : List Token) → rest <:+ ts → Reply β rest) :
    Reply β ts :=
  match r with
  | ok a rest h => (f a rest h).widen h
  | error e rest h => error e rest h

/-- Changes what was read. -/
def map (f : α → β) : Reply α ts → Reply β ts
  | ok a rest h => ok (f a) rest h
  | error e rest h => error e rest h

end Reply

-- ============================================================================
-- Single tokens
-- ============================================================================

/-- The kind of the first token; the end of the list counts as the end of the
    text. -/
def headKind : List Token → TokenKind
  | [] => .eof
  | t :: _ => t.kind

/-- Takes a token of the given kind. -/
def takeKind (kind : TokenKind) (expected : Expected) : (ts : List Token) → Reply Token ts
  | [] => .error expected [] (List.suffix_refl _)
  | t :: us =>
    if t.kind = kind then .ok t us (List.suffix_cons t us)
    else .error expected (t :: us) (List.suffix_refl _)

/-- Takes a keyword. -/
def takeKeyword (word : Keyword) (ts : List Token) : Reply Token ts :=
  takeKind (.keyword word) (.keyword word) ts

/-- Takes a name. -/
def takeName (expected : Expected) (ts : List Token) : Reply String ts :=
  (takeKind .identifier expected ts).map Token.lexeme

/-- Takes an equals sign. -/
def takeEquals (ts : List Token) : Reply Token ts := takeKind (.symbol .equal) .equals ts

/-- Takes a closing parenthesis. -/
def takeRightParen (ts : List Token) : Reply Token ts :=
  takeKind (.symbol .rightParen) .rightParen ts

/-- Takes a line number. -/
def takeLineNumber (expected : Expected) : (ts : List Token) → Reply Nat ts
  | [] => .error expected [] (List.suffix_refl _)
  | t :: us =>
    if t.kind = .integer then
      match Numeral.lineNumber? t.lexeme with
      | some n => .ok n us (List.suffix_cons t us)
      | none => .error expected (t :: us) (List.suffix_refl _)
    else .error expected (t :: us) (List.suffix_refl _)

end LineBasic
