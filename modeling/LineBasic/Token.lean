/-
  LineBasic.Token

  The words of line-numbered BASIC: keywords, symbols, literals, names and the
  two marks for the end of a line and the end of the text.
-/

import LineBasic.Position
import LineBasic.Quoted

namespace LineBasic

-- ============================================================================
-- Keywords
-- ============================================================================

/-- A reserved word. -/
inductive Keyword where
  | let_
  | print
  | if_
  | then_
  | goto
  | end_
  | rem
  | for_
  | to_
  | step
  | next
  | gosub
  | return_
  | input
deriving DecidableEq, Repr

namespace Keyword

/-- The upper-case spelling. -/
def spelling : Keyword → String
  | let_ => "LET"
  | print => "PRINT"
  | if_ => "IF"
  | then_ => "THEN"
  | goto => "GOTO"
  | end_ => "END"
  | rem => "REM"
  | for_ => "FOR"
  | to_ => "TO"
  | step => "STEP"
  | next => "NEXT"
  | gosub => "GOSUB"
  | return_ => "RETURN"
  | input => "INPUT"

/-- Every keyword, once. -/
def all : List Keyword :=
  [let_, print, if_, then_, goto, end_, rem, for_, to_, step, next, gosub, return_, input]

/-- The keyword that `word` spells, in any mixture of cases. -/
def ofWord? (word : String) : Option Keyword :=
  all.find? fun k => k.spelling == word.toUpper

end Keyword

-- ============================================================================
-- Symbols
-- ============================================================================

/-- An operator or a punctuation mark. -/
inductive Symbol where
  | plus
  | minus
  | star
  | slash
  | equal
  | less
  | greater
  | lessEqual
  | greaterEqual
  | notEqual
  | leftParen
  | rightParen
  | colon
  | comma
deriving DecidableEq, Repr

namespace Symbol

/-- The characters a symbol is written with. -/
def spelling : Symbol → String
  | plus => "+"
  | minus => "-"
  | star => "*"
  | slash => "/"
  | equal => "="
  | less => "<"
  | greater => ">"
  | lessEqual => "<="
  | greaterEqual => ">="
  | notEqual => "<>"
  | leftParen => "("
  | rightParen => ")"
  | colon => ":"
  | comma => ","

/-- Every symbol, once. -/
def all : List Symbol :=
  [plus, minus, star, slash, equal, less, greater, lessEqual, greaterEqual, notEqual,
    leftParen, rightParen, colon, comma]

/-- The symbol written with the one character `c`. -/
def ofChar? : Char → Option Symbol
  | '+' => some plus
  | '-' => some minus
  | '*' => some star
  | '/' => some slash
  | '=' => some equal
  | '<' => some less
  | '>' => some greater
  | '(' => some leftParen
  | ')' => some rightParen
  | ':' => some colon
  | ',' => some comma
  | _ => none

/-- The symbol written with the two characters `c` and `d`. -/
def ofPair? : Char → Char → Option Symbol
  | '<', '=' => some lessEqual
  | '>', '=' => some greaterEqual
  | '<', '>' => some notEqual
  | _, _ => none

end Symbol

-- ============================================================================
-- Tokens
-- ============================================================================

/-- The class of a token. -/
inductive TokenKind where
  | eof
  | newline
  | integer
  | decimal
  | text
  | identifier
  | keyword (word : Keyword)
  | symbol (mark : Symbol)
deriving DecidableEq, Repr

namespace TokenKind

/-- The name a kind goes by in messages and journals. -/
def name : TokenKind → String
  | eof => "EOF"
  | newline => "NEWLINE"
  | integer => "INT"
  | decimal => "FLOAT"
  | text => "STRING"
  | identifier => "IDENT"
  | keyword k => k.spelling
  | symbol s => s.spelling

/-- Every kind, once. -/
def all : List TokenKind :=
  [eof, newline, integer, decimal, text, identifier] ++ Keyword.all.map keyword
    ++ Symbol.all.map symbol

/-- The kind that goes by `name`. -/
def ofName? (name : String) : Option TokenKind :=
  all.find? fun k => k.name == name

end TokenKind

/-- A token: its class, the text it carries and where it starts. -/
structure Token where
  kind : TokenKind
  lexeme : String
  pos : Position
deriving DecidableEq, Repr

namespace Token

/-- The journal line of a token.  The two end marks show no text. -/
def record (t : Token) : String :=
  match t.kind with
  | .eof | .newline => s!"token {t.kind.name} @ {t.pos.text}"
  | kind => s!"token {kind.name} @ {t.pos.text} \"{Quoted.escape t.lexeme}\""

end Token

end LineBasic
