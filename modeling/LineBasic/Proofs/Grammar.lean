/-
  LineBasic.Proofs.Grammar

  The grammar of programs, as rules that say which rows of tokens write which trees.

      program   = (NEWLINE* line)* NEWLINE* EOF
      line      = INT items (NEWLINE | EOF)
      items     = statements and colons, no two statements side by side
      stmt      = PRINT expr | [LET] IDENT = expr | IF expr THEN INT | GOTO INT
                | GOSUB INT | RETURN | INPUT IDENT | END
                | FOR IDENT = expr TO expr [STEP expr] body NEXT [IDENT]
      body      = statements and colons
      expr      = comparisons of sums of products of signed operands
      operand   = number | string | IDENT | IDENT ( [expr (, expr)*] ) | ( expr )

  The name behind NEXT belongs to it whenever a name stands there.  The rules know
  nothing of the order in which tokens are read and never look ahead.
-/

import LineBasic.Proofs.Numerals
import LineBasic.Program.Reader

namespace LineBasic

/-- The symbol that writes an operator. -/
def BinaryOp.symbol : BinaryOp → Symbol
  | arith .add => .plus
  | arith .sub => .minus
  | arith .mul => .star
  | arith .div => .slash
  | compare .eq => .equal
  | compare .ne => .notEqual
  | compare .lt => .less
  | compare .le => .lessEqual
  | compare .gt => .greater
  | compare .ge => .greaterEqual

/-- The symbol that writes a sign. -/
def Sign.symbol : Sign → Symbol
  | plus => .plus
  | minus => .minus

namespace Grammar

-- ============================================================================
-- Expressions
-- ============================================================================

/-- How tightly an expression binds, the loosest first. -/
inductive Grade where
  | comparison
  | sum
  | product
  | signed
  | operand
deriving DecidableEq

namespace Grade

/-- The grade of the operands of operators of a grade. -/
def below : Grade → Grade
  | comparison => sum
  | sum => product
  | product => signed
  | signed => operand
  | operand => operand

/-- The operators of a grade. -/
def Has : Grade → BinaryOp → Prop
  | comparison, .compare _ => True
  | sum, .arith op => op = .add ∨ op = .sub
  | product, .arith op => op = .mul ∨ op = .div
  | _, _ => False

end Grade

/-- What a row of tokens inside an expression can be: an expression of some grade, or
    the arguments of a call. -/
inductive Phrase where
  | expr (grade : Grade) (e : Expr)
  | arguments (es : List Expr)

/-- The tokens of expressions. -/
inductive Derives : Phrase → List Token → Prop
  | number {t : Token} {x : Float} (kind : t.kind = .integer ∨ t.kind = .decimal)
      (value : Numeral.Denotes t.lexeme.toList x) :
      Derives (.expr .operand (.number t.pos x)) [t]
  | text {t : Token} (kind : t.kind = .text) :
      Derives (.expr .operand (.text t.pos t.lexeme)) [t]
  | var {t : Token} (kind : t.kind = .identifier) :
      Derives (.expr .operand (.var t.pos t.lexeme)) [t]
  | callEmpty {t l r : Token} (name : t.kind = .identifier) (left : l.kind = .symbol .leftParen)
      (right : r.kind = .symbol .rightParen) :
      Derives (.expr .operand (.call t.pos t.lexeme [])) [t, l, r]
  | call {t l r : Token} {w : List Token} {es : List Expr} (name : t.kind = .identifier)
      (left : l.kind = .symbol .leftParen) (args : Derives (.arguments es) w)
      (right : r.kind = .symbol .rightParen) :
      Derives (.expr .operand (.call t.pos t.lexeme es)) (t :: l :: (w ++ [r]))
  | parens {l r : Token} {w : List Token} {e : Expr} (left : l.kind = .symbol .leftParen)
      (inner : Derives (.expr .comparison e) w) (right : r.kind = .symbol .rightParen) :
      Derives (.expr .operand e) (l :: (w ++ [r]))
  | sign {t : Token} {s : Sign} {w : List Token} {e : Expr} (mark : t.kind = .symbol s.symbol)
      (operand : Derives (.expr .signed e) w) :
      Derives (.expr .signed (.unary t.pos s e)) (t :: w)
  | tighter {g : Grade} {w : List Token} {e : Expr} (inner : Derives (.expr g.below e) w) :
      Derives (.expr g e) w
  | chain {g : Grade} {t : Token} {op : BinaryOp} {w v : List Token} {l r : Expr} (has : g.Has op)
      (mark : t.kind = .symbol op.symbol) (lhs : Derives (.expr g l) w)
      (rhs : Derives (.expr g.below r) v) :
      Derives (.expr g (.binary t.pos op l r)) (w ++ t :: v)
  | argument {w : List Token} {e : Expr} (only : Derives (.expr .comparison e) w) :
      Derives (.arguments [e]) w
  | arguments {t : Token} {w v : List Token} {e : Expr} {es : List Expr}
      (first : Derives (.expr .comparison e) w) (comma : t.kind = .symbol .comma)
      (more : Derives (.arguments es) v) : Derives (.arguments (e :: es)) (w ++ t :: v)

/-- The tokens of a whole expression. -/
def IsExpr (e : Expr) (w : List Token) : Prop := Derives (.expr .comparison e) w

/-- An expression has tokens, and the last of them is no keyword. -/
theorem Derives.exists_last {ph : Phrase} {w : List Token} (h : Derives ph w) :
    ∃ v t, w = v ++ [t] ∧ ∀ k, t.kind ≠ .keyword k := by
  induction h with
  | @number t x kind value =>
    refine ⟨[], t, rfl, fun k hk => ?_⟩
    rw [hk] at kind
    rcases kind with kind | kind
    · cases kind
    · cases kind
  | @text t kind => exact ⟨[], t, rfl, by simp [kind]⟩
  | @var t kind => exact ⟨[], t, rfl, by simp [kind]⟩
  | @callEmpty t l r name left right => exact ⟨[t, l], r, rfl, by simp [right]⟩
  | @call t l r w es name left args right => exact ⟨t :: l :: w, r, rfl, by simp [right]⟩
  | @parens l r w e left inner right => exact ⟨l :: w, r, rfl, by simp [right]⟩
  | @sign t s w e mark operand ih =>
    obtain ⟨v, u, rfl, hu⟩ := ih
    exact ⟨t :: v, u, rfl, hu⟩
  | tighter inner ih => exact ih
  | @chain g t op w v l r has mark lhs rhs _ ih =>
    obtain ⟨v, u, rfl, hu⟩ := ih
    exact ⟨w ++ t :: v, u, by simp, hu⟩
  | argument only ih => exact ih
  | @arguments t w v e es first comma more _ ih =>
    obtain ⟨v, u, rfl, hu⟩ := ih
    exact ⟨w ++ t :: v, u, by simp, hu⟩

-- ============================================================================
-- Statements
-- ============================================================================

/-- A token that writes a line number. -/
structure IsLineNumber (t : Token) (n : Nat) : Prop where
  kind : t.kind = .integer
  value : n = Decimal.ofDigits t.lexeme.toList
  bound : n ≤ 4294967295

/-- The tokens of the step of a loop. -/
inductive IsStep : Option Expr → List Token → Prop
  | absent : IsStep none []
  | present {t : Token} {w : List Token} {e : Expr} (kind : t.kind = .keyword .step)
      (amount : IsExpr e w) : IsStep (some e) (t :: w)

/-- The tokens of a loop in front of its body. -/
inductive IsLoopHead : Stmt.LoopHead → List Token → Prop
  | mk {name equals to_ : Token} {a b c : List Token} {start stop : Expr} {step : Option Expr}
      (variable_ : name.kind = .identifier) (sign : equals.kind = .symbol .equal)
      (first : IsExpr start a) (until_ : to_.kind = .keyword .to_) (last : IsExpr stop b)
      (amount : IsStep step c) :
      IsLoopHead ⟨name.lexeme, start, stop, step⟩ (name :: equals :: (a ++ to_ :: (b ++ c)))

/-- A name that follows tokens that end in NEXT belongs to the NEXT. -/
def NameTaken (w v : List Token) : Prop :=
  w.getLast?.map Token.kind = some (.keyword .next) → v.head?.map Token.kind ≠ some .identifier

theorem nameTaken_of_last {w v : List Token} {t : Token} (hlast : w.getLast? = some t)
    (h : t.kind ≠ .keyword .next) : NameTaken w v := by
  intro hnext
  rw [hlast] at hnext
  exact absurd (Option.some.inj hnext) h

theorem nameTaken_of_isExpr {e : Expr} {u w v : List Token} (h : IsExpr e w) :
    NameTaken (u ++ w) v := by
  obtain ⟨w, t, rfl, ht⟩ := h.exists_last
  rw [← List.append_assoc]
  exact nameTaken_of_last List.getLast?_concat (ht _)

theorem NameTaken.of_append {w v u : List Token} (h : NameTaken w (v ++ u)) : NameTaken w v := by
  intro hlast
  cases v with
  | nil => exact nofun
  | cons t v => exact h hlast

/-- No token of an expression ends the text. -/
theorem Derives.kind_ne_eof {ph : Phrase} {w : List Token} (h : Derives ph w) :
    ∀ t ∈ w, t.kind ≠ .eof := by
  induction h with
  | number kind value =>
    rcases kind with kind | kind
    · simp [kind]
    · simp [kind]
  | text kind => simp [kind]
  | var kind => simp [kind]
  | callEmpty name left right => simp [name, left, right]
  | call name left args right ih => simpa [name, left, right, or_imp, forall_and] using ih
  | parens left inner right ih => simpa [left, right, or_imp, forall_and] using ih
  | sign mark operand ih => simpa [mark] using ih
  | tighter inner ih => exact ih
  | chain has mark lhs rhs ihl ihr => simpa [mark, or_imp, forall_and] using ⟨ihl, ihr⟩
  | argument only ih => exact ih
  | arguments first comma more ih ih' => simpa [comma, or_imp, forall_and] using ⟨ih, ih'⟩

/-- What a row of tokens inside a line can be: a statement, or the body of a loop. -/
inductive Part where
  | stmt (s : Stmt)
  | body (ss : List Stmt)

/-- The tokens of statements. -/
inductive Forms : Part → List Token → Prop
  | print {t : Token} {w : List Token} {e : Expr} (kind : t.kind = .keyword .print)
      (value : IsExpr e w) : Forms (.stmt (.print t.pos e)) (t :: w)
  | letAssign {t name equals : Token} {w : List Token} {e : Expr} (kind : t.kind = .keyword .let_)
      (variable_ : name.kind = .identifier) (sign : equals.kind = .symbol .equal)
      (value : IsExpr e w) :
      Forms (.stmt (.assign t.pos name.lexeme e)) (t :: name :: equals :: w)
  | assign {name equals : Token} {w : List Token} {e : Expr}
      (variable_ : name.kind = .identifier) (sign : equals.kind = .symbol .equal)
      (value : IsExpr e w) :
      Forms (.stmt (.assign name.pos name.lexeme e)) (name :: equals :: w)
  | ifThen {t then_ target : Token} {n : Nat} {w : List Token} {e : Expr}
      (kind : t.kind = .keyword .if_) (condition : IsExpr e w)
      (word : then_.kind = .keyword .then_) (number : IsLineNumber target n) :
      Forms (.stmt (.ifThen t.pos e n)) (t :: (w ++ [then_, target]))
  | goto {t target : Token} {n : Nat} (kind : t.kind = .keyword .goto)
      (number : IsLineNumber target n) : Forms (.stmt (.goto t.pos n)) [t, target]
  | gosub {t target : Token} {n : Nat} (kind : t.kind = .keyword .gosub)
      (number : IsLineNumber target n) : Forms (.stmt (.gosub t.pos n)) [t, target]
  | return_ {t : Token} (kind : t.kind = .keyword .return_) : Forms (.stmt (.return_ t.pos)) [t]
  | input {t name : Token} (kind : t.kind = .keyword .input)
      (variable_ : name.kind = .identifier) : Forms (.stmt (.input t.pos name.lexeme)) [t, name]
  | end_ {t : Token} (kind : t.kind = .keyword .end_) : Forms (.stmt (.end_ t.pos)) [t]
  | forNext {t next : Token} {head : Stmt.LoopHead} {w v : List Token} {ss : List Stmt}
      (kind : t.kind = .keyword .for_) (start : IsLoopHead head w) (body : Forms (.body ss) v)
      (word : next.kind = .keyword .next) :
      Forms (.stmt (.forNext t.pos head.name head.start head.stop head.step ss))
        (t :: (w ++ (v ++ [next])))
  | forNextName {t next name : Token} {head : Stmt.LoopHead} {w v : List Token} {ss : List Stmt}
      (kind : t.kind = .keyword .for_) (start : IsLoopHead head w) (body : Forms (.body ss) v)
      (word : next.kind = .keyword .next) (variable_ : name.kind = .identifier) :
      Forms (.stmt (.forNext t.pos head.name head.start head.stop head.step ss))
        (t :: (w ++ (v ++ [next, name])))
  | bodyEnd : Forms (.body []) []
  | bodyColon {t : Token} {w : List Token} {ss : List Stmt} (kind : t.kind = .symbol .colon)
      (more : Forms (.body ss) w) : Forms (.body ss) (t :: w)
  | bodyStmt {w v : List Token} {s : Stmt} {ss : List Stmt} (first : Forms (.stmt s) w)
      (more : Forms (.body ss) v) (taken : NameTaken w v) : Forms (.body (s :: ss)) (w ++ v)

/-- The tokens of a statement. -/
def IsStmt (s : Stmt) (w : List Token) : Prop := Forms (.stmt s) w

theorem IsStep.kind_ne_eof {step : Option Expr} {w : List Token} (h : IsStep step w) :
    ∀ t ∈ w, t.kind ≠ .eof := by
  cases h with
  | absent => exact nofun
  | present kind amount => simpa [kind] using amount.kind_ne_eof

theorem IsLoopHead.kind_ne_eof {head : Stmt.LoopHead} {w : List Token} (h : IsLoopHead head w) :
    ∀ t ∈ w, t.kind ≠ .eof := by
  cases h with
  | mk variable_ sign first until_ last amount =>
    simpa [variable_, sign, until_, or_imp, forall_and] using
      ⟨first.kind_ne_eof, last.kind_ne_eof, amount.kind_ne_eof⟩

/-- No token of a statement ends the text. -/
theorem Forms.kind_ne_eof {part : Part} {w : List Token} (h : Forms part w) :
    ∀ t ∈ w, t.kind ≠ .eof := by
  induction h with
  | print kind value => simpa [kind] using value.kind_ne_eof
  | letAssign kind variable_ sign value => simpa [kind, variable_, sign] using value.kind_ne_eof
  | assign variable_ sign value => simpa [variable_, sign] using value.kind_ne_eof
  | ifThen kind condition word number =>
    simpa [kind, word, number.kind, or_imp, forall_and] using condition.kind_ne_eof
  | goto kind number => simp [kind, number.kind]
  | gosub kind number => simp [kind, number.kind]
  | return_ kind => simp [kind]
  | input kind variable_ => simp [kind, variable_]
  | end_ kind => simp [kind]
  | forNext kind start body word ih =>
    simpa [kind, word, or_imp, forall_and] using ⟨start.kind_ne_eof, ih⟩
  | forNextName kind start body word variable_ ih =>
    simpa [kind, word, variable_, or_imp, forall_and] using ⟨start.kind_ne_eof, ih⟩
  | bodyEnd => exact nofun
  | bodyColon kind more ih => simpa [kind] using ih
  | bodyStmt first more taken ih ih' => simpa [or_imp, forall_and] using ⟨ih, ih'⟩

/-- Whether a statement can start with a token. -/
def startsStmt : TokenKind → Bool
  | .identifier => true
  | .keyword k =>
    k ∈ [Keyword.print, .let_, .if_, .goto, .gosub, .return_, .input, .end_, .for_]
  | _ => false

/-- What starts a statement does not end a line. -/
theorem not_endsLine_of_startsStmt {k : TokenKind} (h : startsStmt k = true) :
    endsLine k = false := by
  cases k with
  | newline => cases h
  | eof => cases h
  | _ => rfl

/-- A statement starts with a token that starts statements. -/
theorem IsStmt.exists_first {s : Stmt} {w : List Token} (h : IsStmt s w) :
    ∃ t v, w = t :: v ∧ startsStmt t.kind = true := by
  cases h with
  | assign variable_ _ _ => exact ⟨_, _, rfl, by rw [variable_]; rfl⟩
  | letAssign kind _ _ _ => exact ⟨_, _, rfl, by rw [kind]; rfl⟩
  | print kind _ => exact ⟨_, _, rfl, by rw [kind]; rfl⟩
  | ifThen kind _ _ _ => exact ⟨_, _, rfl, by rw [kind]; rfl⟩
  | goto kind _ => exact ⟨_, _, rfl, by rw [kind]; rfl⟩
  | gosub kind _ => exact ⟨_, _, rfl, by rw [kind]; rfl⟩
  | return_ kind => exact ⟨_, _, rfl, by rw [kind]; rfl⟩
  | input kind _ => exact ⟨_, _, rfl, by rw [kind]; rfl⟩
  | end_ kind => exact ⟨_, _, rfl, by rw [kind]; rfl⟩
  | forNext kind _ _ _ => exact ⟨_, _, rfl, by rw [kind]; rfl⟩
  | forNextName kind _ _ _ _ => exact ⟨_, _, rfl, by rw [kind]; rfl⟩

-- ============================================================================
-- Lines and programs
-- ============================================================================

/-- The tokens of the statements of a line. -/
inductive IsItems : List Stmt → List Token → Prop
  | none : IsItems [] []
  | colon {t : Token} {w : List Token} {ss : List Stmt} (kind : t.kind = .symbol .colon)
      (more : IsItems ss w) : IsItems ss (t :: w)
  | stmt {w v : List Token} {s : Stmt} {ss : List Stmt} (first : IsStmt s w) (more : IsItems ss v)
      (apart : ∀ t ∈ v.head?, t.kind = .symbol .colon) : IsItems (s :: ss) (w ++ v)

theorem IsItems.kind_ne_eof {ss : List Stmt} {w : List Token} (h : IsItems ss w) :
    ∀ t ∈ w, t.kind ≠ .eof := by
  induction h with
  | none => exact nofun
  | colon kind more ih => simpa [kind] using ih
  | stmt first more apart ih => simpa [or_imp, forall_and] using ⟨Forms.kind_ne_eof first, ih⟩

/-- The statements of a line start with a statement or a colon. -/
theorem IsItems.first {ss : List Stmt} {t : Token} {w : List Token} (h : IsItems ss (t :: w)) :
    t.kind = .symbol .colon ∨ startsStmt t.kind = true := by
  generalize hv : t :: w = v at h
  cases h with
  | none => cases hv
  | colon kind _ =>
    cases hv
    exact .inl kind
  | stmt first _ _ =>
    obtain ⟨u, w', rfl, hu⟩ := first.exists_first
    cases hv
    exact .inr hu

/-- Where a line goes on with a colon or ends, statements that are there start with a colon. -/
theorem IsItems.apart {ss : List Stmt} {v rest : List Token} (h : IsItems ss v)
    (hhead : v = [] ∨ v.head? = rest.head?)
    (hbehind : headKind rest = .symbol .colon ∨ endsLine (headKind rest) = true) :
    ∀ u ∈ v.head?, u.kind = .symbol .colon := by
  intro u hu
  obtain ⟨v, rfl⟩ := List.head?_eq_some_iff.1 hu
  obtain ⟨rest, rfl⟩ : ∃ us, rest = u :: us := by
    rcases hhead with hhead | hhead
    · cases hhead
    · exact List.head?_eq_some_iff.1 hhead.symm
  -- The line does not end at `u`, since a line end neither is a colon nor starts a statement.
  rcases hbehind with hcolon | hend
  · exact hcolon
  · have hu' : endsLine u.kind = true := hend
    rcases h.first with hcolon | hstarts
    · exact hcolon
    · rw [not_endsLine_of_startsStmt hstarts] at hu'
      cases hu'

/-- The tokens of lines up to the end of the text. -/
inductive IsLines : List Line → List Token → Prop
  | none {t : Token} (kind : t.kind = .eof) : IsLines [] [t]
  | newline {t : Token} {w : List Token} {ls : List Line} (kind : t.kind = .newline)
      (more : IsLines ls w) : IsLines ls (t :: w)
  | line {t end_ : Token} {n : Nat} {w v : List Token} {ss : List Stmt} {ls : List Line}
      (number : IsLineNumber t n) (items : IsItems ss w) (kind : end_.kind = .newline)
      (more : IsLines ls v) : IsLines (⟨n, ss, t.pos⟩ :: ls) (t :: (w ++ end_ :: v))
  | lastLine {t end_ : Token} {n : Nat} {w : List Token} {ss : List Stmt}
      (number : IsLineNumber t n) (items : IsItems ss w) (kind : end_.kind = .eof) :
      IsLines [⟨n, ss, t.pos⟩] (t :: (w ++ [end_]))

/-- An empty line may be left out. -/
theorem IsLines.of_newline {ls : List Line} {t : Token} {w : List Token} (h : IsLines ls (t :: w))
    (kind : t.kind = .newline) : IsLines ls w := by
  cases h with
  | newline _ more => exact more
  | none kind' => rw [kind] at kind'; cases kind'
  | line number _ _ _ => rw [number.kind] at kind; cases kind
  | lastLine number _ _ => rw [number.kind] at kind; cases kind

/-- Nothing follows the end of the text. -/
theorem IsLines.of_eof {ls : List Line} {t : Token} {w : List Token} (h : IsLines ls (t :: w))
    (kind : t.kind = .eof) : ls = [] ∧ w = [] := by
  cases h with
  | none _ => exact ⟨rfl, rfl⟩
  | newline kind' _ => rw [kind] at kind'; cases kind'
  | line number _ _ _ => rw [number.kind] at kind; cases kind
  | lastLine number _ _ => rw [number.kind] at kind; cases kind

/-- The tokens of a program. -/
def IsProgram (p : Program) (ts : List Token) : Prop := IsLines p.lines ts

end Grammar

end LineBasic
