/-
  LineBasic.Proofs.Rendering

  Every program can be written down and read back.  A program is rendered as one row of
  words for each line, with every operand of an operator in parentheses; the tokens of
  the rendered text follow the grammar, for a tree that differs from the program in the
  positions only, and the reader reads all that follows the grammar.
-/

import LineBasic.Proofs.ExactDecimals
import LineBasic.Proofs.ExactReading
import LineBasic.Proofs.Words

namespace LineBasic

open Grammar

-- ============================================================================
-- Trees without positions
-- ============================================================================

/-- The place of what stands in no text. -/
def Position.nowhere : Position := ⟨0, 0⟩

namespace Expr

mutual

/-- An expression that stands nowhere. -/
def unplaced : Expr → Expr
  | number _ x => .number .nowhere x
  | text _ s => .text .nowhere s
  | var _ name => .var .nowhere name
  | unary _ sign operand => .unary .nowhere sign (unplaced operand)
  | binary _ op lhs rhs => .binary .nowhere op (unplaced lhs) (unplaced rhs)
  | call _ name args => .call .nowhere name (unplacedList args)

def unplacedList : List Expr → List Expr
  | [] => []
  | e :: es => unplaced e :: unplacedList es

end

end Expr

namespace Stmt

mutual

/-- A statement that stands nowhere. -/
def unplaced : Stmt → Stmt
  | assign _ name value => .assign .nowhere name value.unplaced
  | print _ value => .print .nowhere value.unplaced
  | goto _ target => .goto .nowhere target
  | gosub _ target => .gosub .nowhere target
  | return_ _ => .return_ .nowhere
  | ifThen _ condition target => .ifThen .nowhere condition.unplaced target
  | input _ name => .input .nowhere name
  | forNext _ name start stop step body =>
    .forNext .nowhere name start.unplaced stop.unplaced (step.map Expr.unplaced)
      (unplacedList body)
  | end_ _ => .end_ .nowhere

def unplacedList : List Stmt → List Stmt
  | [] => []
  | s :: ss => unplaced s :: unplacedList ss

end

end Stmt

def Line.unplaced (l : Line) : Line := ⟨l.number, Stmt.unplacedList l.stmts, .nowhere⟩

/-- What is left of a program when it is forgotten where it was written. -/
def Program.unplaced (p : Program) : Program := ⟨p.lines.map Line.unplaced⟩

-- ============================================================================
-- Programs that can be written
-- ============================================================================

namespace Expr

mutual

/-- Whether an expression can be written: its names are names, and its numbers are finite
    and carry no sign. -/
def writable : Expr → Bool
  | number _ x => decide (Numeral.Unsigned x)
  | text _ _ => true
  | var _ name => isName name
  | unary _ _ operand => writable operand
  | binary _ _ lhs rhs => writable lhs && writable rhs
  | call _ name args => isName name && writableList args

def writableList : List Expr → Bool
  | [] => true
  | e :: es => writable e && writableList es

end

end Expr

/-- Whether a number can be the number of a line. -/
def isTarget (n : Nat) : Bool := decide (n ≤ Numeral.lineNumberMax)

namespace Stmt

mutual

/-- Whether a statement can be written. -/
def writable : Stmt → Bool
  | assign _ name value => isName name && value.writable
  | print _ value => value.writable
  | goto _ target => isTarget target
  | gosub _ target => isTarget target
  | return_ _ => true
  | ifThen _ condition target => condition.writable && isTarget target
  | input _ name => isName name
  | forNext _ name start stop step body =>
    isName name && start.writable && stop.writable && Expr.writableList step.toList
      && writableList body
  | end_ _ => true

def writableList : List Stmt → Bool
  | [] => true
  | s :: ss => writable s && writableList ss

end

end Stmt

/-- Whether a program can be written. -/
def Program.writable (p : Program) : Bool :=
  p.lines.all fun l => isTarget l.number && Stmt.writableList l.stmts

-- ============================================================================
-- Rendering
-- ============================================================================

variable (σ : Numeral.Spelling)

/-- Words in parentheses. -/
def inParens (ws : List Word) : List Word :=
  .symbol .leftParen :: (ws ++ [.symbol .rightParen])

namespace Expr

mutual

/-- The words of an expression.  Operands of operators stand in parentheses. -/
def words : Expr → List Word
  | number _ x => [.numeral (σ.text x)]
  | text _ s => [.text s]
  | var _ name => [.name name]
  | unary _ sign operand => .symbol sign.symbol :: inParens (words operand)
  | binary _ op lhs rhs => inParens (words lhs) ++ .symbol op.symbol :: inParens (words rhs)
  | call _ name args => .name name :: inParens (argumentWords args)

/-- Arguments with commas between them. -/
def argumentWords : List Expr → List Word
  | [] => []
  | e :: es => words e ++ moreArgumentWords es

def moreArgumentWords : List Expr → List Word
  | [] => []
  | e :: es => .symbol .comma :: (words e ++ moreArgumentWords es)

end

end Expr

/-- The word of a line number. -/
def targetWord (n : Nat) : Word := .numeral (Decimal.digits n)

namespace Stmt

mutual

/-- The words of a statement. -/
def words : Stmt → List Word
  | assign _ name value => .keyword .let_ :: .name name :: .symbol .equal :: value.words σ
  | print _ value => .keyword .print :: value.words σ
  | goto _ target => [.keyword .goto, targetWord target]
  | gosub _ target => [.keyword .gosub, targetWord target]
  | return_ _ => [.keyword .return_]
  | ifThen _ condition target =>
    .keyword .if_ :: (condition.words σ ++ [.keyword .then_, targetWord target])
  | input _ name => [.keyword .input, .name name]
  | forNext _ name start stop step body =>
    .keyword .for_ :: .name name :: .symbol .equal :: (start.words σ ++ .keyword .to_ ::
      (stop.words σ ++ step.toList.flatMap (fun e => .keyword .step :: e.words σ) ++
        (moreWords body ++ [.symbol .colon, .keyword .next])))
  | end_ _ => [.keyword .end_]

/-- Statements with a colon in front of each. -/
def moreWords : List Stmt → List Word
  | [] => []
  | s :: ss => .symbol .colon :: (words s ++ moreWords ss)

end

/-- Statements with colons between them. -/
def rowWords : List Stmt → List Word
  | [] => []
  | s :: ss => words σ s ++ moreWords σ ss

end Stmt

/-- The words of a line. -/
def Line.words (l : Line) : List Word := targetWord l.number :: Stmt.rowWords σ l.stmts

/-- The text of a program, one line for each of its lines. -/
def Program.render (p : Program) : String :=
  .ofList (p.lines.flatMap fun l => spaced (l.words σ) ++ ['\n'])

variable {σ}

-- ============================================================================
-- The words fit
-- ============================================================================

/-- A row of words that all fit. -/
def AllFit (ws : List Word) : Prop := ∀ w ∈ ws, w.Fits

theorem allFit_nil : AllFit [] := nofun

theorem AllFit.cons {w : Word} {ws : List Word} (hw : w.Fits) (hws : AllFit ws) :
    AllFit (w :: ws) := List.forall_mem_cons.2 ⟨hw, hws⟩

theorem AllFit.append {ws vs : List Word} (hws : AllFit ws) (hvs : AllFit vs) :
    AllFit (ws ++ vs) := List.forall_mem_append.2 ⟨hws, hvs⟩

theorem AllFit.inParens {ws : List Word} (h : AllFit ws) : AllFit (inParens ws) :=
  .cons trivial (.append h (.cons trivial allFit_nil))

theorem fits_targetWord (n : Nat) : (targetWord n).Fits :=
  ⟨_, .whole (Decimal.allDigits_digits n) (Decimal.digits_ne_nil n)⟩

namespace Expr

mutual

/-- An expression that can be written is written with words that can stand in a text. -/
theorem allFit_words (e : Expr) (h : e.writable = true) : AllFit (e.words σ) := by
  match e with
  | .number _ x =>
    obtain ⟨d, hd, -⟩ := σ.denotes x (of_decide_eq_true h)
    exact .cons ⟨d, hd⟩ allFit_nil
  | .text _ s => exact .cons trivial allFit_nil
  | .var _ name => exact .cons h allFit_nil
  | .unary _ sign operand => exact .cons trivial (allFit_words operand h).inParens
  | .binary _ op lhs rhs =>
    obtain ⟨hl, hr⟩ := Bool.and_eq_true_iff.1 h
    exact .append (allFit_words lhs hl).inParens (.cons trivial (allFit_words rhs hr).inParens)
  | .call _ name args =>
    obtain ⟨hname, hargs⟩ := Bool.and_eq_true_iff.1 h
    exact .cons hname (allFit_argumentWords args hargs).inParens

theorem allFit_argumentWords (es : List Expr) (h : writableList es = true) :
    AllFit (argumentWords σ es) := by
  match es with
  | [] => exact allFit_nil
  | e :: es =>
    obtain ⟨he, hes⟩ := Bool.and_eq_true_iff.1 h
    exact .append (allFit_words e he) (allFit_moreArgumentWords es hes)

theorem allFit_moreArgumentWords (es : List Expr) (h : writableList es = true) :
    AllFit (moreArgumentWords σ es) := by
  match es with
  | [] => exact allFit_nil
  | e :: es =>
    obtain ⟨he, hes⟩ := Bool.and_eq_true_iff.1 h
    exact .cons trivial (.append (allFit_words e he) (allFit_moreArgumentWords es hes))

end

/-- A step is written with words that can stand in a text. -/
theorem allFit_stepWords (step : Option Expr) (h : writableList step.toList = true) :
    AllFit (step.toList.flatMap fun e => .keyword .step :: e.words σ) := by
  cases step with
  | none => exact allFit_nil
  | some e =>
    obtain ⟨he, -⟩ := Bool.and_eq_true_iff.1 h
    exact .append (.cons nofun (allFit_words e he)) allFit_nil

end Expr

namespace Stmt

mutual

/-- A statement that can be written is written with words that can stand in a text. -/
theorem allFit_words (s : Stmt) (h : s.writable = true) : AllFit (s.words σ) := by
  match s with
  | .assign _ name value =>
    obtain ⟨hname, hvalue⟩ := Bool.and_eq_true_iff.1 h
    exact .cons nofun (.cons hname (.cons trivial (value.allFit_words hvalue)))
  | .print _ value => exact .cons nofun (value.allFit_words h)
  | .goto _ target => exact .cons nofun (.cons (fits_targetWord target) allFit_nil)
  | .gosub _ target => exact .cons nofun (.cons (fits_targetWord target) allFit_nil)
  | .return_ _ => exact .cons nofun allFit_nil
  | .ifThen _ condition target =>
    obtain ⟨hcondition, -⟩ := Bool.and_eq_true_iff.1 h
    exact .cons nofun (.append (condition.allFit_words hcondition)
      (.cons nofun (.cons (fits_targetWord target) allFit_nil)))
  | .input _ name => exact .cons nofun (.cons h allFit_nil)
  | .forNext _ name start stop step body =>
    simp only [writable, Bool.and_eq_true] at h
    obtain ⟨⟨⟨⟨hname, hstart⟩, hstop⟩, hstep⟩, hbody⟩ := h
    have hend : AllFit [.symbol .colon, .keyword .next] :=
      .cons trivial (.cons nofun allFit_nil)
    exact .cons nofun (.cons hname (.cons trivial (.append (start.allFit_words hstart)
      (.cons nofun (.append (.append (stop.allFit_words hstop) (Expr.allFit_stepWords step hstep))
        (.append (allFit_moreWords body hbody) hend))))))
  | .end_ _ => exact .cons nofun allFit_nil

theorem allFit_moreWords (ss : List Stmt) (h : writableList ss = true) :
    AllFit (moreWords σ ss) := by
  match ss with
  | [] => exact allFit_nil
  | s :: ss =>
    obtain ⟨hs, hss⟩ := Bool.and_eq_true_iff.1 h
    exact .cons trivial (.append (allFit_words s hs) (allFit_moreWords ss hss))

end

theorem allFit_rowWords (ss : List Stmt) (h : writableList ss = true) :
    AllFit (rowWords σ ss) := by
  cases ss with
  | nil => exact allFit_nil
  | cons s ss =>
    obtain ⟨hs, hss⟩ := Bool.and_eq_true_iff.1 h
    exact .append (allFit_words s hs) (allFit_moreWords ss hss)

end Stmt

-- ============================================================================
-- The words follow the grammar
-- ============================================================================

variable {ts : List Token}

namespace Grammar

/-- An operand is an expression of every grade. -/
theorem Derives.loosen {e : Expr} {w : List Token} (h : Derives (.expr .operand e) w) (g : Grade) :
    Derives (.expr g e) w := by
  cases g with
  | comparison => exact .tighter (.tighter (.tighter (.tighter h)))
  | sum => exact .tighter (.tighter (.tighter h))
  | product => exact .tighter (.tighter h)
  | signed => exact .tighter h
  | operand => exact h

/-- An expression of any grade is an expression. -/
theorem Derives.isExpr {g : Grade} {e : Expr} {w : List Token} (h : Derives (.expr g e) w) :
    IsExpr e w := by
  cases g with
  | comparison => exact h
  | sum => exact .tighter h
  | product => exact .tighter (.tighter h)
  | signed => exact .tighter (.tighter (.tighter h))
  | operand => exact h.loosen .comparison

/-- Each operator belongs to a grade. -/
theorem exists_has (op : BinaryOp) : ∃ g : Grade, g.Has op := by
  cases op with
  | arith op =>
    cases op with
    | add => exact ⟨.sum, .inl rfl⟩
    | sub => exact ⟨.sum, .inr rfl⟩
    | mul => exact ⟨.product, .inl rfl⟩
    | div => exact ⟨.product, .inr rfl⟩
  | compare rel => exact ⟨.comparison, trivial⟩

/-- Tokens that write an expression, up to positions. -/
def Writes (e : Expr) (ts : List Token) : Prop := ∃ e', IsExpr e' ts ∧ e'.unplaced = e.unplaced

/-- Parentheses make an operand of any expression. -/
theorem exists_operand {e : Expr} {ws : List Word} (h : ∀ us, Spelt ws us → Writes e us)
    (hts : Spelt (inParens ws) ts) :
    ∃ e', Derives (.expr .operand e') ts ∧ e'.unplaced = e.unplaced := by
  obtain ⟨l, us, rfl, hl, -, hus⟩ := spelt_cons_iff.1 hts
  obtain ⟨us, xs, rfl, hinner, hxs⟩ := spelt_append_iff.1 hus
  obtain ⟨r, xs, rfl, hr, -, hnil⟩ := spelt_cons_iff.1 hxs
  obtain rfl := spelt_nil_iff.1 hnil
  obtain ⟨e', he, hsame⟩ := h us hinner
  exact ⟨e', .parens hl he hr, hsame⟩

end Grammar

namespace Expr

/-- A number is written with a numeral that reads as that number. -/
theorem writes_number {x : Float} {pos : Position} (hx : Numeral.Unsigned x)
    (hts : Spelt [.numeral (σ.text x)] ts) : Writes (.number pos x) ts := by
  obtain ⟨t, us, rfl, hkind, hlexeme, hnil⟩ := spelt_cons_iff.1 hts
  obtain rfl := spelt_nil_iff.1 hnil
  have hnumeral : t.kind = .integer ∨ t.kind = .decimal := by
    rw [hkind, Word.kind]
    split
    · exact .inr rfl
    · exact .inl rfl
  have hvalue : Numeral.Denotes t.lexeme.toList x := by
    rw [hlexeme, Word.lexeme, String.toList_ofList]
    exact σ.denotes x hx
  exact ⟨_, Derives.isExpr (.number hnumeral hvalue), rfl⟩

mutual

/-- The words of an expression are read back as that expression, up to places, by induction on
    the expression. -/
theorem writes_words (e : Expr) (h : e.writable = true) (ts : List Token)
    (hts : Spelt (e.words σ) ts) : Writes e ts := by
  match e with
  | .number _ x => exact writes_number (of_decide_eq_true h) hts
  | .text _ s =>
    obtain ⟨t, us, rfl, hkind, hlexeme, hnil⟩ := spelt_cons_iff.1 hts
    obtain rfl := spelt_nil_iff.1 hnil
    exact ⟨_, Derives.isExpr (.text hkind), congrArg (Expr.text .nowhere) hlexeme⟩
  | .var _ name =>
    obtain ⟨t, us, rfl, hkind, hlexeme, hnil⟩ := spelt_cons_iff.1 hts
    obtain rfl := spelt_nil_iff.1 hnil
    exact ⟨_, Derives.isExpr (.var hkind), congrArg (Expr.var .nowhere) hlexeme⟩
  | .unary _ sign operand =>
    obtain ⟨t, us, rfl, hkind, -, hus⟩ := spelt_cons_iff.1 hts
    obtain ⟨e', he, hsame⟩ := exists_operand (writes_words operand h) hus
    exact ⟨_, Derives.isExpr (.sign hkind (he.loosen .signed)),
      congrArg (Expr.unary .nowhere sign) hsame⟩
  | .binary _ op lhs rhs =>
    obtain ⟨hl, hr⟩ := Bool.and_eq_true_iff.1 h
    obtain ⟨us, xs, rfl, hus, hxs⟩ := spelt_append_iff.1 hts
    obtain ⟨t, xs, rfl, hkind, -, hxs⟩ := spelt_cons_iff.1 hxs
    obtain ⟨l, hlhs, hsame⟩ := exists_operand (writes_words lhs hl) hus
    obtain ⟨r, hrhs, hsame'⟩ := exists_operand (writes_words rhs hr) hxs
    obtain ⟨g, has⟩ := exists_has op
    exact ⟨_, Derives.isExpr (.chain has hkind (hlhs.loosen g) (hrhs.loosen g.below)),
      congrArg₂ (Expr.binary .nowhere op) hsame hsame'⟩
  | .call _ name args =>
    obtain ⟨-, hargs⟩ := Bool.and_eq_true_iff.1 h
    obtain ⟨t, us, rfl, hkind, hlexeme, hus⟩ := spelt_cons_iff.1 hts
    obtain ⟨l, us, rfl, hl, -, hus⟩ := spelt_cons_iff.1 hus
    obtain ⟨us, xs, rfl, hinner, hxs⟩ := spelt_append_iff.1 hus
    obtain ⟨r, xs, rfl, hr, -, hnil⟩ := spelt_cons_iff.1 hxs
    obtain rfl := spelt_nil_iff.1 hnil
    cases args with
    | nil =>
      obtain rfl := spelt_nil_iff.1 hinner
      exact ⟨_, Derives.isExpr (.callEmpty hkind hl hr),
        congrArg (Expr.call .nowhere · []) hlexeme⟩
    | cons e es =>
      obtain ⟨he, hes⟩ := Bool.and_eq_true_iff.1 hargs
      obtain ⟨us, xs, rfl, hus, hxs⟩ := spelt_append_iff.1 hinner
      obtain ⟨e', hfirst, hsame⟩ := writes_words e he us hus
      obtain ⟨es', hderives, hsame'⟩ := exists_arguments es hes xs hxs hfirst
      rw [hsame] at hsame'
      exact ⟨_, Derives.isExpr (.call hkind hl hderives hr),
        congrArg₂ (Expr.call .nowhere) hlexeme hsame'⟩

/-- Arguments behind a first one. -/
theorem exists_arguments (es : List Expr) (h : writableList es = true) (ts : List Token)
    (hts : Spelt (moreArgumentWords σ es) ts) {e : Expr} {us : List Token} (first : IsExpr e us) :
    ∃ es', Derives (.arguments es') (us ++ ts) ∧
      unplacedList es' = e.unplaced :: unplacedList es := by
  match es with
  | [] =>
    obtain rfl := spelt_nil_iff.1 hts
    rw [List.append_nil]
    exact ⟨[e], .argument first, rfl⟩
  | e₂ :: es =>
    obtain ⟨he, hes⟩ := Bool.and_eq_true_iff.1 h
    obtain ⟨t, vs, rfl, hcomma, -, hvs⟩ := spelt_cons_iff.1 hts
    obtain ⟨vs, xs, rfl, hsecond, hxs⟩ := spelt_append_iff.1 hvs
    obtain ⟨e', hsecond, hsame⟩ := writes_words e₂ he vs hsecond
    obtain ⟨es', hmore, hsame'⟩ := exists_arguments es hes xs hxs hsecond
    rw [hsame] at hsame'
    exact ⟨e :: es', .arguments first hcomma hmore, congrArg (e.unplaced :: ·) hsame'⟩

end

end Expr

-- ----------------------------------------------------------------------------
-- Statements
-- ----------------------------------------------------------------------------

/-- The number of a line is read back as that number. -/
theorem isLineNumber_of_spelt {n : Nat} (hn : isTarget n = true)
    (hts : Spelt [targetWord n] ts) : ∃ t, ts = [t] ∧ IsLineNumber t n := by
  obtain ⟨t, us, rfl, hkind, hlexeme, hnil⟩ := spelt_cons_iff.1 hts
  obtain rfl := spelt_nil_iff.1 hnil
  have hdot : '.' ∉ Decimal.digits n :=
    fun hmem => absurd (Decimal.allDigits_digits n '.' hmem) (by decide)
  refine ⟨t, rfl, ?_, ?_, of_decide_eq_true hn⟩
  · rw [hkind, targetWord, Word.kind, if_neg hdot]
  · rw [hlexeme, targetWord, Word.lexeme, String.toList_ofList, Decimal.ofDigits_digits]

namespace Stmt

/-- Tokens that write a statement, up to positions. -/
def Writes (s : Stmt) (ts : List Token) : Prop := ∃ s', IsStmt s' ts ∧ s'.unplaced = s.unplaced

/-- A step is read back as it was, up to places. -/
theorem isStep_of_spelt (step : Option Expr) (h : Expr.writableList step.toList = true)
    (hts : Spelt (step.toList.flatMap fun e => .keyword .step :: e.words σ) ts) :
    ∃ step', IsStep step' ts ∧ step'.map Expr.unplaced = step.map Expr.unplaced := by
  cases step with
  | none =>
    obtain rfl := spelt_nil_iff.1 hts
    exact ⟨none, .absent, rfl⟩
  | some e =>
    obtain ⟨he, -⟩ := Bool.and_eq_true_iff.1 h
    have hstep : Spelt (.keyword .step :: e.words σ) ts := by
      rwa [Option.toList_some, List.flatMap_singleton] at hts
    obtain ⟨t, us, rfl, hkind, -, hus⟩ := spelt_cons_iff.1 hstep
    obtain ⟨e', hvalue, hsame⟩ := e.writes_words he us hus
    exact ⟨some e', .present hkind hvalue, congrArg some hsame⟩

/-- A colon stands behind every statement of a body. -/
theorem head_moreWords (ss : List Stmt) (hts : Spelt (moreWords σ ss) ts) :
    ∀ t ∈ ts.head?, t.kind = .symbol .colon := by
  cases ss with
  | nil =>
    obtain rfl := spelt_nil_iff.1 hts
    exact nofun
  | cons s ss =>
    obtain ⟨t, us, rfl, hkind, -, -⟩ := spelt_cons_iff.1 hts
    intro u hu
    obtain rfl := Option.some.inj hu
    exact hkind

/-- A colon is no name. -/
theorem nameTaken_of_colon {w v : List Token} {t : Token} (ht : t.kind = .symbol .colon)
    (h : ∀ u ∈ v.head?, u.kind = .symbol .colon) : NameTaken w (v ++ [t]) := by
  intro _
  cases v with
  | nil => simp [ht]
  | cons u v => simp [h u rfl]

mutual

/-- The words of a statement are read back as that statement, up to places, by induction on the
    statement. -/
theorem writes_words (s : Stmt) (h : s.writable = true) (ts : List Token)
    (hts : Spelt (s.words σ) ts) : Writes s ts := by
  match s with
  | .assign _ name value =>
    obtain ⟨-, hvalue⟩ := Bool.and_eq_true_iff.1 h
    obtain ⟨t, us, rfl, hlet, -, hus⟩ := spelt_cons_iff.1 hts
    obtain ⟨x, us, rfl, hname, hlexeme, hus⟩ := spelt_cons_iff.1 hus
    obtain ⟨q, us, rfl, hequals, -, hus⟩ := spelt_cons_iff.1 hus
    obtain ⟨e, he, hsame⟩ := value.writes_words hvalue us hus
    exact ⟨_, .letAssign hlet hname hequals he, congrArg₂ (Stmt.assign .nowhere) hlexeme hsame⟩
  | .print _ value =>
    obtain ⟨t, us, rfl, hkind, -, hus⟩ := spelt_cons_iff.1 hts
    obtain ⟨e, he, hsame⟩ := value.writes_words h us hus
    exact ⟨_, .print hkind he, congrArg (Stmt.print .nowhere) hsame⟩
  | .goto _ target =>
    obtain ⟨t, us, rfl, hkind, -, hus⟩ := spelt_cons_iff.1 hts
    obtain ⟨n, rfl, hn⟩ := isLineNumber_of_spelt h hus
    exact ⟨_, .goto hkind hn, rfl⟩
  | .gosub _ target =>
    obtain ⟨t, us, rfl, hkind, -, hus⟩ := spelt_cons_iff.1 hts
    obtain ⟨n, rfl, hn⟩ := isLineNumber_of_spelt h hus
    exact ⟨_, .gosub hkind hn, rfl⟩
  | .return_ _ =>
    obtain ⟨t, us, rfl, hkind, -, hnil⟩ := spelt_cons_iff.1 hts
    obtain rfl := spelt_nil_iff.1 hnil
    exact ⟨_, .return_ hkind, rfl⟩
  | .ifThen _ condition target =>
    obtain ⟨hcondition, htarget⟩ := Bool.and_eq_true_iff.1 h
    obtain ⟨t, us, rfl, hkind, -, hus⟩ := spelt_cons_iff.1 hts
    obtain ⟨as, xs, rfl, has, hxs⟩ := spelt_append_iff.1 hus
    obtain ⟨w, ns, rfl, hthen, -, hns⟩ := spelt_cons_iff.1 hxs
    obtain ⟨n, rfl, hn⟩ := isLineNumber_of_spelt htarget hns
    obtain ⟨e, he, hsame⟩ := condition.writes_words hcondition as has
    exact ⟨_, .ifThen hkind he hthen hn, congrArg (Stmt.ifThen .nowhere · target) hsame⟩
  | .input _ name =>
    obtain ⟨t, us, rfl, hkind, -, hus⟩ := spelt_cons_iff.1 hts
    obtain ⟨x, us, rfl, hname, hlexeme, hnil⟩ := spelt_cons_iff.1 hus
    obtain rfl := spelt_nil_iff.1 hnil
    exact ⟨_, .input hkind hname, congrArg (Stmt.input .nowhere) hlexeme⟩
  | .forNext _ name start stop step body =>
    simp only [writable, Bool.and_eq_true] at h
    obtain ⟨⟨⟨⟨-, hstart⟩, hstop⟩, hstep⟩, hbody⟩ := h
    -- Taken apart from left to right: head, bounds, step, body, closing words.
    obtain ⟨t, ts₁, rfl, hkind, -, h₁⟩ := spelt_cons_iff.1 hts
    obtain ⟨x, ts₂, rfl, hname, hlexeme, h₂⟩ := spelt_cons_iff.1 h₁
    obtain ⟨q, ts₃, rfl, hequals, -, h₃⟩ := spelt_cons_iff.1 h₂
    obtain ⟨as, ts₄, rfl, has, h₄⟩ := spelt_append_iff.1 h₃
    obtain ⟨w, ts₅, rfl, hto, -, h₅⟩ := spelt_cons_iff.1 h₄
    obtain ⟨ts₆, ts₇, rfl, h₆, h₇⟩ := spelt_append_iff.1 h₅
    obtain ⟨bs, ds, rfl, hbs, hds⟩ := spelt_append_iff.1 h₆
    obtain ⟨vs, ts₈, rfl, hvs, h₈⟩ := spelt_append_iff.1 h₇
    obtain ⟨c, ts₉, rfl, hcolon, -, h₉⟩ := spelt_cons_iff.1 h₈
    obtain ⟨n, _, rfl, hnext, -, hnil⟩ := spelt_cons_iff.1 h₉
    obtain rfl := spelt_nil_iff.1 hnil
    obtain ⟨a, ha, hsamea⟩ := start.writes_words hstart as has
    obtain ⟨b, hb, hsameb⟩ := stop.writes_words hstop bs hbs
    obtain ⟨d, hd, hsamed⟩ := isStep_of_spelt step hstep hds
    obtain ⟨ss, hss, hsamess⟩ := exists_body body hbody vs hvs hcolon
    have hstmt := Forms.forNext hkind (.mk hname hequals ha hto hb hd) hss hnext
    refine ⟨.forNext t.pos x.lexeme a b d ss, ?_, ?_⟩
    · simpa [IsStmt] using hstmt
    · simp only [unplaced, hlexeme, hsamea, hsameb, hsamed, hsamess, Word.lexeme]
  | .end_ _ =>
    obtain ⟨t, us, rfl, hkind, -, hnil⟩ := spelt_cons_iff.1 hts
    obtain rfl := spelt_nil_iff.1 hnil
    exact ⟨_, .end_ hkind, rfl⟩

/-- The body of a loop, up to the colon in front of its NEXT. -/
theorem exists_body (ss : List Stmt) (h : writableList ss = true) (ts : List Token)
    (hts : Spelt (moreWords σ ss) ts) {c : Token} (hc : c.kind = .symbol .colon) :
    ∃ ss', Forms (.body ss') (ts ++ [c]) ∧ unplacedList ss' = unplacedList ss := by
  match ss with
  | [] =>
    obtain rfl := spelt_nil_iff.1 hts
    exact ⟨[], .bodyColon hc .bodyEnd, rfl⟩
  | s :: ss =>
    obtain ⟨hs, hss⟩ := Bool.and_eq_true_iff.1 h
    obtain ⟨t, us, rfl, hkind, -, hus⟩ := spelt_cons_iff.1 hts
    obtain ⟨us, xs, rfl, hus, hxs⟩ := spelt_append_iff.1 hus
    obtain ⟨s', hfirst, hsame⟩ := writes_words s hs us hus
    obtain ⟨ss', hmore, hsame'⟩ := exists_body ss hss xs hxs hc
    have htaken := nameTaken_of_colon (w := us) hc (head_moreWords ss hxs)
    refine ⟨s' :: ss', ?_, congrArg₂ List.cons hsame hsame'⟩
    rw [List.cons_append, List.append_assoc]
    exact .bodyColon hkind (.bodyStmt hfirst hmore htaken)

end

end Stmt

-- ----------------------------------------------------------------------------
-- Lines
-- ----------------------------------------------------------------------------

namespace Stmt

/-- Statements with a colon in front of each are read back. -/
theorem exists_moreItems (ss : List Stmt) (h : writableList ss = true) (ts : List Token)
    (hts : Spelt (moreWords σ ss) ts) :
    ∃ ss', IsItems ss' ts ∧ unplacedList ss' = unplacedList ss := by
  induction ss generalizing ts with
  | nil =>
    obtain rfl := spelt_nil_iff.1 hts
    exact ⟨[], .none, rfl⟩
  | cons s ss ih =>
    obtain ⟨hs, hss⟩ := Bool.and_eq_true_iff.1 h
    obtain ⟨t, us, rfl, hkind, -, hus⟩ := spelt_cons_iff.1 hts
    obtain ⟨vs, xs, rfl, hvs, hxs⟩ := spelt_append_iff.1 hus
    obtain ⟨s', hfirst, hsame⟩ := writes_words s hs vs hvs
    obtain ⟨ss', hmore, hsame'⟩ := ih hss xs hxs
    exact ⟨s' :: ss', .colon hkind (.stmt hfirst hmore (head_moreWords ss hxs)),
      congrArg₂ List.cons hsame hsame'⟩

/-- The statements of a line are read back as they were, up to places. -/
theorem exists_items (ss : List Stmt) (h : writableList ss = true)
    (hts : Spelt (rowWords σ ss) ts) :
    ∃ ss', IsItems ss' ts ∧ unplacedList ss' = unplacedList ss := by
  cases ss with
  | nil =>
    obtain rfl := spelt_nil_iff.1 hts
    exact ⟨[], .none, rfl⟩
  | cons s ss =>
    obtain ⟨hs, hss⟩ := Bool.and_eq_true_iff.1 h
    obtain ⟨vs, xs, rfl, hvs, hxs⟩ := spelt_append_iff.1 hts
    obtain ⟨s', hfirst, hsame⟩ := writes_words s hs vs hvs
    obtain ⟨ss', hmore, hsame'⟩ := exists_moreItems ss hss xs hxs
    exact ⟨s' :: ss', .stmt hfirst hmore (head_moreWords ss hxs),
      congrArg₂ List.cons hsame hsame'⟩

end Stmt

/-- Wherever the text of lines starts, its tokens write the lines, up to positions. -/
theorem scansTo_lines (σ : Numeral.Spelling) (ls : List Line)
    (h : ∀ l ∈ ls, isTarget l.number = true ∧ Stmt.writableList l.stmts = true) :
    ScansTo (ls.flatMap fun l => spaced (l.words σ) ++ ['\n']) fun ts =>
      ∃ ls', IsLines ls' ts ∧ ls'.map Line.unplaced = ls.map Line.unplaced := by
  induction ls with
  | nil =>
    intro pos
    obtain ⟨_, hscans, t, rfl, ht⟩ := ScansTo.nil pos
    exact ⟨[t], hscans, [], .none ht, rfl⟩
  | cons l ls ih =>
    obtain ⟨⟨htarget, hstmts⟩, hls⟩ := List.forall_mem_cons.1 h
    have hfit : AllFit (l.words σ) :=
      .cons (fits_targetWord _) (Stmt.allFit_rowWords l.stmts hstmts)
    intro pos
    rw [List.flatMap_cons, List.append_assoc]
    have hwords := (ih hls).newline.words hfit (List.cons_ne_nil _ _) (apart_newline _)
    obtain ⟨_, hscans, us, _, rfl, hus, e, vs, rfl, he, ls', hlines, hsame⟩ := hwords pos
    obtain ⟨t, xs, rfl, hkind, hlexeme, hxs⟩ := spelt_cons_iff.1 hus
    obtain ⟨_, ht, hn⟩ := isLineNumber_of_spelt htarget
      (spelt_cons_iff.2 ⟨t, [], rfl, hkind, hlexeme, spelt_nil_iff.2 rfl⟩)
    cases ht
    obtain ⟨ss, hitems, hsame'⟩ := Stmt.exists_items l.stmts hstmts hxs
    refine ⟨_, hscans, ⟨l.number, ss, t.pos⟩ :: ls', .line hn hitems he hlines, ?_⟩
    rw [List.map_cons, List.map_cons, hsame, Line.unplaced, Line.unplaced, hsame']

-- ============================================================================
-- Reading back
-- ============================================================================

/-- A program that is rendered, whatever way its numbers are written, is read back as the
    same program, up to positions. -/
theorem ofTokens_render (σ : Numeral.Spelling) (p : Program) (h : p.writable = true) :
    ∃ ts q, tokenize (p.render σ) = .ok ts ∧ Program.ofTokens ts = .ok q ∧
      q.unplaced = p.unplaced := by
  have hlines : ∀ l ∈ p.lines, isTarget l.number = true ∧ Stmt.writableList l.stmts = true :=
    fun l hl => Bool.and_eq_true_iff.1 (List.all_eq_true.1 h l hl)
  obtain ⟨ts, hscans, ls, hderives, hsame⟩ := scansTo_lines σ p.lines hlines .start
  refine ⟨ts, ⟨ls⟩, ?_, ?_, congrArg Program.mk hsame⟩
  · rw [tokenize_eq_ok_iff, Program.render, String.toList_ofList]
    exact hscans
  · exact IsProgram.ofTokens_eq hderives hscans.legible

/-- A loop in a loop, a text with quotes, a comment sign and a line end, a call and a
    fraction. -/
theorem ofTokens_render_loops :
    let p : Program := ⟨[⟨4294967295, [.forNext .start "I" (.number .start 0.1)
      (.call .start "RND" []) (some (.unary .start .minus (.var .start "A")))
      [.forNext .start "REMOTE" (.number .start 0.0)
        (.call .start "F" [.var .start "A", .var .start "B"]) none [],
        .print .start (.binary .start (.compare .ne) (.text .start "'\"\\n\n")
          (.text .start ""))]], .start⟩, ⟨10, [], .start⟩]⟩
    ∃ ts q, tokenize (p.render .inFull) = .ok ts ∧ Program.ofTokens ts = .ok q ∧
      q.unplaced = p.unplaced :=
  ofTokens_render .inFull _ (by decide +kernel)

end LineBasic
