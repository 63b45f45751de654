/-
  LineBasic.Proofs.ExactReading

  Everything the grammar derives is read.  A phrase is read off the front of a list of
  tokens as soon as the token behind it cannot make it longer; for a chain of operands
  that is proved for the state of the reader in the middle of the chain, so that the
  grouping to the left comes out by itself.
-/

import LineBasic.Proofs.Derivation
import LineBasic.Traced

namespace LineBasic

open Grammar

variable {α β : Type} {ts us : List Token}

-- ============================================================================
-- Replies
-- ============================================================================

/-- A reply that read `a` and left `rest`. -/
def Reply.Yields (r : Reply α ts) (a : α) (rest : List Token) : Prop := ∃ h, r = .ok a rest h

namespace Reply.Yields

variable {r : Reply α ts} {a : α} {rest rest' : List Token}

theorem ok {h : rest <:+ ts} : (Reply.ok a rest h).Yields a rest := ⟨h, rfl⟩

theorem andThen {f : α → (rest : List Token) → rest <:+ ts → Reply β rest} {b : β}
    (hr : r.Yields a rest) (hf : ∀ h, (f a rest h).Yields b rest') :
    (r.andThen f).Yields b rest' := by
  obtain ⟨h, rfl⟩ := hr
  obtain ⟨h', hf'⟩ := hf h
  exact ⟨h'.trans h, by rw [Reply.andThen, hf']; rfl⟩

theorem map {f : α → β} (hr : r.Yields a rest) : (r.map f).Yields (f a) rest := by
  obtain ⟨h, rfl⟩ := hr
  exact ⟨h, rfl⟩

theorem widen {r : Reply α us} {h : us <:+ ts} (hr : r.Yields a rest) :
    (r.widen h).Yields a rest := by
  obtain ⟨h', rfl⟩ := hr
  exact ⟨h'.trans h, rfl⟩

end Reply.Yields

theorem yields_takeKind {kind : TokenKind} {expected : Expected} {t : Token}
    (h : t.kind = kind) : (takeKind kind expected (t :: us)).Yields t us := by
  rw [takeKind, if_pos h]
  exact .ok

theorem yields_takeName {expected : Expected} {t : Token} (h : t.kind = .identifier) :
    (takeName expected (t :: us)).Yields t.lexeme us := .map (yields_takeKind h)

/-- A line number is read as the number it writes. -/
theorem yields_takeLineNumber {expected : Expected} {t : Token} {n : Nat} (ht : t.Legible)
    (h : IsLineNumber t n) : (takeLineNumber expected (t :: us)).Yields n us := by
  have hn : Numeral.lineNumber? t.lexeme = some n := by
    cases ht with
    | integer _ digits first =>
      exact (Numeral.lineNumber?_eq_some_iff digits first).2 ⟨h.value, h.bound⟩
    | decimal kind _ => rw [h.kind] at kind; cases kind
    | other kind _ => exact absurd h.kind kind
  rw [takeLineNumber, if_pos h.kind, hn]
  exact .ok

-- ============================================================================
-- Reading the grades
-- ============================================================================

namespace Grammar

def readOperand (ts : List Token) : Reply Expr ts := Expr.operand ts fun us _ => Expr.read us

def readSigned (ts : List Token) : Reply Expr ts := Expr.signed ts fun us _ => readOperand us

def readProduct (ts : List Token) : Reply Expr ts :=
  Expr.chain Expr.multiplicative? ts fun us _ => readSigned us

def readSum (ts : List Token) : Reply Expr ts :=
  Expr.chain Expr.additive? ts fun us _ => readProduct us

namespace Grade

/-- Reads an expression of a grade. -/
def read : Grade → (ts : List Token) → Reply Expr ts
  | comparison => Expr.read
  | sum => readSum
  | product => readProduct
  | signed => readSigned
  | operand => readOperand

/-- Whether a token behind an expression of a grade is no part of it. -/
def Stops (g : Grade) (k : TokenKind) : Prop :=
  k ≠ .symbol .leftParen ∧ g.op? k = none ∧ g.below.op? k = none ∧ g.below.below.op? k = none

theorem Stops.below {g : Grade} {k : TokenKind} (h : g.Stops k) : g.below.Stops k := by
  refine ⟨h.1, h.2.2.1, h.2.2.2, ?_⟩
  cases g <;> rfl

theorem Stops.op? {g : Grade} {k : TokenKind} (h : g.Stops k) : g.op? k = none := h.2.1

/-- An operator ends the operand in front of it. -/
theorem stops_below {g : Grade} {op : BinaryOp} (h : g.Has op) :
    g.below.Stops (.symbol op.symbol) := by
  cases op with
  | arith op =>
    cases g <;> cases op <;>
      simp_all [Has, Stops, below, op?, BinaryOp.symbol, Expr.multiplicative?]
  | compare rel => cases g <;> cases rel <;> cases h <;> exact ⟨by decide, rfl, rfl, rfl⟩

/-- The rest of a chain behind its first operands. -/
def readRest (g : Grade) (lhs : Expr) (ts : List Token) : Reply Expr ts :=
  Expr.chainRest g.op? lhs ts fun us _ => g.below.read us

/-- Without an operator of the grade, nothing more is read. -/
theorem yields_readRest {g : Grade} {e : Expr} (h : g.op? (headKind ts) = none) :
    (g.readRest e ts).Yields e ts := by
  unfold readRest
  cases ts with
  | nil =>
    rw [Expr.chainRest]
    exact .ok
  | cons t us =>
    rw [Expr.chainRest]
    have hnone : g.op? t.kind = none := h
    rw [hnone]
    exact .ok

/-- Without an operator of the grade, what was read in front is all there is. -/
theorem eq_of_yields_readRest {g : Grade} {e a : Expr} {rest : List Token}
    (h : g.op? (headKind ts) = none) (hy : (g.readRest e ts).Yields a rest) :
    a = e ∧ rest = ts := by
  obtain ⟨_, h₁⟩ := yields_readRest h (e := e)
  obtain ⟨_, h₂⟩ := hy
  rw [h₁] at h₂
  cases h₂
  exact ⟨rfl, rfl⟩

/-- A chain is its first operand and the rest. -/
theorem yields_chain {g : Grade} {w rest rest' : List Token} {e a : Expr}
    (first : (g.below.read (w ++ rest)).Yields e rest) (more : (g.readRest e rest).Yields a rest') :
    (Expr.chain g.op? (w ++ rest) fun us _ => g.below.read us).Yields a rest' :=
  .andThen first fun _ => more

/-- An operator and its right operand behind the start of a chain. -/
theorem yields_readRest_cons {g : Grade} {t : Token} {op : BinaryOp} {l r a : Expr}
    {v rest rest' : List Token} (has : g.Has op) (mark : t.kind = .symbol op.symbol)
    (rhs : (g.below.read (v ++ rest)).Yields r rest)
    (more : (g.readRest (.binary t.pos op l r) rest).Yields a rest') :
    (g.readRest l (t :: (v ++ rest))).Yields a rest' := by
  have hop : g.op? t.kind = some op := op?_eq_some_iff.2 ⟨has, mark⟩
  unfold readRest
  rw [Expr.chainRest, hop]
  exact .widen (.andThen rhs fun _ => more)

end Grade

-- ============================================================================
-- Expressions
-- ============================================================================

/-- What it takes to read a phrase off the front of a list of tokens.  An expression of a
    grade may be the start of a longer chain of that grade; what is read is then what the
    rest of the chain makes of it. -/
def Phrase.ReadOff : Phrase → List Token → Prop
  | .expr g e, w => ∀ rest a rest', g.below.Stops (headKind rest) →
      (g.readRest e rest).Yields a rest' → (g.read (w ++ rest)).Yields a rest'
  | .arguments es, w => ∀ r rest, r.kind = .symbol .rightParen →
      (Expr.arguments (w ++ r :: rest) fun us _ => Expr.read us).Yields es rest

/-- An expression that nothing continues is read as it stands. -/
theorem Phrase.ReadOff.yields {g : Grade} {e : Expr} {w rest : List Token}
    (h : (Phrase.expr g e).ReadOff w) (stops : g.Stops (headKind rest)) :
    (g.read (w ++ rest)).Yields e rest :=
  h rest e rest stops.below (Grade.yields_readRest stops.op?)

/-- Grades without operators of their own are read in one go. -/
theorem Phrase.readOff_of_yields {g : Grade} {e : Expr} {w : List Token}
    (plain : ∀ k, g.op? k = none)
    (h : ∀ rest, g.below.Stops (headKind rest) → (g.read (w ++ rest)).Yields e rest) :
    (Phrase.expr g e).ReadOff w := by
  intro rest a rest' stops more
  obtain ⟨rfl, rfl⟩ := Grade.eq_of_yields_readRest (plain _) more
  exact h _ stops

/-- An operand does not start with a sign. -/
theorem Derives.exists_operand_first {e : Expr} {w : List Token}
    (h : Derives (.expr .operand e) w) : ∃ t v, w = t :: v ∧ Expr.sign? t.kind = none := by
  generalize hph : Phrase.expr .operand e = ph at h
  induction h with
  | number kind value =>
    refine ⟨_, _, rfl, ?_⟩
    rcases kind with kind | kind
    · rw [kind]; rfl
    · rw [kind]; rfl
  | text kind => exact ⟨_, _, rfl, by rw [kind]; rfl⟩
  | var kind => exact ⟨_, _, rfl, by rw [kind]; rfl⟩
  | callEmpty name left right => exact ⟨_, _, rfl, by rw [name]; rfl⟩
  | call name left args right => exact ⟨_, _, rfl, by rw [name]; rfl⟩
  | parens left inner right => exact ⟨_, _, rfl, by rw [left]; rfl⟩
  | sign mark operand ih => cases hph
  | tighter inner ih =>
    cases hph
    exact ih rfl
  | chain has mark lhs rhs ihl ihr =>
    cases hph
    cases has
  | argument only ih => cases hph
  | arguments first comma more ih ih' => cases hph

/-- No phrase starts with a right parenthesis. -/
theorem Derives.exists_first {ph : Phrase} {w : List Token} (h : Derives ph w) :
    ∃ t v, w = t :: v ∧ t.kind ≠ .symbol .rightParen := by
  induction h with
  | number kind value =>
    refine ⟨_, _, rfl, ?_⟩
    rcases kind with kind | kind
    · simp [kind]
    · simp [kind]
  | text kind => exact ⟨_, _, rfl, by simp [kind]⟩
  | var kind => exact ⟨_, _, rfl, by simp [kind]⟩
  | callEmpty name left right => exact ⟨_, _, rfl, by simp [name]⟩
  | call name left args right => exact ⟨_, _, rfl, by simp [name]⟩
  | parens left inner right => exact ⟨_, _, rfl, by simp [left]⟩
  | @sign t s w e mark operand ih => exact ⟨_, _, rfl, by cases s <;> simp [mark, Sign.symbol]⟩
  | tighter inner ih => exact ih
  | chain has mark lhs rhs ihl ihr =>
    obtain ⟨t, v, rfl, ht⟩ := ihl
    exact ⟨_, _, rfl, ht⟩
  | argument only ih => exact ih
  | arguments first comma more ih ih' =>
    obtain ⟨t, v, rfl, ht⟩ := ih
    exact ⟨_, _, rfl, ht⟩

/-- A number literal is read as the double it denotes. -/
theorem readOff_number {t : Token} {x : Float} (kind : t.kind = .integer ∨ t.kind = .decimal)
    (value : Numeral.Denotes t.lexeme.toList x) :
    (Phrase.expr .operand (.number t.pos x)).ReadOff [t] := by
  refine Phrase.readOff_of_yields (fun _ => rfl) fun rest _ => ?_
  obtain ⟨d, hd, rfl⟩ := value
  show (readOperand (t :: rest)).Yields _ rest
  rw [readOperand, Expr.operand]
  rcases kind with kind | kind
  · rw [kind, hd.double?]
    exact .ok
  · rw [kind, hd.double?]
    exact .ok

/-- A name without a parenthesis behind it is read as a variable. -/
theorem readOff_var {t : Token} (kind : t.kind = .identifier) :
    (Phrase.expr .operand (.var t.pos t.lexeme)).ReadOff [t] := by
  refine Phrase.readOff_of_yields (fun _ => rfl) fun rest stops => ?_
  show (readOperand (t :: rest)).Yields _ rest
  rw [readOperand, Expr.operand, kind]
  refine .widen ?_
  cases rest with
  | nil => exact .ok
  | cons u us =>
    have hleft : u.kind ≠ .symbol .leftParen := stops.1
    rw [Expr.named, if_neg hleft]
    exact .ok

/-- A name, a parenthesis and arguments in front of the closing parenthesis. -/
theorem yields_call {t l : Token} {us rest : List Token} {es : List Expr}
    (name : t.kind = .identifier) (left : l.kind = .symbol .leftParen)
    (args : (Expr.callRest us fun vs _ => Expr.read vs).Yields es rest) :
    (readOperand (t :: l :: us)).Yields (.call t.pos t.lexeme es) rest := by
  rw [readOperand, Expr.operand, name]
  refine .widen ?_
  rw [Expr.named, if_pos left]
  exact .widen (.map args)

/-- A right parenthesis follows no unfinished expression. -/
theorem Grade.stops_rightParen (g : Grade) : g.Stops (.symbol .rightParen) := by
  cases g <;> exact ⟨nofun, rfl, rfl, rfl⟩

theorem Grade.stops_comma (g : Grade) : g.Stops (.symbol .comma) := by
  cases g <;> exact ⟨nofun, rfl, rfl, rfl⟩

/-- Parentheses are read off around what is inside. -/
theorem readOff_parens {l r : Token} {w : List Token} {e : Expr}
    (left : l.kind = .symbol .leftParen) (inner : (Phrase.expr .comparison e).ReadOff w)
    (right : r.kind = .symbol .rightParen) :
    (Phrase.expr .operand e).ReadOff (l :: (w ++ [r])) := by
  refine Phrase.readOff_of_yields (fun _ => rfl) fun rest _ => ?_
  have hinner : (Expr.read (w ++ r :: rest)).Yields e (r :: rest) :=
    inner.yields (show Grade.comparison.Stops r.kind from right ▸ Grade.stops_rightParen _)
  show (readOperand (l :: (w ++ [r] ++ rest))).Yields e rest
  rw [readOperand, Expr.operand, left, List.append_assoc, List.singleton_append]
  exact .widen (.andThen hinner fun _ => .map (yields_takeKind right))

/-- A sign is read off in front of its operand. -/
theorem readOff_sign {t : Token} {s : Sign} {w : List Token} {e : Expr}
    (mark : t.kind = .symbol s.symbol) (operand : (Phrase.expr .signed e).ReadOff w) :
    (Phrase.expr .signed (.unary t.pos s e)).ReadOff (t :: w) := by
  refine Phrase.readOff_of_yields (fun _ => rfl) fun rest stops => ?_
  have hoperand : (readSigned (w ++ rest)).Yields e rest :=
    operand rest e rest stops (Grade.yields_readRest rfl)
  show (readSigned (t :: (w ++ rest))).Yields _ rest
  rw [readSigned, Expr.signed, Expr.sign?_eq_some_iff.2 mark]
  exact .widen (.map hoperand)

/-- An expression of a tighter grade is one of the looser grade. -/
theorem readOff_tighter {g : Grade} {w : List Token} {e : Expr}
    (derived : Derives (.expr g.below e) w) (inner : (Phrase.expr g.below e).ReadOff w) :
    (Phrase.expr g e).ReadOff w := by
  intro rest a rest' stops more
  have hfirst := inner.yields stops
  cases g with
  | comparison =>
    show (Expr.read (w ++ rest)).Yields a rest'
    rw [Expr.read]
    exact Grade.yields_chain (g := .comparison) hfirst more
  | sum => exact Grade.yields_chain (g := .sum) hfirst more
  | product => exact Grade.yields_chain (g := .product) hfirst more
  | signed =>
    obtain ⟨rfl, rfl⟩ := Grade.eq_of_yields_readRest rfl more
    obtain ⟨t, v, rfl, hsign⟩ := derived.exists_operand_first
    show (readSigned (t :: (v ++ rest'))).Yields a rest'
    rw [readSigned, Expr.signed, hsign]
    exact hfirst
  | operand => exact inner rest a rest' stops more

/-- An operator is read off behind its left operand, since that ends at it. -/
theorem readOff_chain {g : Grade} {t : Token} {op : BinaryOp} {w v : List Token} {l r : Expr}
    (has : g.Has op) (mark : t.kind = .symbol op.symbol) (lhs : (Phrase.expr g l).ReadOff w)
    (rhs : (Phrase.expr g.below r).ReadOff v) :
    (Phrase.expr g (.binary t.pos op l r)).ReadOff (w ++ t :: v) := by
  intro rest a rest' stops more
  rw [List.append_assoc, List.cons_append]
  refine lhs _ a rest' ?_ (Grade.yields_readRest_cons has mark (rhs.yields stops) more)
  show g.below.Stops t.kind
  exact mark ▸ Grade.stops_below has

/-- Every phrase of the grammar is read off the front of what it stands in front of. -/
theorem Derives.readOff {ph : Phrase} {w : List Token} (h : Derives ph w) : ph.ReadOff w := by
  induction h with
  | number kind value => exact readOff_number kind value
  | @text t kind =>
    refine Phrase.readOff_of_yields (fun _ => rfl) fun rest _ => ?_
    show (readOperand (t :: rest)).Yields _ rest
    rw [readOperand, Expr.operand, kind]
    exact .ok
  | var kind => exact readOff_var kind
  | @callEmpty t l r name left right =>
    refine Phrase.readOff_of_yields (fun _ => rfl) fun rest _ => yields_call name left ?_
    show (Expr.callRest (r :: rest) _).Yields [] rest
    rw [Expr.callRest, if_pos right]
    exact .ok
  | @call t l r w es name left args right ih =>
    refine Phrase.readOff_of_yields (fun _ => rfl) fun rest _ => ?_
    have hargs := ih r rest right
    -- The first argument does not begin with a closing parenthesis, so the list is not taken as
    -- empty.
    obtain ⟨u, v, rfl, hu⟩ := args.exists_first
    rw [List.cons_append, List.cons_append, List.append_assoc]
    refine yields_call name left ?_
    show (Expr.callRest (u :: (v ++ r :: rest)) _).Yields es rest
    rw [Expr.callRest, if_neg hu]
    exact hargs
  | parens left inner right ih => exact readOff_parens left ih right
  | sign mark operand ih => exact readOff_sign mark ih
  | tighter inner ih => exact readOff_tighter inner ih
  | chain has mark lhs rhs ihl ihr => exact readOff_chain has mark ihl ihr
  | @argument w e only ih =>
    intro r rest right
    have hfirst : (Expr.read (w ++ r :: rest)).Yields e (r :: rest) :=
      ih.yields (show Grade.comparison.Stops r.kind from right ▸ Grade.stops_rightParen _)
    rw [Expr.arguments]
    refine .andThen hfirst fun _ => ?_
    dsimp only
    rw [if_neg (by simp [right])]
    exact .map (yields_takeKind right)
  | @arguments t w v e es first comma more ih ih' =>
    intro r rest right
    rw [List.append_assoc, List.cons_append]
    have hfirst : (Expr.read (w ++ t :: (v ++ r :: rest))).Yields e (t :: (v ++ r :: rest)) :=
      ih.yields (show Grade.comparison.Stops t.kind from comma ▸ Grade.stops_comma _)
    rw [Expr.arguments]
    refine .andThen hfirst fun _ => ?_
    dsimp only
    rw [if_pos comma]
    exact .widen (.map (ih' r rest right))

/-- An expression is read as the grammar derives it, if what follows ends it. -/
theorem IsExpr.yields {e : Expr} {w rest : List Token} (h : IsExpr e w)
    (stops : Grade.comparison.Stops (headKind rest)) : (Expr.read (w ++ rest)).Yields e rest :=
  h.readOff.yields stops

-- ============================================================================
-- Statements
-- ============================================================================

/-- The tokens that can stand behind a statement. -/
def Separates (k : TokenKind) : Prop :=
  k = .symbol .colon ∨ startsStmt k = true ∨ k = .keyword .next ∨ endsLine k = true

theorem Grade.stops_keyword (g : Grade) (k : Keyword) : g.Stops (.keyword k) := by
  cases g <;> exact ⟨nofun, rfl, rfl, rfl⟩

namespace Separates

variable {k : TokenKind}

/-- No operator and no parenthesis stands behind a statement. -/
theorem stops (h : Separates k) : Grade.comparison.Stops k := by
  cases k with
  | symbol s =>
    rcases h with h | h | h | h
    · cases h
      exact ⟨nofun, rfl, rfl, rfl⟩
    · cases h
    · cases h
    · cases h
  | _ => exact ⟨nofun, rfl, rfl, rfl⟩

theorem ne_step (h : Separates k) : k ≠ .keyword .step := by
  rintro rfl
  rcases h with h | h | h | h <;> cases h

end Separates

theorem yields_readAssignment {pos : Position} {name : String} {equals : Token} {e : Expr}
    {w rest : List Token} (sign : equals.kind = .symbol .equal) (value : IsExpr e w)
    (behind : Separates (headKind rest)) :
    (Stmt.readAssignment pos name (equals :: (w ++ rest))).Yields (.assign pos name e) rest :=
  .andThen (yields_takeKind sign) fun _ => .map (value.yields behind.stops)

/-- A step is read as it is derived. -/
theorem IsStep.yields {step : Option Expr} {w rest : List Token} (h : IsStep step w)
    (behind : Separates (headKind rest)) : (Stmt.readStep (w ++ rest)).Yields step rest := by
  cases h with
  | absent =>
    rw [List.nil_append]
    cases rest with
    | nil => exact .ok
    | cons t us =>
      have hstep : t.kind ≠ .keyword .step := behind.ne_step
      rw [Stmt.readStep, if_neg hstep]
      exact .ok
  | present kind amount =>
    rw [List.cons_append, Stmt.readStep, if_pos kind]
    exact .widen (.map (amount.yields behind.stops))

/-- The step of a loop ends the expression in front of it, and so does its absence. -/
theorem IsStep.stops {step : Option Expr} {w rest : List Token} (h : IsStep step w)
    (behind : Separates (headKind rest)) : Grade.comparison.Stops (headKind (w ++ rest)) := by
  cases h with
  | absent => exact behind.stops
  | @present t w e kind amount =>
    show Grade.comparison.Stops t.kind
    exact kind ▸ Grade.stops_keyword _ _

/-- The head of a loop is read as it is derived. -/
theorem IsLoopHead.yields {head : Stmt.LoopHead} {w rest : List Token} (h : IsLoopHead head w)
    (behind : Separates (headKind rest)) : (Stmt.readLoopHead (w ++ rest)).Yields head rest := by
  cases h with
  | @mk name equals to_ a b c start stop step variable_ sign first until_ last amount =>
    have hto : Grade.comparison.Stops to_.kind := until_ ▸ Grade.stops_keyword _ _
    have hstart : (Expr.read (a ++ to_ :: (b ++ (c ++ rest)))).Yields start _ := first.yields hto
    simp only [List.cons_append]
    rw [List.append_assoc, List.cons_append, List.append_assoc]
    refine .andThen (yields_takeName variable_) fun _ => ?_
    refine .andThen (yields_takeKind sign) fun _ => ?_
    refine .andThen hstart fun _ => ?_
    refine .andThen (yields_takeKind until_) fun _ => ?_
    refine .andThen (last.yields (amount.stops behind)) fun _ => ?_
    exact .map (f := fun step => (⟨name.lexeme, start, stop, step⟩ : Stmt.LoopHead))
      (amount.yields behind)

theorem yields_skipName_name {name : Token} {rest : List Token} (h : name.kind = .identifier) :
    (Stmt.skipName (name :: rest)).Yields () rest := by
  rw [Stmt.skipName, if_pos h]
  exact .ok

/-- Nothing is passed over where there is no name. -/
theorem yields_skipName {rest : List Token} (h : rest.head?.map Token.kind ≠ some .identifier) :
    (Stmt.skipName rest).Yields () rest := by
  cases rest with
  | nil => exact .ok
  | cons t us =>
    have hname : t.kind ≠ .identifier := fun ht => h (congrArg some ht)
    rw [Stmt.skipName, if_neg hname]
    exact .ok

/-- What it takes to read a statement, or the body of a loop with what ends it. -/
def Part.ReadOff : Part → List Token → Prop
  | .stmt s, w => ∀ rest, Separates (headKind rest) → NameTaken w rest →
      ∃ t v r, w = t :: v ∧ Stmt.read? t (v ++ rest) = some r ∧ r.Yields s rest
  | .body ss, w => ∀ next tail rest, next.kind = .keyword .next →
      (Stmt.skipName tail).Yields () rest → (Stmt.readBody (w ++ next :: tail)).Yields ss rest

/-- A statement that its first token decides on. -/
theorem readOff_stmt {s : Stmt} {t : Token} {w : List Token}
    (h : ∀ rest, Separates (headKind rest) → NameTaken (t :: w) rest →
      ∃ r, Stmt.read? t (w ++ rest) = some r ∧ r.Yields s rest) :
    (Part.stmt s).ReadOff (t :: w) := by
  intro rest behind taken
  obtain ⟨r, hread, hr⟩ := h rest behind taken
  exact ⟨t, w, r, rfl, hread, hr⟩

/-- The body of a loop ends at NEXT. -/
theorem yields_readBody_next {next : Token} {tail rest : List Token}
    (word : next.kind = .keyword .next) (skip : (Stmt.skipName tail).Yields () rest) :
    (Stmt.readBody (next :: tail)).Yields [] rest := by
  rw [Stmt.readBody, word]
  exact .widen (.map (f := fun _ => []) skip)

theorem yields_readBody_colon {t : Token} {ss : List Stmt} {rest : List Token}
    (kind : t.kind = .symbol .colon) (more : (Stmt.readBody us).Yields ss rest) :
    (Stmt.readBody (t :: us)).Yields ss rest := by
  rw [Stmt.readBody, kind]
  exact .widen more

/-- A statement in a body is read, and then the rest of the body. -/
theorem yields_readBody_stmt {t : Token} {s : Stmt} {ss : List Stmt} {rest rest' : List Token}
    {r : Reply Stmt us} (starts : startsStmt t.kind = true) (hread : Stmt.read? t us = some r)
    (first : r.Yields s rest) (more : (Stmt.readBody rest).Yields ss rest') :
    (Stmt.readBody (t :: us)).Yields (s :: ss) rest' := by
  rw [Stmt.readBody]
  split
  · next hkind => rw [hkind] at starts; cases starts
  · next hkind => rw [hkind] at starts; cases starts
  · next hkind => rw [hkind] at starts; cases starts
  · next hkind => rw [hkind] at starts; cases starts
  · rw [hread]
    exact .widen (.andThen first fun _ => .map more)

/-- What follows a statement in the body of a loop. -/
theorem Forms.separates {ss : List Stmt} {w : List Token} (h : Forms (.body ss) w) {next : Token}
    (tail : List Token) (word : next.kind = .keyword .next) :
    Separates (headKind (w ++ next :: tail)) := by
  cases h with
  | bodyEnd => exact .inr (.inr (.inl word))
  | bodyColon kind more => exact .inl kind
  | bodyStmt first more taken =>
    obtain ⟨t, v, rfl, starts⟩ := IsStmt.exists_first first
    exact .inr (.inl starts)

theorem NameTaken.append_next {w v : List Token} (h : NameTaken w v) {next : Token}
    (tail : List Token) (word : next.kind = .keyword .next) : NameTaken w (v ++ next :: tail) := by
  cases v with
  | nil => exact fun _ => by simp [word]
  | cons t v => exact h

/-- A loop is read up to the keyword that ends it, with the variable behind that if it is there. -/
theorem readOff_forNext {t : Token} {head : Stmt.LoopHead} {w v e : List Token} {ss : List Stmt}
    {rest : List Token} {next : Token} (kind : t.kind = .keyword .for_)
    (start : IsLoopHead head w) (derived : Forms (.body ss) v) (body : (Part.body ss).ReadOff v)
    (word : next.kind = .keyword .next) (skip : (Stmt.skipName (e ++ rest)).Yields () rest) :
    ∃ r, Stmt.read? t ((w ++ (v ++ next :: e)) ++ rest) = some r ∧
      r.Yields (.forNext t.pos head.name head.start head.stop head.step ss) rest := by
  have hbody := body next (e ++ rest) rest word skip
  have hhead := start.yields (derived.separates (e ++ rest) word)
  rw [List.append_assoc, List.append_assoc, List.cons_append, Stmt.read?, kind]
  exact ⟨_, rfl, .andThen hhead fun _ => .map hbody⟩

/-- Statements and bodies are read as the grammar forms them, by induction on how they are
    formed. -/
theorem Forms.readOff {part : Part} {w : List Token} (h : Forms part w) (hw : AllLegible w) :
    part.ReadOff w := by
  induction h with
  | print kind value =>
    refine readOff_stmt fun rest behind _ => ?_
    rw [Stmt.read?, kind]
    exact ⟨_, rfl, .map (value.yields behind.stops)⟩
  | letAssign kind variable_ sign value =>
    refine readOff_stmt fun rest behind _ => ?_
    rw [Stmt.read?, kind]
    exact ⟨_, rfl, .andThen (yields_takeName variable_) fun _ =>
      yields_readAssignment sign value behind⟩
  | assign variable_ sign value =>
    refine readOff_stmt fun rest behind _ => ?_
    rw [Stmt.read?, variable_]
    exact ⟨_, rfl, yields_readAssignment sign value behind⟩
  | @ifThen t then_ target n w e kind condition word number =>
    refine readOff_stmt fun rest behind _ => ?_
    have hthen : Grade.comparison.Stops then_.kind := word ▸ Grade.stops_keyword _ _
    have hcondition : (Expr.read (w ++ then_ :: target :: rest)).Yields e _ :=
      condition.yields hthen
    have htarget : target.Legible := hw target (by simp)
    rw [List.append_assoc, Stmt.read?, kind]
    exact ⟨_, rfl, .andThen hcondition fun _ => .andThen (yields_takeKind word) fun _ =>
      .map (yields_takeLineNumber htarget number)⟩
  | @goto t target n kind number =>
    refine readOff_stmt fun rest behind _ => ?_
    rw [Stmt.read?, kind]
    exact ⟨_, rfl, .map (yields_takeLineNumber (hw target (by simp)) number)⟩
  | @gosub t target n kind number =>
    refine readOff_stmt fun rest behind _ => ?_
    rw [Stmt.read?, kind]
    exact ⟨_, rfl, .map (yields_takeLineNumber (hw target (by simp)) number)⟩
  | return_ kind =>
    refine readOff_stmt fun rest behind _ => ?_
    rw [Stmt.read?, kind]
    exact ⟨_, rfl, .ok⟩
  | input kind variable_ =>
    refine readOff_stmt fun rest behind _ => ?_
    rw [Stmt.read?, kind]
    exact ⟨_, rfl, .map (yields_takeName variable_)⟩
  | end_ kind =>
    refine readOff_stmt fun rest behind _ => ?_
    rw [Stmt.read?, kind]
    exact ⟨_, rfl, .ok⟩
  | @forNext t next head w v ss kind start body word ih =>
    refine readOff_stmt fun rest behind taken => ?_
    have hbody := ih fun u hu => hw u (by simp [hu])
    -- Behind a bare closing keyword stands no name, so none is skipped.
    refine readOff_forNext kind start body hbody word (yields_skipName (taken ?_))
    simp [List.getLast?_cons, List.getLast?_append, word]
  | @forNextName t next name head w v ss kind start body word variable_ ih =>
    refine readOff_stmt fun rest behind _ => ?_
    have hbody := ih fun u hu => hw u (by simp [hu])
    exact readOff_forNext (e := [name]) kind start body hbody word (yields_skipName_name variable_)
  | bodyEnd => exact fun next tail rest word skip => yields_readBody_next word skip
  | bodyColon kind more ih =>
    exact fun next tail rest word skip =>
      yields_readBody_colon kind (ih hw.tail next tail rest word skip)
  | @bodyStmt w v s ss first more taken ih ih' =>
    intro next tail rest word skip
    have hmore := ih' (hw.rest rfl) next tail rest word skip
    obtain ⟨t, w, r, rfl, hread, hfirst⟩ := ih (fun u hu => hw u (List.mem_append_left _ hu))
      (v ++ next :: tail) (more.separates tail word) (taken.append_next tail word)
    obtain ⟨_, _, hcons, starts⟩ := IsStmt.exists_first first
    cases hcons
    rw [List.append_assoc, List.cons_append]
    exact yields_readBody_stmt starts hread hfirst hmore

-- ============================================================================
-- Lines and programs
-- ============================================================================

/-- A statement of a line is read up to the colon or the end of the line behind it. -/
theorem IsStmt.readStmts_eq {s : Stmt} {w rest : List Token} (h : IsStmt s w) (hw : AllLegible w)
    (behind : headKind rest = .symbol .colon ∨ endsLine (headKind rest) = true) :
    (readStmts (w ++ rest)).1 = s :: (readStmts rest).1 ∧
      ∀ rest', (readStmts rest).2.Yields () rest' → (readStmts (w ++ rest)).2.Yields () rest' := by
  have hsep : Separates (headKind rest) := by
    rcases behind with behind | behind
    · exact .inl behind
    · exact .inr (.inr (.inr behind))
  have htaken : NameTaken w rest := by
    intro _ hname
    obtain ⟨t, v, rfl, ht⟩ : ∃ t v, rest = t :: v ∧ t.kind = .identifier := by
      cases rest with
      | nil => cases hname
      | cons t v => exact ⟨t, v, rfl, Option.some.inj hname⟩
    have hkind : headKind (t :: v) = .identifier := ht
    rw [hkind] at behind
    rcases behind with behind | behind <;> cases behind
  obtain ⟨t, v, r, rfl, hread, hr, hreply⟩ := Forms.readOff h hw rest hsep htaken
  obtain ⟨_, _, hcons, starts⟩ := h.exists_first
  cases hcons
  have hcolon : t.kind ≠ .symbol .colon := fun ht => by rw [ht] at starts; cases starts
  have hend : ¬ endsLine t.kind = true := by simp [not_endsLine_of_startsStmt starts]
  rw [List.cons_append, readStmts, if_neg hcolon, if_neg hend, hread, hreply]
  dsimp only
  rw [if_pos behind]
  exact ⟨rfl, fun _ hmore => .widen (h := hr.trans (List.suffix_cons t _)) hmore⟩

/-- The statements of a line are read as they are formed, up to the end of the line. -/
theorem IsItems.readStmts_eq {ss : List Stmt} {w rest : List Token} (h : IsItems ss w)
    (hw : AllLegible w) (hend : endsLine (headKind rest) = true) :
    (readStmts (w ++ rest)).1 = ss ∧ (readStmts (w ++ rest)).2.Yields () rest := by
  induction h with
  | none =>
    rw [List.nil_append]
    cases rest with
    | nil =>
      rw [readStmts]
      exact ⟨rfl, .ok⟩
    | cons t us =>
      have hend' : endsLine t.kind = true := hend
      have hcolon : t.kind ≠ .symbol .colon := fun ht => by rw [ht] at hend'; cases hend'
      rw [readStmts, if_neg hcolon, if_pos hend']
      exact ⟨rfl, .ok⟩
  | colon kind more ih =>
    obtain ⟨hss, hrest⟩ := ih hw.tail
    rw [List.cons_append, readStmts, if_pos kind]
    exact ⟨hss, .widen (h := List.suffix_cons _ _) hrest⟩
  | @stmt w v s ss first more apart ih =>
    obtain ⟨hss, hrest⟩ := ih (hw.rest rfl)
    -- What follows a statement is a colon or the end of the line.
    have behind : headKind (v ++ rest) = .symbol .colon ∨
        endsLine (headKind (v ++ rest)) = true := by
      cases v with
      | nil => exact .inr hend
      | cons t v => exact .inl (apart t rfl)
    obtain ⟨hfirst, hyields⟩ :=
      first.readStmts_eq (fun u hu => hw u (List.mem_append_left _ hu)) behind
    rw [List.append_assoc, hfirst, hss]
    exact ⟨rfl, hyields _ hrest⟩

/-- A numbered line in front of lines that are read. -/
theorem readLines_cons {t : Token} {n : Nat} {ss : List Stmt} {ls : List Line}
    {w rest : List Token} (hw : AllLegible (t :: w)) (hn : IsLineNumber t n) (items : IsItems ss w)
    (hend : endsLine (headKind rest) = true) (later : (readLines rest).outcome = .ok ls) :
    (readLines (t :: (w ++ rest))).outcome = .ok (⟨n, ss, t.pos⟩ :: ls) := by
  obtain ⟨_, hnumber⟩ : (takeLineNumber .lineNumber (t :: (w ++ rest))).Yields n _ :=
    yields_takeLineNumber (hw t (List.mem_cons_self ..)) hn
  obtain ⟨hss, _, hrest⟩ := items.readStmts_eq hw.tail hend
  have hread : readStmts (w ++ rest) = (ss, .ok () rest (List.suffix_append w rest)) := by
    rw [← hss, ← hrest]
  rw [readLines, hn.kind]
  dsimp only
  rw [hnumber, hread]
  dsimp only
  rw [later]
  rfl

/-- Lines are read as they are formed. -/
theorem IsLines.readLines_eq {ls : List Line} {ts : List Token} (h : IsLines ls ts)
    (hts : AllLegible ts) : (readLines ts).outcome = .ok ls := by
  induction h with
  | none kind => rw [readLines, kind]
  | newline kind more ih =>
    rw [readLines, kind]
    exact ih hts.tail
  | @line t end_ n w v ss ls number items kind more ih =>
    have hend : endsLine (headKind (end_ :: v)) = true := by
      show endsLine end_.kind = true
      rw [kind]
      rfl
    have hv : AllLegible v := fun u hu => hts u (by simp [hu])
    refine readLines_cons (fun u hu => hts u ?_) number items hend ?_
    · exact List.mem_append_left (end_ :: v) hu
    · rw [readLines, kind]
      exact ih hv
  | @lastLine t end_ n w ss number items kind =>
    have hend : endsLine (headKind [end_]) = true := by
      show endsLine end_.kind = true
      rw [kind]
      rfl
    refine readLines_cons (fun u hu => hts u ?_) number items hend ?_
    · exact List.mem_append_left [end_] hu
    · rw [readLines, kind]

/-- Tokens that the grammar derives a program from are read as that program. -/
theorem IsProgram.ofTokens_eq {p : Program} {ts : List Token} (h : IsProgram p ts)
    (hts : AllLegible ts) : Program.ofTokens ts = .ok p := by
  unfold Program.ofTokens Program.read
  dsimp only [Cursor.of]
  rw [IsLines.readLines_eq h hts]

end Grammar

-- ============================================================================
-- Exactness
-- ============================================================================

/-- The tokens of a text make up a program exactly when the grammar derives it from them.
    The grammar derives at most one, and what stops the reading is never a number. -/
theorem ofTokens_eq_ok_iff_isProgram {source : String} {ts : List Token}
    (h : tokenize source = .ok ts) :
    (∀ p, Program.ofTokens ts = .ok p ↔ IsProgram p ts) ∧
      (∀ p q, IsProgram p ts → IsProgram q ts → p = q) ∧
      ∀ e, Program.ofTokens ts = .error e → e.expected ≠ .numericLiteral := by
  have hscans := tokenize_eq_ok_iff.1 h
  have hts : AllLegible ts := hscans.legible
  have hsound := ofTokens_sound hts hscans.closed
  refine ⟨fun p => ⟨fun hp => ?_, fun hp => hp.ofTokens_eq hts⟩, fun p q hp hq => ?_,
    fun e he => ?_⟩
  · rw [hp] at hsound
    exact hsound
  · have heq := (hp.ofTokens_eq hts).symm.trans (hq.ofTokens_eq hts)
    exact Except.ok.inj heq
  · rw [he] at hsound
    exact hsound

/-- Differences group to the left, and in no other way. -/
theorem isProgram_differences :
    ∃ ts, tokenize "10 A=B-C-D" = .ok ts ∧ ∀ p, IsProgram p ts ↔
      p = ⟨[⟨10, [.assign ⟨1, 4⟩ "A" (.binary ⟨1, 9⟩ (.arith .sub)
        (.binary ⟨1, 7⟩ (.arith .sub) (.var ⟨1, 6⟩ "B") (.var ⟨1, 8⟩ "C"))
        (.var ⟨1, 10⟩ "D"))], ⟨1, 1⟩⟩]⟩ := by
  have htokens : tokenize "10 A=B-C-D" = .ok [⟨.integer, "10", ⟨1, 1⟩⟩,
      ⟨.identifier, "A", ⟨1, 4⟩⟩, ⟨.symbol .equal, "=", ⟨1, 5⟩⟩, ⟨.identifier, "B", ⟨1, 6⟩⟩,
      ⟨.symbol .minus, "-", ⟨1, 7⟩⟩, ⟨.identifier, "C", ⟨1, 8⟩⟩, ⟨.symbol .minus, "-", ⟨1, 9⟩⟩,
      ⟨.identifier, "D", ⟨1, 10⟩⟩, ⟨.eof, "", ⟨1, 11⟩⟩] := by decide +kernel
  obtain ⟨hread, hunique, -⟩ := ofTokens_eq_ok_iff_isProgram htokens
  refine ⟨_, htokens, fun p => ⟨fun hp => ?_, ?_⟩⟩
  · exact hunique p _ hp ((hread _).1 (by decide +kernel))
  · rintro rfl
    exact (hread _).1 (by decide +kernel)

end LineBasic
