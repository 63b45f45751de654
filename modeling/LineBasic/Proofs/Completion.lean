/-
  LineBasic.Proofs.Completion

  What was read before a fault can be completed.  `Reply.Completes` says of a reply that
  failed that the tokens in front of the fault, with some more behind them, are a phrase
  of the grammar after all.  The tokens put behind are always the shortest way out: a name
  for a missing expression, a closing parenthesis, a NEXT, the end of the text.
  Together with the bounded lookahead of the readers it follows that faults are reported
  at the earliest token there is to blame.
-/

import LineBasic.Proofs.Lookahead

namespace LineBasic

open Grammar

variable {α β : Type} {ts us : List Token}

-- ============================================================================
-- Made-up tokens
-- ============================================================================

/-- A token made up for its kind. -/
def Token.stub (kind : TokenKind) : Token := ⟨kind, "0", ⟨0, 0⟩⟩

/-- The simplest token of each kind can be read. -/
theorem Token.legible_stub (kind : TokenKind) : (Token.stub kind).Legible := by
  have hlexeme : (Token.stub kind).lexeme.toList = ['0'] := by
    show "0".toList = ['0']
    decide
  have hdigits : AllDigits (Token.stub kind).lexeme.toList := by
    rw [hlexeme]
    intro c hc
    obtain rfl := List.mem_singleton.1 hc
    decide
  have hfirst : (Token.stub kind).lexeme.toList ≠ [] := by
    rw [hlexeme]
    exact List.cons_ne_nil _ _
  by_cases hinteger : kind = .integer
  · exact .integer hinteger hdigits hfirst
  · by_cases hdecimal : kind = .decimal
    · exact .decimal hdecimal ⟨_, .whole hdigits hfirst⟩
    · exact .other hinteger hdecimal

theorem allLegible_stubs (kinds : List TokenKind) : AllLegible (kinds.map Token.stub) := by
  intro t ht
  obtain ⟨kind, -, rfl⟩ := List.mem_map.1 ht
  exact Token.legible_stub kind

theorem isLineNumber_stub : IsLineNumber (Token.stub .integer) 0 :=
  ⟨rfl, by decide, by decide⟩

/-- A single name is an expression of every grade. -/
theorem Grammar.exists_derives_stub (g : Grade) :
    ∃ e, Derives (.expr g e) [Token.stub .identifier] := by
  have hoperand := Derives.var (t := Token.stub .identifier) rfl
  have hsigned := hoperand.tighter (g := .signed)
  have hproduct := hsigned.tighter (g := .product)
  have hsum := hproduct.tighter (g := .sum)
  cases g with
  | operand => exact ⟨_, hoperand⟩
  | signed => exact ⟨_, hsigned⟩
  | product => exact ⟨_, hproduct⟩
  | sum => exact ⟨_, hsum⟩
  | comparison => exact ⟨_, hsum.tighter (g := .comparison)⟩

-- ============================================================================
-- Replies
-- ============================================================================

/-- What becomes of a reply to `ts` that failed: the tokens in front of the fault are good,
    once some more are put behind them. -/
def Reply.Completes (r : Reply α ts) (good : List Token → Prop) : Prop :=
  match r with
  | .ok _ _ _ => True
  | .error _ rest _ => ∃ front more, ts = front ++ rest ∧ AllLegible more ∧ good (front ++ more)

namespace Reply.Completes

variable {r : Reply α ts} {good good' : List Token → Prop}

/-- A fault in front of all tokens. -/
theorem here {expected : Expected} {h : ts <:+ ts} (kinds : List TokenKind)
    (hgood : good (kinds.map Token.stub)) :
    (Reply.error expected ts h : Reply α ts).Completes good :=
  ⟨[], kinds.map Token.stub, rfl, allLegible_stubs kinds, hgood⟩

/-- What is good for a part is good for the whole with still more tokens behind. -/
theorem extend (hr : r.Completes good) (kinds : List TokenKind)
    (h : ∀ w, good w → good' (w ++ kinds.map Token.stub)) : r.Completes good' := by
  cases r with
  | ok a rest _ => trivial
  | error expected rest _ =>
    obtain ⟨front, more, hfront, hmore, hgood⟩ := hr
    refine ⟨front, more ++ kinds.map Token.stub, hfront, hmore.append (allLegible_stubs kinds), ?_⟩
    rw [← List.append_assoc]
    exact h _ hgood

theorem imp (hr : r.Completes good) (h : ∀ w, good w → good' w) : r.Completes good' := by
  refine hr.extend [] fun w hgood => ?_
  rw [List.map_nil, List.append_nil]
  exact h w hgood

theorem map {f : α → β} (hr : r.Completes good) : (r.map f).Completes good := by
  cases r with
  | ok a rest _ => trivial
  | error expected rest _ => exact hr

/-- Tokens in front of the fault. -/
theorem front {v : List Token} {r : Reply α us} (h : us <:+ ts) (hts : ts = v ++ us)
    (hr : r.Completes fun w => good (v ++ w)) : (r.widen h).Completes good := by
  cases r with
  | ok a rest _ => trivial
  | error expected rest _ =>
    obtain ⟨front, more, hfront, hmore, hgood⟩ := hr
    refine ⟨v ++ front, more, by rw [hts, hfront, List.append_assoc], hmore, ?_⟩
    rw [List.append_assoc]
    exact hgood

theorem cons {t : Token} {r : Reply α us} (hr : r.Completes fun w => good (t :: w)) :
    (r.widen (List.suffix_cons t us)).Completes good := front (v := [t]) _ rfl hr

/-- Two readings in a row can be completed if the first can, and if the second can behind
    whatever the first has read. -/
theorem andThen {f : α → (rest : List Token) → rest <:+ ts → Reply β rest}
    {read : α → List Token → List Token → Prop} (hr : r.Completes good) (hread : r.Reads read)
    (hf : ∀ a w rest h, ts = w ++ rest → read a w rest →
      (f a rest h).Completes fun v => good (w ++ v)) :
    (r.andThen f).Completes good := by
  cases r with
  | error expected rest h => exact hr
  | ok a rest h =>
    obtain ⟨w, hw, hgood⟩ := hread
    exact front h hw (hf a w rest h hw hgood)

end Reply.Completes

-- ============================================================================
-- Single tokens
-- ============================================================================

/-- A token of a kind is completed by one of that kind. -/
theorem completes_takeKind {kind : TokenKind} {expected : Expected} :
    (takeKind kind expected ts).Completes fun w => ∃ t : Token, w = [t] ∧ t.kind = kind := by
  cases ts with
  | nil => exact .here [kind] ⟨_, rfl, rfl⟩
  | cons t us =>
    rw [takeKind]
    split
    · trivial
    · exact .here [kind] ⟨_, rfl, rfl⟩

theorem completes_takeName {expected : Expected} :
    (takeName expected ts).Completes fun w => ∃ t : Token, w = [t] ∧ t.kind = .identifier :=
  .map completes_takeKind

/-- A line number is completed by an integer that is small enough. -/
theorem completes_takeLineNumber {expected : Expected} :
    (takeLineNumber expected ts).Completes fun w => ∃ t n, w = [t] ∧ IsLineNumber t n := by
  cases ts with
  | nil => exact .here [.integer] ⟨_, 0, rfl, isLineNumber_stub⟩
  | cons t us =>
    rw [takeLineNumber]
    split
    · split
      · trivial
      · exact .here [.integer] ⟨_, 0, rfl, isLineNumber_stub⟩
    · exact .here [.integer] ⟨_, 0, rfl, isLineNumber_stub⟩

-- ============================================================================
-- Expressions
-- ============================================================================

namespace Expr

/-- A level whose faults can be mended to expressions of a grade. -/
def Level.Completes (level : Level ts) (g : Grade) : Prop :=
  ∀ us hu, AllLegible us → (level us hu).Completes fun w => ∃ e, Derives (.expr g e) w

/-- Operators and operands behind a first operand, by induction on what is left to read. -/
theorem completes_chainRest {g : Grade} {lhs : Expr} {level : Level ts} {w : List Token}
    (hlevel : level.Completes g.below) (hsound : level.Sound g.below)
    (hlhs : Derives (.expr g lhs) w) (hts : AllLegible ts) :
    (chainRest g.op? lhs ts level).Completes fun v => ∃ e, Derives (.expr g e) (w ++ v) := by
  fun_induction chainRest g.op? lhs ts level generalizing w with
  | case1 lhs level => trivial
  | case2 lhs t us hop level => trivial
  | case3 lhs t us op hop level ih =>
    obtain ⟨has, mark⟩ := Grade.op?_eq_some_iff.1 hop
    refine .cons (.andThen (.imp (hlevel us _ hts.tail) ?_) (hsound us _ hts.tail) ?_)
    · rintro v ⟨rhs, hrhs⟩
      exact ⟨_, .chain has mark hlhs hrhs⟩
    · intro rhs v rest h hv hrhs
      refine .imp (ih rhs rest h (fun vs _ => hlevel vs _) (fun vs _ => hsound vs _)
        (.chain has mark hlhs hrhs) (hts.tail.rest hv)) fun v' he => ?_
      simpa using he

/-- A chain of operators is completed by completing its first operand. -/
theorem completes_chain {g : Grade} {level : Level ts} (hlevel : level.Completes g.below)
    (hsound : level.Sound g.below) (hts : AllLegible ts) :
    (chain g.op? ts level).Completes fun w => ∃ e, Derives (.expr g e) w := by
  refine .andThen (.imp (hlevel ts _ hts) ?_) (hsound ts _ hts) ?_
  · rintro w ⟨e, he⟩
    exact ⟨e, .tighter he⟩
  · intro lhs w rest h hw hlhs
    exact completes_chainRest (fun us _ => hlevel us _) (fun us _ => hsound us _) (.tighter hlhs)
      (hts.rest hw)

/-- Signs in front of an operand are completed by completing the operand. -/
theorem completes_signed {level : Level ts} (hlevel : level.Completes .operand)
    (hts : AllLegible ts) :
    (signed ts level).Completes fun w => ∃ e, Derives (.expr .signed e) w := by
  have hoperand : ∀ us hu, AllLegible us →
      (level us hu).Completes fun w => ∃ e, Derives (.expr .signed e) w := by
    intro us hu hus
    refine .imp (hlevel us hu hus) ?_
    rintro w ⟨e, he⟩
    exact ⟨e, .tighter he⟩
  fun_induction signed ts level with
  | case1 level => exact hoperand [] _ hts
  | case2 t us s hs level ih =>
    refine .cons (.map (.imp (ih (fun vs _ => hlevel vs _) hts.tail fun vs _ => hoperand vs _) ?_))
    rintro w ⟨e, he⟩
    exact ⟨_, .sign (sign?_eq_some_iff.1 hs) he⟩
  | case3 t us hs level => exact hoperand (t :: us) _ hts

/-- Arguments are completed by completing the last one and closing the parenthesis. -/
theorem completes_arguments {level : Level ts} (hlevel : level.Completes .comparison)
    (hsound : level.Sound .comparison) (hts : AllLegible ts) :
    (arguments ts level).Completes fun w => ∃ es v r,
      w = v ++ [r] ∧ r.kind = .symbol .rightParen ∧ Derives (.arguments es) v := by
  fun_induction arguments ts level with
  | case1 ts level ih =>
    refine .andThen (.extend (hlevel ts _ hts) [.symbol .rightParen] ?_) (hsound ts _ hts) ?_
    · rintro w ⟨e, he⟩
      exact ⟨[e], w, _, rfl, rfl, .argument he⟩
    · intro arg w rest h hw harg
      cases rest with
      | nil => exact .here [.symbol .rightParen] ⟨[arg], w, _, rfl, rfl, .argument harg⟩
      | cons t us =>
        have htail := (hts.rest hw).tail
        dsimp only
        split
        · next hcomma =>
          refine .cons (.map (.imp (ih t us h (fun vs _ => hlevel vs _) (fun vs _ => hsound vs _)
            htail) ?_))
          rintro _ ⟨es, v, r, rfl, hr, hes⟩
          exact ⟨arg :: es, w ++ t :: v, r, by simp, hr, .arguments harg hcomma hes⟩
        · refine .map (.imp completes_takeKind ?_)
          rintro _ ⟨r, rfl, hr⟩
          exact ⟨[arg], w, r, rfl, hr, .argument harg⟩

theorem completes_callRest {level : Level ts} (hlevel : level.Completes .comparison)
    (hsound : level.Sound .comparison) (hts : AllLegible ts) :
    (callRest ts level).Completes fun w => ∃ es v r,
      w = v ++ [r] ∧ r.kind = .symbol .rightParen ∧ Derives (.arguments es) v := by
  unfold callRest
  split
  · exact completes_arguments hlevel hsound hts
  · split
    · trivial
    · exact completes_arguments hlevel hsound hts

/-- A name is a variable, or the start of a call that can be completed. -/
theorem completes_named {t : Token} {level : Level ts} (hname : t.kind = .identifier)
    (hlevel : level.Completes .comparison) (hsound : level.Sound .comparison)
    (hts : AllLegible ts) :
    (named t ts level).Completes fun w => ∃ e, Derives (.expr .operand e) (t :: w) := by
  unfold named
  split
  · trivial
  · next u us level =>
    split
    · next hleft =>
      refine .cons (.map (.imp (completes_callRest (fun vs _ => hlevel vs _)
        (fun vs _ => hsound vs _) hts.tail) ?_))
      rintro _ ⟨es, v, r, rfl, hr, hes⟩
      exact ⟨_, .call hname hleft hes hr⟩
    · trivial

/-- An operand is completed by a name where there is none, and by what its inside wants where it
    has one. -/
theorem completes_operand {inner : (us : List Token) → us.length < ts.length → Reply Expr us}
    (hinner : ∀ us hu, AllLegible us → (inner us hu).Completes fun w => ∃ e, IsExpr e w)
    (hsound : ∀ us hu, AllLegible us → (inner us hu).Reads fun e w _ => IsExpr e w)
    (hts : AllLegible ts) :
    (operand ts inner).Completes fun w => ∃ e, Derives (.expr .operand e) w := by
  -- A name is an operand, so it stands in for whatever is missing.
  have hname := exists_derives_stub .operand
  unfold operand
  split
  · exact .here [.identifier] hname
  · next t us inner =>
    split
    · split
      · trivial
      · exact .here [.identifier] hname
    · split
      · trivial
      · exact .here [.identifier] hname
    · trivial
    · next hkind =>
      exact .cons (completes_named hkind (fun vs _ => hinner vs _) (fun vs _ => hsound vs _)
        hts.tail)
    · next hleft =>
      refine .cons (.andThen (.extend (hinner us _ hts.tail) [.symbol .rightParen] ?_)
        (hsound us _ hts.tail) ?_)
      · rintro w ⟨e, he⟩
        exact ⟨e, .parens hleft he rfl⟩
      · intro e w rest _ _ he
        refine .map (.imp completes_takeKind ?_)
        rintro _ ⟨r, rfl, hr⟩
        exact ⟨e, .parens hleft he hr⟩
    · exact .here [.identifier] hname

theorem reads_readSigned (ts : List Token) (hts : AllLegible ts) :
    (readSigned ts).Reads fun e w _ => Derives (.expr .signed e) w := by
  refine reads_signed (fun us _ hus => ?_) hts
  exact reads_operand (fun vs _ hvs => reads_read vs hvs) hus

theorem reads_readProduct (ts : List Token) (hts : AllLegible ts) :
    (readProduct ts).Reads fun e w _ => Derives (.expr .product e) w :=
  reads_chain (g := .product) (fun us _ hus => reads_readSigned us hus) hts

theorem reads_readSum (ts : List Token) (hts : AllLegible ts) :
    (readSum ts).Reads fun e w _ => Derives (.expr .sum e) w :=
  reads_chain (g := .sum) (fun us _ hus => reads_readProduct us hus) hts

/-- Every expression that was begun can be completed, by induction on the tokens that are left. -/
theorem completes_read (ts : List Token) (hts : AllLegible ts) :
    (read ts).Completes fun w => ∃ e, IsExpr e w := by
  rw [read]
  refine completes_chain (g := .comparison) (fun us _ hus => ?_)
    (fun us _ hus => reads_readSum us hus) hts
  refine completes_chain (g := .sum) (fun vs _ hvs => ?_)
    (fun vs _ hvs => reads_readProduct vs hvs) hus
  refine completes_chain (g := .product) (fun ws _ hws => ?_)
    (fun ws _ hws => reads_readSigned ws hws) hvs
  refine completes_signed (fun xs _ hxs => ?_) hws
  exact completes_operand (fun ys _ hys => completes_read ys hys)
    (fun ys _ hys => reads_read ys hys) hxs
termination_by ts.length
decreasing_by omega

end Expr

-- ============================================================================
-- Statements
-- ============================================================================

namespace Stmt

/-- An assignment wants an equals sign and a value. -/
theorem completes_readAssignment {pos : Position} {name : String} (hts : AllLegible ts) :
    (readAssignment pos name ts).Completes fun w => ∃ equals v e,
      w = equals :: v ∧ equals.kind = .symbol .equal ∧ IsExpr e v := by
  refine .andThen (.extend completes_takeKind [.identifier] ?_) (reads_takeKind nofun) ?_
  · rintro _ ⟨equals, rfl, hequals⟩
    obtain ⟨e, he⟩ := exists_derives_stub .comparison
    exact ⟨equals, _, e, rfl, hequals, he⟩
  · rintro equals _ rest _ hw ⟨rfl, hequals⟩
    refine .map (.imp (Expr.completes_read rest (hts.rest hw)) ?_)
    rintro v ⟨e, he⟩
    exact ⟨equals, v, e, rfl, hequals, he⟩

/-- A step wants a value if its keyword is there, and nothing otherwise. -/
theorem completes_readStep (hts : AllLegible ts) :
    (readStep ts).Completes fun w => ∃ step, IsStep step w := by
  unfold readStep
  split
  · trivial
  · next t us =>
    split
    · next hstep =>
      refine .cons (.map (.imp (Expr.completes_read us hts.tail) ?_))
      rintro w ⟨e, he⟩
      exact ⟨some e, .present hstep he⟩
    · trivial

/-- The head of a loop wants a variable, an equals sign, two bounds and a keyword between them. -/
theorem completes_readLoopHead (hts : AllLegible ts) :
    (readLoopHead ts).Completes fun w => ∃ head, IsLoopHead head w := by
  -- At each point the remaining words complete the head, with a name for each expression.
  obtain ⟨x, hx⟩ := exists_derives_stub .comparison
  refine .andThen (.extend completes_takeName
    [.symbol .equal, .identifier, .keyword .to_, .identifier] ?_) (reads_takeName nofun) ?_
  · rintro _ ⟨name, rfl, hname⟩
    exact ⟨_, .mk hname rfl hx rfl hx .absent⟩
  rintro _ _ rest _ hw ⟨name, rfl, hname, rfl⟩
  have hrest := hts.rest hw
  refine .andThen (.extend completes_takeKind [.identifier, .keyword .to_, .identifier] ?_)
    (reads_takeKind nofun) ?_
  · rintro _ ⟨equals, rfl, hequals⟩
    exact ⟨_, .mk hname hequals hx rfl hx .absent⟩
  rintro equals _ rest _ hw ⟨rfl, hequals⟩
  have hrest := hrest.rest hw
  refine .andThen (.extend (Expr.completes_read rest hrest) [.keyword .to_, .identifier] ?_)
    (Expr.reads_read rest hrest) ?_
  · rintro a ⟨start, hstart⟩
    exact ⟨_, .mk hname hequals hstart rfl hx .absent⟩
  intro start a rest _ hw hstart
  have hrest := hrest.rest hw
  refine .andThen (.extend completes_takeKind [.identifier] ?_) (reads_takeKind nofun) ?_
  · rintro _ ⟨to_, rfl, hto⟩
    have hhead := IsLoopHead.mk hname hequals hstart hto hx .absent
    exact ⟨_, by simpa using hhead⟩
  rintro to_ _ rest _ hw ⟨rfl, hto⟩
  have hrest := hrest.rest hw
  refine .andThen (.imp (Expr.completes_read rest hrest) ?_) (Expr.reads_read rest hrest) ?_
  · rintro b ⟨stop, hstop⟩
    have hhead := IsLoopHead.mk hname hequals hstart hto hstop .absent
    exact ⟨_, by simpa using hhead⟩
  intro stop b rest _ hw hstop
  refine .map (.imp (completes_readStep (hrest.rest hw)) ?_)
  rintro c ⟨step, hstep⟩
  have hhead := IsLoopHead.mk hname hequals hstart hto hstop hstep
  exact ⟨_, by simpa using hhead⟩

mutual

/-- Every statement that was begun can be completed, one case for each keyword. -/
theorem completes_read? (ts : List Token) {t : Token} {r : Reply Stmt ts} (h : read? t ts = some r)
    (hts : AllLegible ts) : r.Completes fun w => ∃ s, IsStmt s (t :: w) := by
  rw [read?.eq_def] at h
  split at h
  · next hkind =>
    cases h
    refine .map (.imp (Expr.completes_read ts hts) ?_)
    rintro w ⟨e, he⟩
    exact ⟨_, .print hkind he⟩
  · next hkind =>
    cases h
    refine .andThen (.extend completes_takeName [.symbol .equal, .identifier] ?_)
      (reads_takeName nofun) ?_
    · rintro _ ⟨name, rfl, hname⟩
      obtain ⟨e, he⟩ := exists_derives_stub .comparison
      exact ⟨_, .letAssign hkind hname rfl he⟩
    · rintro _ _ rest _ hw ⟨name, rfl, hname, rfl⟩
      refine .imp (completes_readAssignment (hts.rest hw)) ?_
      rintro _ ⟨equals, v, e, rfl, hequals, he⟩
      exact ⟨_, .letAssign hkind hname hequals he⟩
  · next hkind =>
    cases h
    refine .imp (completes_readAssignment hts) ?_
    rintro _ ⟨equals, v, e, rfl, hequals, he⟩
    exact ⟨_, .assign hkind hequals he⟩
  · next hkind =>
    cases h
    refine .andThen (.extend (Expr.completes_read ts hts) [.keyword .then_, .integer] ?_)
      (Expr.reads_read ts hts) ?_
    · rintro w ⟨e, he⟩
      exact ⟨_, .ifThen hkind he rfl isLineNumber_stub⟩
    intro e w rest _ hw he
    refine .andThen (.extend completes_takeKind [.integer] ?_) (reads_takeKind nofun) ?_
    · rintro _ ⟨then_, rfl, hthen⟩
      exact ⟨_, .ifThen hkind he hthen isLineNumber_stub⟩
    rintro then_ _ rest _ _ ⟨rfl, hthen⟩
    refine .map (.imp completes_takeLineNumber ?_)
    rintro _ ⟨target, n, rfl, hn⟩
    exact ⟨_, .ifThen hkind he hthen hn⟩
  · next hkind =>
    cases h
    refine .andThen (.extend (completes_readLoopHead hts) [.keyword .next] ?_)
      (reads_readLoopHead hts) ?_
    · rintro w ⟨head, hhead⟩
      exact ⟨_, .forNext hkind hhead .bodyEnd rfl⟩
    · intro head w rest _ hw hhead
      refine .map (.imp (completes_readBody rest (hts.rest hw)) ?_)
      rintro _ ⟨ss, v, next, rfl, hbody, hnext, -⟩
      exact ⟨_, .forNext hkind hhead hbody hnext⟩
  · next hkind =>
    cases h
    refine .map (.imp completes_takeLineNumber ?_)
    rintro _ ⟨target, n, rfl, hn⟩
    exact ⟨_, .goto hkind hn⟩
  · next hkind =>
    cases h
    refine .map (.imp completes_takeLineNumber ?_)
    rintro _ ⟨target, n, rfl, hn⟩
    exact ⟨_, .gosub hkind hn⟩
  · cases h
    trivial
  · next hkind =>
    cases h
    refine .map (.imp completes_takeName ?_)
    rintro _ ⟨name, rfl, hname⟩
    exact ⟨_, .input hkind hname⟩
  · cases h
    trivial
  · cases h
termination_by 2 * ts.length + 1
decreasing_by
  have := congrArg List.length hw
  simp only [List.length_append] at this
  omega

/-- The body that mends a fault starts as the tokens do, if it is not empty. -/
theorem completes_readBody (ts : List Token) (hts : AllLegible ts) :
    (readBody ts).Completes fun w => ∃ ss v next, w = v ++ [next] ∧ Forms (.body ss) v ∧
      next.kind = .keyword .next ∧ (v = [] ∨ v.head? = ts.head?) := by
  -- Where no statement is being read, the closing keyword completes the body.
  have hempty : ∃ ss v next, [Token.stub (.keyword .next)] = v ++ [next] ∧ Forms (.body ss) v ∧
      next.kind = .keyword .next ∧ (v = [] ∨ v.head? = ts.head?) :=
    ⟨[], [], _, rfl, .bodyEnd, rfl, .inl rfl⟩
  rw [readBody.eq_def]
  split
  · exact .here [.keyword .next] hempty
  · next t us =>
    split
    · next hnext =>
      refine .cons (.map ?_)
      unfold skipName
      split
      · trivial
      · split
        · trivial
        · trivial
    · exact .here [.keyword .next] hempty
    · exact .here [.keyword .next] hempty
    · next hcolon =>
      refine .cons (.imp (completes_readBody us hts.tail) ?_)
      rintro _ ⟨ss, v, next, rfl, hbody, hnext, -⟩
      exact ⟨ss, t :: v, next, rfl, .bodyColon hcolon hbody, hnext, .inr rfl⟩
    · split
      · next reply hreply =>
        refine .cons (.andThen (.extend (completes_read? us hreply hts.tail) [.keyword .next] ?_)
          (reads_read? us hreply hts.tail) ?_)
        · rintro w ⟨s, hs⟩
          have hbody := Forms.bodyStmt hs .bodyEnd nofun
          rw [List.append_nil] at hbody
          exact ⟨[s], t :: w, _, rfl, hbody, rfl, .inr rfl⟩
        · rintro s w rest _ hw ⟨hs, htaken⟩
          refine .map (.imp (completes_readBody rest (hts.tail.rest hw)) ?_)
          rintro _ ⟨ss, v, next, rfl, hbody, hnext, hhead⟩
          -- What follows begins like the text that was read, so a name in front of it is still
          -- taken.
          have htaken' : NameTaken (t :: w) v := by
            rcases hhead with rfl | hhead
            · exact nofun
            · rw [NameTaken, hhead]
              exact htaken
          exact ⟨s :: ss, t :: (w ++ v), next, by simp, .bodyStmt hs hbody htaken', hnext, .inr rfl⟩
      · exact .here [.keyword .next] hempty
termination_by 2 * ts.length
decreasing_by
  all_goals subst_vars
  all_goals simp only [List.length_cons, List.length_append]
  all_goals omega

end

end Stmt

-- ============================================================================
-- Lines
-- ============================================================================

/-- The statements of a line are completed by completing the one at which reading stopped. -/
theorem completes_readStmts (ts : List Token) (hts : AllLegible ts) :
    (readStmts ts).2.Completes fun w =>
      ∃ ss, IsItems ss w ∧ (w = [] ∨ w.head? = ts.head?) := by
  cases ts with
  | nil =>
    rw [readStmts]
    trivial
  | cons t us =>
    by_cases hcolon : t.kind = .symbol .colon
    · rw [readStmts_colon hcolon]
      refine .cons (.imp (completes_readStmts us hts.tail) ?_)
      rintro w ⟨ss, hitems, -⟩
      exact ⟨ss, .colon hcolon hitems, .inr rfl⟩
    by_cases hend : endsLine t.kind = true
    · rw [readStmts_end hcolon hend]
      trivial
    cases hread : Stmt.read? t us with
    | none =>
      rw [readStmts_none hcolon hend hread]
      exact .here [] ⟨[], .none, .inl rfl⟩
    | some reply =>
      rw [readStmts_some hcolon hend hread]
      -- The statement alone, with nothing behind it, is a list of statements.
      have hone : ∀ {s : Stmt} {w : List Token}, IsStmt s (t :: w) →
          ∃ ss, IsItems ss (t :: w) ∧ (t :: w = [] ∨ (t :: w).head? = (t :: us).head?) := by
        intro s w hs
        have hitems := IsItems.stmt hs .none (by simp)
        rw [List.append_nil] at hitems
        exact ⟨[s], hitems, .inr rfl⟩
      refine .cons (.andThen (.imp (Stmt.completes_read? us hread hts.tail) ?_)
        (Stmt.reads_read? us hread hts.tail) ?_)
      · rintro w ⟨s, hs⟩
        exact hone hs
      · rintro s w rest hsuffix hw ⟨hs, -⟩
        split
        · next hbehind =>
          refine .imp (completes_readStmts rest (hts.tail.rest hw)) ?_
          rintro v ⟨ss, hitems, hhead⟩
          exact ⟨s :: ss, .stmt hs hitems (hitems.apart hhead hbehind), .inr rfl⟩
        · refine .here [] ?_
          rw [List.map_nil, List.append_nil]
          exact hone hs
termination_by ts.length
decreasing_by
  all_goals subst_vars
  all_goals simp only [List.length_cons, List.length_append]
  all_goals omega

theorem headKind_eq (ts : List Token) : headKind ts = (ts.head?.map Token.kind).getD .eof := by
  cases ts with
  | nil => rfl
  | cons t us => rfl

/-- A number that is not there is missed at once. -/
theorem rest_of_fails_takeLineNumber {expected e : Expected} {rest : List Token}
    (h : (takeLineNumber expected ts).Fails e rest) : rest = ts := by
  obtain ⟨_, h⟩ := h
  cases ts with
  | nil =>
    cases h
    rfl
  | cons t us =>
    rw [takeLineNumber] at h
    split at h
    · split at h
      · cases h
      · cases h
        rfl
    · cases h
      rfl

/-- What becomes of lines that cannot be read and leave `rest`: the tokens in front of the fault
    are lines, once some more are put behind them.  These lines start as the tokens do, unless
    they start with the end of one. -/
def Mends (ts rest : List Token) : Prop :=
  ∃ front more ls, ts = front ++ rest ∧ AllLegible more ∧ IsLines ls (front ++ more) ∧
    (endsLine (headKind (front ++ more)) = true ∨ (front ++ more).head? = ts.head?)

/-- Lines that can be mended still can behind a line. -/
theorem Mends.line {t : Token} {n : Nat} {ss : List Stmt} {w us rest : List Token}
    (h : Mends us rest) (hn : IsLineNumber t n) (hitems : IsItems ss w)
    (hend : endsLine (headKind us) = true) : Mends (t :: (w ++ us)) rest := by
  obtain ⟨front, more, ls, hfront, hmore, hlines, hhead⟩ := h
  have hend' : endsLine (headKind (front ++ more)) = true := by
    rcases hhead with hhead | hhead
    · exact hhead
    · rw [headKind_eq, hhead, ← headKind_eq]
      exact hend
  have hcons := isLines_cons hn hitems hend' hlines
  rw [← List.append_assoc] at hcons
  refine ⟨t :: (w ++ front), more, _, ?_, hmore, hcons, .inr rfl⟩
  rw [hfront, List.cons_append, List.append_assoc]

/-- A line with a fault is mended by mending the fault and ending the text there. -/
theorem Mends.last {t : Token} {n : Nat} {us rest : List Token} {reply : Reply Unit us}
    {e : Expected} (hn : IsLineNumber t n) (hfails : reply.Fails e rest)
    (h : reply.Completes fun w => ∃ ss, IsItems ss w ∧ (w = [] ∨ w.head? = us.head?)) :
    Mends (t :: us) rest := by
  obtain ⟨_, rfl⟩ := hfails
  obtain ⟨front, more, hfront, hmore, ss, hitems, -⟩ := h
  have hline : IsLines [⟨n, ss, t.pos⟩] (t :: ((front ++ more) ++ [Token.stub .eof])) :=
    .lastLine hn hitems rfl
  rw [List.append_assoc] at hline
  exact ⟨t :: front, more ++ [Token.stub .eof], _, congrArg (t :: ·) hfront,
    hmore.append (allLegible_stubs [.eof]), hline, .inr rfl⟩

/-- Lines that cannot be read to the end can be mended behind the tokens that were read. -/
theorem mends_readLines (ts : List Token) (hts : AllLegible ts) {e : Expected}
    (herror : (readLines ts).outcome = .error e) : Mends ts (readLines ts).rest := by
  fun_induction readLines ts with
  | case1 => cases herror
  | case2 t us hnewline ih =>
    obtain ⟨front, more, ls, hfront, hmore, hlines, -⟩ := ih hts.tail herror
    exact ⟨t :: front, more, ls, congrArg (t :: ·) hfront, hmore, .newline hnewline hlines,
      .inr rfl⟩
  | case3 t us heof => cases herror
  | case4 t us expected rest hrest hnumber hnewline heof =>
    -- Instead of a line number the end of the text would do.
    obtain rfl := rest_of_fails_takeLineNumber ⟨hrest, hnumber⟩
    exact ⟨[], [Token.stub .eof], [], rfl, allLegible_stubs [.eof], .none rfl, .inl rfl⟩
  | case5 t us number _ _ hnumber ss expected rest hrest hread hnewline heof =>
    have hfails : (readStmts us).2.Fails expected rest := ⟨hrest, by rw [hread]⟩
    exact .last (hts.isLineNumber hnumber) hfails (completes_readStmts us hts.tail)
  | case6 t us number _ _ hnumber ss _ rest hrest hread later hnewline heof ih =>
    have hstmts := reads_readStmts us hts.tail
    rw [hread] at hstmts
    obtain ⟨w, hw, hitems, hend⟩ := hstmts
    rw [hw]
    cases hlater : later.outcome with
    | ok ls =>
      rw [hlater] at herror
      cases herror
    | error expected =>
      rw [hlater] at herror
      cases herror
      exact (ih (hts.tail.rest hw) hlater).line (hts.isLineNumber hnumber) hitems hend

-- ============================================================================
-- Programs
-- ============================================================================

/-- What is read as lines is closed by the end of the text. -/
theorem Grammar.IsLines.closed {ls : List Line} (h : IsLines ls ts) : Closed ts := by
  induction h with
  | none kind => exact .last kind
  | newline kind more ih => exact .cons (by simp [kind]) ih
  | line number items kind more ih =>
    exact .cons (by simp [number.kind]) (.append items.kind_ne_eof (.cons (by simp [kind]) ih))
  | lastLine number items kind =>
    exact .cons (by simp [number.kind]) (.append items.kind_ne_eof (.last kind))

namespace Program

/-- The fault `e` of the tokens `ts` is that of the token at `i`, and there is no earlier one to
    blame: what stands in front of the token can still be made a program, and what ends with it
    cannot. -/
structure EarliestFault (ts : List Token) (i : Nat) (e : ReadError) : Prop where
  token : ∃ t, ts[i]? = some t ∧ e.found = t.kind ∧ e.pos = t.pos
  viable : ∃ more p, ofTokens (ts.take i ++ more) = .ok p
  hopeless : ∀ more p, ofTokens (ts.take (i + 1) ++ more) ≠ .ok p

/-- The tokens of a text are not used up by a reading that fails: the end of the text is left. -/
theorem exists_cons_of_readLines_error (hlegible : AllLegible ts) (hclosed : Closed ts)
    {e : Expected} (herror : (readLines ts).outcome = .error e) :
    ∃ t us, (readLines ts).rest = t :: us := by
  obtain ⟨front, more, ls, hfront, hmore, hlines, -⟩ := mends_readLines ts hlegible herror
  cases hrest : (readLines ts).rest with
  | cons t us => exact ⟨t, us, rfl⟩
  | nil =>
    rw [hrest, List.append_nil] at hfront
    subst hfront
    obtain rfl := hclosed.eq_nil_of_append hlines.closed
    rw [List.append_nil] at hlines
    rw [hlines.readLines_eq hlegible] at herror
    cases herror

/-- A text that is no program is refused at the earliest token there is to blame, which is the
    one at the cursor. -/
theorem read_fails_earliest {source : String} {ts : List Token} {e : ReadError}
    (hts : tokenize source = .ok ts) (herror : (read (.of ts)).outcome = .error e) :
    ∃ i, (read (.of ts)).cursor.rest = ts.drop i ∧ EarliestFault ts i e := by
  have hscans := tokenize_eq_ok_iff.1 hts
  obtain ⟨hlines, hfault⟩ := of_read_error herror
  obtain ⟨t, x, hrest⟩ := exists_cons_of_readLines_error hscans.legible hscans.closed hlines
  obtain ⟨front, more, ls, hfront, hmore, hmended, -⟩ := mends_readLines ts hscans.legible hlines
  rw [hrest] at hfront
  have hcursor : (read (.of ts)).cursor.rest = t :: x := hrest
  have hpeek : (read (.of ts)).cursor.peek = t := by rw [Cursor.peek, hcursor]; rfl
  rw [Cursor.fault, hpeek] at hfault
  refine ⟨front.length, ?_, ?_, ?_, ?_⟩
  · rw [hcursor, hfront, List.drop_left]
  · refine ⟨t, ?_, by rw [hfault], by rw [hfault]⟩
    rw [hfront, List.getElem?_append_right (Nat.le_refl _), Nat.sub_self]
    rfl
  · have hlegible : AllLegible (front ++ more) := by
      refine AllLegible.append (fun u hu => hscans.legible u ?_) hmore
      rw [hfront]
      exact List.mem_append_left _ hu
    refine ⟨more, ⟨ls⟩, ?_⟩
    rw [hfront, List.take_left]
    exact IsProgram.ofTokens_eq hmended hlegible
  · intro more' p hp
    -- Any text that goes on with the faulty token fails there too: nothing behind it was read.
    have htake : ts.take (front.length + 1) ++ more' = front ++ t :: more' := by
      rw [hfront, List.take_append, List.take_of_length_le (Nat.le_succ _)]
      simp
    have habreast : Abreast t x more' ts (front ++ t :: more') := hfront ▸ .append front
    have hrest' : (readLines ts).rest = [] ++ t :: x := hrest
    have hfails := readLines_fails_alike ts _ habreast hlines hrest'
    rw [htake, ofTokens, read] at hp
    dsimp only [Cursor.of] at hp
    rw [hfails] at hp
    cases hp

/-- The tokens of a line with two names behind NEXT. -/
def twoNames : List Token :=
  [⟨.integer, "10", ⟨1, 1⟩⟩, ⟨.keyword .for_, "FOR", ⟨1, 4⟩⟩, ⟨.identifier, "I", ⟨1, 8⟩⟩,
    ⟨.symbol .equal, "=", ⟨1, 9⟩⟩, ⟨.integer, "1", ⟨1, 10⟩⟩, ⟨.keyword .to_, "TO", ⟨1, 12⟩⟩,
    ⟨.integer, "2", ⟨1, 15⟩⟩, ⟨.keyword .next, "NEXT", ⟨1, 17⟩⟩, ⟨.identifier, "J", ⟨1, 22⟩⟩,
    ⟨.identifier, "K", ⟨1, 24⟩⟩, ⟨.eof, "", ⟨1, 25⟩⟩]

/-- The second name is to blame: the first one belongs to NEXT, and the line could end there. -/
theorem read_fails_earliest_twoNames :
    tokenize "10 FOR I=1 TO 2 NEXT J K" = .ok twoNames ∧
      (read (.of twoNames)).outcome = .error ⟨.lineEnd, .identifier, ⟨1, 24⟩⟩ ∧
      ∃ i, (read (.of twoNames)).cursor.rest = twoNames.drop i ∧
        EarliestFault twoNames i ⟨.lineEnd, .identifier, ⟨1, 24⟩⟩ := by
  have htokens : tokenize "10 FOR I=1 TO 2 NEXT J K" = .ok twoNames := by decide +kernel
  have herror : (read (.of twoNames)).outcome = .error ⟨.lineEnd, .identifier, ⟨1, 24⟩⟩ := by
    decide +kernel
  exact ⟨htokens, herror, read_fails_earliest htokens herror⟩

end Program

end LineBasic
