/-
  LineBasic.Proofs.Derivation

  What is read follows the grammar.  `Reply.Reads` says what a reply is good for: a
  phrase that was read is made of the tokens in front of the rest, and a phrase that
  was not read did not fail for want of a numeral.  There is one rule for every way to
  put replies together, and one lemma for every reader.
-/

import LineBasic.Proofs.Grammar
import LineBasic.Proofs.Segments

namespace LineBasic

open Grammar

variable {α β : Type} {ts us : List Token}

-- ============================================================================
-- Replies
-- ============================================================================

/-- What a reply to `ts` is good for: what was read is made of the tokens in front of
    the rest, and what was not read did not lack a numeral. -/
def Reply.Reads (r : Reply α ts) (good : α → List Token → List Token → Prop) : Prop :=
  match r with
  | .ok a rest _ => ∃ w, ts = w ++ rest ∧ good a w rest
  | .error expected _ _ => expected ≠ .numericLiteral

namespace Reply.Reads

variable {r : Reply α ts} {good : α → List Token → List Token → Prop}

/-- Two readings in a row: what they read is what both have read, the second behind the first. -/
theorem andThen {f : α → (rest : List Token) → rest <:+ ts → Reply β rest}
    {good' : β → List Token → List Token → Prop} (hr : r.Reads good)
    (hf : ∀ a w rest h, ts = w ++ rest → good a w rest →
      (f a rest h).Reads fun b v rest' => good' b (w ++ v) rest') :
    (r.andThen f).Reads good' := by
  cases r with
  | error expected rest h => exact hr
  | ok a rest h =>
    obtain ⟨w, hw, hgood⟩ := hr
    have hnext := hf a w rest h hw hgood
    show ((f a rest h).widen h).Reads good'
    cases hreply : f a rest h with
    | error expected rest' h' =>
      rw [hreply] at hnext
      exact hnext
    | ok b rest' h' =>
      rw [hreply] at hnext
      obtain ⟨v, rfl, hgood'⟩ := hnext
      exact ⟨w ++ v, by rw [hw, List.append_assoc], hgood'⟩

theorem map {f : α → β} {good' : β → List Token → List Token → Prop}
    (hr : r.Reads fun a w rest => good' (f a) w rest) : (r.map f).Reads good' := by
  cases r with
  | error expected rest h => exact hr
  | ok a rest h => exact hr

theorem imp {good' : α → List Token → List Token → Prop} (hr : r.Reads good)
    (h : ∀ a w rest, good a w rest → good' a w rest) : r.Reads good' := by
  cases r with
  | error expected rest _ => exact hr
  | ok a rest _ =>
    obtain ⟨w, hw, hgood⟩ := hr
    exact ⟨w, hw, h a w rest hgood⟩

/-- The tokens in front of the rest are part of what is known. -/
theorem split (hr : r.Reads good) : r.Reads fun a w rest => ts = w ++ rest ∧ good a w rest := by
  cases r with
  | error expected rest _ => exact hr
  | ok a rest _ =>
    obtain ⟨w, hw, hgood⟩ := hr
    exact ⟨w, hw, hw, hgood⟩

/-- Tokens in front of what was read. -/
theorem front {v : List Token} {r : Reply α us} (h : us <:+ ts) (hts : ts = v ++ us)
    (hr : r.Reads fun a w rest => good a (v ++ w) rest) : (r.widen h).Reads good := by
  cases r with
  | error expected rest _ => exact hr
  | ok a rest _ =>
    obtain ⟨w, hw, hgood⟩ := hr
    exact ⟨v ++ w, by rw [hts, hw, List.append_assoc], hgood⟩

theorem cons {t : Token} {r : Reply α us} (hr : r.Reads fun a w rest => good a (t :: w) rest) :
    (r.widen (List.suffix_cons t us)).Reads good := front (v := [t]) _ rfl hr

/-- A phrase of no tokens. -/
theorem nothing {a : α} {h : ts <:+ ts} (hgood : good a [] ts) : (Reply.ok a ts h).Reads good :=
  ⟨[], rfl, hgood⟩

/-- A phrase of one token. -/
theorem one {a : α} {t : Token} {h : us <:+ t :: us} {good : α → List Token → List Token → Prop}
    (hgood : good a [t] us) : (Reply.ok a us h).Reads good :=
  ⟨[t], rfl, hgood⟩

end Reply.Reads

-- ============================================================================
-- Single tokens
-- ============================================================================

/-- A token of the kind that is asked for is taken alone. -/
theorem reads_takeKind {kind : TokenKind} {expected : Expected} (h : expected ≠ .numericLiteral) :
    (takeKind kind expected ts).Reads fun t w _ => w = [t] ∧ t.kind = kind := by
  cases ts with
  | nil => exact h
  | cons t us =>
    rw [takeKind]
    split
    · next hkind => exact .one ⟨rfl, hkind⟩
    · exact h

theorem reads_takeName {expected : Expected} (h : expected ≠ .numericLiteral) :
    (takeName expected ts).Reads fun name w _ =>
      ∃ t : Token, w = [t] ∧ t.kind = .identifier ∧ t.lexeme = name :=
  .map (.imp (reads_takeKind h) fun t _ _ ⟨hw, hkind⟩ => ⟨t, hw, hkind, rfl⟩)

/-- Tokens that carry numerals where numbers stand. -/
def AllLegible (ts : List Token) : Prop := ∀ t ∈ ts, t.Legible

theorem AllLegible.tail {t : Token} (h : AllLegible (t :: us)) : AllLegible us :=
  fun u hu => h u (List.mem_cons_of_mem _ hu)

theorem AllLegible.rest {w rest : List Token} (h : AllLegible ts) (hw : ts = w ++ rest) :
    AllLegible rest := fun t ht => h t (hw ▸ List.mem_append_right _ ht)

theorem AllLegible.append (h : AllLegible ts) (h' : AllLegible us) : AllLegible (ts ++ us) := by
  intro t ht
  rcases List.mem_append.1 ht with ht | ht
  · exact h t ht
  · exact h' t ht

/-- The digits of an integer are the line number they write. -/
theorem Token.Legible.isLineNumber {t : Token} {n : Nat} (h : t.Legible) (kind : t.kind = .integer)
    (hn : Numeral.lineNumber? t.lexeme = some n) : IsLineNumber t n := by
  cases h with
  | integer _ digits first =>
    obtain ⟨hvalue, hbound⟩ := (Numeral.lineNumber?_eq_some_iff digits first).1 hn
    exact ⟨kind, hvalue, hbound⟩
  | decimal kind' _ => rw [kind] at kind'; cases kind'
  | other kind' _ => exact absurd kind kind'

/-- A number that can be read writes a decimal. -/
theorem Token.Legible.exists_writes {t : Token} (h : t.Legible)
    (kind : t.kind = .integer ∨ t.kind = .decimal) : ∃ d, Numeral.Writes t.lexeme.toList d := by
  cases h with
  | integer _ digits first => exact ⟨_, .whole digits first⟩
  | decimal _ writes => exact writes
  | other kind' kind'' => exact absurd kind (not_or.2 ⟨kind', kind''⟩)

/-- A line number is one integer, written small enough. -/
theorem reads_takeLineNumber {expected : Expected} (h : expected ≠ .numericLiteral)
    (hts : AllLegible ts) :
    (takeLineNumber expected ts).Reads fun n w _ => ∃ t, w = [t] ∧ IsLineNumber t n := by
  cases ts with
  | nil => exact h
  | cons t us =>
    rw [takeLineNumber]
    split
    · next hkind =>
      split
      · next n hn =>
        exact .one ⟨t, rfl, (hts t (List.mem_cons_self ..)).isLineNumber hkind hn⟩
      · exact h
    · exact h

theorem AllLegible.isLineNumber {t : Token} {n : Nat} {rest : List Token} {h : rest <:+ t :: us}
    (hts : AllLegible (t :: us)) (hn : takeLineNumber .lineNumber (t :: us) = .ok n rest h) :
    IsLineNumber t n := by
  have htake : (takeLineNumber .lineNumber (t :: us)).Reads _ := reads_takeLineNumber nofun hts
  rw [hn] at htake
  obtain ⟨_, ht, u, rfl, hnumber⟩ := htake
  obtain rfl := (List.cons.inj ht).1
  exact hnumber

-- ============================================================================
-- Chains and signs
-- ============================================================================

namespace Grammar.Grade

/-- The operator of a grade that a token writes. -/
def op? : Grade → TokenKind → Option BinaryOp
  | comparison => Expr.comparison?
  | sum => Expr.additive?
  | product => Expr.multiplicative?
  | signed => fun _ => none
  | operand => fun _ => none

/-- The operators of a grade are read off their symbols. -/
theorem op?_eq_some_iff {g : Grade} {k : TokenKind} {op : BinaryOp} :
    g.op? k = some op ↔ g.Has op ∧ k = .symbol op.symbol := by
  constructor
  · intro h
    cases k with
    | symbol s =>
      cases g <;> cases s <;> cases h <;> simp [Has, BinaryOp.symbol]
    | _ => cases g <;> cases h
  · rintro ⟨hop, rfl⟩
    cases op with
    | arith op =>
      cases g <;> cases op <;>
        simp_all [Has, BinaryOp.symbol, op?, Expr.additive?, Expr.multiplicative?]
    | compare rel => cases g <;> cases rel <;> cases hop <;> rfl

end Grammar.Grade

namespace Expr

theorem sign?_eq_some_iff {k : TokenKind} {s : Sign} : sign? k = some s ↔ k = .symbol s.symbol := by
  constructor
  · intro h
    cases k with
    | symbol m => cases m <;> cases h <;> rfl
    | _ => cases h
  · rintro rfl
    cases s <;> rfl

/-- A level reads the expressions of a grade. -/
def Level.Sound (level : Level ts) (g : Grade) : Prop :=
  ∀ us hu, AllLegible us → (level us hu).Reads fun e w _ => Derives (.expr g e) w

/-- Operators of one grade group to the left, by induction on what is left to read. -/
theorem reads_chainRest {g : Grade} {lhs : Expr} {level : Level ts} {w : List Token}
    (hlevel : level.Sound g.below) (hlhs : Derives (.expr g lhs) w) (hts : AllLegible ts) :
    (chainRest g.op? lhs ts level).Reads fun e v _ => Derives (.expr g e) (w ++ v) := by
  fun_induction chainRest g.op? lhs ts level generalizing w with
  | case1 lhs level => exact .nothing (by simpa using hlhs)
  | case2 lhs t us hop level => exact .nothing (by simpa using hlhs)
  | case3 lhs t us op hop level ih =>
    obtain ⟨has, mark⟩ := Grade.op?_eq_some_iff.1 hop
    refine .cons (.andThen (hlevel us _ hts.tail) fun rhs v rest h hv hrhs => ?_)
    refine .imp (ih rhs rest h (fun vs hvs => hlevel vs _) (.chain has mark hlhs hrhs)
      (hts.tail.rest hv)) fun e v' _ he => ?_
    simpa using he

theorem reads_chain {g : Grade} {level : Level ts} (hlevel : level.Sound g.below)
    (hts : AllLegible ts) :
    (chain g.op? ts level).Reads fun e w _ => Derives (.expr g e) w := by
  refine .andThen (hlevel ts _ hts) fun lhs w rest h hw hlhs => ?_
  exact reads_chainRest (fun us hu => hlevel us _) (.tighter hlhs) (hts.rest hw)

/-- Signs group to the right, in front of one operand. -/
theorem reads_signed {level : Level ts} (hlevel : level.Sound .operand) (hts : AllLegible ts) :
    (signed ts level).Reads fun e w _ => Derives (.expr .signed e) w := by
  fun_induction signed ts level with
  | case1 level => exact .imp (hlevel [] _ hts) fun _ _ _ he => .tighter he
  | case2 t us s hs level ih =>
    refine .cons (.map (.imp (ih (fun vs hv => hlevel vs _) hts.tail) fun e w _ he => ?_))
    exact .sign (sign?_eq_some_iff.1 hs) he
  | case3 t us hs level => exact .imp (hlevel (t :: us) _ hts) fun _ _ _ he => .tighter he

-- ============================================================================
-- Operands
-- ============================================================================

/-- Arguments have commas between them and a parenthesis behind the last. -/
theorem reads_arguments {level : Level ts} (hlevel : level.Sound .comparison)
    (hts : AllLegible ts) :
    (arguments ts level).Reads fun es w _ =>
      ∃ v r, w = v ++ [r] ∧ r.kind = .symbol .rightParen ∧ Derives (.arguments es) v := by
  fun_induction arguments ts level with
  | case1 ts level ih =>
    refine .andThen (hlevel ts _ hts) fun arg w rest h hw harg => ?_
    cases rest with
    | nil => exact nofun
    | cons t us =>
      have htail := (hts.rest hw).tail
      dsimp only
      split
      · next hcomma =>
        refine .cons (.map (.imp (ih t us h (fun vs hv => hlevel vs _) htail) ?_))
        rintro es _ _ ⟨v, r, rfl, hr, hes⟩
        exact ⟨w ++ t :: v, r, by simp, hr, .arguments harg hcomma hes⟩
      · refine .map (.imp (reads_takeKind nofun) ?_)
        rintro r _ _ ⟨rfl, hr⟩
        exact ⟨w, r, rfl, hr, .argument harg⟩

/-- Behind the parenthesis of a call are arguments or nothing, and the closing one. -/
theorem reads_callRest {level : Level ts} (hlevel : level.Sound .comparison)
    (hts : AllLegible ts) :
    (callRest ts level).Reads fun es w _ => ∃ v r, w = v ++ [r] ∧ r.kind = .symbol .rightParen ∧
      (v = [] ∧ es = [] ∨ Derives (.arguments es) v) := by
  unfold callRest
  split
  · refine .imp (reads_arguments hlevel hts) ?_
    rintro es _ _ ⟨v, r, rfl, hr, hes⟩
    exact ⟨v, r, rfl, hr, .inr hes⟩
  · next t us level =>
    split
    · next hright => exact .one ⟨[], t, rfl, hright, .inl ⟨rfl, rfl⟩⟩
    · refine .imp (reads_arguments hlevel hts) ?_
      rintro es _ _ ⟨v, r, rfl, hr, hes⟩
      exact ⟨v, r, rfl, hr, .inr hes⟩

/-- A name with a parenthesis behind it is a call, and a variable otherwise. -/
theorem reads_named {t : Token} {level : Level ts} (hname : t.kind = .identifier)
    (hlevel : level.Sound .comparison) (hts : AllLegible ts) :
    (named t ts level).Reads fun e w _ => Derives (.expr .operand e) (t :: w) := by
  unfold named
  split
  · exact .nothing (.var hname)
  · next u us level =>
    split
    · next hleft =>
      refine .cons (.map (.imp (reads_callRest (fun vs hv => hlevel vs _) hts.tail) ?_))
      rintro es _ _ ⟨v, r, rfl, hr, ⟨rfl, rfl⟩ | hes⟩
      · exact .callEmpty hname hleft hr
      · exact .call hname hleft hes hr
    · exact .nothing (.var hname)

/-- A number token is never refused. -/
theorem reads_numeral {t : Token} (ht : t.Legible) (kind : t.kind = .integer ∨ t.kind = .decimal) :
    (match Numeral.double? t.lexeme with
      | some x => .ok (.number t.pos x) us (List.suffix_cons t us)
      | none => .error .numericLiteral (t :: us) (List.suffix_refl _) : Reply Expr (t :: us)).Reads
      fun e w _ => Derives (.expr .operand e) w := by
  obtain ⟨d, hd⟩ := ht.exists_writes kind
  rw [hd.double?]
  exact .one (.number kind ⟨d, hd, rfl⟩)

/-- An operand is a literal, a name, a call or an expression in parentheses. -/
theorem reads_operand {inner : (us : List Token) → us.length < ts.length → Reply Expr us}
    (hinner : ∀ us hu, AllLegible us → (inner us hu).Reads fun e w _ => IsExpr e w)
    (hts : AllLegible ts) :
    (operand ts inner).Reads fun e w _ => Derives (.expr .operand e) w := by
  unfold operand
  split
  · exact nofun
  · next t us inner =>
    have ht : t.Legible := hts t (List.mem_cons_self ..)
    split
    · next hkind => exact reads_numeral ht (.inl hkind)
    · next hkind => exact reads_numeral ht (.inr hkind)
    · next hkind => exact .one (.text hkind)
    · next hkind => exact .cons (reads_named hkind (fun vs hv => hinner vs _) hts.tail)
    · next hleft =>
      refine .cons (.andThen (hinner us _ hts.tail) fun e w rest _ _ he => .map ?_)
      refine .imp (reads_takeKind nofun) ?_
      rintro r _ _ ⟨rfl, hr⟩
      exact .parens hleft he hr
    · exact nofun

-- ============================================================================
-- Expressions
-- ============================================================================

/-- Expressions are read as the grammar derives them, by induction on the tokens. -/
theorem reads_read (ts : List Token) (hts : AllLegible ts) :
    (read ts).Reads fun e w _ => IsExpr e w := by
  rw [read]
  refine reads_chain (g := .comparison) (fun us _ hus => ?_) hts
  refine reads_chain (g := .sum) (fun vs _ hvs => ?_) hus
  refine reads_chain (g := .product) (fun ws _ hws => ?_) hvs
  refine reads_signed (fun xs _ hxs => ?_) hws
  exact reads_operand (fun ys _ hys => reads_read ys hys) hxs
termination_by ts.length
decreasing_by omega

end Expr

-- ============================================================================
-- Statements
-- ============================================================================

namespace Stmt

/-- The tokens that end a loop in front of `rest`. -/
inductive Ending : List Token → List Token → Prop
  | bare {next : Token} {rest : List Token} (word : next.kind = .keyword .next)
      (behind : rest.head?.map Token.kind ≠ some .identifier) : Ending [next] rest
  | named {next name : Token} {rest : List Token} (word : next.kind = .keyword .next)
      (variable_ : name.kind = .identifier) : Ending [next, name] rest

theorem reads_readAssignment {pos : Position} {name : String} (hts : AllLegible ts) :
    (readAssignment pos name ts).Reads fun s w _ =>
      ∃ t v e, w = t :: v ∧ t.kind = .symbol .equal ∧ IsExpr e v ∧ s = .assign pos name e := by
  refine .andThen (reads_takeKind nofun) ?_
  rintro t _ rest _ hw ⟨rfl, ht⟩
  refine .map (.imp (Expr.reads_read rest (hts.rest hw)) fun e v _ he => ?_)
  exact ⟨t, v, e, rfl, ht, he, rfl⟩

/-- A step is a keyword and an expression, or nothing. -/
theorem reads_readStep (hts : AllLegible ts) :
    (readStep ts).Reads fun step w _ => IsStep step w := by
  unfold readStep
  split
  · exact .nothing .absent
  · next t us =>
    split
    · next hstep =>
      exact .cons (.map (.imp (Expr.reads_read us hts.tail) fun _ _ _ he => .present hstep he))
    · exact .nothing .absent

/-- The head of a loop: a variable, an equals sign, two bounds and perhaps a step. -/
theorem reads_readLoopHead (hts : AllLegible ts) :
    (readLoopHead ts).Reads fun head w _ => IsLoopHead head w := by
  refine .andThen (reads_takeName nofun) ?_
  rintro _ _ rest _ hw ⟨name, rfl, hname, rfl⟩
  have hrest := hts.rest hw
  refine .andThen (reads_takeKind nofun) ?_
  rintro equals _ rest _ hw ⟨rfl, hequals⟩
  have hrest := hrest.rest hw
  refine .andThen (Expr.reads_read rest hrest) fun start a rest _ hw hstart => ?_
  have hrest := hrest.rest hw
  refine .andThen (reads_takeKind nofun) ?_
  rintro to_ _ rest _ hw ⟨rfl, hto⟩
  have hrest := hrest.rest hw
  refine .andThen (Expr.reads_read rest hrest) fun stop b rest _ hw hstop => ?_
  refine .map (.imp (reads_readStep (hrest.rest hw)) fun step c _ hstep => ?_)
  have hhead := IsLoopHead.mk hname hequals hstart hto hstop hstep
  simpa using hhead

/-- A variable behind the end of a loop is passed over if it is there. -/
theorem reads_skipName {t : Token} (h : t.kind = .keyword .next) :
    (skipName ts).Reads fun _ w rest => Ending (t :: w) rest := by
  unfold skipName
  split
  · exact .nothing (.bare h (by decide))
  · next u us =>
    split
    · next hname => exact .one (.named h hname)
    · next hname => exact .nothing (.bare h (by simpa using hname))

mutual

/-- Statements are read as the grammar forms them, one case for each token that can start one. -/
theorem reads_read? (ts : List Token) {t : Token} {r : Reply Stmt ts} (h : read? t ts = some r)
    (hts : AllLegible ts) :
    r.Reads fun s w rest => IsStmt s (t :: w) ∧ NameTaken (t :: w) rest := by
  rw [read?.eq_def] at h
  split at h
  · next hkind =>
    cases h
    refine .map (.imp (Expr.reads_read ts hts) fun e w _ he => ?_)
    exact ⟨.print hkind he, nameTaken_of_isExpr (u := [t]) he⟩
  · next hkind =>
    cases h
    refine .andThen (reads_takeName nofun) ?_
    rintro _ _ rest _ hw ⟨name, rfl, hname, rfl⟩
    refine .imp (reads_readAssignment (hts.rest hw)) ?_
    rintro _ _ _ ⟨equals, v, e, rfl, hequals, he, rfl⟩
    exact ⟨.letAssign hkind hname hequals he, nameTaken_of_isExpr (u := [t, name, equals]) he⟩
  · next hkind =>
    cases h
    refine .imp (reads_readAssignment hts) ?_
    rintro _ _ _ ⟨equals, v, e, rfl, hequals, he, rfl⟩
    exact ⟨.assign hkind hequals he, nameTaken_of_isExpr (u := [t, equals]) he⟩
  · next hkind =>
    cases h
    refine .andThen (Expr.reads_read ts hts) fun e w rest _ hw he => ?_
    have hrest := hts.rest hw
    refine .andThen (reads_takeKind nofun) ?_
    rintro then_ _ rest _ hw ⟨rfl, hthen⟩
    refine .map (.imp (reads_takeLineNumber nofun (hrest.rest hw)) ?_)
    rintro n _ _ ⟨target, rfl, hn⟩
    exact ⟨.ifThen hkind he hthen hn, nameTaken_of_last (t := target)
      (by simp [List.getLast?_cons, List.getLast?_append]) (by simp [hn.kind])⟩
  · next hkind =>
    cases h
    refine .andThen (reads_readLoopHead hts) fun head w rest _ hw hhead => ?_
    refine .map (.imp (reads_readBody rest (hts.rest hw)) ?_)
    rintro ss _ rest' ⟨v, e, rfl, hbody, hending⟩
    -- A closing keyword takes the name behind it, so behind a bare one there is none.
    cases hending with
    | bare hnext hbehind => exact ⟨.forNext hkind hhead hbody hnext, fun _ => hbehind⟩
    | @named next name _ hnext hname =>
      exact ⟨.forNextName hkind hhead hbody hnext hname, nameTaken_of_last (t := name)
        (by simp [List.getLast?_cons, List.getLast?_append]) (by simp [hname])⟩
  · next hkind =>
    cases h
    refine .map (.imp (reads_takeLineNumber nofun hts) ?_)
    rintro n _ _ ⟨target, rfl, hn⟩
    exact ⟨.goto hkind hn, nameTaken_of_last rfl (by simp [hn.kind])⟩
  · next hkind =>
    cases h
    refine .map (.imp (reads_takeLineNumber nofun hts) ?_)
    rintro n _ _ ⟨target, rfl, hn⟩
    exact ⟨.gosub hkind hn, nameTaken_of_last rfl (by simp [hn.kind])⟩
  · next hkind =>
    cases h
    exact .nothing ⟨.return_ hkind, nameTaken_of_last rfl (by simp [hkind])⟩
  · next hkind =>
    cases h
    refine .map (.imp (reads_takeName nofun) ?_)
    rintro _ _ _ ⟨name, rfl, hname, rfl⟩
    exact ⟨.input hkind hname, nameTaken_of_last rfl (by simp [hname])⟩
  · next hkind =>
    cases h
    exact .nothing ⟨.end_ hkind, nameTaken_of_last rfl (by simp [hkind])⟩
  · cases h
termination_by 2 * ts.length + 1
decreasing_by
  have := congrArg List.length hw
  simp only [List.length_append] at this
  omega

/-- The body of a loop is read up to the keyword that ends it, by induction on the tokens. -/
theorem reads_readBody (ts : List Token) (hts : AllLegible ts) :
    (readBody ts).Reads fun ss w rest =>
      ∃ v e, w = v ++ e ∧ Forms (.body ss) v ∧ Ending e rest := by
  rw [readBody.eq_def]
  split
  · exact nofun
  · next t us =>
    split
    · next hnext =>
      refine .cons (.map (.imp (reads_skipName hnext) fun _ w _ hending => ?_))
      exact ⟨[], t :: w, rfl, .bodyEnd, hending⟩
    · exact nofun
    · exact nofun
    · next hcolon =>
      refine .cons (.imp (reads_readBody us hts.tail) ?_)
      rintro ss _ _ ⟨v, e, rfl, hbody, hending⟩
      exact ⟨t :: v, e, rfl, .bodyColon hcolon hbody, hending⟩
    · split
      · next reply hreply =>
        refine .cons (.andThen (reads_read? us hreply hts.tail) ?_)
        rintro s w rest _ hw ⟨hs, htaken⟩
        refine .map (.imp (reads_readBody rest (hts.tail.rest hw)).split ?_)
        rintro ss _ rest' ⟨hrest, v, e, rfl, hbody, hending⟩
        -- The name rule holds in front of all that is read later, so also in front of the body.
        rw [hrest, List.append_assoc] at htaken
        exact ⟨t :: (w ++ v), e, by simp, .bodyStmt hs hbody htaken.of_append, hending⟩
      · exact nofun
termination_by 2 * ts.length
decreasing_by
  all_goals subst_vars
  all_goals simp only [List.length_cons, List.length_append]
  all_goals omega

end

end Stmt

-- ============================================================================
-- Lines and programs
-- ============================================================================

/-- The statements of a line are read up to the end of the line, and none is left out. -/
theorem reads_readStmts (ts : List Token) (hts : AllLegible ts) :
    (readStmts ts).2.Reads fun _ w rest =>
      IsItems (readStmts ts).1 w ∧ endsLine (headKind rest) = true := by
  fun_induction readStmts ts with
  | case1 => exact .nothing ⟨.none, rfl⟩
  | case2 t us hcolon ss reply hread ih =>
    rw [hread] at ih
    refine .cons (.imp (ih hts.tail) ?_)
    rintro _ w _ ⟨hitems, hend⟩
    exact ⟨.colon hcolon hitems, hend⟩
  | case3 t us hcolon hend => exact .nothing ⟨.none, hend⟩
  | case4 => exact nofun
  | case5 t us hcolon hend expected rest h hread =>
    exact Stmt.reads_read? us hread hts.tail
  | case6 t us hcolon hend s rest h hread hbehind ss reply hmore ih =>
    obtain ⟨w, hw, hs, -⟩ := Stmt.reads_read? us hread hts.tail
    rw [hmore] at ih
    refine .front (v := t :: w) (h.trans (List.suffix_cons t us)) (by rw [hw]; rfl) ?_
    refine .imp (ih (hts.tail.rest hw)).split ?_
    rintro _ v _ ⟨hrest, hitems, hends⟩
    -- `IsItems.apart` asks for the first token of what follows, which `hbehind` speaks of.
    have hhead : v = [] ∨ v.head? = rest.head? := by
      cases v with
      | nil => exact .inl rfl
      | cons u v =>
        rw [hrest]
        exact .inr rfl
    exact ⟨.stmt hs hitems (hitems.apart hhead hbehind), hends⟩
  | case7 => exact nofun

/-- What reading lines off a whole text is good for. -/
def LinesRead.Sound (r : LinesRead) (ts : List Token) : Prop :=
  match r.outcome with
  | .ok ls => IsLines ls ts
  | .error expected => expected ≠ .numericLiteral

/-- A line and the lines behind it. -/
theorem isLines_cons {t : Token} {n : Nat} {ss : List Stmt} {ls : List Line} {w rest : List Token}
    (hn : IsLineNumber t n) (hitems : IsItems ss w) (hend : endsLine (headKind rest) = true)
    (hlines : IsLines ls rest) : IsLines (⟨n, ss, t.pos⟩ :: ls) (t :: (w ++ rest)) := by
  cases rest with
  | nil => cases hlines
  | cons u rest =>
    have hkind : u.kind = .newline ∨ u.kind = .eof := by
      unfold headKind endsLine at hend
      grind
    rcases hkind with hkind | hkind
    · exact .line hn hitems hkind (hlines.of_newline hkind)
    · obtain ⟨rfl, rfl⟩ := hlines.of_eof hkind
      exact .lastLine hn hitems hkind

/-- Lines are read as the grammar forms them, by induction on the tokens: each is a number and
    statements, and reading stops at the end of the text or at a fault. -/
theorem sound_readLines (ts : List Token) (hts : AllLegible ts) (hclosed : Closed ts) :
    (readLines ts).Sound ts := by
  fun_induction readLines ts with
  | case1 => cases hclosed
  | case2 t us hnewline ih =>
    have hlater := ih hts.tail (hclosed.tail (by simp [hnewline]))
    unfold LinesRead.Sound at hlater ⊢
    split
    · next hok =>
      rw [hok] at hlater
      exact .newline hnewline hlater
    · next herror =>
      rw [herror] at hlater
      exact hlater
  | case3 t us heof =>
    obtain rfl := hclosed.eq_nil heof
    exact .none heof
  | case4 t us expected rest h hnumber hnewline heof =>
    have htake : (takeLineNumber .lineNumber (t :: us)).Reads _ := reads_takeLineNumber nofun hts
    rw [hnumber] at htake
    exact htake
  | case5 t us number _ _ hnumber ss expected rest h hread hnewline heof =>
    have hstmts := reads_readStmts us hts.tail
    rw [hread] at hstmts
    exact hstmts
  | case6 t us number _ _ hnumber ss _ rest h hread later hnewline heof ih =>
    have hn := hts.isLineNumber hnumber
    have hstmts := reads_readStmts us hts.tail
    rw [hread] at hstmts
    obtain ⟨w, hw, hitems, hend⟩ := hstmts
    -- The end of the text is behind the statements, as none of them contains it.
    have hclosed' : Closed (w ++ rest) := hw ▸ hclosed.tail (by simp [hn.kind])
    have hlater := ih (hts.tail.rest hw) (hclosed'.rest hitems.kind_ne_eof)
    unfold LinesRead.Sound at hlater ⊢
    cases houtcome : later.outcome with
    | error expected =>
      rw [houtcome] at hlater
      exact hlater
    | ok ls =>
      rw [houtcome] at hlater
      rw [hw]
      exact isLines_cons hn hitems hend hlater

/-- What the tokens of a text are read as follows the grammar, and no number among them is
    refused. -/
theorem ofTokens_sound {tokens : List Token} (hts : AllLegible tokens) (hclosed : Closed tokens) :
    match Program.ofTokens tokens with
    | .ok p => IsProgram p tokens
    | .error e => e.expected ≠ .numericLiteral := by
  have hsound := sound_readLines tokens hts hclosed
  unfold LinesRead.Sound at hsound
  unfold Program.ofTokens Program.read
  dsimp only [Cursor.of]
  cases houtcome : (readLines tokens).outcome with
  | error expected =>
    rw [houtcome] at hsound
    exact hsound
  | ok ls =>
    rw [houtcome] at hsound
    exact hsound

end LineBasic
