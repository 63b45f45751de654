/-
  LineBasic.Proofs.Lookahead

  How far reading looks ahead.  A reader that stops at a token, because it is done or
  because it fails, has seen that token and nothing behind it: put other tokens behind,
  and it stops at the same place, for the same reason, with the same result.  There is
  one rule for every way to put replies together, and one lemma for every reader.
-/

import LineBasic.Proofs.ExactReading
import LineBasic.Proofs.Resumption

namespace LineBasic

variable {α β : Type} {t : Token} {x y us vs : List Token}

-- ============================================================================
-- Lists side by side
-- ============================================================================

/-- Behind the token `t` the list `vs` has `y` where `us` has `x`.  Nothing is said of a
    list that does not reach back to `t` any more. -/
def Abreast (t : Token) (x y us vs : List Token) : Prop :=
  ∀ front, us = front ++ t :: x → vs = front ++ t :: y

namespace Abreast

theorem append (front : List Token) : Abreast t x y (front ++ t :: x) (front ++ t :: y) := by
  intro front' h
  rw [List.append_cancel_right h]

/-- The tokens behind `t` do not reach back to it. -/
theorem behind : Abreast t x y x vs := by
  intro front h
  have hlength := congrArg List.length h
  simp only [List.length_append, List.length_cons] at hlength
  omega

/-- Lists that reach back to `t` start with the same token. -/
theorem exists_cons (h : Abreast t x y us vs) (hreach : ∃ front, us = front ++ t :: x) :
    ∃ u us' vs', us = u :: us' ∧ vs = u :: vs' ∧ Abreast t x y us' vs' := by
  obtain ⟨front, hfront⟩ := hreach
  cases front with
  | nil => exact ⟨t, x, y, hfront, h [] hfront, .behind⟩
  | cons u front => exact ⟨u, _, _, hfront, h (u :: front) hfront, .append front⟩

end Abreast

-- ============================================================================
-- Replies
-- ============================================================================

/-- A reply that failed for want of `expected` and left `rest`. -/
def Reply.Fails (r : Reply α us) (expected : Expected) (rest : List Token) : Prop :=
  ∃ h, r = .error expected rest h

/-- The reply `r'` is as `r`, with `y` in place of `x` behind the token `t`, if `r` has not
    got past `t`. -/
def Reply.Follows (t : Token) (x y : List Token) (r : Reply α us) (r' : Reply α vs) : Prop :=
  match r with
  | .ok a rest _ => ∀ front, rest = front ++ t :: x → r'.Yields a (front ++ t :: y)
  | .error e rest _ => ∀ front, rest = front ++ t :: x → r'.Fails e (front ++ t :: y)

namespace Reply.Follows

theorem ok {a : α} {rest rest' : List Token} {h : rest <:+ us} {h' : rest' <:+ vs}
    (hrest : Abreast t x y rest rest') :
    (Reply.ok a rest h).Follows t x y (Reply.ok a rest' h') := by
  intro front hfront
  obtain rfl := hrest front hfront
  exact .ok

theorem error {e : Expected} {rest rest' : List Token} {h : rest <:+ us} {h' : rest' <:+ vs}
    (hrest : Abreast t x y rest rest') :
    (Reply.error e rest h : Reply α us).Follows t x y (Reply.error e rest' h' : Reply α vs) := by
  intro front hfront
  obtain rfl := hrest front hfront
  exact ⟨h', rfl⟩

theorem map {r : Reply α us} {r' : Reply α vs} {f : α → β} (h : r.Follows t x y r') :
    (r.map f).Follows t x y (r'.map f) := by
  cases r with
  | ok a rest _ => exact fun front hfront => (h front hfront).map
  | error e rest _ =>
    intro front hfront
    obtain ⟨h', rfl⟩ := h front hfront
    exact ⟨h', rfl⟩

theorem widen {us' vs' : List Token} {r : Reply α us} {r' : Reply α vs} {hu : us <:+ us'}
    {hv : vs <:+ vs'} (h : r.Follows t x y r') : (r.widen hu).Follows t x y (r'.widen hv) := by
  cases r with
  | ok a rest _ => exact fun front hfront => (h front hfront).widen
  | error e rest _ =>
    intro front hfront
    obtain ⟨h', rfl⟩ := h front hfront
    exact ⟨h'.trans hv, rfl⟩

/-- A reply to tokens that do not reach back to `t` is past `t`. -/
theorem of_past {r : Reply α us} {r' : Reply α vs} (h : ∀ front, us ≠ front ++ t :: x) :
    r.Follows t x y r' := by
  have hpast : ∀ rest, rest <:+ us → ∀ front, rest ≠ front ++ t :: x := by
    rintro _ ⟨skipped, rfl⟩ front rfl
    exact h (skipped ++ front) (List.append_assoc ..).symm
  cases r with
  | ok a rest hrest => exact fun front hfront => absurd hfront (hpast rest hrest front)
  | error e rest hrest => exact fun front hfront => absurd hfront (hpast rest hrest front)

/-- Readings in a row follow each other if each of them does. -/
theorem andThen {r : Reply α us} {r' : Reply α vs}
    {f : α → (rest : List Token) → rest <:+ us → Reply β rest}
    {f' : α → (rest : List Token) → rest <:+ vs → Reply β rest} (h : r.Follows t x y r')
    (hf : ∀ a rest rest' hrest hrest', Abreast t x y rest rest' →
      (f a rest hrest).Follows t x y (f' a rest' hrest')) :
    (r.andThen f).Follows t x y (r'.andThen f') := by
  cases r with
  | error e rest _ =>
    intro front hfront
    obtain ⟨h', rfl⟩ := h front hfront
    exact ⟨h', rfl⟩
  | ok a rest hrest =>
    by_cases hreach : ∃ front, rest = front ++ t :: x
    · obtain ⟨front, rfl⟩ := hreach
      obtain ⟨hrest', rfl⟩ := h front rfl
      show ((f a _ hrest).widen hrest).Follows t x y ((f' a _ hrest').widen hrest')
      exact .widen (hf a _ _ hrest hrest' (.append front))
    · have hpast : (f a rest hrest).Follows t x y (r'.andThen f') :=
        .of_past (not_exists.1 hreach)
      show ((f a rest hrest).widen hrest).Follows t x y (r'.andThen f')
      cases hreply : f a rest hrest with
      | ok b rest' h' => rw [hreply] at hpast; exact hpast
      | error e rest' h' => rw [hreply] at hpast; exact hpast

end Reply.Follows

/-- Replies to lists side by side are looked at token by token: either the reading is past
    `t`, or the lists start with the same token. -/
theorem Abreast.follows {r : Reply α us} {r' : Reply α vs} (h : Abreast t x y us vs)
    (hcons : ∀ u us' vs', us = u :: us' → vs = u :: vs' → Abreast t x y us' vs' →
      r.Follows t x y r') : r.Follows t x y r' := by
  by_cases hreach : ∃ front, us = front ++ t :: x
  · obtain ⟨u, us', vs', hus, hvs, htail⟩ := h.exists_cons hreach
    exact hcons u us' vs' hus hvs htail
  · exact .of_past (not_exists.1 hreach)

-- ============================================================================
-- Single tokens
-- ============================================================================

/-- A token is taken from both or from neither: both have the same one in front. -/
theorem follows_takeKind (h : Abreast t x y us vs) (kind : TokenKind) (expected : Expected) :
    (takeKind kind expected us).Follows t x y (takeKind kind expected vs) := by
  refine h.follows fun u us' vs' hus hvs htail => ?_
  subst hus hvs
  rw [takeKind, takeKind]
  by_cases hkind : u.kind = kind
  · rw [if_pos hkind, if_pos hkind]
    exact .ok htail
  · rw [if_neg hkind, if_neg hkind]
    exact .error h

theorem follows_takeName (h : Abreast t x y us vs) (expected : Expected) :
    (takeName expected us).Follows t x y (takeName expected vs) :=
  .map (follows_takeKind h .identifier expected)

/-- A line number is taken from both or from neither. -/
theorem follows_takeLineNumber (h : Abreast t x y us vs) (expected : Expected) :
    (takeLineNumber expected us).Follows t x y (takeLineNumber expected vs) := by
  refine h.follows fun u us' vs' hus hvs htail => ?_
  subst hus hvs
  rw [takeLineNumber, takeLineNumber]
  by_cases hkind : u.kind = .integer
  · rw [if_pos hkind, if_pos hkind]
    cases Numeral.lineNumber? u.lexeme with
    | some n => exact .ok htail
    | none => exact .error h
  · rw [if_neg hkind, if_neg hkind]
    exact .error h

-- ============================================================================
-- Expressions
-- ============================================================================

namespace Expr

/-- Levels that reply alike to lists side by side. -/
def Level.Follows (t : Token) (x y : List Token) (level : Level us) (level' : Level vs) : Prop :=
  ∀ us' vs' hu hv, Abreast t x y us' vs' → (level us' hu).Follows t x y (level' vs' hv)

/-- Operators and operands, by induction on what is left of the first text. -/
theorem follows_chainRest {op? : TokenKind → Option BinaryOp} {lhs : Expr} (us vs : List Token)
    {level : Level us} {level' : Level vs} (h : Abreast t x y us vs)
    (hlevel : level.Follows t x y level') :
    (chainRest op? lhs us level).Follows t x y (chainRest op? lhs vs level') := by
  refine h.follows fun u us' vs' hus hvs htail => ?_
  subst hus hvs
  rw [chainRest, chainRest]
  cases hop : op? u.kind with
  | none => exact .ok h
  | some op =>
    refine .widen (.andThen (hlevel us' vs' _ _ htail) fun rhs rest rest' hrest _ hbehind => ?_)
    exact follows_chainRest rest rest' hbehind fun _ _ _ _ hinner => hlevel _ _ _ _ hinner
termination_by us.length
decreasing_by
  subst hus
  have := hrest.length_le
  simp only [List.length_cons]
  omega

theorem follows_chain {op? : TokenKind → Option BinaryOp} {level : Level us} {level' : Level vs}
    (h : Abreast t x y us vs) (hlevel : level.Follows t x y level') :
    (chain op? us level).Follows t x y (chain op? vs level') := by
  refine .andThen (hlevel us vs _ _ h) fun lhs rest rest' _ _ hbehind => ?_
  exact follows_chainRest rest rest' hbehind fun _ _ _ _ hinner => hlevel _ _ _ _ hinner

/-- Signs in front of an operand. -/
theorem follows_signed (us vs : List Token) {level : Level us} {level' : Level vs}
    (h : Abreast t x y us vs) (hlevel : level.Follows t x y level') :
    (signed us level).Follows t x y (signed vs level') := by
  refine h.follows fun u us' vs' hus hvs htail => ?_
  subst hus hvs
  rw [signed, signed]
  cases hsign : sign? u.kind with
  | none => exact hlevel _ _ _ _ h
  | some s =>
    exact .widen (.map (follows_signed us' vs' htail fun _ _ _ _ hinner => hlevel _ _ _ _ hinner))
termination_by us.length
decreasing_by
  subst hus
  simp

/-- Arguments up to the closing parenthesis. -/
theorem follows_arguments (us vs : List Token) {level : Level us} {level' : Level vs}
    (h : Abreast t x y us vs) (hlevel : level.Follows t x y level') :
    (arguments us level).Follows t x y (arguments vs level') := by
  rw [arguments, arguments]
  refine .andThen (hlevel us vs _ _ h) fun arg rest rest' hrest hrest' hbehind => ?_
  refine hbehind.follows fun u us' vs' hus hvs htail => ?_
  subst hus hvs
  dsimp only
  by_cases hcomma : u.kind = .symbol .comma
  · rw [if_pos hcomma, if_pos hcomma]
    refine .widen (.map (follows_arguments us' vs' htail fun _ _ _ _ hinner => ?_))
    exact hlevel _ _ _ _ hinner
  · rw [if_neg hcomma, if_neg hcomma]
    exact .map (follows_takeKind hbehind _ _)
termination_by us.length
decreasing_by
  subst hus
  have := hrest.length_le
  simp only [List.length_cons] at this
  omega

theorem follows_callRest {level : Level us} {level' : Level vs} (h : Abreast t x y us vs)
    (hlevel : level.Follows t x y level') :
    (callRest us level).Follows t x y (callRest vs level') := by
  refine h.follows fun u us' vs' hus hvs htail => ?_
  subst hus hvs
  rw [callRest, callRest]
  by_cases hright : u.kind = .symbol .rightParen
  · rw [if_pos hright, if_pos hright]
    exact .ok htail
  · rw [if_neg hright, if_neg hright]
    exact follows_arguments _ _ h hlevel

/-- A name, and what stands in parentheses behind it. -/
theorem follows_named {name : Token} {level : Level us} {level' : Level vs}
    (h : Abreast t x y us vs) (hlevel : level.Follows t x y level') :
    (named name us level).Follows t x y (named name vs level') := by
  refine h.follows fun u us' vs' hus hvs htail => ?_
  subst hus hvs
  rw [named, named]
  by_cases hleft : u.kind = .symbol .leftParen
  · rw [if_pos hleft, if_pos hleft]
    exact .widen (.map (follows_callRest htail fun _ _ _ _ hinner => hlevel _ _ _ _ hinner))
  · rw [if_neg hleft, if_neg hleft]
    exact .ok h

/-- Operands, where what is inside of parentheses follows by assumption. -/
theorem follows_operand {inner : (us' : List Token) → us'.length < us.length → Reply Expr us'}
    {inner' : (vs' : List Token) → vs'.length < vs.length → Reply Expr vs'}
    (h : Abreast t x y us vs)
    (hinner : ∀ us' vs' hu hv, Abreast t x y us' vs' →
      (inner us' hu).Follows t x y (inner' vs' hv)) :
    (operand us inner).Follows t x y (operand vs inner') := by
  refine h.follows fun u us' vs' hus hvs htail => ?_
  subst hus hvs
  rw [operand, operand]
  cases hkind : u.kind with
  | integer | decimal =>
    cases hvalue : Numeral.double? u.lexeme with
    | some z => exact .ok htail
    | none => exact .error h
  | text => exact .ok htail
  | identifier => exact .widen (follows_named htail fun _ _ _ _ h' => hinner _ _ _ _ h')
  | symbol s =>
    cases s with
    | leftParen =>
      refine .widen (.andThen (hinner _ _ _ _ htail) fun e rest rest' _ _ hbehind => ?_)
      exact .map (follows_takeKind hbehind _ _)
    | _ => exact .error h
  | _ => exact .error h

/-- Expressions are read abreast, by induction on the tokens. -/
theorem follows_read (us vs : List Token) (h : Abreast t x y us vs) :
    (read us).Follows t x y (read vs) := by
  rw [read.eq_def us, read.eq_def vs]
  refine follows_chain h fun us₁ vs₁ _ _ h₁ => ?_
  refine follows_chain h₁ fun us₂ vs₂ _ _ h₂ => ?_
  refine follows_chain h₂ fun us₃ vs₃ _ _ h₃ => ?_
  refine follows_signed us₃ vs₃ h₃ fun us₄ vs₄ _ _ h₄ => ?_
  exact follows_operand h₄ fun us₅ vs₅ _ _ h₅ => follows_read us₅ vs₅ h₅
termination_by us.length
decreasing_by omega

end Expr

-- ============================================================================
-- Statements
-- ============================================================================

namespace Stmt

theorem follows_readAssignment {pos : Position} {name : String} (h : Abreast t x y us vs) :
    (readAssignment pos name us).Follows t x y (readAssignment pos name vs) := by
  refine .andThen (follows_takeKind h _ _) fun _ rest rest' _ _ hrest => ?_
  exact .map (Expr.follows_read rest rest' hrest)

/-- A step is read from both or from neither. -/
theorem follows_readStep (h : Abreast t x y us vs) :
    (readStep us).Follows t x y (readStep vs) := by
  refine h.follows fun u us' vs' hus hvs htail => ?_
  subst hus hvs
  rw [readStep, readStep]
  by_cases hstep : u.kind = .keyword .step
  · rw [if_pos hstep, if_pos hstep]
    exact .widen (.map (Expr.follows_read us' vs' htail))
  · rw [if_neg hstep, if_neg hstep]
    exact .ok h

/-- The heads of loops are read abreast. -/
theorem follows_readLoopHead (h : Abreast t x y us vs) :
    (readLoopHead us).Follows t x y (readLoopHead vs) := by
  refine .andThen (follows_takeName h _) fun name us vs _ _ h => ?_
  refine .andThen (follows_takeKind h _ _) fun _ us vs _ _ h => ?_
  refine .andThen (Expr.follows_read us vs h) fun start us vs _ _ h => ?_
  refine .andThen (follows_takeKind h _ _) fun _ us vs _ _ h => ?_
  refine .andThen (Expr.follows_read us vs h) fun stop us vs _ _ h => ?_
  exact .map (follows_readStep h)

/-- A name is passed over in both or in neither. -/
theorem follows_skipName (h : Abreast t x y us vs) :
    (skipName us).Follows t x y (skipName vs) := by
  refine h.follows fun u us' vs' hus hvs htail => ?_
  subst hus hvs
  rw [skipName, skipName]
  by_cases hname : u.kind = .identifier
  · rw [if_pos hname, if_pos hname]
    exact .ok htail
  · rw [if_neg hname, if_neg hname]
    exact .ok h

mutual

/-- Whether a statement starts with a token depends on the token alone. -/
theorem follows_read? (u : Token) (us vs : List Token) (h : Abreast t x y us vs) :
    Option.Rel (Reply.Follows t x y) (read? u us) (read? u vs) := by
  rw [read?.eq_def u us, read?.eq_def u vs]
  cases hkind : u.kind with
  | identifier => exact .some (follows_readAssignment h)
  | keyword word =>
    cases word with
    | print => exact .some (.map (Expr.follows_read us vs h))
    | let_ =>
      refine .some (.andThen (follows_takeName h _) fun name us vs _ _ h => ?_)
      exact follows_readAssignment h
    | if_ =>
      refine .some (.andThen (Expr.follows_read us vs h) fun condition us vs _ _ h => ?_)
      refine .andThen (follows_takeKind h _ _) fun _ us vs _ _ h => ?_
      exact .map (follows_takeLineNumber h _)
    | for_ =>
      refine .some (.andThen (follows_readLoopHead h) fun head us' vs' hrest _ h => ?_)
      exact .map (follows_readBody us' vs' h)
    | goto => exact .some (.map (follows_takeLineNumber h _))
    | gosub => exact .some (.map (follows_takeLineNumber h _))
    | return_ => exact .some (.ok h)
    | input => exact .some (.map (follows_takeName h _))
    | end_ => exact .some (.ok h)
    | _ => exact .none
  | _ => exact .none
termination_by 2 * us.length + 1
decreasing_by
  have := hrest.length_le
  omega

/-- The bodies of loops are read abreast, by induction on the tokens. -/
theorem follows_readBody (us vs : List Token) (h : Abreast t x y us vs) :
    (readBody us).Follows t x y (readBody vs) := by
  refine h.follows fun u us' vs' hus hvs htail => ?_
  have hstmt := follows_read? u us' vs' htail
  subst hus hvs
  rw [readBody.eq_def (u :: us'), readBody.eq_def (u :: vs')]
  dsimp only
  split
  · exact .widen (.map (follows_skipName htail))
  · exact .error h
  · exact .error h
  · exact .widen (follows_readBody us' vs' htail)
  · generalize read? u us' = reply, read? u vs' = reply' at hstmt ⊢
    cases hstmt with
    | none => exact .error h
    | some hreply =>
      refine .widen (.andThen hreply fun stmt rest rest' hrest _ hbehind => ?_)
      exact .map (follows_readBody rest rest' hbehind)
termination_by 2 * us.length
decreasing_by
  all_goals subst hus
  all_goals simp only [List.length_cons]
  · omega
  · omega
  · have := hrest.length_le
    omega

end

end Stmt

-- ============================================================================
-- Lines
-- ============================================================================

section

variable {u : Token}

theorem readStmts_colon (hcolon : u.kind = .symbol .colon) :
    (readStmts (u :: us)).2 = (readStmts us).2.widen (List.suffix_cons u us) := by
  rw [readStmts, if_pos hcolon]

theorem readStmts_end (hcolon : u.kind ≠ .symbol .colon) (hend : endsLine u.kind = true) :
    (readStmts (u :: us)).2 = .ok () (u :: us) (List.suffix_refl _) := by
  rw [readStmts, if_neg hcolon, if_pos hend]

theorem readStmts_none (hcolon : u.kind ≠ .symbol .colon) (hend : ¬ endsLine u.kind = true)
    (hread : Stmt.read? u us = none) :
    (readStmts (u :: us)).2 = .error .statement (u :: us) (List.suffix_refl _) := by
  rw [readStmts, if_neg hcolon, if_neg hend, hread]

/-- Behind a statement the others follow, if there is a colon or the end of the line. -/
theorem readStmts_some {reply : Reply Stmt us} (hcolon : u.kind ≠ .symbol .colon)
    (hend : ¬ endsLine u.kind = true) (hread : Stmt.read? u us = some reply) :
    (readStmts (u :: us)).2
      = (reply.andThen fun _ rest _ =>
          if headKind rest = .symbol .colon ∨ endsLine (headKind rest) = true then
            (readStmts rest).2
          else .error .lineEnd rest (List.suffix_refl _)).widen (List.suffix_cons u us) := by
  rw [readStmts, if_neg hcolon, if_neg hend, hread]
  cases reply with
  | error expected rest h => rfl
  | ok stmt rest h =>
    by_cases hbehind : headKind rest = .symbol .colon ∨ endsLine (headKind rest) = true
    · simp only [Reply.andThen, if_pos hbehind]
      cases (readStmts rest).2 <;> rfl
    · simp only [Reply.andThen, if_neg hbehind]
      rfl

end

/-- The statements of a line are read abreast, up to the token where the texts part. -/
theorem follows_readStmts (us vs : List Token) (h : Abreast t x y us vs) :
    (readStmts us).2.Follows t x y (readStmts vs).2 := by
  refine h.follows fun u us' vs' hus hvs htail => ?_
  have hstmt := Stmt.follows_read? u us' vs' htail
  subst hus hvs
  by_cases hcolon : u.kind = .symbol .colon
  · rw [readStmts_colon hcolon, readStmts_colon hcolon]
    exact .widen (follows_readStmts us' vs' htail)
  by_cases hend : endsLine u.kind = true
  · rw [readStmts_end hcolon hend, readStmts_end hcolon hend]
    exact .ok h
  generalize hread : Stmt.read? u us' = reply, hread' : Stmt.read? u vs' = reply' at hstmt
  cases hstmt with
  | none =>
    rw [readStmts_none hcolon hend hread, readStmts_none hcolon hend hread']
    exact .error h
  | some hreply =>
    rw [readStmts_some hcolon hend hread, readStmts_some hcolon hend hread']
    refine .widen (.andThen hreply fun _ rest rest' hrest _ hbehind => ?_)
    -- Both texts go on with the same token here.
    refine hbehind.follows fun v ws ws' hws hws' _ => ?_
    have hhead : headKind rest' = headKind rest := by rw [hws, hws']; rfl
    rw [hhead]
    split
    · exact follows_readStmts rest rest' hbehind
    · exact .error hbehind
termination_by us.length
decreasing_by
  all_goals subst hus
  all_goals simp only [List.length_cons]
  · omega
  · have := hrest.length_le
    omega

section

variable {u : Token} {e : Expected} {n : Nat} {rest : List Token}

/-- A line that starts without a number is a fault. -/
theorem readLines_of_fails_number (hnewline : u.kind ≠ .newline) (heof : u.kind ≠ .eof)
    (h : (takeLineNumber .lineNumber (u :: us)).Fails e rest) :
    (readLines (u :: us)).outcome = .error e := by
  obtain ⟨_, hnumber⟩ := h
  rw [readLines, hnumber]
  cases hkind : u.kind with
  | newline => exact absurd hkind hnewline
  | eof => exact absurd hkind heof
  | _ => rfl

/-- A line number is one integer. -/
theorem of_yields_takeLineNumber (h : (takeLineNumber .lineNumber (u :: us)).Yields n rest) :
    u.kind = .integer ∧ rest = us := by
  obtain ⟨_, h⟩ := h
  rw [takeLineNumber] at h
  by_cases hkind : u.kind = .integer
  · rw [if_pos hkind] at h
    cases hvalue : Numeral.lineNumber? u.lexeme with
    | none =>
      rw [hvalue] at h
      cases h
    | some m =>
      rw [hvalue] at h
      cases h
      exact ⟨hkind, rfl⟩
  · rw [if_neg hkind] at h
    cases h

/-- A fault in a line is a fault of the whole. -/
theorem readLines_of_fails_stmts (hn : (takeLineNumber .lineNumber (u :: us)).Yields n us)
    (h : (readStmts us).2.Fails e rest) : (readLines (u :: us)).outcome = .error e := by
  have hkind := (of_yields_takeLineNumber hn).1
  obtain ⟨_, hnumber⟩ := hn
  generalize hstmts : readStmts us = stmts at h
  obtain ⟨ss, reply⟩ := stmts
  obtain ⟨_, rfl⟩ := h
  rw [readLines, hkind, hnumber, hstmts]

/-- A fault in a later line is a fault of the whole. -/
theorem readLines_of_fails_later (hn : (takeLineNumber .lineNumber (u :: us)).Yields n us)
    (h : (readStmts us).2.Yields () rest) (hlater : (readLines rest).outcome = .error e) :
    (readLines (u :: us)).outcome = .error e := by
  have hkind := (of_yields_takeLineNumber hn).1
  obtain ⟨_, hnumber⟩ := hn
  generalize hstmts : readStmts us = stmts at h
  obtain ⟨ss, reply⟩ := stmts
  obtain ⟨_, rfl⟩ := h
  rw [readLines, hkind, hnumber, hstmts]
  exact congrArg (Except.map _) hlater

end

/-- The number of a line that goes on up to `t` is read alike on both sides. -/
theorem Abreast.exists_number {u : Token} {n : Nat} {rest : List Token} {hsuffix : rest <:+ u :: us}
    (h : Abreast t x y (u :: us) vs) (hreach : ∃ front, us = front ++ t :: x)
    (htake : takeLineNumber .lineNumber (u :: us) = .ok n rest hsuffix) :
    ∃ vs', vs = u :: vs' ∧ Abreast t x y us vs' ∧
      (takeLineNumber .lineNumber (u :: vs')).Yields n vs' := by
  obtain ⟨-, rfl⟩ := of_yields_takeLineNumber ⟨hsuffix, htake⟩
  obtain ⟨front, hfront⟩ := hreach
  obtain rfl := h (u :: front) (by rw [hfront]; rfl)
  have hnumber := follows_takeLineNumber h .lineNumber
  rw [htake] at hnumber
  exact ⟨front ++ t :: y, rfl, hfront ▸ .append front, hnumber front hfront⟩

/-- Lines that cannot be read for a token cannot be read for it whatever stands behind. -/
theorem readLines_fails_alike {e : Expected} {front : List Token} (us vs : List Token)
    (h : Abreast t x y us vs) (herror : (readLines us).outcome = .error e)
    (hrest : (readLines us).rest = front ++ t :: x) : (readLines vs).outcome = .error e := by
  -- The tokens reach back to `t`, since what is left of them does.
  have hreach : ∀ {rest ws : List Token}, rest = front ++ t :: x → rest <:+ ws →
      ∃ front', ws = front' ++ t :: x := by
    rintro _ _ rfl ⟨skipped, rfl⟩
    exact ⟨skipped ++ front, (List.append_assoc ..).symm⟩
  fun_induction readLines us generalizing vs with
  | case1 => cases herror
  | case2 u us hnewline ih =>
    obtain ⟨front', hfront'⟩ := hreach hrest (readLines_leaves us).1
    obtain rfl := h (u :: front') (by rw [hfront']; rfl)
    rw [List.cons_append, readLines, hnewline]
    exact ih _ (hfront' ▸ .append front') herror hrest
  | case3 u us heof => cases herror
  | case4 u us expected rest hsuffix htake hnewline heof =>
    obtain ⟨v, us', vs', hus, rfl, htail⟩ := h.exists_cons (hreach hrest hsuffix)
    obtain ⟨rfl, rfl⟩ := List.cons.inj hus
    have hnumber := follows_takeLineNumber h .lineNumber
    rw [htake] at hnumber
    rw [readLines_of_fails_number hnewline heof (hnumber front hrest)]
    exact herror
  | case5 u us n _ _ htake ss expected rest hsuffix hread hnewline heof =>
    obtain ⟨vs', rfl, htail, hn⟩ := h.exists_number (hreach hrest hsuffix) htake
    have hstmts := follows_readStmts us vs' htail
    rw [hread] at hstmts
    rw [readLines_of_fails_stmts hn (hstmts front hrest)]
    exact herror
  | case6 u us n _ _ htake ss _ rest hsuffix hread later hnewline heof ih =>
    have hleft := (readLines_leaves rest).1
    obtain ⟨vs', rfl, htail, hn⟩ := h.exists_number (hreach hrest (hleft.trans hsuffix)) htake
    obtain ⟨front', hfront'⟩ := hreach hrest hleft
    have hstmts := follows_readStmts us vs' htail
    rw [hread] at hstmts
    cases hlater : later.outcome with
    | ok ls =>
      rw [hlater] at herror
      cases herror
    | error expected =>
      rw [hlater] at herror
      cases herror
      have hbehind := ih (front' ++ t :: y) (hfront' ▸ .append front') hlater hrest
      exact readLines_of_fails_later hn (hstmts front' hfront') hbehind

end LineBasic
