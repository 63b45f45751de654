/-
  LineBasic.Proofs.NormalForms

  What simplification leaves behind.  An expression is normal when none of its parts is
  of a form that simplification rewrites.  An operator is looked at once, when its
  operands are simplified already; that this is enough, and no rewriting makes another
  one possible, is what `normal_simplify` says.  Normal expressions stay as they are, so
  that simplifying a program twice is simplifying it once.  Not every expression of a
  program is reached: in the body of a loop only values are.

  The normal form of an expression of number literals and operators is a literal, with
  the value that the check of arguments works out for itself.
-/

import LineBasic.Check
import LineBasic.Proofs.Doubles
import LineBasic.Proofs.Making
import LineBasic.Proofs.Simplification
import Mathlib.Data.List.Perm.Basic

namespace LineBasic

-- ============================================================================
-- Normal expressions
-- ============================================================================

namespace Expr

mutual

/-- The expressions of which an expression is made up, itself first. -/
def parts : Expr → List Expr
  | number pos x => [.number pos x]
  | text pos s => [.text pos s]
  | var pos name => [.var pos name]
  | unary pos sign operand => .unary pos sign operand :: parts operand
  | binary pos op lhs rhs => .binary pos op lhs rhs :: (parts lhs ++ parts rhs)
  | call pos name args => .call pos name args :: partsOfList args

/-- The parts of several expressions, one expression after the other. -/
def partsOfList : List Expr → List Expr
  | [] => []
  | e :: es => parts e ++ partsOfList es

end

/-- Whether one operand alone tells what an operator comes to: adding or subtracting
    zero, multiplying with zero or one, dividing by one. -/
def isIdle (op : BinaryOp) (l r : Expr) : Bool :=
  match op with
  | .arith .add => l.isLiteral 0.0 || r.isLiteral 0.0
  | .arith .sub => r.isLiteral 0.0
  | .arith .mul => l.isLiteral 0.0 || r.isLiteral 0.0 || l.isLiteral 1.0 || r.isLiteral 1.0
  | .arith .div => r.isLiteral 1.0
  | .compare _ => false

/-- Whether an expression is of a form that is rewritten: a plus, a minus in front of a
    literal, an operator between literals unless it divides by zero, an idle operator. -/
def isRedex : Expr → Bool
  | unary _ .plus _ => true
  | unary _ .minus operand => operand.literal?.isSome
  | binary _ op lhs rhs =>
    lhs.literal?.isSome && rhs.literal?.isSome && !(op = .arith .div && rhs.isLiteral 0.0)
      || isIdle op lhs rhs
  | _ => false

/-- No part of an expression is of a form that is rewritten. -/
def Normal (e : Expr) : Prop := ∀ a ∈ e.parts, a.isRedex = false

variable {pos : Position} {op : BinaryOp} {l r e : Expr}

theorem mem_parts (e : Expr) : e ∈ e.parts := by
  cases e <;> exact List.mem_cons_self

theorem mem_partsOfList {a : Expr} {es : List Expr} :
    a ∈ partsOfList es ↔ ∃ e ∈ es, a ∈ e.parts := by
  induction es with
  | nil => simp [partsOfList]
  | cons e es ih => simp [partsOfList, ih]

theorem normal_unary_iff {sign : Sign} :
    (unary pos sign e).Normal ↔ (unary pos sign e).isRedex = false ∧ e.Normal := by
  simp only [Normal, parts, List.forall_mem_cons]

theorem normal_binary_iff :
    (binary pos op l r).Normal ↔ (binary pos op l r).isRedex = false ∧ l.Normal ∧ r.Normal := by
  simp only [Normal, parts, List.forall_mem_cons, List.forall_mem_append]

/-- A call is normal if its arguments are. -/
theorem normal_call_iff {name : String} {args : List Expr} :
    (call pos name args).Normal ↔ ∀ e ∈ args, e.Normal := by
  simp only [Normal, parts, List.forall_mem_cons, isRedex, true_and, mem_partsOfList]
  constructor
  · intro h e he a ha
    exact h a ⟨e, he, ha⟩
  · rintro h a ⟨e, he, ha⟩
    exact h e he a ha

theorem normal_number {x : Float} : (number pos x).Normal := by
  simp [Normal, parts, isRedex]

-- ----------------------------------------------------------------------------
-- Operators on normal operands
-- ----------------------------------------------------------------------------

/-- A literal cannot equal both zero and one. -/
theorem not_isLiteral_one (h : e.isLiteral 0.0 = true) : e.isLiteral 1.0 = false := by
  obtain ⟨y, hy, hzero⟩ := exists_literal_of_isLiteral h
  rw [isLiteral, hy]
  refine Bool.eq_false_iff.2 fun hone => ?_
  rw [Double.eq_one_of_beq hone] at hzero
  exact absurd hzero (by decide)

/-- An operator that is not idle stays. -/
theorem dropNeutral_of_not_isIdle (h : isIdle op l r = false) :
    dropNeutral pos op l r = .binary pos op l r := by
  cases op with
  | compare rel => rfl
  | arith a =>
    cases a with
    | add =>
      obtain ⟨hl, hr⟩ := Bool.or_eq_false_iff.1 h
      simp [dropNeutral, hl, hr]
    | sub =>
      have hr : r.isLiteral 0.0 = false := h
      simp [dropNeutral, hr]
    | mul =>
      simp only [isIdle, Bool.or_eq_false_iff] at h
      obtain ⟨⟨⟨hl, hr⟩, hl'⟩, hr'⟩ := h
      simp [dropNeutral, hl, hr, hl', hr']
    | div =>
      have hr : r.isLiteral 1.0 = false := h
      simp [dropNeutral, hr]

/-- An idle operator goes away: what is left is a literal or an operand. -/
theorem dropNeutral_of_isIdle (pos : Position) (h : isIdle op l r = true) :
    dropNeutral pos op l r = .number pos 0.0 ∨ dropNeutral pos op l r = l ∨
      dropNeutral pos op l r = r := by
  cases op with
  | compare rel => cases h
  | arith a =>
    cases a with
    | add =>
      rw [dropNeutral]
      split
      · exact .inr (.inr rfl)
      · next hl =>
        have hr : r.isLiteral 0.0 = true := (Bool.or_eq_true_iff.1 h).resolve_left hl
        rw [if_pos hr]
        exact .inr (.inl rfl)
    | sub =>
      have hr : r.isLiteral 0.0 = true := h
      rw [dropNeutral, if_pos hr]
      exact .inr (.inl rfl)
    | mul =>
      rw [dropNeutral]
      split
      · exact .inl rfl
      · next hzero =>
        split
        · exact .inr (.inr rfl)
        · next hl =>
          have hr : r.isLiteral 1.0 = true := by
            simp only [isIdle, Bool.or_eq_true] at h hzero
            exact h.resolve_left fun h' => h'.elim hzero hl
          rw [if_pos hr]
          exact .inr (.inl rfl)
    | div =>
      have hr : r.isLiteral 1.0 = true := h
      rw [dropNeutral, if_pos hr]
      exact .inr (.inl rfl)

/-- An operator of a form that is not rewritten stays. -/
theorem simplifyBinary_of_not_isRedex (h : (binary pos op l r).isRedex = false) :
    simplifyBinary pos op l r = .binary pos op l r := by
  obtain ⟨hliterals, hidle⟩ := Bool.or_eq_false_iff.1 h
  unfold simplifyBinary
  split
  · next x y hx hy =>
    have hzero : op = .arith .div ∧ (y == 0.0) = true := by
      simpa [hx, hy, isLiteral] using hliterals
    rw [if_pos hzero]
  · exact dropNeutral_of_not_isIdle hidle

/-- What is rewritten goes away: what is left is a literal or an operand. -/
theorem simplifyBinary_of_isRedex (h : (binary pos op l r).isRedex = true) :
    (∃ x, simplifyBinary pos op l r = .number pos x) ∨ simplifyBinary pos op l r = l ∨
      simplifyBinary pos op l r = r := by
  unfold simplifyBinary
  split
  · next x y hx hy =>
    have hdivides : ¬ (op = .arith .div ∧ (y == 0.0) = true) := by
      rintro ⟨rfl, hzero⟩
      have hliteral : r.isLiteral 0.0 = true := by rw [isLiteral, hy]; exact hzero
      have hone := not_isLiteral_one hliteral
      simp [isRedex, isIdle, hliteral, hone] at h
    rw [if_neg hdivides]
    exact .inl ⟨_, rfl⟩
  · next hnot =>
    have hidle : isIdle op l r = true := by
      refine (Bool.or_eq_true_iff.1 h).resolve_left fun hliterals => ?_
      simp only [Bool.and_eq_true, Option.isSome_iff_exists] at hliterals
      obtain ⟨⟨⟨x, hx⟩, ⟨y, hy⟩⟩, -⟩ := hliterals
      exact hnot x y hx hy
    rcases dropNeutral_of_isIdle pos hidle with hnumber | hoperand
    · exact .inl ⟨0.0, hnumber⟩
    · exact .inr hoperand

/-- An operator on normal operands comes to something normal: it stays, or what is left is a
    literal or one of them. -/
theorem normal_simplifyBinary (hl : l.Normal) (hr : r.Normal) :
    (simplifyBinary pos op l r).Normal := by
  cases hredex : (binary pos op l r).isRedex with
  | false =>
    rw [simplifyBinary_of_not_isRedex hredex]
    exact normal_binary_iff.2 ⟨hredex, hl, hr⟩
  | true =>
    rcases simplifyBinary_of_isRedex hredex with ⟨x, hnumber⟩ | hleft | hright
    · rw [hnumber]
      exact normal_number
    · rw [hleft]
      exact hl
    · rw [hright]
      exact hr

/-- A sign in front of a normal operand comes to something normal. -/
theorem normal_simplifySigned {sign : Sign} (he : e.Normal) :
    (simplifySigned pos sign e).Normal := by
  cases sign with
  | plus => exact he
  | minus =>
    rw [simplifySigned]
    split
    · exact normal_number
    · next hnone =>
      refine normal_unary_iff.2 ⟨?_, he⟩
      rw [isRedex, hnone]
      rfl

-- ----------------------------------------------------------------------------
-- Simplified and normal
-- ----------------------------------------------------------------------------

mutual

/-- A simplified expression is normal. -/
theorem normal_simplify (e : Expr) : e.simplify.Normal := by
  match e with
  | .number pos x => exact normal_number
  | .text pos s => simp [simplify, Normal, parts, isRedex]
  | .var pos name => simp [simplify, Normal, parts, isRedex]
  | .unary pos sign operand => exact normal_simplifySigned (normal_simplify operand)
  | .binary pos op lhs rhs =>
    exact normal_simplifyBinary (normal_simplify lhs) (normal_simplify rhs)
  | .call pos name args => exact normal_call_iff.2 (normal_simplifyList args)

theorem normal_simplifyList (es : List Expr) : ∀ e ∈ simplifyList es, e.Normal := by
  match es with
  | [] => simp [simplifyList]
  | e :: es => exact List.forall_mem_cons.2 ⟨normal_simplify e, normal_simplifyList es⟩

end

mutual

/-- A normal expression stays as it is. -/
theorem simplify_of_normal (e : Expr) (h : e.Normal) : e.simplify = e := by
  match e with
  | .number pos x => rfl
  | .text pos s => rfl
  | .var pos name => rfl
  | .unary pos sign operand =>
    obtain ⟨hredex, hoperand⟩ := normal_unary_iff.1 h
    cases sign with
    | plus => cases hredex
    | minus =>
      have hnone : operand.literal? = none := by simpa [isRedex] using hredex
      rw [simplify, simplify_of_normal operand hoperand, simplifySigned, hnone]
  | .binary pos op lhs rhs =>
    obtain ⟨hredex, hlhs, hrhs⟩ := normal_binary_iff.1 h
    rw [simplify, simplify_of_normal lhs hlhs, simplify_of_normal rhs hrhs,
      simplifyBinary_of_not_isRedex hredex]
  | .call pos name args => rw [simplify, simplifyList_of_normal args (normal_call_iff.1 h)]

theorem simplifyList_of_normal (es : List Expr) (h : ∀ e ∈ es, e.Normal) :
    simplifyList es = es := by
  match es with
  | [] => rfl
  | e :: es =>
    obtain ⟨he, hes⟩ := List.forall_mem_cons.1 h
    rw [simplifyList, simplify_of_normal e he, simplifyList_of_normal es hes]

end

/-- Normal are the expressions that stay as they are. -/
theorem simplify_eq_iff_normal : e.simplify = e ↔ e.Normal :=
  ⟨fun h => h ▸ normal_simplify e, simplify_of_normal e⟩

end Expr

-- ============================================================================
-- Programs
-- ============================================================================

namespace Stmt

mutual

/-- The expressions of a statement, loop bodies of any depth included. -/
def exprs : Stmt → List Expr
  | assign _ _ value => [value]
  | print _ value => [value]
  | ifThen _ condition _ => [condition]
  | forNext _ _ start stop step body => start :: stop :: (step.toList ++ exprsOfList body)
  | _ => []

/-- The expressions of several statements, one statement after the other. -/
def exprsOfList : List Stmt → List Expr
  | [] => []
  | s :: ss => exprs s ++ exprsOfList ss

end

/-- The expressions that simplification reaches in a statement in the body of a loop. -/
def reachedInBody : Stmt → List Expr
  | assign _ _ value => [value]
  | print _ value => [value]
  | _ => []

/-- The other ones: conditions, and whatever stands in a loop in the body of a loop. -/
def unreachedInBody : Stmt → List Expr
  | assign _ _ _ => []
  | print _ _ => []
  | s => s.exprs

/-- The expressions that simplification reaches in a statement on a line. -/
def reached : Stmt → List Expr
  | assign _ _ value => [value]
  | print _ value => [value]
  | ifThen _ condition _ => [condition]
  | forNext _ _ start stop step body =>
    start :: stop :: (step.toList ++ body.flatMap reachedInBody)
  | _ => []

/-- The expressions of a statement on a line that simplification does not reach. -/
def unreached : Stmt → List Expr
  | forNext _ _ _ _ _ body => body.flatMap unreachedInBody
  | _ => []

/-- Whether a statement itself is rewritten: a decision about a literal, a loop with a step
    of one. -/
def isRedex : Stmt → Bool
  | ifThen _ condition _ => condition.literal?.isSome
  | forNext _ _ _ _ step _ => step.any (·.isLiteral 1.0)
  | _ => false

/-- A statement that is not rewritten, with normal expressions as far as simplification
    reaches. -/
structure Normal (s : Stmt) : Prop where
  reached : ∀ e ∈ s.reached, e.Normal
  stays : s.isRedex = false

-- ----------------------------------------------------------------------------
-- Bodies and steps of loops
-- ----------------------------------------------------------------------------

/-- Values in the body of a loop are normal once it is simplified. -/
theorem normal_reachedInBody_simplifyInBody (s : Stmt) :
    ∀ e ∈ s.simplifyInBody.reachedInBody, e.Normal := by
  cases s with
  | assign pos name value => exact List.forall_mem_singleton.2 value.normal_simplify
  | print pos value => exact List.forall_mem_singleton.2 value.normal_simplify
  | _ => exact List.forall_mem_nil _

/-- A statement in the body of a loop with a normal value stays as it is. -/
theorem simplifyInBody_of_normal {s : Stmt} (h : ∀ e ∈ s.reachedInBody, e.Normal) :
    s.simplifyInBody = s := by
  cases s with
  | assign pos name value =>
    rw [simplifyInBody, Expr.simplify_of_normal _ (List.forall_mem_singleton.1 h)]
  | print pos value =>
    rw [simplifyInBody, Expr.simplify_of_normal _ (List.forall_mem_singleton.1 h)]
  | _ => rfl

/-- In the body of a loop simplification changes what it reaches and nothing else. -/
theorem unreachedInBody_simplifyInBody (s : Stmt) :
    s.simplifyInBody.unreachedInBody = s.unreachedInBody := by
  cases s <;> rfl

theorem normal_of_mem_simplifyStep {step : Option Expr} {e : Expr} (h : e ∈ simplifyStep step) :
    e.Normal ∧ e.isLiteral 1.0 = false := by
  obtain ⟨hmap, hone⟩ := Option.filter_eq_some_iff.1 h
  obtain ⟨e', -, rfl⟩ := Option.map_eq_some_iff.1 hmap
  exact ⟨e'.normal_simplify, by simpa using hone⟩

/-- A normal step other than one stays as it is. -/
theorem simplifyStep_of_normal {step : Option Expr} (h : ∀ e ∈ step.toList, e.Normal)
    (hone : step.any (·.isLiteral 1.0) = false) : simplifyStep step = step := by
  cases step with
  | none => rfl
  | some e =>
    have hkept : (!e.isLiteral 1.0) = true := by
      rw [show e.isLiteral 1.0 = false from hone]
      rfl
    rw [simplifyStep, Option.map_some, Expr.simplify_of_normal e (List.forall_mem_singleton.1 h),
      Option.filter_some, if_pos hkept]

-- ----------------------------------------------------------------------------
-- Statements on lines
-- ----------------------------------------------------------------------------

/-- What is left of a statement is normal. -/
theorem normal_of_simplify? {s t : Stmt} (h : s.simplify? = some t) : t.Normal := by
  cases s with
  | assign pos name value =>
    cases h
    exact ⟨List.forall_mem_singleton.2 value.normal_simplify, rfl⟩
  | print pos value =>
    cases h
    exact ⟨List.forall_mem_singleton.2 value.normal_simplify, rfl⟩
  | ifThen pos condition target =>
    cases Decision.simplify? h with
    | holds _ _ => exact ⟨List.forall_mem_nil _, rfl⟩
    | stays hunknown =>
      refine ⟨List.forall_mem_singleton.2 condition.normal_simplify, ?_⟩
      rw [isRedex, hunknown]
      rfl
  | forNext pos name start stop step body =>
    cases h
    refine ⟨?_, ?_⟩
    · rw [Stmt.reached, List.forall_mem_cons, List.forall_mem_cons, List.forall_mem_append]
      refine ⟨start.normal_simplify, stop.normal_simplify, fun e he => ?_, fun e he => ?_⟩
      · exact (normal_of_mem_simplifyStep (Option.mem_toList.1 he)).1
      · obtain ⟨t, ht, he⟩ := List.mem_flatMap.1 he
        obtain ⟨s, -, rfl⟩ := List.mem_map.1 ht
        exact s.normal_reachedInBody_simplifyInBody e he
    · rw [isRedex, Option.any_eq_false]
      exact fun e he => (normal_of_mem_simplifyStep he).2
  | goto pos target | gosub pos target | return_ pos | input pos name | end_ pos =>
    cases h
    exact ⟨List.forall_mem_nil _, rfl⟩

/-- A normal statement stays as it is. -/
theorem simplify?_of_normal {s : Stmt} (h : s.Normal) : s.simplify? = some s := by
  obtain ⟨hreached, hstays⟩ := h
  cases s with
  | assign pos name value =>
    rw [simplify?, Expr.simplify_of_normal _ (List.forall_mem_singleton.1 hreached)]
  | print pos value =>
    rw [simplify?, Expr.simplify_of_normal _ (List.forall_mem_singleton.1 hreached)]
  | ifThen pos condition target =>
    have hunknown : condition.literal? = none := by simpa [isRedex] using hstays
    rw [simplify?, Expr.simplify_of_normal _ (List.forall_mem_singleton.1 hreached),
      simplifyDecision, hunknown]
  | forNext pos name start stop step body =>
    rw [Stmt.reached, List.forall_mem_cons, List.forall_mem_cons, List.forall_mem_append]
      at hreached
    obtain ⟨hstart, hstop, hstep, hbody⟩ := hreached
    have hmap : body.map simplifyInBody = body := by
      refine (List.map_congr_left fun s hs => ?_).trans (List.map_id body)
      exact simplifyInBody_of_normal fun e he => hbody e (List.mem_flatMap.2 ⟨s, hs, he⟩)
    rw [simplify?, Expr.simplify_of_normal _ hstart, Expr.simplify_of_normal _ hstop,
      simplifyStep_of_normal hstep hstays, hmap]
  | goto pos target | gosub pos target | return_ pos | input pos name | end_ pos => rfl

/-- What is left of a statement has the same expressions out of reach. -/
theorem unreached_of_simplify? {s t : Stmt} (h : s.simplify? = some t) :
    t.unreached = s.unreached := by
  cases s with
  | ifThen pos condition target => cases Decision.simplify? h <;> rfl
  | forNext pos name start stop step body =>
    cases h
    rw [unreached, List.flatMap_map]
    exact congrArg (List.flatMap · body) (funext unreachedInBody_simplifyInBody)
  | assign pos name value | print pos value | goto pos target | gosub pos target | return_ pos
  | input pos name | end_ pos =>
    cases h
    rfl

/-- Nothing that simplification does not reach stands in a statement of which nothing is left. -/
theorem unreached_of_simplify?_eq_none {s : Stmt} (h : s.simplify? = none) : s.unreached = [] := by
  cases s with
  | ifThen pos condition target => rfl
  | _ => cases h

theorem exprsOfList_eq (ss : List Stmt) : exprsOfList ss = ss.flatMap exprs := by
  induction ss with
  | nil => rfl
  | cons s ss ih => rw [exprsOfList, ih, List.flatMap_cons]

/-- In the body of a loop a value is reached, and nothing else is. -/
theorem exprs_eq_inBody (s : Stmt) : s.exprs = s.reachedInBody ++ s.unreachedInBody := by
  cases s <;> rfl

/-- Each expression of a statement is reached or not. -/
theorem exprs_perm (s : Stmt) : s.exprs.Perm (s.reached ++ s.unreached) := by
  cases s with
  | forNext pos name start stop step body =>
    have hbody : (exprsOfList body).Perm
        (body.flatMap reachedInBody ++ body.flatMap unreachedInBody) := by
      rw [exprsOfList_eq, funext exprs_eq_inBody]
      exact (List.flatMap_append_perm body reachedInBody unreachedInBody).symm
    rw [exprs, reached, unreached, List.cons_append, List.cons_append, List.append_assoc]
    exact ((hbody.append_left _).cons stop).cons start
  | assign pos name value | print pos value | ifThen pos condition target | goto pos target
  | gosub pos target | return_ pos | input pos name | end_ pos => exact .refl _

end Stmt

namespace Line

/-- A line of normal statements stays as it is. -/
theorem simplify_of_normal {l : Line} (h : ∀ s ∈ l.stmts, s.Normal) : l.simplify = l := by
  have hstmts : l.stmts.filterMap Stmt.simplify? = l.stmts :=
    (List.filterMap_congr fun s hs => Stmt.simplify?_of_normal (h s hs)).trans List.filterMap_some
  rw [simplify, hstmts]

theorem unreached_simplify (l : Line) :
    l.simplify.stmts.flatMap Stmt.unreached = l.stmts.flatMap Stmt.unreached := by
  rw [simplify]
  induction l.stmts with
  | nil => rfl
  | cons s ss ih =>
    rw [List.flatMap_cons, ← ih]
    cases hs : s.simplify? with
    | none =>
      rw [List.filterMap_cons_none hs, Stmt.unreached_of_simplify?_eq_none hs, List.nil_append]
    | some t =>
      rw [List.filterMap_cons_some hs, List.flatMap_cons, Stmt.unreached_of_simplify? hs]

end Line

namespace Program

/-- The expressions of a program. -/
def exprs (p : Program) : List Expr := p.lines.flatMap fun l => l.stmts.flatMap Stmt.exprs

/-- The expressions of a program that simplification reaches. -/
def reached (p : Program) : List Expr := p.lines.flatMap fun l => l.stmts.flatMap Stmt.reached

/-- The expressions of a program that it does not reach. -/
def unreached (p : Program) : List Expr := p.lines.flatMap fun l => l.stmts.flatMap Stmt.unreached

/-- A program of normal statements. -/
structure Normal (p : Program) : Prop where
  reached : ∀ e ∈ p.reached, e.Normal
  stays : ∀ l ∈ p.lines, ∀ s ∈ l.stmts, s.isRedex = false

variable {p : Program}

/-- A program is normal if its statements are. -/
theorem normal_iff : p.Normal ↔ ∀ l ∈ p.lines, ∀ s ∈ l.stmts, s.Normal := by
  constructor
  · rintro ⟨hreached, hstays⟩ l hl s hs
    refine ⟨fun e he => hreached e ?_, hstays l hl s hs⟩
    exact List.mem_flatMap.2 ⟨l, hl, List.mem_flatMap.2 ⟨s, hs, he⟩⟩
  · intro h
    refine ⟨fun e he => ?_, fun l hl s hs => (h l hl s hs).stays⟩
    obtain ⟨l, hl, he⟩ := List.mem_flatMap.1 he
    obtain ⟨s, hs, he⟩ := List.mem_flatMap.1 he
    exact (h l hl s hs).reached e he

/-- A simplified program is normal. -/
theorem normal_simplify (p : Program) : p.simplify.Normal := by
  refine normal_iff.2 fun l hl s hs => ?_
  obtain ⟨l', -, rfl⟩ := List.mem_map.1 hl
  obtain ⟨s', -, hs'⟩ := List.mem_filterMap.1 hs
  exact Stmt.normal_of_simplify? hs'

/-- A normal program stays as it is. -/
theorem simplify_of_normal (h : p.Normal) : p.simplify = p := by
  have hlines : p.lines.map Line.simplify = p.lines :=
    (List.map_congr_left fun l hl => Line.simplify_of_normal (normal_iff.1 h l hl)).trans
      (List.map_id p.lines)
  rw [simplify, hlines]

theorem unreached_simplify (p : Program) : p.simplify.unreached = p.unreached := by
  rw [unreached, simplify, List.flatMap_map]
  exact congrArg (List.flatMap · p.lines) (funext Line.unreached_simplify)

/-- Each expression of a program is reached or not. -/
theorem exprs_perm (p : Program) : p.exprs.Perm (p.reached ++ p.unreached) := by
  refine List.Perm.trans ?_ (List.flatMap_append_perm p.lines _ _).symm
  refine List.Perm.flatMap_left p.lines fun l _ => ?_
  refine List.Perm.trans ?_ (List.flatMap_append_perm l.stmts _ _).symm
  exact List.Perm.flatMap_left l.stmts fun s _ => s.exprs_perm

end Program

/-- One simplification is enough.  A simplified expression has no part of a form that is
    rewritten, the expressions without such parts are those that stay as they are, and a
    simplified program, simplified again, is the same, positions and bits of numbers
    included.

    Of the expressions of a program some are reached, and they are normal once it is
    simplified: values, conditions and bounds of loops on its lines, and values in the bodies
    of these loops.  The rest, conditions in bodies of loops and all of the loops in them, is
    left alone.  Programs with normal expressions as far as simplification reaches, without
    decisions about literals and without steps of one, are those that stay as they are. -/
theorem simplify_reaches_normal :
    (∀ e : Expr, e.simplify.Normal ∧ (e.simplify = e ↔ e.Normal)) ∧
    ∀ p : Program,
      p.simplify.simplify = p.simplify ∧
      p.simplify.Normal ∧ (p.simplify = p ↔ p.Normal) ∧
      p.exprs.Perm (p.reached ++ p.unreached) ∧ p.simplify.unreached = p.unreached := by
  refine ⟨fun e => ⟨e.normal_simplify, Expr.simplify_eq_iff_normal⟩, fun p => ?_⟩
  refine ⟨Program.simplify_of_normal p.normal_simplify, p.normal_simplify, ?_, p.exprs_perm,
    p.unreached_simplify⟩
  exact ⟨fun h => h ▸ p.normal_simplify, Program.simplify_of_normal⟩

-- ============================================================================
-- Constants
-- ============================================================================

section Arguments

variable {pos : Position} {name : String} {b : Builtin} {e : Expr} {v : Float}

theorem Builtin.checkArgument_of_refused (h : (b.refusesComparison && e.isComparison) = true) :
    b.checkArgument name e = Check.refuse (.comparisonArgument name) e.pos := by
  rw [checkArgument, h]
  rfl

/-- A constant in the domain passes. -/
theorem Builtin.checkArgument_of_constant (h : (b.refusesComparison && e.isComparison) = false)
    (hv : e.constant? = some v) (hfault : b.domainFault? v = none) :
    b.checkArgument name e = pure () := by
  rw [checkArgument, h, hv]
  dsimp only
  rw [hfault]
  rfl

/-- A constant outside of the domain is reported with its value. -/
theorem Builtin.checkArgument_of_fault (h : (b.refusesComparison && e.isComparison) = false)
    {why : DomainFault} (hv : e.constant? = some v) (hfault : b.domainFault? v = some why) :
    b.checkArgument name e = Check.refuse (.outOfDomain name v why) e.pos := by
  rw [checkArgument, h, hv]
  dsimp only
  rw [hfault]
  rfl

theorem Expr.outcome_check_call (hb : Builtin.ofName? name = some b)
    (he : e.check = pure .number) :
    (call pos name [e]).check.outcome
      = (b.checkArgument name e >>= fun _ => pure Ty.number).outcome := by
  rw [Expr.check.eq_7 pos name b e hb, he]
  rfl

/-- The check of a call judges its argument by the value `v`: it accepts the call unless
    the argument is a comparison and refused as such, or `v` is outside the domain, and
    then `v` is what it reports. -/
def Expr.Judges (pos : Position) (name : String) (b : Builtin) (e : Expr) (v : Float) : Prop :=
  ((call pos name [e]).check.outcome = .ok .number ↔
    (b.refusesComparison && e.isComparison) = false ∧ b.domainFault? v = none) ∧
  ∀ why, (call pos name [e]).check.outcome = .error ⟨.outOfDomain name v why, e.pos⟩ ↔
    (b.refusesComparison && e.isComparison) = false ∧ b.domainFault? v = some why

/-- A constant argument is judged by its value. -/
theorem Expr.judges_of_constant (hb : Builtin.ofName? name = some b) (he : e.check = pure .number)
    (hv : e.constant? = some v) : Judges pos name b e v := by
  unfold Judges
  rw [outcome_check_call hb he]
  cases hrefused : b.refusesComparison && e.isComparison with
  | true =>
    rw [Builtin.checkArgument_of_refused hrefused]
    simp [Check.refuse, Traced.bind_of_error]
  | false =>
    cases hfault : b.domainFault? v with
    | none =>
      rw [Builtin.checkArgument_of_constant hrefused hv hfault]
      simp
    | some fault =>
      rw [Builtin.checkArgument_of_fault hrefused hv hfault]
      simp [Check.refuse, Traced.bind_of_error]

end Arguments

namespace Expr

/-- Whether an expression is a number literal or an operator. -/
def isArithmetic : Expr → Bool
  | number _ _ => true
  | unary _ _ _ => true
  | binary _ _ _ _ => true
  | _ => false

/-- Whether an expression is a division by a constant that equals zero. -/
def dividesByZero : Expr → Bool
  | binary _ (.arith .div) _ divisor => divisor.constant?.any (· == 0.0)
  | _ => false

theorem simplifyBinary_of_literals {pos : Position} {op : BinaryOp} {l r : Expr} {x y : Float}
    (hx : l.literal? = some x) (hy : r.literal? = some y)
    (hzero : ¬ (op = .arith .div ∧ (y == 0.0) = true)) :
    simplifyBinary pos op l r = .number pos (op.apply x y) := by
  unfold simplifyBinary
  rw [hx, hy]
  exact if_neg hzero

/-- An expression of number literals and operators that divides by no zero has a value,
    and simplifies to a literal with that value. -/
theorem exists_constant (e : Expr)
    (h : ∀ a ∈ e.parts, a.isArithmetic = true ∧ a.dividesByZero = false) :
    ∃ pos v, e.constant? = some v ∧ e.simplify = .number pos v := by
  match e with
  | .number pos x => exact ⟨pos, x, rfl, rfl⟩
  | .text pos s => cases (h _ (mem_parts _)).1
  | .var pos name => cases (h _ (mem_parts _)).1
  | .call pos name args => cases (h _ (mem_parts _)).1
  | .unary pos sign operand =>
    obtain ⟨p, x, hx, hsimplify⟩ :=
      exists_constant operand fun a ha => h a (List.mem_cons_of_mem _ ha)
    rw [constant?, hx, simplify, hsimplify]
    cases sign with
    | plus => exact ⟨p, x, rfl, rfl⟩
    | minus => exact ⟨pos, -x, rfl, rfl⟩
  | .binary pos op lhs rhs =>
    obtain ⟨-, hlhs, hrhs⟩ : _ ∧ _ ∧ _ := by
      simpa only [parts, List.forall_mem_cons, List.forall_mem_append] using h
    obtain ⟨p, x, hx, hsimplify⟩ := exists_constant lhs hlhs
    obtain ⟨q, y, hy, hsimplify'⟩ := exists_constant rhs hrhs
    -- No part divides by zero, so a quotient is folded, too.
    have hzero : ¬ (op = .arith .div ∧ (y == 0.0) = true) := by
      rintro ⟨rfl, hzero⟩
      have hdivides := (h _ (mem_parts _)).2
      rw [dividesByZero, hy] at hdivides
      exact absurd hzero (Bool.eq_false_iff.1 hdivides)
    refine ⟨pos, op.apply x y, by rw [constant?, hx, hy], ?_⟩
    rw [simplify, hsimplify, hsimplify']
    exact simplifyBinary_of_literals rfl rfl hzero

/-- An expression of number literals and operators passes the check as a number. -/
theorem check_of_isArithmetic (e : Expr) (h : ∀ a ∈ e.parts, a.isArithmetic = true) :
    e.check = pure .number := by
  match e with
  | .number pos x => rfl
  | .text pos s => cases h _ (mem_parts _)
  | .var pos name => cases h _ (mem_parts _)
  | .call pos name args => cases h _ (mem_parts _)
  | .unary pos sign operand =>
    rw [check, check_of_isArithmetic operand fun a ha => h a (List.mem_cons_of_mem _ ha)]
    rfl
  | .binary pos op lhs rhs =>
    obtain ⟨-, hlhs, hrhs⟩ : _ ∧ _ ∧ _ := by
      simpa only [parts, List.forall_mem_cons, List.forall_mem_append] using h
    rw [check, check_of_isArithmetic lhs hlhs, check_of_isArithmetic rhs hrhs]
    cases op <;> rfl

/-- An expression of number literals and operators that divides by no zero simplifies to
    a literal, whose bits are those of its value as a constant.  That value is the one by
    which the check of a call judges the expression as an argument, and the simplified call
    has code that hands the very same literal to the function. -/
theorem simplify_agrees_with_constant (e : Expr)
    (h : ∀ a ∈ e.parts, a.isArithmetic = true ∧ a.dividesByZero = false) :
    ∃ p v, e.constant? = some v ∧ e.simplify = .number p v ∧
      ∀ (pos : Position) (name : String) (f : MathFunction),
        Builtin.ofName? name = some (.math f) →
        Judges pos name (.math f) e v ∧
        ∀ (env : Env) (n : Nat), Makes ((call pos name [e]).simplify.lower env) n
          [⟨.ordinary, .call ⟨n⟩ f (.literal v)⟩] (.temp ⟨n⟩) (n + 1) := by
  obtain ⟨p, v, hv, hsimplify⟩ := exists_constant e h
  refine ⟨p, v, hv, hsimplify, fun pos name f hf => ⟨?_, fun env n => ?_⟩⟩
  · exact judges_of_constant hf (check_of_isArithmetic e fun a ha => (h a ha).1) hv
  · rw [simplify, simplifyList, simplifyList, hsimplify, lower_call hf]
    exact makes_bind.2 ⟨_, _, _, _, makes_pure.2 ⟨rfl, rfl, rfl⟩,
      makes_bind.2 ⟨_, _, _, _, Straight.makes_define.2 ⟨rfl, rfl, rfl⟩,
        makes_pure.2 ⟨rfl, rfl, rfl⟩, rfl⟩, rfl⟩

/-- `1 - 2 / 2`, inside `LOG(1 - 2 / 2)`. -/
def spent : Expr :=
  binary ⟨1, 12⟩ (.arith .sub) (number ⟨1, 10⟩ 1.0)
    (binary ⟨1, 16⟩ (.arith .div) (number ⟨1, 14⟩ 2.0) (number ⟨1, 18⟩ 2.0))

theorem simplify_agrees_with_constant_spent :
    (∀ a ∈ spent.parts, a.isArithmetic = true ∧ a.dividesByZero = false) ∧
    spent.constant? = some 0.0 ∧ (∃ p, spent.simplify = .number p 0.0) ∧
    (call ⟨1, 6⟩ "LOG" [spent]).check.outcome
      = .error ⟨.outOfDomain "LOG" 0.0 .notPositive, ⟨1, 12⟩⟩ ∧
    Makes ((call ⟨1, 6⟩ "LOG" [spent]).simplify.lower ⟨.empty, .empty, []⟩) 3
      [⟨.ordinary, .call ⟨3⟩ .log (.literal 0.0)⟩] (.temp ⟨3⟩) 4 := by
  have hparts : ∀ a ∈ spent.parts, a.isArithmetic = true ∧ a.dividesByZero = false := by
    decide +kernel
  have hzero : spent.constant? = some 0.0 := by decide +kernel
  obtain ⟨p, v, hv, hsimplify, hcall⟩ := simplify_agrees_with_constant spent hparts
  obtain rfl : v = 0.0 := Option.some.inj (hv.symm.trans hzero)
  obtain ⟨hjudges, hmakes⟩ := hcall ⟨1, 6⟩ "LOG" .log (by decide +kernel)
  exact ⟨hparts, hzero, ⟨p, hsimplify⟩,
    (hjudges.2 .notPositive).2 ⟨by decide, by decide +kernel⟩, hmakes _ 3⟩

end Expr

end LineBasic
