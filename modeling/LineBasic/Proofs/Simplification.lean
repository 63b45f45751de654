/-
  LineBasic.Proofs.Simplification

  What simplification does to expressions, statements and programs, said once for
  everything that is proved about it: how an operator can come out, what becomes of a
  comparison, and that the lines of a simplified program are the simplified lines in
  the same order.
-/

import LineBasic.Proofs.Regions
import LineBasic.Lowering.Program
import LineBasic.Simplify

namespace LineBasic

-- ============================================================================
-- Expressions
-- ============================================================================

namespace Expr

variable {pos : Position} {op : BinaryOp} {l r e : Expr} {x y : Float}

/-- Literals are numbers as they are written. -/
theorem eq_number_of_literal? (h : e.literal? = some x) : ∃ pos, e = .number pos x := by
  cases e with
  | number pos y =>
    cases h
    exact ⟨pos, rfl⟩
  | _ => cases h

theorem exists_literal_of_isLiteral (h : e.isLiteral x = true) :
    ∃ y, e.literal? = some y ∧ (y == x) = true := by
  unfold isLiteral at h
  split at h
  · next y hy => exact ⟨y, hy, h⟩
  · cases h

/-- The ways in which an operator on simplified operands comes out. -/
inductive Outcome (pos : Position) (op : BinaryOp) (l r : Expr) : Expr → Prop
  /-- It stays. -/
  | kept : Outcome pos op l r (.binary pos op l r)
  /-- Both operands are literals. -/
  | worked {x y : Float} (lhs : l.literal? = some x) (rhs : r.literal? = some y) :
      Outcome pos op l r (.number pos (op.apply x y))
  /-- A factor is zero. -/
  | zero (mul : op = .arith .mul) (factor : l.isLiteral 0.0 = true ∨ r.isLiteral 0.0 = true) :
      Outcome pos op l r (.number pos 0.0)
  /-- The right operand changes nothing. -/
  | left {a : Arith} {y : Float} (arith : op = .arith a) (rhs : r.literal? = some y) :
      Outcome pos op l r l
  /-- The left operand changes nothing. -/
  | right {a : Arith} {x : Float} (arith : op = .arith a) (lhs : l.literal? = some x) :
      Outcome pos op l r r

/-- Dropping an operand that changes nothing has one of the outcomes, operator by operator. -/
theorem Outcome.dropNeutral : Outcome pos op l r (dropNeutral pos op l r) := by
  cases op with
  | compare rel => exact .kept
  | arith a =>
    cases a with
    | add =>
      rw [Expr.dropNeutral]
      split
      · next hzero =>
        obtain ⟨x, hx, -⟩ := exists_literal_of_isLiteral hzero
        exact .right rfl hx
      · split
        · next hzero =>
          obtain ⟨y, hy, -⟩ := exists_literal_of_isLiteral hzero
          exact .left rfl hy
        · exact .kept
    | sub =>
      rw [Expr.dropNeutral]
      split
      · next hzero =>
        obtain ⟨y, hy, -⟩ := exists_literal_of_isLiteral hzero
        exact .left rfl hy
      · exact .kept
    | mul =>
      rw [Expr.dropNeutral]
      split
      · next hzero => exact .zero rfl (Bool.or_eq_true_iff.1 hzero)
      · split
        · next hone =>
          obtain ⟨x, hx, -⟩ := exists_literal_of_isLiteral hone
          exact .right rfl hx
        · split
          · next hone =>
            obtain ⟨y, hy, -⟩ := exists_literal_of_isLiteral hone
            exact .left rfl hy
          · exact .kept
    | div =>
      rw [Expr.dropNeutral]
      split
      · next hone =>
        obtain ⟨y, hy, -⟩ := exists_literal_of_isLiteral hone
        exact .left rfl hy
      · exact .kept

/-- An operator on simplified operands has one of the outcomes. -/
theorem Outcome.simplifyBinary : Outcome pos op l r (simplifyBinary pos op l r) := by
  unfold Expr.simplifyBinary
  split
  · next hl hr =>
    split
    · exact .kept
    · exact .worked hl hr
  · exact .dropNeutral

/-- A product with a factor zero is a literal. -/
theorem simplifyBinary_mul_zero (h : l.isLiteral 0.0 = true ∨ r.isLiteral 0.0 = true) :
    ∃ x, simplifyBinary pos (.arith .mul) l r = .number pos x := by
  unfold simplifyBinary
  split
  · rw [if_neg (by simp)]
    exact ⟨_, rfl⟩
  · refine ⟨0.0, ?_⟩
    rw [dropNeutral, if_pos (Bool.or_eq_true_iff.2 h)]

/-- A comparison is worked out or stays a comparison. -/
theorem isComparison_simplify (h : e.isComparison = true) :
    e.simplify.literal? ≠ none ∨ e.simplify.isComparison = true := by
  cases e with
  | binary pos op l r =>
    cases op with
    | arith a => cases h
    | compare rel =>
      rw [simplify]
      generalize hout : simplifyBinary pos (.compare rel) l.simplify r.simplify = out
      have houtcome : Outcome pos (.compare rel) l.simplify r.simplify out :=
        hout ▸ Outcome.simplifyBinary
      cases houtcome with
      | kept => exact .inr rfl
      | worked hl hr => exact .inl (by simp [literal?])
      | zero hmul _ => cases hmul
      | left harith _ => cases harith
      | right harith _ => cases harith
  | _ => cases h

/-- An operator on operands that stay as they are comes to something that stays. -/
theorem simplify_simplifyBinary (hl : l.simplify = l) (hr : r.simplify = r) :
    (simplifyBinary pos op l r).simplify = simplifyBinary pos op l r := by
  generalize hout : simplifyBinary pos op l r = out
  have houtcome : Outcome pos op l r out := hout ▸ Outcome.simplifyBinary
  cases houtcome with
  | kept => rw [simplify, hl, hr, hout]
  | worked _ _ => rfl
  | zero _ _ => rfl
  | left _ _ => exact hl
  | right _ _ => exact hr

theorem simplify_simplifySigned {sign : Sign} (he : e.simplify = e) :
    (simplifySigned pos sign e).simplify = simplifySigned pos sign e := by
  cases sign with
  | plus => exact he
  | minus =>
    rw [simplifySigned]
    split
    · rfl
    · next hnone => rw [simplify, he, simplifySigned, hnone]

mutual

/-- A simplified expression cannot be simplified further. -/
theorem simplify_simplify (e : Expr) : e.simplify.simplify = e.simplify := by
  match e with
  | .number pos x => rfl
  | .text pos s => rfl
  | .var pos x => rfl
  | .unary pos sign operand => exact simplify_simplifySigned (simplify_simplify operand)
  | .binary pos op lhs rhs =>
    exact simplify_simplifyBinary (simplify_simplify lhs) (simplify_simplify rhs)
  | .call pos name args => rw [simplify, simplify, simplifyList_simplifyList args]

theorem simplifyList_simplifyList (es : List Expr) :
    simplifyList (simplifyList es) = simplifyList es := by
  match es with
  | [] => rfl
  | e :: es =>
    rw [simplifyList, simplifyList, simplify_simplify e, simplifyList_simplifyList es]

end

end Expr

-- ============================================================================
-- Decisions
-- ============================================================================

/-- The ways in which a decision on a simplified condition comes out. -/
inductive Stmt.Decision (pos : Position) (condition : Expr) (target : Nat) : Option Stmt → Prop
  /-- It is known to fail. -/
  | fails {x : Float} (known : condition.literal? = some x) (zero : (x == 0.0) = true) :
      Decision pos condition target none
  /-- It is known to hold. -/
  | holds {x : Float} (known : condition.literal? = some x) (nonzero : (x == 0.0) = false) :
      Decision pos condition target (some (.goto pos target))
  /-- It stays. -/
  | stays (unknown : condition.literal? = none) :
      Decision pos condition target (some (.ifThen pos condition target))

/-- A decision is taken, dropped or left, by its simplified condition. -/
theorem Stmt.Decision.simplify? {pos : Position} {condition : Expr} {target : Nat}
    {out : Option Stmt} (h : (Stmt.ifThen pos condition target).simplify? = out) :
    Decision pos condition.simplify target out := by
  subst h
  rw [Stmt.simplify?, simplifyDecision]
  split
  · next x hx =>
    split
    · next hzero => exact .fails hx hzero
    · next hnonzero => exact .holds hx (Bool.eq_false_iff.2 hnonzero)
  · next hnone => exact .stays hnone

-- ============================================================================
-- Programs
-- ============================================================================

theorem Line.number_simplify (l : Line) : l.simplify.number = l.number := rfl

namespace Program

/-- Lines are placed by their numbers, which simplification does not change. -/
theorem map_simplify_place (line : Line) (ls : List Line) :
    (place line ls).map Line.simplify = place line.simplify (ls.map Line.simplify) := by
  induction ls with
  | nil => rfl
  | cons l ls ih =>
    rw [place, List.map_cons, place, Line.number_simplify, Line.number_simplify]
    by_cases hlt : line.number < l.number
    · rw [if_pos hlt, if_pos hlt]
      rfl
    · rw [if_neg hlt, if_neg hlt]
      by_cases heq : line.number = l.number
      · rw [if_pos heq, if_pos heq]
        rfl
      · rw [if_neg heq, if_neg heq, List.map_cons, ih]

/-- The lines of a simplified program run in the same order. -/
theorem listing_simplify (p : Program) : p.simplify.listing = p.listing.map Line.simplify := by
  unfold listing simplify
  induction p.lines with
  | nil => rfl
  | cons l ls ih => rw [List.map_cons, List.foldr_cons, ih, List.foldr_cons, map_simplify_place]

end Program

namespace Env

variable {env : Env}

/-- The surroundings of a simplified program. -/
def simplify (env : Env) : Env := { env with lines := env.lines.map Line.simplify }

theorem hasLine_simplify (n : Nat) : env.simplify.hasLine n = env.hasLine n := by
  rw [hasLine, simplify, List.any_map]
  rfl

theorem linesFrom_simplify (n : Nat) :
    env.simplify.linesFrom n = (env.linesFrom n).map Line.simplify := by
  rw [linesFrom, simplify, List.dropWhile_map]
  rfl

theorem ends_simplify (s : Stmt) : env.simplify.ends s = env.ends s := by
  cases s with
  | goto pos target => exact hasLine_simplify target
  | _ => rfl

/-- Simplification leaves alone what ends. -/
theorem simplify?_of_ends {s : Stmt} (h : env.ends s = true) : s.simplify? = some s := by
  cases s with
  | goto pos target => rfl
  | return_ pos => rfl
  | end_ pos => rfl
  | _ => cases h

/-- If nothing that is left ends a line, nothing did. -/
theorem any_ends_simplify {ss : List Stmt}
    (h : (ss.filterMap Stmt.simplify?).any env.simplify.ends = false) :
    ss.any env.ends = false := by
  rw [List.any_eq_false] at h ⊢
  intro s hs hends
  refine h s (List.mem_filterMap.2 ⟨s, hs, simplify?_of_ends hends⟩) ?_
  rw [ends_simplify]
  exact hends

/-- What gets code on a simplified line is what is left of something that gets code on
    the line.  A decision that has become a jump may cut off more. -/
theorem exists_of_mem_emitted_simplify {t : Stmt} {ss : List Stmt}
    (h : t ∈ env.simplify.emitted (ss.filterMap Stmt.simplify?)) :
    ∃ s ∈ env.emitted ss, s.simplify? = some t := by
  induction ss with
  | nil => cases h
  | cons s ss ih =>
    -- What ends the line does so simplified, too, and nothing behind it counts.
    by_cases hends : env.ends s = true
    · rw [List.filterMap_cons_some (simplify?_of_ends hends),
        emitted_cons_of_ends (by rw [ends_simplify]; exact hends)] at h
      rw [List.mem_singleton.1 h, emitted_cons_of_ends hends]
      exact ⟨s, List.mem_singleton.2 rfl, simplify?_of_ends hends⟩
    · rw [emitted_cons_of_not_ends (Bool.eq_false_iff.2 hends)]
      cases hs : s.simplify? with
      | none =>
        rw [List.filterMap_cons_none hs] at h
        obtain ⟨s', hs', ht⟩ := ih h
        exact ⟨s', List.mem_cons_of_mem s hs', ht⟩
      | some s₁ =>
        rw [List.filterMap_cons_some hs, emitted] at h
        -- A decision that always holds becomes a jump, which may end the line earlier.
        have hcases : t = s₁ ∨ t ∈ env.simplify.emitted (ss.filterMap Stmt.simplify?) := by
          split at h
          · exact .inl (List.mem_singleton.1 h)
          · exact List.mem_cons.1 h
        rcases hcases with rfl | hrest
        · exact ⟨s, List.mem_cons_self, hs⟩
        · obtain ⟨s', hs', ht⟩ := ih hrest
          exact ⟨s', List.mem_cons_of_mem s hs', ht⟩

/-- What stands in a simplified subroutine is left of something in the subroutine. -/
theorem exists_of_mem_region_simplify {t : Stmt} {ls : List Line}
    (h : t ∈ env.simplify.region (ls.map Line.simplify)) :
    ∃ s ∈ env.region ls, s.simplify? = some t := by
  induction ls with
  | nil => cases h
  | cons l ls ih =>
    rcases List.mem_append.1 h with hfirst | hrest
    · obtain ⟨s, hs, ht⟩ := exists_of_mem_emitted_simplify hfirst
      exact ⟨s, List.mem_append_left _ hs, ht⟩
    · split at hrest
      · cases hrest
      · next hgoes =>
        have hline : l.stmts.any env.ends = false :=
          any_ends_simplify (Bool.eq_false_iff.2 hgoes)
        obtain ⟨s, hs, ht⟩ := ih hrest
        rw [region, hline]
        exact ⟨s, List.mem_append_right _ hs, ht⟩

end Env

theorem Program.env_simplify (p : Program) (inventory : Inventory) :
    p.simplify.env inventory = (p.env inventory).simplify := by
  rw [Program.env, Program.listing_simplify]
  rfl

end LineBasic
