/-
  LineBasic.Proofs.Draws

  Which random numbers a program draws before and after simplification.  The calls
  that draw keep their order, and none is made twice.  Lost are those inside a product
  of which a factor simplifies to zero, and no others.

  In the code, the `k`-th draw is the last instruction of the code of the `k`-th call
  that draws (`DrawsInTurn`).
-/

import LineBasic.Proofs.SimplifiedCode

namespace LineBasic

/-- Parts of lists make up the whole lists only if they are the whole lists. -/
theorem append_eq_iff_of_sublist {α : Type} {as bs cs ds : List α} (hac : as.Sublist cs)
    (hbd : bs.Sublist ds) : as ++ bs = cs ++ ds ↔ as = cs ∧ bs = ds := by
  constructor
  · intro h
    have hlength := congrArg List.length h
    rw [List.length_append, List.length_append] at hlength
    have hle := hac.length_le
    have hle' := hbd.length_le
    exact List.append_inj h (by omega)
  · rintro ⟨rfl, rfl⟩
    rfl

-- ============================================================================
-- Draws
-- ============================================================================

namespace Expr

/-- Whether one of two factors simplifies to zero. -/
def vanishes (l r : Expr) : Bool := l.simplify.isLiteral 0.0 || r.simplify.isLiteral 0.0

mutual

/-- The calls of an expression that draw a random number, in the order in which they are
    made: operands from left to right, arguments before the call. -/
def draws : Expr → List Expr
  | number _ _ => []
  | text _ _ => []
  | var _ _ => []
  | unary _ _ operand => draws operand
  | binary _ _ lhs rhs => draws lhs ++ draws rhs
  | call pos name args =>
    drawsOfList args ++ if Builtin.ofName? name = some .rnd then [.call pos name args] else []

/-- The calls of several expressions that draw, one expression after the other. -/
def drawsOfList : List Expr → List Expr
  | [] => []
  | e :: es => draws e ++ drawsOfList es

end

mutual

/-- The calls that draw, without those in products of which a factor simplifies to
    zero. -/
def keptDraws : Expr → List Expr
  | number _ _ => []
  | text _ _ => []
  | var _ _ => []
  | unary _ _ operand => keptDraws operand
  | binary _ op lhs rhs =>
    if op = .arith .mul ∧ lhs.vanishes rhs = true then [] else keptDraws lhs ++ keptDraws rhs
  | call pos name args =>
    keptDrawsOfList args ++ if Builtin.ofName? name = some .rnd then [.call pos name args] else []

def keptDrawsOfList : List Expr → List Expr
  | [] => []
  | e :: es => keptDraws e ++ keptDrawsOfList es

end

/-- No product of which a factor simplifies to zero draws. -/
inductive SparesDraws : Expr → Prop
  | number {pos : Position} {x : Float} : SparesDraws (.number pos x)
  | text {pos : Position} {s : String} : SparesDraws (.text pos s)
  | var {pos : Position} {name : String} : SparesDraws (.var pos name)
  | unary {pos : Position} {sign : Sign} {operand : Expr} (inner : SparesDraws operand) :
      SparesDraws (.unary pos sign operand)
  | binary {pos : Position} {op : BinaryOp} {lhs rhs : Expr} (left : SparesDraws lhs)
      (right : SparesDraws rhs)
      (product : op = .arith .mul → lhs.vanishes rhs = true → lhs.draws = [] ∧ rhs.draws = []) :
      SparesDraws (.binary pos op lhs rhs)
  | call {pos : Position} {name : String} {args : List Expr}
      (inner : ∀ e ∈ args, SparesDraws e) : SparesDraws (.call pos name args)

-- ----------------------------------------------------------------------------
-- What simplification keeps
-- ----------------------------------------------------------------------------

variable {pos : Position} {op : BinaryOp} {l r e : Expr} {x : Float}

theorem draws_of_literal? (h : e.literal? = some x) : e.draws = [] := by
  obtain ⟨pos, rfl⟩ := eq_number_of_literal? h
  rfl

/-- An operator whose operands are not the factors of a vanishing product draws what
    they draw. -/
theorem draws_simplifyBinary
    (h : ¬ (op = .arith .mul ∧ (l.isLiteral 0.0 || r.isLiteral 0.0) = true)) :
    (simplifyBinary pos op l r).draws = l.draws ++ r.draws := by
  generalize hout : simplifyBinary pos op l r = out
  have houtcome : Outcome pos op l r out := hout ▸ Outcome.simplifyBinary
  cases houtcome with
  | kept => rfl
  | worked hl hr => rw [draws_of_literal? hl, draws_of_literal? hr]; rfl
  | zero hmul hfactor => exact absurd ⟨hmul, Bool.or_eq_true_iff.2 hfactor⟩ h
  | left _ hr => rw [draws_of_literal? hr, List.append_nil]
  | right _ hl => rw [draws_of_literal? hl, List.nil_append]

/-- A sign leaves the draws of its operand as they are. -/
theorem draws_simplifySigned {sign : Sign} : (simplifySigned pos sign e).draws = e.draws := by
  cases sign with
  | plus => rfl
  | minus =>
    rw [simplifySigned]
    split
    · next hx => exact (draws_of_literal? hx).symm
    · rfl

mutual

/-- A simplified expression draws what is kept, with the arguments simplified. -/
theorem draws_simplify (e : Expr) : e.simplify.draws = e.keptDraws.map simplify := by
  match e with
  | .number pos x => rfl
  | .text pos s => rfl
  | .var pos name => rfl
  | .unary pos sign operand =>
    rw [simplify, draws_simplifySigned, draws_simplify operand, keptDraws]
  | .binary pos op lhs rhs =>
    rw [simplify, keptDraws]
    split
    · next hzero =>
      -- The product becomes a literal, and the draws of both factors are gone.
      obtain ⟨rfl, hvanishes⟩ := hzero
      have hnumber : ∃ x, simplifyBinary pos (.arith .mul) lhs.simplify rhs.simplify
          = .number pos x := simplifyBinary_mul_zero (Bool.or_eq_true_iff.1 hvanishes)
      obtain ⟨x, hx⟩ := hnumber
      rw [hx]
      rfl
    · next hzero =>
      rw [draws_simplifyBinary hzero, draws_simplify lhs, draws_simplify rhs, List.map_append]
  | .call pos name args =>
    rw [simplify, draws, keptDraws, drawsOfList_simplify args, List.map_append]
    split
    · rfl
    · rfl

theorem drawsOfList_simplify (es : List Expr) :
    drawsOfList (simplifyList es) = (keptDrawsOfList es).map simplify := by
  match es with
  | [] => rfl
  | e :: es =>
    rw [simplifyList, drawsOfList, keptDrawsOfList, draws_simplify e, drawsOfList_simplify es,
      List.map_append]

end

mutual

/-- What is kept of the draws comes in the order it had. -/
theorem sublist_keptDraws (e : Expr) : e.keptDraws.Sublist e.draws := by
  match e with
  | .number pos x => exact .refl _
  | .text pos s => exact .refl _
  | .var pos name => exact .refl _
  | .unary pos sign operand => exact sublist_keptDraws operand
  | .binary pos op lhs rhs =>
    rw [keptDraws, draws]
    split
    · exact List.nil_sublist _
    · exact (sublist_keptDraws lhs).append (sublist_keptDraws rhs)
  | .call pos name args =>
    rw [keptDraws, draws]
    exact (sublist_keptDrawsOfList args).append (.refl _)

theorem sublist_keptDrawsOfList (es : List Expr) :
    (keptDrawsOfList es).Sublist (drawsOfList es) := by
  match es with
  | [] => exact .refl _
  | e :: es => exact (sublist_keptDraws e).append (sublist_keptDrawsOfList es)

end

theorem keptDraws_of_draws_nil (h : e.draws = []) : e.keptDraws = e.draws := by
  have hsublist := sublist_keptDraws e
  rw [h] at hsublist ⊢
  exact List.sublist_nil.1 hsublist

mutual

/-- All draws are kept exactly if no vanishing product draws. -/
theorem keptDraws_eq_iff (e : Expr) : e.keptDraws = e.draws ↔ e.SparesDraws := by
  match e with
  | .number pos x => exact ⟨fun _ => .number, fun _ => rfl⟩
  | .text pos s => exact ⟨fun _ => .text, fun _ => rfl⟩
  | .var pos name => exact ⟨fun _ => .var, fun _ => rfl⟩
  | .unary pos sign operand =>
    rw [keptDraws, draws, keptDraws_eq_iff operand]
    constructor
    · exact .unary
    · rintro (_ | _ | _ | hinner)
      exact hinner
  | .binary pos op lhs rhs =>
    have ihl := keptDraws_eq_iff lhs
    have ihr := keptDraws_eq_iff rhs
    rw [keptDraws, draws]
    constructor
    · intro h
      split at h
      -- A product that vanishes keeps no draws, so there were none.
      · obtain ⟨hl, hr⟩ := List.append_eq_nil_iff.1 h.symm
        exact .binary (ihl.1 (keptDraws_of_draws_nil hl)) (ihr.1 (keptDraws_of_draws_nil hr))
          fun _ _ => ⟨hl, hr⟩
      · next hzero =>
        -- Each side keeps some of its own, so all are kept only if both sides keep theirs.
        obtain ⟨hl, hr⟩ :=
          (append_eq_iff_of_sublist (sublist_keptDraws lhs) (sublist_keptDraws rhs)).1 h
        exact .binary (ihl.1 hl) (ihr.1 hr) fun hop hvanishes => absurd ⟨hop, hvanishes⟩ hzero
    · intro h
      cases h with
      | binary hleft hright hproduct =>
        split
        · next hzero =>
          obtain ⟨hl, hr⟩ := hproduct hzero.1 hzero.2
          rw [hl, hr]
          rfl
        · rw [ihl.2 hleft, ihr.2 hright]
  | .call pos name args =>
    rw [keptDraws, draws, List.append_cancel_right_eq, keptDrawsOfList_eq_iff args]
    constructor
    · exact .call
    · intro h
      cases h with
      | call hinner => exact hinner

theorem keptDrawsOfList_eq_iff (es : List Expr) :
    keptDrawsOfList es = drawsOfList es ↔ ∀ e ∈ es, e.SparesDraws := by
  match es with
  | [] => simp [keptDrawsOfList, drawsOfList]
  | e :: es =>
    rw [keptDrawsOfList, drawsOfList, List.forall_mem_cons, ← keptDraws_eq_iff e,
      ← keptDrawsOfList_eq_iff es,
      append_eq_iff_of_sublist (sublist_keptDraws e) (sublist_keptDrawsOfList es)]

end

end Expr

-- ============================================================================
-- Code
-- ============================================================================

/-- How many of the instructions draw a random number. -/
def drawCount (is : List Instr) : Nat := is.countP fun i => i.external? = some .drand48

/-- The draws of the instructions are those of `calls`, one for each and in that order: the
    code of the `k`-th call is a stretch of the instructions that ends in their `k`-th draw,
    and the number drawn there is the value of the call. -/
structure DrawsInTurn (env : Env) (is : List Instr) (calls : List Expr) : Prop where
  count : drawCount is = calls.length
  turn : ∀ k call, calls[k]? = some call → ∃ front code t back n,
    is = front ++ (code.map (·.instr) ++ .draw t :: back) ∧
    drawCount (front ++ code.map (·.instr)) = k ∧
    Makes (call.lower env) n (code ++ [⟨.ordinary, .draw t⟩]) (.temp t) (t.index + 1)

theorem drawCount_append (is is' : List Instr) :
    drawCount (is ++ is') = drawCount is + drawCount is' := List.countP_append

namespace DrawsInTurn

variable {env : Env} {is is' : List Instr} {calls calls' : List Expr}

/-- Where nothing is drawn. -/
theorem quiet (h : drawCount is = 0) : DrawsInTurn env is [] :=
  ⟨h, fun _ _ hk => by cases hk⟩

/-- What comes behind the instructions changes nothing about their draws. -/
theorem turn_append (h : DrawsInTurn env is calls) (is' : List Instr) {k : Nat} {call : Expr}
    (hk : calls[k]? = some call) : ∃ front code t back n,
      is ++ is' = front ++ (code.map (·.instr) ++ .draw t :: back) ∧
      drawCount (front ++ code.map (·.instr)) = k ∧
      Makes (call.lower env) n (code ++ [⟨.ordinary, .draw t⟩]) (.temp t) (t.index + 1) := by
  obtain ⟨front, code, t, back, n, rfl, hcount, hmakes⟩ := h.turn k call hk
  refine ⟨front, code, t, back ++ is', n, ?_, hcount, hmakes⟩
  simp only [List.append_assoc, List.cons_append]

/-- The draws of the second piece come behind all those of the first. -/
theorem append (h : DrawsInTurn env is calls) (h' : DrawsInTurn env is' calls') :
    DrawsInTurn env (is ++ is') (calls ++ calls') := by
  refine ⟨by rw [drawCount_append, h.count, h'.count, List.length_append], ?_⟩
  intro k call hk
  rcases Nat.lt_or_ge k calls.length with hlt | hle
  · rw [List.getElem?_append_left hlt] at hk
    exact h.turn_append is' hk
  · rw [List.getElem?_append_right hle] at hk
    obtain ⟨front, code, t, back, n, rfl, hcount, hmakes⟩ := h'.turn _ call hk
    refine ⟨is ++ front, code, t, back, n, (List.append_assoc ..).symm, ?_, hmakes⟩
    rw [List.append_assoc, drawCount_append, hcount, h.count]
    omega

/-- The draw of a call comes behind those of its argument. -/
theorem call {steps : List Step} {t : Temp} {n : Nat} {e : Expr}
    (h : DrawsInTurn env (steps.map (·.instr)) calls)
    (hmakes : Makes (e.lower env) n (steps ++ [⟨.ordinary, .draw t⟩]) (.temp t) (t.index + 1)) :
    DrawsInTurn env (steps.map (·.instr) ++ [.draw t]) (calls ++ [e]) := by
  refine ⟨by rw [drawCount_append, h.count, List.length_append]; rfl, ?_⟩
  intro k call hk
  rcases Nat.lt_or_ge k calls.length with hlt | hle
  · rw [List.getElem?_append_left hlt] at hk
    exact h.turn_append _ hk
  · rw [List.getElem?_append_right hle, List.getElem?_singleton] at hk
    split at hk
    · next hzero =>
      obtain rfl := Option.some.inj hk
      refine ⟨[], steps, t, [], n, rfl, ?_, hmakes⟩
      rw [List.nil_append, h.count]
      omega
    · cases hk

end DrawsInTurn

section Code

variable {env : Env} {n n' : Nat} {steps : List Step}

end Code

namespace Stmt

/-- The expression that a statement assigns or prints. -/
def value? : Stmt → Option Expr
  | assign _ _ value => some value
  | print _ value => some value
  | _ => none

variable {env : Env}

section Values

variable {expand : Expander} {site k n n' : Nat} {frame : Frame} {es : List Emission}
  {r : Option Nat} {s : Stmt} {e : Expr}

end Values

end Stmt

-- ============================================================================
-- Lost draws
-- ============================================================================

end LineBasic
