/-
  LineBasic.Proofs.FoldedValues

  Simplification keeps the value of an expression, as its code works it out, up to the
  sign of zero, as long as nothing in the expression comes to an infinite or undefined
  value.  Operands are simplified before the operator that is applied to them, so what is
  shown of each rewriting is that it keeps the value that the operator has on the values
  of the simplified operands (`alike_simplifyBinary`, `alike_simplifySigned`).  These differ
  from the values of the operands as they were written in the signs of zeros, to which
  operators and functions pay no heed.
-/

import LineBasic.Proofs.DoubleArithmetic
import LineBasic.Proofs.Draws
import LineBasic.Proofs.ExpressionCode
import LineBasic.Proofs.NormalForms

namespace LineBasic

open Double StateTransition

-- ============================================================================
-- What code computes
-- ============================================================================

section Computed

variable {lib : Library} {env : Env} {σ : String → Float} {w : lib.Outer} {e : Expr} {v u : Float}

/-- The code of an expression computes `v` when the variables hold `σ`: there is code,
    wherever it is made, and run wherever it stands it leaves `v` and does nothing to the
    world. -/
def Expr.Yields (lib : Library) (env : Env) (σ : String → Float) (w : lib.Outer) (e : Expr)
    (v : Float) : Prop :=
  ∀ (site : Option Nat) (n : Nat), ∃ es o n',
    Makes (Lower.straight site (e.lower env)) n es o n' ∧
      Code.Computes lib.meaning env.texts.toList n es σ w w fun ρ' => o.value? ρ' = some v

/-- Code ends in one way only. -/
theorem Code.Computes.both {M : Meaning} {texts : List String} {n : Nat} {es : List Emission}
    {σ : String → M.Num} {w w' w'' : M.Outer} {post post' : Regs M → Prop}
    (h : Code.Computes M texts n es σ w w' post) (h' : Code.Computes M texts n es σ w w'' post') :
    ∃ ρ, post ρ ∧ post' ρ := by
  obtain ⟨ρ, done, hruns, -, hpost⟩ := h ⟨texts, [], 0, 0, 0⟩ [] .empty [] rfl
  obtain ⟨ρ', done', hruns', -, hpost'⟩ := h' ⟨texts, [], 0, 0, 0⟩ [] .empty [] rfl
  have hsame := Part.mem_unique (mem_eval.2 ⟨hruns, rfl⟩) (mem_eval.2 ⟨hruns', rfl⟩)
  cases hsame
  exact ⟨ρ, hpost, hpost'⟩

/-- An expression comes to one value. -/
theorem Expr.Yields.unique (h : e.Yields lib env σ w v) (h' : e.Yields lib env σ w u) : u = v := by
  obtain ⟨es, o, n', hmakes, hcomputes⟩ := h none 0
  obtain ⟨es', o', n'', hmakes', hcomputes'⟩ := h' none 0
  cases (show _ = _ from hmakes).symm.trans hmakes'
  obtain ⟨ρ, hv, hu⟩ := hcomputes.both hcomputes'
  exact Option.some.inj (hu.symm.trans hv)

theorem Expr.Yields.yields_iff (h : e.Yields lib env σ w v) : e.Yields lib env σ w u ↔ u = v := by
  constructor
  · exact h.unique
  · rintro rfl
    exact h

/-- The code of a typed expression computes its value. -/
theorem Expr.Evaluates.yields (h : e.Evaluates lib.meaning σ w v w)
    (hty : e.HasTy env.names env.texts .number) : e.Yields lib env σ w v := by
  intro site n
  have hsettles : Settles (fun _ => False) (Lower.straight site (e.lower env)) fun _ => True :=
    .straight (settles_lower hty rfl)
  obtain ⟨es, o, n', hmakes, -⟩ := hsettles.makes n
  obtain ⟨u, w', hu, hcomputes⟩ := computes_lower lib.standard_meaning hmakes σ w
  obtain ⟨rfl, rfl⟩ := h.unique hu
  exact ⟨es, o, n', hmakes, hcomputes⟩

end Computed

-- ============================================================================
-- Functions
-- ============================================================================

/-- The functions and the conversions of a library pay no heed to the sign of zero, except
    for that of a zero that they give. -/
structure Library.HeedsNoSign (lib : Library) : Prop where
  fix : ∀ {x y : Float}, Alike x y →
    Alike (lib.ofInteger (lib.toInteger x)) (lib.ofInteger (lib.toInteger y))
  csng : ∀ {x y : Float}, Alike x y →
    Alike (lib.ofSingle (lib.toSingle x)) (lib.ofSingle (lib.toSingle y))
  math : ∀ (f : MathFunction) {x y : Float}, Alike x y → Alike (lib.call f x) (lib.call f y)

section Steps

variable {lib : Library} {σ : String → Float} {w : lib.Outer} {pos : Position} {e l r : Expr}
  {x x' y y' : Float}

/-- Functions other than draws give alike results for alike arguments. -/
theorem Builtin.exists_gives (hlib : lib.HeedsNoSign) {b : Builtin} (hb : b ≠ .rnd)
    (h : Alike x' x) (w : lib.Outer) :
    ∃ v u : Float, b.Gives lib.meaning x w v w ∧ b.Gives lib.meaning x' w u w ∧ Alike u v := by
  cases b with
  | math f => exact ⟨_, _, .math, .math, hlib.math f h⟩
  | fix => exact ⟨_, _, .fix, .fix, hlib.fix h⟩
  | csng => exact ⟨_, _, .csng, .csng, hlib.csng h⟩
  | cdbl => exact ⟨_, _, .cdbl, .cdbl, h⟩
  | rnd => exact absurd rfl hb
  | sgn =>
    have habove := Relation.ordered_alike .gt h (.refl 0.0)
    have hbelow := Relation.ordered_alike .lt h (.refl 0.0)
    exact ⟨_, _, .sgn, .sgn, .inl (congrArg₂ (fun a b => truth a - truth b) habove hbelow)⟩

-- ============================================================================
-- One rewriting
-- ============================================================================

namespace Expr

theorem eq_of_literal? (h : e.literal? = some x) (he : e.Evaluates lib.meaning σ w y w) :
    y = x := by
  obtain ⟨pos, rfl⟩ := eq_number_of_literal? h
  exact (Evaluates.number.unique he).1

theorem beq_of_isLiteral (h : e.isLiteral x = true) (he : e.Evaluates lib.meaning σ w y w) :
    (y == x) = true := by
  obtain ⟨z, hz, hbeq⟩ := exists_literal_of_isLiteral h
  rw [eq_of_literal? hz he, hbeq]

variable (hl : l.Evaluates lib.meaning σ w x w) (hr : r.Evaluates lib.meaning σ w y w)
  (hx : x.isFinite = true) (hy : y.isFinite = true)

include hl hr hx hy

/-- Dropping an operand that changes nothing keeps the value of the operator. -/
theorem alike_dropNeutral (pos : Position) (op : Arith) :
    ∃ u, (dropNeutral pos (.arith op) l r).Evaluates lib.meaning σ w u w ∧
      Alike u (op.apply x y) := by
  have hkept : ∃ u, (binary pos (.arith op) l r).Evaluates lib.meaning σ w u w ∧
      Alike u (op.apply x y) := ⟨_, .arith hl hr, .refl _⟩
  cases op with
  | add =>
    rw [dropNeutral]
    split
    · next hzero => exact ⟨y, hr, (zero_add (beq_of_isLiteral hzero hl) hy).symm⟩
    · split
      · next hzero => exact ⟨x, hl, (add_zero (beq_of_isLiteral hzero hr) hx).symm⟩
      · exact hkept
  | sub =>
    rw [dropNeutral]
    split
    · next hzero => exact ⟨x, hl, (sub_zero (beq_of_isLiteral hzero hr) hx).symm⟩
    · exact hkept
  | mul =>
    rw [dropNeutral]
    split
    · next hfactor =>
      -- The product is a zero whose sign the literal may have lost.
      refine ⟨(0.0 : Float), .number, .inr ⟨beq_zero_zero, ?_⟩⟩
      rcases Bool.or_eq_true_iff.1 hfactor with hfactor | hfactor
      · exact zero_mul (beq_of_isLiteral hfactor hl) hy
      · exact mul_zero (beq_of_isLiteral hfactor hr) hx
    · split
      · next hone =>
        obtain rfl := eq_one_of_beq (beq_of_isLiteral hone hl)
        exact ⟨y, hr, .inl (one_mul hy).symm⟩
      · split
        · next hone =>
          obtain rfl := eq_one_of_beq (beq_of_isLiteral hone hr)
          exact ⟨x, hl, .inl (mul_one hx).symm⟩
        · exact hkept
  | div =>
    rw [dropNeutral]
    split
    · next hone =>
      obtain rfl := eq_one_of_beq (beq_of_isLiteral hone hr)
      exact ⟨x, hl, .inl (div_one hx).symm⟩
    · exact hkept

/-- Simplifying an operator on numbers keeps its value. -/
theorem alike_simplifyBinary (pos : Position) (op : Arith) :
    ∃ u, (simplifyBinary pos (.arith op) l r).Evaluates lib.meaning σ w u w ∧
      Alike u (op.apply x y) := by
  unfold simplifyBinary
  split
  · next a b ha hb =>
    split
    · exact ⟨_, .arith hl hr, .refl _⟩
    · rw [eq_of_literal? ha hl, eq_of_literal? hb hr]
      exact ⟨_, .number, .refl _⟩
  · exact alike_dropNeutral hl hr hx hy pos op

/-- Simplifying a comparison of numbers keeps its outcome. -/
theorem evaluates_simplifyBinary (pos : Position) (rel : Relation) :
    (simplifyBinary pos (.compare rel) l r).Evaluates lib.meaning σ w
      (truth (rel.ordered x y)) w := by
  unfold simplifyBinary
  split
  · next a b ha hb =>
    obtain rfl := eq_of_literal? ha hl
    obtain rfl := eq_of_literal? hb hr
    rw [if_neg (by simp), rel.ordered_of_isFinite hx hy]
    exact .number
  · exact .compare hl hr

end Expr

/-- Simplifying a minus keeps its value. -/
theorem Expr.alike_simplifySigned (he : e.Evaluates lib.meaning σ w x w) (hx : x.isFinite = true) :
    ∃ u, (simplifySigned pos .minus e).Evaluates lib.meaning σ w u w ∧ Alike u (0.0 - x) := by
  rw [simplifySigned]
  split
  · next a ha =>
    obtain rfl := eq_of_literal? ha he
    exact ⟨_, .number, (sub_of_zero beq_zero_zero hx).symm⟩
  · exact ⟨_, .minus he, .refl _⟩

end Steps

-- ============================================================================
-- Whole expressions
-- ============================================================================

section Whole

variable {lib : Library} {env : Env} {σ : String → Float} {w : lib.Outer}

/-- An expression has a value, and its simplified form has one that is alike. -/
def Expr.KeepsValue (lib : Library) (σ : String → Float) (w : lib.Outer) (e : Expr) : Prop :=
  ∃ v u : Float, e.Evaluates lib.meaning σ w v w ∧ e.simplify.Evaluates lib.meaning σ w u w ∧
    Alike u v

/-- Where the parts of an expression have finite values, so have the expression and its
    simplified form. -/
theorem Expr.KeepsValue.finite {e : Expr} (h : e.KeepsValue lib σ w)
    (hty : e.HasTy env.names env.texts .number)
    (hfinite : ∀ a ∈ e.parts, ∀ v, a.Yields lib env σ w v → v.isFinite = true) :
    ∃ v u : Float, e.Evaluates lib.meaning σ w v w ∧ e.simplify.Evaluates lib.meaning σ w u w ∧
      v.isFinite = true ∧ u.isFinite = true ∧ Alike u v := by
  obtain ⟨v, u, hv, hu, halike⟩ := h
  have hfv := hfinite e e.mem_parts v (hv.yields hty)
  exact ⟨v, u, hv, hu, hfv, halike.isFinite hfv, halike⟩

/-- A typed expression keeps its value.  The induction is on the typing rules, since the
    code of a comparison depends on the type of what is compared. -/
theorem Expr.HasTy.keepsValue (hlib : lib.HeedsNoSign) {e : Expr} {ty : Ty}
    (h : e.HasTy env.names env.texts ty) (hty : ty = .number) (hdraws : e.draws = [])
    (hfinite : ∀ a ∈ e.parts, ∀ v, a.Yields lib env σ w v → v.isFinite = true) :
    e.KeepsValue lib σ w := by
  induction h with
  | number => exact ⟨_, _, .number, .number, .refl _⟩
  | text _ => cases hty
  | var _ => exact ⟨_, _, .var, .var, .refl _⟩
  | @unary pos sign e he ih =>
    have hparts : ∀ a ∈ e.parts, ∀ v, a.Yields lib env σ w v → v.isFinite = true :=
      fun a ha => hfinite a (List.mem_cons_of_mem _ ha)
    obtain ⟨v, u, hv, hu, -, hfu, halike⟩ := (ih rfl hdraws hparts).finite he hparts
    cases sign with
    | plus => exact ⟨v, u, .plus hv, hu, halike⟩
    | minus =>
      obtain ⟨u', hu', halike'⟩ := alike_simplifySigned hu hfu
      refine ⟨_, u', .minus hv, hu', halike'.trans ?_⟩
      exact Arith.apply_alike_right .sub (isFinite_of_beq_zero beq_zero_zero) halike
        (fun hop => by cases hop)
  | @compare pos rel l r ty hl hr ihl ihr =>
    cases ty with
    | text =>
      -- Texts are compared only as literals, which simplification leaves alone.
      cases hl with
      | text _ =>
        cases hr with
        | text _ => exact ⟨_, _, .compareTexts, .compareTexts, .refl _⟩
    | number =>
      obtain ⟨-, hlparts, hrparts⟩ : _ ∧ _ ∧ _ := by
        simpa only [parts, List.forall_mem_cons, List.forall_mem_append] using hfinite
      obtain ⟨hldraws, hrdraws⟩ := List.append_eq_nil_iff.1 hdraws
      obtain ⟨x, x', hx, hx', -, hfx', hxx⟩ := (ihl rfl hldraws hlparts).finite hl hlparts
      obtain ⟨y, y', hy, hy', -, hfy', hyy⟩ := (ihr rfl hrdraws hrparts).finite hr hrparts
      have hu := evaluates_simplifyBinary hx' hy' hfx' hfy' pos rel
      exact ⟨_, _, .compare hx hy, hu, .inl (congrArg truth (rel.ordered_alike hxx hyy))⟩
  | @arith pos op l r hl hr ihl ihr =>
    obtain ⟨hself, hlparts, hrparts⟩ : _ ∧ _ ∧ _ := by
      simpa only [parts, List.forall_mem_cons, List.forall_mem_append] using hfinite
    obtain ⟨hldraws, hrdraws⟩ := List.append_eq_nil_iff.1 hdraws
    obtain ⟨x, x', hx, hx', hfx, hfx', hxx⟩ := (ihl rfl hldraws hlparts).finite hl hlparts
    obtain ⟨y, y', hy, hy', hfy, hfy', hyy⟩ := (ihr rfl hrdraws hrparts).finite hr hrparts
    have hv : (binary pos (.arith op) l r).Evaluates lib.meaning σ w (op.apply x y) w :=
      .arith hx hy
    have hfv := hself _ (hv.yields (.arith hl hr))
    obtain ⟨u, hu, halike⟩ := alike_simplifyBinary hx' hy' hfx' hfy' pos op
    exact ⟨_, u, hv, hu, halike.trans (op.apply_alike hxx hyy hfx hfy hfv)⟩
  | @call pos name b e hb he ih =>
    obtain ⟨-, heparts⟩ : _ ∧ _ := by
      simpa only [parts, partsOfList, List.append_nil, List.forall_mem_cons] using hfinite
    obtain ⟨hedraws, hnone⟩ := List.append_eq_nil_iff.1 hdraws
    -- Nothing is drawn, so the function is not the random one.
    have hrnd : b ≠ .rnd := by
      rintro rfl
      rw [if_pos hb] at hnone
      cases hnone
    obtain ⟨x, x', hx, hx', hxx⟩ := ih rfl (List.append_eq_nil_iff.1 hedraws).1 heparts
    obtain ⟨v, u, hv, hu, halike⟩ := b.exists_gives hlib hrnd hxx w
    exact ⟨v, u, .call hb hx hv, .call hb hx' hu, halike⟩

/-- The simplified form of an expression that passes the check as a number and draws no
    random numbers has code, and the code computes what that of the expression does, up to
    the sign of zero.  This is so whenever no part of the expression has a value that is
    infinite or undefined. -/
theorem Expr.simplify_keeps_value (lib : Library) (hlib : lib.HeedsNoSign) (env : Env)
    (σ : String → Float) (w : lib.Outer) (e : Expr) (hcheck : e.check.outcome = .ok .number)
    (hnames : ∀ x ∈ e.names, x ∈ env.names) (htexts : ∀ s ∈ e.texts, s ∈ env.texts)
    (hdraws : e.draws = [])
    (hfinite : ∀ a ∈ e.parts, ∀ v, a.Yields lib env σ w v → v.isFinite = true) :
    ∃ v u, (∀ x, e.Yields lib env σ w x ↔ x = v) ∧
      (∀ x, e.simplify.Yields lib env σ w x ↔ x = u) ∧ Alike u v := by
  have hty : e.HasTy env.names env.texts .number := hasTy_of_check hcheck hnames htexts
  obtain ⟨v, u, hv, hu, halike⟩ := hty.keepsValue hlib rfl hdraws hfinite
  exact ⟨v, u, fun x => (hv.yields hty).yields_iff, fun x => (hu.yields hty.simplify).yields_iff,
    halike⟩

end Whole

-- ----------------------------------------------------------------------------
-- A sign that is lost
-- ----------------------------------------------------------------------------

/-- A library with the conversions to and from integers; its other functions do nothing. -/
def Library.whole : Library where
  toSurroundings := .bare
  Whole := Int64
  Single := Float
  toInteger x := x.toModel.toInt64
  ofInteger i := .ofModel (.ofInt64 i)
  toSingle := id
  ofSingle := id

theorem Library.heedsNoSign_whole : Library.whole.HeedsNoSign where
  fix h := by
    rcases h with rfl | ⟨hx, hy⟩
    · exact .refl _
    · rcases eq_of_beq_zero hx with rfl | rfl <;> rcases eq_of_beq_zero hy with rfl | rfl <;>
        exact .inl (by decide +kernel)
  csng h := h
  math _ _ _ h := h

/-- `0 * FIX(X + 0)` -/
def Expr.lostSign : Expr :=
  .binary ⟨1, 8⟩ (.arith .mul) (.number ⟨1, 6⟩ 0.0) (.call ⟨1, 10⟩ "FIX"
    [.binary ⟨1, 16⟩ (.arith .add) (.var ⟨1, 14⟩ "X") (.number ⟨1, 18⟩ 0.0)])

/-- Surroundings in which it has code. -/
def Env.lostSign : Env := ⟨.ofList ["X"], .empty, []⟩

/-- What the code of an expression computes when `X` is -2.5. -/
def Expr.Comes (e : Expr) (v : Float) : Prop :=
  e.Yields .whole .lostSign (fun _ => -2.5) () v

theorem Expr.isFinite_of_comes {e : Expr} {v : Float}
    (h : e.Evaluates Library.whole.meaning (fun _ => (-2.5 : Float)) () v ())
    (hty : e.HasTy Env.lostSign.names Env.lostSign.texts .number) (hv : v.isFinite = true) :
    ∀ u, e.Comes u → u.isFinite = true := by
  intro u hu
  rw [(h.yields hty).unique hu, hv]

theorem Expr.simplify_keeps_value_lostSign :
    Library.whole.HeedsNoSign ∧ lostSign.check.outcome = .ok .number ∧ lostSign.draws = [] ∧
    (∀ a ∈ lostSign.parts, ∀ v, a.Comes v → v.isFinite = true) ∧
    (∀ x, lostSign.Comes x ↔ x = -0.0) ∧ (∀ x, lostSign.simplify.Comes x ↔ x = 0.0) ∧
    Alike 0.0 (-0.0) := by
  have hfix : Builtin.ofName? "FIX" = some .fix := by decide +kernel
  have hknown : "X" ∈ Env.lostSign.names := by decide
  have hcheck : lostSign.check.outcome = .ok .number := by decide +kernel
  have hdraws : lostSign.draws = [] := by decide +kernel
  have hty : lostSign.HasTy Env.lostSign.names Env.lostSign.texts .number :=
    .arith .number (.call hfix (.arith (.var hknown) .number))
  have hminus : (0.0 : Float) * Library.whole.ofInteger (Library.whole.toInteger (-2.5 + 0.0))
      = -0.0 := by decide +kernel
  have hvalue : lostSign.Evaluates Library.whole.meaning (fun _ => (-2.5 : Float)) ()
      (-0.0 : Float) () :=
    hminus ▸ .arith .number (.call hfix (.arith .var .number) .fix)
  have hparts : ∀ a ∈ lostSign.parts, ∀ v, a.Comes v → v.isFinite = true := by
    simp only [lostSign, parts, partsOfList, List.cons_append, List.nil_append, List.append_nil,
      List.forall_mem_cons]
    exact ⟨isFinite_of_comes hvalue hty (by decide +kernel),
      isFinite_of_comes .number .number (by decide +kernel),
      isFinite_of_comes (.call hfix (.arith .var .number) .fix)
        (.call hfix (.arith (.var hknown) .number)) (by decide +kernel),
      isFinite_of_comes (.arith .var .number) (.arith (.var hknown) .number) (by decide +kernel),
      isFinite_of_comes .var (.var hknown) (by decide +kernel),
      isFinite_of_comes .number .number (by decide +kernel), by simp⟩
  obtain ⟨v, u, hv, hu, halike⟩ := simplify_keeps_value .whole Library.heedsNoSign_whole .lostSign
    (fun _ => -2.5) () lostSign hcheck (by decide) (by decide) hdraws hparts
  obtain rfl : -0.0 = v := (hv _).1 (hvalue.yields hty)
  obtain rfl : 0.0 = u := (hu _).1 (Evaluates.yields .number hty.simplify)
  exact ⟨Library.heedsNoSign_whole, hcheck, hdraws, hparts, hv, hu, halike⟩

end LineBasic
