/-
  LineBasic.Proofs.ConstantCode

  Constants, worked out twice.  The value of an expression of number literals and
  operators is known before its code runs; the code works it out again, with the
  operations of the machine.  The two differ in two operators.  A minus is a
  subtraction from zero in the code, so that minus zero loses its sign; and
  comparisons in the code never hold next to an undefined value, `<>` included.
  Everywhere else both come to the same double.
-/

import LineBasic.Proofs.Doubles
import LineBasic.Proofs.Faults
import LineBasic.Proofs.StraightCode

namespace LineBasic

-- ============================================================================
-- Doubles
-- ============================================================================

namespace Double

open Float.Model

variable {l r x : Float}

/-- What is not a number unpacks as such. -/
theorem unpack_of_isNaN (h : x.isNaN = true) : x.toModel.unpack = .notANumber := by
  have hunpack : x.toModel.unpack.isNaN = true := h
  cases hu : x.toModel.unpack with
  | notANumber => rfl
  | infinity s =>
    rw [hu] at hunpack
    cases hunpack
  | zero s =>
    rw [hu] at hunpack
    cases hunpack
  | finite s m e pos =>
    rw [hu] at hunpack
    cases hunpack

/-- Nothing can be compared with an undefined value. -/
theorem compare_of_isNaN (h : l.isNaN = true ∨ r.isNaN = true) :
    l.toModel.unpack.compare r.toModel.unpack = none := by
  rcases h with h | h
  · rw [unpack_of_isNaN h]
    rfl
  · rw [unpack_of_isNaN h]
    cases l.toModel.unpack with
    | notANumber => rfl
    | infinity s => cases s <;> rfl
    | zero s => rfl
    | finite s m e pos => cases s <;> rfl

theorem beq_of_compare (h : l.toModel.unpack.compare r.toModel.unpack = none) :
    (l == r) = false := by
  show (l.toModel.unpack.compare r.toModel.unpack == some .eq) = false
  rw [h]
  rfl

/-- Doubles that do not compare are not below each other. -/
theorem lt_of_compare (h : l.toModel.unpack.compare r.toModel.unpack = none) :
    decide (l < r) = false := by
  have hlt : l.toModel.unpack.lt r.toModel.unpack = false := by
    show (l.toModel.unpack.compare r.toModel.unpack == some .lt) = false
    rw [h]
    rfl
  have hnot : ¬ l.toModel < r.toModel := fun hmodel => by
    rw [show l.toModel.unpack.lt r.toModel.unpack = true from hmodel] at hlt
    cases hlt
  exact decide_eq_false fun hfloat => hnot (of_decide_eq_true hfloat)

theorem le_of_compare (h : l.toModel.unpack.compare r.toModel.unpack = none) :
    decide (l ≤ r) = false := by
  have hle : l.toModel.unpack.le r.toModel.unpack = false := by
    show (l.toModel.unpack.compare r.toModel.unpack).any (·.isLE) = false
    rw [h]
    rfl
  have hnot : ¬ l.toModel ≤ r.toModel := fun hmodel => by
    rw [show l.toModel.unpack.le r.toModel.unpack = true from hmodel] at hle
    cases hle
  exact decide_eq_false fun hfloat => hnot (of_decide_eq_true hfloat)

/-- There is one double that unpacks as the positive zero. -/
theorem eq_zero_of_unpack (h : x.toModel.unpack = .zero .positive) : x = 0.0 := by
  have hzero : (0.0 : Float).toModel.unpack = .zero .positive := rfl
  have hnumber : (0.0 : Float).toModel.unpack ≠ .notANumber := by
    rw [hzero]
    exact nofun
  have hbits := eq_of_unpack (h.trans hzero.symm) hnumber
  obtain ⟨⟨bits, valid⟩⟩ := x
  obtain rfl := UInt64.toBitVec_inj.1 hbits
  rfl

/-- Subtracting from zero turns the sign, except of zero. -/
theorem zero_sub (h : x ≠ 0.0) : 0.0 - x = -x := by
  have hsub : UnpackedFloat.sub Format.binary64 (.zero .positive) x.toModel.unpack
      = x.toModel.unpack.neg := by
    cases hu : x.toModel.unpack with
    | notANumber => rfl
    | infinity s => rfl
    | finite s m e pos => rfl
    | zero s =>
      cases s with
      | negative => rfl
      | positive => exact absurd (eq_zero_of_unpack hu) h
  show Float.ofModel (Float.Model.pack _) = Float.ofModel (Float.Model.pack _)
  exact congrArg (fun u => Float.ofModel (Float.Model.pack u)) hsub

end Double

-- ============================================================================
-- Comparisons of the machine
-- ============================================================================

namespace Relation

variable {rel : Relation} {l r : Float}

/-- Whether a comparison of the machine holds: neither value is undefined, and the
    relation holds between them. -/
def ordered (rel : Relation) (l r : Float) : Bool := !l.isNaN && !r.isNaN && rel.holds l r

/-- Next to an undefined value `<>` holds and nothing else does. -/
theorem holds_of_isNaN (h : l.isNaN = true ∨ r.isNaN = true) :
    rel.holds l r = decide (rel = .ne) := by
  have hlr := Double.compare_of_isNaN h
  have hrl := Double.compare_of_isNaN h.symm
  cases rel with
  | eq => exact Double.beq_of_compare hlr
  | ne =>
    show (!(l == r)) = true
    rw [Double.beq_of_compare hlr]
    rfl
  | lt => exact Double.lt_of_compare hlr
  | le => exact Double.le_of_compare hlr
  | gt => exact Double.lt_of_compare hrl
  | ge => exact Double.le_of_compare hrl

theorem ordered_of_isNaN (h : l.isNaN = true ∨ r.isNaN = true) : rel.ordered l r = false := by
  rcases h with h | h
  · rw [ordered, h, Bool.not_true, Bool.false_and, Bool.false_and]
  · rw [ordered, h, Bool.not_true, Bool.and_false, Bool.false_and]

/-- The machine compares as the relation does, except by `<>` next to an undefined
    value. -/
theorem ordered_eq_holds (h : rel = .ne → ¬ (l.isNaN = true ∨ r.isNaN = true)) :
    rel.ordered l r = rel.holds l r := by
  by_cases hnan : l.isNaN = true ∨ r.isNaN = true
  · have hne : rel ≠ .ne := fun heq => h heq hnan
    rw [ordered_of_isNaN hnan, holds_of_isNaN hnan, decide_eq_false hne]
  · obtain ⟨hl, hr⟩ := not_or.1 hnan
    rw [ordered, eq_false_of_ne_true hl, eq_false_of_ne_true hr]
    rfl

end Relation

/-- What a machine for doubles takes from elsewhere: the functions of the mathematical
    library and the world outside. -/
structure Surroundings where
  Outer : Type
  call : MathFunction → Float → Float
  draw : Outer → Float × Outer
  read : Outer → Option Float × Outer

/-- Doubles with the operations of the machine. -/
def Meaning.doubles (around : Surroundings) : Meaning where
  Num := Float
  Whole := Int64
  Single := Float32
  Outer := around.Outer
  literal := id
  arith := Arith.apply
  holds := Relation.ordered
  ofTruth := truth
  toInteger := Float.toInt64
  ofInteger := Int64.toFloat
  toSingle := Float.toFloat32
  ofSingle := Float32.toFloat
  call := around.call
  order := fun s t => if s = t then 0 else if s < t then -1 else 1
  draw := around.draw
  read := around.read
  undefined := 0.0 / 0.0

-- ============================================================================
-- Where the code goes astray
-- ============================================================================

namespace Expr

/-- The expressions that an operator is applied to. -/
def operands : Expr → List Expr
  | unary _ _ e => [e]
  | binary _ _ l r => [l, r]
  | _ => []

/-- Whether an expression has an undefined value. -/
def isUndefined (e : Expr) : Bool := e.constant?.any Float.isNaN

/-- Whether the code of the outermost operator does something else than the operator:
    a minus in front of zero, or `<>` next to an undefined value. -/
def strays : Expr → Bool
  | unary _ .minus e => e.constant? = some 0.0
  | binary _ (.compare .ne) l r => l.isUndefined || r.isUndefined
  | _ => false

/-- Whether no operator of an expression of literals and operators strays. -/
def steady : Expr → Bool
  | unary pos sign e => e.steady && !(unary pos sign e).strays
  | binary pos op l r => l.steady && r.steady && !(binary pos op l r).strays
  | _ => true

end Expr

-- ============================================================================
-- What the code works out
-- ============================================================================

section Values

variable {around : Surroundings} {v x y : Float}

theorem Relation.eval_of_constant {M : Meaning} {rel : Relation} {l r : Expr}
    {lvalue rvalue : M.Eval M.Num} (h : l.constant? = some x) :
    rel.eval M l r lvalue rvalue = lvalue >>= fun a => rvalue >>= fun b => M.compare rel a b :=
  Relation.eval.eq_2 M rel l r lvalue rvalue fun pos s pos' t hl _ => by
    rw [hl] at h
    cases h

namespace Expr

/-- The operands of a constant are constants. -/
theorem constant?_binary {pos : Position} {op : BinaryOp} {l r : Expr}
    (h : (binary pos op l r).constant? = some v) :
    ∃ x y, l.constant? = some x ∧ r.constant? = some y ∧ v = op.apply x y := by
  rw [constant?] at h
  split at h
  · next x y hl hr => exact ⟨x, y, hl, hr, (Option.some.inj h).symm⟩
  · cases h

theorem constant?_unary {pos : Position} {sign : Sign} {e : Expr}
    (h : (unary pos sign e).constant? = some v) :
    ∃ x, e.constant? = some x ∧ v = sign.apply x := by
  obtain ⟨x, hx, hv⟩ := Option.map_eq_some_iff.1 h
  exact ⟨x, hx, hv.symm⟩

/-- A minus strays in front of the positive zero only. -/
theorem strays_minus {pos : Position} {e : Expr} (h : e.constant? = some x) :
    (unary pos .minus e).strays = decide (x = 0.0) := by
  simp [strays, h]

/-- A test for difference strays when one side is not a number. -/
theorem strays_ne {pos : Position} {l r : Expr} (hl : l.constant? = some x)
    (hr : r.constant? = some y) :
    (binary pos (.compare .ne) l r).strays = (x.isNaN || y.isNaN) := by
  simp [strays, isUndefined, hl, hr]

theorem eval_compare_of_constant {pos : Position} {rel : Relation} {l r : Expr}
    (h : l.constant? = some x) {μ : (Meaning.doubles around).Mem} :
    ((binary pos (.compare rel) l r).eval (.doubles around) μ).1
      = truth (rel.ordered (l.eval (.doubles around) μ).1
          (r.eval (.doubles around) (l.eval (.doubles around) μ).2).1) := by
  rw [eval, Relation.eval_of_constant h]
  rfl

/-- Where no operator strays, the code works out the constant. -/
theorem eval_of_steady {e : Expr} (h : e.constant? = some v) (hsteady : e.steady = true)
    (μ : (Meaning.doubles around).Mem) : (e.eval (.doubles around) μ).1 = v := by
  induction e using Expr.rec_lower generalizing v μ with
  | number pos x => exact Option.some.inj h
  | plus pos e ih =>
    obtain ⟨x, hx, rfl⟩ := constant?_unary h
    exact ih hx (Bool.and_eq_true_iff.1 hsteady).1 μ
  | minus pos e ih =>
    obtain ⟨x, hx, rfl⟩ := constant?_unary h
    obtain ⟨he, hstrays⟩ := Bool.and_eq_true_iff.1 hsteady
    -- Negation is computed as a difference from zero, which goes astray for zero alone.
    have hne : x ≠ 0.0 := by
      rw [strays_minus hx] at hstrays
      simpa using hstrays
    have hvalue : ((unary pos .minus e).eval (.doubles around) μ).1 = (0.0 : Float) - x :=
      congrArg (fun y : Float => (0.0 : Float) - y) (ih hx he μ)
    exact hvalue.trans (Double.zero_sub hne)
  | compare pos rel l r ihl ihr =>
    obtain ⟨x, y, hx, hy, rfl⟩ := constant?_binary h
    obtain ⟨hoperands, hstrays⟩ := Bool.and_eq_true_iff.1 hsteady
    obtain ⟨hl, hr⟩ := Bool.and_eq_true_iff.1 hoperands
    -- The ordered comparison and `<>` differ only where an operand is not a number.
    have hdefined : rel = .ne → ¬ (x.isNaN = true ∨ y.isNaN = true) := by
      rintro rfl
      rw [strays_ne hx hy] at hstrays
      simpa using hstrays
    rw [eval_compare_of_constant hx, ihl hx hl, ihr hy hr, Relation.ordered_eq_holds hdefined]
    rfl
  | arith pos op l r ihl ihr =>
    obtain ⟨x, y, hx, hy, rfl⟩ := constant?_binary h
    obtain ⟨hoperands, -⟩ := Bool.and_eq_true_iff.1 hsteady
    obtain ⟨hl, hr⟩ := Bool.and_eq_true_iff.1 hoperands
    exact congrArg₂ op.apply (ihl hx hl μ) (ihr hy hr _)
  | text pos s => cases h
  | var pos name => cases h
  | unknown pos name args _ => cases h
  | call pos name b arg _ _ => cases h
  | arity pos name b args _ _ => cases h

/-- Where the outermost operator strays and no other one does, the code works out
    another double. -/
theorem eval_of_strays {e : Expr} (h : e.constant? = some v) (hstrays : e.strays = true)
    (hsteady : ∀ a ∈ e.operands, a.steady = true) (μ : (Meaning.doubles around).Mem) :
    (e.eval (.doubles around) μ).1 ≠ v := by
  unfold strays at hstrays
  split at hstrays
  · next pos a =>
    obtain ⟨x, hx, rfl⟩ := constant?_unary h
    obtain rfl : x = 0.0 := by simpa [hx] using hstrays
    have ha := eval_of_steady hx (hsteady a (List.mem_singleton_self a)) μ
    have hvalue : ((unary pos .minus a).eval (.doubles around) μ).1 = (0.0 : Float) - 0.0 :=
      congrArg (fun y : Float => (0.0 : Float) - y) ha
    have hdiffer : (0.0 : Float) - 0.0 ≠ -0.0 := by decide
    rw [hvalue]
    exact hdiffer
  · next pos l r =>
    obtain ⟨x, y, hx, hy, rfl⟩ := constant?_binary h
    have hnan : x.isNaN = true ∨ y.isNaN = true := by
      simpa [isUndefined, hx, hy] using hstrays
    have hl := eval_of_steady hx (hsteady l (by simp [operands])) μ
    have hr := eval_of_steady hy (hsteady r (by simp [operands]))
      (l.eval (.doubles around) μ).2
    have hholds : (BinaryOp.compare .ne).apply x y = truth true :=
      congrArg truth (Relation.holds_of_isNaN hnan)
    have hdiffer : truth false ≠ truth true := by decide
    rw [eval_compare_of_constant hx, hl, hr, Relation.ordered_of_isNaN hnan, hholds]
    exact hdiffer
  · cases hstrays

/-- A constant is a number. -/
theorem hasTy_of_constant {names texts : Ascending String} {e : Expr} (h : e.constant? = some v) :
    e.HasTy names texts .number := by
  induction e using Expr.rec_lower generalizing v with
  | number pos x => exact .number
  | plus pos e ih =>
    obtain ⟨x, hx, -⟩ := constant?_unary h
    exact .unary (ih hx)
  | minus pos e ih =>
    obtain ⟨x, hx, -⟩ := constant?_unary h
    exact .unary (ih hx)
  | compare pos rel l r ihl ihr =>
    obtain ⟨x, y, hx, hy, -⟩ := constant?_binary h
    exact .compare (ihl hx) (ihr hy)
  | arith pos op l r ihl ihr =>
    obtain ⟨x, y, hx, hy, -⟩ := constant?_binary h
    exact .arith (ihl hx) (ihr hy)
  | text pos s => cases h
  | var pos name => cases h
  | unknown pos name args _ => cases h
  | call pos name b arg _ _ => cases h
  | arity pos name b args _ _ => cases h

end Expr

end Values

-- ============================================================================
-- Constants and their code
-- ============================================================================

namespace Expr

/-- The double that the code of an expression leaves, when the code is made while `n`
    temporaries are in use and then run by a machine for doubles. -/
def codeValue? (around : Surroundings) (env : Env) (n : Nat) (ρ : Regs (.doubles around))
    (μ : (Meaning.doubles around).Mem) (e : Expr) : Option Float :=
  let made := (e.lower env).run n
  match made.outcome with
  | .ok (o, _) =>
    (execAll (.doubles around) env.texts.toList ρ μ made.notes).bind fun after => o.value? after.1
  | .error _ => none

/-- What the code leaves in its register is the value of the expression. -/
theorem codeValue?_of_makes {around : Surroundings} {env : Env} {n n' : Nat}
    {ρ : Regs (.doubles around)} {μ : (Meaning.doubles around).Mem} {e : Expr}
    {steps : List Step} {o : Operand} (h : Makes (e.lower env) n steps o n') :
    e.codeValue? around env n ρ μ = some (e.eval (.doubles around) μ).1 := by
  obtain ⟨ρ', hexec, -, hvalue⟩ := (makes_lower.1 h).executes ρ μ
  have hgiven : e.codeValue? around env n ρ μ
      = (execAll (.doubles around) env.texts.toList ρ μ steps).bind
          fun after => o.value? after.1 := by
    rw [codeValue?, show (e.lower env).run n = ⟨steps, .ok (o, n')⟩ from h]
    rfl
  rw [hgiven, hexec]
  exact hvalue.value?

/-- A constant has code, and the code leaves a double.  If no operator strays, it is
    the constant, bit by bit; if the outermost one does and no other, it is not. -/
theorem lower_gives_constant (around : Surroundings) (env : Env) (n : Nat)
    (ρ : Regs (.doubles around)) (μ : (Meaning.doubles around).Mem) (e : Expr) (v : Float)
    (h : e.constant? = some v) :
    ∃ x, e.codeValue? around env n ρ μ = some x ∧ (e.steady = true → x = v) ∧
      (e.strays = true → (∀ a ∈ e.operands, a.steady = true) → x ≠ v) := by
  have hsettles : Settles (fun _ => False) (e.lower env) fun _ => True :=
    settles_lower (hasTy_of_constant h) rfl
  obtain ⟨steps, o, n', hmakes, -⟩ := hsettles.makes n
  refine ⟨(e.eval (.doubles around) μ).1, codeValue?_of_makes hmakes, ?_, ?_⟩
  · intro hsteady
    exact eval_of_steady h hsteady μ
  · intro hstrays hsteady
    exact eval_of_strays h hstrays hsteady μ

end Expr

/-- A machine that reads nothing, and whose functions do nothing. -/
def Surroundings.bare : Surroundings := ⟨Unit, fun _ x => x, fun u => (0.0, u), fun u => (none, u)⟩

namespace Expr

/-- The double that the code of an expression leaves on the bare machine. -/
def bareValue? (e : Expr) : Option Float :=
  e.codeValue? .bare ⟨.empty, .empty, []⟩ 0 .empty ⟨fun _ => (0.0 : Float), (), []⟩

/-- Minus twice a difference, compared with zero. -/
def slope : Expr :=
  let start : Position := ⟨1, 1⟩
  .binary start (.compare .ne) (.unary start .minus (.binary start (.arith .mul)
    (.number start 2.0) (.binary start (.arith .sub) (.number start 1.0) (.number start 0.5))))
    (.number start 0.0)

theorem lower_gives_constant_slope :
    slope.constant? = some 1.0 ∧ slope.steady = true ∧ slope.bareValue? = some 1.0 := by
  have hconstant : slope.constant? = some 1.0 := by decide +kernel
  have hsteady : slope.steady = true := by decide +kernel
  obtain ⟨x, hx, hsame, -⟩ := lower_gives_constant .bare ⟨.empty, .empty, []⟩ 0 .empty
    ⟨fun _ => (0.0 : Float), (), []⟩ slope 1.0 hconstant
  exact ⟨hconstant, hsteady, hx.trans (congrArg some (hsame hsteady))⟩

/-- Zero with a minus in front of it. -/
def minusZero : Expr := .unary ⟨1, 1⟩ .minus (.number ⟨1, 2⟩ 0.0)

/-- The difference of two infinities, which is undefined, compared with zero. -/
def undefinedUnequal : Expr :=
  let start : Position := ⟨1, 1⟩
  .binary start (.compare .ne) (.binary start (.arith .sub) (.number start (1.0 / 0.0))
    (.number start (1.0 / 0.0))) (.number start 0.0)

/-- Minus zero keeps its sign as a constant and loses it in the code; an undefined value
    is unequal to zero as a constant and not in the code.  So simplifying either of the two
    changes what the code leaves. -/
theorem constants_stray :
    (minusZero.constant? = some (-0.0) ∧ minusZero.bareValue? = some 0.0 ∧
      minusZero.simplify.bareValue? = some (-0.0) ∧ (0.0 : Float) ≠ -0.0) ∧
    undefinedUnequal.constant? = some 1.0 ∧ undefinedUnequal.bareValue? = some 0.0 ∧
      undefinedUnequal.simplify.bareValue? = some 1.0 := by
  decide +kernel

end Expr

end LineBasic
