/-
  LineBasic.Proofs.ExpressionCode

  The code of an expression computes its value.  What the value is, is said by rules,
  one for each form of expression: a rule names the operands in the order in which they
  are worked out, and hands the world outside from one to the next, so that each is
  worked out once.  The rules leave numbers and their operations open (`Meaning`); that
  a truth value is one or zero, and that texts are compared byte by byte, is not left
  open.

  The code is run where it stands, in any function, whatever the temporaries hold.
-/

import LineBasic.Proofs.ConstantCode
import LineBasic.Proofs.Constants
import LineBasic.Proofs.Recursion

namespace LineBasic

open StateTransition

-- ============================================================================
-- Texts in memory
-- ============================================================================

/-- The bytes to which the address of a string literal leads: those that its definition
    holds (`Constant.defines_definition`), the zero byte included. -/
def Constant.bytes (s : String) : List UInt8 := utf8 s ++ [0]

/-- How two texts in memory compare.  The first bytes that differ decide, and the zero
    byte ends a text. -/
def strcmp : List UInt8 → List UInt8 → Int
  | a :: as, b :: bs =>
    if a = b then
      if a = 0 then 0 else strcmp as bs
    else (a.toNat : Int) - b.toNat
  | _, _ => 0

/-- A meaning as the machine has it: a truth value becomes one or zero, and what comes
    out of comparing two texts has the sign of `strcmp`. -/
structure Meaning.Standard (M : Meaning) : Prop where
  ofTruth : ∀ b, M.ofTruth b = M.literal (truth b)
  order : ∀ s t, (M.order s t).sign = (strcmp (Constant.bytes s) (Constant.bytes t)).sign

/-- A comparison of texts asks for the sign of their order only. -/
theorem Relation.ofOrder_of_sign {rel : Relation} {i j : Int} (h : i.sign = j.sign) :
    rel.ofOrder i = rel.ofOrder j := by
  have hzero : i = 0 ↔ j = 0 := by
    rw [← Int.sign_eq_zero_iff_zero, h, Int.sign_eq_zero_iff_zero]
  have hneg : i < 0 ↔ j < 0 := by
    rw [← Int.sign_eq_neg_one_iff_neg, h, Int.sign_eq_neg_one_iff_neg]
  cases rel <;> simp only [ofOrder, decide_eq_decide] <;> omega

-- ============================================================================
-- Rules
-- ============================================================================

section Rules

variable (M : Meaning) (σ : String → M.Num)

/-- What a function makes of a number, and what becomes of the world outside. -/
inductive Builtin.Gives : Builtin → M.Num → M.Outer → M.Num → M.Outer → Prop
  /-- The whole part is taken by way of an integer. -/
  | fix {x : M.Num} {w : M.Outer} : Gives .fix x w (M.ofInteger (M.toInteger x)) w
  /-- Whether it is above zero, less whether it is below. -/
  | sgn {x : M.Num} {w : M.Outer} :
      Gives .sgn x w
        (M.arith .sub (M.literal (truth (M.holds .gt x (M.literal 0.0))))
          (M.literal (truth (M.holds .lt x (M.literal 0.0))))) w
  /-- Rounding goes by way of single precision. -/
  | csng {x : M.Num} {w : M.Outer} : Gives .csng x w (M.ofSingle (M.toSingle x)) w
  | cdbl {x : M.Num} {w : M.Outer} : Gives .cdbl x w x w
  /-- A random number does not depend on the argument. -/
  | rnd {x : M.Num} {w : M.Outer} : Gives .rnd x w (M.draw w).1 (M.draw w).2
  | math {f : MathFunction} {x : M.Num} {w : M.Outer} : Gives (.math f) x w (M.call f x) w

/-- The value of an expression when the variables hold `σ`: `e.Evaluates M σ w v w'` says
    that `e`, worked out in the world `w`, comes to `v` and leaves the world `w'`. -/
inductive Expr.Evaluates : Expr → M.Outer → M.Num → M.Outer → Prop
  | number {pos : Position} {x : Float} {w : M.Outer} :
      Evaluates (.number pos x) w (M.literal x) w
  | var {pos : Position} {name : String} {w : M.Outer} : Evaluates (.var pos name) w (σ name) w
  | plus {pos : Position} {e : Expr} {w w' : M.Outer} {v : M.Num}
      (operand : Evaluates e w v w') : Evaluates (.unary pos .plus e) w v w'
  /-- A minus subtracts from zero. -/
  | minus {pos : Position} {e : Expr} {w w' : M.Outer} {v : M.Num}
      (operand : Evaluates e w v w') :
      Evaluates (.unary pos .minus e) w (M.arith .sub (M.literal 0.0) v) w'
  | arith {pos : Position} {op : Arith} {l r : Expr} {w w₁ w₂ : M.Outer} {x y : M.Num}
      (lhs : Evaluates l w x w₁) (rhs : Evaluates r w₁ y w₂) :
      Evaluates (.binary pos (.arith op) l r) w (M.arith op x y) w₂
  | compare {pos : Position} {rel : Relation} {l r : Expr} {w w₁ w₂ : M.Outer} {x y : M.Num}
      (lhs : Evaluates l w x w₁) (rhs : Evaluates r w₁ y w₂) :
      Evaluates (.binary pos (.compare rel) l r) w (M.literal (truth (M.holds rel x y))) w₂
  | compareTexts {pos p q : Position} {rel : Relation} {s t : String} {w : M.Outer} :
      Evaluates (.binary pos (.compare rel) (.text p s) (.text q t)) w
        (M.literal (truth (rel.ofOrder (strcmp (Constant.bytes s) (Constant.bytes t))))) w
  | call {pos : Position} {name : String} {b : Builtin} {e : Expr} {w w' w'' : M.Outer}
      {x v : M.Num} (builtin : Builtin.ofName? name = some b) (arg : Evaluates e w x w')
      (value : b.Gives M x w' v w'') : Evaluates (.call pos name [e]) w v w''

/-- Whether a comparison holds when the variables hold `σ`. -/
inductive Expr.Tests : Expr → M.Outer → Bool → M.Outer → Prop
  | numbers {pos : Position} {rel : Relation} {l r : Expr} {w w₁ w₂ : M.Outer} {x y : M.Num}
      (lhs : l.Evaluates M σ w x w₁) (rhs : r.Evaluates M σ w₁ y w₂) :
      Tests (.binary pos (.compare rel) l r) w (M.holds rel x y) w₂
  | texts {pos p q : Position} {rel : Relation} {s t : String} {w : M.Outer} :
      Tests (.binary pos (.compare rel) (.text p s) (.text q t)) w
        (rel.ofOrder (strcmp (Constant.bytes s) (Constant.bytes t))) w

end Rules

section Unique

variable {M : Meaning} {σ : String → M.Num} {e : Expr} {w w' w'' : M.Outer}

theorem Builtin.Gives.unique {b : Builtin} {x v u : M.Num} (h : b.Gives M x w v w')
    (h' : b.Gives M x w u w'') : u = v ∧ w'' = w' := by
  cases h <;> cases h' <;> exact ⟨rfl, rfl⟩

/-- The rules give an expression one value. -/
theorem Expr.Evaluates.unique {v u : M.Num} (h : e.Evaluates M σ w v w')
    (h' : e.Evaluates M σ w u w'') : u = v ∧ w'' = w' := by
  induction h generalizing u w'' with
  | number =>
    cases h'
    exact ⟨rfl, rfl⟩
  | var =>
    cases h'
    exact ⟨rfl, rfl⟩
  | plus _ ih =>
    cases h' with
    | plus he => exact ih he
  | minus _ ih =>
    cases h' with
    | minus he =>
      obtain ⟨rfl, rfl⟩ := ih he
      exact ⟨rfl, rfl⟩
  | arith _ _ ihl ihr =>
    cases h' with
    | arith hl hr =>
      obtain ⟨rfl, rfl⟩ := ihl hl
      obtain ⟨rfl, rfl⟩ := ihr hr
      exact ⟨rfl, rfl⟩
  | compare hl₁ _ ihl ihr =>
    -- A text has no value as a number, so only one of the two rules for comparing applies.
    cases h' with
    | compare hl hr =>
      obtain ⟨rfl, rfl⟩ := ihl hl
      obtain ⟨rfl, rfl⟩ := ihr hr
      exact ⟨rfl, rfl⟩
    | compareTexts => cases hl₁
  | compareTexts =>
    cases h' with
    | compare hl _ => cases hl
    | compareTexts => exact ⟨rfl, rfl⟩
  | call hb _ hvalue ih =>
    cases h' with
    | call hb' harg hvalue' =>
      obtain rfl := Option.some.inj (hb.symm.trans hb')
      obtain ⟨rfl, rfl⟩ := ih harg
      exact hvalue.unique hvalue'

/-- A condition comes out one way. -/
theorem Expr.Tests.unique {b c : Bool} (h : e.Tests M σ w b w') (h' : e.Tests M σ w c w'') :
    c = b ∧ w'' = w' := by
  cases h with
  | numbers hl hr =>
    cases h' with
    | numbers hl' hr' =>
      obtain ⟨rfl, rfl⟩ := hl.unique hl'
      obtain ⟨rfl, rfl⟩ := hr.unique hr'
      exact ⟨rfl, rfl⟩
    | texts => cases hl
  | texts =>
    cases h' with
    | numbers hl _ => cases hl
    | texts => exact ⟨rfl, rfl⟩

/-- A comparison is worth one if it holds and zero if it does not. -/
theorem Expr.Tests.evaluates {b : Bool} (h : e.Tests M σ w b w') :
    e.Evaluates M σ w (M.literal (truth b)) w' := by
  cases h with
  | numbers hl hr => exact .compare hl hr
  | texts => exact .compareTexts

end Unique

-- ============================================================================
-- The value over a memory
-- ============================================================================

section Values

variable {M : Meaning} {names texts : Ascending String} {e l r : Expr}

/-- What the code of a function computes is what the function gives, and no variable changes. -/
theorem Builtin.gives_eval (hM : M.Standard) (b : Builtin) (x : M.Num) (μ : M.Mem) :
    b.Gives M x μ.outer (b.eval M x μ).1 (b.eval M x μ).2.outer ∧
      (b.eval M x μ).2.store = μ.store := by
  cases b with
  | math f => exact ⟨.math, rfl⟩
  | fix => exact ⟨.fix, rfl⟩
  | sgn =>
    refine ⟨?_, rfl⟩
    have hvalue : (Builtin.eval M .sgn x μ).1
        = M.arith .sub (M.ofTruth (M.holds .gt x (M.literal 0.0)))
            (M.ofTruth (M.holds .lt x (M.literal 0.0))) := rfl
    rw [hvalue, hM.ofTruth, hM.ofTruth]
    exact .sgn
  | rnd => exact ⟨.rnd, rfl⟩
  | csng => exact ⟨.csng, rfl⟩
  | cdbl => exact ⟨.cdbl, rfl⟩

/-- Values in the sense of the rules, and the variables as they were. -/
def Expr.ValueRuled (M : Meaning) (e : Expr) : Prop :=
  ∀ μ : M.Mem, e.Evaluates M μ.store μ.outer (e.eval M μ).1 (e.eval M μ).2.outer ∧
    (e.eval M μ).2.store = μ.store

/-- Comparing two expressions of one type: the outcome is that of the rules. -/
theorem Relation.tests_eval (hM : M.Standard) (rel : Relation) (pos : Position) {ty : Ty}
    (hl : l.HasTy names texts ty) (hr : r.HasTy names texts ty)
    (hlvalue : ty = .number → l.ValueRuled M) (hrvalue : ty = .number → r.ValueRuled M)
    (μ : M.Mem) :
    (Expr.binary pos (.compare rel) l r).Tests M μ.store μ.outer
        (rel.eval M l r (l.eval M) (r.eval M) μ).1
        (rel.eval M l r (l.eval M) (r.eval M) μ).2.outer ∧
      (rel.eval M l r (l.eval M) (r.eval M) μ).2.store = μ.store := by
  cases ty with
  | text =>
    cases hl with
    | @text p s _ =>
      cases hr with
      | @text q t _ =>
        refine ⟨?_, rfl⟩
        show (Expr.binary pos (.compare rel) (.text p s) (.text q t)).Tests M μ.store μ.outer
          (rel.ofOrder (M.order s t)) μ.outer
        rw [ofOrder_of_sign (hM.order s t)]
        exact .texts
  | number =>
    have hnot : ∀ p s q t, l = .text p s → r = .text q t → False := by
      rintro p s q t rfl -
      cases hl
    rw [Relation.eval.eq_2 M rel l r _ _ hnot]
    obtain ⟨hx, hstore⟩ := hlvalue rfl μ
    obtain ⟨hy, hstore'⟩ := hrvalue rfl (l.eval M μ).2
    rw [hstore] at hy hstore'
    exact ⟨.numbers hx hy, hstore'⟩

/-- What the evaluator of a meaning works out for a typed expression is its value by the
    rules. -/
theorem Expr.HasTy.valueRuled (hM : M.Standard) {ty : Ty} (h : e.HasTy names texts ty)
    (hty : ty = .number) : e.ValueRuled M := by
  induction h with
  | number => exact fun μ => ⟨.number, rfl⟩
  | text _ => cases hty
  | var _ => exact fun μ => ⟨.var, rfl⟩
  | @unary pos sign e _ ih =>
    intro μ
    obtain ⟨hvalue, hstore⟩ := ih rfl μ
    cases sign with
    | plus => exact ⟨.plus hvalue, hstore⟩
    | minus => exact ⟨.minus hvalue, hstore⟩
  | @compare pos rel l r ty hl hr ihl ihr =>
    intro μ
    obtain ⟨htests, hstore⟩ := rel.tests_eval hM pos hl hr ihl ihr μ
    have hvalue : ((binary pos (.compare rel) l r).eval M μ).1
        = M.ofTruth (rel.eval M l r (l.eval M) (r.eval M) μ).1 := rfl
    refine ⟨?_, hstore⟩
    rw [hvalue, hM.ofTruth]
    exact htests.evaluates
  | @arith pos op l r hl hr ihl ihr =>
    intro μ
    obtain ⟨hx, hstore⟩ := ihl rfl μ
    obtain ⟨hy, hstore'⟩ := ihr rfl (l.eval M μ).2
    rw [hstore] at hy hstore'
    exact ⟨.arith hx hy, hstore'⟩
  | @call pos name b e hb _ ih =>
    intro μ
    obtain ⟨hx, hstore⟩ := ih rfl μ
    obtain ⟨hgives, hstore'⟩ := b.gives_eval hM (e.eval M μ).1 (e.eval M μ).2
    rw [eval_call M hb]
    exact ⟨.call hb hx hgives, hstore'.trans hstore⟩

end Values

-- ============================================================================
-- Code in its place
-- ============================================================================

/-- Code runs through wherever it stands in a function with the constants `texts`,
    whatever the temporaries hold and whatever has been done.  The variables keep `σ`, the
    first `n` temporaries what they hold, the world goes from `w` to `w'`, and the
    temporaries end up as `post` says. -/
def Code.Computes (M : Meaning) (texts : List String) (n : Nat) (es : List Emission)
    (σ : String → M.Num) (w w' : M.Outer) (post : Regs M → Prop) : Prop :=
  ∀ (m : Module) (rest : List Emission) (ρ : Regs M) (done : List (Effect M.Num)),
    m.texts = texts →
    ∃ ρ' done', Reaches (Code.step m) ⟨es ++ rest, ρ, ⟨σ, w, done⟩⟩ ⟨rest, ρ', ⟨σ, w', done'⟩⟩ ∧
      (∀ t : Temp, t.index < n → ρ' t = ρ t) ∧ post ρ'

section Code

variable {M : Meaning} {texts : List String} {n n' : Nat} {α : Type} {x : Straight α}
  {site : Option Nat} {es : List Emission} {a : α}

theorem labels_of_makes_straight (h : Makes (Lower.straight site x) n es a n') :
    Emission.labels es = [] := by
  obtain ⟨steps, -, rfl⟩ := Lower.makes_straight.1 h
  exact Emission.labels_steps

/-- Straight code computes what it does from every choice of temporaries and effects, as
    long as what becomes of the variables and the world does not depend on these. -/
theorem Code.computes_of_executes {steps : List Step} {σ : String → M.Num} {w w' : M.Outer}
    {post : Regs M → Prop}
    (h : ∀ (ρ : Regs M) (done : List (Effect M.Num)), ∃ n' μ',
      μ'.store = σ ∧ μ'.outer = w' ∧ Executes texts n ρ ⟨σ, w, done⟩ steps n' μ' post) :
    Code.Computes M texts n (steps.map (.step site)) σ w w' post := by
  intro m rest ρ done hm
  obtain ⟨n', ⟨_, _, done'⟩, rfl, rfl, ρ', hexec, hgrow, hpost⟩ := h ρ done
  rw [← hm] at hexec
  exact ⟨ρ', done', Code.reaches_execAll hexec, hgrow.keep, hpost⟩

end Code

-- ============================================================================
-- Expressions and their code
-- ============================================================================

section Expressions

variable {M : Meaning} {env : Env} {site : Option Nat} {e : Expr} {n n' : Nat}
  {es : List Emission}

/-- The code of an expression computes its value. -/
theorem Expr.computes_lower (hM : M.Standard) {o : Operand}
    (h : Makes (Lower.straight site (e.lower env)) n es o n') (σ : String → M.Num)
    (w : M.Outer) :
    ∃ v w', e.Evaluates M σ w v w' ∧
      Code.Computes M env.texts.toList n es σ w w' fun ρ' => o.value? ρ' = some v := by
  obtain ⟨steps, hsteps, rfl⟩ := Lower.makes_straight.1 h
  have hcode := makes_lower.1 hsteps
  have hruled := hcode.hasTy.valueRuled hM rfl
  obtain ⟨hvalue, -⟩ := hruled ⟨σ, w, []⟩
  refine ⟨_, _, hvalue, Code.computes_of_executes fun ρ done => ?_⟩
  -- the effects so far decide neither the value nor what becomes of the world
  obtain ⟨hvalue', hstore⟩ := hruled ⟨σ, w, done⟩
  obtain ⟨hsame, houter⟩ := hvalue.unique hvalue'
  obtain ⟨ρ', hexec, hgrow, his⟩ := hcode.executes ρ ⟨σ, w, done⟩
  refine ⟨n', (e.eval M ⟨σ, w, done⟩).2, hstore, houter, ρ', hexec, hgrow, ?_⟩
  rw [← hsame]
  exact his.value?

/-- The code of a condition finds out whether the comparison holds. -/
theorem Expr.computes_lowerCondition (hM : M.Standard) {t : Temp}
    (h : Makes (Lower.straight site (e.lowerCondition env)) n es t n') (σ : String → M.Num)
    (w : M.Outer) :
    ∃ b w', e.Tests M σ w b w' ∧
      Code.Computes M env.texts.toList n es σ w w' fun ρ' => ρ' t = some (.truth b) := by
  obtain ⟨steps, hsteps, rfl⟩ := Lower.makes_straight.1 h
  have hcode := makes_lowerCondition.1 hsteps
  have hruled : ∀ μ : M.Mem, e.Tests M μ.store μ.outer (e.test M μ).1 (e.test M μ).2.outer ∧
      (e.test M μ).2.store = μ.store := by
    obtain ⟨hty, hcomparison⟩ := hcode.hasTy
    cases hty with
    | @compare pos rel l r ty hl hr =>
      exact rel.tests_eval hM pos hl hr (hl.valueRuled hM) (hr.valueRuled hM)
    | _ => cases hcomparison
  obtain ⟨htests, -⟩ := hruled ⟨σ, w, []⟩
  refine ⟨_, _, htests, Code.computes_of_executes fun ρ done => ?_⟩
  obtain ⟨htests', hstore⟩ := hruled ⟨σ, w, done⟩
  obtain ⟨hsame, houter⟩ := htests.unique htests'
  obtain ⟨ρ', hexec, hgrow, hholds⟩ := hcode.executes
  refine ⟨n', (e.test M ⟨σ, w, done⟩).2, hstore, houter, ρ', hexec, hgrow, ?_⟩
  rw [← hsame]
  exact hholds.2

/-- The code of an expression computes its value, which is the only one that the rules
    give it, wherever the code stands and whatever the temporaries hold.  There is no label
    in it, no variable changes, and no temporary that was in use before does.  The code of
    a condition finds out in the same way whether the comparison holds. -/
theorem Expr.lower_computes_value (M : Meaning) (hM : M.Standard) (env : Env)
    (site : Option Nat) (e : Expr) (n n' : Nat) (es : List Emission) :
    (∀ o, Makes (Lower.straight site (e.lower env)) n es o n' →
      Emission.labels es = [] ∧ ∀ σ w, ∃ v w',
        (∀ u w'', e.Evaluates M σ w u w'' ↔ u = v ∧ w'' = w') ∧
        Code.Computes M env.texts.toList n es σ w w' fun ρ' => o.value? ρ' = some v) ∧
    ∀ t, Makes (Lower.straight site (e.lowerCondition env)) n es t n' →
      Emission.labels es = [] ∧ ∀ σ w, ∃ b w',
        (∀ c w'', e.Tests M σ w c w'' ↔ c = b ∧ w'' = w') ∧
        Code.Computes M env.texts.toList n es σ w w' fun ρ' => ρ' t = some (.truth b) := by
  constructor
  · intro o h
    refine ⟨labels_of_makes_straight h, fun σ w => ?_⟩
    obtain ⟨v, w', hvalue, hcomputes⟩ := computes_lower hM h σ w
    refine ⟨v, w', fun u w'' => ⟨hvalue.unique, ?_⟩, hcomputes⟩
    rintro ⟨rfl, rfl⟩
    exact hvalue
  · intro t h
    refine ⟨labels_of_makes_straight h, fun σ w => ?_⟩
    obtain ⟨b, w', htests, hcomputes⟩ := computes_lowerCondition hM h σ w
    refine ⟨b, w', fun c w'' => ⟨htests.unique, ?_⟩, hcomputes⟩
    rintro ⟨rfl, rfl⟩
    exact htests

end Expressions

-- ----------------------------------------------------------------------------
-- A machine for doubles
-- ----------------------------------------------------------------------------

/-- What a machine for doubles takes from elsewhere, the conversions included. -/
structure Library extends Surroundings where
  Whole : Type
  Single : Type
  toInteger : Float → Whole
  ofInteger : Whole → Float
  toSingle : Float → Single
  ofSingle : Single → Float

namespace Library

/-- Doubles with the operations of the machine; texts are compared as they lie in
    memory. -/
def meaning (lib : Library) : Meaning where
  Num := Float
  Whole := lib.Whole
  Single := lib.Single
  Outer := lib.Outer
  literal := id
  arith := Arith.apply
  holds := Relation.ordered
  ofTruth := truth
  toInteger := lib.toInteger
  ofInteger := lib.ofInteger
  toSingle := lib.toSingle
  ofSingle := lib.ofSingle
  call := lib.call
  order := fun s t => strcmp (Constant.bytes s) (Constant.bytes t)
  draw := lib.draw
  read := lib.read
  undefined := 0.0 / 0.0

theorem standard_meaning (lib : Library) : lib.meaning.Standard := ⟨fun _ => rfl, fun _ _ => rfl⟩

/-- The functions and conversions of doubles; the world outside is the random numbers
    that are still to be drawn. -/
def native : Library where
  Outer := List Float
  call
    | .sqrt => Float.sqrt
    | .fabs => Float.abs
    | .sin => Float.sin
    | .cos => Float.cos
    | .tan => Float.tan
    | .atan => Float.atan
    | .log => Float.log
    | .exp => Float.exp
    | .floor => Float.floor
    | .round => Float.round
  draw rest := (rest.headD 0.0, rest.tail)
  read rest := (none, rest)
  Whole := Int64
  Single := Float32
  toInteger := Float.toInt64
  ofInteger := Int64.toFloat
  toSingle := Float.toFloat32
  ofSingle := Float32.toFloat

end Library

/-- `"AB" < "AC"` -/
def Expr.inOrder : Expr := .binary ⟨1, 20⟩ (.compare .lt) (.text ⟨1, 15⟩ "AB") (.text ⟨1, 22⟩ "AC")

/-- `X - RND(1) * ("AB" < "AC")` -/
def Expr.wager : Expr :=
  .binary ⟨1, 3⟩ (.arith .sub) (.var ⟨1, 1⟩ "X") (.binary ⟨1, 12⟩ (.arith .mul)
    (.call ⟨1, 5⟩ "RND" [.number ⟨1, 9⟩ 1.0]) .inOrder)

/-- Surroundings in which the two have code. -/
def Env.wager : Env := ⟨.ofList ["X"], .ofList ["AB", "AC"], []⟩

theorem strcmp_inOrder : strcmp (Constant.bytes "AB") (Constant.bytes "AC") = -1 := by
  rw [Constant.bytes, Constant.bytes, utf8_eq_flatMap, utf8_eq_flatMap]
  decide +kernel

theorem Expr.hasTy_inOrder : inOrder.HasTy Env.wager.names Env.wager.texts .number :=
  .compare (.text (by decide)) (.text (by decide))

theorem Expr.evaluates_inOrder {M : Meaning} {σ : String → M.Num} {w : M.Outer} :
    inOrder.Evaluates M σ w (M.literal 1.0) w := by
  have htexts : inOrder.Evaluates M σ w (M.literal (truth (Relation.ofOrder .lt _))) w :=
    .compareTexts
  rw [strcmp_inOrder] at htexts
  exact htexts

/-- With five temporaries in use, two and a half in the variable and a half to be drawn,
    the code comes to two, and the comparison in it holds. -/
theorem Expr.lower_computes_value_wager :
    (∃ es o n', Makes (Lower.straight (some 10) (wager.lower .wager)) 5 es o n' ∧
      Emission.labels es = [] ∧
      Code.Computes Library.native.meaning ["AB", "AC"] 5 es (fun _ => (2.5 : Float))
        [(0.5 : Float), (0.25 : Float)] [(0.25 : Float)]
        fun ρ' => o.value? ρ' = some (2.0 : Float)) ∧
    ∃ es t n', Makes (Lower.straight (some 10) (inOrder.lowerCondition .wager)) 5 es t n' ∧
      Code.Computes Library.native.meaning ["AB", "AC"] 5 es (fun _ => (2.5 : Float))
        [(0.5 : Float)] [(0.5 : Float)] fun ρ' => ρ' t = some (.truth true) := by
  have hrnd : Builtin.ofName? "RND" = some .rnd := by decide +kernel
  have hwager : wager.HasTy Env.wager.names Env.wager.texts .number :=
    .arith (.var (by decide)) (.arith (.call hrnd .number) hasTy_inOrder)
  have hvalue : ∀ v : Float, (2.5 : Float) - 0.5 * 1.0 = v →
      wager.Evaluates Library.native.meaning (fun _ => (2.5 : Float))
        [(0.5 : Float), (0.25 : Float)] v [(0.25 : Float)] := by
    rintro _ rfl
    exact .arith .var (.arith (.call hrnd .number .rnd) evaluates_inOrder)
  constructor
  · have hsettles : Settles (fun _ => False) (wager.lower .wager) fun _ => True :=
      settles_lower hwager rfl
    obtain ⟨es, o, n', hmakes, -⟩ := (Settles.straight hsettles).makes 5
    obtain ⟨hlabels, hvalues⟩ := (lower_computes_value _ Library.native.standard_meaning .wager
      (some 10) wager 5 n' es).1 o hmakes
    obtain ⟨v, w', hunique, hcomputes⟩ := hvalues (fun _ => (2.5 : Float))
      [(0.5 : Float), (0.25 : Float)]
    obtain ⟨rfl, rfl⟩ := (hunique _ _).1 (hvalue 2.0 (by decide +kernel))
    exact ⟨es, o, n', hmakes, hlabels, hcomputes⟩
  · have hsettles : Settles (fun _ => False) (inOrder.lowerCondition .wager) fun _ => True :=
      settles_lowerCondition hasTy_inOrder (.inl rfl)
    obtain ⟨es, t, n', hmakes, -⟩ := (Settles.straight hsettles).makes 5
    obtain ⟨-, houtcomes⟩ := (lower_computes_value _ Library.native.standard_meaning .wager
      (some 10) inOrder 5 n' es).2 t hmakes
    obtain ⟨b, w', hunique, hcomputes⟩ := houtcomes (fun _ => (2.5 : Float)) [(0.5 : Float)]
    obtain ⟨rfl, rfl⟩ := (hunique _ _).1 .texts
    rw [strcmp_inOrder] at hcomputes
    exact ⟨es, t, n', hmakes, hcomputes⟩

end LineBasic
