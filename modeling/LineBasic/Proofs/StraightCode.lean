/-
  LineBasic.Proofs.StraightCode

  Straight code does what the expressions and statements it was made from mean.  The
  code is run by the code machine; temporaries that were in use before it keep what
  they hold.
-/

import LineBasic.Proofs.CodeMachine
import LineBasic.Proofs.LineMachine
import LineBasic.Proofs.StraightLayout

namespace LineBasic

variable {M : Meaning} {texts : List String} {n n' : Nat} {ρ ρ' : Regs M} {μ μ' : M.Mem}

-- ============================================================================
-- Temporaries in use
-- ============================================================================

/-- More temporaries are in use, and those that were hold what they held. -/
structure Regs.Grow (n : Nat) (ρ : Regs M) (n' : Nat) (ρ' : Regs M) : Prop where
  le : n ≤ n'
  keep : ∀ t : Temp, t.index < n → ρ' t = ρ t

namespace Regs.Grow

theorem refl : Grow n ρ n ρ := ⟨Nat.le_refl n, fun _ _ => rfl⟩

theorem trans {n'' : Nat} {ρ'' : Regs M} (h : Grow n ρ n' ρ') (h' : Grow n' ρ' n'' ρ'') :
    Grow n ρ n'' ρ'' :=
  ⟨Nat.le_trans h.le h'.le, fun t ht =>
    (h'.keep t (Nat.lt_of_lt_of_le ht h.le)).trans (h.keep t ht)⟩

theorem set {c : Cell M} : Grow n ρ (n + 1) (ρ.set ⟨n⟩ c) := by
  refine ⟨Nat.le_succ n, fun t ht => Regs.set_of_ne ?_⟩
  rintro rfl
  exact Nat.lt_irrefl n ht

end Regs.Grow

/-- A temporary in use holds `c`. -/
def Temp.Holds (n : Nat) (ρ : Regs M) (t : Temp) (c : Cell M) : Prop :=
  t.index < n ∧ ρ t = some c

theorem Temp.Holds.grow {t : Temp} {c : Cell M} (h : t.Holds n ρ c) (hgrow : ρ.Grow n n' ρ') :
    t.Holds n' ρ' c :=
  ⟨Nat.lt_of_lt_of_le h.1 hgrow.le, (hgrow.keep t h.1).trans h.2⟩

/-- An operand stands for the number `v`. -/
def Operand.Is (n : Nat) (ρ : Regs M) (o : Operand) (v : M.Num) : Prop :=
  match o with
  | literal x => v = M.literal x
  | temp t => t.Holds n ρ (.number v)

namespace Operand.Is

variable {o : Operand} {v : M.Num}

theorem temp {t : Temp} (h : t.Holds n ρ (.number v)) : (Operand.temp t).Is n ρ v := h

theorem grow (h : o.Is n ρ v) (hgrow : ρ.Grow n n' ρ') : o.Is n' ρ' v := by
  cases o with
  | literal x => exact h
  | temp t => exact Temp.Holds.grow h hgrow

theorem value? (h : o.Is n ρ v) : o.value? ρ = some v := by
  cases o with
  | literal x => exact congrArg some h.symm
  | temp t => simp only [Operand.value?, h.2]

end Operand.Is

-- ============================================================================
-- Running straight code
-- ============================================================================

/-- Steps one after the other are executed one after the other. -/
theorem execAll_append {steps steps' : List Step} (h : execAll M texts ρ μ steps = some (ρ', μ')) :
    execAll M texts ρ μ (steps ++ steps') = execAll M texts ρ' μ' steps' := by
  induction steps generalizing ρ μ with
  | nil =>
    cases h
    rfl
  | cons s steps ih =>
    rw [List.cons_append, execAll]
    rw [execAll] at h
    split at h
    · exact ih h
    · cases h

/-- Steps that were made when `n` temporaries were in use, and are run when these hold `ρ`,
    turn the memory `μ` into `μ'`.  Behind them `n'` temporaries are in use, and what they
    hold satisfies `post`. -/
def Executes (texts : List String) (n : Nat) (ρ : Regs M) (μ : M.Mem) (steps : List Step)
    (n' : Nat) (μ' : M.Mem) (post : Regs M → Prop) : Prop :=
  ∃ ρ', execAll M texts ρ μ steps = some (ρ', μ') ∧ ρ.Grow n n' ρ' ∧ post ρ'

namespace Executes

variable {n₁ : Nat} {μ₁ : M.Mem} {steps steps' : List Step} {mid post : Regs M → Prop}
  {role : Role} {i : Instr}

theorem nil (h : post ρ) : Executes texts n ρ μ [] n μ post := ⟨ρ, rfl, .refl, h⟩

theorem append (h : Executes texts n ρ μ steps n₁ μ₁ mid)
    (h' : ∀ ρ₁, ρ.Grow n n₁ ρ₁ → mid ρ₁ → Executes texts n₁ ρ₁ μ₁ steps' n' μ' post) :
    Executes texts n ρ μ (steps ++ steps') n' μ' post := by
  obtain ⟨ρ₁, hexec, hgrow, hmid⟩ := h
  obtain ⟨ρ₂, hexec', hgrow', hpost⟩ := h' ρ₁ hgrow hmid
  exact ⟨ρ₂, (execAll_append hexec).trans hexec', hgrow.trans hgrow', hpost⟩

/-- An instruction that defines the next temporary, and what comes behind it. -/
theorem define {c : Cell M} (h : i.exec M texts ρ μ = some (ρ.set ⟨n⟩ c, μ₁))
    (h' : ∀ ρ₁, ρ.Grow n (n + 1) ρ₁ → Temp.Holds (n + 1) ρ₁ ⟨n⟩ c →
      Executes texts (n + 1) ρ₁ μ₁ steps n' μ' post) :
    Executes texts n ρ μ (⟨role, i⟩ :: steps) n' μ' post := by
  obtain ⟨ρ', hexec, hgrow, hpost⟩ := h' _ .set ⟨Nat.lt_succ_self n, Regs.set_self⟩
  refine ⟨ρ', ?_, Regs.Grow.set.trans hgrow, hpost⟩
  simp only [execAll, h, hexec]

/-- An instruction that defines nothing, at the end. -/
theorem effect (h : i.exec M texts ρ μ = some (ρ, μ')) (hpost : post ρ) :
    Executes texts n ρ μ [⟨role, i⟩] n μ' post := by
  refine ⟨ρ, ?_, .refl, hpost⟩
  simp only [execAll, h]

end Executes

-- ============================================================================
-- Instructions
-- ============================================================================

namespace Instr

variable {o l r : Operand} {d t x y : Temp} {u v : M.Num}

theorem exec_arith {op : Arith} (hl : l.Is n ρ u) (hr : r.Is n ρ v) :
    (arith d op l r).exec M texts ρ μ = some (ρ.set d (.number (M.arith op u v)), μ) := by
  simp only [exec, hl.value?, hr.value?]
  rfl

theorem exec_compare {rel : Relation} (hl : l.Is n ρ u) (hr : r.Is n ρ v) :
    (compare d rel l r).exec M texts ρ μ
      = some (ρ.set d (.truth (M.compare rel u v μ).1), (M.compare rel u v μ).2) := by
  simp only [exec, hl.value?, hr.value?]
  rfl

theorem exec_ofTruth {b : Bool} (h : t.Holds n ρ (.truth b)) :
    (ofTruth d t).exec M texts ρ μ = some (ρ.set d (.number (M.ofTruth b)), μ) := by
  simp only [exec, h.2]

theorem exec_toInteger (h : o.Is n ρ v) :
    (toInteger d o).exec M texts ρ μ = some (ρ.set d (.whole (M.toInteger v)), μ) := by
  simp only [exec, h.value?]
  rfl

theorem exec_ofInteger {i : M.Whole} (h : t.Holds n ρ (.whole i)) :
    (ofInteger d t).exec M texts ρ μ = some (ρ.set d (.number (M.ofInteger i)), μ) := by
  simp only [exec, h.2]

theorem exec_toSingle (h : o.Is n ρ v) :
    (toSingle d o).exec M texts ρ μ = some (ρ.set d (.single (M.toSingle v)), μ) := by
  simp only [exec, h.value?]
  rfl

theorem exec_ofSingle {s : M.Single} (h : t.Holds n ρ (.single s)) :
    (ofSingle d t).exec M texts ρ μ = some (ρ.set d (.number (M.ofSingle s)), μ) := by
  simp only [exec, h.2]

theorem exec_call {f : MathFunction} (h : o.Is n ρ v) :
    (call d f o).exec M texts ρ μ = some (ρ.set d (.number (M.call f v)), μ) := by
  simp only [exec, h.value?]
  rfl

theorem exec_compareTexts {i j : Nat} {a b : String} (hx : x.Holds n ρ (.address (.literal i)))
    (ha : texts[i]? = some a) (hy : y.Holds n ρ (.address (.literal j)))
    (hb : texts[j]? = some b) :
    (compareTexts d x y).exec M texts ρ μ = some (ρ.set d (.order (M.order a b)), μ) := by
  simp only [exec, Regs.text?, hx.2, ha, hy.2, hb]
  rfl

theorem exec_compareOrder {rel : Relation} {k : Int} (h : t.Holds n ρ (.order k)) :
    (compareOrder d rel t).exec M texts ρ μ
      = some (ρ.set d (.truth (rel.ofOrder k)), μ.perform (.compared rel (rel.ofOrder k))) := by
  simp only [exec, h.2]

theorem exec_store {name : String} (h : o.Is n ρ v) :
    (store o name).exec M texts ρ μ = some (ρ, μ.assign name v) := by
  simp only [exec, h.value?]
  rfl

end Instr

-- ============================================================================
-- Expressions
-- ============================================================================

section Expressions

variable {env : Env} {steps : List Step}

/-- The code of a function works out what the function gives for its operand. -/
theorem BuiltinCode.executes {b : Builtin} {o y : Operand} {v : M.Num}
    (h : BuiltinCode o n b steps y n') (ho : o.Is n ρ v) :
    Executes texts n ρ μ steps n' (b.eval M v μ).2 fun ρ' => y.Is n' ρ' (b.eval M v μ).1 := by
  cases h with
  | cdbl => exact .nil ho
  | rnd => exact .define rfl fun _ _ ht => .nil ht
  | fix =>
    exact .define (Instr.exec_toInteger ho) fun _ _ hwhole =>
      .define (Instr.exec_ofInteger hwhole) fun _ _ ht => .nil ht
  | sgn =>
    refine .define (Instr.exec_compare ho rfl) fun _ hgrow₁ habove => ?_
    refine .define (Instr.exec_ofTruth habove) fun _ hgrow₂ hone => ?_
    refine .define (Instr.exec_compare (ho.grow (hgrow₁.trans hgrow₂)) rfl)
      fun _ hgrow₃ hbelow => ?_
    refine .define (Instr.exec_ofTruth hbelow) fun _ hgrow₄ hother => ?_
    exact .define (Instr.exec_arith (.temp ((hone.grow hgrow₃).grow hgrow₄)) (.temp hother))
      fun _ _ ht => .nil ht
  | csng =>
    exact .define (Instr.exec_toSingle ho) fun _ _ hsingle =>
      .define (Instr.exec_ofSingle hsingle) fun _ _ ht => .nil ht
  | math => exact .define (Instr.exec_call ho) fun _ _ ht => .nil ht

/-- The addresses of two string literals lead to their texts, which are compared. -/
theorem executes_textTest {rel : Relation} {a b : String} {j k : Nat}
    (hj : env.texts.toList.idxOf? a = some j) (hk : env.texts.toList.idxOf? b = some k) :
    Executes env.texts.toList n ρ μ (textTest rel j k n) (n + 4) (M.compareTexts rel a b μ).2
      fun ρ' => Temp.Holds (n + 4) ρ' ⟨n + 3⟩ (.truth (M.compareTexts rel a b μ).1) := by
  refine .define rfl fun _ _ hx => .define rfl fun _ hgrow hy => ?_
  refine .define (Instr.exec_compareTexts (hx.grow hgrow) (Env.getElem?_of_idxOf? hj) hy
    (Env.getElem?_of_idxOf? hk)) fun _ _ horder => ?_
  exact .define (Instr.exec_compareOrder horder) fun _ _ ht => .nil ht

/-- Where the left operand is no text, the operands of a comparison are numbers. -/
theorem Relation.eval_of_ne_text {rel : Relation} {l r : Expr} {lvalue rvalue : M.Eval M.Num}
    (h : ∀ p a, l ≠ .text p a) :
    rel.eval M l r lvalue rvalue = fun μ =>
      M.compare rel (lvalue μ).1 (rvalue (lvalue μ).2).1 (rvalue (lvalue μ).2).2 := by
  rw [Relation.eval.eq_2 M rel l r lvalue rvalue fun p a _ _ hp _ => h p a hp]
  rfl

/-- The code of an expression works out its value. -/
theorem ValueCode.executes {e : Expr} {x : Operand} (h : ValueCode env e n steps x n')
    (ρ : Regs M) (μ : M.Mem) :
    Executes env.texts.toList n ρ μ steps n' (e.eval M μ).2
      fun ρ' => x.Is n' ρ' (e.eval M μ).1 := by
  induction h generalizing ρ μ with
  | number => exact .nil rfl
  | var _ => exact .define rfl fun _ _ ht => .nil ht
  | plus _ ih => exact ih ρ μ
  | minus _ ih =>
    exact (ih ρ μ).append fun _ _ hx => .define (Instr.exec_arith rfl hx) fun _ _ ht => .nil ht
  | texts left right =>
    exact (executes_textTest left right).append fun _ _ hc =>
      .define (Instr.exec_ofTruth hc) fun _ _ ht => .nil ht
  | compare left _ ihl ihr =>
    rw [Expr.eval, Relation.eval_of_ne_text left.ne_text]
    refine (ihl ρ μ).append fun _ _ hx => (ihr _ _).append fun _ hgrow hy => ?_
    exact .define (Instr.exec_compare (hx.grow hgrow) hy) fun _ _ hc =>
      .define (Instr.exec_ofTruth hc) fun _ _ ht => .nil ht
  | arith _ _ ihl ihr =>
    refine (ihl ρ μ).append fun _ _ hx => (ihr _ _).append fun _ hgrow hy => ?_
    exact .define (Instr.exec_arith (hx.grow hgrow) hy) fun _ _ ht => .nil ht
  | call function _ code ih =>
    rw [Expr.eval_call M function]
    exact (ih ρ μ).append fun _ _ hx => code.executes hx

/-- The code of a condition finds out whether it holds. -/
theorem TestCode.executes {e : Expr} {t : Temp} (h : TestCode env e n steps t n') :
    Executes env.texts.toList n ρ μ steps n' (e.test M μ).2
      fun ρ' => t.Holds n' ρ' (.truth (e.test M μ).1) := by
  cases h with
  | texts left right => exact executes_textTest left right
  | compare left right =>
    rw [Expr.test, Relation.eval_of_ne_text left.ne_text]
    refine (left.executes ρ μ).append fun _ _ hx =>
      (right.executes _ _).append fun _ hgrow hy => ?_
    exact .define (Instr.exec_compare (hx.grow hgrow) hy) fun _ _ ht => .nil ht

end Expressions

-- ============================================================================
-- Statements
-- ============================================================================

section Statements

variable {env : Env} {steps : List Step}

/-- The code of a plain statement does what the statement does. -/
theorem PlainCode.executes {s : Stmt} (h : PlainCode env s n steps n') :
    Executes env.texts.toList n ρ μ steps n' (M.sense.act s μ) fun _ => True := by
  cases h with
  | assign code _ =>
    exact (code.executes ρ μ).append fun _ _ hx => .effect (Instr.exec_store hx) trivial
  | printText text =>
    refine .define rfl fun _ _ hx => .define rfl fun _ hgrow hformat => .effect ?_ trivial
    simp only [Instr.exec, hformat.2, Regs.text?, (hx.grow hgrow).2, Env.getElem?_of_idxOf? text]
    rfl
  | @printNumber pos value n steps x n' code =>
    refine (code.executes ρ μ).append fun _ _ hx => ?_
    refine .define rfl fun _ hgrow hformat => .effect ?_ trivial
    simp only [Instr.exec, hformat.2, (hx.grow hgrow).value?]
    cases value with
    | text pos' s => exact absurd rfl (code.ne_text pos' s)
    | _ => rfl
  | input _ =>
    refine .define rfl fun _ _ hformat => .effect ?_ trivial
    simp only [Instr.exec, hformat.2]
    rfl

/-- The code of the body of a loop does what its statements do. -/
theorem BodyCode.executes {ss : List Stmt} (h : BodyCode env ss n steps n') (ρ : Regs M)
    (μ : M.Mem) :
    Executes env.texts.toList n ρ μ steps n' (M.sense.actAll ss μ) fun _ => True := by
  induction h generalizing ρ μ with
  | nil => exact .nil trivial
  | cons _ first _ ih => exact first.executes.append fun _ _ _ => ih _ _

/-- The code of the step of a loop works it out. -/
theorem AmountCode.executes {step : Option Expr} {x : Operand}
    (h : AmountCode env n step steps x n') :
    Executes env.texts.toList n ρ μ steps n' (M.sense.amount step μ).2
      fun ρ' => x.Is n' ρ' (M.sense.amount step μ).1 := by
  cases h with
  | one => exact .nil rfl
  | given code => exact code.executes ρ μ

/-- A plain statement has code. -/
theorem PlainCode.ne_nil {s : Stmt} (h : PlainCode env s n steps n') : steps ≠ [] := by
  cases h with
  | assign _ _ => simp
  | printText _ => simp
  | printNumber _ => simp
  | input _ => simp

end Statements

-- ============================================================================
-- Loops
-- ============================================================================

section Loops

variable {env : Env} {name : String} {start stop : Expr} {step : Option Expr} {body : List Stmt}
  {parts : LoopParts}

namespace LoopParts

/-- The steps that give the variable of a loop its first value. -/
def enterSteps (parts : LoopParts) (name : String) : List Step :=
  parts.first ++ [⟨.loopInit, .store parts.value name⟩]

/-- The steps that find out whether a loop has another round. -/
def againSteps (parts : LoopParts) (name : String) : List Step :=
  ⟨.ordinary, .load ⟨parts.current⟩ name⟩ :: (parts.test ++
    [⟨.loopTest, .compare ⟨parts.within⟩ .le (.temp ⟨parts.current⟩) parts.bound⟩])

/-- The steps that add the step of a loop to its variable. -/
def advanceSteps (parts : LoopParts) (name : String) : List Step :=
  parts.advance ++ [⟨.ordinary, .load ⟨parts.last⟩ name⟩,
    ⟨.loopStep, .arith ⟨parts.last + 1⟩ .add (.temp ⟨parts.last⟩) parts.amount⟩,
    ⟨.ordinary, .store (.temp ⟨parts.last + 1⟩) name⟩]

theorem initCode_eq {site k : Nat} {owner : Label} :
    parts.initCode site owner k name = (parts.enterSteps name).map (.step site)
      ++ [.step site ⟨.ordinary, .br (.loopTest owner k)⟩] := by
  simp [initCode, enterSteps]

theorem testCode_eq {site k : Nat} {owner : Label} :
    parts.testCode site owner k name = (parts.againSteps name).map (.step site)
      ++ [.step site ⟨.ordinary,
        .brIf ⟨parts.within⟩ (.loopBody owner k) (.loopEnd owner k)⟩] := by
  simp [testCode, againSteps]

theorem stepCode_eq {site k : Nat} {owner : Label} :
    parts.stepCode site owner k name = (parts.advanceSteps name).map (.step site)
      ++ [.step site ⟨.ordinary, .br (.loopTest owner k)⟩] := by
  simp [stepCode, advanceSteps]

namespace MakeUp

/-- The code in front of the test of a loop enters it. -/
theorem exec_enter (h : parts.MakeUp env name start stop step body n n') (ρ : Regs M) (μ : M.Mem) :
    ∃ ρ', execAll M env.texts.toList ρ μ (parts.enterSteps name)
      = some (ρ', M.sense.enter name start μ) := by
  have hfirst := (Expr.makes_lower.1 h.first).executes ρ μ
  obtain ⟨ρ', hexec, -⟩ := hfirst.append fun _ _ hx =>
    .effect (Instr.exec_store hx) (trivial : (fun _ => True) _)
  exact ⟨ρ', hexec⟩

/-- The code of the test of a loop finds out whether there is another round. -/
theorem exec_again (h : parts.MakeUp env name start stop step body n n') (ρ : Regs M) (μ : M.Mem) :
    ∃ ρ', execAll M env.texts.toList ρ μ (parts.againSteps name)
        = some (ρ', (M.sense.again name stop μ).2) ∧
      ρ' ⟨parts.within⟩ = some (.truth (M.sense.again name stop μ).1) := by
  have hexecutes : Executes env.texts.toList parts.current ρ μ (parts.againSteps name)
      (parts.within + 1) (M.sense.again name stop μ).2
      fun ρ' => Temp.Holds (parts.within + 1) ρ' ⟨parts.within⟩
        (.truth (M.sense.again name stop μ).1) := by
    refine .define rfl fun _ _ ht => ?_
    refine ((Expr.makes_lower.1 h.test).executes _ _).append fun _ hgrow hx => ?_
    exact .define (Instr.exec_compare (.temp (ht.grow hgrow)) hx) fun _ _ hc => .nil hc
  obtain ⟨ρ', hexec, -, hholds⟩ := hexecutes
  exact ⟨ρ', hexec, hholds.2⟩

/-- The code of the body of a loop does what its statements do. -/
theorem exec_body (h : parts.MakeUp env name start stop step body n n') (ρ : Regs M) (μ : M.Mem) :
    ∃ ρ', execAll M env.texts.toList ρ μ parts.body = some (ρ', M.sense.actAll body μ) := by
  obtain ⟨n₃, hmakes, -⟩ := h.body
  obtain ⟨ρ', hexec, -⟩ := (Stmt.bodyCode_of_makes hmakes).executes ρ μ
  exact ⟨ρ', hexec⟩

/-- The code behind the body of a loop adds the step. -/
theorem exec_advance (h : parts.MakeUp env name start stop step body n n') (ρ : Regs M)
    (μ : M.Mem) :
    ∃ ρ', execAll M env.texts.toList ρ μ (parts.advanceSteps name)
      = some (ρ', M.sense.advance name step μ) := by
  obtain ⟨n₃, -, hstep⟩ := h.body
  have hexecutes : Executes env.texts.toList n₃ ρ μ (parts.advanceSteps name) (parts.last + 2)
      (M.sense.advance name step μ) fun _ => True := by
    refine (Stmt.amountCode_of_makes hstep).executes.append fun _ _ hx => ?_
    refine .define rfl fun _ hgrow ht => ?_
    refine .define (Instr.exec_arith (.temp ht) (hx.grow hgrow)) fun _ _ hnext => ?_
    exact .effect (Instr.exec_store (Operand.Is.temp hnext)) trivial
  obtain ⟨ρ', hexec, -⟩ := hexecutes
  exact ⟨ρ', hexec⟩

end MakeUp

end LoopParts

end Loops

end LineBasic
