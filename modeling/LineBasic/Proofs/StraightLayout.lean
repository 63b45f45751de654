/-
  LineBasic.Proofs.StraightLayout

  What straight code looks like.  `ValueCode` relates an expression to the steps that
  work out its value, `TestCode` a condition to the steps that find out whether it holds,
  and `PlainCode` a statement without labels to its steps: one case for every form, with
  the instructions written out and the temporaries numbered.

  As `CodeOf` is for the code of statements with labels, these relations are what
  everything else about straight code is proved from; how expressions and functions are
  lowered is only looked at here.
-/

import LineBasic.Proofs.CodeLayout

namespace LineBasic

open Straight

-- ============================================================================
-- Functions
-- ============================================================================

/-- `BuiltinCode b x n steps y n'`: when `n` temporaries are in use, the code of the function
    `b` on the operand `x` is `steps`.  The value is `y`, and `n'` temporaries are in use
    behind it. -/
inductive BuiltinCode (x : Operand) (n : Nat) :
    Builtin → List Step → Operand → Nat → Prop where
  | cdbl : BuiltinCode x n .cdbl [] x n
  | rnd : BuiltinCode x n .rnd [⟨.ordinary, .draw ⟨n⟩⟩] (.temp ⟨n⟩) (n + 1)
  | fix :
      BuiltinCode x n .fix
        [⟨.ordinary, .toInteger ⟨n⟩ x⟩, ⟨.ordinary, .ofInteger ⟨n + 1⟩ ⟨n⟩⟩]
        (.temp ⟨n + 1⟩) (n + 2)
  | sgn :
      BuiltinCode x n .sgn
        [⟨.ordinary, .compare ⟨n⟩ .gt x (.literal 0.0)⟩, ⟨.ordinary, .ofTruth ⟨n + 1⟩ ⟨n⟩⟩,
          ⟨.ordinary, .compare ⟨n + 2⟩ .lt x (.literal 0.0)⟩,
          ⟨.ordinary, .ofTruth ⟨n + 3⟩ ⟨n + 2⟩⟩,
          ⟨.ordinary, .arith ⟨n + 4⟩ .sub (.temp ⟨n + 1⟩) (.temp ⟨n + 3⟩)⟩]
        (.temp ⟨n + 4⟩) (n + 5)
  | csng :
      BuiltinCode x n .csng
        [⟨.ordinary, .toSingle ⟨n⟩ x⟩, ⟨.ordinary, .ofSingle ⟨n + 1⟩ ⟨n⟩⟩]
        (.temp ⟨n + 1⟩) (n + 2)
  | math {f : MathFunction} :
      BuiltinCode x n (.math f) [⟨.ordinary, .call ⟨n⟩ f x⟩] (.temp ⟨n⟩) (n + 1)

section Functions

variable {b : Builtin} {x y : Operand} {n n' : Nat} {steps : List Step}

/-- Every function has code. -/
theorem exists_builtinCode (b : Builtin) (x : Operand) (n : Nat) :
    ∃ steps y n', BuiltinCode x n b steps y n' := by
  cases b with
  | cdbl => exact ⟨_, _, _, .cdbl⟩
  | rnd => exact ⟨_, _, _, .rnd⟩
  | fix => exact ⟨_, _, _, .fix⟩
  | sgn => exact ⟨_, _, _, .sgn⟩
  | csng => exact ⟨_, _, _, .csng⟩
  | math f => exact ⟨_, _, _, .math⟩

/-- The code of a function, as it is laid out, is made. -/
theorem BuiltinCode.makes (h : BuiltinCode x n b steps y n') : Makes (b.lower x) n steps y n' := by
  cases h with
  | cdbl => rfl
  | rnd => rfl
  | fix => rfl
  | sgn => rfl
  | csng => rfl
  | math => rfl

/-- The code of a function is the one laid out: there is only one outcome of making it. -/
theorem Builtin.makes_lower : Makes (b.lower x) n steps y n' ↔ BuiltinCode x n b steps y n' := by
  refine ⟨fun h => ?_, BuiltinCode.makes⟩
  obtain ⟨steps', y', n₁, hcode⟩ := exists_builtinCode b x n
  obtain ⟨rfl, rfl, rfl⟩ := makes_unique hcode.makes h
  exact hcode

end Functions

-- ============================================================================
-- Expressions
-- ============================================================================

/-- The steps that compare the `j`-th string literal with the `k`-th. -/
def textTest (rel : Relation) (j k n : Nat) : List Step :=
  [⟨.ordinary, .address ⟨n⟩ (.literal j)⟩, ⟨.ordinary, .address ⟨n + 1⟩ (.literal k)⟩,
    ⟨.ordinary, .compareTexts ⟨n + 2⟩ ⟨n⟩ ⟨n + 1⟩⟩,
    ⟨.ordinary, .compareOrder ⟨n + 3⟩ rel ⟨n + 2⟩⟩]

/-- `ValueCode env e n steps x n'`: when `n` temporaries are in use, the code of the
    expression `e` is `steps`.  Its value is `x`, and `n'` temporaries are in use behind it. -/
inductive ValueCode (env : Env) : Expr → Nat → List Step → Operand → Nat → Prop where
  | number {pos x n} : ValueCode env (.number pos x) n [] (.literal x) n
  | var {pos name n} (slot : name ∈ env.names) :
      ValueCode env (.var pos name) n [⟨.ordinary, .load ⟨n⟩ name⟩] (.temp ⟨n⟩) (n + 1)
  | plus {pos e n steps x n'} (operand : ValueCode env e n steps x n') :
      ValueCode env (.unary pos .plus e) n steps x n'
  | minus {pos e n steps x n'} (operand : ValueCode env e n steps x n') :
      ValueCode env (.unary pos .minus e) n
        (steps ++ [⟨.negation, .arith ⟨n'⟩ .sub (.literal 0.0) x⟩]) (.temp ⟨n'⟩) (n' + 1)
  | texts {pos rel p a q b n j k} (left : env.texts.toList.idxOf? a = some j)
      (right : env.texts.toList.idxOf? b = some k) :
      ValueCode env (.binary pos (.compare rel) (.text p a) (.text q b)) n
        (textTest rel j k n ++ [⟨.ordinary, .ofTruth ⟨n + 4⟩ ⟨n + 3⟩⟩]) (.temp ⟨n + 4⟩) (n + 5)
  | compare {pos rel l r n steps x n₁ steps' y n₂} (left : ValueCode env l n steps x n₁)
      (right : ValueCode env r n₁ steps' y n₂) :
      ValueCode env (.binary pos (.compare rel) l r) n
        (steps ++ (steps' ++
          [⟨.ordinary, .compare ⟨n₂⟩ rel x y⟩, ⟨.ordinary, .ofTruth ⟨n₂ + 1⟩ ⟨n₂⟩⟩]))
        (.temp ⟨n₂ + 1⟩) (n₂ + 2)
  | arith {pos op l r n steps x n₁ steps' y n₂} (left : ValueCode env l n steps x n₁)
      (right : ValueCode env r n₁ steps' y n₂) :
      ValueCode env (.binary pos (.arith op) l r) n
        (steps ++ (steps' ++ [⟨.ordinary, .arith ⟨n₂⟩ op x y⟩])) (.temp ⟨n₂⟩) (n₂ + 1)
  | call {pos name b e n steps x n₁ steps' y n'} (function : Builtin.ofName? name = some b)
      (argument : ValueCode env e n steps x n₁) (code : BuiltinCode x n₁ b steps' y n') :
      ValueCode env (.call pos name [e]) n (steps ++ steps') y n'

/-- `TestCode env e n steps t n'`: the same for the condition `e` of a decision, whose
    outcome is held by `t`. -/
inductive TestCode (env : Env) : Expr → Nat → List Step → Temp → Nat → Prop where
  | texts {pos rel p a q b n j k} (left : env.texts.toList.idxOf? a = some j)
      (right : env.texts.toList.idxOf? b = some k) :
      TestCode env (.binary pos (.compare rel) (.text p a) (.text q b)) n
        (textTest rel j k n) ⟨n + 3⟩ (n + 4)
  | compare {pos rel l r n steps x n₁ steps' y n₂} (left : ValueCode env l n steps x n₁)
      (right : ValueCode env r n₁ steps' y n₂) :
      TestCode env (.binary pos (.compare rel) l r) n
        (steps ++ (steps' ++ [⟨.ordinary, .compare ⟨n₂⟩ rel x y⟩])) ⟨n₂⟩ (n₂ + 1)

section Expressions

variable {env : Env} {n n' : Nat} {steps : List Step}

/-- The string literals that have a constant have a place among the constants. -/
theorem Env.mem_texts_iff {s : String} :
    s ∈ env.texts ↔ ∃ k, env.texts.toList.idxOf? s = some k := by
  rw [← Ascending.mem_toList]
  cases hs : env.texts.toList.idxOf? s with
  | none => simpa using hs
  | some k =>
    refine ⟨fun _ => ⟨k, rfl⟩, fun _ => Classical.byContradiction fun hnot => ?_⟩
    rw [List.idxOf?_eq_none_iff.2 hnot] at hs
    cases hs

/-- The ways in which a comparison gets code: two string literals, or two numbers. -/
theorem Relation.makes_lower {rel : Relation} {l r : Expr} {lcode rcode : Straight Operand}
    {t : Temp} (h : Makes (rel.lower env l r lcode rcode) n steps t n') :
    (∃ p a q b j k, l = .text p a ∧ r = .text q b ∧ env.texts.toList.idxOf? a = some j ∧
        env.texts.toList.idxOf? b = some k ∧ steps = textTest rel j k n ∧ t = ⟨n + 3⟩ ∧
        n' = n + 4) ∨
      ∃ x n₁ y n₂ lsteps rsteps, Makes lcode n lsteps x n₁ ∧ Makes rcode n₁ rsteps y n₂ ∧
        steps = lsteps ++ (rsteps ++ [⟨.ordinary, .compare ⟨n₂⟩ rel x y⟩]) ∧ t = ⟨n₂⟩ ∧
        n' = n₂ + 1 := by
  unfold Relation.lower at h
  split at h
  · simp only [lowerTexts, makes_bind, Env.makes_textAddress, makes_define] at h
    obtain ⟨_, _, _, _, ⟨j, hj, rfl, rfl, rfl⟩, ⟨_, _, _, _, ⟨k, hk, rfl, rfl, rfl⟩,
      ⟨_, _, _, _, ⟨rfl, rfl, rfl⟩, ⟨rfl, rfl, rfl⟩, rfl⟩, rfl⟩, rfl⟩ := h
    exact .inl ⟨_, _, _, _, j, k, rfl, rfl, hj, hk, rfl, rfl, rfl⟩
  · simp only [makes_bind, makes_define] at h
    obtain ⟨x, n₁, _, _, hl, ⟨y, n₂, _, _, hr, ⟨rfl, rfl, rfl⟩, rfl⟩, rfl⟩ := h
    exact .inr ⟨x, n₁, y, n₂, _, _, hl, hr, rfl, rfl, rfl⟩

/-- The code of an expression is laid out as its form tells. -/
theorem Expr.valueCode_of_makes {e : Expr} {x : Operand} (h : Makes (e.lower env) n steps x n') :
    ValueCode env e n steps x n' := by
  induction e using Expr.rec_lower generalizing n steps x n' with
  | number pos y =>
    obtain ⟨rfl, rfl, rfl⟩ := makes_pure.1 h
    exact .number
  | text pos s => exact absurd h not_makes_fail
  | var pos name =>
    simp only [lower, makes_bind, Env.makes_requireSlot, makes_define, makes_pure] at h
    obtain ⟨_, _, _, _, ⟨hname, rfl, rfl⟩, ⟨_, _, _, _, ⟨rfl, rfl, rfl⟩, ⟨rfl, rfl, rfl⟩, rfl⟩,
      rfl⟩ := h
    exact .var hname
  | plus pos e ih => exact .plus (ih h)
  | minus pos e ih =>
    simp only [lower, makes_bind, makes_defineAs, makes_pure] at h
    obtain ⟨_, _, _, _, he, ⟨_, _, _, _, ⟨rfl, rfl, rfl⟩, ⟨rfl, rfl, rfl⟩, rfl⟩, rfl⟩ := h
    exact .minus (ih he)
  | compare pos rel l r ihl ihr =>
    simp only [lower, makes_bind, makes_define, makes_pure] at h
    obtain ⟨_, _, _, _, htest, ⟨_, _, _, _, ⟨rfl, rfl, rfl⟩, ⟨rfl, rfl, rfl⟩, rfl⟩, rfl⟩ := h
    -- The operands were two text literals or two numbers.
    rcases Relation.makes_lower htest with
      ⟨_, _, _, _, j, k, rfl, rfl, hj, hk, rfl, rfl, rfl⟩ |
      ⟨_, _, _, _, lsteps, rsteps, hl, hr, rfl, rfl, rfl⟩
    · exact .texts hj hk
    · simp only [List.append_assoc, List.cons_append, List.nil_append]
      exact .compare (ihl hl) (ihr hr)
  | arith pos op l r ihl ihr =>
    simp only [lower, makes_bind, makes_define, makes_pure] at h
    obtain ⟨_, _, _, _, hl, ⟨_, _, _, _, hr, ⟨_, _, _, _, ⟨rfl, rfl, rfl⟩, ⟨rfl, rfl, rfl⟩, rfl⟩,
      rfl⟩, rfl⟩ := h
    exact .arith (ihl hl) (ihr hr)
  | unknown pos name args hb =>
    rw [Expr.lower_unknown hb] at h
    exact absurd h not_makes_fail
  | call pos name b arg hb ih =>
    rw [Expr.lower_call hb] at h
    obtain ⟨_, _, _, _, harg, hcode, rfl⟩ := makes_bind.1 h
    exact .call hb (ih harg) (Builtin.makes_lower.1 hcode)
  | arity pos name b args hb hargs =>
    rw [Expr.lower_arity hb hargs] at h
    exact absurd h not_makes_fail

/-- What has code is no text. -/
theorem ValueCode.ne_text {e : Expr} {x : Operand} (h : ValueCode env e n steps x n')
    (pos : Position) (s : String) : e ≠ .text pos s := by
  rintro rfl
  cases h

theorem Relation.makes_of_texts {rel : Relation} {p q : Position} {a b : String}
    {lcode rcode : Straight Operand} {j k : Nat} (hj : env.texts.toList.idxOf? a = some j)
    (hk : env.texts.toList.idxOf? b = some k) :
    Makes (rel.lower env (.text p a) (.text q b) lcode rcode) n (textTest rel j k n) ⟨n + 3⟩
      (n + 4) :=
  makes_bind.2 ⟨_, _, _, _, Env.makes_textAddress.2 ⟨j, hj, rfl, rfl, rfl⟩,
    makes_bind.2 ⟨_, _, _, _, Env.makes_textAddress.2 ⟨k, hk, rfl, rfl, rfl⟩, rfl, rfl⟩, rfl⟩

theorem Relation.makes_of_values {rel : Relation} {l r : Expr} {lcode rcode : Straight Operand}
    {lsteps rsteps : List Step} {x y : Operand} {n₁ n₂ : Nat} (hl : Makes lcode n lsteps x n₁)
    (hr : Makes rcode n₁ rsteps y n₂) (hnot : ∀ p a, l ≠ .text p a) :
    Makes (rel.lower env l r lcode rcode) n
      (lsteps ++ (rsteps ++ [⟨.ordinary, .compare ⟨n₂⟩ rel x y⟩])) ⟨n₂⟩ (n₂ + 1) := by
  rw [Relation.lower.eq_2 _ _ _ _ _ _ fun p a _ _ hp _ => hnot p a hp]
  exact makes_bind.2 ⟨_, _, _, _, hl, makes_bind.2 ⟨_, _, _, _, hr, rfl, rfl⟩, rfl⟩

/-- What is laid out can be made. -/
theorem ValueCode.makes {e : Expr} {x : Operand} (h : ValueCode env e n steps x n') :
    Makes (e.lower env) n steps x n' := by
  induction h with
  | number => rfl
  | var slot =>
    exact makes_bind.2 ⟨(), _, _, _, Env.makes_requireSlot.2 ⟨slot, rfl, rfl⟩, rfl, rfl⟩
  | plus _ ih => exact ih
  | minus _ ih => exact makes_bind.2 ⟨_, _, _, _, ih, rfl, rfl⟩
  | texts left right =>
    exact makes_bind.2 ⟨_, _, _, _, Relation.makes_of_texts left right, rfl, rfl⟩
  | compare left _ ihl ihr =>
    refine makes_bind.2 ⟨_, _, _, _, Relation.makes_of_values ihl ihr left.ne_text, rfl, ?_⟩
    simp only [List.append_assoc, List.cons_append, List.nil_append]
    rfl
  | arith _ _ ihl ihr =>
    exact makes_bind.2 ⟨_, _, _, _, ihl, makes_bind.2 ⟨_, _, _, _, ihr, rfl, rfl⟩, rfl⟩
  | call function _ code ih =>
    rw [Expr.lower_call function]
    exact makes_bind.2 ⟨_, _, _, _, ih, code.makes, rfl⟩

/-- The code of an expression is what its layout says. -/
theorem Expr.makes_lower {e : Expr} {x : Operand} :
    Makes (e.lower env) n steps x n' ↔ ValueCode env e n steps x n' :=
  ⟨valueCode_of_makes, ValueCode.makes⟩

/-- The code of a condition is laid out as its form tells. -/
theorem Expr.makes_lowerCondition {e : Expr} {t : Temp} :
    Makes (e.lowerCondition env) n steps t n' ↔ TestCode env e n steps t n' := by
  constructor
  · intro h
    unfold lowerCondition at h
    split at h
    · rcases Relation.makes_lower h with
        ⟨_, _, _, _, j, k, rfl, rfl, hj, hk, rfl, rfl, rfl⟩ |
        ⟨_, _, _, _, lsteps, rsteps, hl, hr, rfl, rfl, rfl⟩
      · exact .texts hj hk
      · exact .compare (valueCode_of_makes hl) (valueCode_of_makes hr)
    · exact absurd h not_makes_fail
  · intro h
    cases h with
    | texts left right =>
      rw [lowerCondition]
      exact Relation.makes_of_texts left right
    | compare left right => exact Relation.makes_of_values left.makes right.makes left.ne_text

end Expressions

-- ============================================================================
-- Statements without labels
-- ============================================================================

/-- Whether a statement may stand in a loop. -/
def Stmt.fitsLoop : Stmt → Bool
  | assign .. => true
  | print .. => true
  | _ => false

/-- `PlainCode env s n steps n'`: when `n` temporaries are in use, the code of the statement
    `s`, which only works something out, stores, prints or reads, is `steps`. -/
inductive PlainCode (env : Env) : Stmt → Nat → List Step → Nat → Prop where
  | assign {pos name value n steps x n'} (code : ValueCode env value n steps x n')
      (slot : name ∈ env.names) :
      PlainCode env (.assign pos name value) n (steps ++ [⟨.ordinary, .store x name⟩]) n'
  | printText {pos pos' s n k} (text : env.texts.toList.idxOf? s = some k) :
      PlainCode env (.print pos (.text pos' s)) n
        [⟨.ordinary, .address ⟨n⟩ (.literal k)⟩, ⟨.ordinary, .address ⟨n + 1⟩ .textFormat⟩,
          ⟨.ordinary, .printText ⟨n + 1⟩ ⟨n⟩⟩] (n + 2)
  | printNumber {pos value n steps x n'} (code : ValueCode env value n steps x n') :
      PlainCode env (.print pos value) n
        (steps ++ [⟨.ordinary, .address ⟨n'⟩ .numberFormat⟩, ⟨.ordinary, .printNumber ⟨n'⟩ x⟩])
        (n' + 1)
  | input {pos name n} (slot : name ∈ env.names) :
      PlainCode env (.input pos name) n
        [⟨.ordinary, .address ⟨n⟩ .inputFormat⟩, ⟨.ordinary, .readNumber ⟨n⟩ name⟩] (n + 1)

/-- The code of the statements in a loop, one behind the other. -/
inductive BodyCode (env : Env) : List Stmt → Nat → List Step → Nat → Prop where
  | nil {n} : BodyCode env [] n [] n
  | cons {s ss n steps n₁ steps' n'} (fits : s.fitsLoop = true)
      (first : PlainCode env s n steps n₁) (rest : BodyCode env ss n₁ steps' n') :
      BodyCode env (s :: ss) n (steps ++ steps') n'

/-- The code of the step of a loop. -/
inductive AmountCode (env : Env) (n : Nat) : Option Expr → List Step → Operand → Nat → Prop where
  | one : AmountCode env n none [] (.literal 1.0) n
  | given {e steps x n'} (code : ValueCode env e n steps x n') :
      AmountCode env n (some e) steps x n'

namespace Stmt

variable {env : Env} {n n' : Nat} {steps : List Step}

theorem plainCode_of_makes_assign {pos : Position} {name : String} {value : Expr} {u : Unit}
    (h : Makes (lowerAssign env name value) n steps u n') :
    PlainCode env (.assign pos name value) n steps n' := by
  simp only [lowerAssign, makes_bind, Env.makes_requireSlot, makes_emit] at h
  obtain ⟨_, _, _, _, hvalue, ⟨_, _, _, _, ⟨hname, rfl, rfl⟩, ⟨rfl, rfl⟩, rfl⟩, rfl⟩ := h
  exact .assign (Expr.makes_lower.1 hvalue) hname

/-- The code that prints is laid out by what it prints, a text or a number. -/
theorem plainCode_of_makes_print {pos : Position} {value : Expr} {u : Unit}
    (h : Makes (lowerPrint env value) n steps u n') :
    PlainCode env (.print pos value) n steps n' := by
  unfold lowerPrint at h
  split at h
  · simp only [makes_bind, Env.makes_textAddress, makes_define, makes_emit] at h
    obtain ⟨_, _, _, _, ⟨k, hk, rfl, rfl, rfl⟩, ⟨_, _, _, _, ⟨rfl, rfl, rfl⟩, ⟨rfl, rfl⟩, rfl⟩,
      rfl⟩ := h
    exact .printText hk
  · simp only [makes_bind, makes_define, makes_emit] at h
    obtain ⟨_, _, _, _, hvalue, ⟨_, _, _, _, ⟨rfl, rfl, rfl⟩, ⟨rfl, rfl⟩, rfl⟩, rfl⟩ := h
    exact .printNumber (Expr.makes_lower.1 hvalue)

/-- The code of a plain statement is laid out as its form tells. -/
theorem plainCode_of_makes {s : Stmt} {x : Straight Unit} {u : Unit}
    (hplain : s.plain? env = some x) (h : Makes x n steps u n') : PlainCode env s n steps n' := by
  cases s with
  | assign pos name value =>
    cases hplain
    exact plainCode_of_makes_assign h
  | print pos value =>
    cases hplain
    exact plainCode_of_makes_print h
  | input pos name =>
    cases hplain
    simp only [lowerInput, makes_bind, Env.makes_requireSlot, makes_define, makes_emit] at h
    obtain ⟨_, _, _, _, ⟨hname, rfl, rfl⟩, ⟨_, _, _, _, ⟨rfl, rfl, rfl⟩, ⟨rfl, rfl⟩, rfl⟩,
      rfl⟩ := h
    exact .input hname
  | _ => cases hplain

/-- What is laid out can be made. -/
theorem makes_of_plainCode {s : Stmt} (h : PlainCode env s n steps n') :
    ∃ x, s.plain? env = some x ∧ Makes x n steps () n' := by
  cases h with
  | assign code slot =>
    exact ⟨_, rfl, makes_bind.2 ⟨_, _, _, _, code.makes,
      makes_bind.2 ⟨(), _, _, _, Env.makes_requireSlot.2 ⟨slot, rfl, rfl⟩, rfl, rfl⟩, rfl⟩⟩
  | printText text =>
    exact ⟨_, rfl, makes_bind.2 ⟨_, _, _, _, Env.makes_textAddress.2 ⟨_, text, rfl, rfl, rfl⟩,
      rfl, rfl⟩⟩
  | printNumber code =>
    refine ⟨_, rfl, ?_⟩
    rw [lowerPrint.eq_2 _ _ code.ne_text]
    exact makes_bind.2 ⟨_, _, _, _, code.makes, rfl, rfl⟩
  | input slot =>
    exact ⟨_, rfl,
      makes_bind.2 ⟨(), _, _, _, Env.makes_requireSlot.2 ⟨slot, rfl, rfl⟩, rfl, rfl⟩⟩

/-- The code of a loop's body is the code of its statements, which only assign and print. -/
theorem bodyCode_of_makes {ss : List Stmt} {u : Unit}
    (h : Makes (lowerBody env ss) n steps u n') : BodyCode env ss n steps n' := by
  induction ss generalizing n steps with
  | nil =>
    obtain ⟨rfl, -, rfl⟩ := makes_pure.1 h
    exact .nil
  | cons s ss ih =>
    cases s with
    | assign pos name value =>
      obtain ⟨_, _, _, _, hs, hss, rfl⟩ := makes_bind.1 h
      exact .cons rfl (plainCode_of_makes_assign hs) (ih hss)
    | print pos value =>
      obtain ⟨_, _, _, _, hs, hss, rfl⟩ := makes_bind.1 h
      exact .cons rfl (plainCode_of_makes_print hs) (ih hss)
    | _ => exact absurd h not_makes_fail

/-- The code of a step is that of its value, or none where there is no step. -/
theorem amountCode_of_makes {step : Option Expr} {x : Operand}
    (h : Makes (lowerStep env step) n steps x n') : AmountCode env n step steps x n' := by
  cases step with
  | none =>
    obtain ⟨rfl, rfl, rfl⟩ := makes_pure.1 h
    exact .one
  | some e => exact .given (Expr.makes_lower.1 h)

end Stmt

end LineBasic
