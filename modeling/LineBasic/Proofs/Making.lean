/-
  LineBasic.Proofs.Making

  Making code that succeeds.  `Makes x n es a n'` says that `x`, started when `n`
  temporaries are in use, leaves the code `es` behind, yields `a`, and ends with
  `n'` temporaries in use.  There is one equivalence for every way to make code, so
  that a sequence of steps can be taken apart without looking into the monad.
-/

import LineBasic.Lowering.Expr

namespace LineBasic

variable {ω α β : Type}

/-- `x` succeeds when `n` temporaries are in use: it leaves `es`, yields `a`, and
    `n'` temporaries are in use behind it. -/
def Makes (x : StateT Nat (Traced LowerError ω) α) (n : Nat) (es : List ω) (a : α)
    (n' : Nat) : Prop :=
  x.run n = ⟨es, .ok (a, n')⟩

/-- There is one way to succeed. -/
theorem makes_unique {x : StateT Nat (Traced LowerError ω) α} {n n₁ n₂ : Nat} {es es' : List ω}
    {a b : α} (h : Makes x n es a n₁) (h' : Makes x n es' b n₂) : es = es' ∧ a = b ∧ n₁ = n₂ := by
  injection (show (⟨es, .ok (a, n₁)⟩ : Traced LowerError ω (α × Nat)) = ⟨es', .ok (b, n₂)⟩
    from h.symm.trans h') with hes hout
  injection hout with hpair
  injection hpair with ha hn
  exact ⟨hes, ha, hn⟩

-- ============================================================================
-- Sequences
-- ============================================================================

@[simp] theorem makes_pure {a b : α} {n n' : Nat} {es : List ω} :
    Makes (pure a) n es b n' ↔ es = [] ∧ b = a ∧ n' = n := by
  constructor
  · intro h
    injection (show (⟨[], .ok (a, n)⟩ : Traced LowerError ω (α × Nat)) = ⟨es, .ok (b, n')⟩
      from h) with hes hout
    simp_all
  · rintro ⟨rfl, rfl, rfl⟩
    rfl

/-- Code in two parts is made of both, the second from where the first stopped. -/
theorem makes_bind {x : StateT Nat (Traced LowerError ω) α}
    {f : α → StateT Nat (Traced LowerError ω) β} {n n'' : Nat} {es : List ω} {b : β} :
    Makes (x >>= f) n es b n'' ↔
      ∃ a n' es₁ es₂, Makes x n es₁ a n' ∧ Makes (f a) n' es₂ b n'' ∧ es = es₁ ++ es₂ := by
  unfold Makes
  rw [StateT.run_bind]
  constructor
  · intro h
    rcases hx : x.run n with ⟨es₁, _ | ⟨a, n'⟩⟩
    · rw [Traced.bind_of_error (by rw [hx])] at h
      simp at h
    · rw [Traced.bind_of_ok (by rw [hx])] at h
      rcases hf : (f a).run n' with ⟨es₂, r⟩
      simp only [hx, hf, Traced.mk.injEq] at h
      exact ⟨a, n', es₁, es₂, rfl, by rw [hf, h.2], h.1.symm⟩
  · rintro ⟨a, n', es₁, es₂, hx, hf, rfl⟩
    rw [hx, Traced.bind_of_ok rfl, hf]

-- ============================================================================
-- Straight code
-- ============================================================================

namespace Straight

@[simp] theorem not_makes_fail {e : LowerError} {n n' : Nat} {es : List Step} {a : α} :
    ¬ Makes (fail e : Straight α) n es a n' := by
  intro h
  have hout : (Except.error e : Except LowerError (α × Nat)) = .ok (a, n') :=
    congrArg Traced.outcome h
  cases hout

@[simp] theorem makes_emitAs {role : Role} {i : Instr} {n n' : Nat} {es : List Step} {u : Unit} :
    Makes (emitAs role i) n es u n' ↔ es = [⟨role, i⟩] ∧ n' = n := by
  constructor
  · intro h
    injection (show (⟨[⟨role, i⟩], .ok ((), n)⟩ : Traced LowerError Step (Unit × Nat))
      = ⟨es, .ok (u, n')⟩ from h) with hes hout
    simp_all
  · rintro ⟨rfl, rfl⟩
    rfl

@[simp] theorem makes_emit {i : Instr} {n n' : Nat} {es : List Step} {u : Unit} :
    Makes (emit i) n es u n' ↔ es = [⟨.ordinary, i⟩] ∧ n' = n := makes_emitAs

/-- A definition takes the next number. -/
@[simp] theorem makes_defineAs {role : Role} {i : Temp → Instr} {n n' : Nat} {es : List Step}
    {t : Temp} :
    Makes (defineAs role i) n es t n' ↔ es = [⟨role, i ⟨n⟩⟩] ∧ t = ⟨n⟩ ∧ n' = n + 1 := by
  constructor
  · intro h
    injection (show (⟨[⟨role, i ⟨n⟩⟩], .ok (⟨n⟩, n + 1)⟩ : Traced LowerError Step (Temp × Nat))
      = ⟨es, .ok (t, n')⟩ from h) with hes hout
    simp_all
  · rintro ⟨rfl, rfl, rfl⟩
    rfl

@[simp] theorem makes_define {i : Temp → Instr} {n n' : Nat} {es : List Step} {t : Temp} :
    Makes (define i) n es t n' ↔ es = [⟨.ordinary, i ⟨n⟩⟩] ∧ t = ⟨n⟩ ∧ n' = n + 1 :=
  makes_defineAs

end Straight

namespace Env

/-- Asking for a slot makes no code. -/
@[simp] theorem makes_requireSlot {env : Env} {name : String} {n n' : Nat} {es : List Step}
    {u : Unit} :
    Makes (env.requireSlot name) n es u n' ↔ name ∈ env.names ∧ es = [] ∧ n' = n := by
  unfold requireSlot
  split
  · next h => simp [h]
  · next h => simp [h]

/-- The address of a literal is taken with one instruction, from its place in the pool. -/
@[simp] theorem makes_textAddress {env : Env} {value : String} {n n' : Nat} {es : List Step}
    {t : Temp} :
    Makes (env.textAddress value) n es t n' ↔
      ∃ k, env.texts.toList.idxOf? value = some k ∧
        es = [⟨.ordinary, .address ⟨n⟩ (.literal k)⟩] ∧ t = ⟨n⟩ ∧ n' = n + 1 := by
  unfold textAddress
  split
  · next k hk => simp [hk]
  · next hk => simp [hk]

/-- The number of a string literal is its place among the literals. -/
theorem getElem?_of_idxOf? {env : Env} {s : String} {k : Nat}
    (h : env.texts.toList.idxOf? s = some k) : env.texts.toList[k]? = some s := by
  obtain ⟨hlt, hs, -⟩ := List.idxOf?_eq_some_iff.1 h
  rw [List.getElem?_eq_getElem hlt, hs]

end Env

-- ============================================================================
-- Code with labels
-- ============================================================================

namespace Lower

@[simp] theorem not_makes_fail {e : LowerError} {n n' : Nat} {es : List Emission} {a : α} :
    ¬ Makes (fail e : Lower α) n es a n' := by
  intro h
  have hout : (Except.error e : Except LowerError (α × Nat)) = .ok (a, n') :=
    congrArg Traced.outcome h
  cases hout

/-- One emission and nothing else. -/
theorem makes_lift_note {e : Emission} {n n' : Nat} {es : List Emission} {u : Unit} :
    Makes (StateT.lift (Traced.note e) : Lower Unit) n es u n' ↔ es = [e] ∧ n' = n := by
  constructor
  · intro h
    injection (show (⟨[e], .ok ((), n)⟩ : Traced LowerError Emission (Unit × Nat))
      = ⟨es, .ok (u, n')⟩ from h) with hes hout
    simp_all
  · rintro ⟨rfl, rfl⟩
    rfl

@[simp] theorem makes_label {l : Label} {n n' : Nat} {es : List Emission} {u : Unit} :
    Makes (label l) n es u n' ↔ es = [.label l] ∧ n' = n := makes_lift_note

@[simp] theorem makes_note {a : Note} {n n' : Nat} {es : List Emission} {u : Unit} :
    Makes (note a) n es u n' ↔ es = [.note a] ∧ n' = n := makes_lift_note

@[simp] theorem makes_emitAs {site : Option Nat} {role : Role} {i : Instr} {n n' : Nat}
    {es : List Emission} {u : Unit} :
    Makes (emitAs site role i) n es u n' ↔ es = [.step site ⟨role, i⟩] ∧ n' = n :=
  makes_lift_note

@[simp] theorem makes_emit {site : Option Nat} {i : Instr} {n n' : Nat} {es : List Emission}
    {u : Unit} :
    Makes (emit site i) n es u n' ↔ es = [.step site ⟨.ordinary, i⟩] ∧ n' = n :=
  makes_lift_note

/-- Straight code is laid out at one line, step by step. -/
@[simp] theorem makes_straight {site : Option Nat} {x : Straight α} {n n' : Nat}
    {es : List Emission} {a : α} :
    Makes (straight site x) n es a n' ↔
      ∃ steps, Makes x n steps a n' ∧ es = steps.map (.step site) := by
  constructor
  · intro h
    injection (show (⟨(x.run n).notes.map (.step site), (x.run n).outcome⟩
      : Traced LowerError Emission (α × Nat)) = ⟨es, .ok (a, n')⟩ from h) with hes hout
    refine ⟨(x.run n).notes, ?_, hes.symm⟩
    rw [Makes, ← hout]
  · rintro ⟨steps, h, rfl⟩
    show (⟨(x.run n).notes.map (.step site), (x.run n).outcome⟩
      : Traced LowerError Emission (α × Nat)) = _
    rw [h]

end Lower

-- ============================================================================
-- Expressions
-- ============================================================================

/-- Induction on expressions that follows the cases of lowering. -/
theorem Expr.rec_lower {motive : Expr → Prop} (number : ∀ pos x, motive (.number pos x))
    (text : ∀ pos s, motive (.text pos s)) (var : ∀ pos name, motive (.var pos name))
    (plus : ∀ pos e, motive e → motive (.unary pos .plus e))
    (minus : ∀ pos e, motive e → motive (.unary pos .minus e))
    (compare : ∀ pos rel l r, motive l → motive r → motive (.binary pos (.compare rel) l r))
    (arith : ∀ pos op l r, motive l → motive r → motive (.binary pos (.arith op) l r))
    (unknown : ∀ pos name args, Builtin.ofName? name = none → motive (.call pos name args))
    (call : ∀ pos name b arg, Builtin.ofName? name = some b → motive arg →
      motive (.call pos name [arg]))
    (arity : ∀ pos name b args, Builtin.ofName? name = some b → (∀ arg, args ≠ [arg]) →
      motive (.call pos name args)) (e : Expr) : motive e :=
  Expr.lower.induct motive number text var plus minus compare arith unknown call
    (fun pos name b args hargs hb => arity pos name b args hb hargs) e

section ExprEquations

variable {env : Env} {pos : Position} {name : String} {b : Builtin}

theorem Expr.lower_unknown {args : List Expr} (h : Builtin.ofName? name = none) :
    (Expr.call pos name args).lower env = Straight.fail (.unknownFunction name pos) := by
  rw [Expr.lower]
  exact h

theorem Expr.lower_call {arg : Expr} (h : Builtin.ofName? name = some b) :
    (Expr.call pos name [arg]).lower env = arg.lower env >>= b.lower :=
  Expr.lower.eq_9 env pos name b arg h

theorem Expr.lower_arity {args : List Expr} (h : Builtin.ofName? name = some b)
    (hargs : ∀ arg, args ≠ [arg]) :
    (Expr.call pos name args).lower env
      = Straight.fail (.wrongArity name b.arity args.length pos) :=
  Expr.lower.eq_10 env pos name args b h hargs

end ExprEquations

end LineBasic
