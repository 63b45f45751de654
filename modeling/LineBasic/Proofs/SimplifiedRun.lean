/-
  LineBasic.Proofs.SimplifiedRun

  A simplified program does what the program does.  Expressions are worked out in any
  way for which a literal is worth what it says and a simplified expression what the
  expression is.  The machine that runs the simplified lines and the one that runs the
  lines are then at points with the same statements left, apart from decisions that
  are known to fail, which the second one passes in steps of its own.
-/

import LineBasic.Proofs.Doubles
import LineBasic.Proofs.Refinement
import LineBasic.Proofs.SimplifiedCode

namespace LineBasic

open StateTransition

-- ============================================================================
-- Evaluators
-- ============================================================================

/-- A way to work out expressions over doubles.  The value depends on the variables and
    the world outside, and working it out may change the world. -/
structure Evaluator where
  Outer : Type
  value : Expr → (String → Float) → Outer → Float × Outer
  read : Outer → Option Float × Outer

namespace Evaluator

/-- Literals are worth what they say, and simplified expressions what the expressions
    are. -/
structure Lawful (E : Evaluator) : Prop where
  number : ∀ pos x σ o, E.value (.number pos x) σ o = (x, o)
  simplify : ∀ e σ o, E.value e.simplify σ o = E.value e σ o

/-- The sense that an evaluator gives to expressions: a condition holds if its value
    does not equal zero. -/
@[reducible] def sense (E : Evaluator) : Sense where
  Num := Float
  Outer := E.Outer
  zero := 0.0
  one := 1.0
  add := (· + ·)
  value e μ := ((E.value e μ.store μ.outer).1, { μ with outer := (E.value e μ.store μ.outer).2 })
  test e μ :=
    (!((E.value e μ.store μ.outer).1 == 0.0), { μ with outer := (E.value e μ.store μ.outer).2 })
  atMost current bound μ := (decide (current ≤ bound), μ)
  read := E.read

variable {E : Evaluator}

-- ----------------------------------------------------------------------------
-- What is done is never taken back
-- ----------------------------------------------------------------------------

/-- A statement undoes nothing. -/
theorem done_act (s : Stmt) (μ : E.sense.Mem) : μ.done <+: (E.sense.act s μ).done := by
  cases s with
  | assign pos name value => exact List.prefix_append ..
  | print pos value => cases value <;> exact List.prefix_append ..
  | input pos name => exact Memory.done_input
  | _ => exact List.prefix_refl _

theorem done_actAll (ss : List Stmt) (μ : E.sense.Mem) :
    μ.done <+: (E.sense.actAll ss μ).done := by
  induction ss generalizing μ with
  | nil => exact List.prefix_refl _
  | cons s ss ih => exact (done_act s μ).trans (ih _)

theorem done_advance (name : String) (step : Option Expr) (μ : E.sense.Mem) :
    μ.done <+: (E.sense.advance name step μ).done := by
  cases step <;> exact List.prefix_append ..

end Evaluator

namespace Machine

section Steps

variable {s : Sense} {names : List String} {lines : List Line} {p : Point} {stmt : Stmt}
  {stack : List Point} {μ : s.Mem}

theorem step_run (h : stmtAt? lines p = some stmt) :
    step names lines ⟨.run p, stack, μ⟩ = some (runStmt lines p stack μ stmt) := by
  simp only [step, h]

theorem step_runOff (h : stmtAt? lines p = none) :
    step names lines ⟨.run p, stack, μ⟩ = some (runOff lines p stack μ) := by
  simp only [step, h]

theorem step_round (h : stmtAt? lines p = some stmt) :
    step names lines ⟨.round p, stack, μ⟩ = some (runRound p stack μ stmt) := by
  simp only [step, h]

theorem memory_pop : (pop stack μ).memory = μ := by
  cases stack <;> rfl

theorem memory_runOff : (runOff lines p stack μ).memory = μ := by
  unfold runOff
  split
  · rfl
  · exact memory_pop

/-- A decision, by the outcome of its test. -/
theorem runStmt_ifThen {pos : Position} {condition : Expr} {target : Nat} {holds : Bool}
    {μ' : s.Mem} (h : s.test condition μ = (holds, μ')) :
    runStmt lines p stack μ (.ifThen pos condition target)
      = if holds then runGoto lines p stack μ' target else ⟨.run p.next, stack, μ'⟩ := by
  rw [runStmt, h]
  cases holds <;> rfl

theorem memory_runGoto {target : Nat} : (runGoto lines p stack μ target).memory = μ := by
  unfold runGoto
  split <;> rfl

end Steps

variable {E : Evaluator} {names : List String} {lines : List Line}

/-- Whatever a statement does, what was done stays done. -/
theorem done_runStmt {p : Point} {stack : List Point} {μ : E.sense.Mem} (s : Stmt) :
    μ.done <+: (runStmt lines p stack μ s).memory.done := by
  cases s with
  | goto pos target =>
    rw [runStmt, memory_runGoto]
  | gosub pos target =>
    rw [runStmt]
    split <;> exact List.prefix_refl _
  | return_ pos =>
    rw [runStmt, memory_pop]
  | ifThen pos condition target =>
    rw [runStmt]
    split
    · next μ' hholds =>
      have hdone : μ.done = μ'.done := congrArg (fun r => r.2.done) hholds
      rw [memory_runGoto, hdone]
    · next μ' hfails =>
      have hdone : μ.done = μ'.done := congrArg (fun r => r.2.done) hfails
      rw [hdone]
  | forNext pos name start stop step body => exact List.prefix_append ..
  | end_ pos => exact List.prefix_refl _
  | assign pos name value => exact E.done_act _ μ
  | print pos value => exact E.done_act _ μ
  | input pos name => exact E.done_act _ μ

/-- Whatever a round of a loop does, what was done stays done. -/
theorem done_runRound {p : Point} {stack : List Point} {μ : E.sense.Mem} (s : Stmt) :
    μ.done <+: (runRound p stack μ s).memory.done := by
  cases s with
  | forNext pos name start stop step body =>
    rw [runRound]
    split
    · next μ' hagain =>
      have hdone : μ.done = μ'.done := congrArg (fun r => r.2.done) hagain
      rw [hdone]
      exact (E.done_actAll body μ').trans (E.done_advance name step _)
    · next μ' hleaves =>
      have hdone : μ.done = μ'.done := congrArg (fun r => r.2.done) hleaves
      rw [hdone]
  | _ => exact List.prefix_refl _

/-- No step of the machine undoes what was done. -/
theorem done_step {st st' : State E.sense} (h : step names lines st = some st') :
    st.memory.done <+: st'.memory.done := by
  obtain ⟨control, stack, μ⟩ := st
  cases control with
  | halted => cases h
  | boot =>
    cases lines with
    | nil =>
      cases h
      exact Memory.done_assignAll names 0.0
    | cons l ls =>
      cases h
      exact Memory.done_assignAll names 0.0
  | run p =>
    unfold step at h
    dsimp only at h
    split at h
    · cases h
      exact done_runStmt _
    · cases h
      rw [memory_runOff]
  | round p =>
    unfold step at h
    dsimp only at h
    split at h
    · cases h
      exact done_runRound _
    · cases h
      rw [memory_runOff]

end Machine

-- ============================================================================
-- Simplified statements
-- ============================================================================

theorem Sense.act_print_number {s : Sense} {names texts : Ascending String} {pos : Position}
    {e : Expr} (h : e.HasTy names texts .number) (μ : s.Mem) :
    s.act (.print pos e) μ = ((s.value e μ).2).perform (.printed (s.value e μ).1) := by
  cases h <;> rfl

namespace Evaluator.Lawful

variable {E : Evaluator} {names texts : Ascending String}

/-- A simplified expression has the value it had, where the evaluator is lawful. -/
theorem value_simplify (h : E.Lawful) (e : Expr) : E.sense.value e.simplify = E.sense.value e := by
  funext μ
  simp only [h.simplify]

theorem test_simplify (h : E.Lawful) (e : Expr) : E.sense.test e.simplify = E.sense.test e := by
  funext μ
  simp only [h.simplify]

/-- A condition that simplifies to a literal is known. -/
theorem test_of_literal? (h : E.Lawful) {e : Expr} {x : Float}
    (hx : e.simplify.literal? = some x) (μ : E.sense.Mem) :
    E.sense.test e μ = (!(x == 0.0), μ) := by
  obtain ⟨pos, hnumber⟩ := Expr.eq_number_of_literal? hx
  rw [← h.test_simplify, hnumber]
  simp only [h.number]

theorem enter_simplify (h : E.Lawful) (name : String) (start : Expr) :
    E.sense.enter name start.simplify = E.sense.enter name start := by
  funext μ
  rw [Sense.enter, Sense.enter, h.value_simplify]

theorem again_simplify (h : E.Lawful) (name : String) (stop : Expr) :
    E.sense.again name stop.simplify = E.sense.again name stop := by
  funext μ
  rw [Sense.again, Sense.again, h.value_simplify]

/-- A step that equals one is the step that is taken if none is given. -/
theorem amount_simplifyStep (h : E.Lawful) (step : Option Expr) :
    E.sense.amount (Stmt.simplifyStep step) = E.sense.amount step := by
  cases step with
  | none => rfl
  | some e =>
    rw [Stmt.simplifyStep, Option.map_some, Option.filter]
    split
    · exact h.value_simplify e
    · next hone =>
      rw [Bool.not_eq_true', Bool.not_eq_false] at hone
      obtain ⟨x, hx, heq⟩ := Expr.exists_literal_of_isLiteral hone
      obtain rfl := Double.eq_one_of_beq heq
      obtain ⟨pos, hnumber⟩ := Expr.eq_number_of_literal? hx
      show E.sense.amount none = E.sense.value e
      rw [← h.value_simplify, hnumber]
      funext μ
      simp only [h.number]
      rfl

theorem advance_simplifyStep (h : E.Lawful) (name : String) (step : Option Expr) :
    E.sense.advance name (Stmt.simplifyStep step) = E.sense.advance name step := by
  funext μ
  rw [Sense.advance, Sense.advance, h.amount_simplifyStep]

/-- Of a typed value it is known whether a text or a number is printed, and
    simplification does not change that. -/
theorem act_print (h : E.Lawful) {pos : Position} {e : Expr} {ty : Ty}
    (hty : e.HasTy names texts ty) :
    E.sense.act (.print pos e.simplify) = E.sense.act (.print pos e) := by
  funext μ
  cases ty with
  | text => cases hty; rfl
  | number =>
    rw [Sense.act_print_number hty, Sense.act_print_number hty.simplify, h.value_simplify]

theorem act_assign (h : E.Lawful) (pos : Position) (name : String) (e : Expr) :
    E.sense.act (.assign pos name e.simplify) = E.sense.act (.assign pos name e) := by
  funext μ
  rw [Sense.act, Sense.act, h.value_simplify]

/-- A statement in a body does what it did. -/
theorem act_simplifyInBody (h : E.Lawful) {s : Stmt} (htyped : s.Typed names texts) :
    E.sense.act s.simplifyInBody = E.sense.act s := by
  cases htyped with
  | assign _ _ => exact h.act_assign ..
  | print value => exact h.act_print value
  | _ => rfl

/-- A simplified body does what it did. -/
theorem actAll_simplifyInBody (h : E.Lawful) {ss : List Stmt}
    (htyped : ∀ s ∈ ss, s.Typed names texts) :
    E.sense.actAll (ss.map Stmt.simplifyInBody) = E.sense.actAll ss := by
  funext μ
  induction ss generalizing μ with
  | nil => rfl
  | cons s ss ih =>
    have hs := h.act_simplifyInBody (htyped s List.mem_cons_self)
    have hss := ih fun t ht => htyped t (List.mem_cons_of_mem s ht)
    simp only [Sense.actAll, List.map_cons, List.foldl_cons] at hss ⊢
    rw [hs, hss]

end Evaluator.Lawful

-- ============================================================================
-- Points
-- ============================================================================

theorem startAt?_simplify (lines : List Line) (target : Nat) :
    startAt? (lines.map Line.simplify) target = startAt? lines target := by
  rw [startAt?, List.findIdx?_map]
  rfl

section Points

variable {env : Env} {p' p : Point} {l : Line} {s t : Stmt} {ss : List Stmt}

/-- Two points of a line, simplified and not, from which the same statements are left;
    those of them that get code are typed. -/
inductive Twins (env : Env) : Point → Point → Prop
  | intro {i j k : Nat} {l : Line} (line : env.lines[i]? = some l)
      (rest : l.simplify.stmts.drop j = (l.stmts.drop k).filterMap Stmt.simplify?)
      (typed : ∀ s ∈ env.emitted (l.stmts.drop k), s.Typed env.names env.texts) :
      Twins env ⟨i, j⟩ ⟨i, k⟩

/-- Twins at a statement and what is left of it. -/
structure Paired (env : Env) (p' p : Point) (t s : Stmt) : Prop where
  simplified : stmtAt? env.simplify.lines p' = some t
  stmt : stmtAt? env.lines p = some s
  left : s.simplify? = some t
  typed : s.Typed env.names env.texts
  next : env.ends s = false → Twins env p'.next p.next

theorem getElem?_simplify {i : Nat} (h : env.lines[i]? = some l) :
    env.simplify.lines[i]? = some l.simplify := by
  rw [Env.simplify, List.getElem?_map, h]
  rfl

theorem Twins.start {i : Nat} (henv : env.Lowers) (h : env.lines[i]? = some l) :
    Twins env ⟨i, 0⟩ ⟨i, 0⟩ :=
  ⟨h, rfl, henv.typed l (List.mem_of_getElem? h)⟩

/-- Behind a statement of which something is left, the points go on together. -/
theorem paired_of_drop {i j k : Nat} (hl : env.lines[i]? = some l)
    (hrest : l.simplify.stmts.drop j = (s :: ss).filterMap Stmt.simplify?)
    (htyped : ∀ s' ∈ env.emitted (s :: ss), s'.Typed env.names env.texts)
    (hss : l.stmts.drop k = s :: ss) (ht : s.simplify? = some t) :
    Paired env ⟨i, j⟩ ⟨i, k⟩ t s := by
  rw [List.filterMap_cons_some ht] at hrest
  refine ⟨stmtAt?_of_drop (getElem?_simplify hl) hrest, stmtAt?_of_drop hl hss, ht,
    htyped s Env.mem_emitted_head, fun hends => ?_⟩
  obtain ⟨-, hnext⟩ := getElem?_of_drop hss
  obtain ⟨-, hnext'⟩ := getElem?_of_drop hrest
  rw [Env.emitted_cons_of_not_ends hends] at htyped
  refine ⟨hl, ?_, ?_⟩
  · rw [hnext', hnext]
  · rw [hnext]
    exact fun s' hs' => htyped s' (List.mem_cons_of_mem s hs')

end Points

-- ============================================================================
-- Runs
-- ============================================================================

section Runs

variable {E : Evaluator} {env : Env} {p' p : Point} {s t : Stmt}
  {stack' stack : List Point} {μ : E.sense.Mem}

/-- States of the machine that runs the simplified lines and of the one that runs the
    lines: the same but for the points, which are twins. -/
inductive Parallel (env : Env) : Machine.State E.sense → Machine.State E.sense → Prop
  | boot {stack' stack : List Point} {μ : E.sense.Mem} :
      Parallel env ⟨.boot, stack', μ⟩ ⟨.boot, stack, μ⟩
  | run {p' p : Point} {stack' stack : List Point} {μ : E.sense.Mem} (points : Twins env p' p)
      (calls : List.Forall₂ (Twins env) stack' stack) :
      Parallel env ⟨.run p', stack', μ⟩ ⟨.run p, stack, μ⟩
  | round {p' p : Point} {stack' stack : List Point} {μ : E.sense.Mem} {t : Stmt}
      {pos : Position} {name : String} {start stop : Expr} {step : Option Expr}
      {body : List Stmt} (points : Paired env p' p t (.forNext pos name start stop step body))
      (calls : List.Forall₂ (Twins env) stack' stack) :
      Parallel env ⟨.round p', stack', μ⟩ ⟨.round p, stack, μ⟩
  | halted {stack' stack : List Point} {μ : E.sense.Mem} :
      Parallel env ⟨.halted, stack', μ⟩ ⟨.halted, stack, μ⟩

theorem Parallel.memory {st' st : Machine.State E.sense} (h : Parallel env st' st) :
    st.memory = st'.memory := by
  cases h <;> rfl

theorem Parallel.pop (hcalls : List.Forall₂ (Twins env) stack' stack) :
    Parallel env (Machine.pop stack' μ) (Machine.pop stack μ) := by
  cases hcalls with
  | nil => exact .halted
  | cons hpoints hcalls => exact .run hpoints hcalls

/-- Behind the end of a line both machines go on with the next one, or return. -/
theorem Parallel.runOff (henv : env.Lowers) (hline : p'.line = p.line)
    (hcalls : List.Forall₂ (Twins env) stack' stack) :
    Parallel env (Machine.runOff env.simplify.lines p' stack' μ)
      (Machine.runOff env.lines p stack μ) := by
  have hlength : env.simplify.lines.length = env.lines.length := List.length_map ..
  rw [Machine.runOff, Machine.runOff, hlength, hline]
  split
  · next hlt => exact .run (.start henv (List.getElem?_eq_getElem hlt)) hcalls
  · exact .pop hcalls

theorem twins_of_startAt? (henv : env.Lowers) {target : Nat} {q : Point}
    (h : startAt? env.lines target = some q) : Twins env q q := by
  obtain ⟨i, l, rfl, hl, -, -⟩ := linesFrom_of_startAt? h
  exact .start henv hl

/-- A jump leads both machines to the same line, or behind the jump if there is none. -/
theorem Parallel.runGoto (henv : env.Lowers) {target : Nat}
    (hnext : env.hasLine target = false → Twins env p'.next p.next)
    (hcalls : List.Forall₂ (Twins env) stack' stack) :
    Parallel env (Machine.runGoto env.simplify.lines p' stack' μ target)
      (Machine.runGoto env.lines p stack μ target) := by
  rw [Machine.runGoto, Machine.runGoto, Env.simplify, startAt?_simplify]
  cases hstart : startAt? env.lines target with
  | some q => exact .run (twins_of_startAt? henv hstart) .nil
  | none => exact .run (hnext (by rw [hasLine_eq_isSome, hstart]; rfl)) hcalls

theorem Parallel.act (hact : E.sense.act t = E.sense.act s) (hnext : Twins env p'.next p.next)
    (hcalls : List.Forall₂ (Twins env) stack' stack) :
    Parallel env ⟨.run p'.next, stack', E.sense.act t μ⟩ ⟨.run p.next, stack, E.sense.act s μ⟩ := by
  rw [hact]
  exact .run hnext hcalls

/-- Running a statement and what is left of it. -/
theorem Parallel.runStmt (hE : E.Lawful) (henv : env.Lowers) (h : Paired env p' p t s)
    (hcalls : List.Forall₂ (Twins env) stack' stack) :
    Parallel env (Machine.runStmt env.simplify.lines p' stack' μ t)
      (Machine.runStmt env.lines p stack μ s) := by
  have hleft := h.left
  have htyped := h.typed
  have hnext := h.next
  cases htyped with
  | assign known value =>
    cases hleft
    exact .act (hE.act_assign ..) (hnext rfl) hcalls
  | print value =>
    cases hleft
    exact .act (hE.act_print value) (hnext rfl) hcalls
  | input known =>
    cases hleft
    exact .run (hnext rfl) hcalls
  | goto =>
    cases hleft
    exact .runGoto henv hnext hcalls
  | @gosub pos target =>
    cases hleft
    rw [Machine.runStmt, Machine.runStmt, Env.simplify, startAt?_simplify]
    cases hstart : startAt? env.lines target with
    | some q => exact .run (twins_of_startAt? henv hstart) (.cons (hnext rfl) hcalls)
    | none => exact .run (hnext rfl) hcalls
  | return_ =>
    cases hleft
    exact .pop hcalls
  | end_ =>
    cases hleft
    exact .halted
  | @ifThen pos c target _ =>
    cases Stmt.Decision.simplify? hleft with
    | holds hknown hnonzero =>
      -- The condition is known, and both runs take the jump.
      rw [Machine.runStmt_ifThen (hE.test_of_literal? hknown μ), hnonzero]
      exact .runGoto henv (fun _ => hnext rfl) hcalls
    | stays _ =>
      -- Both runs make the same test.
      cases htest : E.sense.test c μ with
      | mk holds μ' =>
        rw [Machine.runStmt_ifThen htest, Machine.runStmt_ifThen (hE.test_simplify c ▸ htest)]
        cases holds with
        | true => exact .runGoto henv (fun _ => hnext rfl) hcalls
        | false => exact .run (hnext rfl) hcalls
  | forNext known start stop step body =>
    cases hleft
    rw [Machine.runStmt, Machine.runStmt, hE.enter_simplify]
    exact .round h hcalls

/-- Running a round of a loop and of what is left of it. -/
theorem Parallel.runRound (hE : E.Lawful) {pos : Position} {name : String} {start stop : Expr}
    {step : Option Expr} {body : List Stmt}
    (h : Paired env p' p t (.forNext pos name start stop step body))
    (hcalls : List.Forall₂ (Twins env) stack' stack) :
    Parallel env (Machine.runRound p' stack' μ t)
      (Machine.runRound p stack μ (.forNext pos name start stop step body)) := by
  have hleft := h.left
  have htyped := h.typed
  have hnext := h.next
  cases hleft
  cases htyped with
  | forNext _ _ _ _ hbody =>
    rw [Machine.runRound, Machine.runRound, hE.again_simplify]
    split
    · rw [hE.actAll_simplifyInBody hbody, hE.advance_simplifyStep]
      exact .round h hcalls
    · exact .run (hnext rfl) hcalls

theorem ends_of_removed (h : s.simplify? = none) : env.ends s = false := by
  cases s with
  | ifThen pos c target => rfl
  | _ => cases h

/-- A statement of which nothing is left is a decision that fails. -/
theorem runStmt_of_removed (hE : E.Lawful) (h : s.simplify? = none) (lines : List Line)
    (p : Point) (stack : List Point) (μ : E.sense.Mem) :
    Machine.runStmt lines p stack μ s = ⟨.run p.next, stack, μ⟩ := by
  cases s with
  | ifThen pos c target =>
    cases Stmt.Decision.simplify? h with
    | fails hknown hzero =>
      rw [Machine.runStmt_ifThen (hE.test_of_literal? hknown μ), hzero]
      rfl
  | _ => cases h

/-- The machine that runs the lines passes decisions that are known to fail, until it
    is where the other one is: at the end of the line or at a statement of which
    something is left.  The induction is on the statements that are left. -/
theorem Twins.settle (names : List String) (hE : E.Lawful) (h : Twins env p' p)
    (stack : List Point) (μ : E.sense.Mem) :
    ∃ q, Reaches (Machine.step names env.lines) ⟨.run p, stack, μ⟩ ⟨.run q, stack, μ⟩ ∧
      (p'.line = q.line ∧ stmtAt? env.simplify.lines p' = none ∧ stmtAt? env.lines q = none ∨
        ∃ t s, Paired env p' q t s) := by
  obtain @⟨i, j, k, l, hl, hrest, htyped⟩ := h
  generalize hss : l.stmts.drop k = ss at hrest htyped
  induction ss generalizing k with
  | nil =>
    exact ⟨⟨i, k⟩, .refl, .inl ⟨rfl, stmtAt?_of_drop_nil (getElem?_simplify hl) hrest,
      stmtAt?_of_drop_nil hl hss⟩⟩
  | cons s ss ih =>
    cases ht : s.simplify? with
    | some t => exact ⟨⟨i, k⟩, .refl, .inr ⟨t, s, paired_of_drop hl hrest htyped hss ht⟩⟩
    | none =>
      have hrun := runStmt_of_removed hE ht env.lines ⟨i, k⟩ stack μ
      rw [List.filterMap_cons_none ht] at hrest
      rw [Env.emitted_cons_of_not_ends (ends_of_removed ht)] at htyped
      obtain ⟨q, hreaches, hq⟩ := ih (getElem?_of_drop hss).2 hrest
        fun s' hs' => htyped s' (List.mem_cons_of_mem s hs')
      have hstmt : stmtAt? env.lines ⟨i, k⟩ = some s := stmtAt?_of_drop hl hss
      exact ⟨q, .head (hrun ▸ Machine.step_run hstmt) hreaches, hq⟩

/-- Each step of the machine that runs the simplified lines is matched by steps of the other:
    those over statements that are gone, and the same step. -/
theorem respects_simplify (names : List String) (hE : E.Lawful) (henv : env.Lowers) :
    Respects (Machine.step names env.simplify.lines) (Machine.step names env.lines)
      (Parallel (E := E) env) := by
  intro st' st h
  cases h with
  | @boot stack' stack μ =>
    cases hlines : env.lines with
    | nil =>
      have hsimplified : env.simplify.lines = [] := by rw [Env.simplify, hlines]; rfl
      rw [hsimplified]
      exact ⟨_, .halted, .single rfl⟩
    | cons l ls =>
      have hsimplified : env.simplify.lines = l.simplify :: ls.map Line.simplify := by
        rw [Env.simplify, hlines]; rfl
      rw [hsimplified]
      exact ⟨_, .run (.start henv (by rw [hlines]; rfl)) .nil, .single rfl⟩
  | @run p' p stack' stack μ hpoints hcalls =>
    -- The run of the original first passes the statements that are dropped.
    obtain ⟨q, hreaches, ⟨hline, hsimplified, hstmt⟩ | ⟨t, s, hpaired⟩⟩ :=
      hpoints.settle names hE stack μ
    · rw [Machine.step_runOff hsimplified]
      exact ⟨_, .runOff henv hline hcalls, .tail' hreaches (Machine.step_runOff hstmt)⟩
    · rw [Machine.step_run hpaired.simplified]
      exact ⟨_, .runStmt hE henv hpaired hcalls, .tail' hreaches (Machine.step_run hpaired.stmt)⟩
  | round hpaired hcalls =>
    rw [Machine.step_round hpaired.simplified]
    exact ⟨_, .runRound hE hpaired hcalls, .single (Machine.step_round hpaired.stmt)⟩
  | halted => rfl

end Runs

/-- Two runs do the same: both get to have the same effects, and both end with the same
    memory or not at all. -/
structure Machine.Alike {s : Sense} (names : List String) (lines' lines : List Line)
    (st' st : State s) : Prop where
  effects : ∀ l, Performs (step names lines') (fun st => st.memory.done) st' l ↔
    Performs (step names lines) (fun st => st.memory.done) st l
  ending : (eval (step names lines') st').map (fun st => st.memory)
    = (eval (step names lines) st).map (fun st => st.memory)

/-- The two machines run alike from states that are parallel. -/
theorem Parallel.alike {E : Evaluator} {env : Env} {names : List String}
    {st' st : Machine.State E.sense} (hE : E.Lawful) (henv : env.Lowers)
    (h : Parallel env st' st) :
    Machine.Alike names env.simplify.lines env.lines st' st := by
  have hrespects := respects_simplify names hE henv
  refine ⟨fun l => ?_, ?_⟩
  · refine (performs_iff_of_respects hrespects (fun st' st hst => ?_) (fun st st' hstep => ?_)
      h).symm
    · rw [hst.memory]
    · exact Machine.done_step hstep
  · exact (map_eval_of_respects hrespects (fun st' st hst => hst.memory) h).symm

/-- A program that has code does what it did when it is simplified, whatever the
    variables hold and whatever the world outside is, from the start and from every line
    on: with any lawful way to work out expressions, the effects are the same in the
    same order, and the program ends as it did or goes on forever as it did. -/
theorem Program.simplify_runs_alike (p : Program) (inventory : Inventory) (m : Module)
    (h : (p.lower inventory).outcome = .ok m) (E : Evaluator) (hE : E.Lawful)
    (names : List String) (μ : E.sense.Mem) :
    Machine.Alike names p.simplify.listing p.listing ⟨.boot, [], μ⟩ ⟨.boot, [], μ⟩ ∧
    ∀ i < p.listing.length,
      Machine.Alike names p.simplify.listing p.listing ⟨.run ⟨i, 0⟩, [], μ⟩
        ⟨.run ⟨i, 0⟩, [], μ⟩ := by
  have henv := lowers_of_lower h
  rw [listing_simplify]
  refine ⟨Parallel.alike hE henv .boot, fun i hi => ?_⟩
  exact Parallel.alike hE henv (.run (.start henv (List.getElem?_eq_getElem hi)) .nil)

-- ----------------------------------------------------------------------------
-- A lawful evaluator
-- ----------------------------------------------------------------------------

/-- Works out the simplified form of an expression. -/
def Evaluator.folded (E : Evaluator) : Evaluator :=
  { E with value := fun e => E.value e.simplify }

/-- An evaluator that takes literals as they are is lawful when it simplifies first. -/
theorem Evaluator.lawful_folded {E : Evaluator}
    (h : ∀ pos x σ o, E.value (.number pos x) σ o = (x, o)) : E.folded.Lawful where
  number pos x σ o := h pos x σ o
  simplify e σ o := by
    show E.value e.simplify.simplify σ o = E.value e.simplify σ o
    rw [Expr.simplify_simplify]

/-- The value of an expression in the arithmetic of doubles; what is no number counts as
    zero. -/
def Expr.plain (σ : String → Float) : Expr → Float
  | number _ x => x
  | text _ _ => 0.0
  | var _ name => σ name
  | unary _ .plus e => e.plain σ
  | unary _ .minus e => -e.plain σ
  | binary _ op l r => op.apply (l.plain σ) (r.plain σ)
  | call _ _ _ => 0.0

/-- Plain arithmetic; the world outside is the numbers that are still to be read. -/
def Evaluator.plain : Evaluator where
  Outer := List Float
  value e σ rest := (e.plain σ, rest)
  read
    | [] => (none, [])
    | x :: rest => (some x, rest)

theorem Program.simplify_runs_alike_decided :
    ∃ m, (decided.lower decided.inventory).outcome = .ok m ∧ Evaluator.plain.folded.Lawful ∧
      ∀ μ : Evaluator.plain.folded.sense.Mem,
        Machine.Alike ["I"] decided.simplify.listing decided.listing ⟨.boot, [], μ⟩
          ⟨.boot, [], μ⟩ ∧
        Machine.Alike ["I"] decided.simplify.listing decided.listing ⟨.run ⟨2, 0⟩, [], μ⟩
          ⟨.run ⟨2, 0⟩, [], μ⟩ := by
  obtain ⟨m, hm⟩ := exists_lower_decided
  have hlawful : Evaluator.plain.folded.Lawful := Evaluator.lawful_folded fun _ _ _ _ => rfl
  refine ⟨m, hm, hlawful, fun μ => ?_⟩
  obtain ⟨hboot, hlines⟩ := decided.simplify_runs_alike _ m hm _ hlawful ["I"] μ
  exact ⟨hboot, hlines 2 (by decide +kernel)⟩

end LineBasic
