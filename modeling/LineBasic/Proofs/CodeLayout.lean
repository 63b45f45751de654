/-
  LineBasic.Proofs.CodeLayout

  What the code of a program looks like.  `CodeOf` relates the statements that are
  left of a line to their code: one case for every form of statement, and one for
  every way in which a line can end.  An expanded subroutine is a piece of code of
  the same kind inside the code of its call, so that a whole expansion, however
  deep, is one finite derivation.

  Everything that is said about generated code elsewhere is proved by induction on
  these derivations; lowering itself is only looked at here.
-/

import LineBasic.Lowering.Program
import LineBasic.Proofs.Making

namespace LineBasic

open Straight

-- ============================================================================
-- Labels and instructions of code
-- ============================================================================

namespace Emission

/-- The label of an emission, if it is one. -/
def label? : Emission → Option Label
  | label l => some l
  | _ => none

/-- The labels of code, from top to bottom. -/
def labels (es : List Emission) : List Label := es.filterMap label?

/-- The instructions of code, from top to bottom. -/
def instrs (es : List Emission) : List Instr := es.filterMap instr?

variable {es es' : List Emission}

@[simp] theorem labels_nil : labels [] = [] := rfl

@[simp] theorem labels_label {l : Label} : labels (.label l :: es) = l :: labels es := rfl

@[simp] theorem labels_note {a : Note} : labels (.note a :: es) = labels es := rfl

@[simp] theorem labels_step {site : Option Nat} {s : Step} :
    labels (.step site s :: es) = labels es := rfl

@[simp] theorem labels_append : labels (es ++ es') = labels es ++ labels es' :=
  List.filterMap_append

@[simp] theorem labels_steps {site : Option Nat} {steps : List Step} :
    labels (steps.map (.step site)) = [] := by
  induction steps with
  | nil => rfl
  | cons s steps ih => exact ih

@[simp] theorem instrs_nil : instrs [] = [] := rfl

@[simp] theorem instrs_label {l : Label} : instrs (.label l :: es) = instrs es := rfl

@[simp] theorem instrs_note {a : Note} : instrs (.note a :: es) = instrs es := rfl

@[simp] theorem instrs_step {site : Option Nat} {s : Step} :
    instrs (.step site s :: es) = s.instr :: instrs es := rfl

@[simp] theorem instrs_append : instrs (es ++ es') = instrs es ++ instrs es' :=
  List.filterMap_append

/-- The instructions of straight code are those of its steps. -/
theorem instrs_steps {site : Option Nat} {steps : List Step} :
    instrs (steps.map (.step site)) = steps.map (·.instr) := by
  rw [instrs, List.filterMap_map]
  exact congrFun List.filterMap_eq_map steps

end Emission

-- ============================================================================
-- Pieces of code
-- ============================================================================

namespace Stmt

/-- The code of a statement that only works something out, stores, prints or reads. -/
def plain? (env : Env) : Stmt → Option (Straight Unit)
  | assign _ name value => some (lowerAssign env name value)
  | print _ value => some (lowerPrint env value)
  | input _ name => some (lowerInput env name)
  | _ => none

end Stmt

/-- The straight pieces of the code of a loop: what works out its first value, its
    bound, its body and its step, and the temporaries between them. -/
structure LoopParts where
  first : List Step
  value : Operand
  test : List Step
  bound : Operand
  body : List Step
  advance : List Step
  amount : Operand
  current : Nat
  within : Nat
  last : Nat

namespace LoopParts

/-- The pieces make up the given loop when `n` temporaries are in use; behind them
    `n'` are. -/
structure MakeUp (parts : LoopParts) (env : Env) (name : String) (start stop : Expr)
    (step : Option Expr) (body : List Stmt) (n n' : Nat) : Prop where
  slot : name ∈ env.names
  first : Makes (start.lower env) n parts.first parts.value parts.current
  test : Makes (stop.lower env) (parts.current + 1) parts.test parts.bound parts.within
  body : ∃ n₃, Makes (Stmt.lowerBody env body) (parts.within + 1) parts.body () n₃ ∧
    Makes (Stmt.lowerStep env step) n₃ parts.advance parts.amount parts.last
  count : n' = parts.last + 2

/-- The code of a loop up to its test. -/
def initCode (parts : LoopParts) (site : Nat) (owner : Label) (k : Nat) (name : String) :
    List Emission :=
  parts.first.map (.step site) ++
    [.step site ⟨.loopInit, .store parts.value name⟩,
      .step site ⟨.ordinary, .br (.loopTest owner k)⟩]

/-- The test of a loop. -/
def testCode (parts : LoopParts) (site : Nat) (owner : Label) (k : Nat) (name : String) :
    List Emission :=
  .step site ⟨.ordinary, .load ⟨parts.current⟩ name⟩ :: parts.test.map (.step site) ++
    [.step site ⟨.loopTest, .compare ⟨parts.within⟩ .le (.temp ⟨parts.current⟩) parts.bound⟩,
      .step site ⟨.ordinary, .brIf ⟨parts.within⟩ (.loopBody owner k) (.loopEnd owner k)⟩]

/-- The body of a loop. -/
def bodyCode (parts : LoopParts) (site : Nat) (owner : Label) (k : Nat) : List Emission :=
  parts.body.map (.step site) ++ [.step site ⟨.ordinary, .br (.loopStep owner k)⟩]

/-- The step of a loop. -/
def stepCode (parts : LoopParts) (site : Nat) (owner : Label) (k : Nat) (name : String) :
    List Emission :=
  parts.advance.map (.step site) ++
    [.step site ⟨.ordinary, .load ⟨parts.last⟩ name⟩,
      .step site ⟨.loopStep,
        .arith ⟨parts.last + 1⟩ .add (.temp ⟨parts.last⟩) parts.amount⟩,
      .step site ⟨.ordinary, .store (.temp ⟨parts.last + 1⟩) name⟩,
      .step site ⟨.ordinary, .br (.loopTest owner k)⟩]

/-- The code of a loop, followed by `es`. -/
def code (parts : LoopParts) (site : Nat) (owner : Label) (k : Nat) (name : String)
    (es : List Emission) : List Emission :=
  parts.initCode site owner k name ++ .label (.loopTest owner k) ::
    (parts.testCode site owner k name ++ .label (.loopBody owner k) ::
      (parts.bodyCode site owner k ++ .label (.loopStep owner k) ::
        (parts.stepCode site owner k name ++ .label (.loopEnd owner k) :: es)))

theorem labels_code {parts : LoopParts} {site : Nat} {owner : Label} {k : Nat} {name : String}
    {es : List Emission} :
    Emission.labels (parts.code site owner k name es)
      = [.loopTest owner k, .loopBody owner k, .loopStep owner k, .loopEnd owner k]
        ++ Emission.labels es := by
  simp [code, initCode, testCode, bodyCode, stepCode]

end LoopParts

-- ============================================================================
-- Code of statements
-- ============================================================================

/-- What follows the last statement of a line: another block, or the lines that are
    left of an expanded subroutine, `i` lines after its first. -/
inductive Behind where
  | block (next : Label)
  | lines (i : Nat) (ls : List Line)

/-- `CodeOf env frame k n site ss behind es n'`: the code of the statements `ss` of
    the line `site` and of what is behind them is `es`.  Before it `k` blocks have
    been numbered under the owner and `n` temporaries are in use, behind it `n'`. -/
inductive CodeOf (env : Env) :
    Frame → Nat → Nat → Nat → List Stmt → Behind → List Emission → Nat → Prop where
  | plain {frame k n n₁ n' site s ss behind x steps es} :
      Stmt.plain? env s = some x → Makes x n steps () n₁ →
      CodeOf env frame k n₁ site ss behind es n' →
      CodeOf env frame k n site (s :: ss) behind (steps.map (.step site) ++ es) n'
  | goto {frame k n site pos target ss behind} :
      env.hasLine target = true →
      CodeOf env frame k n site (.goto pos target :: ss) behind
        [.step site ⟨.goto, .br (.line target)⟩] n
  | gotoNowhere {frame k n n' site pos target ss behind es} :
      env.hasLine target = false → CodeOf env frame k n site ss behind es n' →
      CodeOf env frame k n site (.goto pos target :: ss) behind
        (.note (.danglingGoto target pos) :: es) n'
  | gosub {frame k n n₁ n' site pos target ss behind l ls es₁ es₂} :
      env.linesFrom target = l :: ls →
      CodeOf env ⟨.subStart frame.owner (k + 1), .subEnd frame.owner (k + 1)⟩ 0 n
        l.number l.stmts (.lines 0 ls) es₁ n₁ →
      CodeOf env frame (k + 1) n₁ site ss behind es₂ n' →
      CodeOf env frame k n site (.gosub pos target :: ss) behind
        (.step site ⟨.gosub, .br (.subStart frame.owner (k + 1))⟩ ::
          .note (.subroutineLine l.number) :: .label (.subStart frame.owner (k + 1)) ::
          (es₁ ++ .label (.subEnd frame.owner (k + 1)) :: es₂)) n'
  | gosubNowhere {frame k n n' site pos target ss behind es} :
      env.linesFrom target = [] → CodeOf env frame (k + 1) n site ss behind es n' →
      CodeOf env frame k n site (.gosub pos target :: ss) behind
        (.step site ⟨.gosub, .br (.subStart frame.owner (k + 1))⟩ ::
          .note (.danglingGosub target (.subEnd frame.owner (k + 1))) ::
          .label (.subStart frame.owner (k + 1)) ::
          .step site ⟨.return_, .br (.subEnd frame.owner (k + 1))⟩ ::
          .label (.subEnd frame.owner (k + 1)) :: es) n'
  | return_ {frame k n site pos ss behind} :
      CodeOf env frame k n site (.return_ pos :: ss) behind
        [.step site ⟨.return_, .br frame.returnTo⟩] n
  | end_ {frame k n site pos ss behind} :
      CodeOf env frame k n site (.end_ pos :: ss) behind [.step site ⟨.end_, .br .exit⟩] n
  | ifThen {frame k n n₁ n' site pos condition target ss behind steps c es} :
      env.hasLine target = true → Makes (condition.lowerCondition env) n steps c n₁ →
      CodeOf env frame (k + 1) n₁ site ss behind es n' →
      CodeOf env frame k n site (.ifThen pos condition target :: ss) behind
        (steps.map (.step site) ++
          .step site ⟨.decision, .brIf c (.line target) (.decided frame.owner (k + 1))⟩ ::
          .label (.decided frame.owner (k + 1)) :: es) n'
  | ifNowhere {frame k n n₁ n' site pos condition target ss behind steps c es} :
      env.hasLine target = false → Makes (condition.lowerCondition env) n steps c n₁ →
      CodeOf env frame (k + 1) n₁ site ss behind es n' →
      CodeOf env frame k n site (.ifThen pos condition target :: ss) behind
        (steps.map (.step site) ++
          .step site ⟨.decision, .br (.decided frame.owner (k + 1))⟩ ::
          .label (.decided frame.owner (k + 1)) :: es) n'
  | forNext {frame k n n₁ n' site pos name start stop step body ss behind es}
      {parts : LoopParts} :
      parts.MakeUp env name start stop step body n n₁ →
      CodeOf env frame (k + 1) n₁ site ss behind es n' →
      CodeOf env frame k n site (.forNext pos name start stop step body :: ss) behind
        (parts.code site frame.owner (k + 1) name es) n'
  | lineEnd {frame k n site next} :
      CodeOf env frame k n site [] (.block next) [.step site ⟨.ordinary, .br next⟩] n
  | regionEnd {frame k n site i} :
      CodeOf env frame k n site [] (.lines i []) [.step site ⟨.return_, .br frame.returnTo⟩] n
  | nextLine {frame k n n' site i l ls es} :
      CodeOf env frame k n l.number l.stmts (.lines (i + 1) ls) es n' →
      CodeOf env frame k n site [] (.lines i (l :: ls))
        (.step site ⟨.ordinary, .br (.subLine frame.owner (i + 1))⟩ ::
          .note (.subroutineLine l.number) :: .label (.subLine frame.owner (i + 1)) :: es) n'

-- ============================================================================
-- Lowering statements
-- ============================================================================

section Statements

variable {env : Env} {n n' n'' k site : Nat} {frame : Frame} {es es' : List Emission}
  {behind : Behind}

/-- The code that goes on where a statement with the result `r` ends: nothing if the
    code does not go on, else the code of the statements `ss` behind it. -/
def GoesOn (env : Env) (frame : Frame) (site : Nat) (ss : List Stmt) (behind : Behind)
    (r : Option Nat) (n : Nat) (es : List Emission) (n' : Nat) : Prop :=
  match r with
  | none => es = [] ∧ n' = n
  | some k => CodeOf env frame k n site ss behind es n'

/-- What an expander has to do: the code between the start of a subroutine and its
    end is the code of the lines from the target on, if there are any. -/
def Expands (env : Env) (expand : Expander) : Prop :=
  ∀ site target start next n es n', Makes (expand site target start next) n es () n' →
    (∃ l ls es', env.linesFrom target = l :: ls ∧
      es = .note (.subroutineLine l.number) :: .label start :: es' ∧
      CodeOf env ⟨start, next⟩ 0 n l.number l.stmts (.lines 0 ls) es' n') ∨
    (env.linesFrom target = [] ∧ n' = n ∧
      es = [.note (.danglingGosub target next), .label start,
        .step site ⟨.return_, .br next⟩])

section Loop

variable {name : String} {start stop : Expr} {step : Option Expr} {body : List Stmt} {l : Label}
  {steps : List Step} {u : Unit}

/-- Straight code in front of a label. -/
theorem Lower.makes_block {β : Type} {x : Straight Unit} {rest : Lower β} {b : β}
    (h : Makes (Lower.straight site x >>= fun _ => Lower.label l >>= fun _ => rest) n es b n') :
    ∃ steps n₁ es', Makes x n steps () n₁ ∧ Makes rest n₁ es' b n' ∧
      es = steps.map (.step site) ++ .label l :: es' := by
  obtain ⟨_, n₁, _, _, hx, hmore, rfl⟩ := makes_bind.1 h
  obtain ⟨steps, hsteps, rfl⟩ := Lower.makes_straight.1 hx
  obtain ⟨_, _, _, es', hlabel, hrest, rfl⟩ := makes_bind.1 hmore
  obtain ⟨rfl, rfl⟩ := Lower.makes_label.1 hlabel
  exact ⟨steps, _, es', hsteps, hrest, rfl⟩

open Straight in
/-- What stands in front of the test of a loop. -/
theorem makes_loopInit
    (h : Makes (do
      env.requireSlot name
      let x ← start.lower env
      emitAs .loopInit (.store x name)
      emit (.br l)) n steps u n') :
    name ∈ env.names ∧ ∃ first x, Makes (start.lower env) n first x n' ∧
      steps = first ++ [⟨.loopInit, .store x name⟩, ⟨.ordinary, .br l⟩] := by
  obtain ⟨_, _, _, _, hslot, hvalue, rfl⟩ := makes_bind.1 h
  obtain ⟨hname, rfl, rfl⟩ := Env.makes_requireSlot.1 hslot
  obtain ⟨x, _, first, _, hfirst, hstore, rfl⟩ := makes_bind.1 hvalue
  simp only [makes_bind, makes_emitAs, makes_emit] at hstore
  obtain ⟨_, _, _, _, ⟨rfl, rfl⟩, ⟨rfl, rfl⟩, rfl⟩ := hstore
  exact ⟨hname, first, x, hfirst, rfl⟩

open Straight in
/-- What the test of a loop consists of. -/
theorem makes_loopTest {l' : Label}
    (h : Makes (do
      let current ← define (.load · name)
      let bound ← stop.lower env
      let within ← defineAs .loopTest (.compare · .le (.temp current) bound)
      emit (.brIf within l l')) n steps u n') :
    ∃ test bound n₁, Makes (stop.lower env) (n + 1) test bound n₁ ∧ n' = n₁ + 1 ∧
      steps = ⟨.ordinary, .load ⟨n⟩ name⟩ :: test ++
        [⟨.loopTest, .compare ⟨n₁⟩ .le (.temp ⟨n⟩) bound⟩, ⟨.ordinary, .brIf ⟨n₁⟩ l l'⟩] := by
  obtain ⟨_, _, _, _, hload, hbound, rfl⟩ := makes_bind.1 h
  obtain ⟨rfl, rfl, rfl⟩ := makes_define.1 hload
  obtain ⟨bound, n₁, test, _, htest, hjump, rfl⟩ := makes_bind.1 hbound
  simp only [makes_bind, makes_defineAs, makes_emit] at hjump
  obtain ⟨_, _, _, _, ⟨rfl, rfl, rfl⟩, ⟨rfl, rfl⟩, rfl⟩ := hjump
  exact ⟨test, bound, n₁, htest, rfl, rfl⟩

open Straight in
/-- What stands behind the body of a loop. -/
theorem makes_loopStep
    (h : Makes (do
      let by_ ← Stmt.lowerStep env step
      let current ← define (.load · name)
      let next ← defineAs .loopStep (.arith · .add (.temp current) by_)
      emit (.store (.temp next) name)
      emit (.br l)) n steps u n') :
    ∃ advance amount n₁, Makes (Stmt.lowerStep env step) n advance amount n₁ ∧ n' = n₁ + 2 ∧
      steps = advance ++ [⟨.ordinary, .load ⟨n₁⟩ name⟩,
        ⟨.loopStep, .arith ⟨n₁ + 1⟩ .add (.temp ⟨n₁⟩) amount⟩,
        ⟨.ordinary, .store (.temp ⟨n₁ + 1⟩) name⟩, ⟨.ordinary, .br l⟩] := by
  obtain ⟨amount, n₁, advance, _, hstep, hsum, rfl⟩ := makes_bind.1 h
  obtain ⟨_, _, _, _, hload, hadd, rfl⟩ := makes_bind.1 hsum
  obtain ⟨rfl, rfl, rfl⟩ := makes_define.1 hload
  obtain ⟨_, _, _, _, hnext, hstore, rfl⟩ := makes_bind.1 hadd
  obtain ⟨rfl, rfl, rfl⟩ := makes_defineAs.1 hnext
  simp only [makes_bind, makes_emit] at hstore
  obtain ⟨_, _, _, _, ⟨rfl, rfl⟩, ⟨rfl, rfl⟩, rfl⟩ := hstore
  exact ⟨advance, amount, n₁, hstep, rfl, rfl⟩

/-- The code of a loop is the code of its parts, laid out around the labels of the loop. -/
theorem makes_lowerLoop {owner : Label}
    (h : Makes (Stmt.lowerLoop env site owner k name start stop step body) n es u n') :
    ∃ parts : LoopParts, parts.MakeUp env name start stop step body n n' ∧
      es = parts.code site owner k name [] := by
  obtain ⟨_, n₁, _, hinit, hrounds, rfl⟩ := Lower.makes_block h
  obtain ⟨hslot, first, x, hfirst, rfl⟩ := makes_loopInit hinit
  obtain ⟨_, _, _, htest, hround, rfl⟩ := Lower.makes_block hrounds
  obtain ⟨test, bound, n₂, hstop, rfl, rfl⟩ := makes_loopTest htest
  obtain ⟨_, _, _, hwork, hclose, rfl⟩ := Lower.makes_block hround
  obtain ⟨_, _, bodySteps, _, hbody, hjump, rfl⟩ := makes_bind.1 hwork
  obtain ⟨rfl, rfl⟩ := Straight.makes_emit.1 hjump
  obtain ⟨_, _, _, _, hlast, hend, rfl⟩ := makes_bind.1 hclose
  obtain ⟨_, hadvance, rfl⟩ := Lower.makes_straight.1 hlast
  obtain ⟨rfl, rfl⟩ := Lower.makes_label.1 hend
  obtain ⟨advance, amount, n₄, hstep, rfl, rfl⟩ := makes_loopStep hadvance
  refine ⟨⟨first, x, test, bound, bodySteps, advance, amount, n₁, n₂, n₄⟩,
    ⟨hslot, hfirst, hstop, ⟨_, hbody, hstep⟩, rfl⟩, ?_⟩
  simp [LoopParts.code, LoopParts.initCode, LoopParts.testCode, LoopParts.bodyCode,
    LoopParts.stepCode]

end Loop

/-- A statement of straight code only, followed by what goes on behind it. -/
theorem codeOf_plain {s : Stmt} {ss : List Stmt} {x : Straight Unit} {r : Option Nat}
    (hplain : s.plain? env = some x)
    (h : Makes (Lower.straight site x >>= fun _ => pure (some k)) n es r n')
    (hrest : GoesOn env frame site ss behind r n' es' n'') :
    CodeOf env frame k n site (s :: ss) behind (es ++ es') n'' := by
  obtain ⟨_, _, _, _, hx, hcount, rfl⟩ := makes_bind.1 h
  obtain ⟨steps, hsteps, rfl⟩ := Lower.makes_straight.1 hx
  obtain ⟨rfl, rfl, rfl⟩ := makes_pure.1 hcount
  rw [List.append_nil]
  exact .plain hplain hsteps hrest

/-- The code of a statement, followed by what goes on where it ends, is the code of
    the statements from it on. -/
theorem codeOf_lower {expander : Expander} (hexp : Expands env expander) {s : Stmt}
    {ss : List Stmt} {r : Option Nat}
    (h : Makes (s.lower env expander site frame k) n es r n')
    (hrest : GoesOn env frame site ss behind r n' es' n'') :
    CodeOf env frame k n site (s :: ss) behind (es ++ es') n'' := by
  cases s with
  | assign pos name value => exact codeOf_plain rfl h hrest
  | print pos value => exact codeOf_plain rfl h hrest
  | input pos name => exact codeOf_plain rfl h hrest
  | goto pos target =>
    simp only [Stmt.lower] at h
    split at h
    · next hline =>
      simp only [makes_bind, Lower.makes_emitAs, makes_pure] at h
      obtain ⟨_, _, _, _, ⟨rfl, rfl⟩, ⟨rfl, rfl, rfl⟩, rfl⟩ := h
      obtain ⟨rfl, rfl⟩ := hrest
      exact .goto hline
    · next hline =>
      -- A jump that leads nowhere leaves a note only, and the line goes on.
      simp only [makes_bind, Lower.makes_note, makes_pure] at h
      obtain ⟨_, _, _, _, ⟨rfl, rfl⟩, ⟨rfl, rfl, rfl⟩, rfl⟩ := h
      exact .gotoNowhere (by simpa using hline) hrest
  | gosub pos target =>
    simp only [Stmt.lower, makes_bind, Lower.makes_emitAs, Lower.makes_label, makes_pure] at h
    obtain ⟨_, _, _, _, ⟨rfl, rfl⟩, ⟨_, _, _, _, hsub, ⟨_, _, _, _, ⟨rfl, rfl⟩,
      ⟨rfl, rfl, rfl⟩, rfl⟩, rfl⟩, rfl⟩ := h
    -- The subroutine is expanded here, or it does not exist and only the way back is left.
    rcases hexp _ _ _ _ _ _ _ hsub with ⟨l, ls, es₁, hlines, rfl, hcode⟩ | ⟨hlines, rfl, rfl⟩
    · simp only [List.cons_append, List.nil_append, List.append_nil, List.append_assoc]
      exact .gosub hlines hcode hrest
    · simp only [List.cons_append, List.nil_append, List.append_nil]
      exact .gosubNowhere hlines hrest
  | return_ pos =>
    simp only [Stmt.lower, makes_bind, Lower.makes_emitAs, makes_pure] at h
    obtain ⟨_, _, _, _, ⟨rfl, rfl⟩, ⟨rfl, rfl, rfl⟩, rfl⟩ := h
    obtain ⟨rfl, rfl⟩ := hrest
    exact .return_
  | end_ pos =>
    simp only [Stmt.lower, makes_bind, Lower.makes_emitAs, makes_pure] at h
    obtain ⟨_, _, _, _, ⟨rfl, rfl⟩, ⟨rfl, rfl, rfl⟩, rfl⟩ := h
    obtain ⟨rfl, rfl⟩ := hrest
    exact .end_
  | ifThen pos condition target =>
    simp only [Stmt.lower, makes_bind, Lower.makes_straight] at h
    obtain ⟨c, _, _, _, ⟨steps, hsteps, rfl⟩, hjump, rfl⟩ := h
    split at hjump
    · next hline =>
      simp only [makes_bind, Lower.makes_emitAs, Lower.makes_label, makes_pure] at hjump
      obtain ⟨_, _, _, _, ⟨rfl, rfl⟩, ⟨_, _, _, _, ⟨rfl, rfl⟩, ⟨rfl, rfl, rfl⟩, rfl⟩, rfl⟩ := hjump
      simp only [List.append_assoc, List.cons_append, List.nil_append]
      exact .ifThen hline hsteps hrest
    · next hline =>
      simp only [makes_bind, Lower.makes_emitAs, Lower.makes_label, makes_pure] at hjump
      obtain ⟨_, _, _, _, ⟨rfl, rfl⟩, ⟨_, _, _, _, ⟨rfl, rfl⟩, ⟨rfl, rfl, rfl⟩, rfl⟩, rfl⟩ := hjump
      simp only [List.append_assoc, List.cons_append, List.nil_append]
      exact .ifNowhere (by simpa using hline) hsteps hrest
  | forNext pos name start stop step body =>
    simp only [Stmt.lower, makes_bind, makes_pure] at h
    obtain ⟨_, _, _, _, hloop, ⟨rfl, rfl, rfl⟩, rfl⟩ := h
    obtain ⟨parts, hparts, rfl⟩ := makes_lowerLoop hloop
    have hcode : parts.code site frame.owner (k + 1) name [] ++ [] ++ es'
        = parts.code site frame.owner (k + 1) name es' := by
      simp [LoopParts.code]
    rw [hcode]
    exact .forNext hparts hrest

/-- The code of the statements of a line, followed by what goes on where they end. -/
theorem codeOf_lowerList {expander : Expander} (hexp : Expands env expander) {ss : List Stmt}
    {r : Option Nat} (h : Makes (Stmt.lowerList env expander site frame k ss) n es r n')
    (hrest : GoesOn env frame site [] behind r n' es' n'') :
    CodeOf env frame k n site ss behind (es ++ es') n'' := by
  induction ss generalizing k n es with
  | nil =>
    simp only [Stmt.lowerList, makes_pure] at h
    obtain ⟨rfl, rfl, rfl⟩ := h
    exact hrest
  | cons s ss ih =>
    simp only [Stmt.lowerList, makes_bind] at h
    obtain ⟨r₁, n₁, es₁, es₂, hs, hss, rfl⟩ := h
    rw [List.append_assoc]
    refine codeOf_lower hexp hs ?_
    cases r₁ with
    | none =>
      simp only [makes_pure] at hss
      obtain ⟨rfl, rfl, rfl⟩ := hss
      exact hrest
    | some k₁ => exact ih hss

end Statements

-- ============================================================================
-- Lowering subroutines
-- ============================================================================

/-- An expanded line starts with a note and a label, and behind them is the code of its
    statements, with the rest of the subroutine to come. -/
theorem codeOf_lowerRegion {env : Env} {expander : Expander} (hexp : Expands env expander)
    {frame : Frame} {here : Label} {i k n n' : Nat} {l : Line} {ls : List Line}
    {es : List Emission} {u : Unit}
    (h : Makes (lowerRegion env expander frame here i k (l :: ls)) n es u n') :
    ∃ es', es = .note (.subroutineLine l.number) :: .label here :: es' ∧
      CodeOf env frame k n l.number l.stmts (.lines i ls) es' n' := by
  induction ls generalizing l here i k n es with
  | nil =>
    simp only [lowerRegion, makes_bind, Lower.makes_note, Lower.makes_label] at h
    obtain ⟨_, _, _, _, ⟨rfl, rfl⟩, ⟨_, _, _, _, ⟨rfl, rfl⟩, ⟨r, n₁, es₁, es₂, hss, hr, rfl⟩, rfl⟩,
      rfl⟩ := h
    refine ⟨es₁ ++ es₂, rfl, codeOf_lowerList hexp hss ?_⟩
    -- A line with a statement that ends leads nowhere; otherwise the way back follows.
    cases r with
    | none => exact (makes_pure.1 hr).imp_right And.right
    | some k₁ =>
      obtain ⟨rfl, rfl⟩ := Lower.makes_emitAs.1 hr
      exact .regionEnd
  | cons m ls ih =>
    rw [lowerRegion] at h
    simp only [makes_bind, Lower.makes_note, Lower.makes_label] at h
    obtain ⟨_, _, _, _, ⟨rfl, rfl⟩, ⟨_, _, _, _, ⟨rfl, rfl⟩, ⟨r, n₁, es₁, es₂, hss, hr, rfl⟩, rfl⟩,
      rfl⟩ := h
    refine ⟨es₁ ++ es₂, rfl, codeOf_lowerList hexp hss ?_⟩
    -- A line with a statement that ends leads nowhere; otherwise the next line follows.
    cases r with
    | none => exact (makes_pure.1 hr).imp_right And.right
    | some k₁ =>
      simp only [makes_bind, Lower.makes_emit] at hr
      obtain ⟨_, _, _, _, ⟨rfl, rfl⟩, hregion, rfl⟩ := hr
      obtain ⟨es', rfl, hcode⟩ := ih hregion
      exact .nextLine hcode

/-- Expansion does what it has to do, however many subroutines are being expanded.
    The induction is on the number of lines that can still be expanded. -/
theorem expands_expand (env : Env) (active : List Nat) : Expands env (expand env active) := by
  induction hm : env.inactive active using Nat.strongRecOn generalizing active with
  | ind m ih =>
    intro site target start next n es n' h
    rw [expand] at h
    split at h
    · exact absurd h Lower.not_makes_fail
    · next hactive =>
      split at h
      · next hlines =>
        simp only [makes_bind, Lower.makes_note, Lower.makes_label, Lower.makes_emitAs] at h
        obtain ⟨_, _, _, _, ⟨rfl, rfl⟩, ⟨_, _, _, _, ⟨rfl, rfl⟩, ⟨rfl, rfl⟩, rfl⟩, rfl⟩ := h
        exact .inr ⟨hlines, rfl, rfl⟩
      · next l ls hlines =>
        have hless : env.inactive (target :: active) < m := by
          rw [← hm]
          exact Env.inactive_cons_lt hactive (by rw [hlines]; simp)
        obtain ⟨es', rfl, hcode⟩ := codeOf_lowerRegion (ih _ hless _ rfl) h
        exact .inl ⟨l, ls, es', hlines, rfl, hcode⟩

-- ============================================================================
-- Lowering programs
-- ============================================================================

/-- The block at which lines start to run: that of the first, or the end. -/
def startOf : List Line → Label
  | [] => .exit
  | l :: _ => .line l.number

/-- The code that makes slots and puts zero into them. -/
def slotCode (names : List String) : List Emission :=
  names.flatMap fun name =>
    [.step none ⟨.ordinary, .alloca name⟩, .step none ⟨.initial, .store (.literal 0.0) name⟩]

/-- The code of lines, each of which goes on at the next. -/
inductive LinesCode (env : Env) : List Line → Nat → List Emission → Nat → Prop where
  | nil {n} : LinesCode env [] n [] n
  | cons {l ls n n₁ n' es es'} :
      CodeOf env ⟨.line l.number, .exit⟩ 0 n l.number l.stmts (.block (startOf ls)) es n₁ →
      LinesCode env ls n₁ es' n' →
      LinesCode env (l :: ls) n
        (.note (.line l.number) :: .label (.line l.number) :: (es ++ es')) n'

/-- The code of a whole program that uses `n` temporaries. -/
inductive MainCode (env : Env) : List Emission → Nat → Prop where
  | empty : env.lines = [] →
      MainCode env (.label .entry :: (slotCode env.names.toList ++
        [.step none ⟨.ordinary, .ret⟩])) 0
  | lines {es n} : env.lines ≠ [] → LinesCode env env.lines 0 es n →
      MainCode env (.label .entry :: (slotCode env.names.toList ++
        .step none ⟨.ordinary, .br (startOf env.lines)⟩ ::
          (es ++ [.label .exit, .step none ⟨.ordinary, .ret⟩]))) n

section Programs

variable {env : Env} {n n' : Nat} {es : List Emission} {u : Unit}

/-- Slots are set to zero, and no number is taken for that. -/
theorem makes_lowerSlots {names : List String} (h : Makes (lowerSlots names) n es u n') :
    es = slotCode names ∧ n' = n := by
  induction names generalizing es with
  | nil =>
    obtain ⟨rfl, -, rfl⟩ := makes_pure.1 h
    exact ⟨rfl, rfl⟩
  | cons name names ih =>
    simp only [lowerSlots, makes_bind, Lower.makes_emit, Lower.makes_emitAs] at h
    obtain ⟨_, _, _, _, ⟨rfl, rfl⟩, ⟨_, _, _, _, ⟨rfl, rfl⟩, hrest, rfl⟩, rfl⟩ := h
    obtain ⟨rfl, rfl⟩ := ih hrest
    exact ⟨rfl, rfl⟩

/-- A line starts with a note and its own label, and leads to the next line. -/
theorem codeOf_lowerLine {l : Line} {next : Label} (h : Makes (lowerLine env l next) n es u n') :
    ∃ es', es = .note (.line l.number) :: .label (.line l.number) :: es' ∧
      CodeOf env ⟨.line l.number, .exit⟩ 0 n l.number l.stmts (.block next) es' n' := by
  simp only [lowerLine, makes_bind, Lower.makes_note, Lower.makes_label] at h
  obtain ⟨_, _, _, _, ⟨rfl, rfl⟩, ⟨_, _, _, _, ⟨rfl, rfl⟩, ⟨r, n₁, es₁, es₂, hss, hr, rfl⟩, rfl⟩,
    rfl⟩ := h
  refine ⟨es₁ ++ es₂, rfl, codeOf_lowerList (expands_expand env []) hss ?_⟩
  cases r with
  | none => exact (makes_pure.1 hr).imp_right And.right
  | some k =>
    obtain ⟨rfl, rfl⟩ := Lower.makes_emit.1 hr
    exact .lineEnd

/-- Each line leads to the one behind it, the last one to the exit. -/
theorem linesCode_lowerLines {ls : List Line} (h : Makes (lowerLines env ls) n es u n') :
    LinesCode env ls n es n' := by
  induction ls generalizing n es with
  | nil =>
    obtain ⟨rfl, -, rfl⟩ := makes_pure.1 h
    exact .nil
  | cons l ls ih =>
    simp only [lowerLines, makes_bind] at h
    obtain ⟨_, n₁, _, es₂, hline, hlines, rfl⟩ := h
    obtain ⟨es₁, rfl, hcode⟩ := codeOf_lowerLine hline
    refine .cons ?_ (ih hlines)
    cases ls <;> exact hcode

/-- The whole function: slots, the jump to the first line, the lines and the exit. -/
theorem mainCode_lowerMain (h : Makes (lowerMain env) 0 es u n) : MainCode env es n := by
  simp only [lowerMain, makes_bind, Lower.makes_label] at h
  obtain ⟨_, _, _, _, ⟨rfl, rfl⟩, ⟨_, _, _, es', hslots, h, rfl⟩, rfl⟩ := h
  obtain ⟨rfl, rfl⟩ := makes_lowerSlots hslots
  split at h
  · next hlines =>
    obtain ⟨rfl, rfl⟩ := Lower.makes_emit.1 h
    exact .empty hlines
  · next l ls hlines =>
    simp only [makes_bind, Lower.makes_emit, Lower.makes_label] at h
    obtain ⟨_, _, _, _, ⟨rfl, rfl⟩, ⟨_, _, es₁, _, hcode, ⟨_, _, _, _, ⟨rfl, rfl⟩, ⟨rfl, rfl⟩, rfl⟩,
      rfl⟩, rfl⟩ := h
    have hmain := MainCode.lines (by rw [hlines]; simp) (linesCode_lowerLines hcode)
    rw [hlines] at hmain
    exact hmain

end Programs

/-- The body of every module is laid out as the code of its program. -/
theorem Program.mainCode_of_lower {p : Program} {inventory : Inventory} {m : Module}
    (h : (p.lower inventory).outcome = .ok m) :
    MainCode (p.env inventory) m.body m.tempCount := by
  rcases hrun : (lowerMain (p.env inventory)).run 0 with ⟨es, e | ⟨u, n⟩⟩
  · simp [Program.lower, hrun, Except.map] at h
  · simp only [Program.lower, hrun, Except.map, Except.ok.injEq] at h
    subst h
    exact mainCode_lowerMain hrun

/-- The pool of a module is the pool that its code was made with. -/
theorem Program.texts_of_lower {p : Program} {inventory : Inventory} {m : Module}
    (h : (p.lower inventory).outcome = .ok m) : m.texts = (p.env inventory).texts.toList := by
  unfold Program.lower at h
  cases hout : ((lowerMain (p.env inventory)).run 0).outcome with
  | error e =>
    simp only [hout] at h
    cases h
  | ok r =>
    simp only [hout] at h
    cases h
    rfl

end LineBasic
