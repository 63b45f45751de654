/-
  LineBasic.Lowering.Stmt

  The code of statements.  A GOSUB is expanded where it stands: the code of the
  lines from its target on is repeated, with labels of its own, up to a statement
  that ends it.  A subroutine that would have to be expanded inside itself is
  refused.
-/

import LineBasic.Lowering.Expr

namespace LineBasic

open Straight

-- ============================================================================
-- Simple statements
-- ============================================================================

namespace Stmt

/-- Code for an assignment. -/
def lowerAssign (env : Env) (name : String) (value : Expr) : Straight Unit := do
  let x ← value.lower env
  env.requireSlot name
  emit (.store x name)

/-- Code for printing a text or a number. -/
def lowerPrint (env : Env) (value : Expr) : Straight Unit :=
  match value with
  | .text _ s => do
    let x ← env.textAddress s
    let format ← define (.address · .textFormat)
    emit (.printText format x)
  | value => do
    let x ← value.lower env
    let format ← define (.address · .numberFormat)
    emit (.printNumber format x)

/-- Code for reading a number. -/
def lowerInput (env : Env) (name : String) : Straight Unit := do
  env.requireSlot name
  let format ← define (.address · .inputFormat)
  emit (.readNumber format name)

/-- Code for the body of a loop, which may only assign and print. -/
def lowerBody (env : Env) : List Stmt → Straight Unit
  | [] => pure ()
  | assign _ name value :: rest => do
    lowerAssign env name value
    lowerBody env rest
  | print _ value :: rest => do
    lowerPrint env value
    lowerBody env rest
  | s :: _ => fail (.unsupportedInLoop s.pos)

/-- Code for the step of a loop; without one the step is one. -/
def lowerStep (env : Env) : Option Expr → Straight Operand
  | some e => e.lower env
  | none => pure (.literal 1.0)

/-- Code for a loop, the `k`-th numbered block of its owner.  The bound and the step
    are worked out anew in every round. -/
def lowerLoop (env : Env) (site : Nat) (owner : Label) (k : Nat) (name : String)
    (start stop : Expr) (step : Option Expr) (body : List Stmt) : Lower Unit := do
  Lower.straight site do
    env.requireSlot name
    let x ← start.lower env
    emitAs .loopInit (.store x name)
    emit (.br (.loopTest owner k))
  Lower.label (.loopTest owner k)
  Lower.straight site do
    let current ← define (.load · name)
    let bound ← stop.lower env
    let within ← defineAs .loopTest (.compare · .le (.temp current) bound)
    emit (.brIf within (.loopBody owner k) (.loopEnd owner k))
  Lower.label (.loopBody owner k)
  Lower.straight site do
    lowerBody env body
    emit (.br (.loopStep owner k))
  Lower.label (.loopStep owner k)
  Lower.straight site do
    let by_ ← lowerStep env step
    let current ← define (.load · name)
    let next ← defineAs .loopStep (.arith · .add (.temp current) by_)
    emit (.store (.temp next) name)
    emit (.br (.loopTest owner k))
  Lower.label (.loopEnd owner k)

end Stmt

-- ============================================================================
-- Statements of a line
-- ============================================================================

/-- Where statements stand: the label their own blocks are numbered under, and the
    block that a RETURN goes to. -/
structure Frame where
  owner : Label
  returnTo : Label

/-- A way to expand the subroutine at a line, called from the line `site`, between
    its first block and the block that follows it. -/
abbrev Expander : Type := (site target : Nat) → (start next : Label) → Lower Unit

namespace Stmt

/-- Code for a statement of the line `site`, when `k` blocks have been numbered so
    far.  The result is the count of numbered blocks, or nothing when the code
    does not go on behind the statement. -/
def lower (env : Env) (expand : Expander) (site : Nat) (frame : Frame) (k : Nat) :
    Stmt → Lower (Option Nat)
  | assign _ name value => do
    Lower.straight site (lowerAssign env name value)
    return some k
  | print _ value => do
    Lower.straight site (lowerPrint env value)
    return some k
  | input _ name => do
    Lower.straight site (lowerInput env name)
    return some k
  | goto pos target =>
    if env.hasLine target then do
      Lower.emitAs site .goto (.br (.line target))
      return none
    else do
      Lower.note (.danglingGoto target pos)
      return some k
  | gosub _ target => do
    let start := .subStart frame.owner (k + 1)
    let next := .subEnd frame.owner (k + 1)
    Lower.emitAs site .gosub (.br start)
    expand site target start next
    Lower.label next
    return some (k + 1)
  | return_ _ => do
    Lower.emitAs site .return_ (.br frame.returnTo)
    return none
  | end_ _ => do
    Lower.emitAs site .end_ (.br .exit)
    return none
  | ifThen _ condition target => do
    let next := .decided frame.owner (k + 1)
    let c ← Lower.straight site (condition.lowerCondition env)
    if env.hasLine target then
      Lower.emitAs site .decision (.brIf c (.line target) next)
    else
      Lower.emitAs site .decision (.br next)
    Lower.label next
    return some (k + 1)
  | forNext _ name start stop step body => do
    lowerLoop env site frame.owner (k + 1) name start stop step body
    return some (k + 1)

/-- Code for statements of the line `site` in order, up to one behind which the code
    does not go on. -/
def lowerList (env : Env) (expand : Expander) (site : Nat) (frame : Frame) (k : Nat) :
    List Stmt → Lower (Option Nat)
  | [] => return some k
  | s :: rest => do
    match ← s.lower env expand site frame k with
    | some k => lowerList env expand site frame k rest
    | none => return none

end Stmt

-- ============================================================================
-- Subroutines
-- ============================================================================

/-- Code for the lines of an expanded subroutine, of which `i` lines lie behind and
    the next one starts at `here`.  Behind the last line the subroutine returns. -/
def lowerRegion (env : Env) (expand : Expander) (frame : Frame) (here : Label) (i k : Nat) :
    List Line → Lower Unit
  | [] => return
  | l :: rest => do
    Lower.note (.subroutineLine l.number)
    Lower.label here
    match ← Stmt.lowerList env expand l.number frame k l.stmts with
    | none => return
    | some k =>
      match rest with
      | [] => Lower.emitAs l.number .return_ (.br frame.returnTo)
      | _ :: _ =>
        let next := .subLine frame.owner (i + 1)
        Lower.emit l.number (.br next)
        lowerRegion env expand frame next (i + 1) k rest

namespace Env

/-- How many lines can still be expanded when those in `active` are being
    expanded. -/
def inactive (env : Env) (active : List Nat) : Nat :=
  (env.lines.filter (·.number ∉ active)).length

theorem exists_of_linesFrom_ne_nil {env : Env} {target : Nat} (h : env.linesFrom target ≠ []) :
    ∃ l ∈ env.lines, l.number = target := by
  unfold linesFrom at h
  generalize env.lines = lines at h
  induction lines with
  | nil => simp at h
  | cons l ls ih =>
    by_cases hl : l.number = target
    · exact ⟨l, List.mem_cons_self .., hl⟩
    · obtain ⟨m, hm, hn⟩ := ih (by simpa [hl] using h)
      exact ⟨m, List.mem_cons_of_mem _ hm, hn⟩

/-- Expanding one more subroutine leaves fewer to expand. -/
theorem inactive_cons_lt {env : Env} {active : List Nat} {target : Nat}
    (hactive : target ∉ active) (hline : env.linesFrom target ≠ []) :
    env.inactive (target :: active) < env.inactive active := by
  obtain ⟨l, hl, hn⟩ := exists_of_linesFrom_ne_nil hline
  have hsplit : env.lines.filter (·.number ∉ target :: active)
      = (env.lines.filter (·.number ∉ active)).filter (·.number ≠ target) := by
    rw [List.filter_filter]
    congr 1
    funext l
    simp
  have hmem : l ∈ env.lines.filter (·.number ∉ active) := by
    simp [hl, hn, hactive]
  rw [inactive, inactive, hsplit]
  refine Nat.lt_of_le_of_ne (List.length_filter_le _ _) fun heq => ?_
  have hall := List.length_filter_eq_length_iff.1 heq l hmem
  simp [hn] at hall

end Env

/-- Expands the subroutine at the line `target`, inside the subroutines at the lines
    of `active`.  If there is no such line, the call comes back at once. -/
def expand (env : Env) (active : List Nat) (site target : Nat) (start next : Label) :
    Lower Unit :=
  if _hactive : target ∈ active then Lower.fail (.recursiveGosub target)
  else
    match _hlines : env.linesFrom target with
    | [] => do
      Lower.note (.danglingGosub target next)
      Lower.label start
      Lower.emitAs site .return_ (.br next)
    | l :: ls =>
      lowerRegion env (fun site target' start next =>
        expand env (target :: active) site target' start next) ⟨start, next⟩ start 0 0 (l :: ls)
termination_by env.inactive active
decreasing_by exact Env.inactive_cons_lt _hactive (by rw [_hlines]; simp)

end LineBasic
