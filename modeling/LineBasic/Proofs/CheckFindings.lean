/-
  LineBasic.Proofs.CheckFindings

  What the check of a program can meet is laid down by the program (`Program.findings`):
  a check that goes through meets all of it, one that fails stops on the way
  (`Check.KeepsTo`).  Among the findings, the bodies of loops are nested, each of them
  entered and left once, and the lines come in their order.
-/

import LineBasic.Proofs.CheckItems

namespace LineBasic

-- ============================================================================
-- What a check can meet
-- ============================================================================

namespace Expr

mutual

/-- What the check of an expression meets, if it goes through. -/
def findings : Expr → List Finding
  | number _ _ => []
  | text pos value => [.literal value pos]
  | var pos name => [.variable_ name pos]
  | unary _ _ operand => findings operand
  | binary _ _ lhs rhs => findings lhs ++ findings rhs
  | call pos name args => .call name pos :: findingsOfList args

/-- What the checks of expressions meet, one after the other. -/
def findingsOfList : List Expr → List Finding
  | [] => []
  | e :: es => findings e ++ findingsOfList es

end

end Expr

/-- What the check of a target meets. -/
def Targets.findings (targets : Targets) (jump : Jump) (target : Nat) (pos : Position) :
    List Finding :=
  if target ∈ targets.lines then [] else [.missing jump target pos]

namespace Stmt

mutual

/-- What the check of a statement meets, if it goes through. -/
def findings (targets : Targets) : Stmt → List Finding
  | assign pos name value => .variable_ name pos :: value.findings
  | print _ value => value.findings
  | goto pos target => .jump .goto target pos :: targets.findings .goto target pos
  | gosub pos target => .jump .gosub target pos :: targets.findings .gosub target pos
  | return_ pos => [.returned pos]
  | ifThen pos condition target =>
    .jump .ifThen target pos :: (condition.findings ++ targets.findings .ifThen target pos)
  | input pos name => [.variable_ name pos]
  | forNext pos name start stop step body =>
    .loop name pos :: .variable_ name pos :: (start.findings ++ (stop.findings ++
      (Expr.findingsOfList step.toList ++
        .bodyStart :: (findingsOfList targets body ++ [.bodyEnd]))))
  | end_ pos => [.ended pos]

/-- What the checks of statements meet, one after the other. -/
def findingsOfList (targets : Targets) : List Stmt → List Finding
  | [] => []
  | s :: ss => findings targets s ++ findingsOfList targets ss

end

end Stmt

/-- What the check of lines meets, if it goes through. -/
def lineFindings (targets : Targets) : List Line → List Finding
  | [] => []
  | l :: ls => .line l.number :: (Stmt.findingsOfList targets l.stmts ++ lineFindings targets ls)

/-- What the check of a program meets, if it goes through. -/
def Program.findings (p : Program) (strict : Bool) : List Finding :=
  lineFindings ⟨p.lines.map Line.number, strict⟩ p.lines

open Check

namespace Expr

mutual

/-- What the items of an expression find is what the expression says. -/
theorem found_items (e : Expr) : found e.items = e.findings := by
  match e with
  | .number pos x => rfl
  | .text pos s => rfl
  | .var pos x => rfl
  | .unary pos sign e =>
    rw [items, found_append, found_items e]
    exact List.append_nil _
  | .binary pos op l r =>
    rw [items, found_append, found_append, found_items l, found_items r]
    cases op <;> exact congrArg (l.findings ++ ·) (List.append_nil _)
  | .call pos name args => rw [found_items_call, found_itemsOfList args, findings]

theorem found_itemsOfList (es : List Expr) : found (itemsOfList es) = findingsOfList es := by
  match es with
  | [] => rfl
  | e :: es => rw [itemsOfList, found_append, found_items e, found_itemsOfList es, findingsOfList]

end

end Expr

theorem Targets.found_leadItem {targets : Targets} {jump : Jump} {target : Nat} {pos : Position} :
    found [leadItem targets.lines jump target pos] = targets.findings jump target pos := by
  unfold found leadItem findings
  by_cases h : target ∈ targets.lines <;> simp [Item.finding?, h]

namespace Stmt

variable {targets : Targets}

mutual

/-- What the items of a statement find is what the statement says, loop bodies included. -/
theorem found_items (s : Stmt) : found (s.items targets.lines) = s.findings targets := by
  match s with
  | .assign pos x e =>
    rw [items, found_meet, Expr.found_numberItems, e.found_items, findings]
  | .print pos e => rw [items, e.found_items, findings]
  | .goto pos target => rw [items, found_meet, Targets.found_leadItem, findings]
  | .gosub pos target => rw [items, found_meet, Targets.found_leadItem, findings]
  | .return_ pos => rfl
  | .ifThen pos c target =>
    rw [items, found_meet, found_append, Expr.found_numberItems, c.found_items,
      Targets.found_leadItem, findings]
  | .input pos x => rfl
  | .forNext pos x start stop step body =>
    have hstep : found (step.toList.flatMap (Expr.numberItems · (.textBound .step)))
        = Expr.findingsOfList step.toList := by
      cases step with
      | none => rfl
      | some e =>
        rw [Option.toList_some, List.flatMap_singleton, Expr.found_numberItems, e.found_items,
          Expr.findingsOfList, Expr.findingsOfList, List.append_nil]
    rw [items, found_meet, found_meet, found_append, found_append, found_append, found_meet,
      found_append, found_meet, found_nil, found_itemsOfList body, hstep, Expr.found_numberItems,
      Expr.found_numberItems, start.found_items, stop.found_items, findings]
  | .end_ pos => rfl

theorem found_itemsOfList (ss : List Stmt) :
    found (itemsOfList targets.lines ss) = findingsOfList targets ss := by
  match ss with
  | [] => rfl
  | s :: ss => rw [itemsOfList, found_append, found_items s, found_itemsOfList ss, findingsOfList]

end

end Stmt

/-- Lines find their numbers and what their statements say. -/
theorem found_lineItems (targets : Targets) (ls : List Line) :
    found (lineItems targets.lines ls) = lineFindings targets ls := by
  induction ls with
  | nil => rfl
  | cons l ls ih =>
    rw [lineItems, found_meet, found_append, Stmt.found_itemsOfList, ih, lineFindings]

/-- What the items of a program find is what the program says. -/
theorem Program.found_items (p : Program) (strict : Bool) : found p.items = p.findings strict := by
  have hlines : found (lineItems (p.lines.map Line.number) p.lines) = p.findings strict :=
    found_lineItems ⟨p.lines.map Line.number, strict⟩ p.lines
  unfold items
  cases repeated? [] p.lines with
  | none => exact hlines
  | some l => exact hlines

/-- A program says what its check meets. -/
theorem Program.keepsTo_check (p : Program) (strict : Bool) :
    (p.check strict).KeepsTo (p.findings strict) := by
  rw [p.check_eq_runItems, ← p.found_items]
  exact keepsTo_runItems strict p.items

-- ============================================================================
-- Loops and lines among the findings
-- ============================================================================

/-- Whether a finding opens the body of a loop, true, or closes it. -/
def Finding.bracket? : Finding → Option Bool
  | bodyStart => some true
  | bodyEnd => some false
  | _ => none

/-- The number of the line that a finding starts, if it starts one. -/
def Finding.number? : Finding → Option Nat
  | line n => some n
  | _ => none

namespace Stmt

mutual

/-- How many loops a statement holds, at any depth. -/
def loops : Stmt → Nat
  | forNext _ _ _ _ _ body => loopsOfList body + 1
  | _ => 0

/-- How many loops statements hold, at any depth. -/
def loopsOfList : List Stmt → Nat
  | [] => 0
  | s :: ss => loops s + loopsOfList ss

end

end Stmt

/-- How many loops a program holds, at any depth. -/
def Program.loops (p : Program) : Nat := Stmt.loopsOfList (p.lines.flatMap Line.stmts)

/-- Brackets that are closed behind where they are opened, `n` pairs of them. -/
structure Nested (bs : List Bool) (n : Nat) : Prop where
  never_ahead : ∀ front, front <+: bs → front.count false ≤ front.count true
  opened : bs.count true = n
  closed : bs.count false = n

namespace Nested

variable {bs cs : List Bool} {m n : Nat}

theorem nil : Nested [] 0 := by
  refine ⟨fun front h => ?_, rfl, rfl⟩
  rw [List.prefix_nil.1 h]
  exact Nat.le_refl _

/-- Nested brackets side by side are nested. -/
theorem append (hb : Nested bs m) (hc : Nested cs n) : Nested (bs ++ cs) (m + n) := by
  refine ⟨fun front h => ?_, ?_, ?_⟩
  · rcases List.prefix_or_prefix_of_prefix h (List.prefix_append bs cs) with hfront | ⟨rest, rfl⟩
    · exact hb.never_ahead front hfront
    · have hrest := hc.never_ahead rest ((List.prefix_append_right_inj bs).1 h)
      rw [List.count_append, List.count_append, hb.opened, hb.closed]
      omega
  · rw [List.count_append, hb.opened, hc.opened]
  · rw [List.count_append, hb.closed, hc.closed]

/-- A pair of brackets around nested ones is nested, and one pair more. -/
theorem loop (h : Nested bs n) : Nested (true :: (bs ++ [false])) (n + 1) := by
  have hopened := h.opened
  have hclosed := h.closed
  refine ⟨fun front hfront => ?_, by simp [hopened], by simp [hclosed]⟩
  rcases List.prefix_cons_iff.1 hfront with rfl | ⟨inner, rfl, hinner⟩
  · exact Nat.le_refl _
  · rcases List.prefix_concat_iff.1 hinner with rfl | hinner
    · simp [hopened, hclosed]
    · have hle := h.never_ahead inner hinner
      simp
      omega

end Nested

/-- Findings among which no loop and no line starts or ends. -/
structure Finding.Inner (fs : List Finding) : Prop where
  brackets : fs.filterMap bracket? = []
  numbers : fs.filterMap number? = []

theorem Finding.Inner.append {fs gs : List Finding} (hf : Inner fs) (hg : Inner gs) :
    Inner (fs ++ gs) := by
  constructor
  · rw [List.filterMap_append, hf.brackets, hg.brackets]
    rfl
  · rw [List.filterMap_append, hf.numbers, hg.numbers]
    rfl

namespace Expr

mutual

/-- The findings of an expression stand inside of one line and hold no brackets. -/
theorem inner_findings (e : Expr) : Finding.Inner e.findings := by
  match e with
  | .number pos x => exact ⟨rfl, rfl⟩
  | .text pos s => exact ⟨rfl, rfl⟩
  | .var pos x => exact ⟨rfl, rfl⟩
  | .unary pos sign e => exact inner_findings e
  | .binary pos op l r => exact (inner_findings l).append (inner_findings r)
  | .call pos name args =>
    exact ⟨(inner_findingsOfList args).brackets, (inner_findingsOfList args).numbers⟩

theorem inner_findingsOfList (es : List Expr) : Finding.Inner (findingsOfList es) := by
  match es with
  | [] => exact ⟨rfl, rfl⟩
  | e :: es => exact (inner_findings e).append (inner_findingsOfList es)

end

end Expr

theorem Targets.inner_findings {targets : Targets} {jump : Jump} {target : Nat} {pos : Position} :
    Finding.Inner (targets.findings jump target pos) := by
  unfold findings
  split
  · exact ⟨rfl, rfl⟩
  · exact ⟨rfl, rfl⟩

/-- Findings with `n` loops among them, and no line. -/
structure Finding.Loops (fs : List Finding) (n : Nat) : Prop where
  nested : Nested (fs.filterMap bracket?) n
  numbers : fs.filterMap number? = []

namespace Finding

variable {fs gs : List Finding} {m n : Nat}

theorem Inner.loops (h : Inner fs) : Loops fs 0 := by
  refine ⟨?_, h.numbers⟩
  rw [h.brackets]
  exact .nil

theorem Loops.append (hf : Loops fs m) (hg : Loops gs n) : Loops (fs ++ gs) (m + n) := by
  constructor
  · rw [List.filterMap_append]
    exact hf.nested.append hg.nested
  · rw [List.filterMap_append, hf.numbers, hg.numbers]
    rfl

theorem Loops.behind (hf : Inner fs) (hg : Loops gs n) : Loops (fs ++ gs) n := by
  have h := hf.loops.append hg
  rwa [Nat.zero_add] at h

/-- The body of a loop adds one to the loops inside of it. -/
theorem Loops.body (h : Loops fs n) : Loops (.bodyStart :: (fs ++ [.bodyEnd])) (n + 1) := by
  constructor
  · have hbody : (.bodyStart :: (fs ++ [.bodyEnd])).filterMap bracket? =
        true :: (fs.filterMap bracket? ++ [false]) := by
      rw [List.filterMap_cons_some (show bracket? .bodyStart = some true from rfl),
        List.filterMap_append]
      rfl
    rw [hbody]
    exact h.nested.loop
  · rw [List.filterMap_cons_none rfl, List.filterMap_append, h.numbers]
    rfl

end Finding

namespace Stmt

variable {targets : Targets}

mutual

/-- A statement enters and leaves as many bodies as it has loops. -/
theorem loops_findings (s : Stmt) : Finding.Loops (s.findings targets) s.loops := by
  match s with
  | .assign pos x e =>
    have hfront : Finding.Inner [.variable_ x pos] := ⟨rfl, rfl⟩
    exact (hfront.append e.inner_findings).loops
  | .print pos e => exact e.inner_findings.loops
  | .goto pos target =>
    have hfront : Finding.Inner [.jump .goto target pos] := ⟨rfl, rfl⟩
    exact (hfront.append Targets.inner_findings).loops
  | .gosub pos target =>
    have hfront : Finding.Inner [.jump .gosub target pos] := ⟨rfl, rfl⟩
    exact (hfront.append Targets.inner_findings).loops
  | .return_ pos => exact ⟨.nil, rfl⟩
  | .ifThen pos c target =>
    have hfront : Finding.Inner [.jump .ifThen target pos] := ⟨rfl, rfl⟩
    exact (hfront.append (c.inner_findings.append Targets.inner_findings)).loops
  | .input pos x => exact ⟨.nil, rfl⟩
  | .forNext pos x start stop step body =>
    have hfront : Finding.Inner [.loop x pos, .variable_ x pos] := ⟨rfl, rfl⟩
    exact .behind hfront (.behind start.inner_findings (.behind stop.inner_findings
      (.behind (Expr.inner_findingsOfList _) (loops_findingsOfList body).body)))
  | .end_ pos => exact ⟨.nil, rfl⟩

theorem loops_findingsOfList (ss : List Stmt) :
    Finding.Loops (findingsOfList targets ss) (loopsOfList ss) := by
  match ss with
  | [] => exact ⟨.nil, rfl⟩
  | s :: ss => exact (loops_findings s).append (loops_findingsOfList ss)

end

theorem loopsOfList_append (ss ts : List Stmt) :
    loopsOfList (ss ++ ts) = loopsOfList ss + loopsOfList ts := by
  induction ss with
  | nil => exact (Nat.zero_add _).symm
  | cons s ss ih => rw [List.cons_append, loopsOfList, loopsOfList, ih, Nat.add_assoc]

end Stmt

/-- The bodies of all loops of the lines are nested, and there is one for each loop. -/
theorem nested_lineFindings {targets : Targets} (ls : List Line) :
    Nested ((lineFindings targets ls).filterMap Finding.bracket?)
      (Stmt.loopsOfList (ls.flatMap Line.stmts)) := by
  induction ls with
  | nil => exact .nil
  | cons l ls ih =>
    rw [lineFindings, List.filterMap_cons_none rfl, List.filterMap_append, List.flatMap_cons,
      Stmt.loopsOfList_append]
    exact (Stmt.loops_findingsOfList l.stmts).nested.append ih

/-- Among the findings of lines, the lines come in their order. -/
theorem numbers_lineFindings {targets : Targets} (ls : List Line) :
    (lineFindings targets ls).filterMap Finding.number? = ls.map Line.number := by
  induction ls with
  | nil => rfl
  | cons l ls ih =>
    have hfirst : (Finding.line l.number).number? = some l.number := rfl
    rw [lineFindings, List.filterMap_cons_some hfirst, List.filterMap_append,
      (Stmt.loops_findingsOfList l.stmts).numbers, ih]
    rfl

end LineBasic
