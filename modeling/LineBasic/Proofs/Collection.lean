/-
  LineBasic.Proofs.Collection

  Two ways to take the inventory of a program.  The check meets variables and literals
  one by one, between its tests, and stops at the first fault; the inventory of a
  program is gathered from its tree alone.  When the check goes through, what it met is
  what the tree holds, in the same order, whatever the analyst had met before.
-/

import LineBasic.Check.Analyst
import LineBasic.Lowering.Program
import LineBasic.Proofs.CheckFindings

namespace LineBasic

-- ============================================================================
-- What a check meets
-- ============================================================================

/-- The variable of a finding, if it is one. -/
def Finding.variable? : Finding → Option String
  | variable_ name _ => some name
  | _ => none

/-- A check that goes through meets the variables `names` and the literals `texts`, each in
    this order. -/
def Check.Meets {α : Type} (x : Check α) (names texts : List String) : Prop :=
  ∀ a, x.outcome = .ok a →
    x.notes.filterMap Finding.variable? = names ∧ x.notes.filterMap Finding.literal? = texts

/-- Findings among which are the variables `names` and the literals `texts`, each in this
    order. -/
structure Finding.Hold (fs : List Finding) (names texts : List String) : Prop where
  names : fs.filterMap Finding.variable? = names
  texts : fs.filterMap literal? = texts

namespace Finding.Hold

variable {fs gs : List Finding} {names texts names' texts' : List String}

theorem append (h : Hold fs names texts) (h' : Hold gs names' texts') :
    Hold (fs ++ gs) (names ++ names') (texts ++ texts') := by
  constructor
  · rw [List.filterMap_append, h.names, h'.names]
  · rw [List.filterMap_append, h.texts, h'.texts]

/-- Findings without variables and literals, in front of others. -/
theorem behind (h : Hold fs [] []) (h' : Hold gs names texts) : Hold (fs ++ gs) names texts :=
  h.append h'

/-- The same behind others. -/
theorem before (h : Hold fs names texts) (h' : Hold gs [] []) : Hold (fs ++ gs) names texts := by
  have happend := h.append h'
  rwa [List.append_nil, List.append_nil] at happend

end Finding.Hold

open Finding

namespace Expr

mutual

/-- The findings of an expression hold its variables and literals as they are written. -/
theorem hold_findings (e : Expr) : Hold e.findings e.names e.texts := by
  match e with
  | .number pos x => exact ⟨rfl, rfl⟩
  | .text pos s => exact ⟨rfl, rfl⟩
  | .var pos x => exact ⟨rfl, rfl⟩
  | .unary pos sign e => exact hold_findings e
  | .binary pos op l r => exact (hold_findings l).append (hold_findings r)
  | .call pos name args =>
    have hcall : Hold [.call name pos] [] [] := ⟨rfl, rfl⟩
    exact hcall.behind (hold_findingsOfList args)

theorem hold_findingsOfList (es : List Expr) :
    Hold (findingsOfList es) (namesOfList es) (textsOfList es) := by
  match es with
  | [] => exact ⟨rfl, rfl⟩
  | e :: es => exact (hold_findings e).append (hold_findingsOfList es)

end

end Expr

theorem Targets.hold_findings {targets : Targets} {jump : Jump} {target : Nat} {pos : Position} :
    Hold (targets.findings jump target pos) [] [] := by
  unfold findings
  split
  · exact ⟨rfl, rfl⟩
  · exact ⟨rfl, rfl⟩

namespace Stmt

variable {targets : Targets}

mutual

/-- The findings of a statement hold its variables and literals, loop bodies included. -/
theorem hold_findings (s : Stmt) : Hold (s.findings targets) s.names s.texts := by
  match s with
  | .assign pos x e =>
    have hname : Hold [.variable_ x pos] [x] [] := ⟨rfl, rfl⟩
    exact hname.append e.hold_findings
  | .print pos e => exact e.hold_findings
  | .goto pos target =>
    have hjump : Hold [.jump .goto target pos] [] [] := ⟨rfl, rfl⟩
    exact hjump.behind Targets.hold_findings
  | .gosub pos target =>
    have hjump : Hold [.jump .gosub target pos] [] [] := ⟨rfl, rfl⟩
    exact hjump.behind Targets.hold_findings
  | .return_ pos => exact ⟨rfl, rfl⟩
  | .ifThen pos c target =>
    have hjump : Hold [.jump .ifThen target pos] [] [] := ⟨rfl, rfl⟩
    exact hjump.behind (c.hold_findings.before Targets.hold_findings)
  | .input pos x => exact ⟨rfl, rfl⟩
  | .forNext pos x start stop step body =>
    have hfront : Hold [.loop x pos, .variable_ x pos] [x] [] := ⟨rfl, rfl⟩
    have hopen : Hold [.bodyStart] [] [] := ⟨rfl, rfl⟩
    have hclose : Hold [.bodyEnd] [] [] := ⟨rfl, rfl⟩
    -- Bounds come first, then the step and the body; the brackets around it hold nothing.
    have hbounds := hfront.append (start.hold_findings.append (stop.hold_findings.append
      ((Expr.hold_findingsOfList step.toList).append
        (hopen.behind ((hold_findingsOfList body).before hclose)))))
    simp only [names, texts, List.append_assoc, List.cons_append, List.nil_append] at hbounds ⊢
    exact hbounds
  | .end_ pos => exact ⟨rfl, rfl⟩

theorem hold_findingsOfList (ss : List Stmt) :
    Hold (findingsOfList targets ss) (namesOfList ss) (textsOfList ss) := by
  match ss with
  | [] => exact ⟨rfl, rfl⟩
  | s :: ss => exact (hold_findings s).append (hold_findingsOfList ss)

end

end Stmt

/-- The findings of lines hold their variables and literals, line by line. -/
theorem hold_lineFindings {targets : Targets} (ls : List Line) :
    Hold (lineFindings targets ls) (ls.flatMap fun l => Stmt.namesOfList l.stmts)
      (ls.flatMap fun l => Stmt.textsOfList l.stmts) := by
  induction ls with
  | nil => exact ⟨rfl, rfl⟩
  | cons l ls ih =>
    have hline : Hold [.line l.number] [] [] := ⟨rfl, rfl⟩
    exact hline.behind ((Stmt.hold_findingsOfList l.stmts).append ih)

/-- A program that passes the check is met variable by variable and literal by literal. -/
theorem Program.meets_check (p : Program) (strict : Bool) :
    (p.check strict).Meets (p.lines.flatMap fun l => Stmt.namesOfList l.stmts)
      (p.lines.flatMap fun l => Stmt.textsOfList l.stmts) := by
  intro u h
  rw [(p.keepsTo_check strict).whole u h]
  have hhold : Hold (p.findings strict) _ _ := hold_lineFindings p.lines
  exact ⟨hhold.names, hhold.texts⟩

-- ============================================================================
-- What an analyst remembers
-- ============================================================================

namespace Analyst

variable {a : Analyst} {p : Program}

/-- An analyst adds the variables it meets to the names it knows. -/
theorem names_foldl_meet (fs : List Finding) :
    (fs.foldl meet a).scopes.names =
      (fs.filterMap Finding.variable?).foldl (fun s x => s.insert x) a.scopes.names := by
  induction fs generalizing a with
  | nil => rfl
  | cons f fs ih =>
    rw [List.foldl_cons, ih]
    cases f <;> rfl

/-- An analyst adds the literals it meets to the texts it knows. -/
theorem texts_foldl_meet (fs : List Finding) :
    (fs.foldl meet a).texts =
      (fs.filterMap Finding.literal?).foldl (fun s x => s.insert x) a.texts := by
  induction fs generalizing a with
  | nil => rfl
  | cons f fs ih =>
    rw [List.foldl_cons, ih]
    cases f <;> rfl

theorem lines_foldl_meet (fs : List Finding) : (fs.foldl meet a).lines = a.lines := by
  induction fs generalizing a with
  | nil => rfl
  | cons f fs ih => rw [List.foldl_cons, ih, meet]

/-- Lines with distinct numbers are all taken in. -/
theorem lines_enter {seen : List Nat} {ls : List Line} (hseen : ∀ n, n ∈ a.lines ↔ n ∈ seen)
    (h : repeated? seen ls = none) :
    (a.enter ls).lines = (ls.map Line.number).foldl (fun s n => s.insert n) a.lines := by
  induction ls generalizing a seen with
  | nil => rfl
  | cons l ls ih =>
    rw [repeated?] at h
    split at h
    · cases h
    · next hnew =>
      have hnew' : l.number ∉ a.lines := fun hmem => hnew ((hseen _).1 hmem)
      rw [enter, if_neg hnew', ih (fun n => ?_) h, List.map_cons, List.foldl_cons]
      rw [Ascending.mem_insert, hseen, List.mem_cons]

/-- Taking in lines changes nothing else. -/
theorem enter_eq (ls : List Line) : a.enter ls = { a with lines := (a.enter ls).lines } := by
  induction ls generalizing a with
  | nil => rfl
  | cons l ls ih =>
    rw [enter]
    split
    · rfl
    · exact ih

theorem lines_visit (h : repeated? [] p.lines = none) :
    (a.visit p).2.lines = .ofList (p.lines.map Line.number) := by
  rw [visit, lines_foldl_meet]
  exact lines_enter (a := a.forget) (fun n => by simp [forget]) h

/-- What passes the check has no line number twice. -/
theorem repeated?_of_check {strict : Bool} {u : Unit} (h : (p.check strict).outcome = .ok u) :
    repeated? [] p.lines = none := by
  unfold Program.check at h
  split at h
  · cases h
  · next hnone => exact hnone

/-- Behind a program that was accepted, an analyst remembers what the program holds, whatever
    it remembered before. -/
theorem inventory_visit {u : Unit} (h : (p.check a.strict).outcome = .ok u) :
    (a.visit p).2.inventory = p.inventory := by
  obtain ⟨hnames, htexts⟩ := p.meets_check a.strict u h
  have hlines := lines_visit (a := a) (repeated?_of_check h)
  unfold inventory Program.inventory
  rw [hlines, visit, names_foldl_meet, texts_foldl_meet, hnames, htexts, enter_eq]
  rfl

/-- What an analyst says of a program depends on how it judges, and on nothing that it remembers. -/
theorem visit_fst (a : Analyst) (p : Program) :
    (a.visit p).1 = ⟨(p.check a.strict).notes,
      (p.check a.strict).outcome.map fun _ => p.inventory⟩ := by
  have hvisit : (a.visit p).1 = ⟨(p.check a.strict).notes,
      (p.check a.strict).outcome.map fun _ => (a.visit p).2.inventory⟩ := rfl
  rw [hvisit]
  cases h : (p.check a.strict).outcome with
  | error e => rfl
  | ok u => rw [inventory_visit h]

/-- What an accepted program was found to hold, is what its tree holds, whatever programs the
    analyst was given before; so code is made from either alike. -/
theorem visit_eq_inventory {history : List Program} {found : Inventory}
    (h : ((a.visitAll history).visit p).1.outcome = .ok found) :
    found = p.inventory ∧
      (⟨some found⟩ : Generator).generate p = (⟨none⟩ : Generator).generate p := by
  generalize a.visitAll history = b at h
  have hfound : found = p.inventory := by
    cases hchecked : (p.check b.strict).outcome with
    | error e =>
      rw [visit, hchecked] at h
      cases h
    | ok u =>
      have hinventory := inventory_visit hchecked
      rw [visit, hchecked] at h
      exact (Except.ok.inj h).symm.trans hinventory
  exact ⟨hfound, by rw [hfound]; rfl⟩

/-- A program that is given up in a loop inside a loop. -/
def halted : Program :=
  let start : Position := ⟨1, 1⟩
  ⟨[⟨10, [.forNext start "I" (.number start 1.0) (.number start 2.0) none
    [.forNext start "J" (.number start 1.0) (.var start "K") none
      [.print start (.text start "A"), .assign start "X" (.text start "B")]]], start⟩]⟩

/-- A program that shares nothing with the one above. -/
def resumed : Program :=
  let start : Position := ⟨1, 1⟩
  ⟨[⟨20, [.print start (.text start "C"), .input start "Y", .goto start 30], start⟩]⟩

theorem visit_eq_inventory_resumed :
    (((fresh false).visitAll [halted]).scopes.depth = 2 ∧
      "K" ∈ ((fresh false).visitAll [halted]).scopes.names ∧
      "A" ∈ ((fresh false).visitAll [halted]).texts) ∧
    (((fresh false).visitAll [halted]).visit resumed).1.outcome = .ok resumed.inventory ∧
    (⟨some resumed.inventory⟩ : Generator).generate resumed =
      (⟨none⟩ : Generator).generate resumed := by
  have hchecked : (resumed.check ((fresh false).visitAll [halted]).strict).outcome = .ok () := by
    rfl
  have hmet : (((fresh false).visitAll [halted]).visit resumed).1.outcome =
      .ok resumed.inventory := by
    rw [visit, hchecked]
    exact congrArg Except.ok (inventory_visit hchecked)
  exact ⟨by decide +kernel, hmet, (visit_eq_inventory hmet).2⟩

end Analyst

end LineBasic
