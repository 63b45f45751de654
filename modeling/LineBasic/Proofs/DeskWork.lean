/-
  LineBasic.Proofs.DeskWork

  Scanning, reading and checking at a desk come to the same as scanning, reading and
  checking away from it, and the desk is left with exactly the entries that these
  leave.  What stands in the journal, and whether it is on, plays no part.
-/

import LineBasic.Desk.Check
import LineBasic.Desk.Read
import LineBasic.Desk.Scan
import LineBasic.Proofs.Collection
import LineBasic.Proofs.Transcripts

namespace LineBasic

-- ============================================================================
-- Work in sequence
-- ============================================================================

namespace Work

variable {σ ε α β : Type} {x : Work σ ε α} {f : α → Work σ ε β} {s s' : σ × Desk}

theorem run_bind_ok {a : α} (h : x.run.run s = (.ok a, s')) :
    (x >>= f).run.run s = (f a).run.run s' := by
  rw [ExceptT.run_bind, StateT.run_bind, h]
  rfl

theorem run_bind_error {e : ε} (h : x.run.run s = (.error e, s')) :
    (x >>= f).run.run s = (.error e, s') := by
  rw [ExceptT.run_bind, StateT.run_bind, h]
  rfl

theorem run_tryCatch_ok {handle : ε → Work σ ε α} {a : α} (h : x.run.run s = (.ok a, s')) :
    (tryCatch x handle).run.run s = (.ok a, s') := by
  rw [ExceptT.run_tryCatch, StateT.run_bind, h]
  rfl

theorem run_tryCatch_error {handle : ε → Work σ ε α} {e : ε}
    (h : x.run.run s = (.error e, s')) :
    (tryCatch x handle).run.run s = (handle e).run.run s' := by
  rw [ExceptT.run_tryCatch, StateT.run_bind, h]
  rfl

theorem run_pure (a : α) : (pure a : Work σ ε α).run.run s = (.ok a, s) := rfl

theorem run_throw (e : ε) : (throw e : Work σ ε α).run.run s = (.error e, s) := rfl

theorem run_look (g : σ → α) : (look g : Work σ ε α).run.run s = (.ok (g s.1), s) := rfl

theorem run_change (g : σ → σ) :
    (change g : Work σ ε Unit).run.run s = (.ok (), (g s.1, s.2)) := rfl

end Work

-- ============================================================================
-- Scanning
-- ============================================================================

namespace Scan

theorem run_takeIfAny (t : Option Token) (ts : List Token) (desk : Desk) :
    (takeIfAny t).run.run (ts, desk)
      = (.ok (), (ts ++ t.toList, desk.enterAll (t.toList.map fun t => .record t.record))) := by
  cases t with
  | none => rw [takeIfAny, Work.run_pure, Option.toList_none, List.append_nil]; rfl
  | some t => rfl

/-- The outcome of a scan, without the tokens. -/
def ending (scan : Scan) : Except ScanError Unit :=
  match scan.fault with
  | none => .ok ()
  | some fault => .error fault

/-- A scan at the desk finds the tokens that a scan finds, and each is on record, by induction
    on the characters. -/
theorem run_runAt (pos : Position) (cs : List Char) (ts : List Token) (desk : Desk) :
    (runAt pos cs).run.run (ts, desk)
      = ((Scan.run pos cs).ending,
        (ts ++ (Scan.run pos cs).tokens,
          desk.enterAll ((Scan.run pos cs).tokens.map fun t => .record t.record))) := by
  fun_induction Scan.run pos cs generalizing ts desk with
  | case1 pos => rw [runAt]; exact run_takeIfAny (some _) ts desk
  | case2 pos c rest fault h =>
    rw [runAt]
    split
    · next fault' h' =>
      rw [h] at h'
      cases h'
      rw [Work.run_throw, List.append_nil]
      rfl
    · next h' => rw [h] at h'; cases h'
  | case3 pos c rest seg left h scan ih =>
    rw [runAt]
    split
    · next h' => rw [h] at h'; cases h'
    · next seg' left' h' =>
      rw [h] at h'
      cases h'
      rw [Work.run_bind_ok (run_takeIfAny ..), ih, List.append_assoc, ← Desk.enterAll_append,
        ← List.map_append]
      rfl

/-- A scan at a desk comes to the tokens or the fault of the text, and every token that was
    read is in the journal. -/
theorem run_workOn (source : String) (desk : Desk) :
    (workOn source).run.run ([], desk)
      = ((Scan.of source).result,
        ((Scan.of source).tokens,
          desk.enterAll ((Scan.of source).tokens.map fun t => .record t.record))) := by
  have hrun := run_runAt .start source.toList [] desk
  rw [List.nil_append] at hrun
  unfold workOn Scan.of result
  cases hfault : (Scan.run .start source.toList).fault with
  | none =>
    rw [ending, hfault] at hrun
    rw [Work.run_bind_ok hrun]
    rfl
  | some fault =>
    rw [ending, hfault] at hrun
    rw [Work.run_bind_error hrun]

end Scan

-- ============================================================================
-- Reading
-- ============================================================================

/-- The journal entries of statements on the line `number`. -/
def stmtEntries (number : Nat) (stmts : List Stmt) : List Journal.Entry :=
  stmts.map fun s => .record (s.record number)

/-- Statements are read at the desk as they are read elsewhere, and each that is complete is on
    record. -/
theorem run_readStmtsAt (number : Nat) (ts : List Token) (desk : Desk) :
    (readStmtsAt number ts).run desk
      = ((readStmts ts).2.map fun _ => (readStmts ts).1,
        desk.enterAll (stmtEntries number (readStmts ts).1)) := by
  fun_induction readStmts ts generalizing desk with
  | case1 => rw [readStmtsAt]; rfl
  | case2 t us h stmts reply heq ih =>
    rw [readStmtsAt, if_pos h, StateT.run_bind, ih, heq]
    cases reply <;> rfl
  | case3 t us h hend => rw [readStmtsAt, if_neg h, if_pos hend]; rfl
  | case4 t us h hend hread => rw [readStmtsAt, if_neg h, if_neg hend, hread]; rfl
  | case5 t us h hend expected rest hrest hread =>
    rw [readStmtsAt, if_neg h, if_neg hend, hread]; rfl
  | case6 t us h hend stmt rest hrest hread hnext stmts reply heq ih =>
    rw [readStmtsAt, if_neg h, if_neg hend, hread]
    simp only [if_pos hnext]
    rw [StateT.run_bind, StateT.run_modify, pure_bind, StateT.run_bind, ih, heq]
    cases reply <;> rfl
  | case7 t us h hend stmt rest hrest hread hnext =>
    rw [readStmtsAt, if_neg h, if_neg hend, hread]
    simp only [if_neg hnext]
    rfl

/-- The journal entries of a reading. -/
def numberedEntries (completed : List (Nat × Stmt)) : List Journal.Entry :=
  completed.map fun c => .record (c.2.record c.1)

theorem numberedEntries_map (number : Nat) (stmts : List Stmt) :
    numberedEntries (stmts.map (number, ·)) = stmtEntries number stmts := by
  rw [numberedEntries, List.map_map]
  rfl

theorem numberedEntries_completed (r : ProgramRead) :
    numberedEntries r.completed = r.records.map .record := by
  rw [ProgramRead.records, List.map_map]
  rfl

/-- Lines are read at the desk as they are read elsewhere, by induction on the tokens: the same
    outcome, the same tokens left, and the statements that are complete on record, those in
    front of a fault included. -/
theorem run_readLinesAt (ts : List Token) (desk : Desk) :
    (readLinesAt ts).run desk
      = (((readLines ts).outcome, (readLines ts).rest),
        desk.enterAll (numberedEntries (readLines ts).completed)) := by
  induction ts using readLines.induct generalizing desk with
  | case1 => rw [readLinesAt, readLines]; rfl
  | case2 t us hkind ih => rw [readLinesAt, readLines, hkind]; exact ih desk
  | case3 t us hkind => rw [readLinesAt, readLines, hkind]; rfl
  | case4 t us expected rest hrest hnumber hnewline heof =>
    rw [readLinesAt, readLines, hnumber]
    -- Newlines and the end of the text belong to other cases.
    cases hkind : t.kind with
    | newline => exact absurd hkind hnewline
    | eof => exact absurd hkind heof
    | _ => rfl
  | case5 t us number _ _ hnumber stmts expected rest hrest heq hnewline heof =>
    rw [readLinesAt, readLines, hnumber, heq]
    cases hkind : t.kind with
    | newline => exact absurd hkind hnewline
    | eof => exact absurd hkind heof
    | _ =>
      simp only [StateT.run_bind, run_readStmtsAt, heq, numberedEntries_map]
      rfl
  | case6 t us number _ _ hnumber stmts u rest hrest heq hnewline heof ih =>
    have hlater : (readLinesAt rest >>= fun r =>
          pure (r.1.map (⟨number, stmts, t.pos⟩ :: ·), r.2)).run
            (desk.enterAll (stmtEntries number stmts))
        = (((readLines rest).outcome.map (⟨number, stmts, t.pos⟩ :: ·), (readLines rest).rest),
          desk.enterAll
            (numberedEntries (stmts.map (number, ·) ++ (readLines rest).completed))) := by
      rw [StateT.run_bind, ih, ← Desk.enterAll_append, ← numberedEntries_map, numberedEntries,
        numberedEntries, numberedEntries, ← List.map_append]
      rfl
    rw [readLinesAt, readLines, hnumber, heq]
    cases hkind : t.kind with
    | newline => exact absurd hkind hnewline
    | eof => exact absurd hkind heof
    | _ =>
      simp only [StateT.run_bind, run_readStmtsAt, heq]
      exact hlater

namespace Program

theorem run_readAt (c : Cursor) (desk : Desk) :
    (readAt c).run desk
      = (((read c).outcome, (read c).cursor),
        desk.enterAll (numberedEntries (read c).completed)) := by
  rw [readAt, StateT.run_bind, run_readLinesAt, read]
  cases h : (readLines c.rest).outcome <;> rfl

/-- Reading at a desk, any number of times, comes to the programs or faults of the tokens, and
    every statement that was read is in the journal. -/
theorem run_readTimesAt (c : Cursor) (n : Nat) (desk : Desk) :
    (readTimesAt c n).run desk
      = ((readTimes c n).map ProgramRead.outcome,
        desk.enterAll ((readTimes c n).flatMap fun r => numberedEntries r.completed)) := by
  induction n generalizing c desk with
  | zero => rfl
  | succ n ih =>
    rw [readTimesAt, StateT.run_bind, run_readAt]
    show (readTimesAt (read c).cursor n >>= fun rs => pure ((read c).outcome :: rs)).run
      (desk.enterAll (numberedEntries (read c).completed)) = _
    rw [StateT.run_bind, ih, ← Desk.enterAll_append, readTimes, List.flatMap_cons]
    rfl

end Program

-- ============================================================================
-- Checking
-- ============================================================================

namespace Visit

/-- What a finding does to an analyst at a desk. -/
def meet (s : Analyst × Desk) (f : Finding) : Analyst × Desk :=
  (s.1.meet f, s.2.enterAll (f.entries s.1.scopes))

/-- The analyst knows the lines that jumps may lead to. -/
structure Knows (targets : Targets) (a : Analyst) : Prop where
  strict : a.strict = targets.strict
  lines : ∀ n, n ∈ a.lines ↔ n ∈ targets.lines

theorem Knows.foldl_meet {targets : Targets} {s : Analyst × Desk} (h : Knows targets s.1)
    (fs : List Finding) : Knows targets (fs.foldl meet s).1 := by
  induction fs generalizing s with
  | nil => exact h
  | cons f fs ih => exact ih (s := meet s f) ⟨h.strict, h.lines⟩

/-- The work `x` comes to the same as the check `y`, and leaves the analyst and the desk with
    exactly the findings of `y`. -/
def Does {α : Type} (targets : Targets) (x : Visit α) (y : Check α) : Prop :=
  ∀ s : Analyst × Desk, Knows targets s.1 → x.run.run s = (y.outcome, y.notes.foldl meet s)

namespace Does

variable {α β : Type} {targets : Targets}

theorem pure {a : α} : Does targets (Pure.pure a) (Pure.pure a) := fun _ _ => rfl

theorem refuse {fault : Fault} {pos : Position} :
    Does targets (Visit.refuse fault pos : Visit α) (Check.refuse fault pos) := fun _ _ => rfl

theorem find {f : Finding} : Does targets (Visit.find f) (Traced.note f) := fun _ _ => rfl

/-- One step after the other: what the first one met is met before the second. -/
theorem bind {x : Visit α} {y : Check α} {f : α → Visit β} {g : α → Check β}
    (hx : Does targets x y) (hf : ∀ a, Does targets (f a) (g a)) :
    Does targets (x >>= f) (y >>= g) := by
  intro s hs
  have hrun := hx s hs
  cases hy : y.outcome with
  | error e =>
    rw [hy] at hrun
    rw [Work.run_bind_error hrun, Traced.bind_of_error hy]
  | ok a =>
    rw [hy] at hrun
    rw [Work.run_bind_ok hrun, hf a _ (hs.foldl_meet y.notes), Traced.bind_of_ok hy,
      List.foldl_append]

theorem require {condition : Bool} {fault : Fault} {pos : Position} :
    Does targets (Visit.require condition fault pos) (Check.require condition fault pos) := by
  cases condition with
  | true => exact pure
  | false => exact refuse

end Does

variable {targets : Targets}

/-- An analyst asks of an argument what the check asks. -/
theorem does_argument {b : Builtin} {name : String} {arg : Expr} :
    Does targets (argument b name arg) (b.checkArgument name arg) := by
  refine .bind .require fun _ => ?_
  cases arg.constant? with
  | none => exact .pure
  | some x =>
    dsimp only
    cases b.domainFault? x with
    | none => exact .pure
    | some why => exact .refuse

theorem does_operator {op : BinaryOp} {pos : Position} {l r : Ty} :
    Does targets (operator op pos l r) (op.check pos l r) := by
  cases op with
  | compare rel => exact .bind .require fun _ => .pure
  | arith a => exact .bind .require fun _ => .pure

/-- An analyst goes through an expression as the check does, by induction on the run of the
    check. -/
theorem does_expr (e : Expr) : Does targets (expr e) e.check := by
  fun_induction Expr.check e with
  | case1 pos x => rw [expr]; exact .pure
  | case2 pos s => rw [expr]; exact .bind .find fun _ => .pure
  | case3 pos x => rw [expr]; exact .bind .find fun _ => .pure
  | case4 pos sign e ih => rw [expr]; exact .bind ih fun _ => .bind .require fun _ => .pure
  | case5 pos op l r ihl ihr =>
    rw [expr]
    exact .bind ihl fun _ => .bind ihr fun _ => does_operator
  | case6 pos name args ih =>
    unfold expr
    refine .bind .find fun _ => ?_
    cases hb : Builtin.ofName? name with
    | none => exact .refuse
    | some b =>
      rw [hb] at ih
      cases args with
      | nil => exact .refuse
      | cons arg rest =>
        cases rest with
        | nil => exact .bind ih fun _ => .bind .require fun _ => .bind does_argument fun _ => .pure
        | cons _ _ => exact .refuse

theorem does_number {e : Expr} {fault : Fault} :
    Does targets (number e fault) (e.checkNumber fault) :=
  .bind (does_expr e) fun _ => .require

/-- The lines taken in answer for the targets. -/
theorem does_target {jump : Jump} {line : Nat} {pos : Position} :
    Does targets (target jump line pos) (targets.check jump line pos) := by
  intro s hs
  rw [target, Work.run_bind_ok (Work.run_look id), Targets.check, id, hs.strict]
  by_cases hline : line ∈ targets.lines
  · rw [if_pos hline, if_pos ((hs.lines line).2 hline)]
    rfl
  · rw [if_neg hline, if_neg (mt (hs.lines line).1 hline)]
    cases targets.strict <;> rfl

mutual

/-- An analyst goes through a statement as the check does, loop bodies included. -/
theorem does_stmt (s : Stmt) : Does targets (stmt s) (s.check targets) := by
  match s with
  | .assign pos x e => exact .bind .find fun _ => does_number
  | .print pos e => exact .bind (does_expr e) fun _ => .pure
  | .goto pos line => exact .bind .find fun _ => does_target
  | .gosub pos line => exact .bind .find fun _ => does_target
  | .return_ pos => exact .find
  | .ifThen pos c line =>
    exact .bind .find fun _ => .bind does_number fun _ => does_target
  | .input pos x => exact .find
  | .forNext pos x start stop step body =>
    have hbody : Does targets (do find .bodyStart; stmts body; find .bodyEnd)
        (do Traced.note .bodyStart; Stmt.checkList targets body; Traced.note .bodyEnd) :=
      .bind .find fun _ => .bind (does_stmts body) fun _ => .find
    refine .bind .find fun _ => .bind .find fun _ => .bind does_number fun _ =>
      .bind does_number fun _ => ?_
    cases step with
    | none => exact hbody
    | some e => exact .bind does_number fun _ => hbody
  | .end_ pos => exact .find

theorem does_stmts (ss : List Stmt) : Does targets (stmts ss) (Stmt.checkList targets ss) := by
  match ss with
  | [] => exact .pure
  | s :: ss => exact .bind (does_stmt s) fun _ => does_stmts ss

end

theorem does_lines (ls : List Line) : Does targets (lines ls) (checkLines targets ls) := by
  induction ls with
  | nil => exact .pure
  | cons l ls ih => exact .bind .find fun _ => .bind (does_stmts l.stmts) fun _ => ih

-- ----------------------------------------------------------------------------
-- Whole programs
-- ----------------------------------------------------------------------------

/-- Lines are taken in up to the first number that is there already, and that one is the
    fault. -/
theorem run_register {seen : List Nat} (ls : List Line) (a : Analyst) (desk : Desk)
    (hseen : ∀ n, n ∈ a.lines ↔ n ∈ seen) :
    (register ls).run.run (a, desk)
      = (match repeated? seen ls with
          | none => .ok ()
          | some l => .error ⟨.duplicateLine l.number, l.pos⟩, (a.enter ls, desk)) := by
  induction ls generalizing a seen with
  | nil => rfl
  | cons l ls ih =>
    rw [register, Work.run_bind_ok (Work.run_look id), repeated?, Analyst.enter, id]
    by_cases hl : l.number ∈ a.lines
    · rw [if_pos hl, if_pos ((hseen _).1 hl), if_pos hl]
      rfl
    · rw [if_neg hl, if_neg (mt (hseen _).2 hl), if_neg hl, Work.run_bind_ok (Work.run_change _)]
      exact ih _ fun n => by rw [Ascending.mem_insert, hseen, List.mem_cons]

/-- What findings do to an analyst and a desk. -/
theorem foldl_meet (fs : List Finding) (a : Analyst) (desk : Desk) :
    fs.foldl meet (a, desk)
      = (fs.foldl Analyst.meet a, desk.enterAll (Finding.entriesAll a.scopes fs)) := by
  induction fs generalizing a desk with
  | nil => rfl
  | cons f fs ih =>
    rw [List.foldl_cons, meet, ih, ← Desk.enterAll_append]
    rfl

theorem mem_lines_forget (a : Analyst) (n : Nat) : n ∈ a.forget.lines ↔ n ∈ [] := by
  simp [Analyst.forget]

/-- Behind the numbers of a program without repetition, the analyst knows where jumps may
    lead. -/
theorem knows_enter {p : Program} (a : Analyst) (h : repeated? [] p.lines = none) :
    Knows ⟨p.lines.map Line.number, a.strict⟩ (a.forget.enter p.lines) := by
  have hlines := Analyst.lines_enter (mem_lines_forget a) h
  constructor
  · rw [Analyst.enter_eq]
    rfl
  · intro n
    rw [hlines]
    exact Ascending.mem_ofList

/-- A visit to a program ends as its check does, leaves the analyst with what it met and puts on
    record what was found. -/
theorem run_program (p : Program) (a : Analyst) (desk : Desk) :
    (program p).run.run (a, desk)
      = ((a.visit p).1.outcome,
        ((a.visit p).2, desk.enterAll (Finding.entriesAll .initial (a.visit p).1.findings))) := by
  have hregister := run_register p.lines a.forget desk (mem_lines_forget a)
  rw [program, Work.run_bind_ok (Work.run_change _)]
  unfold Analyst.visit Program.check
  cases hrepeated : repeated? [] p.lines with
  | some l =>
    rw [hrepeated] at hregister
    rw [Work.run_bind_error hregister]
    rfl
  | none =>
    rw [hrepeated] at hregister
    rw [Work.run_bind_ok hregister]
    -- With no number given twice all lines are entered, and then they are checked in order.
    have hlines := does_lines p.lines (a.forget.enter p.lines, desk) (knows_enter a hrepeated)
    have hscopes : (a.forget.enter p.lines).scopes = .initial := by
      rw [Analyst.enter_eq]
      rfl
    rw [foldl_meet, hscopes] at hlines
    dsimp only
    cases houtcome : (checkLines ⟨p.lines.map Line.number, a.strict⟩ p.lines).outcome with
    | error e =>
      rw [houtcome] at hlines
      rw [Work.run_bind_error hlines]
      rfl
    | ok u =>
      rw [houtcome] at hlines
      rw [Work.run_bind_ok hlines]
      rfl

/-- Checking at a desk comes to the inventory or the fault of a program; the analyst is left as
    it is away from the desk, and everything that an analysis says has been said. -/
theorem run_workOn (p : Program) (a : Analyst) (desk : Desk) :
    (workOn p).run.run (a, desk)
      = ((a.visit p).1.outcome, ((a.visit p).2, desk.enterAll (a.visit p).1.entries)) := by
  have hrun := run_program p a desk
  unfold workOn Analysis.entries
  cases houtcome : (a.visit p).1.outcome with
  | ok found =>
    rw [houtcome] at hrun
    rw [Work.run_tryCatch_ok hrun, List.append_nil]
  | error e =>
    rw [houtcome] at hrun
    rw [Work.run_tryCatch_error hrun, Desk.enterAll_append]
    rfl

end Visit

end LineBasic
