/-
  LineBasic.Proofs.Jobs

  Many programs at one desk.  A bench that has made modules, or failed to, at whatever
  point, makes of the next program what a fresh one makes of it.  And whatever a phase
  is asked to do, what comes of it does not depend on its journal: the journal receives
  the lines of the job one after the other, as far as it has room for them.
-/

import LineBasic.Desk.Job
import LineBasic.Proofs.BenchWork

namespace LineBasic

-- ============================================================================
-- One program after the other
-- ============================================================================

/-- The modules of programs made one after the other, with an inventory for the first. -/
def Program.lowerAll (inventory : Option Inventory) :
    List Program → List (Traced LowerError Emission Module)
  | [] => []
  | p :: rest => p.lower (inventory.getD p.inventory) :: lowerAll none rest

namespace Craft

/-- One bench, program after program: each is lowered as it would be by itself, the first one
    with the inventory that was handed over. -/
theorem run_mapM_workOn (ps : List Program) (b : Bench) (desk : Desk) :
    ∃ b', (ps.mapM fun p => (workOn p).run).run (b, desk)
      = ((Program.lowerAll b.inventory ps).map fun made => made.outcome.map Module.text,
        (b', desk.enterAll ((Program.lowerAll b.inventory ps).flatMap Module.entries))) := by
  induction ps generalizing b desk with
  | nil => exact ⟨b, rfl⟩
  | cons p rest ih =>
    obtain ⟨b₁, hnone, hfirst⟩ := run_workOn p b desk
    obtain ⟨b₂, hrest⟩ := ih b₁
      (desk.enterAll (Module.entries (p.lower (b.inventory.getD p.inventory))))
    refine ⟨b₂, ?_⟩
    rw [List.mapM_cons, StateT.run_bind, hfirst]
    show (rest.mapM (fun p => (workOn p).run) >>= fun rs => pure (_ :: rs)).run (b₁, _) = _
    rw [StateT.run_bind, hrest, hnone, ← Desk.enterAll_append]
    rfl

/-- What a fresh bench makes of a program, when no journal is kept. -/
def alone (inventory : Option Inventory) (p : Program) : Except LowerError String :=
  ((workOn p).run.run (Bench.fresh inventory, .ofJournal .off)).1

theorem alone_eq (inventory : Option Inventory) (p : Program) :
    alone inventory p = (p.lower (inventory.getD p.inventory)).outcome.map Module.text := by
  obtain ⟨b', -, hrun⟩ := run_workOn p (Bench.fresh inventory) (.ofJournal .off)
  rw [alone, hrun]
  rfl

/-- Only the first program is lowered with the inventory that was handed over. -/
theorem getElem?_lowerAll (inventory : Option Inventory) (ps : List Program) (i : Nat) :
    (Program.lowerAll inventory ps)[i]?
      = ps[i]?.map fun p => p.lower ((if i = 0 then inventory else none).getD p.inventory) := by
  induction ps generalizing inventory i with
  | nil => rfl
  | cons p rest ih =>
    cases i with
    | zero => rfl
    | succ i =>
      rw [Program.lowerAll, List.getElem?_cons_succ, ih, List.getElem?_cons_succ,
        if_neg (Nat.succ_ne_zero i)]
      congr 1
      funext p
      cases i <;> rfl

/-- A bench carries nothing over from one program to the next.  Whatever lies on it, and
    whatever came of the programs before, the first program comes out as on a fresh bench with
    the inventory that lies there, every later one as on a fresh bench without; and that is as
    if its own inventory had been put there. -/
theorem nothing_carried_over (b : Bench) (desk : Desk) (ps : List Program) (i : Nat) :
    (((ps.mapM fun p => (workOn p).run).run (b, desk)).1)[i]?
        = ps[i]?.map (fun p => if i = 0 then alone b.inventory p else alone none p) ∧
      ∀ p, alone none p = alone (some p.inventory) p := by
  obtain ⟨b', hrun⟩ := run_mapM_workOn ps b desk
  constructor
  · rw [hrun, List.getElem?_map, getElem?_lowerAll, Option.map_map]
    congr 1
    funext p
    by_cases hi : i = 0
    · rw [Function.comp_apply, if_pos hi, if_pos hi, alone_eq]
    · rw [Function.comp_apply, if_neg hi, if_neg hi, alone_eq]
  · intro p
    rw [alone_eq, alone_eq]
    rfl

/-- `10 PRINT X: GOSUB 10`, which is given up inside the subroutine at line 10. -/
def endless : Program :=
  let pos : Position := ⟨1, 1⟩
  ⟨[⟨10, [.print pos (.var pos "X"), .gosub pos 10], pos⟩]⟩

-- There is something to carry over: work that failed leaves a good deal on the bench.
example :
    let after := (workOn endless).run.run (Bench.fresh none, .ofJournal .off)
    after.1 = .error (.recursiveGosub 10) ∧ after.2.1.temps = 4 ∧ after.2.1.site = some 10 ∧
      after.2.1.used.toList = ["printf"] ∧ after.2.1.out ≠ "" := by decide +kernel

end Craft

namespace Visit

/-- An analyst judges as it did before, whatever it has met. -/
theorem strict_visit (a : Analyst) (p : Program) : (a.visit p).2.strict = a.strict := by
  have hmeet : ∀ (fs : List Finding) (a : Analyst),
      (fs.foldl Analyst.meet a).strict = a.strict := by
    intro fs
    induction fs with
    | nil => exact fun _ => rfl
    | cons f fs ih => exact fun a => ih (a.meet f)
  rw [Analyst.visit, hmeet, Analyst.enter_eq]
  rfl

/-- One analyst, program after program: each is judged as a fresh analyst judges it. -/
theorem run_mapM_workOn (ps : List Program) (a : Analyst) (desk : Desk) :
    ∃ a', (ps.mapM fun p => (workOn p).run).run (a, desk)
      = (ps.map fun p => ((Analyst.fresh a.strict).visit p).1.outcome,
        (a', desk.enterAll
          (ps.flatMap fun p => ((Analyst.fresh a.strict).visit p).1.entries))) := by
  induction ps generalizing a desk with
  | nil => exact ⟨a, rfl⟩
  | cons p rest ih =>
    have hstrict := strict_visit a p
    have hsame : (a.visit p).1 = ((Analyst.fresh a.strict).visit p).1 := by
      rw [Analyst.visit_fst, Analyst.visit_fst]
      rfl
    obtain ⟨a', hrest⟩ := ih (a.visit p).2 (desk.enterAll (a.visit p).1.entries)
    refine ⟨a', ?_⟩
    rw [List.mapM_cons, StateT.run_bind, run_workOn]
    show (rest.mapM (fun p => (workOn p).run) >>= fun rs => pure (_ :: rs)).run (_, _) = _
    rw [StateT.run_bind, hrest, hstrict, ← Desk.enterAll_append, hsame]
    rfl

end Visit

-- ============================================================================
-- Journals
-- ============================================================================

namespace Job

/-- What comes of a job away from any desk. -/
def result : (job : Job) → job.Result
  | scan source => (Scan.of source).result
  | read tokens times => (Program.readTimes (.of tokens) times).map ProgramRead.outcome
  | check strict programs =>
    programs.map fun p => ((Analyst.fresh strict).visit p).1.outcome
  | lower inventory programs =>
    (Program.lowerAll inventory programs).map fun made => made.outcome.map Module.text

/-- Everything that is said in the course of a job. -/
def entries : Job → List Journal.Entry
  | scan source => (Scan.of source).tokens.map fun t => .record t.record
  | read tokens times =>
    (Program.readTimes (.of tokens) times).flatMap fun r => r.records.map .record
  | check strict programs =>
    programs.flatMap fun p => ((Analyst.fresh strict).visit p).1.entries
  | lower inventory programs => (Program.lowerAll inventory programs).flatMap Module.entries

/-- The lines that a job writes into its journal, in order. -/
def records (job : Job) : List String := job.entries.filterMap Journal.Entry.line?

/-- At every desk a job comes to the same, and the desk gets the same entries. -/
theorem run_eq (job : Job) (desk : Desk) :
    job.run desk = (job.result, desk.enterAll job.entries) := by
  cases job with
  | scan source =>
    rw [run, Scan.run_workOn]
    rfl
  | read tokens times =>
    rw [run, Program.run_readTimesAt]
    simp only [numberedEntries_completed]
    rfl
  | check strict programs =>
    obtain ⟨a', hrun⟩ := Visit.run_mapM_workOn programs (Analyst.fresh strict) desk
    rw [run, hrun]
    rfl
  | lower inventory programs =>
    obtain ⟨b', hrun⟩ := Craft.run_mapM_workOn programs (Bench.fresh inventory) desk
    rw [run, hrun]
    rfl

/-- Journals do not influence what comes of a job, and a journal that runs full is cut exactly.
    Whatever stands on the desk, a job comes to the same, and the journal is left as the job's
    lines leave it; one with room for so many bytes receives the first of the bytes that one
    without bound receives, and behind the `k`-th line it is on just if the lines up to there,
    with their newlines, have fitted. -/
theorem journal_immaterial (job : Job) (room : Nat) (complaint : String) :
    (∀ desk : Desk, (job.run desk).1 = (job.run (.ofJournal .off)).1 ∧
      (job.run desk).2.journal = desk.journal.after job.records) ∧
    (job.run (.ofJournal (.into .unbounded))).2.journal.received = transcript job.records ∧
    (job.run (.ofJournal (.into (.bounded room complaint)))).2.journal.received
      = (job.run (.ofJournal (.into .unbounded))).2.journal.received.extract 0 room ∧
    ∀ k, ((Journal.into (.bounded room complaint)).after (job.records.take k)).enabled = true ↔
      (transcript (job.records.take k)).size ≤ room := by
  have hjournal : ∀ desk : Desk, (job.run desk).2.journal = desk.journal.after job.records := by
    intro desk
    rw [run_eq, Desk.journal_enterAll]
    rfl
  have hfull : (job.run (.ofJournal (.into .unbounded))).2.journal.received
      = transcript job.records := by
    rw [hjournal]
    exact Journal.received_after_unbounded job.records
  refine ⟨fun desk => ⟨?_, hjournal desk⟩, hfull, ?_, fun k => ?_⟩
  · rw [run_eq, run_eq]
  · rw [hjournal, hfull]
    exact Journal.received_after_bounded room complaint job.records
  · exact Journal.enabled_after_bounded room complaint (job.records.take k)

end Job

end LineBasic
