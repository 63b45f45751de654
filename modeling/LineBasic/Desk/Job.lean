/-
  LineBasic.Desk.Job

  What a phase can be asked to do at its desk: to scan a text, to read programs off
  tokens one after the other, to check programs one after the other, or to make the
  modules of programs one after the other.
-/

import LineBasic.Desk.Check
import LineBasic.Desk.Lower
import LineBasic.Desk.Read
import LineBasic.Desk.Scan

namespace LineBasic

/-- A job for one phase. -/
inductive Job where
  | scan (source : String)
  | read (tokens : List Token) (times : Nat)
  | check (strict : Bool) (programs : List Program)
  | lower (inventory : Option Inventory) (programs : List Program)

namespace Job

/-- What comes of a job, beside its journal. -/
def Result : Job → Type
  | scan _ => Except ScanError (List Token)
  | read _ _ => List (Except ReadError Program)
  | check _ _ => List (Except CheckError Inventory)
  | lower _ _ => List (Except LowerError String)

/-- Does a job at a desk. -/
def run (desk : Desk) : (job : Job) → job.Result × Desk
  | scan source =>
    let (outcome, after) := (Scan.workOn source).run.run ([], desk)
    (outcome, after.2)
  | read tokens times => (Program.readTimesAt (.of tokens) times).run desk
  | check strict programs =>
    let (outcomes, after) :=
      (programs.mapM fun p => (Visit.workOn p).run).run (Analyst.fresh strict, desk)
    (outcomes, after.2)
  | lower inventory programs =>
    let (outcomes, after) :=
      (programs.mapM fun p => (Craft.workOn p).run).run (Bench.fresh inventory, desk)
    (outcomes, after.2)

end Job

end LineBasic
