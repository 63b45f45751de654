/-
  LineBasic.Proofs.LineMachine

  A machine that runs the lines of a program.  It knows at which statement of which
  line it is, keeps the points to which pending calls return on a stack, and stores
  the values of variables.  What expressions mean is left open (`Sense`).
-/

import LineBasic.Program
import LineBasic.Proofs.Meaning

namespace LineBasic

-- ============================================================================
-- Senses
-- ============================================================================

/-- What the machine needs to know of numbers and expressions. -/
structure Sense where
  Num : Type
  Outer : Type
  zero : Num
  one : Num
  add : Num → Num → Num
  /-- The value of an expression. -/
  value : Expr → StateM (Memory Num Outer) Num
  /-- Whether a condition holds. -/
  test : Expr → StateM (Memory Num Outer) Bool
  /-- Whether a loop variable is within its bound. -/
  atMost : Num → Num → StateM (Memory Num Outer) Bool
  /-- Reads a number, if there is one. -/
  read : Outer → Option Num × Outer

/-- The sense of expressions over a meaning. -/
@[reducible] def Meaning.sense (M : Meaning) : Sense where
  Num := M.Num
  Outer := M.Outer
  zero := M.literal 0.0
  one := M.literal 1.0
  add := M.arith .add
  value := Expr.eval M
  test := Expr.test M
  atMost := M.compare .le
  read := M.read

namespace Sense

variable (s : Sense)

/-- Memory with the numbers and the world of a sense. -/
abbrev Mem : Type := Memory s.Num s.Outer

/-- What a statement that goes on to the next one does to memory. -/
def act : Stmt → s.Mem → s.Mem
  | .assign _ name value, μ =>
    let (v, μ) := s.value value μ
    μ.assign name v
  | .print _ (.text _ t), μ => μ.perform (.printedText t)
  | .print _ value, μ =>
    let (v, μ) := s.value value μ
    μ.perform (.printed v)
  | .input _ name, μ => μ.input s.read name
  | _, μ => μ

/-- What statements do to memory, one after the other. -/
def actAll (ss : List Stmt) (μ : s.Mem) : s.Mem := ss.foldl (fun μ stmt => s.act stmt μ) μ

/-- Starts a loop. -/
def enter (name : String) (start : Expr) (μ : s.Mem) : s.Mem :=
  let (v, μ) := s.value start μ
  μ.assign name v

/-- Whether a loop has another round; the bound is worked out anew. -/
def again (name : String) (stop : Expr) (μ : s.Mem) : Bool × s.Mem :=
  let current := μ.store name
  let (bound, μ) := s.value stop μ
  s.atMost current bound μ

/-- The step of a loop, worked out anew; one if none is given. -/
def amount : Option Expr → StateM s.Mem s.Num
  | some e => s.value e
  | none => pure s.one

/-- Adds the step of a loop to its variable. -/
def advance (name : String) (step : Option Expr) (μ : s.Mem) : s.Mem :=
  let (by_, μ) := s.amount step μ
  μ.assign name (s.add (μ.store name) by_)

end Sense

-- ============================================================================
-- The machine
-- ============================================================================

/-- A statement of a program: the place of its line among the lines, and its own place
    on the line.  Behind the last statement of a line there is one more point. -/
structure Point where
  line : Nat
  stmt : Nat

/-- The point behind the statement at a point. -/
def Point.next (p : Point) : Point := ⟨p.line, p.stmt + 1⟩

/-- The statement at a point, if there is one. -/
def stmtAt? (lines : List Line) (p : Point) : Option Stmt :=
  match lines[p.line]? with
  | some l => l.stmts[p.stmt]?
  | none => none

/-- The point where the line with the given number starts, if there is one. -/
def startAt? (lines : List Line) (number : Nat) : Option Point :=
  (lines.findIdx? (·.number = number)).map (⟨·, 0⟩)

namespace Machine

/-- What the machine is about to do. -/
inductive Control where
  /-- Set all variables to zero and start at the lowest line. -/
  | boot
  /-- Run the statement at a point. -/
  | run (p : Point)
  /-- Find out whether the loop at a point has another round. -/
  | round (p : Point)
  /-- Nothing. -/
  | halted

/-- A state of the machine.  The stack holds the points to which calls return. -/
structure State (s : Sense) where
  control : Control
  stack : List Point
  memory : s.Mem

variable {s : Sense}

/-- Returns from the last call; without one the machine halts. -/
def pop (stack : List Point) (μ : s.Mem) : State s :=
  match stack with
  | [] => ⟨.halted, [], μ⟩
  | p :: stack => ⟨.run p, stack, μ⟩

/-- Goes on behind the last statement of a line: with the next line, or as a call
    returns. -/
def runOff (lines : List Line) (p : Point) (stack : List Point) (μ : s.Mem) : State s :=
  if p.line + 1 < lines.length then ⟨.run ⟨p.line + 1, 0⟩, stack, μ⟩ else pop stack μ

/-- Goes to a line and forgets all calls; if there is no such line, goes on with the
    next statement. -/
def runGoto (lines : List Line) (p : Point) (stack : List Point) (μ : s.Mem) (target : Nat) :
    State s :=
  match startAt? lines target with
  | some q => ⟨.run q, [], μ⟩
  | none => ⟨.run p.next, stack, μ⟩

/-- Runs the statement at a point. -/
def runStmt (lines : List Line) (p : Point) (stack : List Point) (μ : s.Mem) : Stmt → State s
  | .goto _ target => runGoto lines p stack μ target
  | .gosub _ target =>
    match startAt? lines target with
    | some q => ⟨.run q, p.next :: stack, μ⟩
    | none => ⟨.run p.next, stack, μ⟩
  | .return_ _ => pop stack μ
  | .end_ _ => ⟨.halted, [], μ⟩
  | .ifThen _ condition target =>
    match s.test condition μ with
    | (true, μ) => runGoto lines p stack μ target
    | (false, μ) => ⟨.run p.next, stack, μ⟩
  | .forNext _ name start _ _ _ => ⟨.round p, stack, s.enter name start μ⟩
  | stmt => ⟨.run p.next, stack, s.act stmt μ⟩

/-- Runs a round of the loop at a point, or leaves it. -/
def runRound (p : Point) (stack : List Point) (μ : s.Mem) : Stmt → State s
  | .forNext _ name _ stop step body =>
    match s.again name stop μ with
    | (true, μ) => ⟨.round p, stack, s.advance name step (s.actAll body μ)⟩
    | (false, μ) => ⟨.run p.next, stack, μ⟩
  | _ => ⟨.run p.next, stack, μ⟩

/-- One step of the machine; none when it has halted. -/
def step (names : List String) (lines : List Line) (st : State s) : Option (State s) :=
  match st.control with
  | .boot =>
    let μ := st.memory.assignAll names s.zero
    match lines with
    | [] => some ⟨.halted, [], μ⟩
    | _ :: _ => some ⟨.run ⟨0, 0⟩, [], μ⟩
  | .run p =>
    match stmtAt? lines p with
    | some stmt => some (runStmt lines p st.stack st.memory stmt)
    | none => some (runOff lines p st.stack st.memory)
  | .round p =>
    match stmtAt? lines p with
    | some stmt => some (runRound p st.stack st.memory stmt)
    | none => some (runOff lines p st.stack st.memory)
  | .halted => none

end Machine

end LineBasic
