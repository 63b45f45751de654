/-
  LineBasic.Desk.Lower

  Making modules at a bench.  The bench holds what the code may refer to, the text
  written so far, the names of the functions it will have to declare, and where in
  the program the work stands.  Instructions are written out, and into the journal,
  the moment they are made.  Work that fails leaves the bench as it is; taking up
  the next program clears it.
-/

import LineBasic.Desk
import LineBasic.Lowering.Program

namespace LineBasic

namespace External

/-- The name of a function that a module does not define itself. -/
def name : External → String
  | printf => "printf"
  | scanf => "scanf"
  | strcmp => "strcmp"
  | math f => f.linkName
  | drand48 => "drand48"

theorem mem_all (x : External) : x ∈ all := by
  cases x with
  | math f => cases f <;> decide
  | _ => decide

/-- Functions are told apart by their names. -/
theorem name_inj {x y : External} (h : x.name = y.name) : x = y := by
  have hall : ∀ x ∈ all, ∀ y ∈ all, x.name = y.name → x = y := by decide
  exact hall x x.mem_all y y.mem_all h

end External

-- ============================================================================
-- Benches
-- ============================================================================

/-- Where modules are made. -/
structure Bench where
  /-- The inventory for the next program, if it is not to be taken from the program. -/
  inventory : Option Inventory
  /-- The variables that have a slot. -/
  names : Ascending String
  /-- The string literals that have a constant. -/
  texts : Ascending String
  /-- The lines in the order in which they run. -/
  lines : List Line
  /-- The number of the next temporary. -/
  temps : Nat
  /-- The names of the functions to declare. -/
  used : Ascending String
  /-- The subroutines being expanded, the innermost first. -/
  active : List Nat
  /-- The line that instructions belong to. -/
  site : Option Nat
  /-- The text of the function, as far as it is written. -/
  out : String

namespace Bench

/-- A bench at which nothing has been made. -/
def fresh (inventory : Option Inventory) : Bench :=
  ⟨inventory, .empty, .empty, [], 0, .empty, [], none, ""⟩

/-- What the code may refer to. -/
def env (b : Bench) : Env := ⟨b.names, b.texts, b.lines⟩

/-- Clears the bench for a program. -/
def takeUp (p : Program) (b : Bench) : Bench :=
  let inventory := b.inventory.getD p.inventory
  ⟨none, inventory.names, inventory.texts, p.listing, 0, .empty, [], none, ""⟩

/-- The module on the bench, without the body of its function. -/
def outline (b : Bench) : Module :=
  ⟨b.texts.toList, [], b.lines.length, b.names.size, b.temps⟩

/-- The declarations of the module: those of all functions, in their fixed order,
    whose names have been put down. -/
def declarations (b : Bench) : String :=
  String.join ((External.all.filter (·.name ∈ b.used)).map fun x => x.declaration ++ "\n") ++
    if b.used.toList = [] then "" else "\n"

/-- How the module on the bench is written. -/
def text (b : Bench) : String :=
  Module.header ++ b.declarations ++ Module.formats ++ b.outline.constants ++ "\n" ++ b.out

end Bench

/-- Work at a bench. -/
abbrev Craft : Type → Type := Work Bench LowerError

namespace Craft

-- ============================================================================
-- Writing
-- ============================================================================

/-- Writes text out. -/
def write (s : String) : Craft Unit := Work.change fun b => { b with out := b.out ++ s }

/-- Puts down a piece of code: what the journal shows of it, then its text. -/
def put (e : Emission) : Craft Unit := do
  Work.enterAll (Emission.entries [e])
  write e.text

/-- Adds a label. -/
def label (l : Label) : Craft Unit := put (.label l)

/-- Adds a note. -/
def note (n : Note) : Craft Unit := put (.note n)

/-- Adds an instruction that plays a special part. -/
def emitAs (role : Role) (i : Instr) : Craft Unit := do
  let site ← Work.look Bench.site
  put (.step site ⟨role, i⟩)

/-- Adds an instruction. -/
def emit (i : Instr) : Craft Unit := emitAs .ordinary i

/-- Takes a new temporary. -/
def newTemp : Craft Temp := do
  let n ← Work.look Bench.temps
  Work.change fun b => { b with temps := b.temps + 1 }
  return ⟨n⟩

/-- Adds an instruction that defines a new temporary and plays a special part. -/
def defineAs (role : Role) (i : Temp → Instr) : Craft Temp := do
  let t ← newTemp
  emitAs role (i t)
  return t

/-- Adds an instruction that defines a new temporary. -/
def define (i : Temp → Instr) : Craft Temp := defineAs .ordinary i

/-- Puts down that a function has to be declared. -/
def use (x : External) : Craft Unit :=
  Work.change fun b => { b with used := b.used.insert x.name }

/-- Goes to a line. -/
def moveTo (site : Option Nat) : Craft Unit := Work.change fun b => { b with site := site }

/-- Makes sure that a variable has a slot. -/
def requireSlot (name : String) : Craft Unit := do
  let names ← Work.look Bench.names
  if name ∈ names then pure () else throw (.undeclaredVariable name)

/-- The address of a string literal. -/
def textAddress (value : String) : Craft Temp := do
  let texts ← Work.look Bench.texts
  match texts.toList.idxOf? value with
  | some k => define (.address · (.literal k))
  | none => throw (.missingText value)

-- ============================================================================
-- Expressions
-- ============================================================================

/-- Code that tells whether a relation holds.  Two string literals are compared as
    texts; any other operands are worked out by the code given for them. -/
def relation (rel : Relation) (lhs rhs : Expr) (lhsCode rhsCode : Craft Operand) :
    Craft Temp :=
  match lhs, rhs with
  | .text _ a, .text _ b => do
    use .strcmp
    let x ← textAddress a
    let y ← textAddress b
    let order ← define (.compareTexts · x y)
    define (.compareOrder · rel order)
  | _, _ => do
    let l ← lhsCode
    let r ← rhsCode
    define (.compare · rel l r)

/-- Code for a function on the value of its argument. -/
def builtin (b : Builtin) (x : Operand) : Craft Operand :=
  match b with
  | .cdbl => return x
  | .rnd => do
    use .drand48
    return .temp (← define .draw)
  | .fix => do
    let whole ← define (.toInteger · x)
    return .temp (← define (.ofInteger · whole))
  | .sgn => do
    let above ← define (.compare · .gt x (.literal 0.0))
    let one ← define (.ofTruth · above)
    let below ← define (.compare · .lt x (.literal 0.0))
    let other ← define (.ofTruth · below)
    return .temp (← define (.arith · .sub (.temp one) (.temp other)))
  | .csng => do
    let single ← define (.toSingle · x)
    return .temp (← define (.ofSingle · single))
  | .math f => do
    use (.math f)
    return .temp (← define (.call · f x))

/-- Code for a numeric expression. -/
def expr : Expr → Craft Operand
  | .number _ x => return .literal x
  | .text pos _ => throw (.textAsNumber pos)
  | .var _ name => do
    requireSlot name
    return .temp (← define (.load · name))
  | .unary _ .plus operand => expr operand
  | .unary _ .minus operand => do
    let x ← expr operand
    return .temp (← defineAs .negation (.arith · .sub (.literal 0.0) x))
  | .binary _ (.compare rel) lhs rhs => do
    let c ← relation rel lhs rhs (expr lhs) (expr rhs)
    return .temp (← define (.ofTruth · c))
  | .binary _ (.arith op) lhs rhs => do
    let l ← expr lhs
    let r ← expr rhs
    return .temp (← define (.arith · op l r))
  | .call pos name args =>
    match Builtin.ofName? name, args with
    | none, _ => throw (.unknownFunction name pos)
    | some b, [arg] => do
      let x ← expr arg
      builtin b x
    | some b, args => throw (.wrongArity name b.arity args.length pos)

/-- Code for the condition of a decision, which has to be a comparison. -/
def condition : Expr → Craft Temp
  | .binary _ (.compare rel) lhs rhs => relation rel lhs rhs (expr lhs) (expr rhs)
  | e => throw (.conditionNotComparison e.pos)

-- ============================================================================
-- Simple statements
-- ============================================================================

/-- Code for an assignment. -/
def assign (name : String) (value : Expr) : Craft Unit := do
  let x ← expr value
  requireSlot name
  emit (.store x name)

/-- Code for printing a text or a number. -/
def print (value : Expr) : Craft Unit := do
  use .printf
  match value with
  | .text _ s =>
    let x ← textAddress s
    let format ← define (.address · .textFormat)
    emit (.printText format x)
  | value =>
    let x ← expr value
    let format ← define (.address · .numberFormat)
    emit (.printNumber format x)

/-- Code for reading a number. -/
def input (name : String) : Craft Unit := do
  use .scanf
  requireSlot name
  let format ← define (.address · .inputFormat)
  emit (.readNumber format name)

/-- Code for the body of a loop, which may only assign and print. -/
def body : List Stmt → Craft Unit
  | [] => pure ()
  | .assign _ name value :: rest => do
    assign name value
    body rest
  | .print _ value :: rest => do
    print value
    body rest
  | s :: _ => throw (.unsupportedInLoop s.pos)

/-- Code for the step of a loop; without one the step is one. -/
def step : Option Expr → Craft Operand
  | some e => expr e
  | none => pure (.literal 1.0)

/-- Code for a loop, the `k`-th numbered block of its owner. -/
def loop (owner : Label) (k : Nat) (name : String) (start stop : Expr) (by_ : Option Expr)
    (inside : List Stmt) : Craft Unit := do
  requireSlot name
  let x ← expr start
  emitAs .loopInit (.store x name)
  emit (.br (.loopTest owner k))
  label (.loopTest owner k)
  let current ← define (.load · name)
  let bound ← expr stop
  let within ← defineAs .loopTest (.compare · .le (.temp current) bound)
  emit (.brIf within (.loopBody owner k) (.loopEnd owner k))
  label (.loopBody owner k)
  body inside
  emit (.br (.loopStep owner k))
  label (.loopStep owner k)
  let by_ ← step by_
  let current ← define (.load · name)
  let next ← defineAs .loopStep (.arith · .add (.temp current) by_)
  emit (.store (.temp next) name)
  emit (.br (.loopTest owner k))
  label (.loopEnd owner k)

-- ============================================================================
-- Statements of a line
-- ============================================================================

/-- A way to expand the subroutine at a line, between its first block and the block
    that follows it. -/
abbrev Expansion : Type := (target : Nat) → (start next : Label) → Craft Unit

/-- Code for a statement, when `k` blocks have been numbered so far.  The result is
    the count of numbered blocks, or nothing when the code does not go on behind the
    statement. -/
def stmt (expand : Expansion) (frame : Frame) (k : Nat) : Stmt → Craft (Option Nat)
  | .assign _ name value => do
    assign name value
    return some k
  | .print _ value => do
    print value
    return some k
  | .input _ name => do
    input name
    return some k
  | .goto pos target => do
    let env ← Work.look Bench.env
    if env.hasLine target then
      emitAs .goto (.br (.line target))
      return none
    else
      note (.danglingGoto target pos)
      return some k
  | .gosub _ target => do
    let start := .subStart frame.owner (k + 1)
    let next := .subEnd frame.owner (k + 1)
    emitAs .gosub (.br start)
    expand target start next
    label next
    return some (k + 1)
  | .return_ _ => do
    emitAs .return_ (.br frame.returnTo)
    return none
  | .end_ _ => do
    emitAs .end_ (.br .exit)
    return none
  | .ifThen _ decision target => do
    let next := .decided frame.owner (k + 1)
    let c ← condition decision
    let env ← Work.look Bench.env
    if env.hasLine target then
      emitAs .decision (.brIf c (.line target) next)
    else
      emitAs .decision (.br next)
    label next
    return some (k + 1)
  | .forNext _ name start stop by_ inside => do
    loop frame.owner (k + 1) name start stop by_ inside
    return some (k + 1)

/-- Code for statements in order, up to one behind which the code does not go on. -/
def stmts (expand : Expansion) (frame : Frame) (k : Nat) : List Stmt → Craft (Option Nat)
  | [] => return some k
  | s :: rest => do
    match ← stmt expand frame k s with
    | some k => stmts expand frame k rest
    | none => return none

-- ============================================================================
-- Subroutines
-- ============================================================================

/-- Code for the lines of an expanded subroutine, of which `i` lines lie behind and
    the next one starts at `here`. -/
def region (expand : Expansion) (frame : Frame) (here : Label) (i k : Nat) :
    List Line → Craft Unit
  | [] => return
  | l :: rest => do
    moveTo (some l.number)
    note (.subroutineLine l.number)
    label here
    match ← stmts expand frame k l.stmts with
    | none => return
    | some k =>
      match rest with
      | [] => emitAs .return_ (.br frame.returnTo)
      | _ :: _ =>
        let next := .subLine frame.owner (i + 1)
        emit (.br next)
        region expand frame next (i + 1) k rest

/-- Expands a subroutine, with `inner` for the subroutines inside it.  Whatever comes
    of it, the work goes back to the line it was at. -/
def subroutine (inner : Expansion) : Expansion := fun target start next => do
  let b ← Work.look id
  if target ∈ b.active then throw (.recursiveGosub target)
  else
    match b.env.linesFrom target with
    | [] =>
      note (.danglingGosub target next)
      label start
      emitAs .return_ (.br next)
    | l :: ls =>
      Work.change fun b => { b with active := target :: b.active }
      Work.afterwards (region inner ⟨start, next⟩ start 0 0 (l :: ls))
        fun after => { after with active := after.active.tail, site := b.site }

/-- Expands a subroutine that holds at most `depth` others inside one another. -/
def expand : (depth : Nat) → Expansion
  | 0 => subroutine fun target _ _ => throw (.recursiveGosub target)
  | depth + 1 => subroutine (expand depth)

-- ============================================================================
-- Programs
-- ============================================================================

/-- Code that makes the slots of variables and puts zero into them. -/
def slots : List String → Craft Unit
  | [] => return
  | name :: rest => do
    emit (.alloca name)
    emitAs .initial (.store (.literal 0.0) name)
    slots rest

/-- Code for a line, which goes on at `next`.  No more subroutines can lie inside one
    another than there are lines. -/
def line (l : Line) (next : Label) : Craft Unit := do
  moveTo (some l.number)
  note (.line l.number)
  label (.line l.number)
  let all ← Work.look Bench.lines
  match ← stmts (expand all.length) ⟨.line l.number, .exit⟩ 0 l.stmts with
  | none => return
  | some _ => emit (.br next)

/-- Code for lines, each of which goes on at the next one and the last at the end. -/
def lines : List Line → Craft Unit
  | [] => return
  | l :: rest => do
    line l (match rest with
      | [] => .exit
      | m :: _ => .line m.number)
    lines rest

/-- Code for a whole program. -/
def code : Craft Unit := do
  label .entry
  let b ← Work.look id
  slots b.names.toList
  match b.lines with
  | [] => emit .ret
  | l :: _ =>
    emit (.br (.line l.number))
    lines b.lines
    moveTo none
    label .exit
    emit .ret

/-- The function of a module. -/
def main : Craft Unit := do
  write "define i32 @main() \x7b\n"
  code
  write "\x7d\n"

/-- Makes the module of a program. -/
def workOn (p : Program) : Craft String := do
  Work.change (Bench.takeUp p)
  main
  let b ← Work.look id
  Work.change fun b => { b with out := "" }
  Work.report b.outline.generated
  return b.text

end Craft

end LineBasic
