/-
  LineBasic.Compile

  From source text to module: scanning, reading, checking, perhaps simplifying,
  and lowering.  Each of the four main phases keeps a journal; what the journals
  and the phases have to say comes in the order in which it was said.
-/

import LineBasic.Check.Analysis
import LineBasic.Lowering.Program
import LineBasic.Program.Reader
import LineBasic.Simplify
import LineBasic.Token.Scan

namespace LineBasic

-- ============================================================================
-- Settings, faults, journals
-- ============================================================================

/-- How to compile. -/
structure Settings where
  /-- Whether a jump to a line that does not exist is a fault. -/
  strict : Bool
  /-- Whether to simplify before making code. -/
  simplify : Bool
deriving DecidableEq

/-- The settings unless others are asked for. -/
def Settings.standard : Settings := ⟨true, false⟩

/-- Why there is no module. -/
inductive CompileError where
  | scan (e : ScanError)
  | read (e : ReadError)
  | check (e : CheckError)
  | lower (e : LowerError)
  | source (why : String)
deriving DecidableEq

/-- The fault in words. -/
def CompileError.message : CompileError → String
  | scan e => s!"lexical error: {e.message}"
  | read e => s!"syntax error: {e.message}"
  | check e => s!"semantic error: {e.message}"
  | lower e => s!"codegen error: {e.message}"
  | source why => s!"failed to read source: {why}"

/-- A phase that keeps a journal. -/
inductive Phase where
  | scan
  | read
  | check
  | lower
deriving DecidableEq, Repr

/-- The phases in order. -/
def Phase.all : List Phase := [scan, read, check, lower]

/-- The journals of all phases. -/
abbrev Journals : Type := Phase → Journal

namespace Journals

/-- No journal is kept. -/
def off : Journals := fun _ => .off

/-- The journals with that of one phase exchanged. -/
def set (js : Journals) (phase : Phase) (j : Journal) : Journals :=
  fun p => if p = phase then j else js p

end Journals

-- ============================================================================
-- Compilations
-- ============================================================================

/-- The journals and everything said so far. -/
structure Progress where
  journals : Journals
  said : List Diagnostic

/-- A compilation under way. -/
abbrev Compilation : Type → Type := ExceptT CompileError (StateM Progress)

namespace Compilation

/-- Says something. -/
def report (d : Diagnostic) : Compilation Unit :=
  modify fun p => { p with said := p.said ++ [d] }

/-- Hands the entries of a phase to its journal. -/
def feed (phase : Phase) (entries : List Journal.Entry) : Compilation Unit :=
  modify fun p =>
    let (journal, said) := (p.journals phase).feed entries
    { journals := p.journals.set phase journal, said := p.said ++ said }

/-- Goes on with the result of a phase, if it has one. -/
def take {ε α : Type} (fault : ε → CompileError) (x : Except ε α) : Compilation α :=
  match x with
  | .ok a => pure a
  | .error e => throw (fault e)

/-- The tokens of a text. -/
def scan (source : String) : Compilation (List Token) := do
  let scan := Scan.of source
  feed .scan (scan.tokens.map (.record ·.record))
  let tokens ← take .scan scan.result
  report ⟨.debug, s!"lexed source tokens={tokens.length}"⟩
  return tokens

/-- The program that tokens make up. -/
def read (tokens : List Token) : Compilation Program := do
  let read := Program.read (.of tokens)
  feed .read (read.records.map .record)
  let program ← take .read read.outcome
  report ⟨.debug, s!"parsed program lines={program.lines.length}"⟩
  return program

/-- The inventory of a program that keeps the rules. -/
def check (settings : Settings) (program : Program) : Compilation Inventory := do
  let analysis := Analysis.of program settings.strict
  feed .check analysis.entries
  let inventory ← take .check analysis.outcome
  report ⟨.debug,
    s!"analyzed program variables={inventory.names.size} strings={inventory.texts.size}"⟩
  return inventory

/-- The program to make code from. -/
def simplify (settings : Settings) (program : Program) : Compilation Program := do
  if settings.simplify then
    report program.simplified
    return program.simplify
  else return program

/-- The module of a program. -/
def lower (inventory : Inventory) (program : Program) : Compilation Module := do
  let (made, _) := (Generator.mk (some inventory)).generate program
  feed .lower (Emission.entries made.notes)
  let module ← take .lower made.outcome
  report module.generated
  return module

/-- The module of a text. -/
def compile (settings : Settings) (source : String) : Compilation Module := do
  let tokens ← scan source
  let program ← read tokens
  let inventory ← check settings program
  let program ← simplify settings program
  lower inventory program

/-- The module of a text given by its bytes, or by the reason why it could not be
    had. -/
def compileBytes (settings : Settings) (source : Except String ByteArray) :
    Compilation Module := do
  let bytes ← take .source source
  match String.fromUTF8? bytes with
  | some text => compile settings text
  | none => throw (.source "stream did not contain valid UTF-8")

end Compilation

/-- What a compilation came to. -/
structure Report where
  outcome : Except CompileError Module
  journals : Journals
  said : List Diagnostic

namespace Compilation

/-- Runs a compilation with the given journals. -/
def finish (c : Compilation Module) (journals : Journals) : Report :=
  let (outcome, progress) := c.run.run ⟨journals, []⟩
  ⟨outcome, progress.journals, progress.said⟩

end Compilation

/-- Compiles a text. -/
def compile (settings : Settings) (journals : Journals) (source : String) : Report :=
  (Compilation.compile settings source).finish journals

/-- Compiles a text given by its bytes, or by the reason why it could not be had. -/
def compileBytes (settings : Settings) (journals : Journals) (source : Except String ByteArray) :
    Report :=
  (Compilation.compileBytes settings source).finish journals

end LineBasic
