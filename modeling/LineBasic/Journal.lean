/-
  LineBasic.Journal

  The record a compilation phase keeps of its work, one line after another.  The
  lines go to a sink, which may have room for so many bytes only.  A sink that
  cannot take a line in full keeps the part that fits; the journal is then
  switched off and says so once, and the phase goes on without it.
-/

import LineBasic.Diagnostic

namespace LineBasic

-- ============================================================================
-- Sinks
-- ============================================================================

/-- Where a journal's bytes go. -/
structure Sink where
  /-- How many more bytes are taken; no bound when absent. -/
  room : Option Nat
  /-- What the sink says when it can take no more. -/
  complaint : String
  /-- The bytes taken so far. -/
  received : ByteArray

namespace Sink

/-- A sink that takes everything. -/
def unbounded : Sink := ⟨none, "", .empty⟩

/-- A sink that takes `room` bytes in all. -/
def bounded (room : Nat) (complaint : String) : Sink := ⟨some room, complaint, .empty⟩

/-- Hands `bytes` to the sink, which takes as many as fit, and tells whether that
    was all of them. -/
def write (sink : Sink) (bytes : ByteArray) : Sink × Bool :=
  match sink.room with
  | none => ({ sink with received := sink.received ++ bytes }, true)
  | some room =>
    ({ sink with
        room := some (room - bytes.size)
        received := sink.received ++ bytes.extract 0 room },
      bytes.size ≤ room)

end Sink

-- ============================================================================
-- Journals
-- ============================================================================

/-- A journal and the sink it writes to. -/
structure Journal where
  enabled : Bool
  sink : Sink

namespace Journal

/-- A journal that keeps nothing. -/
def off : Journal := ⟨false, .unbounded⟩

/-- A journal that writes to `sink`. -/
def into (sink : Sink) : Journal := ⟨true, sink⟩

/-- Said when a sink could not take a line. -/
def writeFailed (complaint : String) : Diagnostic :=
  ⟨.warn, s!"phase log write failed, disabling it: {complaint}"⟩

/-- Said when there is no sink to write to. -/
def openFailed (path complaint : String) : Diagnostic :=
  ⟨.warn, s!"cannot open log {path}: {complaint}"⟩

/-- Writes one line: its text, then a newline. -/
def record (journal : Journal) (line : String) : Journal × List Diagnostic :=
  if journal.enabled then
    let (sink, whole) := journal.sink.write line.toUTF8
    let (sink, whole) := if whole then sink.write "\n".toUTF8 else (sink, false)
    if whole then (⟨true, sink⟩, [])
    else (⟨false, sink⟩, [writeFailed sink.complaint])
  else (journal, [])

/-- The bytes the journal's sink has taken. -/
def received (journal : Journal) : ByteArray := journal.sink.received

/-- The state of a journal in one phrase. -/
def describe (journal : Journal) : String :=
  s!"PhaseLog \x7b enabled: {journal.enabled} \x7d"

-- ----------------------------------------------------------------------------
-- Whole phases
-- ----------------------------------------------------------------------------

/-- One thing a phase has to say: a line for its journal or a message. -/
inductive Entry where
  | record (line : String)
  | report (diagnostic : Diagnostic)

/-- Handles one entry. -/
def enter (journal : Journal) : Entry → Journal × List Diagnostic
  | .record line => journal.record line
  | .report diagnostic => (journal, [diagnostic])

/-- Handles the entries of a phase in order; the messages of failing writes
    appear among the phase's own where they arise. -/
def feed (journal : Journal) : List Entry → Journal × List Diagnostic
  | [] => (journal, [])
  | entry :: rest =>
    let (journal, said) := journal.enter entry
    let (journal, later) := journal.feed rest
    (journal, said ++ later)

end Journal

end LineBasic
