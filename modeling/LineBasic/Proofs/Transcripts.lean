/-
  LineBasic.Proofs.Transcripts

  What becomes of a journal when lines are written into it.  The transcript of lines
  is their bytes, each line with its newline.  A journal without bound receives the
  transcript; one with room for `r` bytes receives the first `r` of them, and is on
  for as long as the transcript fits.
-/

import LineBasic.Desk

namespace LineBasic

/-- The bytes of lines, each line with its newline. -/
def transcript : List String → ByteArray
  | [] => .empty
  | line :: rest => line.toUTF8 ++ "\n".toUTF8 ++ transcript rest

/-- The journal after lines have been written into it. -/
def Journal.after (journal : Journal) (lines : List String) : Journal :=
  lines.foldl (fun journal line => (journal.record line).1) journal

-- ============================================================================
-- Sinks
-- ============================================================================

namespace Sink

variable {room : Nat} {complaint : String} {received bytes : ByteArray}

theorem extract_of_le (h : bytes.size ≤ room) : bytes.extract 0 room = bytes := by
  rw [← Nat.max_eq_left h, ByteArray.extract_zero_max_size]

theorem extract_past {start : Nat} (h : room ≤ start) :
    bytes.extract start room = .empty := by
  rw [ByteArray.extract_eq_empty_iff]
  omega

theorem write_of_le (h : bytes.size ≤ room) :
    Sink.write ⟨some room, complaint, received⟩ bytes
      = (⟨some (room - bytes.size), complaint, received ++ bytes⟩, true) := by
  simp [write, h, extract_of_le h]

theorem write_of_lt (h : room < bytes.size) :
    Sink.write ⟨some room, complaint, received⟩ bytes
      = (⟨some 0, complaint, received ++ bytes.extract 0 room⟩, false) := by
  have hroom : room - bytes.size = 0 := by omega
  have hfull : ¬ bytes.size ≤ room := by omega
  simp [write, hroom, hfull]

end Sink

-- ============================================================================
-- Single lines
-- ============================================================================

namespace Journal

variable {room : Nat} {complaint : String} {received : ByteArray} {line : String}

theorem record_disabled (sink : Sink) :
    ((⟨false, sink⟩ : Journal).record line).1 = ⟨false, sink⟩ := rfl

theorem record_unbounded :
    ((⟨true, ⟨none, complaint, received⟩⟩ : Journal).record line).1
      = ⟨true, ⟨none, complaint, received ++ (line.toUTF8 ++ "\n".toUTF8)⟩⟩ := by
  rw [← ByteArray.append_assoc]
  rfl

/-- A line that fits is taken, with its newline. -/
theorem record_of_le (h : (line.toUTF8 ++ "\n".toUTF8).size ≤ room) :
    ((⟨true, ⟨some room, complaint, received⟩⟩ : Journal).record line).1
      = ⟨true, ⟨some (room - (line.toUTF8 ++ "\n".toUTF8).size), complaint,
          received ++ (line.toUTF8 ++ "\n".toUTF8)⟩⟩ := by
  rw [ByteArray.size_append] at h ⊢
  have hline : line.toUTF8.size ≤ room := by omega
  have hend : "\n".toUTF8.size ≤ room - line.toUTF8.size := by omega
  simp only [record, Sink.write_of_le hline, Sink.write_of_le hend, if_true, Nat.sub_sub,
    ByteArray.append_assoc]

/-- Of a line that does not fit the journal takes what fits, and is switched off.
    The line can be cut inside its text or between its text and its newline. -/
theorem record_of_lt (h : room < (line.toUTF8 ++ "\n".toUTF8).size) :
    ((⟨true, ⟨some room, complaint, received⟩⟩ : Journal).record line).1
      = ⟨false, ⟨some 0, complaint,
          received ++ (line.toUTF8 ++ "\n".toUTF8).extract 0 room⟩⟩ := by
  rw [ByteArray.size_append] at h
  by_cases hline : line.toUTF8.size ≤ room
  · have hend : room - line.toUTF8.size < "\n".toUTF8.size := by omega
    simp only [record, Sink.write_of_le hline, Sink.write_of_lt hend, if_true,
      ByteArray.append_assoc, ByteArray.extract_append, Sink.extract_of_le hline, Nat.zero_sub]
    rfl
  · have hnone : "\n".toUTF8.extract (0 - line.toUTF8.size) (room - line.toUTF8.size) = .empty :=
      Sink.extract_past (by omega)
    simp only [record, Sink.write_of_lt (Nat.lt_of_not_le hline), if_true,
      ByteArray.extract_append, hnone, ByteArray.append_empty]
    rfl

-- ============================================================================
-- All lines
-- ============================================================================

@[simp] theorem after_nil (journal : Journal) : journal.after [] = journal := rfl

theorem after_cons (journal : Journal) (line : String) (rest : List String) :
    journal.after (line :: rest) = (journal.record line).1.after rest := rfl

theorem after_disabled (sink : Sink) (lines : List String) :
    (⟨false, sink⟩ : Journal).after lines = ⟨false, sink⟩ := by
  induction lines with
  | nil => rfl
  | cons line rest ih => rw [after_cons, record_disabled, ih]

/-- A journal without a bound receives all lines. -/
theorem after_unbounded (complaint : String) (received : ByteArray) (lines : List String) :
    (⟨true, ⟨none, complaint, received⟩⟩ : Journal).after lines
      = ⟨true, ⟨none, complaint, received ++ transcript lines⟩⟩ := by
  induction lines generalizing received with
  | nil => rw [after_nil, transcript, ByteArray.append_empty]
  | cons line rest ih =>
    rw [after_cons, record_unbounded, ih, transcript, ByteArray.append_assoc]

/-- Lines that fit are taken one and all. -/
theorem after_of_le {room : Nat} (complaint : String) (received : ByteArray)
    (lines : List String) (h : (transcript lines).size ≤ room) :
    (⟨true, ⟨some room, complaint, received⟩⟩ : Journal).after lines
      = ⟨true, ⟨some (room - (transcript lines).size), complaint,
          received ++ transcript lines⟩⟩ := by
  induction lines generalizing room received with
  | nil => rw [after_nil, transcript, ByteArray.append_empty]; rfl
  | cons line rest ih =>
    rw [transcript, ByteArray.size_append] at h
    have hline : (line.toUTF8 ++ "\n".toUTF8).size ≤ room := by omega
    rw [after_cons, record_of_le hline, ih _ (by omega), transcript, ByteArray.append_assoc,
      Nat.sub_sub, ← ByteArray.size_append]

/-- Of lines that do not all fit the journal takes what fits, down to the byte. -/
theorem after_of_lt {room : Nat} (complaint : String) (received : ByteArray)
    (lines : List String) (h : room < (transcript lines).size) :
    (⟨true, ⟨some room, complaint, received⟩⟩ : Journal).after lines
      = ⟨false, ⟨some 0, complaint, received ++ (transcript lines).extract 0 room⟩⟩ := by
  induction lines generalizing room received with
  | nil => simp [transcript] at h
  | cons line rest ih =>
    rw [transcript, ByteArray.size_append] at h
    rw [after_cons, transcript, ByteArray.extract_append]
    by_cases hline : (line.toUTF8 ++ "\n".toUTF8).size ≤ room
    · -- The line fits: the cut lies in a later one.
      rw [record_of_le hline, ih _ (by omega), Sink.extract_of_le hline, Nat.zero_sub,
        ByteArray.append_assoc]
    · have hnone : (transcript rest).extract (0 - (line.toUTF8 ++ "\n".toUTF8).size)
          (room - (line.toUTF8 ++ "\n".toUTF8).size) = .empty :=
        Sink.extract_past (by omega)
      rw [record_of_lt (Nat.lt_of_not_le hline), after_disabled, hnone, ByteArray.append_empty]

/-- A bounded journal is on as long as everything has fitted. -/
theorem enabled_after_bounded (room : Nat) (complaint : String) (lines : List String) :
    ((Journal.into (.bounded room complaint)).after lines).enabled = true ↔
      (transcript lines).size ≤ room := by
  by_cases h : (transcript lines).size ≤ room
  · have hon := after_of_le complaint .empty lines h
    exact iff_of_true (congrArg Journal.enabled hon) h
  · have hoff := after_of_lt complaint .empty lines (Nat.lt_of_not_le h)
    refine iff_of_false ?_ h
    rw [show (Journal.into (.bounded room complaint)).after lines = _ from hoff]
    exact Bool.false_ne_true

/-- A bounded journal receives the first bytes of the transcript, as many as it has
    room for. -/
theorem received_after_bounded (room : Nat) (complaint : String) (lines : List String) :
    ((Journal.into (.bounded room complaint)).after lines).received
      = (transcript lines).extract 0 room := by
  by_cases h : (transcript lines).size ≤ room
  · have hon := after_of_le complaint .empty lines h
    rw [show (Journal.into (.bounded room complaint)).after lines = _ from hon,
      Sink.extract_of_le h]
    exact ByteArray.empty_append
  · have hoff := after_of_lt complaint .empty lines (Nat.lt_of_not_le h)
    rw [show (Journal.into (.bounded room complaint)).after lines = _ from hoff]
    exact ByteArray.empty_append

/-- A journal without bound receives the whole transcript. -/
theorem received_after_unbounded (lines : List String) :
    ((Journal.into .unbounded).after lines).received = transcript lines := by
  rw [show (Journal.into .unbounded).after lines = _ from after_unbounded "" .empty lines]
  exact ByteArray.empty_append

end Journal

-- ============================================================================
-- Desks
-- ============================================================================

/-- The line of an entry that goes into the journal. -/
def Journal.Entry.line? : Journal.Entry → Option String
  | record line => some line
  | report _ => none

namespace Desk

variable (desk : Desk)

theorem enterAll_append (entries later : List Journal.Entry) :
    desk.enterAll (entries ++ later) = (desk.enterAll entries).enterAll later :=
  List.foldl_append

/-- The journal on a desk gets the lines among the entries, and nothing else. -/
theorem journal_enterAll (entries : List Journal.Entry) :
    (desk.enterAll entries).journal
      = desk.journal.after (entries.filterMap Journal.Entry.line?) := by
  induction entries generalizing desk with
  | nil => rfl
  | cons entry rest ih =>
    rw [show desk.enterAll (entry :: rest) = (desk.enter entry).enterAll rest from rfl, ih]
    cases entry <;> rfl

end Desk

end LineBasic
