/-
  LineBasic.Proofs.CheckJournal

  The journal of an analysis and what the analysis comes to.  The lines of the journal
  are told apart by their first words, so the findings of the check can be read off the
  lines, and what is known of the findings of a program is known of its journal
  (`Recounts`).
-/

import LineBasic.Proofs.Collection
import LineBasic.Proofs.DeskWork
import LineBasic.Proofs.LabelText
import LineBasic.Proofs.LineOrder
import LineBasic.Proofs.Strictness
import LineBasic.Proofs.TokenRecords
import Mathlib.Data.List.Nodup

namespace LineBasic

open Check

-- ============================================================================
-- Records
-- ============================================================================

/-- What a line of the journal tells of. -/
inductive Heading where
  | line
  | declared
  | implied
  | referred
  | bodyStart
  | bodyEnd
  | other
deriving DecidableEq

/-- The first words of lines, and what they tell of. -/
def headings : List (List Char × Heading) :=
  [("Line".toList, .line), ("VarDecl".toList, .declared), ("VarImplicitDecl".toList, .implied),
    ("VarRef".toList, .referred), ("ScopeEnter".toList, .bodyStart), ("ScopeExit".toList, .bodyEnd)]

/-- What a line tells of, by the text in front of its first blank. -/
def heading (line : String) : Heading :=
  (headings.lookup (line.toList.takeWhile (· ≠ ' '))).getD .other

/-- A text whose first word is complete and tells of `h`. -/
def Headed (h : Heading) (s : String) : Prop := ' ' ∈ s.toList ∧ heading s = h

instance (h : Heading) (s : String) : Decidable (Headed h s) := inferInstanceAs (Decidable (_ ∧ _))

/-- How a line starts does not depend on what is added at its end. -/
theorem Headed.append {h : Heading} {s t : String} (hs : Headed h s) : Headed h (s ++ t) := by
  obtain ⟨hblank, rfl⟩ := hs
  have hstops : (s.toList.takeWhile (· ≠ ' ')).length ≠ s.toList.length := by
    intro hlength
    have hall := (List.takeWhile_prefix (· ≠ ' ')).eq_of_length hlength
    exact absurd rfl (of_decide_eq_true (List.takeWhile_eq_self_iff.1 hall ' ' hblank))
  constructor
  · rw [String.toList_append]
    exact List.mem_append_left _ hblank
  · rw [heading, String.toList_append, List.takeWhile_append, if_neg hstops]
    rfl

theorem ne_of_heading {s t : String} (h : heading s ≠ heading t) : s ≠ t := fun heq =>
  h (congrArg heading heq)

namespace Record

/-- The record of a variable that is met for the first time. -/
def declared (x : String) : String := s!"VarDecl {x}"

/-- The record of where it is met. -/
def implied (x : String) (pos : Position) : String := s!"VarImplicitDecl {x} @ {pos.text}"

/-- The record of a variable that is met. -/
def referred (x : String) (pos : Position) : String := s!"VarRef {x} @ {pos.text}"

/-- The record of a line. -/
def line (n : Nat) : String := s!"Line {n}"

theorem headed_declared (x : String) : Headed .declared (declared x) := .append (by decide)

theorem headed_implied (x : String) (pos : Position) : Headed .implied (implied x pos) :=
  .append (.append (.append (by decide)))

theorem headed_referred (x : String) (pos : Position) : Headed .referred (referred x pos) :=
  .append (.append (.append (by decide)))

theorem headed_line (n : Nat) : Headed .line (line n) := .append (by decide)

theorem declared_inj {x y : String} (h : declared x = declared y) : x = y :=
  (String.append_right_inj "VarDecl ").1 h

/-- The record of a line tells its number. -/
theorem line_inj {m n : Nat} (h : line m = line n) : m = n := by
  have hdigits : toString m = toString n := (String.append_right_inj "Line ").1 h
  have hchars := congrArg String.toList hdigits
  rw [Nat.toString_eq_repr, Nat.toString_eq_repr, Nat.toList_repr, Nat.toList_repr] at hchars
  exact Label.digits_inj hchars

/-- A record of a reference ends with a colon and the digits of a column. -/
theorem toList_referred (x : String) (p : Position) :
    (referred x p).toList = ("VarRef ".toList ++ x.toList ++ " @ ".toList ++
      Decimal.digits p.line ++ [':']) ++ Decimal.digits p.column := by
  show (toString "VarRef " ++ toString x ++ toString " @ " ++ toString p.text).toList = _
  rw [String.toList_append, String.toList_append, String.toList_append,
    show (toString p.text).toList = _ from p.toList_text, List.append_cons, ← List.append_assoc,
    ← List.append_assoc]
  rfl

/-- The place of a record ends it, whatever the name in front of it. -/
theorem referred_inj {x y : String} {p q : Position} (h : referred x p = referred y q) :
    x = y ∧ p = q := by
  have hchars := congrArg String.toList h
  rw [toList_referred, toList_referred] at hchars
  have hcolon : Label.EndsPlain [':'] := ⟨':', rfl, rfl⟩
  have hblank : Label.EndsPlain " @ ".toList := ⟨' ', rfl, rfl⟩
  obtain ⟨hfront, hcolumn⟩ := Label.append_digits_inj (hcolon.append _) (hcolon.append _)
    (Decimal.allDigits_digits _) (Decimal.allDigits_digits _) hchars
  obtain ⟨hfront', hline⟩ := Label.append_digits_inj (hblank.append _) (hblank.append _)
    (Decimal.allDigits_digits _) (Decimal.allDigits_digits _) (List.append_cancel_right hfront)
  have hname := List.append_cancel_left (List.append_cancel_right hfront')
  obtain ⟨l, c⟩ := p
  obtain ⟨l', c'⟩ := q
  obtain rfl := Label.digits_inj hline
  obtain rfl := Label.digits_inj hcolumn
  exact ⟨String.toList_inj.1 hname, rfl⟩

end Record

-- ============================================================================
-- Records of findings
-- ============================================================================

namespace Finding

open Record

variable {s : Scopes} {f : Finding} {x : String} {p : Position}

/-- The lines that a finding writes into the journal. -/
def said (s : Scopes) (f : Finding) : List String := (f.entries s).filterMap Journal.Entry.line?

/-- What the last line tells of that a finding writes. -/
def heading : Finding → Heading
  | line _ => .line
  | variable_ _ _ => .referred
  | bodyStart => .bodyStart
  | bodyEnd => .bodyEnd
  | _ => .other

/-- Everything but a variable is written on one line. -/
theorem said_of_other (s : Scopes) (h : f.variable? = none) :
    ∃ line, f.said s = [line] ∧ LineBasic.heading line = f.heading := by
  cases f with
  | variable_ x p => cases h
  | line n => exact ⟨_, rfl, (headed_line n).2⟩
  | literal t p =>
    have hother : Headed .other "StringLiteral @ " := by decide
    exact ⟨_, rfl, hother.append.2⟩
  | call x p =>
    have hother : Headed .other "Call " := by decide
    exact ⟨_, rfl, hother.append.append.append.2⟩
  | jump j n p =>
    have hother : Headed .other (j.formName ++ " target=") := by cases j <;> decide
    exact ⟨_, rfl, hother.append.append.append.2⟩
  | missing j n p =>
    have hother : Headed .other "Warning: " := by decide
    exact ⟨_, rfl, hother.append.append.append.2⟩
  | loop x p =>
    have hother : Headed .other "For var=" := by decide
    exact ⟨_, rfl, hother.append.append.append.2⟩
  | bodyStart => exact ⟨_, rfl, by decide⟩
  | bodyEnd => exact ⟨_, rfl, by decide⟩
  | returned p =>
    have hother : Headed .other "Return @ " := by decide
    exact ⟨_, rfl, hother.append.2⟩
  | ended p =>
    have hother : Headed .other "End @ " := by decide
    exact ⟨_, rfl, hother.append.2⟩

/-- A variable is written on one line, and on two more when it is new. -/
theorem said_variable (s : Scopes) (x : String) (p : Position) :
    (variable_ x p).said s =
      if s.isNew x then [declared x, implied x p, referred x p] else [referred x p] := by
  by_cases h : s.isNew x = true
  · rw [said, entries, if_pos h, if_pos h]
    rfl
  · rw [said, entries, if_neg h, if_neg h]
    rfl

/-- A finding with a variable is the finding of that variable somewhere. -/
theorem eq_of_variable? (h : f.variable? = some x) : ∃ p, f = variable_ x p := by
  cases f with
  | variable_ y p =>
    cases h
    exact ⟨p, rfl⟩
  | _ => cases h

theorem heading_ne (h : f.variable? = none) : f.heading ≠ .declared ∧ f.heading ≠ .referred := by
  cases f with
  | variable_ x p => cases h
  | _ => exact ⟨nofun, nofun⟩

theorem declared_ne_implied (x y : String) (p : Position) : declared x ≠ implied y p := by
  refine ne_of_heading ?_
  rw [(headed_declared x).2, (headed_implied y p).2]
  decide

theorem declared_ne_referred (x y : String) (p : Position) : declared x ≠ referred y p := by
  refine ne_of_heading ?_
  rw [(headed_declared x).2, (headed_referred y p).2]
  decide

theorem referred_ne_implied (x y : String) (p q : Position) : referred x p ≠ implied y q := by
  refine ne_of_heading ?_
  rw [(headed_referred x p).2, (headed_implied y q).2]
  decide

/-- A variable is declared where it is met and new. -/
theorem declared_mem_said : declared x ∈ f.said s ↔ s.isNew x = true ∧ f.variable? = some x := by
  cases hf : f.variable? with
  | none =>
    -- What other findings write has another heading.
    obtain ⟨line, hsaid, hheading⟩ := said_of_other s hf
    refine iff_of_false (fun hmem => ?_) nofun
    rw [hsaid, List.mem_singleton] at hmem
    rw [← hmem, (headed_declared x).2] at hheading
    exact (heading_ne hf).1 hheading.symm
  | some y =>
    obtain ⟨p, rfl⟩ := eq_of_variable? hf
    rw [said_variable]
    by_cases hnew : s.isNew y = true
    · rw [if_pos hnew]
      simp only [List.mem_cons, declared_ne_implied, declared_ne_referred, List.not_mem_nil,
        or_false, Option.some.injEq]
      constructor
      · intro h
        obtain rfl := declared_inj h
        exact ⟨hnew, rfl⟩
      · rintro ⟨-, rfl⟩
        rfl
    · rw [if_neg hnew]
      refine iff_of_false (fun hmem => ?_) ?_
      · exact declared_ne_referred x y p (List.mem_singleton.1 hmem)
      · rintro ⟨hnew', heq⟩
        obtain rfl := Option.some.inj heq
        exact hnew hnew'

/-- A reference is on record exactly where the variable was met, since the record tells name and
    place. -/
theorem referred_mem_said : referred x p ∈ f.said s ↔ f = variable_ x p := by
  cases hf : f.variable? with
  | none =>
    obtain ⟨line, hsaid, hheading⟩ := said_of_other s hf
    refine iff_of_false (fun hmem => ?_) ?_
    · rw [hsaid, List.mem_singleton] at hmem
      rw [← hmem, (headed_referred x p).2] at hheading
      exact (heading_ne hf).2 hheading.symm
    · rintro rfl
      cases hf
  | some y =>
    obtain ⟨q, rfl⟩ := eq_of_variable? hf
    -- Only the last of its lines is a reference.
    have hlast : referred x p ∈ (variable_ y q).said s ↔ referred x p = referred y q := by
      rw [said_variable]
      split
      · simp only [List.mem_cons, (declared_ne_referred y x p).symm, referred_ne_implied,
          List.not_mem_nil, or_false, false_or]
      · exact List.mem_singleton
    rw [hlast]
    constructor
    · intro h
      obtain ⟨rfl, rfl⟩ := referred_inj h
      rfl
    · intro h
      cases h
      rfl

-- ----------------------------------------------------------------------------
-- Whole lists of findings
-- ----------------------------------------------------------------------------

variable {fs : List Finding}

theorem lines_cons_said (s : Scopes) (f : Finding) (fs : List Finding) :
    lines s (f :: fs) = f.said s ++ lines (f.scope s) fs := lines_cons s f fs

/-- A name stays new until its variable is met. -/
theorem isNew_scope : (f.scope s).isNew x = true ↔ s.isNew x = true ∧ f.variable? ≠ some x := by
  cases f with
  | variable_ y p =>
    simp only [scope, Scopes.isNew, Scopes.declare, Ascending.mem_insert, Finding.variable?,
      decide_eq_true_eq, not_or, ne_eq, Option.some.injEq]
    rw [and_comm, eq_comm]
  | _ => exact ⟨fun h => ⟨h, nofun⟩, And.left⟩

/-- What is new behind findings was new before them and is not among them. -/
theorem isNew_scopeAll :
    (scopeAll s fs).isNew x = true ↔ s.isNew x = true ∧ x ∉ fs.filterMap Finding.variable? := by
  induction fs generalizing s with
  | nil => simp [scopeAll]
  | cons f fs ih =>
    rw [show scopeAll s (f :: fs) = scopeAll (f.scope s) fs from rfl, ih, isNew_scope]
    cases hf : f.variable? with
    | none => simp [List.filterMap_cons_none hf]
    | some y =>
      rw [List.filterMap_cons_some hf, List.mem_cons, not_or, ne_eq, Option.some.injEq, and_assoc,
        @eq_comm _ y x]

/-- A declaration is on record if the name was new and its variable is met. -/
theorem declared_mem_lines :
    declared x ∈ lines s fs ↔ s.isNew x = true ∧ x ∈ fs.filterMap Finding.variable? := by
  induction fs generalizing s with
  | nil => simp [lines, entriesAll]
  | cons f fs ih =>
    rw [lines_cons_said, List.mem_append, declared_mem_said, ih, isNew_scope]
    cases hf : f.variable? with
    | none => simp [List.filterMap_cons_none hf]
    | some y =>
      rw [List.filterMap_cons_some hf, List.mem_cons, Option.some.injEq]
      by_cases hx : x = y
      · simp [hx]
      · simp [hx, Ne.symm hx]

/-- A reference is on record if the variable was met at the place. -/
theorem referred_mem_lines : referred x p ∈ lines s fs ↔ variable_ x p ∈ fs := by
  induction fs generalizing s with
  | nil => simp [lines, entriesAll]
  | cons f fs ih =>
    rw [lines_cons_said, List.mem_append, referred_mem_said, ih, List.mem_cons, eq_comm]

/-- A declaration among the lines of findings is that of a variable that was not met before, and
    the two other lines of the variable stand behind it. -/
theorem exists_of_declared {before after : List String}
    (h : lines s fs = before ++ declared x :: after) :
    ∃ front p rest, fs = front ++ variable_ x p :: rest ∧ (scopeAll s front).isNew x = true ∧
      before = lines s front ∧ after = implied x p :: referred x p ::
        lines ((variable_ x p).scope (scopeAll s front)) rest := by
  induction fs generalizing s before with
  | nil => exact absurd h.symm (by simp [lines, entriesAll])
  | cons f fs ih =>
    rw [lines_cons_said] at h
    rcases append_eq_append_cons h with ⟨more, hsaid, rfl⟩ | ⟨more, rfl, hmore⟩
    · have hmem : declared x ∈ f.said s := by
        rw [hsaid]
        exact List.mem_append_right _ (List.mem_cons_self ..)
      obtain ⟨hnew, hf⟩ := declared_mem_said.1 hmem
      obtain ⟨p, rfl⟩ := eq_of_variable? hf
      rw [said_variable, if_pos hnew] at hsaid
      -- The first of the three lines is the declaration, and neither of the others is one.
      cases before with
      | nil =>
        obtain ⟨-, rfl⟩ := List.cons.inj hsaid
        exact ⟨[], p, fs, rfl, hnew, rfl, rfl⟩
      | cons line before =>
        have htail : declared x ∈ [implied x p, referred x p] := by
          rw [(List.cons.inj hsaid).2]
          exact List.mem_append_right _ (List.mem_cons_self ..)
        simp [declared_ne_implied, declared_ne_referred] at htail
    · obtain ⟨front, p, rest, rfl, hnew, rfl, hafter⟩ := ih hmore
      exact ⟨f :: front, p, rest, rfl, hnew, (lines_cons_said ..).symm, hafter⟩

-- ----------------------------------------------------------------------------
-- Loops and lines
-- ----------------------------------------------------------------------------

/-- Whether a line opens the body of a loop, true, or closes it. -/
def bracketOf? (line : String) : Option Bool :=
  if line = "ScopeEnter" then some true
  else if line = "ScopeExit" then some false
  else none

/-- Only two headings are brackets. -/
theorem bracketOf?_of_heading {line : String} {h : Heading} (hline : LineBasic.heading line = h)
    (hstart : h ≠ .bodyStart) (hend : h ≠ .bodyEnd) : bracketOf? line = none := by
  have henter : line ≠ "ScopeEnter" := by
    rintro rfl
    exact hstart (hline.symm.trans (by decide))
  have hexit : line ≠ "ScopeExit" := by
    rintro rfl
    exact hend (hline.symm.trans (by decide))
  rw [bracketOf?, if_neg henter, if_neg hexit]

/-- The brackets among lines are counted by their text. -/
theorem count_brackets (ls : List String) :
    (ls.filterMap bracketOf?).count true = ls.count "ScopeEnter" ∧
      (ls.filterMap bracketOf?).count false = ls.count "ScopeExit" := by
  induction ls with
  | nil => exact ⟨rfl, rfl⟩
  | cons line ls ih =>
    obtain ⟨hopened, hclosed⟩ := ih
    by_cases henter : line = "ScopeEnter"
    · have hline : bracketOf? line = some true := if_pos henter
      rw [List.filterMap_cons_some hline, henter]
      simp [hopened, hclosed]
    by_cases hexit : line = "ScopeExit"
    · have hline : bracketOf? line = some false := by rw [bracketOf?, if_neg henter, if_pos hexit]
      rw [List.filterMap_cons_some hline, hexit]
      simp [hopened, hclosed]
    · have hline : bracketOf? line = none := by rw [bracketOf?, if_neg henter, if_neg hexit]
      rw [List.filterMap_cons_none hline]
      simp [hopened, hclosed, henter, hexit]

theorem brackets_said_of_other (s : Scopes) (h : f.variable? = none)
    (hstart : f.heading ≠ .bodyStart) (hend : f.heading ≠ .bodyEnd) :
    (f.said s).filterMap bracketOf? = [] := by
  obtain ⟨line, hsaid, hheading⟩ := said_of_other s h
  rw [hsaid, List.filterMap_cons_none (bracketOf?_of_heading hheading hstart hend),
    List.filterMap_nil]

theorem numbers_said_of_other (s : Scopes) (h : f.variable? = none) (hline : f.heading ≠ .line) :
    (f.said s).filter (LineBasic.heading · = .line) = [] := by
  obtain ⟨line, hsaid, hheading⟩ := said_of_other s h
  rw [hsaid, List.filter_cons_of_neg (by simpa [hheading] using hline), List.filter_nil]

/-- A finding writes a bracket if it is one. -/
theorem brackets_said (s : Scopes) (f : Finding) :
    (f.said s).filterMap bracketOf? = f.bracket?.toList := by
  cases f with
  | bodyStart => rfl
  | bodyEnd => rfl
  | variable_ x p =>
    have hdeclared : bracketOf? (declared x) = none :=
      bracketOf?_of_heading (headed_declared x).2 (by decide) (by decide)
    have himplied : bracketOf? (implied x p) = none :=
      bracketOf?_of_heading (headed_implied x p).2 (by decide) (by decide)
    have hreferred : bracketOf? (referred x p) = none :=
      bracketOf?_of_heading (headed_referred x p).2 (by decide) (by decide)
    rw [said_variable]
    split
    · simp [hdeclared, himplied, hreferred, bracket?]
    · simp [hreferred, bracket?]
  | _ => exact brackets_said_of_other s rfl nofun nofun

/-- A finding writes the record of a line if it is a line. -/
theorem numbers_said (s : Scopes) (f : Finding) :
    (f.said s).filter (LineBasic.heading · = .line) = f.number?.toList.map Record.line := by
  cases f with
  | line n => exact List.filter_cons_of_pos (decide_eq_true (headed_line n).2)
  | variable_ x p =>
    rw [said_variable]
    split
    · simp [(headed_declared x).2, (headed_implied x p).2, (headed_referred x p).2, number?]
    · simp [(headed_referred x p).2, number?]
  | _ => exact numbers_said_of_other s rfl nofun

/-- The brackets on record are the brackets among the findings, in their order. -/
theorem brackets_lines (s : Scopes) (fs : List Finding) :
    (lines s fs).filterMap bracketOf? = fs.filterMap bracket? := by
  induction fs generalizing s with
  | nil => rfl
  | cons f fs ih =>
    rw [lines_cons_said, List.filterMap_append, brackets_said, ih]
    cases hf : f.bracket? with
    | none => rw [List.filterMap_cons_none hf]; rfl
    | some b => rw [List.filterMap_cons_some hf]; rfl

/-- The lines on record are the lines among the findings, in their order. -/
theorem numbers_lines (s : Scopes) (fs : List Finding) :
    (lines s fs).filter (LineBasic.heading · = .line) = (fs.filterMap number?).map Record.line := by
  induction fs generalizing s with
  | nil => rfl
  | cons f fs ih =>
    rw [lines_cons_said, List.filter_append, numbers_said, ih]
    cases hf : f.number? with
    | none => rw [List.filterMap_cons_none hf]; rfl
    | some n => rw [List.filterMap_cons_some hf]; rfl

end Finding

-- ============================================================================
-- Faults
-- ============================================================================

/-- No fault starts like a record of the check. -/
theorem Fault.headed_text (fault : Fault) : Headed .other fault.text := by
  cases fault with
  | duplicateLine n => exact .append (by decide)
  | missingTarget j n => exact .append (.append (.append (by decide)))
  | textAssigned x => exact .append (by decide)
  | textCondition => decide
  | textBound bound => exact .append (.append (by decide))
  | textSigned sign => exact .append (.append (by decide))
  | mixedComparison l r => exact .append (.append (.append (by decide)))
  | textArithmetic op => exact .append (.append (by decide))
  | unknownFunction x => exact .append (by decide)
  | wrongArity x expected found => exact .append (.append (.append (.append (.append (by decide)))))
  | textArgument x => exact .append (.append (by decide))
  | comparisonArgument x => exact .append (.append (by decide))
  | outOfDomain x value why =>
    exact .append (.append (.append (.append (.append (.append (by decide))))))

theorem CheckError.heading_message (e : CheckError) : heading e.message = .other :=
  (Headed.append (.append e.fault.headed_text)).2

-- ============================================================================
-- Journals of checks
-- ============================================================================

namespace Check

variable {α : Type} {x : Check α} {name : String}

open Record

/-- The journal of a check, and a fault behind it or nothing. -/
theorem exists_log (x : Check α) :
    ∃ rest, x.log = Finding.lines .initial x.notes ++ rest ∧
      ∀ line ∈ rest, heading line = .other := by
  unfold log
  cases x.outcome with
  | ok a => exact ⟨[], rfl, nofun⟩
  | error e => exact ⟨[e.message], rfl, List.forall_mem_singleton.2 e.heading_message⟩

/-- What has a heading of its own was written by a finding, not by the fault at the end. -/
theorem mem_log {line : String} {h : Heading} (hline : heading line = h) (hother : h ≠ .other) :
    line ∈ x.log ↔ line ∈ Finding.lines .initial x.notes := by
  obtain ⟨rest, hlog, hrest⟩ := exists_log x
  rw [hlog, List.mem_append, or_iff_left]
  exact fun hmem => hother (hline.symm.trans (hrest line hmem))

theorem declared_mem_log : declared name ∈ x.log ↔ name ∈ x.notes.filterMap Finding.variable? := by
  have hnew : Scopes.initial.isNew name = true := by simp [Scopes.isNew, Scopes.initial]
  rw [mem_log (headed_declared name).2 (by decide), Finding.declared_mem_lines]
  exact and_iff_right hnew

theorem referred_mem_log {pos : Position} :
    referred name pos ∈ x.log ↔ .variable_ name pos ∈ x.notes := by
  rw [mem_log (headed_referred name pos).2 (by decide), Finding.referred_mem_lines]

/-- Every declaration comes first and once, with the two other lines behind it. -/
theorem of_declared {before after : List String} (h : x.log = before ++ declared name :: after) :
    (∃ pos rest, after = implied name pos :: referred name pos :: rest) ∧
      declared name ∉ before ∧ declared name ∉ after ∧ ∀ pos, referred name pos ∉ before := by
  obtain ⟨rest, hlog, hrest⟩ := exists_log x
  have hother : declared name ∉ rest := fun hmem =>
    absurd ((headed_declared name).2.symm.trans (hrest _ hmem)) (by decide)
  rw [hlog] at h
  rcases append_eq_append_cons h with ⟨more, hlines, rfl⟩ | ⟨more, -, hmore⟩
  · obtain ⟨front, pos, later, hnotes, hnew, rfl, rfl⟩ := Finding.exists_of_declared hlines
    obtain ⟨-, hunmet⟩ := Finding.isNew_scopeAll.1 hnew
    refine ⟨⟨pos, _, rfl⟩, ?_, ?_, ?_⟩
    · rw [Finding.declared_mem_lines]
      exact fun hmem => hunmet hmem.2
    · -- Behind its declaration a variable is no longer new.
      have hmet : ¬ ((Finding.variable_ name pos).scope
          (Finding.scopeAll .initial front)).isNew name = true := fun hstill => (Finding.isNew_scope.1 hstill).2 rfl
      rw [List.mem_append, List.mem_cons, List.mem_cons, Finding.declared_mem_lines]
      rintro ((hmem | hmem | hmem) | hmem)
      · exact Finding.declared_ne_implied _ _ _ hmem
      · exact Finding.declared_ne_referred _ _ _ hmem
      · exact hmet hmem.1
      · exact hother hmem
    · intro q
      rw [Finding.referred_mem_lines]
      exact fun hmem => hunmet (List.mem_filterMap.2 ⟨_, hmem, rfl⟩)
  · refine absurd ?_ hother
    rw [hmore]
    exact List.mem_append_right _ (List.mem_cons_self ..)

/-- The brackets of a whole journal are those of the findings. -/
theorem brackets_log : x.log.filterMap Finding.bracketOf? = x.notes.filterMap Finding.bracket? := by
  obtain ⟨rest, hlog, hrest⟩ := exists_log x
  have hnone : rest.filterMap Finding.bracketOf? = [] := by
    rw [List.filterMap_eq_nil_iff]
    intro line hline
    exact Finding.bracketOf?_of_heading (hrest line hline) (by decide) (by decide)
  rw [hlog, List.filterMap_append, hnone, List.append_nil, Finding.brackets_lines]

theorem numbers_log :
    x.log.filter (heading · = .line) = (x.notes.filterMap Finding.number?).map Record.line := by
  obtain ⟨rest, hlog, hrest⟩ := exists_log x
  have hnone : rest.filter (heading · = .line) = [] := by
    rw [List.filter_eq_nil_iff]
    intro line hline
    rw [hrest line hline]
    decide
  rw [hlog, List.filter_append, hnone, List.append_nil, Finding.numbers_lines]

/-- Every front of a journal comes from a front of the findings, so no body is left that has not
    been entered. -/
theorem count_bodyEnd_le {fs : List Finding} {n : Nat} (hx : x.KeepsTo fs)
    (hfs : Nested (fs.filterMap Finding.bracket?) n) {front : List String}
    (hfront : front <+: x.log) : front.count "ScopeExit" ≤ front.count "ScopeEnter" := by
  have hbrackets := hfront.filterMap Finding.bracketOf?
  rw [brackets_log] at hbrackets
  rw [← (Finding.count_brackets front).1, ← (Finding.count_brackets front).2]
  exact hfs.never_ahead _ (hbrackets.trans (hx.front.filterMap Finding.bracket?))

theorem getLast?_log {e : CheckError} (h : x.outcome = .error e) :
    x.log.getLast? = some e.message := by
  unfold log
  rw [h]
  exact List.getLast?_concat

end Check

/-- What a journal has to do with the outcome of the check that it is of.  A variable is declared
    once, in front of everything else that is said of it, and what is said next is that it was
    used at some place.  No loop body is left that was not entered.  If the check goes through, the
    variables are those of the inventory, every loop has its two brackets, and the lines are told
    of in their order and each of them once.  If it fails, the fault comes last. -/
structure Recounts (p : Program) (outcome : Except CheckError Inventory) (log : List String) :
    Prop where
  declaration : ∀ name before after, log = before ++ Record.declared name :: after →
    (∃ pos rest, after = Record.implied name pos :: Record.referred name pos :: rest) ∧
      Record.declared name ∉ before ∧ Record.declared name ∉ after ∧
      ∀ pos, Record.referred name pos ∉ before
  reference : ∀ name pos, Record.referred name pos ∈ log → Record.declared name ∈ log
  nesting : ∀ front, front <+: log → front.count "ScopeExit" ≤ front.count "ScopeEnter"
  names : ∀ found, outcome = .ok found → ∀ name, Record.declared name ∈ log ↔ name ∈ found.names
  loops : ∀ found, outcome = .ok found →
    log.count "ScopeEnter" = p.loops ∧ log.count "ScopeExit" = p.loops
  lines : ∀ found, outcome = .ok found →
    log.filter (heading · = .line) = p.lines.map (fun l => Record.line l.number) ∧
      ∀ l ∈ p.lines, log.count (Record.line l.number) = 1
  fault : ∀ e, outcome = .error e → log.getLast? = some e.message

namespace Program

variable {p : Program} {strict : Bool} {u : Unit}

theorem nested_findings (p : Program) (strict : Bool) :
    Nested ((p.findings strict).filterMap Finding.bracket?) p.loops := nested_lineFindings p.lines

theorem declared_mem_log (h : (p.check strict).outcome = .ok u) (name : String) :
    Record.declared name ∈ (p.check strict).log ↔ name ∈ p.inventory.names := by
  rw [Check.declared_mem_log, (p.meets_check strict u h).1]
  exact Ascending.mem_ofList.symm

/-- An accepted program enters and leaves as many bodies as it has loops. -/
theorem count_brackets_log (h : (p.check strict).outcome = .ok u) :
    (p.check strict).log.count "ScopeEnter" = p.loops ∧
      (p.check strict).log.count "ScopeExit" = p.loops := by
  have hnested := p.nested_findings strict
  rw [← (p.keepsTo_check strict).whole u h, ← Check.brackets_log] at hnested
  obtain ⟨henter, hexit⟩ := Finding.count_brackets (p.check strict).log
  exact ⟨henter ▸ hnested.opened, hexit ▸ hnested.closed⟩

theorem filter_line_log (h : (p.check strict).outcome = .ok u) :
    (p.check strict).log.filter (heading · = .line)
      = p.lines.map (fun l => Record.line l.number) := by
  rw [Check.numbers_log, (p.keepsTo_check strict).whole u h, findings, numbers_lineFindings,
    List.map_map]
  rfl

/-- No two lines of an accepted program share a number, so each is on record once. -/
theorem count_line_log (h : (p.check strict).outcome = .ok u) {l : Line} (hl : l ∈ p.lines) :
    (p.check strict).log.count (Record.line l.number) = 1 := by
  have hdistinct := (repeated?_eq_none_iff.1 (Analyst.repeated?_of_check h)).2
  have hrecords : (p.lines.map fun l => Record.line l.number).Nodup := by
    have hmap := hdistinct.map fun _ _ => Record.line_inj
    rwa [List.map_map] at hmap
  calc (p.check strict).log.count (Record.line l.number)
      = ((p.check strict).log.filter (heading · = .line)).count (Record.line l.number) :=
        (List.count_filter (by simp [(Record.headed_line l.number).2])).symm
    _ = (p.lines.map fun l => Record.line l.number).count (Record.line l.number) := by
        rw [filter_line_log h]
    _ = 1 := List.count_eq_one_of_mem hrecords (List.mem_map_of_mem hl)

end Program

/-- Whatever an analyst remembers, what a program's check writes down is in keeping with what it
    comes to. -/
theorem Visit.recounts_log (a : Analyst) (p : Program) :
    let done := (workOn p).run.run (a, .ofJournal (.into .unbounded))
    done.2.2.journal.received = transcript (a.visit p).1.log ∧
      Recounts p done.1 (a.visit p).1.log := by
  have hchecked : ∀ found, (a.visit p).1.outcome = .ok found →
      (p.check a.strict).outcome = .ok () ∧ found = p.inventory := by
    intro found hfound
    rw [Analyst.visit_fst] at hfound
    cases hcheck : (p.check a.strict).outcome with
    | error e => rw [hcheck] at hfound; cases hfound
    | ok u => rw [hcheck] at hfound; cases hfound; exact ⟨rfl, rfl⟩
  have hrefused : ∀ e, (a.visit p).1.outcome = .error e →
      (p.check a.strict).outcome = .error e := by
    intro e he
    rw [Analyst.visit_fst] at he
    cases hcheck : (p.check a.strict).outcome with
    | error e' => rw [hcheck] at he; cases he; rfl
    | ok u => rw [hcheck] at he; cases he
  intro done
  have hdone : done = ((a.visit p).1.outcome, ((a.visit p).2, _)) := run_workOn p a _
  refine ⟨?_, ?_⟩
  · rw [hdone, Desk.journal_enterAll]
    exact Journal.received_after_unbounded _
  · rw [hdone, Analyst.log_visit]
    exact
      { declaration := fun name before after h => Check.of_declared h
        reference := fun name pos h =>
          Check.declared_mem_log.2 (List.mem_filterMap.2 ⟨_, Check.referred_mem_log.1 h, rfl⟩)
        nesting := fun front h =>
          Check.count_bodyEnd_le (p.keepsTo_check _) (p.nested_findings _) h
        names := fun found h => by
          obtain ⟨hcheck, rfl⟩ := hchecked found h
          exact Program.declared_mem_log hcheck
        loops := fun found h => Program.count_brackets_log (hchecked found h).1
        lines := fun found h =>
          ⟨Program.filter_line_log (hchecked found h).1,
            fun l hl => Program.count_line_log (hchecked found h).1 hl⟩
        fault := fun e h => Check.getLast?_log (hrefused e h) }

end LineBasic
