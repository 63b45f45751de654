/-
  LineBasic.Proofs.Strictness

  One program under both judgements.  A lenient check goes on behind a jump that leads
  nowhere and leaves a warning; a strict check ends there.  Up to the first such jump
  the two go in lockstep (`Check.Hardens`), item by item, so the strict run is known from
  the lenient one: it is the same run, or its beginning up to the first warning.
-/

import LineBasic.Proofs.Collection
import LineBasic.Proofs.Pipeline
import LineBasic.Proofs.Transcripts

namespace LineBasic

-- ============================================================================
-- Lenient and strict checks
-- ============================================================================

/-- No finding is a fault to a strict check. -/
def Finding.Harmless (fs : List Finding) : Prop := ∀ f ∈ fs, f.missing? = none

/-- The second check is the first one up to the first jump that leads nowhere, and fails
    there. -/
inductive Check.Hardens {α : Type} (x : Check α) : Check α → Prop
  | same (harmless : Finding.Harmless x.notes) : Hardens x x
  | halted {before after : List Finding} {f : Finding} {e : CheckError}
      (notes : x.notes = before ++ f :: after) (harmless : Finding.Harmless before)
      (fault : f.missing? = some e) : Hardens x ⟨before, .error e⟩

theorem Finding.Harmless.append {fs gs : List Finding} (hf : Harmless fs) (hg : Harmless gs) :
    Harmless (fs ++ gs) := by
  intro f hmem
  rcases List.mem_append.1 hmem with hmem | hmem
  · exact hf f hmem
  · exact hg f hmem

namespace Check.Hardens

variable {α β : Type}

/-- The notes of a first step that is halted stay in front, whatever comes behind it. -/
theorem halted_bind {x : Check α} {f : α → Check β} {before after : List Finding} {g : Finding}
    {e : CheckError} (notes : x.notes = before ++ g :: after) (harmless : Finding.Harmless before)
    (fault : g.missing? = some e) : Hardens (x >>= f) ⟨before, .error e⟩ := by
  cases h : x.outcome with
  | error e' =>
    rw [Traced.bind_of_error h]
    exact .halted notes harmless fault
  | ok a =>
    rw [Traced.bind_of_ok h]
    have hnotes : x.notes ++ (f a).notes = before ++ g :: (after ++ (f a).notes) := by
      rw [notes, List.append_assoc, List.cons_append]
    exact .halted hnotes harmless fault

/-- Two checks in a row: if the first is halted the whole is, and otherwise the second decides. -/
theorem bind {x y : Check α} {f g : α → Check β} (hx : Hardens x y)
    (hf : ∀ a, Hardens (f a) (g a)) : Hardens (x >>= f) (y >>= g) := by
  cases hx with
  | halted notes harmless fault => exact halted_bind notes harmless fault
  | same harmless =>
    cases h : x.outcome with
    | error e =>
      rw [Traced.bind_of_error h, Traced.bind_of_error h]
      exact .same harmless
    | ok a =>
      rw [Traced.bind_of_ok h, Traced.bind_of_ok h]
      have hrest := hf a
      generalize f a = fa at hrest
      generalize g a = ga at hrest
      cases hrest with
      | same harmless' => exact .same (harmless.append harmless')
      | @halted before after g e notes' harmless' fault =>
        have hnotes : x.notes ++ fa.notes = (x.notes ++ before) ++ g :: after := by
          rw [notes', List.append_assoc]
        exact .halted hnotes (harmless.append harmless') fault

end Check.Hardens

open Check

namespace Check

/-- The two judgements part where a jump leads nowhere, and nowhere else. -/
theorem Item.hardens_run (i : Item) : Hardens (i.run false) (i.run true) := by
  cases i with
  | meet f harmless =>
    refine .same fun g hg => ?_
    rw [List.mem_singleton.1 hg]
    exact harmless
  | demand holds e => cases holds <;> exact .same nofun
  | lead known jump target pos =>
    cases known with
    | true => exact .same nofun
    | false =>
      have hnotes : (Traced.note (.missing jump target pos) : Check Unit).notes =
          [] ++ .missing jump target pos :: [] := rfl
      exact .halted hnotes nofun rfl

/-- Strict and lenient go in lockstep over a list of items. -/
theorem hardens_runItems (is : List Item) : Hardens (runItems false is) (runItems true is) := by
  induction is with
  | nil => exact .same nofun
  | cons i is ih => exact .bind i.hardens_run fun _ => ih

end Check

/-- The strict check of a program is its lenient check up to the first jump that leads
    nowhere. -/
theorem Program.hardens_check (p : Program) : Hardens (p.check false) (p.check true) := by
  rw [p.check_eq_runItems, p.check_eq_runItems]
  exact hardens_runItems p.items

-- ============================================================================
-- What the two say
-- ============================================================================

/-- The lines that an analysis writes into its journal. -/
def Analysis.log (a : Analysis) : List String := a.entries.filterMap Journal.Entry.line?

/-- A line of a journal that is a warning. -/
def IsWarning (line : String) : Prop := "Warning:".toList <+: line.toList

instance (line : String) : Decidable (IsWarning line) := inferInstanceAs (Decidable (_ <+: _))

/-- How a fault is written as a warning. -/
def CheckError.warning (e : CheckError) : String := s!"Warning: {e.fault.text} @ {e.pos.text}"

/-- A text that starts with another character than a warning. -/
def OpensPlain (s : String) : Prop := s.toList.head?.any (· ≠ 'W') = true

instance (s : String) : Decidable (OpensPlain s) := inferInstanceAs (Decidable (_ = true))

/-- How a text starts does not depend on its end. -/
theorem OpensPlain.append {s t : String} (h : OpensPlain s) : OpensPlain (s ++ t) := by
  rw [OpensPlain] at h ⊢
  rw [String.toList_append, List.head?_append]
  cases hfirst : s.toList.head? with
  | none =>
    rw [hfirst] at h
    cases h
  | some c =>
    rw [hfirst] at h
    exact h

theorem OpensPlain.not_isWarning {s : String} (h : OpensPlain s) : ¬ IsWarning s := by
  rintro ⟨rest, hrest⟩
  rw [OpensPlain, ← hrest] at h
  exact Bool.false_ne_true h

namespace Finding

/-- The lines that findings write into the journal. -/
def lines (s : Scopes) (fs : List Finding) : List String :=
  (entriesAll s fs).filterMap Journal.Entry.line?

/-- What findings say depends on the findings in front of them only by the scopes these leave. -/
theorem entriesAll_append (s : Scopes) (fs gs : List Finding) :
    entriesAll s (fs ++ gs) = entriesAll s fs ++ entriesAll (scopeAll s fs) gs := by
  induction fs generalizing s with
  | nil => rfl
  | cons f fs ih =>
    rw [List.cons_append, entriesAll, entriesAll, ih, List.append_assoc]
    rfl

theorem lines_append (s : Scopes) (fs gs : List Finding) :
    lines s (fs ++ gs) = lines s fs ++ lines (scopeAll s fs) gs := by
  rw [lines, entriesAll_append, List.filterMap_append]
  rfl

theorem lines_cons (s : Scopes) (f : Finding) (fs : List Finding) :
    lines s (f :: fs) = (f.entries s).filterMap Journal.Entry.line? ++ lines (f.scope s) fs := by
  rw [lines, entriesAll, List.filterMap_append]
  rfl

/-- A jump that leads nowhere writes its warning and nothing else. -/
theorem line_of_missing? {s : Scopes} {f : Finding} {e : CheckError} (h : f.missing? = some e) :
    (f.entries s).filterMap Journal.Entry.line? = [e.warning] := by
  cases f with
  | missing j target pos =>
    cases h
    rfl
  | _ => cases h

/-- Nothing else that is found starts like a warning. -/
theorem opensPlain_of_missing? {s : Scopes} {f : Finding} (h : f.missing? = none) :
    ∀ line ∈ (f.entries s).filterMap Journal.Entry.line?, OpensPlain line := by
  cases f with
  | missing j target pos => cases h
  | line n => exact List.forall_mem_singleton.2 (.append (by decide))
  | variable_ x pos =>
    have href : ∀ line ∈ [s!"VarRef {x} @ {pos.text}"], OpensPlain line :=
      List.forall_mem_singleton.2 (.append (.append (.append (by decide))))
    rw [entries, List.filterMap_append]
    refine List.forall_mem_append.2 ⟨?_, href⟩
    split
    · exact List.forall_mem_cons.2 ⟨.append (by decide),
        List.forall_mem_singleton.2 (.append (.append (.append (by decide))))⟩
    · exact nofun
  | literal t pos => exact List.forall_mem_singleton.2 (.append (by decide))
  | call x pos => exact List.forall_mem_singleton.2 (.append (.append (.append (by decide))))
  | jump j target pos =>
    have hname : OpensPlain j.formName := by cases j <;> decide
    exact List.forall_mem_singleton.2 (.append (.append (.append (.append hname))))
  | loop x pos => exact List.forall_mem_singleton.2 (.append (.append (.append (by decide))))
  | bodyStart => exact List.forall_mem_singleton.2 (by decide)
  | bodyEnd => exact List.forall_mem_singleton.2 (by decide)
  | returned pos => exact List.forall_mem_singleton.2 (.append (by decide))
  | ended pos => exact List.forall_mem_singleton.2 (.append (by decide))

/-- Findings that are no faults to a strict check leave no warning. -/
theorem Harmless.not_isWarning {fs : List Finding} {s : Scopes} (h : Harmless fs) :
    ∀ line ∈ lines s fs, ¬ IsWarning line := by
  induction fs generalizing s with
  | nil => exact nofun
  | cons f fs ih =>
    intro line hline
    rw [lines_cons] at hline
    rcases List.mem_append.1 hline with hline | hline
    · exact (opensPlain_of_missing? (h f (List.mem_cons_self ..)) line hline).not_isWarning
    · exact ih (fun g hg => h g (List.mem_cons_of_mem _ hg)) line hline

end Finding

theorem CheckError.isWarning_warning (e : CheckError) : IsWarning e.warning := by
  rw [IsWarning, warning, String.toList_append, String.toList_append, String.toList_append,
    List.append_assoc, List.append_assoc]
  exact (show "Warning:".toList <+: "Warning: ".toList by decide).trans (List.prefix_append _ _)

/-- No fault starts like a warning. -/
theorem Fault.opensPlain_text (fault : Fault) : OpensPlain fault.text := by
  cases fault with
  | duplicateLine n => exact .append (by decide)
  | missingTarget j n => exact .append (.append (.append (by decide)))
  | textAssigned x => exact .append (by decide)
  | textCondition => decide
  | textBound bound => exact .append (.append (by decide))
  | textSigned sign => exact .append (.append (by decide))
  | mixedComparison l r => exact .append (.append (.append (by decide)))
  | textArithmetic op => exact .append (.append (by decide))
  | unknownFunction x => exact .append (by decide)
  | wrongArity x expected found => exact .append (.append (.append (.append (.append (by decide)))))
  | textArgument x => exact .append (.append (by decide))
  | comparisonArgument x => exact .append (.append (by decide))
  | outOfDomain x value why =>
    exact .append (.append (.append (.append (.append (.append (by decide))))))

theorem CheckError.not_isWarning_message (e : CheckError) : ¬ IsWarning e.message :=
  OpensPlain.not_isWarning (.append (.append e.fault.opensPlain_text))

/-- What a check writes into the journal. -/
def Check.log {α : Type} (x : Check α) : List String :=
  Finding.lines .initial x.notes ++
    match x.outcome with
    | .ok _ => []
    | .error e => [e.message]

/-- What an analyst says of a program does not depend on what it met before. -/
theorem Analyst.log_visit (a : Analyst) (p : Program) :
    (a.visit p).1.log = (p.check a.strict).log := by
  rw [visit_fst, Analysis.log, Analysis.entries, List.filterMap_append, Check.log]
  congr 1
  cases (p.check a.strict).outcome with
  | ok u => rfl
  | error e => rfl

-- ============================================================================
-- The two journals
-- ============================================================================

/-- Two ways to split a list at the first element with a property are one. -/
theorem eq_of_first {α : Type} {p : α → Prop} {xs xs' ys ys' : List α} {x y : α}
    (h : xs ++ x :: xs' = ys ++ y :: ys') (hxs : ∀ a ∈ xs, ¬ p a) (hx : p x)
    (hys : ∀ a ∈ ys, ¬ p a) (hy : p y) : xs = ys ∧ x = y := by
  rcases List.append_eq_append_iff.1 h with ⟨zs, hzs, htail⟩ | ⟨zs, hzs, htail⟩
  · cases zs with
    | nil =>
      rw [List.append_nil] at hzs
      exact ⟨hzs.symm, (List.cons.inj htail).1⟩
    | cons z zs =>
      obtain ⟨rfl, -⟩ := List.cons.inj htail
      exact absurd hx (hys x (hzs ▸ List.mem_append_right _ (List.mem_cons_self ..)))
  · cases zs with
    | nil =>
      rw [List.append_nil] at hzs
      exact ⟨hzs, (List.cons.inj htail).1.symm⟩
    | cons z zs =>
      obtain ⟨rfl, -⟩ := List.cons.inj htail
      exact absurd hy (hxs y (hzs ▸ List.mem_append_right _ (List.mem_cons_self ..)))

namespace Check

variable {α : Type} {x y : Check α}

/-- A check without such findings leaves no warning, its fault included. -/
theorem not_isWarning_of_harmless (h : Finding.Harmless x.notes) :
    ∀ line ∈ x.log, ¬ IsWarning line := by
  intro line hline
  rcases List.mem_append.1 hline with hline | hline
  · exact h.not_isWarning line hline
  · split at hline
    · cases hline
    · next e _ =>
      rw [List.mem_singleton.1 hline]
      exact e.not_isWarning_message

theorem exists_log_of_missing {before after : List Finding} {f : Finding} {e : CheckError}
    (notes : x.notes = before ++ f :: after) (fault : f.missing? = some e) :
    ∃ rest, x.log = Finding.lines .initial before ++ e.warning :: rest := by
  rw [log, notes, Finding.lines_append, Finding.lines_cons, Finding.line_of_missing? fault,
    List.append_assoc, List.append_assoc]
  exact ⟨_, rfl⟩

/-- Where the lenient check gives no warning, the strict one is the same. -/
theorem Hardens.eq_of_no_warning (h : Hardens x y) (quiet : ∀ line ∈ x.log, ¬ IsWarning line) :
    y = x := by
  cases h with
  | same _ => rfl
  | @halted before after f e notes harmless fault =>
    obtain ⟨rest, hlog⟩ := exists_log_of_missing notes fault
    have hmem : e.warning ∈ x.log := by
      rw [hlog]
      exact List.mem_append_right _ (List.mem_cons_self ..)
    exact absurd e.isWarning_warning (quiet _ hmem)

/-- Where the lenient check gives a warning, the strict one stops with the fault of the first. -/
theorem Hardens.eq_of_first_warning (h : Hardens x y) {before after : List String} {line : String}
    (split : x.log = before ++ line :: after) (quiet : ∀ l ∈ before, ¬ IsWarning l)
    (first : IsWarning line) :
    ∃ e, line = e.warning ∧ y.outcome = .error e ∧ y.log = before ++ [e.message] := by
  cases h with
  | same harmless =>
    refine absurd first (not_isWarning_of_harmless harmless line ?_)
    rw [split]
    exact List.mem_append_right _ (List.mem_cons_self ..)
  | @halted before' after' f e notes harmless fault =>
    obtain ⟨rest, hlog⟩ := exists_log_of_missing notes fault
    have hquiet := harmless.not_isWarning (s := .initial)
    obtain ⟨rfl, rfl⟩ := eq_of_first (split.symm.trans hlog) quiet first hquiet e.isWarning_warning
    exact ⟨e, rfl, rfl, rfl⟩

theorem Hardens.eq_of_ok {a : α} (h : Hardens x y) (hy : y.outcome = .ok a) : y = x := by
  cases h with
  | same _ => rfl
  | halted _ _ _ => cases hy

end Check

-- ============================================================================
-- Both judgements on one program
-- ============================================================================

/-- What a strict analysis accepts a lenient one accepts, with the same inventory. -/
theorem Analysis.of_of_strict {p : Program} {inventory : Inventory}
    (h : (of p true).outcome = .ok inventory) : (of p false).outcome = .ok inventory := by
  cases hchecked : (p.check true).outcome with
  | error e =>
    rw [of, hchecked] at h
    cases h
  | ok u =>
    have heq : p.check true = p.check false := p.hardens_check.eq_of_ok hchecked
    rw [of, heq] at h
    exact h

/-- A strict analyst says what a lenient one says, as long as the lenient one gives no warning;
    otherwise it stops where the first warning would stand, and the fault is the one that the
    warning tells of.  So a text with a module under strict rules has the same one under
    lenient rules. -/
theorem Analyst.strict_until_warning {a b : Analyst} (ha : a.strict = false)
    (hb : b.strict = true) :
    (∀ p : Program, (∀ line ∈ (a.visit p).1.log, ¬ IsWarning line) →
      (b.visit p).1.outcome = (a.visit p).1.outcome ∧ (b.visit p).1.log = (a.visit p).1.log) ∧
    (∀ (p : Program) (before : List String) (line : String) (after : List String),
      (a.visit p).1.log = before ++ line :: after → (∀ l ∈ before, ¬ IsWarning l) →
      IsWarning line →
      ∃ e : CheckError, line = e.warning ∧ (b.visit p).1.outcome = .error e ∧
        (b.visit p).1.log = before ++ [e.message]) ∧
    ∀ simplify journals journals' source m,
      (compile ⟨true, simplify⟩ journals source).outcome = .ok m →
      (compile ⟨false, simplify⟩ journals' source).outcome = .ok m := by
  refine ⟨?_, ?_, ?_⟩
  · intro p hquiet
    rw [log_visit, ha] at hquiet
    have heq : p.check true = p.check false := p.hardens_check.eq_of_no_warning hquiet
    rw [log_visit, log_visit, visit_fst, visit_fst, ha, hb, heq]
    exact ⟨rfl, rfl⟩
  · intro p before line after hsplit hquiet hfirst
    rw [log_visit, ha] at hsplit
    obtain ⟨e, hline, houtcome, hlog⟩ :=
      p.hardens_check.eq_of_first_warning hsplit hquiet hfirst
    refine ⟨e, hline, ?_, ?_⟩
    · rw [visit_fst, hb, houtcome]
      rfl
    · rw [log_visit, hb, hlog]
  · intro simplify journals journals' source m h
    obtain ⟨tokens, htokens, program, hprogram, inventory, hinventory, hmodule⟩ :=
      compile_eq_ok_iff.1 h
    exact compile_eq_ok_iff.2 ⟨tokens, htokens, program, hprogram, inventory,
      Analysis.of_of_strict hinventory, hmodule⟩

namespace Analyst

/-- A program with a jump out of a loop to nowhere, another one behind it, and a text
    assigned in the end. -/
def astray : Program :=
  let start : Position := ⟨1, 1⟩
  ⟨[⟨10, [.forNext start "I" (.number start 1.0) (.number start 2.0) none [.goto start 99]], start⟩,
    ⟨20, [.gosub start 98, .assign start "X" (.text start "A")], start⟩]⟩

/-- What is said of the program in front of its first warning. -/
def astrayBefore : List String :=
  ["Line 10", "For var=I @ 1:1", "VarDecl I", "VarImplicitDecl I @ 1:1", "VarRef I @ 1:1",
    "ScopeEnter", "Goto target=99 @ 1:1"]

/-- What a lenient analyst says of it from the first warning on. -/
def astrayAfter : List String :=
  ["ScopeExit", "Line 20", "Gosub target=98 @ 1:1",
    "Warning: ControlFlowError: missing GOSUB target line 98 @ 1:1", "VarDecl X",
    "VarImplicitDecl X @ 1:1", "VarRef X @ 1:1", "StringLiteral @ 1:1",
    "TypeError: cannot assign string to numeric variable X at 1:1"]

/-- A program whose jumps lead somewhere. -/
def homeward : Program :=
  let start : Position := ⟨1, 1⟩
  ⟨[⟨10, [.gosub start 20, .end_ start], start⟩, ⟨20, [.input start "X", .return_ start], start⟩]⟩

theorem strict_until_warning_astray :
    ((fresh false).visit astray).1.log = astrayBefore ++
      "Warning: ControlFlowError: missing GOTO target line 99 @ 1:1" :: astrayAfter ∧
    (∃ e : CheckError, "Warning: ControlFlowError: missing GOTO target line 99 @ 1:1" = e.warning ∧
      ((fresh true).visit astray).1.outcome = .error e ∧
      ((fresh true).visit astray).1.log = astrayBefore ++ [e.message]) ∧
    ((fresh true).visit homeward).1.outcome = ((fresh false).visit homeward).1.outcome ∧
    ∃ m, (compile ⟨true, true⟩ .off "10 GOSUB 20\n20 RETURN").outcome = .ok m ∧
      (compile ⟨false, true⟩ .off "10 GOSUB 20\n20 RETURN").outcome = .ok m := by
  obtain ⟨hquiet, hwarned, hcompiled⟩ :=
    strict_until_warning (a := fresh false) (b := fresh true) rfl rfl
  have hlog : ((fresh false).visit astray).1.log = astrayBefore ++
      "Warning: ControlFlowError: missing GOTO target line 99 @ 1:1" :: astrayAfter := by
    decide +kernel
  have hbefore : ∀ l ∈ astrayBefore, ¬ IsWarning l := by decide +kernel
  have hhome : ∀ l ∈ ((fresh false).visit homeward).1.log, ¬ IsWarning l := by decide +kernel
  refine ⟨hlog, hwarned astray _ _ _ hlog hbefore (by decide +kernel),
    (hquiet homeward hhome).1, ?_⟩
  have hok : (compile ⟨true, true⟩ .off "10 GOSUB 20\n20 RETURN").outcome.isOk = true := by
    decide +kernel
  cases hm : (compile ⟨true, true⟩ .off "10 GOSUB 20\n20 RETURN").outcome with
  | error e =>
    rw [hm] at hok
    cases hok
  | ok m => exact ⟨m, rfl, hcompiled true .off .off _ m hm⟩

end Analyst

end LineBasic
