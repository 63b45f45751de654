/-
  LineBasic.Proofs.Acceptance

  Programs that pass the check can still fail to have code for three reasons only:
  a decision on something other than a comparison, a statement that must not stand
  in a loop, and a subroutine inside itself.  Simplification in between changes
  nothing about that.
-/

import LineBasic.Compile
import LineBasic.Proofs.Faults
import LineBasic.Proofs.Listing

namespace LineBasic

/-- Whether a fault is one that checking leaves to the lowering. -/
def LowerError.isLeftByCheck : LowerError → Bool
  | conditionNotComparison _ => true
  | unsupportedInLoop _ => true
  | recursiveGosub _ => true
  | textAsNumber _ => false
  | unknownFunction _ _ => false
  | wrongArity _ _ _ _ => false
  | undeclaredVariable _ => false
  | missingText _ => false

-- ============================================================================
-- Making code of typed programs
-- ============================================================================

/-- The faults of a typed program are those that checking leaves. -/
theorem Program.Typed.admits {p : Program} {inventory : Inventory}
    (h : p.Typed inventory.names inventory.texts) :
    (p.env inventory).Admits fun e => e.isLeftByCheck = true where
  typed l hl s hs := by
    have hline : l ∈ p.lines := List.mem_of_find?_eq_some (mem_listing_iff.1 hl)
    exact h l hline s (Env.mem_of_mem_emitted hs)
  form _ _ _ _ := .inr fun _ => ⟨rfl, rfl⟩
  recurs _ _ := rfl

/-- A typed program has code, or a fault that checking leaves. -/
theorem Program.Typed.isLeftByCheck {p : Program} {inventory : Inventory}
    (h : p.Typed inventory.names inventory.texts) {e : LowerError}
    (he : (p.lower inventory).outcome = .error e) : e.isLeftByCheck = true := by
  have hmodule := Program.lower_of_admits h.admits
  rw [he] at hmodule
  exact hmodule

-- ============================================================================
-- Compiling
-- ============================================================================

/-- Whether a fault is one in which the compilation of a text can end. -/
def CompileError.isOfText : CompileError → Bool
  | scan _ => true
  | read _ => true
  | check _ => true
  | lower e => e.isLeftByCheck
  | source _ => false

namespace Compilation

/-- A compilation ends with a result that satisfies `post`, or with a fault of the
    text. -/
def Ends {α : Type} (c : Compilation α) (post : α → Prop) : Prop :=
  ∀ progress,
    match (c.run.run progress).1 with
    | .ok a => post a
    | .error e => e.isOfText = true

variable {α β ε : Type}

theorem Ends.pure {a : α} {post : α → Prop} (h : post a) : Ends (pure a) post :=
  fun _ => h

/-- Steps that end well, one after the other: the second one may rely on what the first left. -/
theorem Ends.bind {c : Compilation α} {f : α → Compilation β} {mid : α → Prop} {post : β → Prop}
    (hc : Ends c mid) (hf : ∀ a, mid a → Ends (f a) post) : Ends (c >>= f) post := by
  intro progress
  have hmid := hc progress
  rw [ExceptT.run_bind, StateT.run_bind]
  rcases hrun : c.run.run progress with ⟨r, progress'⟩
  rw [hrun] at hmid
  cases r with
  | error e => exact hmid
  | ok a => exact hf a hmid progress'

theorem Ends.report {d : Diagnostic} : Ends (report d) fun _ => True := fun _ => trivial

theorem Ends.feed {phase : Phase} {entries : List Journal.Entry} :
    Ends (feed phase entries) fun _ => True := fun _ => trivial

/-- A result that may fail is taken over, if its faults are faults of the text. -/
theorem Ends.take {fault : ε → CompileError} {x : Except ε α}
    (h : ∀ e, x = .error e → (fault e).isOfText = true) :
    Ends (take fault x) fun a => x = .ok a := by
  intro progress
  cases x with
  | ok a => rfl
  | error e => exact h e rfl

theorem ends_scan {source : String} : Ends (scan source) fun _ => True :=
  .bind .feed fun _ _ => .bind (.take fun _ _ => rfl) fun _ _ => .bind .report fun _ _ =>
    .pure trivial

theorem ends_read {tokens : List Token} : Ends (read tokens) fun _ => True :=
  .bind .feed fun _ _ => .bind (.take fun _ _ => rfl) fun _ _ => .bind .report fun _ _ =>
    .pure trivial

/-- What passes the check is typed over the inventory that comes out of it. -/
theorem ends_check {settings : Settings} {p : Program} :
    Ends (check settings p) fun inventory => p.Typed inventory.names inventory.texts :=
  .bind .feed fun _ _ => .bind (.take fun _ _ => rfl) fun _ h => .bind .report fun _ _ =>
    .pure (Analysis.typed h)

/-- Simplified or not, a typed program stays typed. -/
theorem ends_simplify {settings : Settings} {p : Program} {inventory : Inventory}
    (h : p.Typed inventory.names inventory.texts) :
    Ends (simplify settings p) fun q => q.Typed inventory.names inventory.texts := by
  unfold Compilation.simplify
  split
  · exact .bind .report fun _ _ => .pure h.simplify
  · exact .pure h

/-- Lowering a typed program fails only at a fault of the text. -/
theorem ends_lower {p : Program} {inventory : Inventory}
    (h : p.Typed inventory.names inventory.texts) : Ends (lower inventory p) fun _ => True :=
  .bind .feed fun _ _ => .bind (.take fun _ he => h.isLeftByCheck he) fun _ _ =>
    .bind .report fun _ _ => .pure trivial

theorem ends_compile {settings : Settings} {source : String} :
    Ends (compile settings source) fun _ => True :=
  .bind ends_scan fun _ _ => .bind ends_read fun _ _ => .bind ends_check fun _ h =>
    .bind (ends_simplify h) fun _ hq => ends_lower hq

end Compilation

/-- Compiling a text ends in a module, in a fault of scanning, reading or checking, or
    in a fault of lowering that checking leaves.  The same holds of the code of any
    accepted program made with the inventory of its analysis, simplified or not. -/
theorem compile_faults :
    (∀ settings journals source e, (compile settings journals source).outcome = .error e →
      e.isOfText = true) ∧
    ∀ p strict inventory, (Analysis.of p strict).outcome = .ok inventory →
      ∀ q ∈ [p, p.simplify], ∀ e,
        ((Generator.mk (some inventory)).generate q).1.outcome = .error e →
          e.isLeftByCheck = true := by
  constructor
  · intro settings journals source e he
    have hrun : ((Compilation.compile settings source).run.run ⟨journals, []⟩).1 = .error e := he
    have hends := @Compilation.ends_compile settings source ⟨journals, []⟩
    rw [hrun] at hends
    exact hends
  · intro p strict inventory h q hq e he
    have hp : p.Typed inventory.names inventory.texts := Analysis.typed h
    have hqt : q.Typed inventory.names inventory.texts := by
      rcases List.mem_cons.1 hq with rfl | hq
      · exact hp
      · rw [List.mem_singleton.1 hq]
        exact hp.simplify
    exact hqt.isLeftByCheck he

/-- A program that compares texts, calls a function, jumps nowhere, has something to
    simplify, and decides on a number. -/
def Program.drill : Program :=
  let start : Position := ⟨1, 1⟩
  ⟨[⟨10, [.print start (.text start "A"),
      .assign start "X" (.binary start (.arith .add)
        (.call start "SIN" [.var start "X"]) (.number start 0.0)),
      .ifThen start (.binary start (.compare .lt) (.text start "A") (.text start "B")) 99,
      .ifThen start (.var start "X") 10], start⟩]⟩

theorem compile_faults_drill :
    (Analysis.of .drill false).outcome = .ok (Program.inventory .drill) ∧
    ∃ e, ((Generator.mk (some (Program.inventory .drill))).generate
        (Program.simplify .drill)).1.outcome = .error e ∧ e.isLeftByCheck = true := by
  have hcheck : (Analysis.of .drill false).outcome = .ok (Program.inventory .drill) := by
    decide +kernel
  refine ⟨hcheck, .conditionNotComparison ⟨1, 1⟩, ?_⟩
  have herror : ((Generator.mk (some (Program.inventory .drill))).generate
      (Program.simplify .drill)).1.outcome = .error (.conditionNotComparison ⟨1, 1⟩) := by
    decide +kernel
  exact ⟨herror, compile_faults.2 .drill false _ hcheck _ (by simp) _ herror⟩

end LineBasic
