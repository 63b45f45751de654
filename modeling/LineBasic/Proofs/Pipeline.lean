/-
  LineBasic.Proofs.Pipeline

  What a compilation comes to depends on the text and the settings alone, not on the
  journals and not on what was said before: it is the result of the phases, one after
  the other.
-/

import LineBasic.Compile

namespace LineBasic

namespace Compilation

variable {α β ε : Type}

/-- A compilation comes to the result `r`, whatever progress was made before. -/
def ComesTo (c : Compilation α) (r : Except CompileError α) : Prop :=
  ∀ progress, (c.run.run progress).1 = r

/-- Steps one after the other come to what their results come to. -/
theorem ComesTo.bind {c : Compilation α} {f : α → Compilation β} {r : Except CompileError α}
    {g : α → Except CompileError β} (hc : ComesTo c r) (hf : ∀ a, ComesTo (f a) (g a)) :
    ComesTo (c >>= f) (r >>= g) := by
  intro progress
  have hfirst := hc progress
  rw [ExceptT.run_bind, StateT.run_bind]
  rcases hrun : c.run.run progress with ⟨first, progress'⟩
  rw [hrun] at hfirst
  subst hfirst
  cases first with
  | error e => rfl
  | ok a => exact hf a progress'

/-- A phase feeds its journal, takes its outcome and reports on it. -/
theorem ComesTo.phase {phase : Phase} {entries : List Journal.Entry} {fault : ε → CompileError}
    {x : Except ε α} {d : α → Diagnostic} :
    ComesTo (do
      Compilation.feed phase entries
      let a ← Compilation.take fault x
      Compilation.report (d a)
      return a) (x.mapError fault) := by
  intro progress
  cases x with
  | ok a => rfl
  | error e => rfl

/-- What compiling a text comes to. -/
def result (settings : Settings) (source : String) : Except CompileError Module := do
  let tokens ← (Scan.of source).result.mapError .scan
  let program ← (Program.read (.of tokens)).outcome.mapError .read
  let inventory ← (Analysis.of program settings.strict).outcome.mapError .check
  let program := if settings.simplify then program.simplify else program
  (program.lower inventory).outcome.mapError .lower

/-- Simplification never fails, and is left out if the settings say so. -/
theorem comesTo_simplify {settings : Settings} {p : Program} :
    ComesTo (simplify settings p) (.ok (if settings.simplify then p.simplify else p)) := by
  intro progress
  unfold simplify
  cases settings.simplify with
  | true => rfl
  | false => rfl

theorem comesTo_compile {settings : Settings} {source : String} :
    ComesTo (compile settings source) (result settings source) :=
  .bind .phase fun _ => .bind .phase fun _ => .bind .phase fun _ =>
    .bind comesTo_simplify fun _ => .phase

end Compilation

/-- What a compilation comes to does not depend on the journals. -/
theorem compile_outcome (settings : Settings) (journals : Journals) (source : String) :
    (compile settings journals source).outcome = Compilation.result settings source :=
  Compilation.comesTo_compile ⟨journals, []⟩

section Results

variable {ε α β : Type} {x : Except ε α} {fault : ε → CompileError}

/-- Renaming a fault leaves a result as it is. -/
theorem mapError_eq_ok {ε' : Type} {fault : ε → ε'} {a : α} :
    x.mapError fault = .ok a ↔ x = .ok a := by
  cases x with
  | ok b =>
    constructor
    · intro h
      cases h
      rfl
    · intro h
      cases h
      rfl
  | error e =>
    constructor
    · intro h
      cases h
    · intro h
      cases h

/-- A result behind a step that may fail comes from a result of that step. -/
theorem mapError_bind_eq_ok {f : α → Except CompileError β} {b : β} :
    (x.mapError fault >>= f) = .ok b ↔ ∃ a, x = .ok a ∧ f a = .ok b := by
  cases x with
  | ok a =>
    constructor
    · intro h
      exact ⟨a, rfl, h⟩
    · rintro ⟨a', ha', h⟩
      cases ha'
      exact h
  | error e =>
    constructor
    · intro h
      cases h
    · rintro ⟨a, ha, -⟩
      cases ha

end Results

/-- A text has a module exactly if every phase has a result. -/
theorem compile_eq_ok_iff {settings : Settings} {journals : Journals} {source : String}
    {m : Module} :
    (compile settings journals source).outcome = .ok m ↔
      ∃ tokens, (Scan.of source).result = .ok tokens ∧
      ∃ program, (Program.read (.of tokens)).outcome = .ok program ∧
      ∃ inventory, (Analysis.of program settings.strict).outcome = .ok inventory ∧
        ((if settings.simplify then program.simplify else program).lower inventory).outcome
          = .ok m := by
  rw [compile_outcome, Compilation.result]
  simp only [mapError_bind_eq_ok, mapError_eq_ok]

-- ----------------------------------------------------------------------------
-- Bytes
-- ----------------------------------------------------------------------------

end LineBasic
