/-
  LineBasic.Proofs.Regions

  Which statements get code.  Behind a statement that ends (a RETURN, an END, a GOTO
  to a line that exists) the rest of its line is left out, and a subroutine is
  expanded from its first line up to the first statement that ends.  Subroutines
  call one another as their regions say.
-/

import Mathlib.Logic.Relation
import LineBasic.Lowering.Stmt

namespace LineBasic

namespace Env

variable {env : Env}

/-- Whether the code does not go on behind a statement. -/
def ends (env : Env) : Stmt → Bool
  | .return_ _ => true
  | .end_ _ => true
  | .goto _ target => env.hasLine target
  | _ => false

/-- The statements that get code: those up to and including the first that ends. -/
def emitted (env : Env) : List Stmt → List Stmt
  | [] => []
  | s :: ss => if env.ends s then [s] else s :: emitted env ss

/-- The statements of an expanded subroutine: those of its first line, followed by
    those of the next ones as long as no statement ends. -/
def region (env : Env) : List Line → List Stmt
  | [] => []
  | l :: ls => env.emitted l.stmts ++ if l.stmts.any env.ends then [] else region env ls

/-- The subroutine at the line `t` calls the one at the line `u`, which exists. -/
def Calls (env : Env) (t u : Nat) : Prop :=
  env.hasLine u = true ∧ ∃ pos, .gosub pos u ∈ env.region (env.linesFrom t)

/-- The line `n` lies on a cycle of calls. -/
def Recurs (env : Env) (n : Nat) : Prop := Relation.TransGen env.Calls n n

-- ----------------------------------------------------------------------------
-- Statements that get code
-- ----------------------------------------------------------------------------

theorem emitted_cons_of_ends {s : Stmt} (h : env.ends s = true) (ss : List Stmt) :
    env.emitted (s :: ss) = [s] := by
  rw [emitted, if_pos h]

theorem emitted_cons_of_not_ends {s : Stmt} (h : env.ends s = false) (ss : List Stmt) :
    env.emitted (s :: ss) = s :: env.emitted ss := by
  rw [emitted, if_neg (by simp [h])]

theorem mem_emitted_head {s : Stmt} {ss : List Stmt} : s ∈ env.emitted (s :: ss) := by
  rw [emitted]
  split
  · exact List.mem_singleton.2 rfl
  · exact List.mem_cons_self

/-- The statements that get code are the first ones. -/
theorem prefix_emitted (ss : List Stmt) : env.emitted ss <+: ss := by
  induction ss with
  | nil => exact List.prefix_refl []
  | cons s ss ih =>
    rw [emitted]
    split
    · exact List.prefix_append [s] ss
    · exact List.cons_prefix_cons.2 ⟨rfl, ih⟩

theorem mem_of_mem_emitted {s : Stmt} {ss : List Stmt} (h : s ∈ env.emitted ss) : s ∈ ss :=
  (prefix_emitted ss).subset h

/-- The statements of a region get code on their own lines as well. -/
theorem exists_line_of_mem_region {s : Stmt} {ls : List Line} (h : s ∈ env.region ls) :
    ∃ l ∈ ls, s ∈ env.emitted l.stmts := by
  induction ls with
  | nil => cases h
  | cons l ls ih =>
    rcases List.mem_append.1 h with hfirst | hrest
    · exact ⟨l, List.mem_cons_self, hfirst⟩
    · split at hrest
      · cases hrest
      · obtain ⟨m, hm, hs⟩ := ih hrest
        exact ⟨m, List.mem_cons_of_mem l hm, hs⟩

-- ----------------------------------------------------------------------------
-- Lines
-- ----------------------------------------------------------------------------

theorem hasLine_iff {n : Nat} : env.hasLine n = true ↔ ∃ l ∈ env.lines, l.number = n := by
  simp [hasLine]

theorem hasLine_of_linesFrom {n : Nat} {l : Line} {ls : List Line}
    (h : env.linesFrom n = l :: ls) : env.hasLine n = true :=
  hasLine_iff.2 (exists_of_linesFrom_ne_nil (by rw [h]; simp))

theorem linesFrom_sublist (env : Env) (n : Nat) : (env.linesFrom n).Sublist env.lines :=
  List.dropWhile_sublist _

/-- A call stands on some line of the program. -/
theorem Calls.exists_line {t u : Nat} (h : env.Calls t u) :
    ∃ l ∈ env.lines, ∃ pos, .gosub pos u ∈ env.emitted l.stmts := by
  obtain ⟨-, pos, hcall⟩ := h
  obtain ⟨l, hl, hs⟩ := exists_line_of_mem_region hcall
  exact ⟨l, (env.linesFrom_sublist t).subset hl, pos, hs⟩

end Env

end LineBasic
