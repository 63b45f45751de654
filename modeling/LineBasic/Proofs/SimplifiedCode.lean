/-
  LineBasic.Proofs.SimplifiedCode

  A program that has code keeps it when it is simplified.  What is left of a statement
  is typed and of the right form if the statement was, and the calls of a simplified
  program are among those of the program, so that no subroutine comes to call itself.
-/

import LineBasic.Proofs.Pipeline
import LineBasic.Proofs.Recursion
import LineBasic.Proofs.Simplification

namespace LineBasic

-- ============================================================================
-- Statements
-- ============================================================================

namespace Stmt

theorem fitsLoop_simplifyInBody (s : Stmt) : s.simplifyInBody.fitsLoop = s.fitsLoop := by
  cases s <;> rfl

/-- What is left of a statement of the right form is of the right form. -/
theorem Fits.simplify? {s t : Stmt} (h : s.Fits) (ht : s.simplify? = some t) : t.Fits := by
  cases s with
  | ifThen pos c target =>
    cases Decision.simplify? ht with
    | holds _ _ => trivial
    | stays hnone => exact (Expr.isComparison_simplify h).resolve_left (absurd hnone)
  | forNext pos name start stop step body =>
    cases ht
    intro s hs
    obtain ⟨s', hs', rfl⟩ := List.mem_map.1 hs
    rw [fitsLoop_simplifyInBody]
    exact h s' hs'
  | assign pos name value => cases ht; trivial
  | print pos value => cases ht; trivial
  | goto pos target => cases ht; trivial
  | gosub pos target => cases ht; trivial
  | return_ pos => cases ht; trivial
  | input pos name => cases ht; trivial
  | end_ pos => cases ht; trivial

/-- A call is left of nothing but itself. -/
theorem eq_gosub_of_simplify? {s : Stmt} {pos : Position} {target : Nat}
    (h : s.simplify? = some (.gosub pos target)) : s = .gosub pos target := by
  cases s with
  | ifThen pos' c target' => cases Decision.simplify? h
  | _ => cases h <;> rfl

end Stmt

-- ============================================================================
-- Programs
-- ============================================================================

namespace Env

variable {env : Env}

/-- A call that is left was a call before. -/
theorem Calls.of_simplify {t u : Nat} (h : env.simplify.Calls t u) : env.Calls t u := by
  obtain ⟨hline, pos, hmem⟩ := h
  rw [linesFrom_simplify] at hmem
  obtain ⟨s, hs, hsimplify⟩ := exists_of_mem_region_simplify hmem
  rw [Stmt.eq_gosub_of_simplify? hsimplify] at hs
  rw [hasLine_simplify] at hline
  exact ⟨hline, pos, hs⟩

theorem Recurs.of_simplify {n : Nat} (h : env.simplify.Recurs n) : env.Recurs n :=
  Relation.TransGen.mono (fun _ _ hcall => Calls.of_simplify hcall) n n h

/-- The conditions for having a module still hold when a program is simplified. -/
theorem Lowers.simplify (h : env.Lowers) : env.simplify.Lowers where
  typed l hl t ht := by
    obtain ⟨l', hl', rfl⟩ := List.mem_map.1 hl
    obtain ⟨s, hs, hst⟩ := exists_of_mem_emitted_simplify ht
    exact (h.typed l' hl' s hs).simplify? hst
  fits l hl t ht := by
    obtain ⟨l', hl', rfl⟩ := List.mem_map.1 hl
    obtain ⟨s, hs, hst⟩ := exists_of_mem_emitted_simplify ht
    exact (h.fits l' hl' s hs).simplify? hst
  acyclic n hn := h.acyclic n hn.of_simplify

end Env

/-- A program with a module still has one when it is simplified. -/
theorem Program.exists_lower_simplify {p : Program} {inventory : Inventory}
    (h : ∃ m, (p.lower inventory).outcome = .ok m) :
    ∃ m, (p.simplify.lower inventory).outcome = .ok m := by
  rw [Program.exists_lower_iff] at h ⊢
  rw [Program.env_simplify]
  exact h.simplify

/-- Simplifying never makes a program or a text fail that has a module without it.  The
    simplified program is lowered with the inventory that the program was lowered
    with. -/
theorem simplify_keeps_modules :
    (∀ strict journals journals' source m,
      (compile ⟨strict, false⟩ journals source).outcome = .ok m →
      ∃ m', (compile ⟨strict, true⟩ journals' source).outcome = .ok m') ∧
    ∀ (p : Program) inventory m, (p.lower inventory).outcome = .ok m →
      ∃ m', (p.simplify.lower inventory).outcome = .ok m' := by
  constructor
  · intro strict journals journals' source m h
    obtain ⟨tokens, htokens, program, hprogram, inventory, hinventory, hmodule⟩ :=
      compile_eq_ok_iff.1 h
    obtain ⟨m', hm'⟩ := Program.exists_lower_simplify ⟨m, hmodule⟩
    exact ⟨m', compile_eq_ok_iff.2
      ⟨tokens, htokens, program, hprogram, inventory, hinventory, hm'⟩⟩
  · intro p inventory m h
    exact Program.exists_lower_simplify ⟨m, h⟩

/-- A text with a decision that becomes a jump, one that goes, and a call behind them. -/
def decidedText : String := "10 IF 1<2 THEN 30\n20 IF 1>2 THEN 10:GOSUB 30\n30 RETURN"

/-- A program with a decision that goes in front of a call, one that becomes a jump
    behind it, and a loop with a step of one. -/
def Program.decided : Program :=
  let start : Position := ⟨1, 1⟩
  let number (x : Float) : Expr := .number start x
  let less (l r : Expr) : Expr := .binary start (.compare .lt) l r
  ⟨[⟨10, [.ifThen start (less (number 2.0) (number 1.0)) 10, .gosub start 30,
      .ifThen start (less (number 1.0) (number 2.0)) 40, .gosub start 99], start⟩,
    ⟨20, [.goto start 10], start⟩,
    ⟨30, [.forNext start "I" (number 1.0)
        (.binary start (.arith .add) (number 1.0) (number 2.0)) (some (number 1.0))
        [.print start (.binary start (.arith .mul) (.var start "I") (number 1.0))],
      .ifThen start (less (number 2.0) (.var start "I")) 20, .return_ start], start⟩,
    ⟨40, [.print start (.text start "DONE"), .end_ start], start⟩]⟩

theorem Program.exists_lower_decided :
    ∃ m, (decided.lower decided.inventory).outcome = .ok m := by
  have hok : (decided.lower decided.inventory).outcome.isOk = true := by decide +kernel
  cases h : (decided.lower decided.inventory).outcome with
  | ok m => exact ⟨m, rfl⟩
  | error e =>
    rw [h] at hok
    cases hok

theorem simplify_keeps_modules_decided :
    (∃ m m', (compile ⟨true, false⟩ .off decidedText).outcome = .ok m ∧
      (compile ⟨true, true⟩ .off decidedText).outcome = .ok m') ∧
    ∃ m m', (Program.decided.lower Program.decided.inventory).outcome = .ok m ∧
      (Program.decided.simplify.lower Program.decided.inventory).outcome = .ok m' := by
  constructor
  · have hok : (compile ⟨true, false⟩ .off decidedText).outcome.isOk = true := by decide +kernel
    cases hm : (compile ⟨true, false⟩ .off decidedText).outcome with
    | error e =>
      rw [hm] at hok
      cases hok
    | ok m =>
      obtain ⟨m', hm'⟩ := simplify_keeps_modules.1 true .off .off decidedText m hm
      exact ⟨m, m', rfl, hm'⟩
  · obtain ⟨m, hm⟩ := Program.exists_lower_decided
    obtain ⟨m', hm'⟩ := simplify_keeps_modules.2 Program.decided _ m hm
    exact ⟨m, m', hm, hm'⟩

end LineBasic
