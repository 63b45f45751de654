/-
  LineBasic.Proofs.Recursion

  When a program has code.  Its statements that get code have to be typed and of the
  right form, and no subroutine may call itself, be it through others: these
  conditions are necessary, because the code of an expanded subroutine holds the code
  of everything it calls, and they are sufficient.  A program that fails on the last
  condition alone is refused with a line that lies on a cycle of calls.
-/

import LineBasic.Proofs.Acceptance
import LineBasic.Proofs.CodeLayout

namespace LineBasic

variable {env : Env} {n n' : Nat}

-- ============================================================================
-- What has code is typed
-- ============================================================================

section Typed

variable {steps : List Step}

/-- An expression that has code is a number. -/
theorem ValueCode.hasTy {e : Expr} {x : Operand} (h : ValueCode env e n steps x n') :
    e.HasTy env.names env.texts .number := by
  induction h with
  | number => exact .number
  | var slot => exact .var slot
  | plus _ ih => exact .unary ih
  | minus _ ih => exact .unary ih
  | texts left right =>
    exact .compare (.text (Env.mem_texts_iff.2 ⟨_, left⟩)) (.text (Env.mem_texts_iff.2 ⟨_, right⟩))
  | compare _ _ ihl ihr => exact .compare ihl ihr
  | arith _ _ ihl ihr => exact .arith ihl ihr
  | call function _ _ ih => exact .call function ih

/-- A condition that has code is a comparison. -/
theorem TestCode.hasTy {e : Expr} {t : Temp} (h : TestCode env e n steps t n') :
    e.HasTy env.names env.texts .number ∧ e.isComparison = true := by
  cases h with
  | texts left right =>
    exact ⟨.compare (.text (Env.mem_texts_iff.2 ⟨_, left⟩))
      (.text (Env.mem_texts_iff.2 ⟨_, right⟩)), rfl⟩
  | compare left right => exact ⟨.compare left.hasTy right.hasTy, rfl⟩

/-- A statement without labels that has code is typed. -/
theorem PlainCode.typed {s : Stmt} (h : PlainCode env s n steps n') :
    s.Typed env.names env.texts := by
  cases h with
  | assign code slot => exact .assign slot code.hasTy
  | printText text => exact .print (.text (Env.mem_texts_iff.2 ⟨_, text⟩))
  | printNumber code => exact .print code.hasTy
  | input slot => exact .input slot

theorem BodyCode.typed {ss : List Stmt} (h : BodyCode env ss n steps n') :
    ∀ s ∈ ss, s.Typed env.names env.texts ∧ s.fitsLoop = true := by
  induction h with
  | nil => simp
  | cons fits first _ ih => exact List.forall_mem_cons.2 ⟨⟨first.typed, fits⟩, ih⟩

/-- A step with code is a number. -/
theorem AmountCode.hasTy {step : Option Expr} {x : Operand} (h : AmountCode env n step steps x n') :
    ∀ e ∈ step, e.HasTy env.names env.texts .number := by
  cases h with
  | one => simp
  | given code =>
    intro e he
    obtain rfl := Option.some.inj he
    exact code.hasTy

namespace Stmt

/-- A loop with code is typed, and its body fits. -/
theorem typed_of_makeUp {parts : LoopParts} {pos : Position} {x : String} {a b : Expr}
    {c : Option Expr} {ss : List Stmt} (h : parts.MakeUp env x a b c ss n n') :
    (forNext pos x a b c ss).Typed env.names env.texts ∧ (forNext pos x a b c ss).Fits := by
  obtain ⟨_, hbody, hstep⟩ := h.body
  have hss := (bodyCode_of_makes hbody).typed
  exact ⟨.forNext h.slot (Expr.makes_lower.1 h.first).hasTy (Expr.makes_lower.1 h.test).hasTy
    (amountCode_of_makes hstep).hasTy fun s hs => (hss s hs).1, fun s hs => (hss s hs).2⟩

end Stmt

end Typed

-- ============================================================================
-- What has code calls nothing without end
-- ============================================================================

/-- The statements that get code behind a line. -/
def Behind.region (env : Env) : Behind → List Stmt
  | .block _ => []
  | .lines _ ls => env.region ls

namespace Env

/-- The statements that get code from some statements of a line on. -/
def reached (env : Env) (ss : List Stmt) (behind : Behind) : List Stmt :=
  env.emitted ss ++ if ss.any env.ends then [] else behind.region env

theorem reached_cons_of_ends {s : Stmt} (h : env.ends s = true) (ss : List Stmt)
    (behind : Behind) : env.reached (s :: ss) behind = [s] := by
  rw [reached, emitted_cons_of_ends h, List.any_cons, h]
  rfl

theorem reached_cons_of_not_ends {s : Stmt} (h : env.ends s = false) (ss : List Stmt)
    (behind : Behind) : env.reached (s :: ss) behind = s :: env.reached ss behind := by
  rw [reached, emitted_cons_of_not_ends h, List.any_cons, h]
  rfl

/-- Following calls from the line `t` on comes to an end. -/
def CallsEnd (env : Env) (t : Nat) : Prop := Acc (fun u t => env.Calls t u) t

/-- A line whose calls come to an end is on no cycle. -/
theorem CallsEnd.not_recurs {t : Nat} (h : env.CallsEnd t) : ¬ env.Recurs t := by
  induction h with
  | intro t _ ih =>
    intro hcycle
    obtain ⟨u, hcall, hback⟩ := Relation.TransGen.head'_iff.1 hcycle
    exact ih u hcall (Relation.TransGen.tail' hback hcall)

/-- What a statement that has code is like: it is typed, it is of the right form, and
    if it calls a subroutine, following calls from there comes to an end. -/
structure Sound (env : Env) (s : Stmt) : Prop where
  typed : s.Typed env.names env.texts
  fits : s.Fits
  calls : ∀ pos u, s = .gosub pos u → env.hasLine u = true → env.CallsEnd u

/-- Straight statements are sound where they have code, and end nothing. -/
theorem sound_of_plain {s : Stmt} {x : Straight Unit} {steps : List Step} {u : Unit}
    (hplain : s.plain? env = some x) (h : Makes x n steps u n') :
    env.ends s = false ∧ env.Sound s := by
  have htyped := (Stmt.plainCode_of_makes hplain h).typed
  cases s with
  | assign pos name value => exact ⟨rfl, htyped, trivial, nofun⟩
  | print pos value => exact ⟨rfl, htyped, trivial, nofun⟩
  | input pos name => exact ⟨rfl, htyped, trivial, nofun⟩
  | _ => cases hplain

end Env

/-- The induction is on the code.  The code of a call holds that of the region it
    expands, so that all calls of the region are known to come to an end. -/
theorem CodeOf.sound {frame : Frame} {k site : Nat} {ss : List Stmt} {behind : Behind}
    {es : List Emission} (h : CodeOf env frame k n site ss behind es n') :
    ∀ s ∈ env.reached ss behind, env.Sound s := by
  induction h with
  | plain hplain hmakes _ ih =>
    obtain ⟨hends, hsound⟩ := Env.sound_of_plain hplain hmakes
    rw [Env.reached_cons_of_not_ends hends]
    exact List.forall_mem_cons.2 ⟨hsound, ih⟩
  | @goto _ _ _ _ pos target _ _ hline =>
    have hends : env.ends (.goto pos target) = true := hline
    rw [Env.reached_cons_of_ends hends]
    exact List.forall_mem_singleton.2 ⟨.goto, trivial, nofun⟩
  | @gotoNowhere _ _ _ _ _ pos target _ _ _ hline _ ih =>
    have hends : env.ends (.goto pos target) = false := hline
    rw [Env.reached_cons_of_not_ends hends]
    exact List.forall_mem_cons.2 ⟨⟨.goto, trivial, nofun⟩, ih⟩
  | @gosub _ _ _ _ _ _ _ target _ _ l ls _ _ hlines _ _ ihsub ih =>
    rw [Env.reached_cons_of_not_ends rfl]
    refine List.forall_mem_cons.2 ⟨⟨.gosub, trivial, ?_⟩, ih⟩
    rintro _ _ ⟨⟩ -
    -- Each call in the expanded lines is well-founded by induction, and so is the call of them.
    refine .intro target fun u hcall => ?_
    obtain ⟨hline, pos, hmem⟩ := hcall
    rw [hlines] at hmem
    exact (ihsub _ hmem).calls pos u rfl hline
  | gosubNowhere hlines _ ih =>
    rw [Env.reached_cons_of_not_ends rfl]
    refine List.forall_mem_cons.2 ⟨⟨.gosub, trivial, ?_⟩, ih⟩
    rintro _ _ ⟨⟩ -
    -- A target without lines makes no calls.
    refine .intro _ fun u hcall => ?_
    obtain ⟨-, pos, hmem⟩ := hcall
    rw [hlines] at hmem
    cases hmem
  | return_ =>
    rw [Env.reached_cons_of_ends rfl]
    exact List.forall_mem_singleton.2 ⟨.return_, trivial, nofun⟩
  | end_ =>
    rw [Env.reached_cons_of_ends rfl]
    exact List.forall_mem_singleton.2 ⟨.end_, trivial, nofun⟩
  | ifThen _ hmakes _ ih =>
    obtain ⟨hty, hform⟩ := (Expr.makes_lowerCondition.1 hmakes).hasTy
    rw [Env.reached_cons_of_not_ends rfl]
    exact List.forall_mem_cons.2 ⟨⟨.ifThen hty, hform, nofun⟩, ih⟩
  | ifNowhere _ hmakes _ ih =>
    obtain ⟨hty, hform⟩ := (Expr.makes_lowerCondition.1 hmakes).hasTy
    rw [Env.reached_cons_of_not_ends rfl]
    exact List.forall_mem_cons.2 ⟨⟨.ifThen hty, hform, nofun⟩, ih⟩
  | forNext hparts _ ih =>
    obtain ⟨htyped, hfits⟩ := Stmt.typed_of_makeUp hparts
    rw [Env.reached_cons_of_not_ends rfl]
    exact List.forall_mem_cons.2 ⟨⟨htyped, hfits, nofun⟩, ih⟩
  | lineEnd => simp [Env.reached, Env.emitted, Behind.region]
  | regionEnd => simp [Env.reached, Env.emitted, Behind.region, Env.region]
  | nextLine _ ih => exact ih

/-- Where lines have code, all statements that get some are sound. -/
theorem LinesCode.sound {ls : List Line} {es : List Emission} (h : LinesCode env ls n es n') :
    ∀ l ∈ ls, ∀ s ∈ env.emitted l.stmts, env.Sound s := by
  induction h with
  | nil => simp
  | cons hcode _ ih =>
    refine List.forall_mem_cons.2 ⟨fun s hs => ?_, ih⟩
    exact hcode.sound s (List.mem_append_left _ hs)

theorem MainCode.sound {body : List Emission} (h : MainCode env body n) :
    ∀ l ∈ env.lines, ∀ s ∈ env.emitted l.stmts, env.Sound s := by
  cases h with
  | empty hnil => simp [hnil]
  | lines _ hcode => exact hcode.sound

-- ============================================================================
-- Programs that have code
-- ============================================================================

/-- What a program that has code is like. -/
structure Env.Lowers (env : Env) : Prop where
  typed : ∀ l ∈ env.lines, ∀ s ∈ env.emitted l.stmts, s.Typed env.names env.texts
  fits : ∀ l ∈ env.lines, ∀ s ∈ env.emitted l.stmts, s.Fits
  acyclic : ∀ n, ¬ env.Recurs n

namespace Program

variable {p : Program} {inventory : Inventory}

/-- A program with a module meets the conditions for having one. -/
theorem lowers_of_lower {m : Module} (h : (p.lower inventory).outcome = .ok m) :
    (p.env inventory).Lowers := by
  have hsound := (Program.mainCode_of_lower h).sound
  refine ⟨fun l hl s hs => (hsound l hl s hs).typed, fun l hl s hs => (hsound l hl s hs).fits, ?_⟩
  intro n hcycle
  -- whoever calls `n` on the cycle has its call on some line, which has code
  obtain ⟨t, -, hcall⟩ := Relation.TransGen.tail'_iff.1 hcycle
  obtain ⟨l, hl, pos, hgosub⟩ := hcall.exists_line
  have hend := (hsound l hl _ hgosub).calls pos n rfl hcall.1
  exact hend.not_recurs hcycle

/-- If all that can be wrong with a program is that subroutines call themselves, it has
    code or is refused with a line on a cycle of calls. -/
theorem lower_of_typed
    (htyped : ∀ l ∈ p.listing, ∀ s ∈ (p.env inventory).emitted l.stmts,
      s.Typed inventory.names inventory.texts)
    (hfits : ∀ l ∈ p.listing, ∀ s ∈ (p.env inventory).emitted l.stmts, s.Fits) :
    match (p.lower inventory).outcome with
    | .ok _ => True
    | .error e => ∃ n, (p.env inventory).Recurs n ∧ e = .recursiveGosub n :=
  Program.lower_of_admits
    ⟨htyped, fun l hl s hs => .inl (hfits l hl s hs), fun n hn => ⟨n, hn, rfl⟩⟩

/-- A program has code exactly if it is what such a program is like. -/
theorem exists_lower_iff :
    (∃ m, (p.lower inventory).outcome = .ok m) ↔ (p.env inventory).Lowers := by
  constructor
  · rintro ⟨m, h⟩
    exact lowers_of_lower h
  · intro h
    have hsettled := lower_of_typed h.typed h.fits
    cases hout : (p.lower inventory).outcome with
    | ok m => exact ⟨m, rfl⟩
    | error e =>
      rw [hout] at hsettled
      obtain ⟨n, hcycle, -⟩ := hsettled
      exact absurd hcycle (h.acyclic n)

/-- The code of an accepted program is made with the inventory of its analysis or with
    its own.  If its decisions are made on comparisons and its loops only assign and
    print, as far as they get code, then it has code exactly if no subroutine calls
    itself, and it is refused only with a line that lies on a cycle of calls. -/
theorem recursion_exact (p : Program) (strict : Bool) (found inventory : Inventory)
    (haccepted : (Analysis.of p strict).outcome = .ok found)
    (hinventory : inventory ∈ [found, p.inventory])
    (hfits : ∀ l ∈ p.listing, ∀ s ∈ (p.env inventory).emitted l.stmts, s.Fits) :
    ((∃ m, (p.lower inventory).outcome = .ok m) ↔ ∀ n, ¬ (p.env inventory).Recurs n) ∧
    ∀ e, (p.lower inventory).outcome = .error e →
      ∃ n, (p.env inventory).Recurs n ∧ e = .recursiveGosub n := by
  have hfound : p.Typed found.names found.texts := Analysis.typed haccepted
  have htyped : p.Typed inventory.names inventory.texts := by
    rcases List.mem_cons.1 hinventory with rfl | hown
    · exact hfound
    · rw [List.mem_singleton.1 hown]
      exact hfound.own
  have hemitted : ∀ l ∈ p.listing, ∀ s ∈ (p.env inventory).emitted l.stmts,
      s.Typed inventory.names inventory.texts := by
    intro l hl s hs
    have hline : l ∈ p.lines := List.mem_of_find?_eq_some (mem_listing_iff.1 hl)
    exact htyped l hline s (Env.mem_of_mem_emitted hs)
  constructor
  · rw [exists_lower_iff]
    exact ⟨Env.Lowers.acyclic, fun hacyclic => ⟨hemitted, hfits, hacyclic⟩⟩
  · intro e he
    have hsettled := lower_of_typed hemitted hfits
    rw [he] at hsettled
    exact hsettled

/-- A subroutine that runs on into a line that calls it. -/
def spiral : Program :=
  let start : Position := ⟨1, 1⟩
  ⟨[⟨10, [.gosub start 30, .end_ start, .gosub start 10], start⟩,
    ⟨40, [.gosub start 99, .gosub start 30, .return_ start], start⟩,
    ⟨30, [.ifThen start (.binary start (.compare .lt) (.var start "X") (.number start 1.0)) 10,
      .forNext start "X" (.number start 1.0) (.number start 3.0) none
        [.print start (.text start "A")]], start⟩]⟩

theorem recursion_exact_spiral :
    (Analysis.of spiral false).outcome = .ok spiral.inventory ∧
    (spiral.lower spiral.inventory).outcome = .error (.recursiveGosub 30) ∧
    (spiral.env spiral.inventory).Recurs 30 := by
  have haccepted : (Analysis.of spiral false).outcome = .ok spiral.inventory := by
    decide +kernel
  have herror : (spiral.lower spiral.inventory).outcome = .error (.recursiveGosub 30) := by
    decide +kernel
  have hfits : ∀ l ∈ spiral.listing, ∀ s ∈ (spiral.env spiral.inventory).emitted l.stmts,
      s.Fits := by
    simp [spiral, listing, place, Env.emitted, Env.ends, Stmt.Fits, Stmt.fitsLoop,
      Expr.isComparison, BinaryOp.isComparison]
  obtain ⟨n, hcycle, hn⟩ := (recursion_exact spiral false spiral.inventory spiral.inventory
    haccepted (by simp) hfits).2 _ herror
  cases hn
  exact ⟨haccepted, herror, hcycle⟩

end Program

end LineBasic
