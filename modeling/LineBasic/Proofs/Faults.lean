/-
  LineBasic.Proofs.Faults

  With which faults the making of code can end.  Typed expressions always have code.
  What can go wrong with a typed statement is its form, or the subroutine that it
  calls; and expanding subroutines goes wrong only at a line that lies on a cycle of
  calls.
-/

import LineBasic.Proofs.Regions
import LineBasic.Proofs.StraightLayout
import LineBasic.Proofs.Typing

namespace LineBasic

/-- However many temporaries are in use, making code ends with a fault in `bad` or with
    a result in `good`. -/
def Settles {ω α : Type} (bad : LowerError → Prop) (x : StateT Nat (Traced LowerError ω) α)
    (good : α → Prop) : Prop :=
  ∀ n,
    match (x.run n).outcome with
    | .ok r => good r.1
    | .error e => bad e

-- ============================================================================
-- Sequences
-- ============================================================================

namespace Settles

variable {ω α β : Type} {bad : LowerError → Prop}

theorem pure {a : α} {good : α → Prop} (h : good a) :
    Settles bad (pure a : StateT Nat (Traced LowerError ω) α) good :=
  fun _ => h

/-- One step after the other: the second starts from what the first left, and any fault of
    either is allowed. -/
theorem bind {x : StateT Nat (Traced LowerError ω) α}
    {f : α → StateT Nat (Traced LowerError ω) β} {mid : α → Prop} {good : β → Prop}
    (hx : Settles bad x mid) (hf : ∀ a, mid a → Settles bad (f a) good) :
    Settles bad (x >>= f) good := by
  intro n
  have hmid := hx n
  rw [StateT.run_bind]
  cases hout : (x.run n).outcome with
  | error e =>
    rw [hout] at hmid
    rw [Traced.bind_of_error hout]
    exact hmid
  | ok r =>
    rw [hout] at hmid
    rw [Traced.bind_of_ok hout]
    exact hf r.1 hmid r.2

theorem note {note : ω} :
    Settles bad (StateT.lift (Traced.note note) : StateT Nat (Traced LowerError ω) Unit)
      fun _ => True :=
  fun _ => trivial

theorem fail {e : LowerError} {good : α → Prop} (h : bad e) :
    Settles bad (StateT.lift (Traced.fail e) : StateT Nat (Traced LowerError ω) α) good :=
  fun _ => h

theorem defineAs {role : Role} {i : Temp → Instr} :
    Settles bad (Straight.defineAs role i) fun _ => True :=
  fun _ => trivial

theorem define {i : Temp → Instr} : Settles bad (Straight.define i) fun _ => True := .defineAs

theorem straight {site : Option Nat} {x : Straight α} {good : α → Prop}
    (h : Settles bad x good) : Settles bad (Lower.straight site x) good := h

/-- What makes code ends with no fault. -/
theorem of_makes {x : StateT Nat (Traced LowerError ω) α} (h : ∀ n, ∃ es a n', Makes x n es a n') :
    Settles bad x fun _ => True := by
  intro n
  obtain ⟨es, a, n', hmakes⟩ := h n
  rw [show x.run n = ⟨es, .ok (a, n')⟩ from hmakes]
  trivial

/-- What can only end in faults of no kind makes code. -/
theorem makes {x : StateT Nat (Traced LowerError ω) α} {good : α → Prop}
    (h : Settles (fun _ => False) x good) (n : Nat) : ∃ es a n', Makes x n es a n' ∧ good a := by
  have hn := h n
  cases hrun : x.run n with
  | mk es out =>
    rw [hrun] at hn
    cases out with
    | error e => exact hn.elim
    | ok r => exact ⟨es, r.1, r.2, hrun, hn⟩

end Settles

variable {env : Env} {bad : LowerError → Prop}

-- ============================================================================
-- Expressions
-- ============================================================================

section Expressions

theorem Env.settles_requireSlot {x : String} (h : x ∈ env.names) :
    Settles bad (env.requireSlot x) fun _ => True := by
  unfold requireSlot
  rw [if_pos h]
  exact .pure trivial

/-- Two operands of one type are two string literals, or the type is that of numbers. -/
theorem Expr.HasTy.texts_or_number {names texts : Ascending String} {l r : Expr} {ty : Ty}
    (hl : l.HasTy names texts ty) (hr : r.HasTy names texts ty) :
    (∃ p a q b, l = .text p a ∧ r = .text q b ∧ a ∈ texts ∧ b ∈ texts) ∨ ty = .number := by
  cases hl with
  | text ha =>
    cases hr with
    | text hb => exact .inl ⟨_, _, _, _, rfl, rfl, ha, hb⟩
  | _ => exact .inr rfl

/-- A number has code, however many temporaries are in use. -/
theorem Expr.exists_valueCode {e : Expr} {ty : Ty} (h : e.HasTy env.names env.texts ty)
    (hty : ty = .number) (n : Nat) : ∃ steps x n', ValueCode env e n steps x n' := by
  induction h generalizing n with
  | number => exact ⟨_, _, _, .number⟩
  | text _ => cases hty
  | var hx => exact ⟨_, _, _, .var hx⟩
  | @unary pos sign e _ ih =>
    obtain ⟨_, _, _, hcode⟩ := ih rfl n
    cases sign with
    | plus => exact ⟨_, _, _, .plus hcode⟩
    | minus => exact ⟨_, _, _, .minus hcode⟩
  | compare hl hr ihl ihr =>
    -- The operands are two text literals or two numbers.
    rcases hl.texts_or_number hr with ⟨p, a, q, b, rfl, rfl, ha, hb⟩ | hnumber
    · obtain ⟨j, hj⟩ := Env.mem_texts_iff.1 ha
      obtain ⟨k, hk⟩ := Env.mem_texts_iff.1 hb
      exact ⟨_, _, _, .texts hj hk⟩
    · obtain ⟨_, _, n₁, hcode⟩ := ihl hnumber n
      obtain ⟨_, _, _, hcode'⟩ := ihr hnumber n₁
      exact ⟨_, _, _, .compare hcode hcode'⟩
  | arith _ _ ihl ihr =>
    obtain ⟨_, _, n₁, hcode⟩ := ihl rfl n
    obtain ⟨_, _, _, hcode'⟩ := ihr rfl n₁
    exact ⟨_, _, _, .arith hcode hcode'⟩
  | @call pos name b e hb _ ih =>
    obtain ⟨_, x, n₁, hcode⟩ := ih rfl n
    obtain ⟨_, _, _, hfunction⟩ := exists_builtinCode b x n₁
    exact ⟨_, _, _, .call hb hcode hfunction⟩

/-- A comparison has code as a condition. -/
theorem Expr.exists_testCode {pos : Position} {rel : Relation} {l r : Expr} {ty : Ty}
    (hl : l.HasTy env.names env.texts ty) (hr : r.HasTy env.names env.texts ty) (n : Nat) :
    ∃ steps t n', TestCode env (.binary pos (.compare rel) l r) n steps t n' := by
  rcases hl.texts_or_number hr with ⟨p, a, q, b, rfl, rfl, ha, hb⟩ | hnumber
  · obtain ⟨j, hj⟩ := Env.mem_texts_iff.1 ha
    obtain ⟨k, hk⟩ := Env.mem_texts_iff.1 hb
    exact ⟨_, _, _, .texts hj hk⟩
  · obtain ⟨_, _, n₁, hcode⟩ := exists_valueCode hl hnumber n
    obtain ⟨_, _, _, hcode'⟩ := exists_valueCode hr hnumber n₁
    exact ⟨_, _, _, .compare hcode hcode'⟩

/-- A number has code. -/
theorem Expr.settles_lower {e : Expr} {ty : Ty} (h : e.HasTy env.names env.texts ty)
    (hty : ty = .number) : Settles bad (e.lower env) fun _ => True := by
  refine .of_makes fun n => ?_
  obtain ⟨steps, x, n', hcode⟩ := exists_valueCode h hty n
  exact ⟨steps, x, n', hcode.makes⟩

/-- A condition has code if it is a comparison. -/
theorem Expr.settles_lowerCondition {e : Expr} (h : e.HasTy env.names env.texts .number)
    (hform : e.isComparison = true ∨ bad (.conditionNotComparison e.pos)) :
    Settles bad (e.lowerCondition env) fun _ => True := by
  cases h with
  | compare hl hr =>
    refine .of_makes fun n => ?_
    obtain ⟨steps, t, n', hcode⟩ := exists_testCode hl hr n
    exact ⟨steps, t, n', makes_lowerCondition.2 hcode⟩
  | _ => exact .fail (hform.resolve_left (by simp [isComparison, BinaryOp.isComparison]))

end Expressions

-- ============================================================================
-- Statements
-- ============================================================================

namespace Stmt

/-- A statement is of the form that lowering asks for: decisions are made on
    comparisons, and loops only assign and print. -/
def Fits : Stmt → Prop
  | ifThen _ condition _ => condition.isComparison = true
  | forNext _ _ _ _ _ body => ∀ s ∈ body, s.fitsLoop = true
  | _ => True

/-- A typed statement without labels has code. -/
theorem exists_plainCode {s : Stmt} (h : s.Typed env.names env.texts)
    (hplain : (s.plain? env).isSome = true) (n : Nat) : ∃ steps n', PlainCode env s n steps n' := by
  cases h with
  | assign hx he =>
    obtain ⟨_, _, _, hcode⟩ := Expr.exists_valueCode he rfl n
    exact ⟨_, _, .assign hcode hx⟩
  | print he =>
    rcases he.texts_or_number he with ⟨_, s, _, _, rfl, -, hs, -⟩ | hnumber
    · obtain ⟨k, hk⟩ := Env.mem_texts_iff.1 hs
      exact ⟨_, _, .printText hk⟩
    · obtain ⟨_, _, _, hcode⟩ := Expr.exists_valueCode he hnumber n
      exact ⟨_, _, .printNumber hcode⟩
  | input hx => exact ⟨_, _, .input hx⟩
  | _ => cases hplain

/-- A typed statement that is straight code has its code. -/
theorem settles_plain {s : Stmt} {x : Straight Unit} (h : s.Typed env.names env.texts)
    (hplain : s.plain? env = some x) : Settles bad x fun _ => True := by
  refine .of_makes fun n => ?_
  obtain ⟨steps, n', hcode⟩ := exists_plainCode h (by rw [hplain]; rfl) n
  obtain ⟨y, hy, hmakes⟩ := makes_of_plainCode hcode
  obtain rfl := Option.some.inj (hplain.symm.trans hy)
  exact ⟨steps, (), n', hmakes⟩

/-- The body of a loop has its code, unless it holds a statement that does not fit there; the
    fault is then one that is allowed. -/
theorem settles_lowerBody {ss : List Stmt} (h : ∀ s ∈ ss, s.Typed env.names env.texts)
    (hform : ∀ s ∈ ss, s.fitsLoop = true ∨ bad (.unsupportedInLoop s.pos)) :
    Settles bad (lowerBody env ss) fun _ => True := by
  induction ss with
  | nil => exact .pure trivial
  | cons s ss ih =>
    obtain ⟨hs, hss⟩ := List.forall_mem_cons.1 h
    obtain ⟨hsform, hssform⟩ := List.forall_mem_cons.1 hform
    cases s with
    | assign pos x e => exact .bind (settles_plain hs rfl) fun _ _ => ih hss hssform
    | print pos e => exact .bind (settles_plain hs rfl) fun _ _ => ih hss hssform
    | _ => exact .fail (hsform.resolve_left (by simp [fitsLoop]))

theorem settles_lowerStep {step : Option Expr}
    (h : ∀ e ∈ step, e.HasTy env.names env.texts .number) :
    Settles bad (lowerStep env step) fun _ => True := by
  cases step with
  | none => exact .pure trivial
  | some e => exact Expr.settles_lower (h e rfl) rfl

/-- A loop has its code if its bounds do and its body does. -/
theorem settles_lowerLoop {site k : Nat} {owner : Label} {x : String} {a b : Expr}
    {c : Option Expr} {ss : List Stmt} (hx : x ∈ env.names)
    (ha : a.HasTy env.names env.texts .number) (hb : b.HasTy env.names env.texts .number)
    (hc : ∀ e ∈ c, e.HasTy env.names env.texts .number)
    (hss : ∀ s ∈ ss, s.Typed env.names env.texts)
    (hform : ∀ s ∈ ss, s.fitsLoop = true ∨ bad (.unsupportedInLoop s.pos)) :
    Settles bad (lowerLoop env site owner k x a b c ss) fun _ => True := by
  have hinit : Settles bad (do
      env.requireSlot x
      let y ← a.lower env
      Straight.emitAs .loopInit (.store y x)
      Straight.emit (.br (.loopTest owner k))) fun _ => True :=
    .bind (env.settles_requireSlot hx) fun _ _ => .bind (Expr.settles_lower ha rfl) fun _ _ =>
      .bind .note fun _ _ => .note
  have htest : Settles bad (do
      let current ← Straight.define (.load · x)
      let bound ← b.lower env
      let within ← Straight.defineAs .loopTest (.compare · .le (.temp current) bound)
      Straight.emit (.brIf within (.loopBody owner k) (.loopEnd owner k))) fun _ => True :=
    .bind .define fun _ _ => .bind (Expr.settles_lower hb rfl) fun _ _ =>
      .bind .defineAs fun _ _ => .note
  have hbody : Settles bad (do
      lowerBody env ss
      Straight.emit (.br (.loopStep owner k))) fun _ => True :=
    .bind (settles_lowerBody hss hform) fun _ _ => .note
  have hstep : Settles bad (do
      let by_ ← lowerStep env c
      let current ← Straight.define (.load · x)
      let next ← Straight.defineAs .loopStep (.arith · .add (.temp current) by_)
      Straight.emit (.store (.temp next) x)
      Straight.emit (.br (.loopTest owner k))) fun _ => True :=
    .bind (settles_lowerStep hc) fun _ _ => .bind .define fun _ _ => .bind .defineAs fun _ _ =>
      .bind .note fun _ _ => .note
  exact .bind (.straight hinit) fun _ _ => .bind .note fun _ _ => .bind (.straight htest) fun _ _ =>
    .bind .note fun _ _ => .bind (.straight hbody) fun _ _ => .bind .note fun _ _ =>
      .bind (.straight hstep) fun _ _ => .note

/-- What can go wrong with a typed statement is its form or the subroutine it calls;
    else the code goes on behind it unless it ends. -/
theorem settles_lower {expand : Expander} {site k : Nat} {frame : Frame} {s : Stmt}
    (htyped : s.Typed env.names env.texts)
    (hform : s.Fits ∨ ∀ pos, bad (.conditionNotComparison pos) ∧ bad (.unsupportedInLoop pos))
    (hcall : ∀ pos target, s = .gosub pos target → ∀ start next,
      Settles bad (expand site target start next) fun _ => True) :
    Settles bad (s.lower env expand site frame k) fun r => r.isNone = env.ends s := by
  have hplain : ∀ {x}, s.plain? env = some x → Settles bad x fun _ => True :=
    settles_plain htyped
  cases htyped with
  | assign _ _ => exact .bind (.straight (hplain rfl)) fun _ _ => .pure rfl
  | print _ => exact .bind (.straight (hplain rfl)) fun _ _ => .pure rfl
  | input _ => exact .bind (.straight (hplain rfl)) fun _ _ => .pure rfl
  | goto =>
    rw [Stmt.lower]
    split
    · next hline => exact .bind .note fun _ _ => .pure hline.symm
    · next hline =>
      have hends : env.hasLine _ = false := Bool.eq_false_iff.2 hline
      exact .bind .note fun _ _ => .pure hends.symm
  | gosub =>
    exact .bind .note fun _ _ => .bind (hcall _ _ rfl _ _) fun _ _ => .bind .note fun _ _ =>
      .pure rfl
  | return_ => exact .bind .note fun _ _ => .pure rfl
  | end_ => exact .bind .note fun _ _ => .pure rfl
  | @ifThen pos c target hc =>
    have hcondition : c.isComparison = true ∨ bad (.conditionNotComparison c.pos) :=
      hform.imp id fun h => (h c.pos).1
    refine .bind (.straight (Expr.settles_lowerCondition hc hcondition)) fun _ _ => ?_
    dsimp only
    split
    · exact .bind .note fun _ _ => .bind .note fun _ _ => .pure rfl
    · exact .bind .note fun _ _ => .bind .note fun _ _ => .pure rfl
  | @forNext pos x a b c ss hx ha hb hc hss =>
    have hbody : ∀ s ∈ ss, s.fitsLoop = true ∨ bad (.unsupportedInLoop s.pos) :=
      fun s hs => hform.imp (fun h => h s hs) fun h => (h s.pos).2
    exact .bind (settles_lowerLoop hx ha hb hc hss hbody) fun _ _ => .pure rfl

/-- Statements have their code up to the first one behind which nothing is emitted. -/
theorem settles_lowerList {expand : Expander} {site k : Nat} {frame : Frame} {ss : List Stmt}
    (h : ∀ s ∈ env.emitted ss, ∀ k,
      Settles bad (s.lower env expand site frame k) fun r => r.isNone = env.ends s) :
    Settles bad (lowerList env expand site frame k ss) fun r => r.isNone = ss.any env.ends := by
  induction ss generalizing k with
  | nil => exact .pure rfl
  | cons s ss ih =>
    refine .bind (h s Env.mem_emitted_head k) fun r hr => ?_
    cases r with
    | none =>
      have hends : env.ends s = true := hr.symm
      exact .pure (by simp [hends])
    | some k =>
      have hends : env.ends s = false := hr.symm
      rw [Env.emitted_cons_of_not_ends hends] at h
      rw [List.any_cons, hends]
      exact ih (List.forall_mem_cons.1 h).2

end Stmt

-- ============================================================================
-- Subroutines and programs
-- ============================================================================

/-- An expanded subroutine has its code up to the line that returns. -/
theorem settles_lowerRegion {expand : Expander} {frame : Frame} {here : Label} {i k : Nat}
    {ls : List Line}
    (h : ∀ s ∈ env.region ls, ∀ site k,
      Settles bad (s.lower env expand site frame k) fun r => r.isNone = env.ends s) :
    Settles bad (lowerRegion env expand frame here i k ls) fun _ => True := by
  induction ls generalizing here i k with
  | nil => exact .pure trivial
  | cons l ls ih =>
    have hline : ∀ s ∈ env.emitted l.stmts, ∀ k,
        Settles bad (s.lower env expand l.number frame k) fun r => r.isNone = env.ends s :=
      fun s hs k => h s (List.mem_append_left _ hs) l.number k
    refine .bind .note fun _ _ => .bind .note fun _ _ =>
      .bind (Stmt.settles_lowerList hline) fun r hr => ?_
    cases r with
    | none => exact .pure trivial
    | some k =>
      have hgoes : l.stmts.any env.ends = false := hr.symm
      cases ls with
      | nil => exact .note
      | cons m ls =>
        refine .bind .note fun _ _ => ih fun s hs => h s ?_
        rw [Env.region, hgoes]
        exact List.mem_append_right _ hs

/-- `bad` holds every fault that the code of a program may end in: the statements that
    get code are typed, and the faults of those in the wrong form and of calls on a
    cycle are in `bad`. -/
structure Env.Admits (env : Env) (bad : LowerError → Prop) : Prop where
  typed : ∀ l ∈ env.lines, ∀ s ∈ env.emitted l.stmts, s.Typed env.names env.texts
  form : ∀ l ∈ env.lines, ∀ s ∈ env.emitted l.stmts,
    s.Fits ∨ ∀ pos, bad (.conditionNotComparison pos) ∧ bad (.unsupportedInLoop pos)
  recurs : ∀ n, env.Recurs n → bad (.recursiveGosub n)

namespace Env.Admits

/-- Expanding a subroutine settles, if every line being expanded leads to it by calls.
    The induction is on the number of lines that can still be expanded. -/
theorem settles_expand (h : env.Admits bad) {active : List Nat}
    (hactive : ∀ a ∈ active, env.hasLine a = true) {site target : Nat} {start next : Label}
    (hpath : env.hasLine target = true → ∀ a ∈ active, Relation.TransGen env.Calls a target) :
    Settles bad (expand env active site target start next) fun _ => True := by
  induction hm : env.inactive active using Nat.strongRecOn
    generalizing active site target start next with
  | ind m ih =>
    rw [expand]
    split
    · next hmem =>
      -- Every active target leads here by calls, so one that is met again calls itself.
      have hcycle : env.Recurs target := hpath (hactive target hmem) target hmem
      exact .fail (h.recurs target hcycle)
    · next hnew =>
      split
      · exact .bind .note fun _ _ => .bind .note fun _ _ => .note
      · next l ls hlines =>
        have hline : env.hasLine target = true := hasLine_of_linesFrom hlines
        -- One more target is active, and there are only finitely many.
        have hless : env.inactive (target :: active) < m := by
          rw [← hm]
          exact inactive_cons_lt hnew (by rw [hlines]; simp)
        refine settles_lowerRegion fun s hs site k => ?_
        rw [← hlines] at hs
        obtain ⟨l', hl', hemitted⟩ := exists_line_of_mem_region hs
        have hmem : l' ∈ env.lines := (env.linesFrom_sublist target).subset hl'
        refine Stmt.settles_lower (h.typed l' hmem s hemitted) (h.form l' hmem s hemitted) ?_
        rintro pos u rfl start next
        refine ih _ hless (List.forall_mem_cons.2 ⟨hline, hactive⟩) (fun hu => ?_) rfl
        have hcall : env.Calls target u := ⟨hu, pos, hs⟩
        exact List.forall_mem_cons.2
          ⟨.single hcall, fun a ha => (hpath hline a ha).tail hcall⟩

/-- A line has its code, or ends in a fault that is admitted. -/
theorem settles_lowerLine (h : env.Admits bad) {l : Line} (hl : l ∈ env.lines) {next : Label} :
    Settles bad (lowerLine env l next) fun _ => True := by
  have hstmts : ∀ s ∈ env.emitted l.stmts, ∀ k, Settles bad
      (s.lower env (expand env []) l.number ⟨.line l.number, .exit⟩ k)
      fun r => r.isNone = env.ends s := by
    intro s hs k
    refine Stmt.settles_lower (h.typed l hl s hs) (h.form l hl s hs) fun pos u _ start next => ?_
    exact h.settles_expand (by simp) (by simp)
  refine .bind .note fun _ _ => .bind .note fun _ _ =>
    .bind (Stmt.settles_lowerList hstmts) fun r _ => ?_
  cases r with
  | none => exact .pure trivial
  | some _ => exact .note

/-- Lines have their code, or end in a fault that is admitted. -/
theorem settles_lowerLines (h : env.Admits bad) {ls : List Line} (hls : ∀ l ∈ ls, l ∈ env.lines) :
    Settles bad (lowerLines env ls) fun _ => True := by
  induction ls with
  | nil => exact .pure trivial
  | cons l ls ih =>
    obtain ⟨hl, hls⟩ := List.forall_mem_cons.1 hls
    exact .bind (h.settles_lowerLine hl) fun _ _ => ih hls

theorem settles_lowerSlots {xs : List String} : Settles bad (lowerSlots xs) fun _ => True := by
  induction xs with
  | nil => exact .pure trivial
  | cons x xs ih => exact .bind .note fun _ _ => .bind .note fun _ _ => ih

/-- The code of a program ends in no other faults than the admitted ones. -/
theorem settles_lowerMain (h : env.Admits bad) : Settles bad (lowerMain env) fun _ => True := by
  refine .bind .note fun _ _ => .bind settles_lowerSlots fun _ _ => ?_
  split
  · exact .note
  · exact .bind .note fun _ _ => .bind (h.settles_lowerLines fun _ hl => hl) fun _ _ =>
      .bind .note fun _ _ => .note

end Env.Admits

/-- A program whose faults are admitted has a module, or ends in an admitted fault. -/
theorem Program.lower_of_admits {p : Program} {inventory : Inventory}
    (h : (p.env inventory).Admits bad) :
    match (p.lower inventory).outcome with
    | .ok _ => True
    | .error e => bad e := by
  have hsettles := h.settles_lowerMain 0
  cases hout : ((lowerMain (p.env inventory)).run 0).outcome with
  | error e =>
    rw [hout] at hsettles
    simp only [Program.lower, hout]
    exact hsettles
  | ok r =>
    simp only [Program.lower, hout, Except.map]

end LineBasic
