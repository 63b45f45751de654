/-
  LineBasic.Proofs.Typing

  Types of expressions and statements that refer to known variables and string
  literals.  What passes the check has a type over the variables and literals that
  the check found, and simplification keeps that type.
-/

import LineBasic.Check.Analysis
import LineBasic.Proofs.CheckItems
import LineBasic.Proofs.Simplification

namespace LineBasic

-- ============================================================================
-- Typing rules
-- ============================================================================

/-- An expression has a type when its variables are among `names` and its string
    literals among `texts`. -/
inductive Expr.HasTy (names texts : Ascending String) : Expr → Ty → Prop
  | number {pos : Position} {x : Float} : HasTy names texts (.number pos x) .number
  | text {pos : Position} {s : String} (known : s ∈ texts) : HasTy names texts (.text pos s) .text
  | var {pos : Position} {x : String} (known : x ∈ names) : HasTy names texts (.var pos x) .number
  | unary {pos : Position} {sign : Sign} {e : Expr} (operand : HasTy names texts e .number) :
      HasTy names texts (.unary pos sign e) .number
  | compare {pos : Position} {rel : Relation} {l r : Expr} {ty : Ty}
      (lhs : HasTy names texts l ty) (rhs : HasTy names texts r ty) :
      HasTy names texts (.binary pos (.compare rel) l r) .number
  | arith {pos : Position} {op : Arith} {l r : Expr}
      (lhs : HasTy names texts l .number) (rhs : HasTy names texts r .number) :
      HasTy names texts (.binary pos (.arith op) l r) .number
  | call {pos : Position} {name : String} {b : Builtin} {e : Expr}
      (builtin : Builtin.ofName? name = some b) (arg : HasTy names texts e .number) :
      HasTy names texts (.call pos name [e]) .number

/-- A statement is typed when its expressions are and its variables are among
    `names`. -/
inductive Stmt.Typed (names texts : Ascending String) : Stmt → Prop
  | assign {pos : Position} {x : String} {e : Expr} (known : x ∈ names)
      (value : e.HasTy names texts .number) : Typed names texts (.assign pos x e)
  | print {pos : Position} {e : Expr} {ty : Ty} (value : e.HasTy names texts ty) :
      Typed names texts (.print pos e)
  | goto {pos : Position} {target : Nat} : Typed names texts (.goto pos target)
  | gosub {pos : Position} {target : Nat} : Typed names texts (.gosub pos target)
  | return_ {pos : Position} : Typed names texts (.return_ pos)
  | ifThen {pos : Position} {c : Expr} {target : Nat}
      (condition : c.HasTy names texts .number) : Typed names texts (.ifThen pos c target)
  | input {pos : Position} {x : String} (known : x ∈ names) : Typed names texts (.input pos x)
  | forNext {pos : Position} {x : String} {a b : Expr} {c : Option Expr} {ss : List Stmt}
      (known : x ∈ names) (start : a.HasTy names texts .number)
      (stop : b.HasTy names texts .number) (step : ∀ e ∈ c, e.HasTy names texts .number)
      (body : ∀ s ∈ ss, Typed names texts s) : Typed names texts (.forNext pos x a b c ss)
  | end_ {pos : Position} : Typed names texts (.end_ pos)

/-- A program is typed when all its statements are. -/
def Program.Typed (names texts : Ascending String) (p : Program) : Prop :=
  ∀ l ∈ p.lines, ∀ s ∈ l.stmts, s.Typed names texts

-- ============================================================================
-- Checks that succeed
-- ============================================================================

/-- A finding is covered when its variable is among `names` or its literal among
    `texts`. -/
def Finding.Covered (names texts : Ascending String) : Finding → Prop
  | variable_ x _ => x ∈ names
  | literal s _ => s ∈ texts
  | _ => True

open Check

section Checked

variable {names texts : Ascending String} {strict : Bool}

/-- What is known behind an item: that what it met is covered, or the rule it asked for. -/
def Check.Item.Grants (names texts : Ascending String) : Item → Prop
  | meet f _ => f.Covered names texts
  | demand holds _ => holds = true
  | lead _ _ _ _ => True

/-- A check that goes through grants all its items, where its findings are covered. -/
theorem Check.grants_of_runItems {is : List Item} (h : (runItems strict is).outcome = .ok ())
    (covered : ∀ f ∈ (runItems strict is).notes, f.Covered names texts) :
    ∀ i ∈ is, i.Grants names texts := by
  rw [(keepsTo_runItems strict is).whole () h] at covered
  intro i hi
  cases i with
  | meet f harmless => exact covered f (List.mem_filterMap.2 ⟨_, hi, rfl⟩)
  | demand holds e => exact runItems_eq_ok_iff.1 h _ hi
  | lead known jump target pos => trivial

namespace Expr

mutual

/-- Where its items are granted, an expression has the type that can be read off it. -/
theorem hasTy_of_grants (e : Expr) (h : ∀ i ∈ e.items, i.Grants names texts) :
    e.HasTy names texts e.ty := by
  match e with
  | .number pos x => exact .number
  | .text pos s =>
    rw [items, List.forall_mem_singleton] at h
    exact .text h
  | .var pos x =>
    rw [items, List.forall_mem_singleton] at h
    exact .var h
  | .unary pos sign e =>
    rw [items, List.forall_mem_append, List.forall_mem_singleton] at h
    have he := hasTy_of_grants e h.1
    rw [of_decide_eq_true h.2] at he
    exact .unary he
  | .binary pos op l r =>
    rw [items, List.forall_mem_append, List.forall_mem_append, List.forall_mem_singleton] at h
    obtain ⟨hl, hr, hop⟩ := h
    have hl := hasTy_of_grants l hl
    have hr := hasTy_of_grants r hr
    cases op with
    | compare rel =>
      rw [of_decide_eq_true hop] at hl
      exact .compare hl hr
    | arith op =>
      obtain ⟨hlty, hrty⟩ : l.ty = .number ∧ r.ty = .number := by
        simpa [BinaryOp.demand, Item.Grants] using hop
      rw [hlty] at hl
      rw [hrty] at hr
      exact .arith hl hr
  | .call pos name args =>
    rw [items, List.forall_mem_cons] at h
    replace h := h.2
    cases hb : Builtin.ofName? name with
    | none =>
      rw [hb] at h
      cases (List.forall_mem_cons.1 h).1
    | some b =>
      rw [hb] at h
      dsimp only at h
      rw [List.forall_mem_cons, List.forall_mem_append] at h
      obtain ⟨hlength, hitems, hdemands⟩ := h
      have hargs := hasTyOfList_of_grants args hitems
      obtain ⟨arg, rfl⟩ := List.length_eq_one_iff.1 (of_decide_eq_true hlength)
      have harg := hargs arg (List.mem_singleton.2 rfl)
      rw [List.flatMap_singleton, demandArgument, List.forall_mem_cons] at hdemands
      rw [of_decide_eq_true hdemands.1] at harg
      exact .call hb harg

theorem hasTyOfList_of_grants (es : List Expr) (h : ∀ i ∈ itemsOfList es, i.Grants names texts) :
    ∀ e ∈ es, e.HasTy names texts e.ty := by
  match es with
  | [] => exact List.forall_mem_nil _
  | e :: es =>
    rw [itemsOfList, List.forall_mem_append] at h
    exact List.forall_mem_cons.2 ⟨hasTy_of_grants e h.1, hasTyOfList_of_grants es h.2⟩

end

theorem hasTy_number_of_grants {e : Expr} {fault : Fault}
    (h : ∀ i ∈ e.numberItems fault, i.Grants names texts) : e.HasTy names texts .number := by
  rw [numberItems, List.forall_mem_append, List.forall_mem_singleton] at h
  have he := hasTy_of_grants e h.1
  rwa [of_decide_eq_true h.2] at he

/-- An expression that passes the check has its type over what the check found. -/
theorem hasTy_of_covered {e : Expr} {ty : Ty} (h : e.check.outcome = .ok ty)
    (covered : ∀ f ∈ e.check.notes, f.Covered names texts) : e.HasTy names texts ty := by
  obtain ⟨hpasses, rfl⟩ := (check_eq_ok_iff_passes true).1 h
  have hrun := runItems_eq_ok_iff.2 hpasses
  refine hasTy_of_grants e (grants_of_runItems hrun fun f hf => covered f ?_)
  rw [check_eq_runItems true, Traced.bind_of_ok hrun]
  exact List.mem_append_left _ hf

end Expr

namespace Stmt

variable {lines : List Nat}

mutual

/-- Where its items are granted, a statement is typed, loop bodies included. -/
theorem typed_of_grants (s : Stmt) (h : ∀ i ∈ s.items lines, i.Grants names texts) :
    s.Typed names texts := by
  match s with
  | .assign pos x e =>
    rw [items, List.forall_mem_cons] at h
    exact .assign h.1 (Expr.hasTy_number_of_grants h.2)
  | .print pos e =>
    rw [items] at h
    exact .print (e.hasTy_of_grants h)
  | .goto pos target => exact .goto
  | .gosub pos target => exact .gosub
  | .return_ pos => exact .return_
  | .ifThen pos c target =>
    rw [items, List.forall_mem_cons, List.forall_mem_append] at h
    exact .ifThen (Expr.hasTy_number_of_grants h.2.1)
  | .input pos x =>
    rw [items, List.forall_mem_singleton] at h
    exact .input h
  | .forNext pos x start stop step body =>
    rw [items, List.forall_mem_cons, List.forall_mem_cons, List.forall_mem_append,
      List.forall_mem_append, List.forall_mem_append, List.forall_mem_cons,
      List.forall_mem_append] at h
    obtain ⟨-, hx, hstart, hstop, hstep, -, hbody, -⟩ := h
    refine .forNext hx (Expr.hasTy_number_of_grants hstart) (Expr.hasTy_number_of_grants hstop)
      (fun e he => ?_) (typedOfList_of_grants body hbody)
    have hitems : ∀ i ∈ e.numberItems (.textBound .step), i.Grants names texts :=
      fun i hi => hstep i (List.mem_flatMap.2 ⟨e, Option.mem_toList.2 he, hi⟩)
    exact Expr.hasTy_number_of_grants hitems
  | .end_ pos => exact .end_

theorem typedOfList_of_grants (ss : List Stmt)
    (h : ∀ i ∈ itemsOfList lines ss, i.Grants names texts) : ∀ s ∈ ss, s.Typed names texts := by
  match ss with
  | [] => exact List.forall_mem_nil _
  | s :: ss =>
    rw [itemsOfList, List.forall_mem_append] at h
    exact List.forall_mem_cons.2 ⟨typed_of_grants s h.1, typedOfList_of_grants ss h.2⟩

end

end Stmt

/-- Where their items are granted, the statements of lines are typed. -/
theorem typed_of_grants_lines {lines : List Nat} (ls : List Line)
    (h : ∀ i ∈ lineItems lines ls, i.Grants names texts) :
    ∀ l ∈ ls, ∀ s ∈ l.stmts, s.Typed names texts := by
  induction ls with
  | nil => exact List.forall_mem_nil _
  | cons l ls ih =>
    rw [lineItems, List.forall_mem_cons, List.forall_mem_append] at h
    exact List.forall_mem_cons.2 ⟨Stmt.typedOfList_of_grants l.stmts h.2.1, ih h.2.2⟩

/-- A program that passes the check is typed over what the check found. -/
theorem Program.typed_of_check {p : Program} (h : (p.check strict).outcome = .ok ())
    (covered : ∀ f ∈ (p.check strict).notes, f.Covered names texts) : p.Typed names texts := by
  rw [p.check_eq_runItems] at h covered
  have hgrants := grants_of_runItems h covered
  unfold items at hgrants
  split at hgrants
  · cases (List.forall_mem_cons.1 hgrants).1
  · exact typed_of_grants_lines p.lines hgrants

end Checked

-- ============================================================================
-- The inventory of an analysis
-- ============================================================================

/-- No name is forgotten. -/
theorem Finding.names_subset_scopeAll {s : Scopes} {fs : List Finding} {x : String}
    (h : x ∈ s.names) : x ∈ (scopeAll s fs).names := by
  induction fs generalizing s with
  | nil => exact h
  | cons f fs ih =>
    refine ih ?_
    cases f <;> simp [scope, Scopes.declare, Scopes.enter, Scopes.leave, h]

/-- A variable that was found is known behind the findings. -/
theorem Finding.mem_names_scopeAll {s : Scopes} {fs : List Finding} {x : String} {pos : Position}
    (h : variable_ x pos ∈ fs) : x ∈ (scopeAll s fs).names := by
  induction fs generalizing s with
  | nil => cases h
  | cons f fs ih =>
    rcases List.mem_cons.1 h with rfl | h
    · refine names_subset_scopeAll (s := s.declare x) ?_
      simp [Scopes.declare]
    · exact ih h

/-- Findings are covered by what is taken from them. -/
theorem Finding.covered_of_mem {fs : List Finding} {f : Finding} (h : f ∈ fs) :
    f.Covered (scopeAll .initial fs).names (.ofList (fs.filterMap literal?)) := by
  cases f with
  | variable_ x pos => exact mem_names_scopeAll h
  | literal s pos =>
    show s ∈ Ascending.ofList _
    rw [Ascending.mem_ofList, List.mem_filterMap]
    exact ⟨_, h, rfl⟩
  | _ => trivial

/-- An accepted program is typed over its inventory. -/
theorem Analysis.typed {p : Program} {strict : Bool} {inventory : Inventory}
    (h : (Analysis.of p strict).outcome = .ok inventory) :
    p.Typed inventory.names inventory.texts := by
  cases hout : (p.check strict).outcome with
  | error e =>
    simp only [Analysis.of, hout] at h
    cases h
  | ok u =>
    simp only [Analysis.of, hout] at h
    cases h
    exact Program.typed_of_check hout fun f hf => Finding.covered_of_mem hf

-- ============================================================================
-- The inventory of a program
-- ============================================================================

section Own

variable {names texts names' texts' : Ascending String}

/-- A type does not depend on names and texts that do not occur. -/
theorem Expr.HasTy.over {e : Expr} {ty : Ty} (h : e.HasTy names texts ty)
    (hnames : ∀ x ∈ e.names, x ∈ names') (htexts : ∀ s ∈ e.texts, s ∈ texts') :
    e.HasTy names' texts' ty := by
  induction h with
  | number => exact .number
  | @text pos s _ => exact .text (htexts s (by simp [Expr.texts]))
  | @var pos x _ => exact .var (hnames x (by simp [Expr.names]))
  | unary _ ih =>
    rw [Expr.names] at hnames
    rw [Expr.texts] at htexts
    exact .unary (ih hnames htexts)
  | compare _ _ ihl ihr =>
    rw [Expr.names, List.forall_mem_append] at hnames
    rw [Expr.texts, List.forall_mem_append] at htexts
    exact .compare (ihl hnames.1 htexts.1) (ihr hnames.2 htexts.2)
  | arith _ _ ihl ihr =>
    rw [Expr.names, List.forall_mem_append] at hnames
    rw [Expr.texts, List.forall_mem_append] at htexts
    exact .arith (ihl hnames.1 htexts.1) (ihr hnames.2 htexts.2)
  | call hb _ ih =>
    rw [Expr.names, Expr.namesOfList, List.forall_mem_append] at hnames
    rw [Expr.texts, Expr.textsOfList, List.forall_mem_append] at htexts
    exact .call hb (ih hnames.1 htexts.1)

/-- An expression that passes the check has its type wherever its variables and string
    literals are known. -/
theorem Expr.hasTy_of_check {e : Expr} {ty : Ty} (h : e.check.outcome = .ok ty)
    (hnames : ∀ x ∈ e.names, x ∈ names) (htexts : ∀ s ∈ e.texts, s ∈ texts) :
    e.HasTy names texts ty :=
  (hasTy_of_covered h fun _ hf => Finding.covered_of_mem hf).over hnames htexts

/-- The type of a step does not depend on names and texts that do not occur. -/
theorem Expr.HasTy.over_step {c : Option Expr} (h : ∀ e ∈ c, e.HasTy names texts .number)
    (hnames : ∀ x ∈ Expr.namesOfList c.toList, x ∈ names')
    (htexts : ∀ s ∈ Expr.textsOfList c.toList, s ∈ texts') :
    ∀ e ∈ c, e.HasTy names' texts' .number := by
  rintro e rfl
  rw [Option.toList_some, Expr.namesOfList, List.forall_mem_append] at hnames
  rw [Option.toList_some, Expr.textsOfList, List.forall_mem_append] at htexts
  exact (h e rfl).over hnames.1 htexts.1

theorem Stmt.namesOfList_eq (ss : List Stmt) : namesOfList ss = ss.flatMap Stmt.names := by
  induction ss with
  | nil => rfl
  | cons s ss ih => rw [namesOfList, ih, List.flatMap_cons]

theorem Stmt.textsOfList_eq (ss : List Stmt) : textsOfList ss = ss.flatMap Stmt.texts := by
  induction ss with
  | nil => rfl
  | cons s ss ih => rw [textsOfList, ih, List.flatMap_cons]

/-- Typing does not depend on names and texts that do not occur. -/
theorem Stmt.Typed.over {s : Stmt} (h : s.Typed names texts)
    (hnames : ∀ x ∈ s.names, x ∈ names') (htexts : ∀ t ∈ s.texts, t ∈ texts') :
    s.Typed names' texts' := by
  induction h with
  | @assign pos x e _ he =>
    rw [Stmt.names, List.forall_mem_cons] at hnames
    exact .assign hnames.1 (he.over hnames.2 htexts)
  | print he => exact .print (he.over hnames htexts)
  | goto => exact .goto
  | gosub => exact .gosub
  | return_ => exact .return_
  | ifThen hc => exact .ifThen (hc.over hnames htexts)
  | @input pos x _ => exact .input (hnames x (by simp [Stmt.names]))
  | @forNext pos x a b c ss _ ha hb hc _ ih =>
    simp only [Stmt.names, namesOfList_eq, List.forall_mem_append, List.cons_append,
      List.forall_mem_cons, List.mem_flatMap] at hnames
    simp only [Stmt.texts, textsOfList_eq, List.forall_mem_append, List.mem_flatMap] at htexts
    obtain ⟨hx, ⟨⟨hanames, hbnames⟩, hcnames⟩, hssnames⟩ := hnames
    obtain ⟨⟨⟨hatexts, hbtexts⟩, hctexts⟩, hsstexts⟩ := htexts
    refine .forNext hx (ha.over hanames hatexts) (hb.over hbnames hbtexts)
      (.over_step hc hcnames hctexts) fun s hs => ?_
    exact ih s hs (fun y hy => hssnames y ⟨s, hs, hy⟩) fun t ht => hsstexts t ⟨s, hs, ht⟩
  | end_ => exact .end_

/-- A typed program is typed over its own inventory. -/
theorem Program.Typed.own {p : Program} (h : p.Typed names texts) :
    p.Typed p.inventory.names p.inventory.texts := by
  intro l hl s hs
  refine (h l hl s hs).over (fun x hx => ?_) fun t ht => ?_
  · rw [Program.inventory, Ascending.mem_ofList, List.mem_flatMap]
    refine ⟨l, hl, ?_⟩
    rw [Stmt.namesOfList_eq]
    exact List.mem_flatMap.2 ⟨s, hs, hx⟩
  · rw [Program.inventory, Ascending.mem_ofList, List.mem_flatMap]
    refine ⟨l, hl, ?_⟩
    rw [Stmt.textsOfList_eq]
    exact List.mem_flatMap.2 ⟨s, hs, ht⟩

end Own

-- ============================================================================
-- Simplification keeps types
-- ============================================================================

section Simplified

variable {names texts : Ascending String}

/-- An operator comes to a number, whatever becomes of it. -/
theorem Expr.HasTy.simplifyBinary {pos : Position} {op : BinaryOp} {l r : Expr}
    (h : (binary pos op l r).HasTy names texts .number) :
    (simplifyBinary pos op l r).HasTy names texts .number := by
  generalize hout : Expr.simplifyBinary pos op l r = out
  have houtcome : Outcome pos op l r out := hout ▸ Outcome.simplifyBinary
  cases houtcome with
  | kept => exact h
  | worked _ _ => exact .number
  | zero _ _ => exact .number
  | left arith _ =>
    subst arith
    cases h with
    | arith hl _ => exact hl
  | right arith _ =>
    subst arith
    cases h with
    | arith _ hr => exact hr

/-- A sign comes to a number, whatever becomes of it. -/
theorem Expr.HasTy.simplifySigned {pos : Position} {sign : Sign} {e : Expr}
    (h : e.HasTy names texts .number) :
    (simplifySigned pos sign e).HasTy names texts .number := by
  unfold Expr.simplifySigned
  split
  · exact h
  · split
    · exact .number
    · exact .unary h

/-- Simplification keeps the type of an expression, by induction on the typing. -/
theorem Expr.HasTy.simplify {e : Expr} {ty : Ty} (h : e.HasTy names texts ty) :
    e.simplify.HasTy names texts ty := by
  induction h with
  | number => exact .number
  | text known => exact .text known
  | var known => exact .var known
  | unary _ ih => exact ih.simplifySigned
  | compare _ _ ihl ihr => exact simplifyBinary (.compare ihl ihr)
  | arith _ _ ihl ihr => exact simplifyBinary (.arith ihl ihr)
  | call builtin _ ih => exact .call builtin ih

/-- A statement in the body of a loop stays typed. -/
theorem Stmt.Typed.simplifyInBody {s : Stmt} (h : s.Typed names texts) :
    s.simplifyInBody.Typed names texts := by
  cases h with
  | assign known value => exact .assign known value.simplify
  | print value => exact .print value.simplify
  | goto => exact .goto
  | gosub => exact .gosub
  | return_ => exact .return_
  | ifThen condition => exact .ifThen condition
  | input known => exact .input known
  | forNext known start stop step body => exact .forNext known start stop step body
  | end_ => exact .end_

/-- What is left of a typed statement is typed. -/
theorem Stmt.Typed.simplify? {s t : Stmt} (h : s.Typed names texts) (ht : t ∈ s.simplify?) :
    t.Typed names texts := by
  cases h with
  | ifThen condition =>
    cases Decision.simplify? ht with
    | holds _ _ => exact .goto
    | stays _ => exact .ifThen condition.simplify
  | forNext known start stop step body =>
    cases ht
    refine .forNext known start.simplify stop.simplify ?_ ?_
    · intro e he
      obtain ⟨e', he', rfl⟩ := Option.map_eq_some_iff.1 (Option.filter_eq_some_iff.1 he).1
      exact (step e' he').simplify
    · intro s hs
      obtain ⟨s', hs', rfl⟩ := List.mem_map.1 hs
      exact (body s' hs').simplifyInBody
  | assign known value =>
    cases ht
    exact .assign known value.simplify
  | print value =>
    cases ht
    exact .print value.simplify
  | goto => cases ht; exact .goto
  | gosub => cases ht; exact .gosub
  | return_ => cases ht; exact .return_
  | input known => cases ht; exact .input known
  | end_ => cases ht; exact .end_

/-- A simplified program is typed as the program was. -/
theorem Program.Typed.simplify {p : Program} (h : p.Typed names texts) :
    p.simplify.Typed names texts := by
  intro l hl s hs
  obtain ⟨l', hl', rfl⟩ := List.mem_map.1 hl
  obtain ⟨s', hs', hss'⟩ := List.mem_filterMap.1 hs
  exact (h l' hl' s' hs').simplify? hss'

end Simplified

end LineBasic
