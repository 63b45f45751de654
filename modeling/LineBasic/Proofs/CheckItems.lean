/-
  LineBasic.Proofs.CheckItems

  What a check does, laid out as a list.  A check meets variables, literals and jumps,
  asks that rules hold, and looks up where jumps lead.  Which of these it does, and in
  which order, can be told from the program before the check is run (`Program.items`),
  and the check goes through them one by one until something stands against it
  (`Program.check_eq_runItems`).

  What is said about checks elsewhere is proved about such lists, one item after the
  other; how expressions and statements are checked is only looked at here.
-/

import LineBasic.Check

namespace LineBasic

-- ============================================================================
-- Items
-- ============================================================================

/-- The fault that a finding is to a strict check, if it is one. -/
@[reducible] def Finding.missing? : Finding → Option CheckError
  | missing j target pos => some ⟨.missingTarget j target, pos⟩
  | _ => none

namespace Check

/-- One thing that a check does. -/
inductive Item where
  /-- It meets something that no check takes for a fault. -/
  | meet (f : Finding) (harmless : f.missing? = none)
  /-- It asks that a rule holds. -/
  | demand (holds : Bool) (e : CheckError)
  /-- It asks whether a jump leads to a line. -/
  | lead (known : Bool) (jump : Jump) (target : Nat) (pos : Position)

namespace Item

/-- Does one thing. -/
def run (strict : Bool) : Item → Check Unit
  | meet f _ => Traced.note f
  | demand holds e => if holds then pure () else Traced.fail e
  | lead known jump target pos =>
    if known then pure ()
    else if strict then refuse (.missingTarget jump target) pos
    else Traced.note (.missing jump target pos)

/-- What is found by it unless the check ends there. -/
def finding? : Item → Option Finding
  | meet f _ => some f
  | demand _ _ => none
  | lead known jump target pos => if known then none else some (.missing jump target pos)

/-- Whether nothing stands against it. -/
def passes (strict : Bool) : Item → Bool
  | meet _ _ => true
  | demand holds _ => holds
  | lead known _ _ _ => known || !strict

end Item

/-- Does one thing after the other. -/
def runItems (strict : Bool) : List Item → Check Unit
  | [] => pure ()
  | i :: is => do
    i.run strict
    runItems strict is

/-- What is found by items unless the check ends before. -/
def found (is : List Item) : List Finding := is.filterMap Item.finding?

section Lists

variable {strict : Bool} {is js : List Item}

/-- Items one after the other are checks one after the other. -/
theorem runItems_append : runItems strict (is ++ js)
    = runItems strict is >>= fun _ => runItems strict js := by
  induction is with
  | nil => rfl
  | cons i is ih =>
    rw [List.cons_append, runItems, runItems, ih, bind_assoc]

theorem runItems_cons {i : Item} :
    runItems strict (i :: is) = i.run strict >>= fun _ => runItems strict is := rfl

theorem runItems_singleton {i : Item} : runItems strict [i] = i.run strict := by
  rw [runItems_cons]
  exact bind_pure (i.run strict)

@[simp] theorem found_nil : found [] = [] := rfl

@[simp] theorem found_append : found (is ++ js) = found is ++ found js := List.filterMap_append

@[simp] theorem found_meet {f : Finding} {h : f.missing? = none} :
    found (.meet f h :: is) = f :: found is := rfl

@[simp] theorem found_demand {holds : Bool} {e : CheckError} :
    found (.demand holds e :: is) = found is := rfl

/-- A check goes through if nothing stands against any of its items. -/
theorem runItems_eq_ok_iff :
    (runItems strict is).outcome = .ok () ↔ ∀ i ∈ is, i.passes strict = true := by
  induction is with
  | nil => exact iff_of_true rfl (List.forall_mem_nil _)
  | cons i is ih =>
    have hfirst : (i.run strict).outcome = .ok () ↔ i.passes strict = true := by
      cases i with
      | meet f _ => exact iff_of_true rfl rfl
      | demand holds e => cases holds <;> simp [Item.run, Item.passes]
      | lead known jump target pos =>
        cases known <;> cases strict <;> simp [Item.run, Item.passes, refuse]
    rw [runItems_cons, Traced.outcome_bind_eq_ok_iff, List.forall_mem_cons, ← hfirst, ← ih]
    constructor
    · rintro ⟨⟨⟩, h⟩
      exact h
    · exact fun h => ⟨(), h⟩

theorem Item.passes_demand_iff {holds : Bool} {e : CheckError} :
    (demand holds e).passes strict = true ↔ holds = true := Iff.rfl

/-- A check meets what it is supposed to, up to where it fails. -/
structure KeepsTo {α : Type} (x : Check α) (fs : List Finding) : Prop where
  front : x.notes <+: fs
  whole : ∀ a, x.outcome = .ok a → x.notes = fs

/-- What is noted is what is found, up to where the check ends. -/
theorem keepsTo_runItems (strict : Bool) (is : List Item) :
    (runItems strict is).KeepsTo (found is) := by
  induction is with
  | nil => exact ⟨List.prefix_refl _, fun _ _ => rfl⟩
  | cons i is ih =>
    -- One item notes what it finds, unless the check ends there.
    have hfirst : (i.run strict).notes <+: i.finding?.toList ∧
        ((i.run strict).outcome = .ok () → (i.run strict).notes = i.finding?.toList) := by
      cases i with
      | meet f _ => exact ⟨List.prefix_refl _, fun _ => rfl⟩
      | demand holds e => cases holds <;> exact ⟨List.prefix_refl _, fun _ => rfl⟩
      | lead known jump target pos =>
        cases known <;> cases strict <;>
          simp [Item.run, Item.finding?, refuse]
    have hfound : found (i :: is) = i.finding?.toList ++ found is := by
      unfold found
      rw [List.filterMap_cons]
      cases i.finding? <;> rfl
    rw [runItems_cons, hfound]
    cases h : (i.run strict).outcome with
    | error e =>
      rw [Traced.bind_of_error h]
      exact ⟨List.prefix_append_of_prefix hfirst.1, fun _ ha => by cases ha⟩
    | ok u =>
      rw [Traced.bind_of_ok h, hfirst.2 h]
      exact ⟨(List.prefix_append_right_inj _).2 ih.front,
        fun a ha => congrArg (i.finding?.toList ++ ·) (ih.whole a ha)⟩

end Lists

end Check

open Check

-- ============================================================================
-- Expressions
-- ============================================================================

/-- What is asked of the operands of an operator. -/
def BinaryOp.demand (op : BinaryOp) (pos : Position) (lhs rhs : Ty) : Item :=
  match op with
  | .compare _ => .demand (lhs = rhs) ⟨.mixedComparison lhs rhs, pos⟩
  | .arith a => .demand (lhs = .number && rhs = .number) ⟨.textArithmetic a, pos⟩

namespace Expr

/-- The type that a check gives an expression: only string literals are texts. -/
def ty : Expr → Ty
  | text _ _ => .text
  | _ => .number

/-- That an expression is a number. -/
def demandNumber (e : Expr) (fault : Fault) : Item := .demand (e.ty = .number) ⟨fault, e.pos⟩

/-- That an argument is not outside the domain of a function, if its value is known. -/
def demandDomain (b : Builtin) (name : String) (arg : Expr) : List Item :=
  match arg.constant? with
  | none => []
  | some x =>
    match b.domainFault? x with
    | none => []
    | some why => [.demand false ⟨.outOfDomain name x why, arg.pos⟩]

/-- What is asked of the argument of a function. -/
def demandArgument (b : Builtin) (name : String) (arg : Expr) : List Item :=
  arg.demandNumber (.textArgument name) ::
    .demand (!(b.refusesComparison && arg.isComparison)) ⟨.comparisonArgument name, arg.pos⟩ ::
    arg.demandDomain b name

mutual

/-- What the check of an expression does. -/
def items : Expr → List Item
  | number _ _ => []
  | text pos value => [.meet (.literal value pos) rfl]
  | var pos name => [.meet (.variable_ name pos) rfl]
  | unary pos sign operand =>
    items operand ++ [.demand (operand.ty = .number) ⟨.textSigned sign, pos⟩]
  | binary pos op lhs rhs => items lhs ++ (items rhs ++ [op.demand pos lhs.ty rhs.ty])
  | call pos name args =>
    .meet (.call name pos) rfl ::
      match Builtin.ofName? name with
      | none => .demand false ⟨.unknownFunction name, pos⟩ :: itemsOfList args
      | some b =>
        .demand (args.length = 1) ⟨.wrongArity name b.arity args.length, pos⟩ ::
          (itemsOfList args ++ args.flatMap (demandArgument b name))

/-- What the checks of expressions do, one after the other. -/
def itemsOfList : List Expr → List Item
  | [] => []
  | e :: es => items e ++ itemsOfList es

end

/-- What is done where an expression has to be a number. -/
def numberItems (e : Expr) (fault : Fault) : List Item := e.items ++ [e.demandNumber fault]

variable {strict : Bool}

/-- What is asked of arguments finds nothing. -/
theorem found_demandArgument {b : Builtin} {name : String} (args : List Expr) :
    found (args.flatMap (demandArgument b name)) = [] := by
  refine List.filterMap_eq_nil_iff.2 fun i hi => ?_
  obtain ⟨arg, -, hi⟩ := List.mem_flatMap.1 hi
  rcases List.mem_cons.1 hi with rfl | hi
  · rfl
  rcases List.mem_cons.1 hi with rfl | hi
  · rfl
  unfold demandDomain at hi
  split at hi
  · cases hi
  · split at hi
    · cases hi
    · rw [List.mem_singleton.1 hi]
      rfl

/-- A call is found in front of what its arguments hold, whatever is asked of it. -/
theorem found_items_call {pos : Position} {name : String} {args : List Expr} :
    found (items (.call pos name args)) = .call name pos :: found (itemsOfList args) := by
  rw [items]
  cases Builtin.ofName? name with
  | none => rfl
  | some b =>
    rw [found_meet, found_demand, found_append, found_demandArgument, List.append_nil]

theorem found_numberItems {e : Expr} {fault : Fault} :
    found (e.numberItems fault) = found e.items := by
  rw [numberItems, found_append]
  exact List.append_nil _

/-- The check of an argument goes through what is asked of it beyond being a number. -/
theorem checkArgument_eq_runItems {b : Builtin} {name : String} {arg : Expr} :
    b.checkArgument name arg = runItems strict
      (.demand (!(b.refusesComparison && arg.isComparison)) ⟨.comparisonArgument name, arg.pos⟩ ::
        arg.demandDomain b name) := by
  rw [Builtin.checkArgument, runItems_cons, demandDomain]
  refine bind_congr fun _ => ?_
  cases arg.constant? with
  | none => rfl
  | some x =>
    dsimp only
    cases b.domainFault? x with
    | none => rfl
    | some why => rfl

theorem check_binary_eq {op : BinaryOp} {pos : Position} {l r : Ty} :
    op.check pos l r = (op.demand pos l r).run strict >>= fun _ => pure .number := by
  cases op <;> rfl

/-- The check of an expression goes through its items and gives the type. -/
theorem check_eq_runItems (strict : Bool) (e : Expr) :
    e.check = runItems strict e.items >>= fun _ => pure e.ty := by
  fun_induction Expr.check e with
  | case1 pos x => rfl
  | case2 pos s => rfl
  | case3 pos x => rfl
  | case4 pos sign e ih =>
    rw [ih, items, runItems_append, runItems_singleton]
    simp only [bind_assoc, pure_bind]
    rfl
  | case5 pos op l r ihl ihr =>
    rw [ihl, ihr, items, runItems_append, runItems_append, runItems_singleton]
    simp only [bind_assoc, pure_bind]
    exact bind_congr fun _ => bind_congr fun _ => check_binary_eq
  | case6 pos name args ih =>
    rw [items, runItems_cons, bind_assoc]
    refine bind_congr fun _ => ?_
    split
    · next hb =>
      -- An unknown function ends the check, and the items behind it are never reached.
      rw [hb]
      rfl
    · next b arg hb =>
      -- One argument: its own items come first, then what the function asks of it.
      rw [hb] at ih ⊢
      have hargs : itemsOfList [arg] ++ [arg].flatMap (demandArgument b name)
          = arg.items ++ demandArgument b name arg := by
        rw [itemsOfList, itemsOfList, List.append_nil, List.flatMap_singleton]
      dsimp only
      rw [runItems_cons, hargs, runItems_append, demandArgument, runItems_cons,
        ← checkArgument_eq_runItems, show arg.check = _ from ih]
      simp only [bind_assoc, pure_bind]
      rfl
    · next args _ _ b hb hargs =>
      -- Any other number of arguments ends the check in front of them.
      rw [hb]
      have hlength : decide (args.length = 1) = false := by
        refine decide_eq_false fun h => ?_
        obtain ⟨arg, rfl⟩ := List.length_eq_one_iff.1 h
        exact hargs arg rfl
      dsimp only
      rw [hlength]
      rfl

/-- An expression has its type if nothing stands against its items. -/
theorem check_eq_ok_iff_passes (strict : Bool) {e : Expr} {ty : Ty} :
    e.check.outcome = .ok ty ↔ (∀ i ∈ e.items, i.passes strict = true) ∧ e.ty = ty := by
  rw [check_eq_runItems strict, Traced.outcome_bind_eq_ok_iff, ← runItems_eq_ok_iff]
  simp only [Traced.outcome_pure, Except.ok.injEq]
  constructor
  · rintro ⟨⟨⟩, h⟩
    exact h
  · exact fun h => ⟨(), h⟩

theorem checkNumber_eq_runItems {e : Expr} {fault : Fault} :
    e.checkNumber fault = runItems strict (e.numberItems fault) := by
  rw [checkNumber, check_eq_runItems strict, numberItems, runItems_append, runItems_singleton]
  simp only [bind_assoc, pure_bind]
  rfl

end Expr

-- ============================================================================
-- Statements and programs
-- ============================================================================

/-- That a jump leads to one of the lines. -/
def leadItem (lines : List Nat) (jump : Jump) (target : Nat) (pos : Position) : Item :=
  .lead (target ∈ lines) jump target pos

namespace Stmt

mutual

/-- What the check of a statement does, where the program has the given lines. -/
def items (lines : List Nat) : Stmt → List Item
  | assign pos name value =>
    .meet (.variable_ name pos) rfl :: value.numberItems (.textAssigned name)
  | print _ value => value.items
  | goto pos target => [.meet (.jump .goto target pos) rfl, leadItem lines .goto target pos]
  | gosub pos target => [.meet (.jump .gosub target pos) rfl, leadItem lines .gosub target pos]
  | return_ pos => [.meet (.returned pos) rfl]
  | ifThen pos condition target =>
    .meet (.jump .ifThen target pos) rfl ::
      (condition.numberItems .textCondition ++ [leadItem lines .ifThen target pos])
  | input pos name => [.meet (.variable_ name pos) rfl]
  | forNext pos name start stop step body =>
    .meet (.loop name pos) rfl :: .meet (.variable_ name pos) rfl ::
      (start.numberItems (.textBound .start) ++ (stop.numberItems (.textBound .stop) ++
        (step.toList.flatMap (Expr.numberItems · (.textBound .step)) ++
          .meet .bodyStart rfl :: (itemsOfList lines body ++ [.meet .bodyEnd rfl]))))
  | end_ pos => [.meet (.ended pos) rfl]

/-- What the checks of statements do, one after the other. -/
def itemsOfList (lines : List Nat) : List Stmt → List Item
  | [] => []
  | s :: ss => items lines s ++ itemsOfList lines ss

end

end Stmt

/-- What the check of lines does. -/
def lineItems (lines : List Nat) : List Line → List Item
  | [] => []
  | l :: ls => .meet (.line l.number) rfl :: (Stmt.itemsOfList lines l.stmts ++ lineItems lines ls)

/-- What the check of a program does: it asks first that no line number is repeated. -/
def Program.items (p : Program) : List Item :=
  match repeated? [] p.lines with
  | some l => .demand false ⟨.duplicateLine l.number, l.pos⟩ ::
      lineItems (p.lines.map Line.number) p.lines
  | none => lineItems (p.lines.map Line.number) p.lines

/-- A jump is in order if it leads to a line, or if that is not asked. -/
theorem Targets.passes_leadItem_iff {targets : Targets} {jump : Jump} {target : Nat}
    {pos : Position} :
    (leadItem targets.lines jump target pos).passes targets.strict = true ↔
      (targets.strict = true → target ∈ targets.lines) := by
  rw [leadItem, Item.passes, Bool.or_eq_true, decide_eq_true_iff]
  cases targets.strict <;> simp

theorem Targets.check_eq_run {targets : Targets} {jump : Jump} {target : Nat} {pos : Position} :
    targets.check jump target pos
      = (leadItem targets.lines jump target pos).run targets.strict := by
  unfold Targets.check leadItem Item.run
  by_cases h : target ∈ targets.lines <;> simp [h]

namespace Stmt

variable {targets : Targets}

mutual

/-- The check of a statement goes through its items. -/
theorem check_eq_runItems (s : Stmt) :
    s.check targets = runItems targets.strict (s.items targets.lines) := by
  match s with
  | .assign pos x e =>
    rw [check, items, runItems_cons, Expr.checkNumber_eq_runItems]
    rfl
  | .print pos e =>
    rw [check, items, Expr.check_eq_runItems targets.strict, bind_assoc]
    exact bind_pure (runItems targets.strict e.items)
  | .goto pos target =>
    rw [check, items, runItems_cons, runItems_singleton, Targets.check_eq_run]
    rfl
  | .gosub pos target =>
    rw [check, items, runItems_cons, runItems_singleton, Targets.check_eq_run]
    rfl
  | .return_ pos => rw [check, items, runItems_singleton]; rfl
  | .ifThen pos c target =>
    rw [check, items, runItems_cons, runItems_append, runItems_singleton, Targets.check_eq_run,
      Expr.checkNumber_eq_runItems]
    rfl
  | .input pos x => rw [check, items, runItems_singleton]; rfl
  | .forNext pos x start stop step body =>
    -- The brackets around the body belong to the loop, so they are taken together with it.
    have hbody : (do Traced.note .bodyStart; checkList targets body; Traced.note .bodyEnd)
        = runItems targets.strict
            (.meet .bodyStart rfl :: (itemsOfList targets.lines body ++ [.meet .bodyEnd rfl])) := by
      rw [runItems_cons, runItems_append, runItems_singleton, checkList_eq_runItems body]
      rfl
    rw [check, items, runItems_cons, runItems_cons, runItems_append, runItems_append,
      runItems_append, ← hbody, Expr.checkNumber_eq_runItems, Expr.checkNumber_eq_runItems]
    cases step with
    | none => rfl
    | some e =>
      dsimp only
      rw [Option.toList_some, List.flatMap_singleton, Expr.checkNumber_eq_runItems]
      rfl
  | .end_ pos => rw [check, items, runItems_singleton]; rfl

theorem checkList_eq_runItems (ss : List Stmt) :
    checkList targets ss = runItems targets.strict (itemsOfList targets.lines ss) := by
  match ss with
  | [] => rfl
  | s :: ss =>
    rw [checkList, itemsOfList, runItems_append, check_eq_runItems s, checkList_eq_runItems ss]

end

end Stmt

/-- The check of lines goes through the items of one line after the other. -/
theorem checkLines_eq_runItems {targets : Targets} (ls : List Line) :
    checkLines targets ls = runItems targets.strict (lineItems targets.lines ls) := by
  induction ls with
  | nil => rfl
  | cons l ls ih =>
    rw [checkLines, lineItems, runItems_cons, runItems_append, ih, Stmt.checkList_eq_runItems]
    rfl

/-- The check of a program goes through its items. -/
theorem Program.check_eq_runItems (p : Program) (strict : Bool) :
    p.check strict = runItems strict p.items := by
  unfold Program.check Program.items
  cases repeated? [] p.lines with
  | some l => rfl
  | none => exact checkLines_eq_runItems p.lines

end LineBasic
