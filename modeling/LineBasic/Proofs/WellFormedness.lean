/-
  LineBasic.Proofs.WellFormedness

  Which programs are accepted.  The rules say what a well-formed program is without any
  order of checking: line numbers are distinct, jumps lead to lines that exist, and
  every statement is well typed, loop bodies of any depth included.  An analyst goes
  through a program step by step, remembers what it met and gives up at the first fault;
  it comes to the end exactly if the rules are kept.
-/

import LineBasic.Proofs.DeskWork
import LineBasic.Proofs.Dissection
import LineBasic.Proofs.LineOrder

namespace LineBasic

-- ============================================================================
-- The rules
-- ============================================================================

/-- A function goes by a name in any mixture of cases. -/
def Builtin.GoesBy (b : Builtin) (name : String) : Prop :=
  ∃ known, (known, b) ∈ table ∧ upper name.toList = known.toList

/-- What a function asks of its argument beyond being a number.  A square root refuses a
    comparison and a constant below zero, a logarithm also zero. -/
def Builtin.Takes : Builtin → Expr → Prop
  | math .sqrt, e =>
    (∀ pos rel l r, e ≠ .binary pos (.compare rel) l r) ∧ ∀ x, e.constant? = some x → ¬ x < 0.0
  | math .log, e =>
    (∀ pos rel l r, e ≠ .binary pos (.compare rel) l r) ∧ ∀ x, e.constant? = some x → ¬ x ≤ 0.0
  | _, _ => True

/-- The types of expressions. -/
inductive Expr.WellTyped : Expr → Ty → Prop
  | number {pos : Position} {x : Float} : WellTyped (.number pos x) .number
  | text {pos : Position} {s : String} : WellTyped (.text pos s) .text
  | var {pos : Position} {x : String} : WellTyped (.var pos x) .number
  | unary {pos : Position} {sign : Sign} {e : Expr} (operand : WellTyped e .number) :
      WellTyped (.unary pos sign e) .number
  | compare {pos : Position} {rel : Relation} {l r : Expr} {ty : Ty} (lhs : WellTyped l ty)
      (rhs : WellTyped r ty) : WellTyped (.binary pos (.compare rel) l r) .number
  | arith {pos : Position} {op : Arith} {l r : Expr} (lhs : WellTyped l .number)
      (rhs : WellTyped r .number) : WellTyped (.binary pos (.arith op) l r) .number
  | call {pos : Position} {name : String} {b : Builtin} {e : Expr} (known : b.GoesBy name)
      (arg : WellTyped e .number) (takes : b.Takes e) : WellTyped (.call pos name [e]) .number

/-- The statements with expressions of the right types. -/
inductive Stmt.WellTyped : Stmt → Prop
  | assign {pos : Position} {x : String} {e : Expr} (value : e.WellTyped .number) :
      WellTyped (.assign pos x e)
  | print {pos : Position} {e : Expr} {ty : Ty} (value : e.WellTyped ty) : WellTyped (.print pos e)
  | goto {pos : Position} {target : Nat} : WellTyped (.goto pos target)
  | gosub {pos : Position} {target : Nat} : WellTyped (.gosub pos target)
  | return_ {pos : Position} : WellTyped (.return_ pos)
  | ifThen {pos : Position} {c : Expr} {target : Nat} (condition : c.WellTyped .number) :
      WellTyped (.ifThen pos c target)
  | input {pos : Position} {x : String} : WellTyped (.input pos x)
  | forNext {pos : Position} {x : String} {a b : Expr} {c : Option Expr} {ss : List Stmt}
      (start : a.WellTyped .number) (stop : b.WellTyped .number)
      (step : ∀ e ∈ c, e.WellTyped .number) (body : ∀ s ∈ ss, WellTyped s) :
      WellTyped (.forNext pos x a b c ss)
  | end_ {pos : Position} : WellTyped (.end_ pos)

/-- The lines that a statement, or one in the body of a loop, names as targets. -/
inductive Stmt.JumpsTo : Stmt → Nat → Prop
  | goto {pos : Position} {n : Nat} : JumpsTo (.goto pos n) n
  | gosub {pos : Position} {n : Nat} : JumpsTo (.gosub pos n) n
  | ifThen {pos : Position} {c : Expr} {n : Nat} : JumpsTo (.ifThen pos c n) n
  | inBody {pos : Position} {x : String} {a b : Expr} {c : Option Expr} {ss : List Stmt} {s : Stmt}
      {n : Nat} (inner : s ∈ ss) (jumps : JumpsTo s n) : JumpsTo (.forNext pos x a b c ss) n

/-- A program that keeps the rules.  Jumps may lead nowhere unless the rules are strict. -/
structure Program.WellFormed (strict : Bool) (p : Program) : Prop where
  distinct : (p.lines.map Line.number).Nodup
  typed : ∀ l ∈ p.lines, ∀ s ∈ l.stmts, s.WellTyped
  targets : strict = true → ∀ l ∈ p.lines, ∀ s ∈ l.stmts, ∀ n, s.JumpsTo n →
    n ∈ p.lines.map Line.number

-- ============================================================================
-- Expressions
-- ============================================================================

/-- A function is found by its name in any mixture of cases, and by no other. -/
theorem Builtin.ofName?_eq_some_iff {name : String} {b : Builtin} :
    ofName? name = some b ↔ b.GoesBy name := by
  have hupper : name.toUpper.toList = upper name.toList := by
    rw [String.toUpper, String.toList_map]
    rfl
  constructor
  · intro h
    obtain ⟨before, after, htable, -⟩ := List.lookup_eq_some_iff.1 h
    refine ⟨name.toUpper, ?_, hupper.symm⟩
    rw [htable]
    exact List.mem_append_right _ (List.mem_cons_self ..)
  · rintro ⟨known, hmem, hname⟩
    have hknown : name.toUpper = known := String.toList_inj.1 (hupper.trans hname)
    have hlookup : ∀ entry ∈ table, table.lookup entry.1 = some entry.2 := by decide +kernel
    rw [ofName?, hknown]
    exact hlookup _ hmem

open Check

/-- Comparisons are told by their outermost operator. -/
theorem Expr.isComparison_eq_true_iff {e : Expr} :
    e.isComparison = true ↔ ∃ pos rel l r, e = .binary pos (.compare rel) l r := by
  constructor
  · intro h
    cases e with
    | binary pos op l r =>
      cases op with
      | arith op => cases h
      | compare rel => exact ⟨pos, rel, l, r, rfl⟩
    | _ => cases h
  · rintro ⟨pos, rel, l, r, rfl⟩
    rfl

namespace Builtin

variable {b : Builtin} {name : String} {e : Expr}

/-- A constant has to be in the domain, and nothing else has to. -/
theorem passes_demandDomain_iff {strict : Bool} :
    (∀ i ∈ e.demandDomain b name, i.passes strict = true) ↔
      ∀ x, e.constant? = some x → b.domainFault? x = none := by
  unfold Expr.demandDomain
  cases e.constant? with
  | none => exact iff_of_true (List.forall_mem_nil _) nofun
  | some x =>
    dsimp only
    cases hfault : b.domainFault? x with
    | none => exact iff_of_true (List.forall_mem_nil _) fun _ h => Option.some.inj h ▸ hfault
    | some why =>
      refine iff_of_false (fun h => by cases List.forall_mem_singleton.1 h) fun h => ?_
      rw [h x rfl] at hfault
      cases hfault

theorem domainFault?_sqrt_eq_none_iff {x : Float} :
    (math .sqrt).domainFault? x = none ↔ ¬ x < 0.0 := by
  unfold domainFault?
  simp

theorem domainFault?_log_eq_none_iff {x : Float} :
    (math .log).domainFault? x = none ↔ ¬ x ≤ 0.0 := by
  unfold domainFault?
  simp

/-- Of an argument is asked what the function takes. -/
theorem passes_demandArgument_iff {strict : Bool} :
    (∀ i ∈ e.demandArgument b name, i.passes strict = true) ↔ e.ty = .number ∧ b.Takes e := by
  have hcomparison :
      e.isComparison = false ↔ ∀ pos rel l r, e ≠ .binary pos (.compare rel) l r := by
    rw [← Bool.not_eq_true, Expr.isComparison_eq_true_iff]
    simp
  have hrefused : (!(b.refusesComparison && e.isComparison)) = true ↔
      (b.refusesComparison = true → e.isComparison = false) := by
    cases b.refusesComparison <;> simp
  rw [Expr.demandArgument, List.forall_mem_cons, List.forall_mem_cons, passes_demandDomain_iff,
    Expr.demandNumber, Item.passes_demand_iff, Item.passes_demand_iff, decide_eq_true_iff, hrefused]
  refine and_congr_right fun _ => ?_
  cases b with
  | math f =>
    cases f with
    | sqrt =>
      simp only [refusesComparison, Takes, hcomparison, domainFault?_sqrt_eq_none_iff,
        true_imp_iff]
    | log =>
      simp only [refusesComparison, Takes, hcomparison, domainFault?_log_eq_none_iff,
        true_imp_iff]
    | _ => simp [refusesComparison, domainFault?, Takes]
  | _ => simp [refusesComparison, domainFault?, Takes]

end Builtin

namespace Expr

variable {strict : Bool}

/-- An expression has no other type than the one that can be read off it. -/
theorem WellTyped.ty_eq {e : Expr} {ty : Ty} (h : e.WellTyped ty) : e.ty = ty := by
  cases h <;> rfl

/-- A call is well typed if the function is known and takes its one argument. -/
theorem wellTyped_call_iff {pos : Position} {name : String} {args : List Expr} :
    (call pos name args).WellTyped .number ↔
      ∃ b arg, Builtin.ofName? name = some b ∧ args = [arg] ∧ arg.WellTyped .number ∧
        b.Takes arg := by
  constructor
  · intro h
    cases h with
    | call known arg takes => exact ⟨_, _, Builtin.ofName?_eq_some_iff.2 known, rfl, arg, takes⟩
  · rintro ⟨b, arg, hb, rfl, harg, htakes⟩
    exact .call (Builtin.ofName?_eq_some_iff.1 hb) harg htakes

mutual

/-- Nothing stands against an expression if it is well typed under the rules. -/
theorem passes_items_iff (e : Expr) :
    (∀ i ∈ e.items, i.passes strict = true) ↔ e.WellTyped e.ty := by
  match e with
  | .number pos x => exact iff_of_true (List.forall_mem_nil _) .number
  | .text pos s => exact iff_of_true (List.forall_mem_singleton.2 rfl) .text
  | .var pos x => exact iff_of_true (List.forall_mem_singleton.2 rfl) .var
  | .unary pos sign e =>
    rw [items, List.forall_mem_append, List.forall_mem_singleton, passes_items_iff e,
      Item.passes_demand_iff, decide_eq_true_iff]
    constructor
    · rintro ⟨he, hty⟩
      rw [hty] at he
      exact .unary he
    · intro h
      cases h with
      | unary he =>
        rw [he.ty_eq]
        exact ⟨he, rfl⟩
  | .binary pos op l r =>
    rw [items, List.forall_mem_append, List.forall_mem_append, List.forall_mem_singleton,
      passes_items_iff l, passes_items_iff r]
    cases op with
    | compare rel =>
      rw [BinaryOp.demand, Item.passes_demand_iff, decide_eq_true_iff]
      constructor
      · rintro ⟨hl, hr, hsame⟩
        rw [hsame] at hl
        exact .compare hl hr
      · intro h
        cases h with
        | compare hl hr =>
          rw [hl.ty_eq, hr.ty_eq]
          exact ⟨hl, hr, rfl⟩
    | arith op =>
      rw [BinaryOp.demand, Item.passes_demand_iff, Bool.and_eq_true, decide_eq_true_iff,
        decide_eq_true_iff]
      constructor
      · rintro ⟨hl, hr, hlty, hrty⟩
        rw [hlty] at hl
        rw [hrty] at hr
        exact .arith hl hr
      · intro h
        cases h with
        | arith hl hr =>
          rw [hl.ty_eq, hr.ty_eq]
          exact ⟨hl, hr, rfl, rfl⟩
  | .call pos name args =>
    rw [items, List.forall_mem_cons]
    -- Meeting the call is harmless; what counts is what it asks of its arguments.
    refine (and_iff_right rfl).trans (Iff.trans ?_ wellTyped_call_iff.symm)
    cases hb : Builtin.ofName? name with
    | none =>
      refine iff_of_false (fun h => by cases (List.forall_mem_cons.1 h).1) ?_
      rintro ⟨_, _, h, -⟩
      cases h
    | some b =>
      dsimp only
      rw [List.forall_mem_cons, List.forall_mem_append, passes_itemsOfList_iff args,
        Item.passes_demand_iff, decide_eq_true_iff]
      constructor
      · rintro ⟨hlength, hargs, hdemands⟩
        obtain ⟨arg, rfl⟩ := List.length_eq_one_iff.1 hlength
        rw [List.flatMap_singleton, Builtin.passes_demandArgument_iff] at hdemands
        have harg := hargs arg (List.mem_singleton.2 rfl)
        rw [hdemands.1] at harg
        exact ⟨b, arg, rfl, rfl, harg, hdemands.2⟩
      · rintro ⟨b', arg, hb', rfl, harg, htakes⟩
        obtain rfl := Option.some.inj hb'
        rw [List.flatMap_singleton, Builtin.passes_demandArgument_iff, List.forall_mem_singleton,
          harg.ty_eq]
        exact ⟨rfl, harg, rfl, htakes⟩

theorem passes_itemsOfList_iff (es : List Expr) :
    (∀ i ∈ itemsOfList es, i.passes strict = true) ↔ ∀ e ∈ es, e.WellTyped e.ty := by
  match es with
  | [] => exact iff_of_true (List.forall_mem_nil _) (List.forall_mem_nil _)
  | e :: es =>
    rw [itemsOfList, List.forall_mem_append, List.forall_mem_cons, passes_items_iff e,
      passes_itemsOfList_iff es]

end

/-- Where a number is asked for, nothing stands against a well-typed number. -/
theorem passes_numberItems_iff {e : Expr} {fault : Fault} :
    (∀ i ∈ e.numberItems fault, i.passes strict = true) ↔ e.WellTyped .number := by
  rw [numberItems, List.forall_mem_append, List.forall_mem_singleton, passes_items_iff,
    demandNumber, Item.passes_demand_iff, decide_eq_true_iff]
  constructor
  · rintro ⟨he, hty⟩
    rwa [hty] at he
  · intro he
    rw [he.ty_eq]
    exact ⟨he, rfl⟩

end Expr

-- ============================================================================
-- Statements
-- ============================================================================

namespace Stmt

variable {targets : Targets}

/-- A statement that is well typed and whose jumps, if that is asked, lead to known lines. -/
structure Keeps (targets : Targets) (s : Stmt) : Prop where
  typed : s.WellTyped
  jumps : targets.strict = true → ∀ n, s.JumpsTo n → n ∈ targets.lines

theorem keeps_iff_of_plain {s : Stmt} (plain : ∀ n, ¬ s.JumpsTo n) :
    s.Keeps targets ↔ s.WellTyped :=
  ⟨Keeps.typed, fun typed => ⟨typed, fun _ n h => absurd h (plain n)⟩⟩

/-- Of a statement with one jump, the rules ask that it leads to a line. -/
theorem keeps_iff_of_jump {s : Stmt} {n : Nat} (jump : ∀ m, s.JumpsTo m ↔ m = n) :
    s.Keeps targets ↔ s.WellTyped ∧ (targets.strict = true → n ∈ targets.lines) := by
  constructor
  · rintro ⟨typed, jumps⟩
    exact ⟨typed, fun hstrict => jumps hstrict n ((jump n).2 rfl)⟩
  · rintro ⟨typed, hn⟩
    refine ⟨typed, fun hstrict m hm => ?_⟩
    rw [(jump m).1 hm]
    exact hn hstrict

theorem wellTyped_ifThen_iff {pos : Position} {c : Expr} {n : Nat} :
    (ifThen pos c n).WellTyped ↔ c.WellTyped .number := by
  constructor
  · intro h
    cases h with
    | ifThen condition => exact condition
  · exact .ifThen

theorem wellTyped_assign_iff {pos : Position} {x : String} {e : Expr} :
    (assign pos x e).WellTyped ↔ e.WellTyped .number := by
  constructor
  · intro h
    cases h with
    | assign value => exact value
  · exact .assign

theorem wellTyped_print_iff {pos : Position} {e : Expr} :
    (print pos e).WellTyped ↔ ∃ ty, e.WellTyped ty := by
  constructor
  · intro h
    cases h with
    | print value => exact ⟨_, value⟩
  · rintro ⟨ty, value⟩
    exact .print value

/-- Of a loop, they ask for its bounds and for all that is in its body. -/
theorem keeps_forNext_iff {pos : Position} {x : String} {a b : Expr} {c : Option Expr}
    {ss : List Stmt} :
    (forNext pos x a b c ss).Keeps targets ↔
      a.WellTyped .number ∧ b.WellTyped .number ∧ (∀ e ∈ c, e.WellTyped .number) ∧
        ∀ s ∈ ss, s.Keeps targets := by
  constructor
  · rintro ⟨typed, jumps⟩
    cases typed with
    | forNext start stop step body =>
      refine ⟨start, stop, step, fun s hs => ⟨body s hs, fun hstrict n hn => ?_⟩⟩
      exact jumps hstrict n (.inBody hs hn)
  · rintro ⟨start, stop, step, body⟩
    refine ⟨.forNext start stop step fun s hs => (body s hs).typed, fun hstrict n hn => ?_⟩
    cases hn with
    | inBody hs hn => exact (body _ hs).jumps hstrict n hn

mutual

/-- Nothing stands against a statement if it keeps the rules, loop bodies included. -/
theorem passes_items_iff (s : Stmt) :
    (∀ i ∈ s.items targets.lines, i.passes targets.strict = true) ↔ s.Keeps targets := by
  match s with
  | .assign pos x e =>
    rw [items, List.forall_mem_cons, Expr.passes_numberItems_iff,
      keeps_iff_of_plain (s := .assign pos x e) nofun, wellTyped_assign_iff]
    exact and_iff_right rfl
  | .print pos e =>
    rw [items, e.passes_items_iff, keeps_iff_of_plain (s := .print pos e) nofun,
      wellTyped_print_iff]
    constructor
    · exact fun h => ⟨_, h⟩
    · rintro ⟨ty, h⟩
      rwa [h.ty_eq]
  | .goto pos n =>
    have hjump : ∀ m, (goto pos n).JumpsTo m ↔ m = n :=
      fun m => ⟨fun h => by cases h; rfl, fun h => h ▸ .goto⟩
    rw [items, List.forall_mem_cons, List.forall_mem_singleton, Targets.passes_leadItem_iff,
      keeps_iff_of_jump hjump]
    exact and_congr_left fun _ => iff_of_true rfl .goto
  | .gosub pos n =>
    have hjump : ∀ m, (gosub pos n).JumpsTo m ↔ m = n :=
      fun m => ⟨fun h => by cases h; rfl, fun h => h ▸ .gosub⟩
    rw [items, List.forall_mem_cons, List.forall_mem_singleton, Targets.passes_leadItem_iff,
      keeps_iff_of_jump hjump]
    exact and_congr_left fun _ => iff_of_true rfl .gosub
  | .ifThen pos c n =>
    have hjump : ∀ m, (ifThen pos c n).JumpsTo m ↔ m = n :=
      fun m => ⟨fun h => by cases h; rfl, fun h => h ▸ .ifThen⟩
    rw [items, List.forall_mem_cons, List.forall_mem_append, List.forall_mem_singleton,
      Expr.passes_numberItems_iff, Targets.passes_leadItem_iff, keeps_iff_of_jump hjump,
      wellTyped_ifThen_iff]
    exact and_iff_right rfl
  | .return_ pos =>
    exact iff_of_true (List.forall_mem_singleton.2 rfl)
      ((keeps_iff_of_plain (s := .return_ pos) nofun).2 .return_)
  | .input pos x =>
    exact iff_of_true (List.forall_mem_singleton.2 rfl)
      ((keeps_iff_of_plain (s := .input pos x) nofun).2 .input)
  | .forNext pos x a b c ss =>
    have hstep : (∀ i ∈ c.toList.flatMap (Expr.numberItems · (.textBound .step)),
        i.passes targets.strict = true) ↔ ∀ e ∈ c, e.WellTyped .number := by
      cases c with
      | none => exact iff_of_true (List.forall_mem_nil _) nofun
      | some e =>
        rw [Option.toList_some, List.flatMap_singleton, Expr.passes_numberItems_iff]
        simp
    rw [items, keeps_forNext_iff, List.forall_mem_cons, List.forall_mem_cons,
      List.forall_mem_append, List.forall_mem_append, List.forall_mem_append, List.forall_mem_cons,
      List.forall_mem_append, List.forall_mem_singleton, Expr.passes_numberItems_iff,
      Expr.passes_numberItems_iff, hstep, passes_itemsOfList_iff ss]
    simp only [Item.passes, true_and, and_true]
  | .end_ pos =>
    exact iff_of_true (List.forall_mem_singleton.2 rfl)
      ((keeps_iff_of_plain (s := .end_ pos) nofun).2 .end_)

theorem passes_itemsOfList_iff (ss : List Stmt) :
    (∀ i ∈ itemsOfList targets.lines ss, i.passes targets.strict = true) ↔
      ∀ s ∈ ss, s.Keeps targets := by
  match ss with
  | [] => exact iff_of_true (List.forall_mem_nil _) (List.forall_mem_nil _)
  | s :: ss =>
    rw [itemsOfList, List.forall_mem_append, List.forall_mem_cons, passes_items_iff s,
      passes_itemsOfList_iff ss]

end

end Stmt

-- ============================================================================
-- Programs
-- ============================================================================

namespace Program

/-- The check accepts the well-formed programs. -/
theorem check_eq_ok_iff_wellFormed {p : Program} {strict : Bool} :
    (p.check strict).outcome = .ok () ↔ p.WellFormed strict := by
  let targets : Targets := ⟨p.lines.map Line.number, strict⟩
  have hlines : ∀ l : Line, (∀ i ∈ Stmt.itemsOfList (p.lines.map Line.number) l.stmts,
      i.passes strict = true) ↔ ∀ s ∈ l.stmts, s.Keeps targets :=
    fun l => @Stmt.passes_itemsOfList_iff targets l.stmts
  simp only [check_eq_ok_iff, hlines]
  constructor
  · rintro ⟨distinct, keeps⟩
    exact ⟨distinct, fun l hl s hs => (keeps l hl s hs).typed,
      fun hstrict l hl s hs => (keeps l hl s hs).jumps hstrict⟩
  · rintro ⟨distinct, typed, targets⟩
    exact ⟨distinct, fun l hl s hs => ⟨typed l hl s hs, fun hstrict => targets hstrict l hl s hs⟩⟩

instance {p : Program} {strict : Bool} : Decidable (p.WellFormed strict) :=
  @decidable_of_iff _ _ check_eq_ok_iff_wellFormed (decidableEqExcept _ _)

end Program

/-- Whatever an analyst has met before and whatever lies on the desk, it accepts a program
    exactly if the program keeps the rules that the analyst judges by. -/
theorem Visit.accepts_iff_wellFormed (a : Analyst) (desk : Desk) (p : Program) :
    (∃ found, ((Visit.workOn p).run.run (a, desk)).1 = .ok found) ↔ p.WellFormed a.strict := by
  simp only [Visit.run_workOn, Analyst.visit_eq_ok_iff, Program.check_eq_ok_iff_wellFormed]
  constructor
  · rintro ⟨found, hformed, -⟩
    exact hformed
  · exact fun hformed => ⟨p.inventory, hformed, rfl⟩

/-- A jump out of two loops, to a line that is there or not, with a logarithm on the way. -/
def nested (target : Nat) (arg : Expr) : Program :=
  let pos : Position := ⟨1, 1⟩
  let loop := fun x => Stmt.forNext pos x (.number pos 1.0) (.call pos "Log" [arg]) none
  ⟨[⟨10, [loop "I" [loop "J" [.goto pos target]]], pos⟩]⟩

example :
    (nested 10 (.var ⟨1, 1⟩ "X")).WellFormed true ∧
      ¬ (nested 99 (.var ⟨1, 1⟩ "X")).WellFormed true ∧
      (nested 99 (.var ⟨1, 1⟩ "X")).WellFormed false ∧
      ¬ (nested 10 (.number ⟨1, 1⟩ 0.0)).WellFormed false := by decide +kernel

end LineBasic
