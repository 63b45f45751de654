/-
  LineBasic.Proofs.BenchWork

  Making modules at a bench comes to the same as making them away from it.  The lemmas
  go up with the program: expressions, statements, lines, subroutines inside one
  another, and the text of the module with its declarations.  What a bench makes of a
  program depends on the program and on the inventory for it, and on nothing else that
  lies on the bench (`Craft.run_workOn`).
-/

import LineBasic.Proofs.BenchSteps

namespace LineBasic

namespace Craft

-- ============================================================================
-- Expressions
-- ============================================================================

variable {c : Stand} {site : Option Nat}

/-- A comparison is made of the same instructions: of numbers, or of texts when a literal is one
    of the operands. -/
theorem follows_relation {rel : Relation} {lhs rhs : Expr} {lhsWork rhsWork : Craft Operand}
    {lhsCode rhsCode : Straight Operand} (hl : Follows c site lhsWork lhsCode)
    (hr : Follows c site rhsWork rhsCode) :
    Follows c site (relation rel lhs rhs lhsWork rhsWork)
      (rel.lower c.env lhs rhs lhsCode rhsCode) := by
  unfold relation
  split
  · exact .use (.bind .textAddress fun _ => .bind .textAddress fun _ =>
        .bind (.define fun _ => granted rfl rfl) fun _ => .define fun _ => quiet rfl rfl)
      (.after fun _ => .after fun _ => .before (.define fun _ => rfl))
  · next h =>
    rw [Relation.lower.eq_2 _ _ _ _ _ _ h]
    exact .bind hl fun _ => .bind hr fun _ => .define fun _ => quiet rfl rfl

/-- Functions call what they call in both, and write the same code around it. -/
theorem follows_builtin {b : Builtin} {x : Operand} :
    Follows c site (builtin b x) (b.lower x) := by
  cases b with
  | cdbl => exact .pure
  | rnd =>
    exact .use (.bind (.define fun _ => granted rfl rfl) fun _ => .pure)
      (.before (.define fun _ => rfl))
  | fix =>
    exact .bind (.define fun _ => quiet rfl rfl) fun _ =>
      .bind (.define fun _ => quiet rfl rfl) fun _ => .pure
  | sgn =>
    exact .bind (.define fun _ => quiet rfl rfl) fun _ =>
      .bind (.define fun _ => quiet rfl rfl) fun _ =>
      .bind (.define fun _ => quiet rfl rfl) fun _ =>
      .bind (.define fun _ => quiet rfl rfl) fun _ =>
      .bind (.define fun _ => quiet rfl rfl) fun _ => .pure
  | csng =>
    exact .bind (.define fun _ => quiet rfl rfl) fun _ =>
      .bind (.define fun _ => quiet rfl rfl) fun _ => .pure
  | math f =>
    exact .use (.bind (.define fun _ => granted rfl rfl) fun _ => .pure)
      (.before (.define fun _ => rfl))

/-- Expressions, by induction on their form under the rules for lowering. -/
theorem follows_expr (e : Expr) : Follows c site (expr e) (e.lower c.env) := by
  induction e using Expr.rec_lower with
  | number pos x => exact .pure
  | text pos s => exact .fail
  | var pos name =>
    exact .bind .requireSlot fun _ => .bind (.define fun _ => quiet rfl rfl) fun _ => .pure
  | plus pos e ih => exact ih
  | minus pos e ih =>
    exact .bind ih fun _ => .bind (.defineAs fun _ => quiet rfl rfl) fun _ => .pure
  | compare pos rel l r ihl ihr =>
    exact .bind (follows_relation ihl ihr) fun _ =>
      .bind (.define fun _ => quiet rfl rfl) fun _ => .pure
  | arith pos op l r ihl ihr =>
    exact .bind ihl fun _ => .bind ihr fun _ =>
      .bind (.define fun _ => quiet rfl rfl) fun _ => .pure
  | unknown pos name args hb =>
    rw [Expr.lower_unknown hb, expr.eq_8 _ _ _ hb]
    exact .fail
  | call pos name b arg hb ih =>
    rw [Expr.lower_call hb, expr.eq_9 _ _ _ _ hb]
    exact .bind ih fun _ => follows_builtin
  | arity pos name b args hb hargs =>
    rw [Expr.lower_arity hb hargs, expr.eq_10 _ _ _ _ hb hargs]
    exact .fail

/-- A condition is a comparison as it stands, or any other value compared with zero. -/
theorem follows_condition (e : Expr) : Follows c site (condition e) (e.lowerCondition c.env) := by
  unfold condition
  split
  · exact follows_relation (follows_expr _) (follows_expr _)
  · next h =>
    rw [Expr.lowerCondition.eq_2 _ _ h]
    exact .fail

-- ============================================================================
-- Simple statements
-- ============================================================================

theorem follows_assign {name : String} {value : Expr} :
    Follows c site (assign name value) (Stmt.lowerAssign c.env name value) :=
  .bind (follows_expr value) fun _ => .bind .requireSlot fun _ => .emit (quiet rfl rfl)

/-- What is printed is a text or a number, told by the form of the expression. -/
theorem follows_print {value : Expr} :
    Follows c site (print value) (Stmt.lowerPrint c.env value) := by
  unfold print
  split
  · exact .use (.bind .textAddress fun _ => .bind (.define fun _ => quiet rfl rfl) fun _ =>
        .emit (granted rfl rfl))
      (.after fun _ => .after fun _ => .emit rfl)
  · next h =>
    rw [Stmt.lowerPrint.eq_2 _ _ h]
    exact .use (.bind (follows_expr value) fun _ => .bind (.define fun _ => quiet rfl rfl) fun _ =>
        .emit (granted rfl rfl))
      (.after fun _ => .after fun _ => .emit rfl)

theorem follows_input {name : String} :
    Follows c site (input name) (Stmt.lowerInput c.env name) :=
  .use (.bind .requireSlot fun _ => .bind (.define fun _ => quiet rfl rfl) fun _ =>
      .emit (granted rfl rfl))
    (.after fun _ => .after fun _ => .emit rfl)

/-- The body of a loop, statement by statement; one that does not belong there is refused. -/
theorem follows_body (ss : List Stmt) :
    Follows c site (body ss) (Stmt.lowerBody c.env ss) := by
  induction ss with
  | nil => exact .pure
  | cons s ss ih =>
    cases s with
    | assign pos name value => exact .bind follows_assign fun _ => ih
    | print pos value => exact .bind follows_print fun _ => ih
    | _ => exact .fail

theorem follows_step (e : Option Expr) :
    Follows c site (step e) (Stmt.lowerStep c.env e) := by
  cases e with
  | none => exact .pure
  | some e => exact follows_expr e

/-- A loop: its entry, the test, the body and the step, each behind its label. -/
theorem does_loop {site : Nat} {owner : Label} {k : Nat} {name : String} {start stop : Expr}
    {by_ : Option Expr} {inside : List Stmt} :
    Does c (At site) (At site) (loop owner k name start stop by_ inside)
      (Stmt.lowerLoop c.env site owner k name start stop by_ inside) := by
  -- The code of a loop comes in four stretches; the work does one thing after the other.
  simp only [Stmt.lowerLoop, straight_bind, bind_assoc]
  exact .bind Follows.requireSlot fun _ => .bind (follows_expr start) fun _ =>
    .bind (Follows.emitAs (quiet rfl rfl)) fun _ => .bind (Follows.emit (quiet rfl rfl)) fun _ =>
    .bind .label fun _ =>
    .bind (Follows.define fun _ => quiet rfl rfl) fun _ => .bind (follows_expr stop) fun _ =>
    .bind (Follows.defineAs fun _ => quiet rfl rfl) fun _ =>
    .bind (Follows.emit (quiet rfl rfl)) fun _ =>
    .bind .label fun _ =>
    .bind (follows_body inside) fun _ => .bind (Follows.emit (quiet rfl rfl)) fun _ =>
    .bind .label fun _ =>
    .bind (follows_step by_) fun _ => .bind (Follows.define fun _ => quiet rfl rfl) fun _ =>
    .bind (Follows.defineAs fun _ => quiet rfl rfl) fun _ =>
    .bind (Follows.emit (quiet rfl rfl)) fun _ =>
    .bind (Follows.emit (quiet rfl rfl)) fun _ => .label

-- ============================================================================
-- Statements of a line
-- ============================================================================

/-- A way to expand subroutines at a bench follows one to expand them away from it. -/
def Expands (c : Stand) (x : Expansion) (y : Expander) : Prop :=
  ∀ (site target : Nat) (start next : Label),
    Does c (At site) (At site) (x target start next) (y site target start next)

theorem does_lookEnv {α : Type} {P Q : Option Nat → Prop} {f : Env → Craft α} {y : Lower α}
    (h : Does c P Q (f c.env) y) : Does c P Q (Work.look Bench.env >>= f) y := by
  intro b desk hc hp
  rw [Work.run_bind_ok (Work.run_look Bench.env), hc.env]
  exact h b desk hc hp

/-- Statements, by their form.  A subroutine is expanded by what expands on either side, which
    follow each other by assumption. -/
theorem does_stmt {x : Expansion} {y : Expander} (hx : Expands c x y) {site : Nat} {frame : Frame}
    {k : Nat} (s : Stmt) :
    Does c (At site) (At site) (stmt x frame k s) (s.lower c.env y site frame k) := by
  cases s with
  | assign pos name value => exact .bind follows_assign fun _ => .pure
  | print pos value => exact .bind follows_print fun _ => .pure
  | input pos name => exact .bind follows_input fun _ => .pure
  | goto pos target =>
    refine does_lookEnv ?_
    rw [Stmt.lower]
    by_cases h : c.env.hasLine target
    · rw [if_pos h, if_pos h]
      exact .bind (.emitAs (quiet rfl rfl)) fun _ => .pure
    · rw [if_neg h, if_neg h]
      exact .bind .note fun _ => .pure
  | gosub pos target =>
    exact .bind (.emitAs (quiet rfl rfl)) fun _ => .bind (hx _ _ _ _) fun _ =>
      .bind .label fun _ => .pure
  | return_ pos => exact .bind (.emitAs (quiet rfl rfl)) fun _ => .pure
  | end_ pos => exact .bind (.emitAs (quiet rfl rfl)) fun _ => .pure
  | ifThen pos decision target =>
    refine .bind (follows_condition decision) fun _ => does_lookEnv ?_
    by_cases h : c.env.hasLine target
    · rw [if_pos h, if_pos h]
      exact .bind (.emitAs (quiet rfl rfl)) fun _ => .bind .label fun _ => .pure
    · rw [if_neg h, if_neg h]
      exact .bind (.emitAs (quiet rfl rfl)) fun _ => .bind .label fun _ => .pure
  | forNext pos name start stop by_ inside => exact .bind does_loop fun _ => .pure

/-- Statements of a line, each with the number of the part it stands in. -/
theorem does_stmts {x : Expansion} {y : Expander} (hx : Expands c x y) {site : Nat} {frame : Frame}
    {k : Nat} (ss : List Stmt) :
    Does c (At site) (At site) (stmts x frame k ss)
      (Stmt.lowerList c.env y site frame k ss) := by
  induction ss generalizing k with
  | nil => exact .pure
  | cons s ss ih =>
    refine .bind (does_stmt hx s) fun next => ?_
    cases next with
    | none => exact .pure
    | some k => exact ih

-- ============================================================================
-- Subroutines
-- ============================================================================

/-- At any line. -/
def Anywhere : Option Nat → Prop := fun _ => True

theorem Does.anywhere {α : Type} {P Q : Option Nat → Prop} {x : Craft α} {y : Lower α}
    (h : Does c P Q x y) : Does c P Anywhere x y := h.mono fun _ _ => trivial

/-- Going to a line adds no code. -/
theorem does_moveTo {α : Type} {P Q : Option Nat → Prop} {site : Option Nat} {x : Craft α}
    {y : Lower α} (h : Does c (At site) Q x y) : Does c P Q (do moveTo site; x) y := by
  intro b desk hc _
  rw [moveTo, Work.run_bind_ok (Work.run_change _)]
  have h := h { b with site := site } desk ⟨hc.env, hc.active, hc.granted⟩ rfl
  dsimp only at h ⊢
  generalize x.run.run ({ b with site := site }, desk) = run at h ⊢
  generalize y.run b.temps = made at h ⊢
  cases h with
  | error hb => exact .error hb
  | ok hb hsite =>
    exact .ok ⟨hb.inventory, hb.env, hb.active, hb.temps, hb.used, hb.out, hb.literals⟩ hsite

/-- The lines of an expanded subroutine, up to the one that returns. -/
theorem does_region {x : Expansion} {y : Expander} (hx : Expands c x y) {P : Option Nat → Prop}
    {frame : Frame} {here : Label} {i k : Nat} (ls : List Line) :
    Does c P Anywhere (region x frame here i k ls)
      (lowerRegion c.env y frame here i k ls) := by
  induction ls generalizing P here i k with
  | nil => exact Does.pure.anywhere
  | cons l ls ih =>
    refine does_moveTo (.bind .note fun _ => .bind .label fun _ =>
      .bind (does_stmts hx l.stmts) fun next => ?_)
    cases next with
    | none => exact Does.pure.anywhere
    | some k =>
      cases ls with
      | nil => exact (Does.emitAs (quiet rfl rfl)).anywhere
      | cons m ms => exact .bind (.emit (quiet rfl rfl)) fun _ => ih

/-- Work that is done with one more subroutine being expanded, and then goes back to the line
    it came from. -/
theorem does_inside {target : Nat} {site : Option Nat} {x : Craft Unit} {y : Lower Unit}
    (h : Does { c with active := target :: c.active } Anywhere Anywhere x y) :
    Does c (At site) (At site)
      (do
        Work.change fun b => { b with active := target :: b.active }
        Work.afterwards x fun after => { after with active := after.active.tail, site := site })
      y := by
  intro b desk hc hp
  rw [Work.run_bind_ok (Work.run_change _)]
  have h := h { b with active := target :: b.active } desk
    ⟨hc.env, congrArg (target :: ·) hc.active, hc.granted⟩ trivial
  -- What is done afterwards changes the bench alone, whatever the work comes to.
  show Agrees (At site) b desk
    (((x.run.run ({ b with active := target :: b.active }, desk)).1,
      ({ (x.run.run ({ b with active := target :: b.active }, desk)).2.1 with
        active := (x.run.run ({ b with active := target :: b.active }, desk)).2.1.active.tail
        site := site },
      (x.run.run ({ b with active := target :: b.active }, desk)).2.2))) (y.run b.temps)
  dsimp only at h
  generalize x.run.run ({ b with active := target :: b.active }, desk) = run at h ⊢
  generalize y.run b.temps = made at h ⊢
  cases h with
  | error hb => exact .error hb
  | ok hb hsite =>
    refine .ok ⟨hb.inventory, hb.env, ?_, hb.temps, hb.used, hb.out, hb.literals⟩ rfl
    exact congrArg List.tail hb.active

section Equations

variable {env : Env} {active : List Nat} {site target : Nat} {start next : Label}

theorem expand_active (h : target ∈ active) :
    LineBasic.expand env active site target start next = Lower.fail (.recursiveGosub target) := by
  rw [LineBasic.expand, dif_pos h]

/-- A call of a line that does not exist leaves a note and goes on behind the call. -/
theorem expand_dangling (h : target ∉ active) (hlines : env.linesFrom target = []) :
    LineBasic.expand env active site target start next = (do
      Lower.note (.danglingGosub target next)
      Lower.label start
      Lower.emitAs site .return_ (.br next)) := by
  rw [LineBasic.expand, dif_neg h]
  split
  · rfl
  · next heq => rw [hlines] at heq; cases heq

/-- The lines of a subroutine that is not being expanded are laid out in place of the call. -/
theorem expand_lines {l : Line} {ls : List Line} (h : target ∉ active)
    (hlines : env.linesFrom target = l :: ls) :
    LineBasic.expand env active site target start next
      = lowerRegion env (LineBasic.expand env (target :: active)) ⟨start, next⟩ start 0 0
          (l :: ls) := by
  rw [LineBasic.expand, dif_neg h]
  split
  · next heq => rw [hlines] at heq; cases heq
  · next heq =>
    rw [hlines] at heq
    cases heq
    rfl

end Equations

/-- Expanding a subroutine follows the code, if the work for the subroutines inside it does. -/
theorem expands_subroutine {inner : Expansion}
    (hinner : ∀ target, target ∉ c.active → c.env.linesFrom target ≠ [] →
      Expands { c with active := target :: c.active } inner
        (LineBasic.expand c.env (target :: c.active))) :
    Expands c (subroutine inner) (LineBasic.expand c.env c.active) := by
  intro site target start next b desk hc hp
  rw [subroutine, Work.run_bind_ok (Work.run_look id), id, hc.active, hc.env,
    show b.site = some site from hp]
  by_cases hactive : target ∈ c.active
  · rw [if_pos hactive, expand_active hactive]
    exact Does.fail b desk hc hp
  · rw [if_neg hactive]
    cases hlines : c.env.linesFrom target with
    | nil =>
      rw [expand_dangling hactive hlines]
      have hcode : Does c (At site) (At site)
          (do note (.danglingGosub target next); label start; emitAs .return_ (.br next))
          (do
            Lower.note (.danglingGosub target next)
            Lower.label start
            Lower.emitAs site .return_ (.br next)) :=
        .bind .note fun _ => .bind .label fun _ => .emitAs (quiet rfl rfl)
      exact hcode b desk hc hp
    | cons l ls =>
      rw [expand_lines hactive hlines]
      -- The lines are laid out with the target active, and `does_inside` takes it off again.
      have hfollows := hinner target hactive (by rw [hlines]; exact List.cons_ne_nil l ls)
      have hregion : Does { c with active := target :: c.active } Anywhere Anywhere
          (region inner ⟨start, next⟩ start 0 0 (l :: ls))
          (lowerRegion c.env (LineBasic.expand c.env (target :: c.active)) ⟨start, next⟩ start 0 0
            (l :: ls)) := does_region hfollows (l :: ls)
      exact does_inside hregion b desk hc hp

/-- No more subroutines can lie inside one another than there are lines to expand. -/
theorem expands_expand {depth : Nat} (h : c.env.inactive c.active ≤ depth) :
    Expands c (expand depth) (LineBasic.expand c.env c.active) := by
  induction depth generalizing c with
  | zero =>
    refine expands_subroutine fun target hactive hlines => ?_
    have hless := Env.inactive_cons_lt hactive hlines
    omega
  | succ depth ih =>
    refine expands_subroutine fun target hactive hlines => ih ?_
    have hless := Env.inactive_cons_lt hactive hlines
    show c.env.inactive (target :: c.active) ≤ depth
    omega

-- ============================================================================
-- Programs
-- ============================================================================

theorem does_slots (names : List String) :
    Does c (At none) (At none) (slots names) (lowerSlots names) := by
  induction names with
  | nil => exact .pure
  | cons name names ih =>
    exact .bind (.emit (quiet rfl rfl)) fun _ => .bind (.emitAs (quiet rfl rfl)) fun _ => ih

/-- A line of the program, outside of subroutines. -/
theorem does_line {env : Env} {P : Option Nat → Prop} (l : Line) (next : Label) :
    Does ⟨env, [], []⟩ P Anywhere (line l next) (lowerLine env l next) := by
  have hinactive : env.inactive [] ≤ env.lines.length := List.length_filter_le _ _
  refine does_moveTo (.bind .note fun _ => .bind .label fun _ => ?_)
  intro b desk hc hp
  rw [Work.run_bind_ok (Work.run_look Bench.lines),
    show b.lines = env.lines from congrArg Env.lines hc.env]
  refine Does.bind (does_stmts (expands_expand hinactive) l.stmts) (fun after => ?_) b desk hc hp
  cases after with
  | none => exact Does.pure.anywhere
  | some k => exact (Does.emit (quiet rfl rfl)).anywhere

theorem does_lines {env : Env} {P : Option Nat → Prop} (ls : List Line) :
    Does ⟨env, [], []⟩ P Anywhere (lines ls) (lowerLines env ls) := by
  induction ls generalizing P with
  | nil => exact Does.pure.anywhere
  | cons l ls ih => exact .bind (does_line l _) fun _ => ih

/-- The whole function: the slots, the lines and what ends it. -/
theorem does_code {env : Env} :
    Does ⟨env, [], []⟩ (At none) (At none) code (lowerMain env) := by
  refine .bind .label fun _ => ?_
  intro b desk hc hp
  rw [Work.run_bind_ok (Work.run_look id), id,
    show b.names = env.names from congrArg Env.names hc.env,
    show b.lines = env.lines from congrArg Env.lines hc.env]
  refine Does.bind (does_slots _) (fun _ => ?_) b desk hc hp
  cases env.lines with
  | nil => exact .emit (quiet rfl rfl)
  | cons l ls =>
    exact .bind (.emit (quiet rfl rfl)) fun _ => .bind (does_lines _) fun _ =>
      does_moveTo (.bind .label fun _ => .emit (quiet rfl rfl))

end Craft

-- ============================================================================
-- Modules
-- ============================================================================

/-- What making a module says: every piece of code, and at the end how large the module is. -/
def Module.entries (made : Traced LowerError Emission Module) : List Journal.Entry :=
  Emission.entries made.notes ++
    match made.outcome with
    | .ok m => [.report m.generated]
    | .error _ => []

theorem Module.mem_externals {m : Module} {x : External} :
    x ∈ m.externals ↔ ∃ i ∈ m.instrs, i.external? = some x := by
  rw [externals, List.mem_filter, List.any_eq_true]
  simp only [x.mem_all, true_and, decide_eq_true_iff]

namespace Bench

variable {b : Bench} {m : Module}

/-- The functions that are called on the bench are the external ones of the module. -/
theorem mem_calls_body {x : External} :
    x.name ∈ Emission.calls m.body ↔ x ∈ m.externals := by
  rw [Module.mem_externals]
  constructor
  · intro h
    obtain ⟨y, hy, hname⟩ := List.mem_map.1 h
    obtain rfl := External.name_inj hname
    exact List.mem_filterMap.1 hy
  · intro h
    exact List.mem_map.2 ⟨x, List.mem_filterMap.2 h, rfl⟩

/-- The functions put down are declared, and they are those that the code calls. -/
theorem declarations_eq (h : ∀ name, name ∈ b.used ↔ name ∈ Emission.calls m.body) :
    b.declarations = m.declarations := by
  have hmem : ∀ x : External, x.name ∈ b.used ↔ x ∈ m.externals := fun x =>
    (h x.name).trans mem_calls_body
  have hexternals : External.all.filter (·.name ∈ b.used) = m.externals := by
    refine List.filter_congr fun x hx => ?_
    rw [Bool.eq_iff_iff, decide_eq_true_iff, hmem, Module.externals, List.mem_filter]
    exact and_iff_right hx
  unfold declarations Module.declarations
  rw [hexternals]
  by_cases hnone : m.externals = []
  · -- Nothing is called, so nothing has been put down.
    have hused : b.used.toList = [] := by
      refine List.eq_nil_iff_forall_not_mem.2 fun name hname => ?_
      obtain ⟨x, -, rfl⟩ := List.mem_map.1 ((h name).1 hname)
      exact List.not_mem_nil (hnone ▸ (hmem x).1 hname)
    rw [if_pos hnone, if_pos hused, hnone]
    rfl
  · have hused : b.used.toList ≠ [] := by
      obtain ⟨x, hx⟩ := List.exists_mem_of_ne_nil _ hnone
      exact List.ne_nil_of_mem ((hmem x).2 hx)
    rw [if_neg hnone, if_neg hused]

/-- A bench at which all code of a module has been put down shows the module. -/
theorem text_eq (hused : ∀ name, name ∈ b.used ↔ name ∈ Emission.calls m.body)
    (htexts : b.texts.toList = m.texts) (hout : b.out = m.function) : b.text = m.text := by
  have hconstants : b.outline.constants = m.constants := by
    unfold Module.constants
    rw [show b.outline.texts = m.texts from htexts]
  rw [text, Module.text, declarations_eq hused, hconstants, hout]

end Bench

namespace Craft

/-- The bench when the function of a program has been opened. -/
def opened (p : Program) (b : Bench) : Bench :=
  { b.takeUp p with out := "" ++ "define i32 @main() \x7b\n" }

variable {p : Program} {b : Bench} {desk : Desk} {es : List Emission}

theorem run_open :
    (write "define i32 @main() \x7b\n").run.run (b.takeUp p, desk) = (.ok (), (opened p b, desk)) :=
  rfl

theorem run_takeUp {α : Type} {f : Unit → Craft α} :
    (Work.change (Bench.takeUp p) >>= f).run.run (b, desk) = (f ()).run.run (b.takeUp p, desk) :=
  Work.run_bind_ok (Work.run_change _)

/-- A cleared bench is one to make code at. -/
theorem agrees_code (p : Program) (b : Bench) (desk : Desk) :
    Agrees (At none) (opened p b) desk (code.run.run (opened p b, desk))
      ((lowerMain (p.env (b.inventory.getD p.inventory))).run 0) :=
  does_code (opened p b) desk ⟨rfl, rfl, fun _ hname => (List.not_mem_nil hname).elim⟩ rfl

/-- Where lowering fails, the work ends with the same fault, and what was said so far is on the
    desk. -/
theorem run_workOn_of_error (desk : Desk) {e : LowerError}
    (h : (lowerMain (p.env (b.inventory.getD p.inventory))).run 0 = ⟨es, .error e⟩) :
    ∃ b', b'.inventory = none ∧
      (workOn p).run.run (b, desk) = (.error e, (b', desk.enterAll (Emission.entries es))) := by
  have hcode := agrees_code p b desk
  rcases hrun : code.run.run (opened p b, desk) with ⟨r, b', desk'⟩
  rw [hrun, h] at hcode
  cases hcode with
  | error hb =>
    have hmain : main.run.run (b.takeUp p, desk)
        = (.error e, (b', desk.enterAll (Emission.entries es))) :=
      (Work.run_bind_ok run_open).trans (Work.run_bind_error hrun)
    refine ⟨b', hb, ?_⟩
    rw [workOn, run_takeUp, Work.run_bind_error hmain]

/-- The module with the code `es` for a program and an inventory. -/
def moduleOf (p : Program) (inventory : Inventory) (es : List Emission) (n : Nat) : Module :=
  ⟨inventory.texts.toList, es, p.listing.length, inventory.names.size, n⟩

/-- Code that is made whole is a module. -/
theorem lower_of_makes {inventory : Inventory} {u : Unit} {n : Nat}
    (h : Makes (lowerMain (p.env inventory)) 0 es u n) :
    p.lower inventory = ⟨es, .ok (moduleOf p inventory es n)⟩ := by
  unfold Program.lower
  dsimp only
  rw [show (lowerMain (p.env inventory)).run 0 = _ from h]
  rfl

theorem lower_of_error {inventory : Inventory} {e : LowerError}
    (h : (lowerMain (p.env inventory)).run 0 = ⟨es, .error e⟩) :
    p.lower inventory = ⟨es, .error e⟩ := by
  unfold Program.lower
  dsimp only
  rw [h]
  rfl

/-- The string literals that the code of a module refers to have constants in it. -/
theorem literal_lt_of_lower {inventory : Inventory} {m : Module}
    (h : (p.lower inventory).outcome = .ok m) :
    ∀ i ∈ m.instrs, ∀ k, i.literal? = some k → k < m.texts.length := by
  have hcode := agrees_code p (.fresh inventory) (.ofJournal .off)
  rcases hmade : (lowerMain (p.env inventory)).run 0 with ⟨es, e | ⟨u, n⟩⟩
  · rw [lower_of_error hmade] at h
    cases h
  · rw [lower_of_makes hmade] at h
    cases h
    rw [show (Bench.fresh inventory).inventory.getD p.inventory = inventory from rfl,
      hmade] at hcode
    generalize code.run.run _ = run at hcode
    cases hcode with
    | ok hb hsite => exact hb.literals

/-- Where lowering comes through, the work ends with the text of the module, and the desk has
    what the module says of itself. -/
theorem run_workOn_of_makes (desk : Desk) {u : Unit} {n : Nat}
    (h : Makes (lowerMain (p.env (b.inventory.getD p.inventory))) 0 es u n) :
    ∃ b', b'.inventory = none ∧
      (workOn p).run.run (b, desk)
        = (.ok (moduleOf p (b.inventory.getD p.inventory) es n).text,
          (b', (desk.enterAll (Emission.entries es)).report
            (moduleOf p (b.inventory.getD p.inventory) es n).generated)) := by
  have hcode := agrees_code p b desk
  rcases hrun : code.run.run (opened p b, desk) with ⟨r, b', desk'⟩
  rw [hrun, show (lowerMain _).run 0 = _ from h] at hcode
  cases hcode with
  | ok hb hsite =>
    let closed : Bench := { b' with out := b'.out ++ "\x7d\n" }
    have hmain : main.run.run (b.takeUp p, desk)
        = (.ok (), (closed, desk.enterAll (Emission.entries es))) :=
      (Work.run_bind_ok run_open).trans (Work.run_bind_ok hrun)
    -- The bench starts with no function in use.
    have hused : ∀ name, name ∈ closed.used ↔ name ∈ Emission.calls es := by
      intro name
      rw [show closed.used = b'.used from rfl, hb.used]
      exact or_iff_right (Ascending.not_mem_empty name)
    have htexts : closed.texts = (b.inventory.getD p.inventory).texts :=
      congrArg Env.texts hb.env
    have hout : closed.out = (moduleOf p (b.inventory.getD p.inventory) es n).function := by
      rw [show closed.out = b'.out ++ "\x7d\n" from rfl, hb.out,
        show (opened p b).out = "define i32 @main() \x7b\n" from String.empty_append]
      rfl
    have htext := Bench.text_eq hused (congrArg Ascending.toList htexts) hout
    have hgenerated : closed.outline.generated
        = (moduleOf p (b.inventory.getD p.inventory) es n).generated := by
      have houtline : closed.outline = moduleOf p (b.inventory.getD p.inventory) [] n := by
        rw [Bench.outline, htexts, show closed.lines = p.listing from congrArg Env.lines hb.env,
          show closed.names = (b.inventory.getD p.inventory).names from congrArg Env.names hb.env,
          show closed.temps = n from hb.temps]
        rfl
      rw [houtline]
      rfl
    refine ⟨{ closed with out := "" }, hb.inventory, ?_⟩
    rw [workOn, run_takeUp, Work.run_bind_ok hmain, ← htext, ← hgenerated]
    rfl

/-- What a bench makes of a program is the module of the program or its fault, with the inventory
    on the bench if there is one.  No other thing on the bench plays a part, nor does the desk;
    and whatever comes of it, no inventory is left on the bench. -/
theorem run_workOn (p : Program) (b : Bench) (desk : Desk) :
    ∃ b', b'.inventory = none ∧
      (workOn p).run.run (b, desk)
        = ((p.lower (b.inventory.getD p.inventory)).outcome.map Module.text,
          (b', desk.enterAll (Module.entries (p.lower (b.inventory.getD p.inventory))))) := by
  rcases hmade : (lowerMain (p.env (b.inventory.getD p.inventory))).run 0 with ⟨es, e | ⟨u, n⟩⟩
  · obtain ⟨b', hb', hrun⟩ := run_workOn_of_error desk hmade
    refine ⟨b', hb', ?_⟩
    rw [hrun, lower_of_error hmade, Module.entries, List.append_nil]
    rfl
  · obtain ⟨b', hb', hrun⟩ := run_workOn_of_makes desk hmade
    refine ⟨b', hb', ?_⟩
    rw [hrun, lower_of_makes hmade, Module.entries, Desk.enterAll_append]
    rfl

end Craft

end LineBasic
