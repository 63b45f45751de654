/-
  LineBasic.Proofs.TextOperands

  The string literals that code refers to.  Printing a text and comparing two texts
  take temporaries that hold addresses; what they hold is told by the instructions
  that define them.  The operands of a function, from top to bottom, stand for the
  literals of the statements in the order in which these get code, where a GOSUB
  repeats the literals of its subroutine.

  Together with the definitions of the constants this tells what a module does with
  the literals of its program.
-/

import LineBasic.Proofs.ModuleLines
import Mathlib.Data.List.Forall2

namespace LineBasic

-- ============================================================================
-- Operands
-- ============================================================================

/-- The operands of an instruction that are texts: the one it prints, or the two it
    compares. -/
def Instr.textOperands : Instr → List Temp
  | compareTexts _ a b => [a, b]
  | printText _ v => [v]
  | _ => []

/-- The operands of instructions that are texts, from top to bottom. -/
def textOperands (is : List Instr) : List Temp := is.flatMap Instr.textOperands

/-- The texts that instructions print and compare are `ss`, in that order: for each
    there is an instruction that takes its address among `texts`. -/
def RefersTo (texts : List String) (is : List Instr) (ss : List String) : Prop :=
  List.Forall₂ (fun v s => ∃ k, texts[k]? = some s ∧ .address v (.literal k) ∈ is)
    (textOperands is) ss

namespace RefersTo

variable {texts ss ss' : List String} {is is' : List Instr} {i : Instr}

theorem nil : RefersTo texts [] [] := List.Forall₂.nil

/-- Code in two parts refers to the literals of the first and then to those of the second. -/
theorem append (h : RefersTo texts is ss) (h' : RefersTo texts is' ss') :
    RefersTo texts (is ++ is') (ss ++ ss') := by
  unfold RefersTo textOperands
  rw [List.flatMap_append]
  refine List.rel_append ?_ ?_
  · exact List.Forall₂.imp (fun v s ⟨k, hk, hmem⟩ => ⟨k, hk, List.mem_append_left _ hmem⟩) h
  · exact List.Forall₂.imp (fun v s ⟨k, hk, hmem⟩ => ⟨k, hk, List.mem_append_right _ hmem⟩) h'

/-- An instruction without such operands adds nothing. -/
theorem cons (hi : i.textOperands = []) (h : RefersTo texts is ss) :
    RefersTo texts (i :: is) ss := by
  have hfirst : RefersTo texts [i] [] := by
    unfold RefersTo textOperands
    rw [List.flatMap_singleton, hi]
    exact .nil
  exact hfirst.append h

end RefersTo

-- ============================================================================
-- Straight code
-- ============================================================================

section Code

variable {env : Env} {n n' : Nat} {steps : List Step} {ss : List String}

/-- The texts that steps print and compare are `ss`. -/
def StepsReferTo (env : Env) (steps : List Step) (ss : List String) : Prop :=
  RefersTo env.texts.toList (steps.map (·.instr)) ss

theorem StepsReferTo.append {steps' : List Step} {ss' : List String}
    (h : StepsReferTo env steps ss) (h' : StepsReferTo env steps' ss') :
    StepsReferTo env (steps ++ steps') (ss ++ ss') := by
  unfold StepsReferTo
  rw [List.map_append]
  exact RefersTo.append h h'

/-- Steps without such operands behind others. -/
theorem StepsReferTo.quiet {steps' : List Step} (h : StepsReferTo env steps ss)
    (h' : textOperands (steps'.map (·.instr)) = []) : StepsReferTo env (steps ++ steps') ss := by
  rw [← List.append_nil ss]
  refine h.append ?_
  unfold StepsReferTo RefersTo
  rw [h']
  exact .nil

/-- Functions refer to no literals. -/
theorem BuiltinCode.textOperands_eq {b : Builtin} {x y : Operand}
    (h : BuiltinCode x n b steps y n') : textOperands (steps.map (·.instr)) = [] := by
  cases h with
  | cdbl => rfl
  | rnd => rfl
  | fix => rfl
  | sgn => rfl
  | csng => rfl
  | math => rfl

/-- The code that compares two literals refers to the left and the right one. -/
theorem refersTo_textTest {rel : Relation} {a b : String} {j k : Nat}
    (hj : env.texts.toList.idxOf? a = some j) (hk : env.texts.toList.idxOf? b = some k) :
    StepsReferTo env (textTest rel j k n) [a, b] :=
  List.Forall₂.cons ⟨j, Env.getElem?_of_idxOf? hj, by simp [textTest]⟩
    (List.Forall₂.cons ⟨k, Env.getElem?_of_idxOf? hk, by simp [textTest]⟩ List.Forall₂.nil)

/-- The code of an expression refers to the literals of the expression, from left to
    right. -/
theorem ValueCode.refersTo {e : Expr} {x : Operand} (h : ValueCode env e n steps x n') :
    StepsReferTo env steps e.texts := by
  induction h with
  | number => exact .nil
  | var _ => exact .cons rfl .nil
  | plus _ ih => exact ih
  | minus _ ih => exact ih.quiet rfl
  | texts left right => exact (refersTo_textTest left right).quiet rfl
  | compare _ _ ihl ihr => exact ihl.append (ihr.quiet rfl)
  | arith _ _ ihl ihr => exact ihl.append (ihr.quiet rfl)
  | call _ _ code ih =>
    rw [Expr.texts, Expr.textsOfList, Expr.textsOfList, List.append_nil]
    exact ih.quiet code.textOperands_eq

theorem TestCode.refersTo {e : Expr} {t : Temp} (h : TestCode env e n steps t n') :
    StepsReferTo env steps e.texts := by
  cases h with
  | texts left right => exact refersTo_textTest left right
  | compare left right => exact left.refersTo.append (right.refersTo.quiet rfl)

/-- The code that prints a literal refers to it, other statements to the literals of their
    expressions. -/
theorem PlainCode.refersTo {s : Stmt} (h : PlainCode env s n steps n') :
    StepsReferTo env steps s.texts := by
  cases h with
  | assign code _ => exact code.refersTo.quiet rfl
  | printText text =>
    exact List.Forall₂.cons ⟨_, Env.getElem?_of_idxOf? text, by simp⟩ List.Forall₂.nil
  | printNumber code => exact code.refersTo.quiet rfl
  | input _ => exact .cons rfl (.cons rfl .nil)

theorem BodyCode.refersTo {ss : List Stmt} (h : BodyCode env ss n steps n') :
    StepsReferTo env steps (Stmt.textsOfList ss) := by
  induction h with
  | nil => exact .nil
  | cons _ first _ ih => exact first.refersTo.append ih

theorem AmountCode.refersTo {step : Option Expr} {x : Operand}
    (h : AmountCode env n step steps x n') :
    StepsReferTo env steps (Expr.textsOfList step.toList) := by
  cases h with
  | one => exact .nil
  | given code =>
    rw [Option.toList_some, Expr.textsOfList, Expr.textsOfList, List.append_nil]
    exact code.refersTo

end Code

-- ============================================================================
-- Statements
-- ============================================================================

/-- `TextsInCode env ss ls ts`: the literals of the statements `ss`, and of the lines `ls`
    behind them where these belong to the same subroutine, are `ts` in the order in which
    they get code.  What is behind a statement that ends its line gets none; a GOSUB
    repeats its subroutine; the step of a loop comes behind its body. -/
inductive TextsInCode (env : Env) : List Stmt → List Line → List String → Prop where
  | plain {s ss ls ts} :
      (s.plain? env).isSome → TextsInCode env ss ls ts →
      TextsInCode env (s :: ss) ls (s.texts ++ ts)
  | ifThen {pos condition target ss ls ts} :
      TextsInCode env ss ls ts →
      TextsInCode env (.ifThen pos condition target :: ss) ls (condition.texts ++ ts)
  | forNext {pos name start stop step body ss ls ts} :
      TextsInCode env ss ls ts →
      TextsInCode env (.forNext pos name start stop step body :: ss) ls
        (start.texts ++ (stop.texts ++ (Stmt.textsOfList body
          ++ (Expr.textsOfList step.toList ++ ts))))
  | goto {pos target ss ls} :
      env.hasLine target = true → TextsInCode env (.goto pos target :: ss) ls []
  | gotoNowhere {pos target ss ls ts} :
      env.hasLine target = false → TextsInCode env ss ls ts →
      TextsInCode env (.goto pos target :: ss) ls ts
  | gosub {pos target ss ls l sub ts ts'} :
      env.linesFrom target = l :: sub → TextsInCode env l.stmts sub ts →
      TextsInCode env ss ls ts' →
      TextsInCode env (.gosub pos target :: ss) ls (ts ++ ts')
  | gosubNowhere {pos target ss ls ts} :
      env.linesFrom target = [] → TextsInCode env ss ls ts →
      TextsInCode env (.gosub pos target :: ss) ls ts
  | return_ {pos ss ls} : TextsInCode env (.return_ pos :: ss) ls []
  | end_ {pos ss ls} : TextsInCode env (.end_ pos :: ss) ls []
  | nextLine {l ls ts} :
      TextsInCode env l.stmts ls ts → TextsInCode env [] (l :: ls) ts
  | done : TextsInCode env [] [] []

/-- The lines of a subroutine that are behind the one being run. -/
def Behind.rest : Behind → List Line
  | block _ => []
  | lines _ ls => ls

section Statements

variable {env : Env} {n n' : Nat} {es : List Emission}

theorem StepsReferTo.instrs {ss : List String} {steps : List Step}
    (h : StepsReferTo env steps ss) (site : Option Nat) :
    RefersTo env.texts.toList (Emission.instrs (steps.map (.step site))) ss := by
  rw [Emission.instrs_steps]
  exact h

/-- A loop refers to the literals of its bounds, then of its body and its step, and what is
    behind it comes last. -/
theorem LoopParts.MakeUp.refersTo {parts : LoopParts} {name : String} {start stop : Expr}
    {step : Option Expr} {body : List Stmt} {owner : Label} {site k : Nat} {ts : List String}
    (h : parts.MakeUp env name start stop step body n n')
    (hes : RefersTo env.texts.toList (Emission.instrs es) ts) :
    RefersTo env.texts.toList (Emission.instrs (parts.code site owner k name es))
      (start.texts ++ (stop.texts ++ (Stmt.textsOfList body
        ++ (Expr.textsOfList step.toList ++ ts)))) := by
  obtain ⟨n₃, hbody, hstep⟩ := h.body
  simp only [code, initCode, testCode, bodyCode, stepCode, List.append_assoc, List.cons_append,
    List.nil_append, Emission.instrs_append, Emission.instrs_step, Emission.instrs_label]
  refine ((Expr.makes_lower.1 h.first).refersTo.instrs _).append
    (.cons rfl (.cons rfl (.cons rfl ?_)))
  refine ((Expr.makes_lower.1 h.test).refersTo.instrs _).append (.cons rfl (.cons rfl ?_))
  refine ((Stmt.bodyCode_of_makes hbody).refersTo.instrs _).append (.cons rfl ?_)
  refine ((Stmt.amountCode_of_makes hstep).refersTo.instrs _).append ?_
  exact .cons rfl (.cons rfl (.cons rfl (.cons rfl hes)))

/-- Code refers to the literals of its statements, in the order in which they get code. -/
theorem CodeOf.refersTo {frame : Frame} {k site : Nat} {ss : List Stmt} {behind : Behind}
    (h : CodeOf env frame k n site ss behind es n') :
    ∃ ts, TextsInCode env ss behind.rest ts ∧
      RefersTo env.texts.toList (Emission.instrs es) ts := by
  induction h with
  | plain hplain hsteps _ ih =>
    obtain ⟨ts, hts, hrefers⟩ := ih
    refine ⟨_, .plain (by rw [hplain]; rfl) hts, ?_⟩
    rw [Emission.instrs_append]
    exact ((Stmt.plainCode_of_makes hplain hsteps).refersTo.instrs _).append hrefers
  | goto hline => exact ⟨_, .goto hline, .cons rfl .nil⟩
  | gotoNowhere hline _ ih =>
    obtain ⟨ts, hts, hrefers⟩ := ih
    exact ⟨ts, .gotoNowhere hline hts, hrefers⟩
  | gosub hlines _ _ ihsub ih =>
    obtain ⟨ts, hts, hrefers⟩ := ihsub
    obtain ⟨ts', hts', hrefers'⟩ := ih
    refine ⟨_, .gosub hlines hts hts', ?_⟩
    rw [Emission.instrs_step, Emission.instrs_note, Emission.instrs_label,
      Emission.instrs_append, Emission.instrs_label]
    exact .cons rfl (hrefers.append hrefers')
  | gosubNowhere hlines _ ih =>
    obtain ⟨ts, hts, hrefers⟩ := ih
    exact ⟨ts, .gosubNowhere hlines hts, .cons rfl (.cons rfl hrefers)⟩
  | return_ => exact ⟨_, .return_, .cons rfl .nil⟩
  | end_ => exact ⟨_, .end_, .cons rfl .nil⟩
  | ifThen _ hsteps _ ih =>
    obtain ⟨ts, hts, hrefers⟩ := ih
    refine ⟨_, .ifThen hts, ?_⟩
    rw [Emission.instrs_append]
    exact ((Expr.makes_lowerCondition.1 hsteps).refersTo.instrs _).append (.cons rfl hrefers)
  | ifNowhere _ hsteps _ ih =>
    obtain ⟨ts, hts, hrefers⟩ := ih
    refine ⟨_, .ifThen hts, ?_⟩
    rw [Emission.instrs_append]
    exact ((Expr.makes_lowerCondition.1 hsteps).refersTo.instrs _).append (.cons rfl hrefers)
  | forNext hparts _ ih =>
    obtain ⟨ts, hts, hrefers⟩ := ih
    exact ⟨_, .forNext hts, hparts.refersTo hrefers⟩
  | lineEnd => exact ⟨_, .done, .cons rfl .nil⟩
  | regionEnd => exact ⟨_, .done, .cons rfl .nil⟩
  | nextLine _ ih =>
    obtain ⟨ts, hts, hrefers⟩ := ih
    exact ⟨ts, .nextLine hts, .cons rfl hrefers⟩

/-- The code of lines refers to the literals of each line in turn, those of expanded subroutines
    included. -/
theorem LinesCode.refersTo {ls : List Line} (h : LinesCode env ls n es n') :
    ∃ tss, List.Forall₂ (fun l ts => TextsInCode env l.stmts [] ts) ls tss ∧
      RefersTo env.texts.toList (Emission.instrs es) tss.flatten := by
  induction h with
  | nil => exact ⟨[], .nil, .nil⟩
  | cons hcode _ ih =>
    obtain ⟨ts, hts, hrefers⟩ := hcode.refersTo
    obtain ⟨tss, htss, hrest⟩ := ih
    refine ⟨ts :: tss, .cons hts htss, ?_⟩
    rw [Emission.instrs_note, Emission.instrs_label, Emission.instrs_append, List.flatten_cons]
    exact hrefers.append hrest

theorem refersTo_slotInstrs {texts ss : List String} {is : List Instr} (names : List String)
    (h : RefersTo texts is ss) : RefersTo texts (slotInstrs names ++ is) ss := by
  induction names with
  | nil => exact h
  | cons name names ih => exact .cons rfl (.cons rfl ih)

/-- The whole function refers to the literals of its lines: slots and exit refer to none. -/
theorem MainCode.refersTo (h : MainCode env es n) :
    ∃ tss, List.Forall₂ (fun l ts => TextsInCode env l.stmts [] ts) env.lines tss ∧
      RefersTo env.texts.toList (Emission.instrs es) tss.flatten := by
  cases h with
  | empty hlines =>
    refine ⟨[], by rw [hlines]; exact .nil, ?_⟩
    rw [Emission.instrs_label, Emission.instrs_append, instrs_slotCode]
    exact refersTo_slotInstrs _ (.cons rfl .nil)
  | lines _ hcode =>
    obtain ⟨tss, htss, hrefers⟩ := hcode.refersTo
    refine ⟨tss, htss, ?_⟩
    rw [Emission.instrs_label, Emission.instrs_append, instrs_slotCode, Emission.instrs_step,
      Emission.instrs_append, ← List.append_nil tss.flatten]
    exact refersTo_slotInstrs _ (.cons rfl (hrefers.append (.cons rfl .nil)))

end Statements

-- ============================================================================
-- Definitions of operands
-- ============================================================================

/-- Where no temporary is defined twice, two instructions that define the same one are
    the same. -/
theorem eq_of_result {is : List Instr} (h : ((results is).map Prod.fst).Nodup) {i j : Instr}
    {t : Temp} {type type' : CodeType} (hi : i ∈ is) (hj : j ∈ is)
    (hri : i.result? = some (t, type)) (hrj : j.result? = some (t, type')) : i = j := by
  induction is with
  | nil => cases hi
  | cons a is ih =>
    have htail : ((results is).map Prod.fst).Nodup :=
      h.sublist (((List.sublist_cons_self a is).filterMap _).map _)
    have hfirst : ∀ {b : Instr} {type type' : CodeType}, a.result? = some (t, type) → b ∈ is →
        b.result? ≠ some (t, type') := by
      intro b type type' ha hb hrb
      rw [results, List.filterMap_cons_some ha, List.map_cons, List.nodup_cons] at h
      exact h.1 (List.mem_map.2 ⟨_, List.mem_filterMap.2 ⟨b, hb, hrb⟩, rfl⟩)
    rcases List.mem_cons.1 hi with rfl | hi'
    · rcases List.mem_cons.1 hj with rfl | hj'
      · rfl
      · exact absurd hrj (hfirst hri hj')
    · rcases List.mem_cons.1 hj with rfl | hj'
      · exact absurd hri (hfirst hrj hi')
      · exact ih htail hi' hj'

theorem MainCode.nodup_results {env : Env} {es : List Emission} {n : Nat} (h : MainCode env es n) :
    ((results (Emission.instrs es)).map Prod.fst).Nodup := by
  obtain ⟨k, -, hresults⟩ := h.flow.results
  rw [hresults, ← List.range_eq_range']
  exact List.pairwise_map.2 (List.nodup_range.imp fun hne htemp => hne (Temp.mk.inj htemp))

-- ============================================================================
-- The literals of a module
-- ============================================================================

/-- The one instruction that defines `v` takes the address of the constant text `k`. -/
def Module.PointsTo (m : Module) (v : Temp) (k : Nat) : Prop :=
  .address v (.literal k) ∈ m.instrs ∧
    ∀ i ∈ m.instrs, ∀ type, i.result? = some (v, type) → i = .address v (.literal k)

/-- The literals of a program in the order in which they get code. -/
def Program.TextsInCode (p : Program) (summary : Inventory) (ts : List String) : Prop :=
  ∃ tss, List.Forall₂ (fun l ts => LineBasic.TextsInCode (p.env summary) l.stmts [] ts)
    p.listing tss ∧ tss.flatten = ts

/-- The inventory that is used for a program. -/
def Generator.summary (g : Generator) (p : Program) : Inventory := g.inventory.getD p.inventory

/-- Every text operand of a module points to the literal it was made for. -/
theorem Program.pointsTo_of_lower {p : Program} {summary : Inventory} {m : Module}
    (h : (p.lower summary).outcome = .ok m) :
    ∃ ts, p.TextsInCode summary ts ∧
      List.Forall₂ (fun v s => ∃ k, m.texts[k]? = some s ∧ m.PointsTo v k)
        (textOperands m.instrs) ts := by
  have hmain := Program.mainCode_of_lower h
  obtain ⟨tss, htss, hrefers⟩ := hmain.refersTo
  refine ⟨tss.flatten, ⟨tss, htss, rfl⟩, hrefers.imp ?_⟩
  rintro v s ⟨k, hk, hmem⟩
  refine ⟨k, by rw [texts_of_lower h]; exact hk, hmem, fun i hi type hr => ?_⟩
  exact eq_of_result hmain.nodup_results hi hmem hr rfl

/-- The literals of a program survive exactly.  They are in the order of their bytes.
    In front of the function of the module there is one line for each that defines it,
    in this order, and what the line defines is the bytes of the literal and a zero byte;
    no other line of the text defines one, unless the name of a variable holds the end of
    a line.  Every text operand points to the line of the literal it was made for. -/
theorem Generator.generate_keepsTexts (g : Generator) (p : Program) (m : Module)
    (h : (g.generate p).1.outcome = .ok m) :
    ((g.summary p).texts.toList.Pairwise fun s t => utf8 s < utf8 t) ∧
    m.text = m.preamble ++ m.function ∧
    ((∀ x ∈ (g.summary p).names, OneLine x) →
      definitionLines m.text = definitionLines m.preamble) ∧
    (definitionLines m.preamble).length = (g.summary p).texts.size ∧
    (∀ k s, (g.summary p).texts.toList[k]? = some s →
      ∃ line, (definitionLines m.preamble)[k]? = some line ∧
        Constant.Defines line k (utf8 s ++ [0])) ∧
    ∃ ts, p.TextsInCode (g.summary p) ts ∧
      List.Forall₂ (fun v s => ∃ k line, k < (g.summary p).texts.size ∧ m.PointsTo v k ∧
        (definitionLines m.preamble)[k]? = some line ∧ Constant.Defines line k (utf8 s ++ [0]))
        (textOperands m.instrs) ts := by
  have htexts := Program.texts_of_lower h
  rw [m.definitionLines_preamble]
  refine ⟨?_, m.text_eq_preamble_append, ?_, ?_, ?_, ?_⟩
  · exact (g.summary p).texts.sorted.imp utf8_lt_of_compare
  · intro hnames
    refine Module.definitionLines_text fun i hi x hx => hnames x ?_
    exact ((Program.mainCode_of_lower h).flow.ok_of_mem hi).slots x hx
  · rw [m.length_definitions, htexts]
    rfl
  · intro k s hk
    exact Module.exists_defines (by rw [htexts]; exact hk)
  · obtain ⟨ts, hts, hpoints⟩ := Program.pointsTo_of_lower h
    refine ⟨ts, hts, hpoints.imp ?_⟩
    rintro v s ⟨k, hk, hpoint⟩
    obtain ⟨line, hline, hdefines⟩ := Module.exists_defines hk
    have hlt : k < m.texts.length := (List.getElem?_eq_some_iff.1 hk).1
    rw [htexts] at hlt
    exact ⟨k, line, hlt, hpoint, hline, hdefines⟩

/-- A program that prints a text with quotes and an accent, also in a subroutine, and
    compares two texts of which one looks like an escape. -/
def Program.speech : Program :=
  let start : Position := ⟨1, 1⟩
  ⟨[⟨10, [.gosub start 40, .ifThen start
      (.binary start (.compare .lt) (.text start "z") (.text start "\\41")) 30], start⟩,
    ⟨30, [.end_ start], start⟩,
    ⟨40, [.print start (.text start "\"né\""), .return_ start], start⟩]⟩

/-- A maker of modules with an inventory that holds one text more than `speech`. -/
def Generator.prompted : Generator :=
  ⟨some ⟨.empty, .ofList ["z", "\\41", "\"né\"", "unused"], .ofList [10, 30, 40]⟩⟩

theorem Generator.exists_generate_speech :
    ∃ m, (prompted.generate .speech).1.outcome = .ok m ∧
      textOperands m.instrs = [⟨0⟩, ⟨2⟩, ⟨3⟩, ⟨6⟩] := by
  have hoperands : (prompted.generate .speech).1.outcome.toOption.map
      (fun m => textOperands m.instrs) = some [⟨0⟩, ⟨2⟩, ⟨3⟩, ⟨6⟩] := by decide +kernel
  cases h : (prompted.generate .speech).1.outcome with
  | ok m =>
    rw [h] at hoperands
    exact ⟨m, rfl, Option.some.inj hoperands⟩
  | error e =>
    rw [h] at hoperands
    cases hoperands

theorem Generator.keepsTexts_speech :
    ∃ m, (prompted.generate .speech).1.outcome = .ok m ∧
      definitionLines m.text = definitionLines m.preamble ∧
      (definitionLines m.preamble).length = 4 ∧
      (∃ line, (definitionLines m.preamble)[1]? = some line ∧
        Constant.Defines line 1 [0x5c, 0x34, 0x31, 0x00]) ∧
      ∃ ts, Program.speech.TextsInCode (prompted.summary .speech) ts ∧ ts.length = 4 := by
  obtain ⟨m, hm, hoperands⟩ := exists_generate_speech
  obtain ⟨-, -, htext, hlength, hdefines, ts, hts, hpoints⟩ :=
    prompted.generate_keepsTexts .speech m hm
  refine ⟨m, hm, htext ?_, ?_, ?_, ts, hts, ?_⟩
  · exact fun x hx => absurd hx (Ascending.not_mem_empty x)
  · rw [hlength]
    decide +kernel
  · have hbytes : utf8 "\\41" ++ [0] = [0x5c, 0x34, 0x31, 0x00] := by
      rw [utf8_eq_flatMap]
      decide
    rw [← hbytes]
    exact hdefines 1 "\\41" (by decide +kernel)
  · rw [← hpoints.length_eq, hoperands]
    rfl

end LineBasic
