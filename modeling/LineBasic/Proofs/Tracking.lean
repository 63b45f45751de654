/-
  LineBasic.Proofs.Tracking

  How the code machine keeps track of the line machine.  The code has no stack: an
  expanded subroutine is a copy of the lines from its target on that ends by jumping
  to the block behind its own call.  A state of the line machine therefore belongs to
  a place in nested copies, and its stack to the blocks behind the calls around that
  place.  Every step of the line machine is matched by steps of the code machine.
-/

import LineBasic.Proofs.StraightCode

namespace LineBasic

open StateTransition

-- ============================================================================
-- Lines and points
-- ============================================================================

section Points

variable {env : Env} {lines : List Line} {l : Line} {p : Point} {s : Stmt} {ss : List Stmt}
  {target : Nat}

/-- The first of what is left of a list stands where the list was cut. -/
theorem getElem?_of_drop {α : Type} {xs ys : List α} {x : α} {i : Nat}
    (h : xs.drop i = x :: ys) : xs[i]? = some x ∧ xs.drop (i + 1) = ys := by
  constructor
  · rw [← Nat.add_zero i, ← List.getElem?_drop, h]
    rfl
  · rw [← List.tail_drop, h]
    rfl

theorem stmtAt?_of_drop (hl : lines[p.line]? = some l) (h : l.stmts.drop p.stmt = s :: ss) :
    stmtAt? lines p = some s := by
  simp only [stmtAt?, hl, (getElem?_of_drop h).1]

theorem stmtAt?_of_drop_nil (hl : lines[p.line]? = some l) (h : l.stmts.drop p.stmt = []) :
    stmtAt? lines p = none := by
  simp only [stmtAt?, hl, List.getElem?_eq_none (List.drop_eq_nil_iff.1 h)]

theorem linesFrom_eq_drop :
    env.linesFrom target = env.lines.drop (env.lines.findIdx (·.number = target)) := by
  rw [Env.linesFrom, List.dropWhile_eq_drop_findIdx_not]
  simp

/-- Where a line starts, the lines from its number on start. -/
theorem linesFrom_of_startAt? (h : startAt? env.lines target = some p) :
    ∃ i l, p = ⟨i, 0⟩ ∧ env.lines[i]? = some l ∧ l.number = target ∧
      env.linesFrom target = l :: env.lines.drop (i + 1) := by
  obtain ⟨i, hi, rfl⟩ := Option.map_eq_some_iff.1 h
  obtain ⟨hlt, hnumber, -⟩ := List.findIdx?_eq_some_iff_getElem.1 hi
  obtain ⟨-, hidx⟩ := List.findIdx?_eq_some_iff_findIdx_eq.1 hi
  refine ⟨i, env.lines[i], rfl, List.getElem?_eq_getElem hlt, of_decide_eq_true hnumber, ?_⟩
  rw [linesFrom_eq_drop, hidx, List.drop_eq_getElem_cons hlt]

/-- A line that exists has a point where it starts. -/
theorem startAt?_of_linesFrom {ls : List Line} (h : env.linesFrom target = l :: ls) :
    ∃ i, startAt? env.lines target = some ⟨i, 0⟩ ∧ env.lines[i]? = some l ∧
      ls = env.lines.drop (i + 1) := by
  cases hstart : startAt? env.lines target with
  | some q =>
    obtain ⟨i, l', rfl, hl', -, hlines⟩ := linesFrom_of_startAt? hstart
    rw [h] at hlines
    obtain ⟨rfl, hls⟩ := List.cons.inj hlines
    exact ⟨i, rfl, hl', hls⟩
  | none =>
    have hi := List.findIdx?_eq_none_iff_findIdx_eq.1 (Option.map_eq_none_iff.1 hstart)
    rw [linesFrom_eq_drop, hi, List.drop_length] at h
    cases h

/-- A line that does not exist has none. -/
theorem startAt?_of_linesFrom_nil (h : env.linesFrom target = []) :
    startAt? env.lines target = none := by
  cases hstart : startAt? env.lines target with
  | none => rfl
  | some q =>
    obtain ⟨_, _, _, _, _, hlines⟩ := linesFrom_of_startAt? hstart
    rw [h] at hlines
    cases hlines

theorem hasLine_eq_isSome : env.hasLine target = (startAt? env.lines target).isSome := by
  rw [startAt?, Option.isSome_map, List.findIdx?_isSome, Env.hasLine]

theorem runOff_of_drop_nil {sense : Sense} {stack : List Point} {μ : sense.Mem}
    (h : lines.drop (p.line + 1) = []) : Machine.runOff lines p stack μ = Machine.pop stack μ := by
  have hle := List.drop_eq_nil_iff.1 h
  rw [Machine.runOff, if_neg (by omega)]

/-- Behind the end of a line comes the next one. -/
theorem runOff_of_drop_cons {sense : Sense} {stack : List Point} {μ : sense.Mem} {ls : List Line}
    (h : lines.drop (p.line + 1) = l :: ls) :
    Machine.runOff lines p stack μ = ⟨.run ⟨p.line + 1, 0⟩, stack, μ⟩ ∧
      lines[p.line + 1]? = some l ∧ ls = lines.drop (p.line + 1 + 1) := by
  obtain ⟨hl, hls⟩ := getElem?_of_drop h
  obtain ⟨hlt, -⟩ := List.getElem?_eq_some_iff.1 hl
  refine ⟨?_, hl, hls.symm⟩
  rw [Machine.runOff, if_pos hlt]

end Points

-- ============================================================================
-- Places in the code
-- ============================================================================

/-- What the code has behind the line at place `i` when calls return to `stack`.  The
    code of a line itself goes on at the next line; a copy of the line in an expanded
    subroutine is followed by copies of the lines after it. -/
inductive Follows (lines : List Line) (i : Nat) : List Point → Behind → Prop
  | line : Follows lines i [] (.block (startOf (lines.drop (i + 1))))
  | copy {stack : List Point} {j : Nat} : Follows lines i stack (.lines j (lines.drop (i + 1)))

mutual

/-- The code `es` of `body` runs the program from the point `p` on when calls return
    to `stack`. -/
inductive Continues (env : Env) (body : List Emission) :
    List Emission → Point → List Point → Prop
  | intro {l : Line} {frame : Frame} {k n n' : Nat} {behind : Behind} {es more : List Emission}
      {p : Point} {stack : List Point} (line : env.lines[p.line]? = some l)
      (code : CodeOf env frame k n l.number (l.stmts.drop p.stmt) behind es n')
      (follows : Follows env.lines p.line stack behind) (placed : es ++ more <:+ body)
      (returns : Returns env body frame.returnTo stack) : Continues env body (es ++ more) p stack

/-- The block at a label is where calls return to `stack`. -/
inductive Returns (env : Env) (body : List Emission) : Label → List Point → Prop
  | exit : Returns env body .exit []
  | call {next : Label} {es : List Emission} {p : Point} {stack : List Point}
      (block : blockAt? next body = some es) (continues : Continues env body es p stack) :
      Returns env body next (p :: stack)

end

/-- The code at a point belongs to the line `l`: what is behind the line, and where
    calls return to. -/
structure Site (env : Env) (body : List Emission) (l : Line) (frame : Frame) (behind : Behind)
    (p : Point) (stack : List Point) : Prop where
  line : env.lines[p.line]? = some l
  follows : Follows env.lines p.line stack behind
  returns : Returns env body frame.returnTo stack

section Sites

variable {env : Env} {body es more : List Emission} {l : Line} {frame : Frame} {k n n' : Nat}
  {behind : Behind} {p : Point} {stack : List Point}

theorem Site.continues (h : Site env body l frame behind p stack)
    (hcode : CodeOf env frame k n l.number (l.stmts.drop p.stmt) behind es n')
    (hplaced : es ++ more <:+ body) : Continues env body (es ++ more) p stack :=
  .intro h.line hcode h.follows hplaced h.returns

theorem Site.next (h : Site env body l frame behind p stack) :
    Site env body l frame behind p.next stack := ⟨h.line, h.follows, h.returns⟩

end Sites

/-- The code `es` of `body` tests the loop at the point `p`. -/
inductive Loops (env : Env) (body : List Emission) : List Emission → Point → List Point → Prop
  | intro {site k n n' : Nat} {owner : Label} {es : List Emission} {p : Point}
      {stack : List Point} {pos : Position} {name : String} {start stop : Expr}
      {step : Option Expr} {ss : List Stmt} {parts : LoopParts}
      (stmt : stmtAt? env.lines p = some (.forNext pos name start stop step ss))
      (loop : parts.MakeUp env name start stop step ss n n')
      (placed : parts.code site owner k name es <:+ body)
      (next : Continues env body es p.next stack) :
      Loops env body (parts.testCode site owner k name ++ .label (.loopBody owner k) ::
        (parts.bodyCode site owner k ++ .label (.loopStep owner k) ::
          (parts.stepCode site owner k name ++ .label (.loopEnd owner k) :: es))) p stack

/-- A state of the line machine and the states of the code machine that belong to
    it. -/
inductive Matches {M : Meaning} (env : Env) (body : List Emission) :
    Machine.State M.sense → Code.State M → Prop
  | boot {stack : List Point} {μ : M.Mem} :
      Matches env body ⟨.boot, stack, μ⟩ (Code.enter .entry μ)
  | run {es : List Emission} {p : Point} {stack : List Point} {ρ : Regs M} {μ : M.Mem}
      (continues : Continues env body es p stack) :
      Matches env body ⟨.run p, stack, μ⟩ ⟨es, ρ, μ⟩
  | round {es : List Emission} {p : Point} {stack : List Point} {ρ : Regs M} {μ : M.Mem}
      (loops : Loops env body es p stack) :
      Matches env body ⟨.round p, stack, μ⟩ ⟨es, ρ, μ⟩
  | halted {site : Option Nat} {role : Role} {es : List Emission} {stack : List Point}
      {ρ : Regs M} {μ : M.Mem} :
      Matches env body ⟨.halted, stack, μ⟩ ⟨.step site ⟨role, .ret⟩ :: es, ρ, μ⟩

/-- What has to hold of the function of a module to run the lines of a program. -/
structure Runs (env : Env) (m : Module) : Prop where
  texts : m.texts = env.texts.toList
  nodup : (Emission.labels m.body).Nodup
  exit : env.lines ≠ [] → blockAt? .exit m.body = some [.step none ⟨.ordinary, .ret⟩]
  line : ∀ i l, env.lines[i]? = some l →
    ∃ es, blockAt? (.line l.number) m.body = some es ∧ Continues env m.body es ⟨i, 0⟩ []

-- ============================================================================
-- Moves
-- ============================================================================

section Moves

variable {M : Meaning} {env : Env} {m : Module} {st : Machine.State M.sense} {c c' : Code.State M}
  {es : List Emission} {ρ ρ' : Regs M} {μ μ' : M.Mem} {p q : Point} {stack : List Point}
  {site : Option Nat} {role : Role} {label : Label}

/-- The code machine gets in at least one step from `c` to a state that belongs to
    `st`. -/
def Moves (env : Env) (m : Module) (st : Machine.State M.sense) (c : Code.State M) : Prop :=
  ∃ c', Matches env m.body st c' ∧ Reaches₁ (Code.step m) c c'

theorem Moves.after (hrun : Reaches (Code.step m) c c') (h : Moves env m st c') :
    Moves env m st c := by
  obtain ⟨c'', hmatch, hrun'⟩ := h
  exact ⟨c'', hmatch, .trans_right hrun hrun'⟩

theorem Moves.step (hstep : Code.step m c = some c') (h : Matches env m.body st c') :
    Moves env m st c := ⟨c', h, .single hstep⟩

/-- A label in code that belongs to the function leads to what is behind it. -/
theorem Runs.block (hruns : Runs env m) (front : List Emission) {back : List Emission}
    (h : front ++ .label label :: back <:+ m.body) : blockAt? label m.body = some back :=
  blockAt?_of_suffix front hruns.nodup h

/-- A jump to a line that starts at `q` goes on there and forgets pending calls. -/
theorem Runs.moves_line (hruns : Runs env m) {target : Nat}
    (h : startAt? env.lines target = some q) :
    Moves env m ⟨.run q, [], μ⟩ ⟨.step site ⟨role, .br (.line target)⟩ :: es, ρ, μ⟩ := by
  obtain ⟨i, l, rfl, hl, rfl, -⟩ := linesFrom_of_startAt? h
  obtain ⟨es', hblock, hcontinues⟩ := hruns.line i l hl
  exact .step (Code.step_br hblock) (.run hcontinues)

/-- A jump to the end halts. -/
theorem Runs.moves_exit (hruns : Runs env m) (hlines : env.lines ≠ []) :
    Moves env m ⟨.halted, [], μ⟩ ⟨.step site ⟨role, .br .exit⟩ :: es, ρ, μ⟩ :=
  .step (Code.step_br (hruns.exit hlines)) .halted

/-- A jump to where calls return to does so. -/
theorem Runs.moves_return (hruns : Runs env m) (hlines : env.lines ≠ [])
    (h : Returns env m.body label stack) :
    Moves env m (Machine.pop stack μ) ⟨.step site ⟨role, .br label⟩ :: es, ρ, μ⟩ := by
  cases h with
  | exit => exact hruns.moves_exit hlines
  | call hblock hcontinues => exact .step (Code.step_br hblock) (.run hcontinues)

-- ----------------------------------------------------------------------------
-- Statements
-- ----------------------------------------------------------------------------

variable {pos : Position} {target : Nat}

/-- The code of a straight statement does what the statement does, and goes on behind it. -/
theorem Runs.moves_plain (hruns : Runs env m) {s : Stmt} {x : Straight Unit} {n n' : Nat}
    {steps : List Step} (hplain : s.plain? env = some x) (hmakes : Makes x n steps () n')
    (hnext : Continues env m.body es p.next stack) :
    Moves env m (Machine.runStmt env.lines p stack μ s)
      ⟨steps.map (.step site) ++ es, ρ, μ⟩ := by
  have hcode := Stmt.plainCode_of_makes hplain hmakes
  obtain ⟨ρ', hexec, -⟩ := hcode.executes
  rw [← hruns.texts] at hexec
  have hstmt : Machine.runStmt env.lines p stack μ s = ⟨.run p.next, stack, M.sense.act s μ⟩ := by
    cases s with
    | assign _ _ _ => rfl
    | print _ _ => rfl
    | input _ _ => rfl
    | _ => cases hplain
  rw [hstmt]
  exact ⟨_, .run hnext, Code.reaches₁_execAll hcode.ne_nil hexec⟩

/-- A jump to a line leads to the block of the line. -/
theorem Runs.moves_goto (hruns : Runs env m) (hline : env.hasLine target = true) :
    Moves env m (Machine.runStmt env.lines p stack μ (.goto pos target))
      ⟨.step site ⟨role, .br (.line target)⟩ :: es, ρ, μ⟩ := by
  rw [hasLine_eq_isSome] at hline
  obtain ⟨q, hstart⟩ := Option.isSome_iff_exists.1 hline
  simp only [Machine.runStmt, Machine.runGoto, hstart]
  exact hruns.moves_line hstart

/-- A call goes on in the copy of its target and will return behind itself. -/
theorem Runs.moves_gosub (hstart : startAt? env.lines target = some q)
    (hblock : blockAt? label m.body = some es)
    (hcopy : Continues env m.body es q (p.next :: stack)) {more : List Emission} :
    Moves env m (Machine.runStmt env.lines p stack μ (.gosub pos target))
      ⟨.step site ⟨role, .br label⟩ :: more, ρ, μ⟩ := by
  simp only [Machine.runStmt, hstart]
  exact .step (Code.step_br hblock) (.run hcopy)

section Decisions

variable {condition : Expr} {n n' : Nat} {steps : List Step} {t : Temp} {more : List Emission}

/-- A decision leads to the line or behind the statement, as the condition comes out. -/
theorem Runs.moves_ifThen (hruns : Runs env m) (hline : env.hasLine target = true)
    (hmakes : Makes (condition.lowerCondition env) n steps t n')
    (hblock : blockAt? label m.body = some es) (hnext : Continues env m.body es p.next stack) :
    Moves env m (Machine.runStmt env.lines p stack μ (.ifThen pos condition target))
      ⟨steps.map (.step site) ++ .step site ⟨role, .brIf t (.line target) label⟩ :: more,
        ρ, μ⟩ := by
  rw [hasLine_eq_isSome] at hline
  obtain ⟨q, hstart⟩ := Option.isSome_iff_exists.1 hline
  obtain ⟨ρ', hexec, -, -, ht⟩ := (Expr.makes_lowerCondition.1 hmakes).executes
  rw [← hruns.texts] at hexec
  refine .after (Code.reaches_execAll hexec) ?_
  rcases htest : condition.test M μ with ⟨b, μ'⟩
  rw [htest] at ht
  simp only [Machine.runStmt, htest, Machine.runGoto, hstart]
  cases b with
  | false => exact .step (Code.step_brIf ht hblock) (.run hnext)
  | true =>
    obtain ⟨i, l, rfl, hl, rfl, -⟩ := linesFrom_of_startAt? hstart
    obtain ⟨es', hblock', hcontinues⟩ := hruns.line i l hl
    exact .step (Code.step_brIf ht hblock') (.run hcontinues)

/-- Where there is no such line, the condition is worked out and the program goes on behind the
    statement. -/
theorem Runs.moves_ifNowhere (hruns : Runs env m) (hline : env.hasLine target = false)
    (hmakes : Makes (condition.lowerCondition env) n steps t n')
    (hblock : blockAt? label m.body = some es) (hnext : Continues env m.body es p.next stack) :
    Moves env m (Machine.runStmt env.lines p stack μ (.ifThen pos condition target))
      ⟨steps.map (.step site) ++ .step site ⟨role, .br label⟩ :: more, ρ, μ⟩ := by
  rw [hasLine_eq_isSome, Option.isSome_eq_false_iff, Option.isNone_iff_eq_none] at hline
  obtain ⟨ρ', hexec, -⟩ := (Expr.makes_lowerCondition.1 hmakes).executes
  rw [← hruns.texts] at hexec
  refine .after (Code.reaches_execAll hexec) ?_
  rcases htest : condition.test M μ with ⟨b, μ'⟩
  simp only [Machine.runStmt, htest, Machine.runGoto, hline]
  cases b with
  | false => exact .step (Code.step_br hblock) (.run hnext)
  | true => exact .step (Code.step_br hblock) (.run hnext)

end Decisions

section Rounds

variable {parts : LoopParts} {name : String} {start stop : Expr} {step : Option Expr}
  {ss : List Stmt} {site k n n' : Nat} {owner : Label}

theorem LoopParts.suffix_code : es <:+ parts.code site owner k name es := by
  have hlabel : ∀ {front back : List Emission} {l : Label}, back <:+ front ++ .label l :: back :=
    (List.suffix_cons _ _).trans (List.suffix_append _ _)
  exact hlabel.trans (hlabel.trans (hlabel.trans hlabel))

/-- The blocks of a loop. -/
theorem Runs.blocks_loop (hruns : Runs env m)
    (hplaced : parts.code site owner k name es <:+ m.body) :
    blockAt? (.loopTest owner k) m.body = some (parts.testCode site owner k name ++
      .label (.loopBody owner k) :: (parts.bodyCode site owner k ++ .label (.loopStep owner k) ::
        (parts.stepCode site owner k name ++ .label (.loopEnd owner k) :: es))) ∧
    blockAt? (.loopBody owner k) m.body = some (parts.bodyCode site owner k ++
      .label (.loopStep owner k) ::
        (parts.stepCode site owner k name ++ .label (.loopEnd owner k) :: es)) ∧
    blockAt? (.loopStep owner k) m.body
      = some (parts.stepCode site owner k name ++ .label (.loopEnd owner k) :: es) ∧
    blockAt? (.loopEnd owner k) m.body = some es := by
  have htest := (List.suffix_cons _ _).trans ((List.suffix_append _ _).trans hplaced)
  have hbody := (List.suffix_cons _ _).trans ((List.suffix_append _ _).trans htest)
  have hstep := (List.suffix_cons _ _).trans ((List.suffix_append _ _).trans hbody)
  exact ⟨hruns.block _ hplaced, hruns.block _ htest, hruns.block _ hbody, hruns.block _ hstep⟩

/-- The code of a loop sets the variable and comes to its test. -/
theorem Runs.moves_enter (hruns : Runs env m)
    (hstmt : stmtAt? env.lines p = some (.forNext pos name start stop step ss))
    (hloop : parts.MakeUp env name start stop step ss n n')
    (hplaced : parts.code site owner k name es <:+ m.body)
    (hnext : Continues env m.body es p.next stack) :
    Moves env m (Machine.runStmt env.lines p stack μ (.forNext pos name start stop step ss))
      ⟨parts.code site owner k name es, ρ, μ⟩ := by
  obtain ⟨htest, -⟩ := hruns.blocks_loop hplaced
  obtain ⟨ρ', hexec⟩ := hloop.exec_enter ρ μ
  rw [← hruns.texts] at hexec
  rw [LoopParts.code, LoopParts.initCode_eq, List.append_assoc]
  refine .after (Code.reaches_execAll hexec) ?_
  exact .step (Code.step_br htest) (.round (.intro hstmt hloop hplaced hnext))

/-- One round of a loop, or the end of it. -/
theorem Runs.moves_round (hruns : Runs env m) (h : Loops env m.body es p stack) :
    ∃ stmt, stmtAt? env.lines p = some stmt ∧
      Moves env m (Machine.runRound p stack μ stmt) ⟨es, ρ, μ⟩ := by
  obtain @⟨site, k, n, n', owner, es, _, _, pos, name, start, stop, step, ss, parts, hstmt, hloop,
    hplaced, hnext⟩ := h
  refine ⟨_, hstmt, ?_⟩
  obtain ⟨htest, hbody, hstep, hend⟩ := hruns.blocks_loop hplaced
  obtain ⟨ρ₁, hexec₁, hwithin⟩ := hloop.exec_again ρ μ
  rw [← hruns.texts] at hexec₁
  rw [LoopParts.testCode_eq, List.append_assoc]
  refine .after (Code.reaches_execAll hexec₁) ?_
  -- The machine and the code decide by the same test.
  rcases hagain : M.sense.again name stop μ with ⟨b, μ₁⟩
  rw [hagain] at hwithin
  simp only [Machine.runRound, hagain]
  cases b with
  | false => exact .step (Code.step_brIf hwithin hend) (.run hnext)
  | true =>
    obtain ⟨ρ₂, hexec₂⟩ := hloop.exec_body ρ₁ μ₁
    obtain ⟨ρ₃, hexec₃⟩ := hloop.exec_advance ρ₂ (M.sense.actAll ss μ₁)
    rw [← hruns.texts] at hexec₂ hexec₃
    refine .after (.single (Code.step_brIf hwithin hbody)) ?_
    rw [LoopParts.bodyCode, List.append_assoc]
    refine .after (Code.reaches_execAll hexec₂) (.after (.single (Code.step_br hstep)) ?_)
    rw [LoopParts.stepCode_eq, List.append_assoc]
    refine .after (Code.reaches_execAll hexec₃) ?_
    exact .step (Code.step_br htest) (.round (.intro hstmt hloop hplaced hnext))

end Rounds

-- ----------------------------------------------------------------------------
-- Points
-- ----------------------------------------------------------------------------

section Codes

variable {l : Line} {frame : Frame} {behind : Behind} {k n n' : Nat} {s : Stmt} {ss : List Stmt}
  {more : List Emission}

theorem Site.lines_ne_nil {body : List Emission} (h : Site env body l frame behind p stack) :
    env.lines ≠ [] := by
  intro hnil
  have hline := h.line
  rw [hnil] at hline
  cases hline

/-- The code of a statement does what the machine does at it. -/
theorem Runs.moves_stmt (hruns : Runs env m) (hsite : Site env m.body l frame behind p stack)
    (hss : l.stmts.drop p.stmt = s :: ss)
    (hcode : CodeOf env frame k n l.number (s :: ss) behind es n')
    (hplaced : es ++ more <:+ m.body) :
    Moves env m (Machine.runStmt env.lines p stack μ s) ⟨es ++ more, ρ, μ⟩ := by
  -- the code of the statements behind this one goes on at the next point
  have hnext : ∀ {k n es}, CodeOf env frame k n l.number ss behind es n' →
      es ++ more <:+ m.body → Continues env m.body (es ++ more) p.next stack := by
    intro k n es hcode hplaced
    rw [← (getElem?_of_drop hss).2] at hcode
    exact hsite.next.continues hcode hplaced
  cases hcode with
  | plain hplain hmakes hrest =>
    rw [List.append_assoc] at hplaced ⊢
    exact hruns.moves_plain hplain hmakes (hnext hrest ((List.suffix_append _ _).trans hplaced))
  | goto hline => exact hruns.moves_goto hline
  | gotoNowhere hline hrest =>
    rw [hasLine_eq_isSome, Option.isSome_eq_false_iff, Option.isNone_iff_eq_none] at hline
    simp only [Machine.runStmt, Machine.runGoto, hline]
    exact .step Code.step_note (.run (hnext hrest ((List.suffix_cons _ _).trans hplaced)))
  | @gosub _ _ _ _ _ _ _ _ _ _ l' ls es₁ es₂ hlines hsub hrest =>
    obtain ⟨i, hstart, hline, hls⟩ := startAt?_of_linesFrom hlines
    simp only [List.cons_append, List.append_assoc] at hplaced ⊢
    have hcopy := (List.suffix_append [_, _, _] _).trans hplaced
    have hbehind := hnext hrest
      ((List.suffix_cons _ _).trans ((List.suffix_append _ _).trans hcopy))
    have hsub' : Site env m.body l' ⟨.subStart frame.owner (k + 1), .subEnd frame.owner (k + 1)⟩
        (.lines 0 ls) ⟨i, 0⟩ (p.next :: stack) :=
      ⟨hline, hls ▸ .copy, .call (hruns.block es₁ hcopy) hbehind⟩
    exact Runs.moves_gosub hstart (hruns.block [_, _] hplaced) (hsub'.continues hsub hcopy)
  | gosubNowhere hlines hrest =>
    have hstart : startAt? env.lines _ = none := startAt?_of_linesFrom_nil hlines
    simp only [Machine.runStmt, hstart]
    refine .after (.single (Code.step_br (hruns.block [_, _] hplaced))) ?_
    exact .step (Code.step_br (hruns.block [_, _, _, _] hplaced))
      (.run (hnext hrest ((List.suffix_append [_, _, _, _, _] _).trans hplaced)))
  | return_ => exact hruns.moves_return hsite.lines_ne_nil hsite.returns
  | end_ => exact hruns.moves_exit hsite.lines_ne_nil
  | ifThen hline hmakes hrest =>
    rw [List.append_assoc] at hplaced ⊢
    have hplaced' := (List.suffix_append _ _).trans hplaced
    exact hruns.moves_ifThen hline hmakes (hruns.block [_] hplaced')
      (hnext hrest ((List.suffix_append [_, _] _).trans hplaced'))
  | ifNowhere hline hmakes hrest =>
    rw [List.append_assoc] at hplaced ⊢
    have hplaced' := (List.suffix_append _ _).trans hplaced
    exact hruns.moves_ifNowhere hline hmakes (hruns.block [_] hplaced')
      (hnext hrest ((List.suffix_append [_, _] _).trans hplaced'))
  | @forNext _ _ _ n₁ _ _ _ name _ _ _ _ _ _ es parts hloop hrest =>
    have hcode : parts.code l.number frame.owner (k + 1) name es ++ more
        = parts.code l.number frame.owner (k + 1) name (es ++ more) := by
      simp [LoopParts.code]
    rw [hcode] at hplaced ⊢
    exact hruns.moves_enter (stmtAt?_of_drop hsite.line hss) hloop hplaced
      (hnext hrest (LoopParts.suffix_code.trans hplaced))

/-- The code behind the last statement of a line does what the machine does there. -/
theorem Runs.moves_off (hruns : Runs env m) (hsite : Site env m.body l frame behind p stack)
    (hcode : CodeOf env frame k n l.number [] behind es n') (hplaced : es ++ more <:+ m.body) :
    Moves env m (Machine.runOff env.lines p stack μ) ⟨es ++ more, ρ, μ⟩ := by
  cases hcode with
  | lineEnd =>
    cases hsite.follows with
    | line =>
      -- Behind the last line the program ends.
      cases hdrop : env.lines.drop (p.line + 1) with
      | nil =>
        rw [runOff_of_drop_nil hdrop]
        exact hruns.moves_exit hsite.lines_ne_nil
      | cons l' ls =>
        obtain ⟨hoff, hline, -⟩ := runOff_of_drop_cons hdrop
        obtain ⟨es', hblock, hcontinues⟩ := hruns.line _ l' hline
        rw [hoff]
        exact .step (Code.step_br hblock) (.run hcontinues)
  | regionEnd =>
    -- Lines behind a statement belong to the copy of a subroutine.
    generalize hbehind : Behind.lines _ [] = behind at hsite
    cases hsite.follows with
    | line => cases hbehind
    | copy =>
      obtain ⟨-, hdrop⟩ := Behind.lines.inj hbehind
      rw [runOff_of_drop_nil hdrop.symm]
      exact hruns.moves_return hsite.lines_ne_nil hsite.returns
  | @nextLine _ _ _ _ _ j l' ls es hnext =>
    generalize hbehind : Behind.lines j (l' :: ls) = behind at hsite
    cases hsite.follows with
    | line => cases hbehind
    | copy =>
      obtain ⟨-, hdrop⟩ := Behind.lines.inj hbehind
      obtain ⟨hoff, hline, hls⟩ := runOff_of_drop_cons hdrop.symm
      have hsite' : Site env m.body l' frame (.lines (j + 1) ls) ⟨p.line + 1, 0⟩ stack :=
        ⟨hline, hls ▸ .copy, hsite.returns⟩
      rw [hoff]
      exact .step (Code.step_br (hruns.block [_, _] hplaced))
        (.run (hsite'.continues hnext ((List.suffix_append [_, _, _] _).trans hplaced)))

end Codes

end Moves

end LineBasic
