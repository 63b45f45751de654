/-
  LineBasic.Proofs.Refinement

  The function made for a program does what the line machine does with the program,
  whatever expressions mean: it has the same effects in the same order, it returns
  exactly when the machine halts, and it never gets stuck.
-/

import LineBasic.Proofs.ControlFlow
import LineBasic.Proofs.Tracking

namespace LineBasic

open StateTransition

-- ============================================================================
-- Behaviour
-- ============================================================================

section Behaviour

variable {σ σ₁ σ₂ ε : Type}

/-- The run from `a` gets to have done `l`. -/
def Performs (step : σ → Option σ) (done : σ → List ε) (a : σ) (l : List ε) : Prop :=
  ∃ b, Reaches step a b ∧ l <+: done b

theorem prefix_of_reaches {step : σ → Option σ} {done : σ → List ε}
    (hstep : ∀ a b, step a = some b → done a <+: done b) {a b : σ} (h : Reaches step a b) :
    done a <+: done b := by
  induction h with
  | refl => exact List.prefix_refl _
  | tail _ hlast ih => exact ih.trans (hstep _ _ hlast)

/-- Systems of which one keeps track of the other do the same, if what is done by the
    one that keeps track is never taken back. -/
theorem performs_iff_of_respects {step₁ : σ₁ → Option σ₁} {step₂ : σ₂ → Option σ₂}
    {rel : σ₁ → σ₂ → Prop} (hrespects : Respects step₁ step₂ rel) {done₁ : σ₁ → List ε}
    {done₂ : σ₂ → List ε} (hdone : ∀ a b, rel a b → done₂ b = done₁ a)
    (hstep : ∀ b b', step₂ b = some b' → done₂ b <+: done₂ b') {a : σ₁} {b : σ₂} (h : rel a b)
    {l : List ε} : Performs step₂ done₂ b l ↔ Performs step₁ done₁ a l := by
  constructor
  · rintro ⟨b', hb, hl⟩
    obtain ⟨a₁, b₁, hb₁, hrel, ha⟩ := tr_reaches_rev hrespects h hb
    refine ⟨a₁, ha, ?_⟩
    rw [← hdone _ _ hrel]
    exact hl.trans (prefix_of_reaches hstep hb₁)
  · rintro ⟨a', ha, hl⟩
    obtain ⟨b', hrel, hb⟩ := tr_reaches hrespects h ha
    refine ⟨b', hb, ?_⟩
    rw [hdone _ _ hrel]
    exact hl

/-- Systems of which one keeps track of the other end looking the same, or not at
    all. -/
theorem map_eval_of_respects {α : Type} {step₁ : σ₁ → Option σ₁} {step₂ : σ₂ → Option σ₂}
    {rel : σ₁ → σ₂ → Prop} (hrespects : Respects step₁ step₂ rel) {view₁ : σ₁ → α}
    {view₂ : σ₂ → α} (hview : ∀ a b, rel a b → view₂ b = view₁ a) {a : σ₁} {b : σ₂}
    (h : rel a b) : (eval step₂ b).map view₂ = (eval step₁ a).map view₁ := by
  ext v
  simp only [Part.mem_map_iff]
  constructor
  · rintro ⟨b', hb', rfl⟩
    obtain ⟨a', hrel, ha'⟩ := tr_eval_rev hrespects h hb'
    exact ⟨a', ha', (hview _ _ hrel).symm⟩
  · rintro ⟨a', ha', rfl⟩
    obtain ⟨b', hrel, hb'⟩ := tr_eval hrespects h ha'
    exact ⟨b', hb', hview _ _ hrel⟩

end Behaviour

/-- The code machine does from `c` what the line machine does from `st`: both get to
    have the same effects, both end with the same memory or not at all, and where the
    code machine ends the function returns. -/
structure Agrees {M : Meaning} (m : Module) (names : List String) (lines : List Line)
    (c : Code.State M) (st : Machine.State M.sense) : Prop where
  effects : ∀ l, Performs (Code.step m) (fun c => c.memory.done) c l ↔
    Performs (Machine.step names lines) (fun st => st.memory.done) st l
  ending : (eval (Code.step m) c).map (fun c => c.memory)
    = (eval (Machine.step names lines) st).map (fun st => st.memory)
  returns : ∀ c' ∈ eval (Code.step m) c, c'.returns = true

section Agreement

variable {M : Meaning} {env : Env} {m : Module} {names : List String} {lines : List Line}
  {c c' : Code.State M} {st : Machine.State M.sense} {n : Nat}

theorem Matches.memory {body : List Emission} (h : Matches env body st c) :
    c.memory = st.memory := by
  cases h <;> rfl

/-- Only a machine that has halted does not go on. -/
theorem Machine.halted_of_step (h : Machine.step names lines st = none) :
    st.control = .halted := by
  obtain ⟨control, stack, μ⟩ := st
  cases control with
  | halted => rfl
  | boot => cases lines <;> cases h
  | run p =>
    unfold Machine.step at h
    dsimp only at h
    split at h <;> cases h
  | round p =>
    unfold Machine.step at h
    dsimp only at h
    split at h <;> cases h

/-- States that belong together agree, if the code machine keeps track. -/
theorem Agrees.of_matches
    (hrespects : Respects (Machine.step names env.lines) (Code.step m)
      (Matches (M := M) env m.body))
    (h : Matches env m.body st c) : Agrees m names env.lines c st := by
  refine ⟨fun l => ?_, ?_, fun c' hc' => ?_⟩
  · refine performs_iff_of_respects hrespects (fun st c hmatch => ?_) (fun c c' hstep => ?_) h
    · rw [hmatch.memory]
    · exact Code.done_step hstep
  · exact map_eval_of_respects hrespects (fun st c hmatch => hmatch.memory) h
  · obtain ⟨st', hmatch, hst'⟩ := tr_eval_rev hrespects h hc'
    have hhalted := Machine.halted_of_step (mem_eval.1 hst').2
    cases hmatch with
    | halted => rfl
    | _ => cases hhalted

/-- Entering a block changes nothing. -/
theorem Agrees.enter {l : Label} {μ : M.Mem} {es : List Emission}
    (hblock : blockAt? l m.body = some es) (h : Agrees m names lines ⟨es, .empty, μ⟩ st) :
    Agrees m names lines (Code.enter l μ) st := by
  have hstep : Code.step m (Code.enter l μ) = some ⟨es, .empty, μ⟩ := Code.step_br hblock
  have hreaches : Reaches (Code.step m) (Code.enter l μ) ⟨es, .empty, μ⟩ := .single hstep
  refine ⟨fun l' => ?_, ?_, ?_⟩
  · rw [← h.effects]
    constructor
    · rintro ⟨c', hc', hl'⟩
      rcases Relation.ReflTransGen.cases_head hc' with rfl | ⟨c₁, hfirst, hrest⟩
      · exact ⟨_, .refl, hl'⟩
      · obtain rfl := Option.mem_unique hstep hfirst
        exact ⟨c', hrest, hl'⟩
    · rintro ⟨c', hc', hl'⟩
      exact ⟨c', hreaches.trans hc', hl'⟩
  · rw [reaches_eval hreaches]
    exact h.ending
  · rw [reaches_eval hreaches]
    exact h.returns

end Agreement

-- ============================================================================
-- The code of a program
-- ============================================================================

section Programs

variable {M : Meaning} {env : Env} {m : Module} {n n' : Nat}

/-- The block of a line runs the program from that line on.  The induction is on the
    code of the lines from place `j` on. -/
theorem LinesCode.continues {body es more : List Emission} {ls : List Line} {j : Nat}
    (hcode : LinesCode env ls n es n') (hls : env.lines.drop j = ls)
    (hnodup : (Emission.labels body).Nodup) (hplaced : es ++ more <:+ body) {i : Nat} {l : Line}
    (hle : j ≤ i) (hl : env.lines[i]? = some l) :
    ∃ es', blockAt? (.line l.number) body = some es' ∧ Continues env body es' ⟨i, 0⟩ [] := by
  induction hcode generalizing j more with
  | nil =>
    have hlt := (List.getElem?_eq_some_iff.1 hl).1
    have hlen := List.drop_eq_nil_iff.1 hls
    omega
  | @cons l' ls n n₁ n' es es' hcode _ ih =>
    obtain ⟨hl', hls'⟩ := getElem?_of_drop hls
    simp only [List.cons_append, List.append_assoc] at hplaced
    have hplaced' : es ++ (es' ++ more) <:+ body := (List.suffix_append [_, _] _).trans hplaced
    rcases Nat.eq_or_lt_of_le hle with rfl | hlt
    · rw [hl] at hl'
      cases hl'
      have hsite : Site env body l ⟨.line l.number, .exit⟩ (.block (startOf ls)) ⟨j, 0⟩ [] :=
        ⟨hl, hls' ▸ .line, .exit⟩
      exact ⟨_, blockAt?_of_suffix [_] hnodup hplaced, hsite.continues hcode hplaced'⟩
    · exact ih hls' ((List.suffix_append _ _).trans hplaced') hlt

/-- The function of a program runs its lines. -/
theorem MainCode.runs (h : MainCode env m.body n) (htexts : m.texts = env.texts.toList)
    (hlines : (env.lines.map Line.number).Nodup) : Runs env m := by
  have hnodup := h.nodup_labels hlines
  generalize hbody : m.body = body at h
  cases h with
  | empty hnil =>
    exact ⟨htexts, hnodup, fun hne => absurd hnil hne, fun i l hl => by simp [hnil] at hl⟩
  | @lines es _ _ hcode =>
    have hplaced : es ++ [.label .exit, .step none ⟨.ordinary, .ret⟩] <:+ m.body := by
      rw [hbody]
      exact (List.suffix_cons _ _).trans ((List.suffix_append _ _).trans (List.suffix_cons _ _))
    refine ⟨htexts, hnodup, fun _ => blockAt?_of_suffix es hnodup hplaced, fun i l hl => ?_⟩
    exact hcode.continues List.drop_zero hnodup hplaced (Nat.zero_le i) hl

/-- The code that makes the slots sets all variables to zero. -/
theorem Code.reaches_slotCode {names : List String} {es : List Emission} {ρ : Regs M} {μ : M.Mem} :
    Reaches (Code.step m) ⟨slotCode names ++ es, ρ, μ⟩
      ⟨es, ρ, μ.assignAll names (M.literal 0.0)⟩ := by
  induction names generalizing μ with
  | nil => exact .refl
  | cons name names ih => exact .head (Code.step_exec rfl) (.head (Code.step_exec rfl) ih)

theorem blockAt?_head {l : Label} {body es : List Emission} (h : body = .label l :: es) :
    blockAt? l body = some es := by
  rw [h, blockAt?, if_pos rfl]

/-- The first step of a machine, which sets the variables to zero, is done by the code in front
    of the first line. -/
theorem MainCode.moves_boot (h : MainCode env m.body n) (hruns : Runs env m)
    {stack : List Point} {μ : M.Mem} :
    ∃ st, Machine.step env.names.toList env.lines ⟨.boot, stack, μ⟩ = some st ∧
      Moves env m st (Code.enter .entry μ) := by
  generalize hbody : m.body = body at h
  cases h with
  | empty hnil =>
    have hentry := blockAt?_head hbody
    refine ⟨⟨.halted, [], μ.assignAll env.names.toList (M.literal 0.0)⟩, ?_, ?_⟩
    · rw [hnil]
      rfl
    · exact ⟨_, .halted, .head' (Code.step_br hentry) Code.reaches_slotCode⟩
  | lines hne _ =>
    have hentry := blockAt?_head hbody
    obtain ⟨l, ls, hlines⟩ := List.exists_cons_of_ne_nil hne
    obtain ⟨es, hblock, hcontinues⟩ := hruns.line 0 l (by rw [hlines]; rfl)
    rw [hlines] at hentry
    refine ⟨⟨.run ⟨0, 0⟩, [], μ.assignAll env.names.toList (M.literal 0.0)⟩, ?_, ?_⟩
    · rw [hlines]
      rfl
    · exact .after (.head (Code.step_br hentry) Code.reaches_slotCode)
        (.step (Code.step_br hblock) (.run hcontinues))

/-- The code machine keeps track of the line machine. -/
theorem MainCode.respects (h : MainCode env m.body n) (hruns : Runs env m) :
    Respects (Machine.step env.names.toList env.lines) (Code.step m)
      (Matches (M := M) env m.body) := by
  intro st c hmatch
  cases hmatch with
  | boot =>
    obtain ⟨st, hstep, hmoves⟩ := h.moves_boot hruns
    rw [hstep]
    exact hmoves
  | @run _ p stack ρ μ hcontinues =>
    obtain @⟨l, frame, k, n, n', behind, es, more, _, _, hl, hcode, hfollows, hplaced, hreturns⟩ :=
      hcontinues
    have hsite : Site env m.body l frame behind p stack := ⟨hl, hfollows, hreturns⟩
    cases hss : l.stmts.drop p.stmt with
    | nil =>
      rw [hss] at hcode
      simp only [Machine.step, stmtAt?_of_drop_nil hl hss]
      exact hruns.moves_off hsite hcode hplaced
    | cons s ss =>
      rw [hss] at hcode
      simp only [Machine.step, stmtAt?_of_drop hl hss]
      exact hruns.moves_stmt hsite hss hcode hplaced
  | round hloops =>
    obtain ⟨stmt, hstmt, hmoves⟩ := hruns.moves_round hloops
    simp only [Machine.step, hstmt]
    exact hmoves
  | halted => rfl

end Programs

/-- The function made for a program does what the line machine does with the lines of
    the program in ascending order, of several with one number the first, whatever
    expressions mean, whatever the slots hold and whatever the world outside is: from
    its entry on, and from every line on. -/
theorem Program.lower_agrees (p : Program) (inventory : Inventory) (m : Module)
    (h : (p.lower inventory).outcome = .ok m) (M : Meaning) (μ : M.Mem) :
    Agrees m inventory.names.toList p.listing (Code.enter .entry μ) ⟨.boot, [], μ⟩ ∧
    (∀ i l, p.listing[i]? = some l →
      Agrees m inventory.names.toList p.listing (Code.enter (.line l.number) μ)
        ⟨.run ⟨i, 0⟩, [], μ⟩) ∧
    (p.listing.map Line.number).Pairwise (· < ·) ∧
    ∀ l, l ∈ p.listing ↔ p.lines.find? (·.number = l.number) = some l := by
  have hmain := Program.mainCode_of_lower h
  have hruns := hmain.runs (Program.texts_of_lower h) p.nodup_numbers
  have hrespects := hmain.respects (M := M) hruns
  refine ⟨.of_matches hrespects .boot, fun i l hl => ?_, List.pairwise_map.2 p.ascends_listing,
    fun l => mem_listing_iff⟩
  obtain ⟨es, hblock, hcontinues⟩ := hruns.line i l hl
  exact .enter hblock (.of_matches hrespects (.run hcontinues))

theorem Program.agrees_tour :
    ∃ m, (tour.lower tour.inventory).outcome = .ok m ∧
      ∀ (M : Meaning) (μ : M.Mem),
        Agrees m ["I", "N"] tour.listing (Code.enter .entry μ) ⟨.boot, [], μ⟩ := by
  obtain ⟨m, hm⟩ := exists_lower_tour
  refine ⟨m, hm, fun M μ => ?_⟩
  have hnames : tour.inventory.names.toList = ["I", "N"] := by decide +kernel
  rw [← hnames]
  exact (tour.lower_agrees _ m hm M μ).1

end LineBasic
