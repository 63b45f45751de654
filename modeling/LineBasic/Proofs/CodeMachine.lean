/-
  LineBasic.Proofs.CodeMachine

  A machine that runs the function of a module.  It holds the code that is left of
  the current block, the contents of the temporaries, and memory.  Code that is not
  in order stops the machine: a block that runs into the next label, a jump to a
  label that is not there, a temporary that does not hold what the instruction
  needs.
-/

import LineBasic.Proofs.CodeLayout
import LineBasic.Proofs.Meaning
import Mathlib.Computability.StateTransition

namespace LineBasic

open StateTransition

-- ============================================================================
-- Temporaries
-- ============================================================================

/-- What a temporary holds. -/
inductive Cell (M : Meaning) where
  | number (value : M.Num)
  | truth (value : Bool)
  | order (value : Int)
  | whole (value : M.Whole)
  | single (value : M.Single)
  | address (global : Global)

/-- The contents of the temporaries that have been defined. -/
abbrev Regs (M : Meaning) : Type := Temp → Option (Cell M)

namespace Regs

variable {M : Meaning}

/-- No temporary has been defined. -/
def empty : Regs M := fun _ => none

/-- Defines a temporary. -/
def set (ρ : Regs M) (t : Temp) (c : Cell M) : Regs M := fun u => if u = t then some c else ρ u

/-- The text whose address a temporary holds. -/
def text? (ρ : Regs M) (texts : List String) (t : Temp) : Option String :=
  match ρ t with
  | some (.address (.literal k)) => texts[k]?
  | _ => none

@[simp] theorem set_self {ρ : Regs M} {t : Temp} {c : Cell M} : ρ.set t c t = some c := by
  simp [set]

theorem set_of_ne {ρ : Regs M} {t u : Temp} {c : Cell M} (h : u ≠ t) : ρ.set t c u = ρ u := by
  simp [set, h]

end Regs

/-- The number an operand stands for. -/
def Operand.value? {M : Meaning} (ρ : Regs M) : Operand → Option M.Num
  | literal x => some (M.literal x)
  | temp t =>
    match ρ t with
    | some (.number v) => some v
    | _ => none

-- ============================================================================
-- Instructions
-- ============================================================================

/-- What an instruction inside a block does; none if it cannot be carried out. -/
def Instr.exec (M : Meaning) (texts : List String) (ρ : Regs M) (μ : M.Mem) :
    Instr → Option (Regs M × M.Mem)
  | alloca _ => some (ρ, μ)
  | store value name => do
    let v ← value.value? ρ
    some (ρ, μ.assign name v)
  | load t name => some (ρ.set t (.number (μ.store name)), μ)
  | arith t op lhs rhs => do
    let l ← lhs.value? ρ
    let r ← rhs.value? ρ
    some (ρ.set t (.number (M.arith op l r)), μ)
  | compare t rel lhs rhs => do
    let l ← lhs.value? ρ
    let r ← rhs.value? ρ
    some (ρ.set t (.truth (M.compare rel l r μ).1), (M.compare rel l r μ).2)
  | compareTexts t lhs rhs => do
    let a ← ρ.text? texts lhs
    let b ← ρ.text? texts rhs
    some (ρ.set t (.order (M.order a b)), μ)
  | compareOrder t rel order =>
    match ρ order with
    | some (.order o) =>
      some (ρ.set t (.truth (rel.ofOrder o)), μ.perform (.compared rel (rel.ofOrder o)))
    | _ => none
  | ofTruth t truth =>
    match ρ truth with
    | some (.truth b) => some (ρ.set t (.number (M.ofTruth b)), μ)
    | _ => none
  | toInteger t value => do
    let v ← value.value? ρ
    some (ρ.set t (.whole (M.toInteger v)), μ)
  | ofInteger t value =>
    match ρ value with
    | some (.whole i) => some (ρ.set t (.number (M.ofInteger i)), μ)
    | _ => none
  | toSingle t value => do
    let v ← value.value? ρ
    some (ρ.set t (.single (M.toSingle v)), μ)
  | ofSingle t value =>
    match ρ value with
    | some (.single x) => some (ρ.set t (.number (M.ofSingle x)), μ)
    | _ => none
  | address t global => some (ρ.set t (.address global), μ)
  | call t f arg => do
    let v ← arg.value? ρ
    some (ρ.set t (.number (M.call f v)), μ)
  | draw t => some (ρ.set t (.number (M.random μ).1), (M.random μ).2)
  | printNumber format value =>
    match ρ format with
    | some (.address .numberFormat) => do
      let v ← value.value? ρ
      some (ρ, μ.perform (.printed v))
    | _ => none
  | printText format value =>
    match ρ format with
    | some (.address .textFormat) => do
      let text ← ρ.text? texts value
      some (ρ, μ.perform (.printedText text))
    | _ => none
  | readNumber format name =>
    match ρ format with
    | some (.address .inputFormat) => some (ρ, μ.input M.read name)
    | _ => none
  | br _ => none
  | brIf _ _ _ => none
  | ret => none

/-- What the steps of straight code do, one after the other. -/
def execAll (M : Meaning) (texts : List String) (ρ : Regs M) (μ : M.Mem) :
    List Step → Option (Regs M × M.Mem)
  | [] => some (ρ, μ)
  | s :: steps =>
    match s.instr.exec M texts ρ μ with
    | some (ρ, μ) => execAll M texts ρ μ steps
    | none => none

-- ============================================================================
-- The machine
-- ============================================================================

/-- The code behind a label. -/
def blockAt? (l : Label) : List Emission → Option (List Emission)
  | [] => none
  | .label l' :: es => if l' = l then some es else blockAt? l es
  | .step _ _ :: es => blockAt? l es
  | .note _ :: es => blockAt? l es

namespace Code

/-- A state of the machine. -/
structure State (M : Meaning) where
  rest : List Emission
  regs : Regs M
  memory : M.Mem

variable {M : Meaning}

/-- Goes on at a label. -/
def goTo (m : Module) (l : Label) (ρ : Regs M) (μ : M.Mem) : Option (State M) :=
  (blockAt? l m.body).map (⟨·, ρ, μ⟩)

/-- One step of the machine. -/
def step (m : Module) (st : State M) : Option (State M) :=
  match st.rest with
  | .note _ :: es => some { st with rest := es }
  | .step _ s :: es =>
    match s.instr with
    | .br l => goTo m l st.regs st.memory
    | .brIf c yes no =>
      match st.regs c with
      | some (.truth b) => goTo m (if b then yes else no) st.regs st.memory
      | _ => none
    | i => (i.exec M m.texts st.regs st.memory).map fun (ρ, μ) => ⟨es, ρ, μ⟩
  | _ => none

/-- Whether the function returns in a state. -/
def State.returns (st : State M) : Bool :=
  match st.rest with
  | .step _ ⟨_, .ret⟩ :: _ => true
  | _ => false

/-- The state in which the block at a label is about to be entered. -/
def enter (l : Label) (μ : M.Mem) : State M := ⟨[.step none ⟨.ordinary, .br l⟩], .empty, μ⟩

end Code

-- ============================================================================
-- Steps
-- ============================================================================

/-- An instruction adds to the effects so far and takes nothing back. -/
theorem Instr.done_exec {M : Meaning} {texts : List String} {ρ ρ' : Regs M} {μ μ' : M.Mem}
    {i : Instr} (h : i.exec M texts ρ μ = some (ρ', μ')) : μ.done <+: μ'.done := by
  cases i with
  | store value name =>
    obtain ⟨v, -, hv⟩ := Option.bind_eq_some_iff.1 h
    cases hv
    exact Memory.done_assign
  | compare t rel lhs rhs =>
    obtain ⟨l, -, hl⟩ := Option.bind_eq_some_iff.1 h
    obtain ⟨r, -, hr⟩ := Option.bind_eq_some_iff.1 hl
    cases hr
    exact Memory.done_perform
  | compareOrder t rel order =>
    rw [Instr.exec] at h
    split at h
    · cases h
      exact Memory.done_perform
    · cases h
  | printNumber format value =>
    rw [Instr.exec] at h
    split at h
    · obtain ⟨v, -, hv⟩ := Option.bind_eq_some_iff.1 h
      cases hv
      exact Memory.done_perform
    · cases h
  | printText format value =>
    rw [Instr.exec] at h
    split at h
    · obtain ⟨text, -, htext⟩ := Option.bind_eq_some_iff.1 h
      cases htext
      exact Memory.done_perform
    · cases h
  | readNumber format name =>
    rw [Instr.exec] at h
    split at h
    · cases h
      exact Memory.done_input
    · cases h
  | draw t =>
    cases h
    exact List.prefix_refl _
  | _ =>
    -- the others leave memory alone
    have hsame : μ' = μ := by
      simp only [Instr.exec, bind, Option.bind_eq_some_iff] at h
      grind
    rw [hsame]

/-- Where labels are distinct, a block is found behind the one place of its label. -/
theorem blockAt?_append {l : Label} {front back : List Emission}
    (h : (Emission.labels (front ++ .label l :: back)).Nodup) :
    blockAt? l (front ++ .label l :: back) = some back := by
  induction front with
  | nil => simp [blockAt?]
  | cons e front ih =>
    cases e with
    | label l' =>
      rw [List.cons_append, Emission.labels_label, List.nodup_cons] at h
      have hne : l' ≠ l := by
        rintro rfl
        exact h.1 (by simp)
      rw [List.cons_append, blockAt?, if_neg hne]
      exact ih h.2
    | step _ _ => exact ih h
    | note _ => exact ih h

/-- A label in code leads to what is behind it. -/
theorem blockAt?_of_suffix {l : Label} {body back : List Emission} (front : List Emission)
    (hnodup : (Emission.labels body).Nodup) (h : front ++ .label l :: back <:+ body) :
    blockAt? l body = some back := by
  obtain ⟨before, rfl⟩ := h
  rw [← List.append_assoc] at hnodup ⊢
  exact blockAt?_append hnodup

namespace Code

variable {M : Meaning} {m : Module} {es : List Emission} {ρ ρ' : Regs M} {μ μ' : M.Mem}

theorem step_note {n : Note} : step m ⟨.note n :: es, ρ, μ⟩ = some ⟨es, ρ, μ⟩ := rfl

theorem step_br {site : Option Nat} {role : Role} {l : Label} {es' : List Emission}
    (h : blockAt? l m.body = some es') :
    step m ⟨.step site ⟨role, .br l⟩ :: es, ρ, μ⟩ = some ⟨es', ρ, μ⟩ := by
  simp [step, goTo, h]

theorem step_brIf {site : Option Nat} {role : Role} {c : Temp} {yes no : Label} {b : Bool}
    {es' : List Emission} (hc : ρ c = some (.truth b))
    (h : blockAt? (if b then yes else no) m.body = some es') :
    step m ⟨.step site ⟨role, .brIf c yes no⟩ :: es, ρ, μ⟩ = some ⟨es', ρ, μ⟩ := by
  simp [step, goTo, hc, h]

/-- An instruction that is no jump is executed, and the one behind it comes next. -/
theorem step_exec {site : Option Nat} {s : Step}
    (h : s.instr.exec M m.texts ρ μ = some (ρ', μ')) :
    step m ⟨.step site s :: es, ρ, μ⟩ = some ⟨es, ρ', μ'⟩ := by
  unfold step
  split
  · next heq => cases heq
  · next heq =>
    cases heq
    split
    · next hi =>
      rw [hi] at h
      cases h
    · next hi =>
      rw [hi] at h
      cases h
    · rw [h]
      rfl
  · next hnot => exact absurd rfl (hnot _ _ _)

/-- What has been done outside is never undone. -/
theorem done_step {st st' : State M} (h : step m st = some st') :
    st.memory.done <+: st'.memory.done := by
  have hgoTo : ∀ {l : Label}, goTo m l st.regs st.memory = some st' →
      st.memory.done <+: st'.memory.done := by
    intro l hl
    obtain ⟨es, -, rfl⟩ := Option.map_eq_some_iff.1 hl
    exact List.prefix_refl _
  unfold step at h
  split at h
  · cases h
    exact List.prefix_refl _
  · split at h
    · exact hgoTo h
    · split at h
      · exact hgoTo h
      · cases h
    · obtain ⟨⟨ρ, μ⟩, hexec, rfl⟩ := Option.map_eq_some_iff.1 h
      exact Instr.done_exec hexec
  · cases h

/-- Straight code runs through. -/
theorem reaches_execAll {site : Option Nat} {steps : List Step}
    (h : execAll M m.texts ρ μ steps = some (ρ', μ')) :
    Reaches (step m) ⟨steps.map (.step site) ++ es, ρ, μ⟩ ⟨es, ρ', μ'⟩ := by
  induction steps generalizing ρ μ with
  | nil =>
    cases h
    exact .refl
  | cons s steps ih =>
    unfold execAll at h
    split at h
    · next ρ₁ μ₁ hs => exact .head (step_exec hs) (ih h)
    · cases h

/-- Straight code is executed step by step, in at least one step if there is any code. -/
theorem reaches₁_execAll {site : Option Nat} {steps : List Step} (hne : steps ≠ [])
    (h : execAll M m.texts ρ μ steps = some (ρ', μ')) :
    Reaches₁ (step m) ⟨steps.map (.step site) ++ es, ρ, μ⟩ ⟨es, ρ', μ'⟩ := by
  cases steps with
  | nil => exact absurd rfl hne
  | cons s steps =>
    unfold execAll at h
    split at h
    · next ρ₁ μ₁ hs => exact .head' (step_exec hs) (reaches_execAll h)
    · cases h

end Code

end LineBasic
