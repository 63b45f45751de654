/-
  LineBasic.Proofs.Flow

  Code read from top to bottom.  Outside a block only a label may come; it opens a
  block in which no temporary is known.  An instruction may use the temporaries
  that are known, each at the type it has; a new temporary is the next one that is
  free; a jump or a return closes the block.

  `Flow` says that a piece of code can be read that way, `Reads` the same of straight
  code.  Both are proved by induction on the layout of the code.
-/

import LineBasic.Proofs.StraightLayout

namespace LineBasic

-- ============================================================================
-- What an instruction defines, uses and names
-- ============================================================================

/-- The type of a temporary. -/
inductive CodeType where
  /-- Written `double`. -/
  | double
  /-- Written `i1`. -/
  | truth
  /-- Written `i32`. -/
  | order
  /-- Written `i64`. -/
  | integer
  /-- Written `float`. -/
  | single
  /-- Written `ptr`. -/
  | address
deriving DecidableEq, Repr

/-- The temporaries that are known, with their types. -/
abbrev Known : Type := List (Temp × CodeType)

/-- The temporary an operand uses, if it uses one. -/
def Operand.uses : Operand → Known
  | literal _ => []
  | temp t => [(t, .double)]

namespace Instr

/-- The temporary an instruction defines, and its type. -/
def result? : Instr → Option (Temp × CodeType)
  | load t _ => some (t, .double)
  | arith t _ _ _ => some (t, .double)
  | compare t _ _ _ => some (t, .truth)
  | compareTexts t _ _ => some (t, .order)
  | compareOrder t _ _ => some (t, .truth)
  | ofTruth t _ => some (t, .double)
  | toInteger t _ => some (t, .integer)
  | ofInteger t _ => some (t, .double)
  | toSingle t _ => some (t, .single)
  | ofSingle t _ => some (t, .double)
  | address t _ => some (t, .address)
  | call t _ _ => some (t, .double)
  | draw t => some (t, .double)
  | _ => none

/-- The temporaries an instruction uses, each at the type it is used at. -/
def uses : Instr → Known
  | store v _ => v.uses
  | arith _ _ l r => l.uses ++ r.uses
  | compare _ _ l r => l.uses ++ r.uses
  | compareTexts _ a b => [(a, .address), (b, .address)]
  | compareOrder _ _ o => [(o, .order)]
  | ofTruth _ c => [(c, .truth)]
  | toInteger _ v => v.uses
  | ofInteger _ i => [(i, .integer)]
  | toSingle _ v => v.uses
  | ofSingle _ f => [(f, .single)]
  | call _ _ v => v.uses
  | printNumber f v => (f, .address) :: v.uses
  | printText f s => [(f, .address), (s, .address)]
  | readNumber f _ => [(f, .address)]
  | brIf c _ _ => [(c, .truth)]
  | _ => []

/-- The variables whose slots an instruction names. -/
def slots : Instr → List String
  | alloca x => [x]
  | store _ x => [x]
  | load _ x => [x]
  | readNumber _ x => [x]
  | _ => []

/-- The blocks an instruction may go on with. -/
def targets : Instr → List Label
  | br l => [l]
  | brIf _ yes no => [yes, no]
  | _ => []

/-- Whether an instruction ends its block. -/
def isTerminator : Instr → Bool
  | br _ => true
  | brIf .. => true
  | ret => true
  | _ => false

/-- Whether an instruction makes a slot. -/
def isAlloca : Instr → Bool
  | alloca _ => true
  | _ => false

/-- An instruction jumps to some of the given blocks and names only slots of
    variables that are there. -/
structure InScope (env : Env) (blocks : List Label) (i : Instr) : Prop where
  targets : ∀ l ∈ i.targets, l ∈ blocks
  slots : ∀ x ∈ i.slots, x ∈ env.names

/-- An instruction behind the entry, where no slot is made. -/
structure Sound (env : Env) (blocks : List Label) (i : Instr) : Prop
    extends InScope env blocks i where
  noAlloca : i.isAlloca = false

end Instr

-- ============================================================================
-- Reading code
-- ============================================================================

/-- `Flow ok n known es n' known'`: the code `es` can be read when `n` temporaries are
    in use and the temporaries of the open block are `known`, where `none` means
    that no block is open.  Behind it these are `n'` and `known'`.  Every
    instruction is `ok`. -/
inductive Flow (ok : Instr → Prop) :
    Nat → Option Known → List Emission → Nat → Option Known → Prop where
  | nil {n known} : Flow ok n known [] n known
  | label {n es n' known' l} :
      Flow ok n (some []) es n' known' → Flow ok n none (.label l :: es) n' known'
  | note {n known es n' known' a} :
      Flow ok n known es n' known' → Flow ok n known (.note a :: es) n' known'
  | define {n known es n' known' site role i type} :
      i.result? = some (⟨n⟩, type) → ok i → i.uses ⊆ known →
      Flow ok (n + 1) (some ((⟨n⟩, type) :: known)) es n' known' →
      Flow ok n (some known) (.step site ⟨role, i⟩ :: es) n' known'
  | effect {n known es n' known' site role i} :
      i.result? = none → i.isTerminator = false → ok i → i.uses ⊆ known →
      Flow ok n (some known) es n' known' →
      Flow ok n (some known) (.step site ⟨role, i⟩ :: es) n' known'
  | close {n known es n' known' site role i} :
      i.isTerminator = true → ok i → i.uses ⊆ known → Flow ok n none es n' known' →
      Flow ok n (some known) (.step site ⟨role, i⟩ :: es) n' known'

namespace Flow

variable {ok ok' : Instr → Prop} {n n₁ n' : Nat} {known known₁ known' : Option Known}
  {es es' : List Emission}

/-- Code that flows, one part behind the other. -/
theorem append (h : Flow ok n known es n₁ known₁) (h' : Flow ok n₁ known₁ es' n' known') :
    Flow ok n known (es ++ es') n' known' := by
  induction h with
  | nil => exact h'
  | label _ ih => exact .label (ih h')
  | note _ ih => exact .note (ih h')
  | define hr hok hu _ ih => exact .define hr hok hu (ih h')
  | effect hr ht hok hu _ ih => exact .effect hr ht hok hu (ih h')
  | close ht hok hu _ ih => exact .close ht hok hu (ih h')

/-- Less may be asked of the instructions. -/
theorem mono (h : Flow ok n known es n' known') (hok : ∀ i, ok i → ok' i) :
    Flow ok' n known es n' known' := by
  induction h with
  | nil => exact .nil
  | label _ ih => exact .label ih
  | note _ ih => exact .note ih
  | define hr hi hu _ ih => exact .define hr (hok _ hi) hu ih
  | effect hr ht hi hu _ ih => exact .effect hr ht (hok _ hi) hu ih
  | close ht hi hu _ ih => exact .close ht (hok _ hi) hu ih

/-- All instructions are as asked. -/
theorem ok_of_mem (h : Flow ok n known es n' known') {i : Instr}
    (hi : i ∈ Emission.instrs es) : ok i := by
  induction h with
  | nil => simp at hi
  | label _ ih => exact ih hi
  | note _ ih => exact ih hi
  | define _ hok _ _ ih | effect _ _ hok _ _ ih | close _ hok _ _ ih =>
    rcases List.mem_cons.1 hi with rfl | hi
    · exact hok
    · exact ih hi

end Flow

-- ============================================================================
-- Straight code
-- ============================================================================

/-- An operand uses only what is known. -/
def Operand.Fits (known : Known) (v : Operand) : Prop := v.uses ⊆ known

/-- A temporary is known and has the given type. -/
def Temp.Fits (type : CodeType) (known : Known) (t : Temp) : Prop := (t, type) ∈ known

theorem Operand.Fits.mono {known known' : Known} {v : Operand} (h : v.Fits known)
    (hsub : known ⊆ known') : v.Fits known' := List.Subset.trans h hsub

theorem Temp.Fits.subset {known : Known} {t : Temp} {type : CodeType} (h : t.Fits type known) :
    [(t, type)] ⊆ known := List.cons_subset.2 ⟨h, List.nil_subset _⟩

@[simp] theorem Operand.fits_literal {known : Known} {x : Float} :
    (Operand.literal x).Fits known := List.nil_subset _

@[simp] theorem Operand.fits_temp {known : Known} {t : Temp} :
    (Operand.temp t).Fits known ↔ t.Fits .double known := by
  simp [Operand.Fits, Operand.uses, Temp.Fits]

/-- Straight code that can be read in an open block where `known` are known, when `n`
    temporaries are in use.  Behind it `n'` are, and what is known is as `fits` says. -/
def Reads (ok : Instr → Prop) (site : Option Nat) (n : Nat) (known : Known) (steps : List Step)
    (n' : Nat) (fits : Known → Prop) : Prop :=
  ∃ known', known ⊆ known' ∧ fits known' ∧
    Flow ok n (some known) (steps.map (.step site)) n' (some known')

namespace Reads

variable {ok : Instr → Prop} {site : Option Nat} {n n₁ n' : Nat} {known : Known}
  {steps steps' : List Step} {mid fits : Known → Prop}

theorem nil (h : fits known) : Reads ok site n known [] n fits :=
  ⟨known, List.Subset.refl _, h, .nil⟩

/-- One piece behind the other; the second may use what the first has made known. -/
theorem append (h : Reads ok site n known steps n₁ mid)
    (h' : ∀ known₁, known ⊆ known₁ → mid known₁ → Reads ok site n₁ known₁ steps' n' fits) :
    Reads ok site n known (steps ++ steps') n' fits := by
  obtain ⟨known₁, hsub, hmid, hflow⟩ := h
  obtain ⟨known₂, hsub', hfits, hflow'⟩ := h' known₁ hsub hmid
  refine ⟨known₂, List.Subset.trans hsub hsub', hfits, ?_⟩
  rw [List.map_append]
  exact hflow.append hflow'

/-- An instruction that defines the next temporary, and what comes behind it. -/
theorem define {role : Role} {i : Instr} {type : CodeType}
    (hresult : i.result? = some (⟨n⟩, type)) (hok : ok i) (huses : i.uses ⊆ known)
    (h : ∀ known₁, known ⊆ known₁ → Temp.Fits type known₁ ⟨n⟩ →
      Reads ok site (n + 1) known₁ steps n' fits) :
    Reads ok site n known (⟨role, i⟩ :: steps) n' fits := by
  obtain ⟨known₂, hsub, hfits, hflow⟩ :=
    h ((⟨n⟩, type) :: known) (List.subset_cons_self _ _) (List.mem_cons_self ..)
  exact ⟨known₂, List.Subset.trans (List.subset_cons_self _ _) hsub, hfits,
    .define hresult hok huses hflow⟩

/-- An instruction that defines nothing, at the end. -/
theorem effect {role : Role} {i : Instr} (hresult : i.result? = none)
    (hterm : i.isTerminator = false) (hok : ok i) (huses : i.uses ⊆ known) (hfits : fits known) :
    Reads ok site n known [⟨role, i⟩] n fits :=
  ⟨known, List.Subset.refl _, hfits, .effect hresult hterm hok huses .nil⟩

/-- Straight code in front of other code. -/
theorem append_flow {es : List Emission} {known' : Option Known}
    (h : Reads ok site n known steps n₁ mid)
    (h' : ∀ known₁, known ⊆ known₁ → mid known₁ → Flow ok n₁ (some known₁) es n' known') :
    Flow ok n (some known) (steps.map (.step site) ++ es) n' known' := by
  obtain ⟨known₁, hsub, hmid, hflow⟩ := h
  exact hflow.append (h' known₁ hsub hmid)

end Reads

section StraightCode

variable {env : Env} {blocks : List Label} {site : Option Nat} {known : Known} {n n' : Nat}
  {steps : List Step}

/-- An instruction that neither jumps nor names a slot. -/
theorem Instr.sound_of_plain {i : Instr} (htargets : i.targets = []) (hslots : i.slots = [])
    (halloca : i.isAlloca = false) : i.Sound env blocks :=
  ⟨⟨by simp [htargets], by simp [hslots]⟩, halloca⟩

theorem Instr.sound_load {t : Temp} {name : String} (h : name ∈ env.names) :
    (Instr.load t name).Sound env blocks :=
  ⟨⟨by simp [targets], by simpa [slots] using h⟩, rfl⟩

theorem Instr.sound_store {v : Operand} {name : String} (h : name ∈ env.names) :
    (Instr.store v name).Sound env blocks :=
  ⟨⟨by simp [targets], by simpa [slots] using h⟩, rfl⟩

/-- An instruction without jumps and slots that defines the next temporary. -/
theorem Reads.plain {role : Role} {i : Instr} {type : CodeType} {fits : Known → Prop}
    (hplain : i.targets = [] ∧ i.slots = [] ∧ i.isAlloca = false)
    (hresult : i.result? = some (⟨n⟩, type)) (huses : i.uses ⊆ known)
    (h : ∀ known₁, known ⊆ known₁ → Temp.Fits type known₁ ⟨n⟩ →
      Reads (Instr.Sound env blocks) site (n + 1) known₁ steps n' fits) :
    Reads (Instr.Sound env blocks) site n known (⟨role, i⟩ :: steps) n' fits :=
  .define hresult (Instr.sound_of_plain hplain.1 hplain.2.1 hplain.2.2) huses h

/-- The same at the end, where the temporary is the value of the code. -/
theorem Reads.value {role : Role} {i : Instr}
    (hplain : i.targets = [] ∧ i.slots = [] ∧ i.isAlloca = false)
    (hresult : i.result? = some (⟨n⟩, .double)) (huses : i.uses ⊆ known) :
    Reads (Instr.Sound env blocks) site n known [⟨role, i⟩] (n + 1)
      (Operand.Fits · (.temp ⟨n⟩)) :=
  .plain hplain hresult huses fun _ _ ht => .nil (Operand.fits_temp.2 ht)

/-- The code of a function uses its operand and what it has made known itself. -/
theorem BuiltinCode.reads {b : Builtin} {x y : Operand} (h : BuiltinCode x n b steps y n')
    (hx : x.Fits known) :
    Reads (Instr.Sound env blocks) site n known steps n' (Operand.Fits · y) := by
  cases h with
  | cdbl => exact .nil hx
  | rnd => exact .value ⟨rfl, rfl, rfl⟩ rfl (List.nil_subset _)
  | fix =>
    exact .plain ⟨rfl, rfl, rfl⟩ rfl hx fun _ _ hwhole =>
      .value ⟨rfl, rfl, rfl⟩ rfl hwhole.subset
  | sgn =>
    have hcompare : ∀ {known' : Known}, known ⊆ known' →
        x.uses ++ (Operand.literal 0.0).uses ⊆ known' := by
      intro known' hsub
      exact List.append_subset.2 ⟨hx.mono hsub, List.nil_subset _⟩
    refine .plain ⟨rfl, rfl, rfl⟩ rfl (hcompare (List.Subset.refl _)) fun _ h₁ habove => ?_
    refine .plain ⟨rfl, rfl, rfl⟩ rfl habove.subset fun _ h₂ hone => ?_
    refine .plain ⟨rfl, rfl, rfl⟩ rfl (hcompare (List.Subset.trans h₁ h₂)) fun _ h₃ hbelow => ?_
    refine .plain ⟨rfl, rfl, rfl⟩ rfl hbelow.subset fun _ h₄ hother => ?_
    exact .value ⟨rfl, rfl, rfl⟩ rfl (List.cons_subset.2 ⟨h₄ (h₃ hone), hother.subset⟩)
  | csng =>
    exact .plain ⟨rfl, rfl, rfl⟩ rfl hx fun _ _ hsingle =>
      .value ⟨rfl, rfl, rfl⟩ rfl hsingle.subset
  | math => exact .value ⟨rfl, rfl, rfl⟩ rfl hx

/-- A comparison of texts takes four numbers and leaves the last of them. -/
theorem reads_textTest {rel : Relation} {j k : Nat} :
    Reads (Instr.Sound env blocks) site n known (textTest rel j k n) (n + 4)
      (Temp.Fits .truth · ⟨n + 3⟩) := by
  refine .plain ⟨rfl, rfl, rfl⟩ rfl (List.nil_subset _) fun _ _ hx => ?_
  refine .plain ⟨rfl, rfl, rfl⟩ rfl (List.nil_subset _) fun _ hsub hy => ?_
  refine .plain ⟨rfl, rfl, rfl⟩ rfl (List.cons_subset.2 ⟨hsub hx, hy.subset⟩) fun _ _ horder => ?_
  exact .plain ⟨rfl, rfl, rfl⟩ rfl horder.subset fun _ _ ht => .nil ht

/-- The code of an expression can be read anywhere in a block, and its value is known
    behind it. -/
theorem ValueCode.reads {e : Expr} {x : Operand} (h : ValueCode env e n steps x n')
    (known : Known) :
    Reads (Instr.Sound env blocks) site n known steps n' (Operand.Fits · x) := by
  induction h generalizing known with
  | number => exact .nil Operand.fits_literal
  | var slot =>
    exact .define rfl (Instr.sound_load slot) (List.nil_subset _)
      fun _ _ ht => .nil (Operand.fits_temp.2 ht)
  | plus _ ih => exact ih known
  | minus _ ih => exact (ih known).append fun _ _ hx => .value ⟨rfl, rfl, rfl⟩ rfl hx
  | texts _ _ => exact reads_textTest.append fun _ _ ht => .value ⟨rfl, rfl, rfl⟩ rfl ht.subset
  | compare _ _ ihl ihr =>
    refine (ihl known).append fun known₁ _ hx => (ihr known₁).append fun _ hsub hy => ?_
    exact .plain ⟨rfl, rfl, rfl⟩ rfl (List.append_subset.2 ⟨hx.mono hsub, hy⟩) fun _ _ ht =>
      .value ⟨rfl, rfl, rfl⟩ rfl ht.subset
  | arith _ _ ihl ihr =>
    refine (ihl known).append fun known₁ _ hx => (ihr known₁).append fun _ hsub hy => ?_
    exact .value ⟨rfl, rfl, rfl⟩ rfl (List.append_subset.2 ⟨hx.mono hsub, hy⟩)
  | call _ _ code ih => exact (ih known).append fun _ _ hx => code.reads hx

/-- The code of a condition can be read like that of an expression; behind it the outcome
    is known. -/
theorem TestCode.reads {e : Expr} {t : Temp} (h : TestCode env e n steps t n') :
    Reads (Instr.Sound env blocks) site n known steps n' (Temp.Fits .truth · t) := by
  cases h with
  | texts _ _ => exact reads_textTest
  | compare left right =>
    refine (left.reads known).append fun known₁ _ hx =>
      (right.reads known₁).append fun _ hsub hy => ?_
    exact .plain ⟨rfl, rfl, rfl⟩ rfl (List.append_subset.2 ⟨hx.mono hsub, hy⟩) fun _ _ ht => .nil ht

-- ----------------------------------------------------------------------------
-- Statements without labels
-- ----------------------------------------------------------------------------

/-- A straight statement reads what is known and leaves nothing to be read. -/
theorem PlainCode.reads {s : Stmt} (h : PlainCode env s n steps n') :
    Reads (Instr.Sound env blocks) site n known steps n' fun _ => True := by
  cases h with
  | assign code slot =>
    exact (code.reads known).append fun _ _ hx =>
      .effect rfl rfl (Instr.sound_store slot) hx trivial
  | printText _ =>
    refine .plain ⟨rfl, rfl, rfl⟩ rfl (List.nil_subset _) fun _ _ hx => ?_
    refine .plain ⟨rfl, rfl, rfl⟩ rfl (List.nil_subset _) fun _ hsub hformat => ?_
    exact .effect rfl rfl (Instr.sound_of_plain rfl rfl rfl)
      (List.cons_subset.2 ⟨hformat, Temp.Fits.subset (hsub hx)⟩) trivial
  | printNumber code =>
    refine (code.reads known).append fun _ _ hx => ?_
    refine .plain ⟨rfl, rfl, rfl⟩ rfl (List.nil_subset _) fun _ hsub hformat => ?_
    exact .effect rfl rfl (Instr.sound_of_plain rfl rfl rfl)
      (List.cons_subset.2 ⟨hformat, hx.mono hsub⟩) trivial
  | input slot =>
    refine .plain ⟨rfl, rfl, rfl⟩ rfl (List.nil_subset _) fun _ _ hformat => ?_
    refine .effect rfl rfl ⟨⟨by simp [Instr.targets], ?_⟩, rfl⟩ hformat.subset trivial
    simpa [Instr.slots] using slot

theorem BodyCode.reads {ss : List Stmt} (h : BodyCode env ss n steps n') (known : Known) :
    Reads (Instr.Sound env blocks) site n known steps n' fun _ => True := by
  induction h generalizing known with
  | nil => exact .nil trivial
  | cons _ first _ ih => exact first.reads.append fun known₁ _ _ => ih known₁

theorem AmountCode.reads {step : Option Expr} {x : Operand}
    (h : AmountCode env n step steps x n') :
    Reads (Instr.Sound env blocks) site n known steps n' (Operand.Fits · x) := by
  cases h with
  | one => exact .nil Operand.fits_literal
  | given code => exact code.reads known

end StraightCode

-- ============================================================================
-- Code of statements
-- ============================================================================

section Statements

variable {env : Env} {blocks : List Label} {n n₁ n' k site : Nat} {es : List Emission}

theorem Instr.sound_br {l : Label} (h : l ∈ blocks) : (Instr.br l).Sound env blocks :=
  ⟨⟨by simpa [targets] using h, by simp [slots]⟩, rfl⟩

theorem Instr.sound_brIf {c : Temp} {yes no : Label} (hyes : yes ∈ blocks) (hno : no ∈ blocks) :
    (Instr.brIf c yes no).Sound env blocks :=
  ⟨⟨by simpa [targets] using ⟨hyes, hno⟩, by simp [slots]⟩, rfl⟩

/-- A jump to a block of the function closes the block it stands in. -/
theorem Flow.br {role : Role} {l : Label} {known : Known} {known' : Option Known}
    (hl : l ∈ blocks) (h : Flow (Instr.Sound env blocks) n none es n' known') :
    Flow (Instr.Sound env blocks) n (some known) (.step site ⟨role, .br l⟩ :: es) n' known' :=
  .close rfl (Instr.sound_br hl) (List.nil_subset _) h

/-- The code of a loop opens and closes its own blocks. -/
theorem LoopParts.MakeUp.flow {parts : LoopParts} {name : String} {start stop : Expr}
    {step : Option Expr} {body : List Stmt} {owner : Label} {known : Known}
    {known' : Option Known} (hparts : parts.MakeUp env name start stop step body n n₁)
    (htest : .loopTest owner k ∈ blocks) (hbody : .loopBody owner k ∈ blocks)
    (hstep : .loopStep owner k ∈ blocks) (hend : .loopEnd owner k ∈ blocks)
    (h : Flow (Instr.Sound env blocks) n₁ (some []) es n' known') :
    Flow (Instr.Sound env blocks) n (some known) (parts.code site owner k name es) n' known' := by
  obtain ⟨hslot, hfirst, hstop, ⟨n₃, hmakeBody, hmakeStep⟩, rfl⟩ := hparts
  unfold code initCode testCode bodyCode stepCode
  simp only [List.append_assoc, List.cons_append, List.nil_append]
  -- the first value
  refine ((Expr.makes_lower.1 hfirst).reads _).append_flow fun known₁ _ hvalue => ?_
  refine .effect rfl rfl (Instr.sound_store hslot) hvalue (.br htest (.label ?_))
  -- the test
  refine .define rfl (Instr.sound_load hslot) (List.nil_subset _) ?_
  refine ((Expr.makes_lower.1 hstop).reads _).append_flow fun known₂ hsub hbound => ?_
  have huses : [(⟨parts.current⟩, .double)] ++ parts.bound.uses ⊆ known₂ :=
    List.append_subset.2 ⟨hsub, hbound⟩
  refine .define rfl (Instr.sound_of_plain rfl rfl rfl) huses ?_
  refine .close rfl (Instr.sound_brIf hbody hend)
    (List.cons_subset.2 ⟨List.mem_cons_self .., List.nil_subset _⟩) (.label ?_)
  -- the body
  refine ((Stmt.bodyCode_of_makes hmakeBody).reads _).append_flow fun known₃ _ _ => ?_
  refine .br hstep (.label ?_)
  -- the step
  refine (Stmt.amountCode_of_makes hmakeStep).reads.append_flow fun known₄ _ hamount => ?_
  refine .define rfl (Instr.sound_load hslot) (List.nil_subset _) ?_
  have huses' : [(⟨parts.last⟩, .double)] ++ parts.amount.uses
      ⊆ (⟨parts.last⟩, .double) :: known₄ :=
    List.append_subset.2 ⟨by simp, hamount.mono (List.subset_cons_self _ _)⟩
  refine .define rfl (Instr.sound_of_plain rfl rfl rfl) huses' ?_
  refine .effect rfl rfl (Instr.sound_store hslot) (by simp [Instr.uses, Operand.uses]) ?_
  exact .br htest (.label h)

/-- The block outside its own code that the end of a line may go on with. -/
def Behind.Leads (behind : Behind) (blocks : List Label) : Prop :=
  match behind with
  | .block next => next ∈ blocks
  | .lines _ _ => True

/-- The blocks every piece of code may jump to: the exit and the lines. -/
structure Reachable (env : Env) (blocks : List Label) : Prop where
  exit : .exit ∈ blocks
  line : ∀ l ∈ env.lines, .line l.number ∈ blocks

theorem Reachable.target (h : Reachable env blocks) {target : Nat}
    (hline : env.hasLine target = true) : .line target ∈ blocks := by
  obtain ⟨l, hl, hn⟩ := List.any_eq_true.1 hline
  rw [← of_decide_eq_true hn]
  exact h.line l hl

/-- The code of statements can be read in an open block, whatever is known there, and
    leaves no block open.  It jumps to its own labels, to where it returns, to what
    is behind it, and to lines and the exit. -/
theorem CodeOf.flow {frame : Frame} {ss : List Stmt} {behind : Behind}
    (h : CodeOf env frame k n site ss behind es n') (hblocks : Reachable env blocks)
    (hreturn : frame.returnTo ∈ blocks) (hbehind : behind.Leads blocks)
    (hlabels : Emission.labels es ⊆ blocks) (known : Known) :
    Flow (Instr.Sound env blocks) n (some known) es n' none := by
  induction h generalizing known with
  | plain hx hmake _ ih =>
    refine (Stmt.plainCode_of_makes hx hmake).reads.append_flow fun known₁ _ _ => ?_
    exact ih hreturn hbehind (by simpa using hlabels) known₁
  | goto hline => exact .br (hblocks.target hline) .nil
  | gotoNowhere _ _ ih => exact .note (ih hreturn hbehind hlabels known)
  | gosub _ _ _ ih₁ ih₂ =>
    simp only [Emission.labels_step, Emission.labels_note, Emission.labels_label,
      Emission.labels_append, List.cons_subset, List.append_subset] at hlabels
    obtain ⟨hstart, hsub, hnext, hrest⟩ := hlabels
    -- No temporary is carried over into another block.
    refine .br hstart (.note (.label (.append (ih₁ hnext trivial hsub []) (.label ?_))))
    exact ih₂ hreturn hbehind hrest []
  | gosubNowhere _ _ ih =>
    simp only [Emission.labels_step, Emission.labels_note, Emission.labels_label,
      List.cons_subset] at hlabels
    obtain ⟨hstart, hnext, hrest⟩ := hlabels
    exact .br hstart (.note (.label (.br hnext (.label (ih hreturn hbehind hrest [])))))
  | return_ => exact .br hreturn .nil
  | end_ => exact .br hblocks.exit .nil
  | ifThen hline hmake _ ih =>
    simp only [Emission.labels_append, Emission.labels_steps, Emission.labels_step,
      Emission.labels_label, List.nil_append, List.cons_subset] at hlabels
    obtain ⟨hnext, hrest⟩ := hlabels
    refine (Expr.makes_lowerCondition.1 hmake).reads.append_flow fun known₁ _ hc => ?_
    exact .close rfl (Instr.sound_brIf (hblocks.target hline) hnext) hc.subset
      (.label (ih hreturn hbehind hrest []))
  | ifNowhere _ hmake _ ih =>
    simp only [Emission.labels_append, Emission.labels_steps, Emission.labels_step,
      Emission.labels_label, List.nil_append, List.cons_subset] at hlabels
    obtain ⟨hnext, hrest⟩ := hlabels
    refine (Expr.makes_lowerCondition.1 hmake).reads.append_flow fun known₁ _ _ => ?_
    exact .br hnext (.label (ih hreturn hbehind hrest []))
  | forNext hparts _ ih =>
    rw [LoopParts.labels_code, List.append_subset] at hlabels
    obtain ⟨hloop, hrest⟩ := hlabels
    exact hparts.flow (hloop (by simp)) (hloop (by simp)) (hloop (by simp)) (hloop (by simp))
      (ih hreturn hbehind hrest [])
  | lineEnd => exact .br hbehind .nil
  | regionEnd => exact .br hreturn .nil
  | nextLine _ ih =>
    simp only [Emission.labels_step, Emission.labels_note, Emission.labels_label,
      List.cons_subset] at hlabels
    exact .br hlabels.1 (.note (.label (ih hreturn trivial hlabels.2 [])))

end Statements

-- ============================================================================
-- Code of programs
-- ============================================================================

section Programs

variable {env : Env} {blocks : List Label} {n n' : Nat} {es : List Emission}

theorem Reachable.startOf (h : Reachable env blocks) {ls : List Line} (hls : ls ⊆ env.lines) :
    startOf ls ∈ blocks := by
  cases ls with
  | nil => exact h.exit
  | cons l ls => exact h.line l (hls (List.mem_cons_self ..))

/-- The code of lines flows, and no block is open between two of them. -/
theorem LinesCode.flow {ls : List Line} (h : LinesCode env ls n es n')
    (hblocks : Reachable env blocks) (hls : ls ⊆ env.lines)
    (hlabels : Emission.labels es ⊆ blocks) :
    Flow (Instr.Sound env blocks) n none es n' none := by
  induction h with
  | nil => exact .nil
  | cons hcode _ ih =>
    simp only [Emission.labels_note, Emission.labels_label, Emission.labels_append,
      List.cons_subset, List.append_subset] at hlabels
    obtain ⟨-, hlabels₁, hlabels₂⟩ := hlabels
    have hrest := (List.cons_subset.1 hls).2
    refine .note (.label (.append ?_ (ih hrest hlabels₂)))
    exact hcode.flow hblocks hblocks.exit (hblocks.startOf hrest) hlabels₁ []

/-- Each line has its label in its code. -/
theorem LinesCode.line_mem_labels {ls : List Line} (h : LinesCode env ls n es n') {l : Line}
    (hl : l ∈ ls) : .line l.number ∈ Emission.labels es := by
  induction h with
  | nil => cases hl
  | cons _ _ ih =>
    simp only [Emission.labels_note, Emission.labels_label, Emission.labels_append,
      List.mem_cons, List.mem_append]
    rcases List.mem_cons.1 hl with rfl | hl
    · exact .inl rfl
    · exact .inr (.inr (ih hl))

/-- Making slots changes nothing that is known. -/
theorem flow_slotCode {names : List String} (hnames : ∀ x ∈ names, x ∈ env.names) :
    Flow (Instr.InScope env blocks) n (some []) (slotCode names) n (some []) := by
  induction names with
  | nil => exact .nil
  | cons x names ih =>
    have hx := hnames x (List.mem_cons_self ..)
    have hslot : ∀ y ∈ [x], y ∈ env.names := by simpa using hx
    refine .effect rfl rfl ⟨by simp [Instr.targets], hslot⟩ (List.nil_subset _) ?_
    refine .effect rfl rfl ⟨by simp [Instr.targets], hslot⟩ (List.nil_subset _) ?_
    exact ih fun y hy => hnames y (List.mem_cons_of_mem _ hy)

theorem Instr.sound_ret : Instr.ret.Sound env blocks :=
  Instr.sound_of_plain rfl rfl rfl

/-- Where the code of all lines and an exit is, every line and the exit can be
    reached. -/
theorem LinesCode.reachable {all : List Emission} (h : LinesCode env env.lines n es n')
    (hes : Emission.labels es ⊆ Emission.labels all) (hexit : .exit ∈ Emission.labels all) :
    Reachable env (Emission.labels all) :=
  ⟨hexit, fun _ hl => hes (h.line_mem_labels hl)⟩

/-- The code of a program is an entry block, which makes the slots and jumps or
    returns, and code behind it that makes no slot. -/
theorem MainCode.split (h : MainCode env es n) :
    ∃ last rest, es = .label .entry :: (slotCode env.names.toList ++
        .step none ⟨.ordinary, last⟩ :: rest) ∧
      last.isTerminator = true ∧ last.uses = [] ∧ last.Sound env (Emission.labels es) ∧
      Flow (Instr.Sound env (Emission.labels es)) 0 none rest n none := by
  cases h with
  | empty _ => exact ⟨.ret, [], rfl, rfl, rfl, Instr.sound_ret, .nil⟩
  | @lines es n _ hcode =>
    generalize hall : Emission.label .entry :: (_ ++ _) = all
    have hlabels : Emission.labels es ⊆ Emission.labels all := by
      intro l hl
      rw [← hall]
      simp [hl]
    have hblocks := hcode.reachable hlabels (by rw [← hall]; simp)
    refine ⟨_, _, hall.symm, rfl, rfl, ?_, ?_⟩
    · exact Instr.sound_br (hblocks.startOf (List.Subset.refl _))
    · have hlines := hcode.flow hblocks (List.Subset.refl _) hlabels
      exact hlines.append (.label (.close rfl Instr.sound_ret (List.nil_subset _) .nil))

/-- The code of a program can be read from top to bottom; every jump leads to one of
    its labels. -/
theorem MainCode.flow (h : MainCode env es n) :
    Flow (Instr.InScope env (Emission.labels es)) 0 none es n none := by
  obtain ⟨last, rest, hes, hterm, huses, hlast, hrest⟩ := h.split
  have hslots : Flow (Instr.InScope env (Emission.labels es)) 0 (some [])
      (slotCode env.names.toList) 0 (some []) := flow_slotCode fun x hx => hx
  have hclose : Flow (Instr.InScope env (Emission.labels es)) 0 (some [])
      (.step none ⟨.ordinary, last⟩ :: rest) n none :=
    .close hterm hlast.toInScope (by simp [huses]) (hrest.mono fun i hi => hi.toInScope)
  rw [hes] at hslots hclose ⊢
  exact .label (hslots.append hclose)

end Programs

end LineBasic
