/-
  LineBasic.Proofs.CommandRuns

  What a run of the command leaves behind, on every host that does what is documented.  Up
  to the delivery of the code a run empties and fills the files of its journals and talks
  to the user, and does nothing else.  The delivery is its last step.  So a run that fails
  has printed nothing and has changed no file but journals, unless the delivery itself had
  begun: a write that fails may have emptied the file for the code.
-/

import LineBasic.Proofs.Directories

namespace LineBasic.CommandLine

namespace Invocation

variable {σ File : Type} {v : View σ File} {i : Invocation}

-- ============================================================================
-- What an invocation names and asks for
-- ============================================================================

/-- No path given with an option leads to a device. -/
structure NamesFiles (i : Invocation) (v : View σ File) (s : σ) : Prop where
  output : ∀ path, i.output = some path → v.leads s path ≠ .device
  journals : ∀ phase path, i.journals phase = some path → v.leads s path ≠ .device

/-- A journal that is open goes to the file. -/
def OpenTo (i : Invocation) (leads : String → Lead File) (js : Journals) (phases : List Phase)
    (f : File) : Prop :=
  ∃ phase ∈ phases, ∃ path, i.journals phase = some path ∧ leads path = .file f ∧
    (js phase).enabled = true

/-- Between two states the journals of some phases have been opened: the files of those that are
    open now have been emptied, and nothing else has changed. -/
structure Opens (i : Invocation) (v : View σ File) (phases : List Phase) (js js' : Journals)
    (s s' : σ) : Prop extends v.Spares (i.OpenTo (v.leads s) js' phases) s s' where
  others : ∀ phase ∉ phases, js' phase = js phase
  empty : ∀ f, i.OpenTo (v.leads s) js' phases f → v.content s' f = some .empty

/-- A journal that is not open in the end has changed nothing. -/
theorem Opens.skip {phase : Phase} {phases : List Phase} {js js' : Journals} {s s' s'' : σ}
    (hsame : v.Same s s') (hoff : (js phase).enabled = false) (hphase : phase ∉ phases)
    (h : i.Opens v phases js js' s' s'') : i.Opens v (phase :: phases) js js' s s'' := by
  have hiff : ∀ f, i.OpenTo (v.leads s) js' (phase :: phases) f ↔
      i.OpenTo (v.leads s') js' phases f := by
    intro f
    rw [hsame.leads]
    constructor
    · rintro ⟨p, hp, path, hpath, hf, hon⟩
      rcases List.mem_cons.1 hp with rfl | hp
      · rw [h.others p hphase, hoff] at hon
        cases hon
      · exact ⟨p, hp, path, hpath, hf, hon⟩
    · rintro ⟨p, hp, path, hpath, hf, hon⟩
      exact ⟨p, List.mem_cons_of_mem phase hp, path, hpath, hf, hon⟩
  refine ⟨hsame.spares.trans (h.toSpares.mono fun f => (hiff f).2), fun p hp => ?_,
    fun f hf => h.empty f ((hiff f).1 hf)⟩
  exact h.others p fun hmem => hp (List.mem_cons_of_mem phase hmem)

/-- A journal that is opened has its file emptied; later ones may have the same file. -/
theorem Opens.cons {phase : Phase} {phases : List Phase} {js js' : Journals} {s s' s'' : σ}
    {path : String} {f : File} {sink : Sink} (hpath : i.journals phase = some path)
    (hf : v.leads s path = .file f) (hputs : v.Puts f .empty s s') (hphase : phase ∉ phases)
    (h : i.Opens v phases (js.set phase (.into sink)) js' s' s'') :
    i.Opens v (phase :: phases) js js' s s'' := by
  have hon : (js' phase).enabled = true := by
    rw [h.others phase hphase, Journals.set, if_pos rfl]
    rfl
  -- Open in the end are this journal's file and those of the journals behind it.
  have hiff : ∀ g, i.OpenTo (v.leads s) js' (phase :: phases) g ↔
      g = f ∨ i.OpenTo (v.leads s') js' phases g := by
    intro g
    rw [hputs.leads]
    constructor
    · rintro ⟨p, hp, path', hpath', hg, hp_on⟩
      rcases List.mem_cons.1 hp with rfl | hp
      · cases Option.some.inj (hpath.symm.trans hpath')
        exact .inl (Lead.file.inj (hg.symm.trans hf))
      · exact .inr ⟨p, hp, path', hpath', hg, hp_on⟩
    · rintro (rfl | ⟨p, hp, path', hpath', hg, hp_on⟩)
      · exact ⟨phase, List.mem_cons_self, path, hpath, hf, hon⟩
      · exact ⟨p, List.mem_cons_of_mem phase hp, path', hpath', hg, hp_on⟩
  refine ⟨(hputs.toSpares.mono fun g hg => (hiff g).2 (.inl hg)).trans
    (h.toSpares.mono fun g hg => (hiff g).2 (.inr hg)), fun p hp => ?_, fun g hg => ?_⟩
  · obtain ⟨hne, hrest⟩ := List.ne_and_not_mem_of_not_mem_cons hp
    rw [h.others p hrest, Journals.set, if_neg hne]
  -- Two journals may lead to one file; then the later one has emptied it last.
  · by_cases hlater : i.OpenTo (v.leads s') js' phases g
    · exact h.empty g hlater
    · obtain rfl := ((hiff g).1 hg).resolve_right hlater
      rw [h.files g hlater, hputs.content]

variable [Host (StateM σ)]

/-- The journals once they have been opened, and the state then. -/
def begun (i : Invocation) (s : σ) : Journals × σ :=
  (i.openJournals .off Phase.all : StateM σ Journals).run s

/-- What the host answers when the source is read, and the state then. -/
def answered (i : Invocation) (s : σ) : Except String (Except String ByteArray) × σ :=
  (Host.read i.input : StateM σ (Except String (Except String ByteArray))).run (i.begun s).2

/-- The source is read and is the given text. -/
def Gets (i : Invocation) (s : σ) (text : String) : Prop :=
  (i.answered s).1 = .ok (.ok text.toUTF8)

/-- The text is all that standard input holds, or the file named as the source once the journals
    have been opened. -/
def Holds (i : Invocation) (v : View σ File) (s : σ) (text : String) : Prop :=
  match i.input with
  | .stdin => v.stdin s = text.toUTF8
  | .file path => v.leads s path ≠ .device →
    ∃ f, v.leads s path = .file f ∧ v.content (i.begun s).2 f = some text.toUTF8

/-- What becomes of a source that was read, or could not be: its module, or the reason why
    there is none. -/
def translate {m : Type → Type} [Monad m] [Host m] (i : Invocation) (journals : Journals) :
    Except String (Except String ByteArray) → m (Except String Module)
  | .error why => return .error why
  | .ok source => do
    let report := compileBytes i.settings journals source
    i.sayAll report.said
    i.writeJournals journals report.journals Phase.all
    return report.outcome.mapError CompileError.message

/-- What a run has to deliver, and the state before the delivery. -/
def prepared (i : Invocation) (s : σ) : Except String Module × σ :=
  (i.translate (i.begun s).1 (i.answered s).1 : StateM σ (Except String Module)).run (i.answered s).2

/-- Why a run fails. -/
inductive Fails (i : Invocation) (s : σ) : Prop where
  /-- The source cannot be opened or read. -/
  | unreadable (h : ∀ bytes, (i.answered s).1 ≠ .ok (.ok bytes))
  /-- The source is not a text. -/
  | notText (bytes : ByteArray) (h : (i.answered s).1 = .ok (.ok bytes))
      (hbytes : ∀ text : String, text.toUTF8 ≠ bytes)
  /-- A phase finds a fault. -/
  | fault (text : String) (e : CompileError) (h : i.Gets s text)
      (he : (compile i.settings .off text).outcome = .error e)
  /-- The code cannot be written. -/
  | unwritten (text : String) (m : Module) (path why : String) (h : i.Gets s text)
      (hm : (compile i.settings .off text).outcome = .ok m) (hpath : i.output = some path)
      (hwhy : ((Host.write path m.text.toUTF8 : StateM σ (Except String Unit)).run
        (i.prepared s).2).1 = .error why)

theorem Gets.unique {s : σ} {text text' : String} (h : i.Gets s text) (h' : i.Gets s text') :
    text = text' :=
  String.toByteArray_inj.1 (Except.ok.inj (Except.ok.inj (h.symm.trans h')))

section Steps

variable {leads : String → Lead File} {touched : File → Prop}

/-- Diagnostics go to their own outlet and touch no file. -/
theorem confined_say (hv : v.Documented) (i : Invocation) (d : Diagnostic) :
    v.Confined leads touched (i.say d : StateM σ Unit) := by
  unfold say
  cases d.visibleAt i.threshold with
  | true => exact .tell hv _
  | false => exact .pure ()

end Steps

-- ----------------------------------------------------------------------------
-- Opening journals
-- ----------------------------------------------------------------------------

/-- Opening journals empties the files of those that could be opened; the user is told about the
    others. -/
theorem opens_openJournals (hv : v.Documented) {phases : List Phase} (hnodup : phases.Nodup)
    (js : Journals) (hoff : ∀ phase ∈ phases, (js phase).enabled = false) (s : σ)
    (hnames : ∀ phase path, i.journals phase = some path → v.leads s path ≠ .device) :
    i.Opens v phases js ((i.openJournals js phases : StateM σ Journals).run s).1 s
      ((i.openJournals js phases : StateM σ Journals).run s).2 := by
  induction phases generalizing js s with
  | nil =>
    refine ⟨(View.Same.refl s).spares, fun _ _ => rfl, ?_⟩
    rintro f ⟨phase, hphase, -⟩
    exact absurd hphase List.not_mem_nil
  | cons phase phases ih =>
    obtain ⟨hphase, hrest⟩ := List.nodup_cons.1 hnodup
    have hoff' : ∀ p ∈ phases, (js p).enabled = false :=
      fun p hp => hoff p (List.mem_cons_of_mem phase hp)
    have hphaseOff := hoff phase List.mem_cons_self
    rw [openJournals]
    cases hpath : i.journals phase with
    | none => exact .skip (.refl s) hphaseOff hphase (ih hrest js hoff' s hnames)
    | some path =>
      dsimp only
      rw [StateT.run_bind]
      rcases hcreate : (Host.create path : StateM σ (Except String Sink)).run s with ⟨answer, s₁⟩
      have hdevice := hnames phase path hpath
      cases answer with
      | error why =>
        -- A journal that cannot be opened stays off, and only a complaint is printed.
        have htold := (hv.create_refused hdevice hcreate).trans
          (confined_say hv i (Journal.openFailed path why) s₁ rfl)
        exact .skip htold hphaseOff hphase (ih hrest js hoff' _ (htold.leads ▸ hnames))
      | ok sink =>
        obtain ⟨f, hf, hputs⟩ := hv.create_done hdevice hcreate
        -- Switching this journal on leaves those behind it off.
        refine .cons hpath hf hputs hphase (ih hrest _ (fun p hp => ?_) s₁ fun p path' hpath' => ?_)
        · have hne : p ≠ phase := fun heq => hphase (heq ▸ hp)
          rw [Journals.set, if_neg hne]
          exact hoff' p hp
        · rw [hputs.leads]
          exact hnames p path' hpath'

-- ----------------------------------------------------------------------------
-- Before the delivery
-- ----------------------------------------------------------------------------

/-- The delivery, if there is something to deliver. -/
def conclude {m : Type → Type} [Monad m] [Host m] (i : Invocation) : Except String Module → m Nat
  | .ok module => i.deliver module.text
  | .error why => failure why

/-- A run opens its journals, reads, translates and delivers. -/
theorem run_eq (i : Invocation) (s : σ) :
    (i.run : StateM σ Nat).run s
      = (i.conclude (i.prepared s).1 : StateM σ Nat).run (i.prepared s).2 := by
  have hrun : (i.run : StateM σ Nat) = (do
      let journals ← i.openJournals .off Phase.all
      let answer ← Host.read i.input
      let result ← i.translate journals answer
      i.conclude result) := by
    unfold run
    refine congrArg _ (funext fun journals => congrArg _ (funext fun answer => ?_))
    cases answer with
    | error why => rfl
    | ok source =>
      unfold translate
      dsimp only
      rw [bind_assoc]
      refine congrArg _ (funext fun _ => ?_)
      rw [bind_assoc]
      refine congrArg _ (funext fun _ => ?_)
      rw [pure_bind]
      cases (compileBytes i.settings journals source).outcome with
      | error e => rfl
      | ok module => rfl
  rw [hrun]
  rfl

variable {s : σ}

theorem opens_begun (hv : v.Documented) (hi : i.NamesFiles v s) :
    i.Opens v Phase.all .off (i.begun s).1 s (i.begun s).2 :=
  opens_openJournals hv (by decide) .off (fun _ _ => rfl) s hi.journals

/-- The text that is read is what the source holds. -/
theorem Gets.holds {text : String} (hv : v.Documented) (hi : i.NamesFiles v s)
    (h : i.Gets s text) : i.Holds v s text := by
  have hopens := opens_begun hv hi
  unfold Holds
  unfold Gets answered at h
  cases hinput : i.input with
  | stdin =>
    rw [hinput] at h
    exact hopens.stdin.symm.trans (hv.read_stdin (Prod.ext h rfl))
  | file path =>
    intro hdevice
    rw [hinput] at h
    rw [← hopens.leads] at hdevice ⊢
    exact hv.read_file hdevice (Prod.ext h rfl)

-- ============================================================================
-- Whole runs
-- ============================================================================

theorem run_of_error {why : String} (h : (i.prepared s).1 = .error why) :
    (i.run : StateM σ Nat).run s = (failure why : StateM σ Nat).run (i.prepared s).2 := by
  rw [run_eq, h]
  rfl

end Invocation

end LineBasic.CommandLine
