/-
  LineBasic.Proofs.BenchSteps

  Making code at a bench, step by step, beside making it away from the bench.

  `Does c P Q x y` says that the work `x` follows the code `y`, from every bench that
  stands as `c` says at a line that `P` allows: the same result or the same fault, the
  same pieces of code in the journal and in the text, the same functions called, and no
  string literal referred to that has no constant.  Behind `x`, the line is one that `Q`
  allows.  `Follows` is the same for straight code, all of which belongs to one line.
  There is one lemma for every way to make code.
-/

import LineBasic.Desk.Lower
import LineBasic.Proofs.DeskWork
import LineBasic.Proofs.Making

namespace LineBasic

/-- The names of the functions that pieces of code call. -/
def Emission.calls (es : List Emission) : List String :=
  ((es.filterMap instr?).filterMap Instr.external?).map External.name

theorem Emission.calls_append (es es' : List Emission) :
    calls (es ++ es') = calls es ++ calls es' := by
  simp [calls]

theorem Emission.entries_append (es es' : List Emission) :
    entries (es ++ es') = entries es ++ entries es' := by
  simp [entries]

/-- The place of the string literal that an instruction takes the address of, if it takes
    one. -/
def Instr.literal? : Instr → Option Nat
  | address _ (.literal k) => some k
  | _ => none

-- ============================================================================
-- Benches
-- ============================================================================

/-- The bench `b` with the code `es` added becomes `b'`, and `n` temporaries are in use then.
    The code refers to literals that have a constant.  The line that instructions belong to may
    be another one. -/
structure Bench.Leads (b : Bench) (es : List Emission) (n : Nat) (b' : Bench) : Prop where
  inventory : b'.inventory = b.inventory
  env : b'.env = b.env
  active : b'.active = b.active
  temps : b'.temps = n
  used : ∀ name, name ∈ b'.used ↔ name ∈ b.used ∨ name ∈ Emission.calls es
  out : b'.out = b.out ++ String.join (es.map Emission.text)
  literals : ∀ i ∈ es.filterMap Emission.instr?, ∀ k, i.literal? = some k →
    k < b.env.texts.toList.length

namespace Bench.Leads

variable {b b' b'' : Bench} {es es' : List Emission} {n n' : Nat}

theorem refl (b : Bench) : b.Leads [] b.temps b :=
  ⟨rfl, rfl, rfl, rfl, fun _ => by simp [Emission.calls], by simp, fun _ hi => by cases hi⟩

/-- What happens on the bench in two steps is the one after the other. -/
theorem trans (h : b.Leads es n b') (h' : b'.Leads es' n' b'') :
    b.Leads (es ++ es') n' b'' where
  inventory := h'.inventory.trans h.inventory
  env := h'.env.trans h.env
  active := h'.active.trans h.active
  temps := h'.temps
  used name := by
    rw [h'.used, h.used, Emission.calls_append, List.mem_append, or_assoc]
  out := by
    rw [h'.out, h.out, List.map_append, String.join_append, String.append_assoc]
  literals i hi := by
    rw [List.filterMap_append] at hi
    rcases List.mem_append.1 hi with hi | hi
    · exact h.literals i hi
    · rw [← h.env]
      exact h'.literals i hi

end Bench.Leads

/-- How a bench stands: what the code may refer to, which subroutines are being expanded, and
    some functions that are down to be declared already. -/
structure Stand where
  env : Env
  active : List Nat
  granted : List String

/-- What an instruction refers to is at hand: the function is down already, and the literal has
    a constant. -/
structure Stand.Allows (c : Stand) (i : Instr) : Prop where
  call : ∀ x, i.external? = some x → x.name ∈ c.granted
  literal : ∀ k, i.literal? = some k → k < c.env.texts.toList.length

/-- A bench stands as described. -/
structure Stand.Holds (c : Stand) (b : Bench) : Prop where
  env : b.env = c.env
  active : b.active = c.active
  granted : ∀ name ∈ c.granted, name ∈ b.used

theorem Stand.Holds.leads {c : Stand} {b b' : Bench} {es : List Emission} {n : Nat}
    (hc : c.Holds b) (h : b.Leads es n b') : c.Holds b' where
  env := h.env.trans hc.env
  active := h.active.trans hc.active
  granted name hname := (h.used name).2 (.inl (hc.granted name hname))

-- ============================================================================
-- Work that follows code
-- ============================================================================

namespace Craft

/-- What came of work at the bench `b` and the desk agrees with the code made away from it. -/
inductive Agrees {α : Type} (Q : Option Nat → Prop) (b : Bench) (desk : Desk) :
    Except LowerError α × (Bench × Desk) → Traced LowerError Emission (α × Nat) → Prop
  | ok {b' : Bench} {es : List Emission} {a : α} {n : Nat} (hb : b.Leads es n b')
      (hsite : Q b'.site) :
      Agrees Q b desk (.ok a, (b', desk.enterAll (Emission.entries es))) ⟨es, .ok (a, n)⟩
  | error {b' : Bench} {es : List Emission} {e : LowerError}
      (hb : b'.inventory = b.inventory) :
      Agrees Q b desk (.error e, (b', desk.enterAll (Emission.entries es))) ⟨es, .error e⟩

/-- The work `x` follows the code `y`. -/
def Does {α : Type} (c : Stand) (P Q : Option Nat → Prop) (x : Craft α) (y : Lower α) : Prop :=
  ∀ (b : Bench) (desk : Desk), c.Holds b → P b.site →
    Agrees Q b desk (x.run.run (b, desk)) (y.run b.temps)

/-- At the line `site`. -/
def At (site : Option Nat) : Option Nat → Prop := fun s => s = site

namespace Does

variable {α β : Type} {c : Stand} {P Q R : Option Nat → Prop}

theorem pure {a : α} : Does c P P (Pure.pure a) (Pure.pure a) :=
  fun b _ _ hp => .ok (.refl b) hp

theorem fail {e : LowerError} : Does c P Q (throw e : Craft α) (Lower.fail e) := by
  intro b desk _ _
  show Agrees Q b desk (.error e, (b, desk.enterAll (Emission.entries []))) ⟨[], .error e⟩
  exact .error rfl

/-- One step after the other.  The emissions of the first are in front of the second's, on the
    bench and in the code alike, and a fault of the first is the fault of both. -/
theorem bind {x : Craft α} {y : Lower α} {f : α → Craft β} {g : α → Lower β}
    (hx : Does c P Q x y) (hf : ∀ a, Does c Q R (f a) (g a)) :
    Does c P R (x >>= f) (y >>= g) := by
  intro b desk hc hp
  have hx := hx b desk hc hp
  rw [StateT.run_bind]
  rcases hrun : x.run.run (b, desk) with ⟨r, b', desk'⟩
  rcases hmade : y.run b.temps with ⟨es, o⟩
  rw [hrun, hmade] at hx
  cases hx with
  | error hb =>
    -- A fault of the first part is the fault of both, and the second part is not begun.
    rw [Work.run_bind_error hrun, Traced.bind_of_error rfl]
    exact .error hb
  | ok hb hsite =>
    rename_i a n
    -- The second part starts from the bench and the desk that the first one left.
    have hf := hf a b' (desk.enterAll (Emission.entries es)) (hc.leads hb) hsite
    rw [Work.run_bind_ok hrun, Traced.bind_of_ok rfl]
    rw [hb.temps] at hf
    rcases hrun' : (f a).run.run (b', desk.enterAll (Emission.entries es)) with ⟨r', b'', desk''⟩
    rcases hmade' : (g a).run n with ⟨es', o'⟩
    rw [hrun', hmade'] at hf
    cases hf with
    | error hb' =>
      rw [← Desk.enterAll_append, ← Emission.entries_append]
      exact .error (hb'.trans hb.inventory)
    | ok hb' hsite' =>
      rw [← Desk.enterAll_append, ← Emission.entries_append]
      exact .ok (hb.trans hb') hsite'

/-- One piece of code; what it refers to must be at hand. -/
theorem put {e : Emission} (h : ∀ i, e.instr? = some i → c.Allows i) :
    Does c P P (Craft.put e) (StateT.lift (Traced.note e)) := by
  intro b desk hc hp
  show Agrees P b desk
    (.ok (), ({ b with out := b.out ++ e.text }, desk.enterAll (Emission.entries [e])))
    ⟨[e], .ok ((), b.temps)⟩
  have hallows : ∀ i ∈ [e].filterMap Emission.instr?, c.Allows i := by
    intro i hi
    obtain ⟨e', he', hinstr⟩ := List.mem_filterMap.1 hi
    exact h i (List.mem_singleton.1 he' ▸ hinstr)
  refine .ok ⟨rfl, rfl, rfl, rfl, fun name => ?_, ?_, fun i hi => ?_⟩ hp
  · constructor
    · exact .inl
    · rintro (hname | hname)
      · exact hname
      · obtain ⟨x, hx, rfl⟩ := List.mem_map.1 hname
        obtain ⟨i, hi, hexternal⟩ := List.mem_filterMap.1 hx
        exact hc.granted _ ((hallows i hi).call x hexternal)
  · simp
  · rw [hc.env]
    exact (hallows i hi).literal

/-- Less may be asked of the line behind a step. -/
theorem mono {x : Craft α} {y : Lower α} (h : Does c P Q x y) (hr : ∀ s, Q s → R s) :
    Does c P R x y := by
  intro b desk hc hp
  have h := h b desk hc hp
  generalize x.run.run (b, desk) = run at h ⊢
  generalize y.run b.temps = made at h ⊢
  cases h with
  | error hb => exact .error hb
  | ok hb hsite => exact .ok hb (hr _ hsite)

theorem label {l : Label} : Does c P P (Craft.label l) (Lower.label l) :=
  put fun _ hi => by cases hi

theorem note {n : Note} : Does c P P (Craft.note n) (Lower.note n) :=
  put fun _ hi => by cases hi

/-- An instruction is written with the role it has, at the line where the bench is. -/
theorem emitAs {site : Option Nat} {role : Role} {i : Instr} (h : c.Allows i) :
    Does c (At site) (At site) (Craft.emitAs role i) (Lower.emitAs site role i) := by
  intro b desk hc hp
  rw [Craft.emitAs, Work.run_bind_ok (Work.run_look Bench.site), show b.site = site from hp]
  refine put (fun i' hi' => ?_) b desk hc hp
  cases hi'
  exact h

theorem emit {site : Option Nat} {i : Instr} (h : c.Allows i) :
    Does c (At site) (At site) (Craft.emit i) (Lower.emit site i) := emitAs h

end Does

-- ----------------------------------------------------------------------------
-- Straight code
-- ----------------------------------------------------------------------------

/-- Straight code of two parts lies on one line as the parts do, one after the other. -/
theorem straight_bind {α β : Type} (site : Option Nat) (x : Straight α) (f : α → Straight β) :
    Lower.straight site (x >>= f)
      = Lower.straight site x >>= fun a => Lower.straight site (f a) := by
  funext n
  show (⟨((x >>= f).run n).notes.map (.step site), ((x >>= f).run n).outcome⟩
      : Traced LowerError Emission (β × Nat))
    = (Lower.straight site x >>= fun a => Lower.straight site (f a)).run n
  rw [StateT.run_bind, StateT.run_bind]
  rcases h : x.run n with ⟨steps, e | ⟨a, n'⟩⟩
  · have hx : (Lower.straight site x).run n = ⟨steps.map (.step site), .error e⟩ := by
      show (⟨(x.run n).notes.map (.step site), (x.run n).outcome⟩
        : Traced LowerError Emission (α × Nat)) = _
      rw [h]
    rw [hx, Traced.bind_of_error rfl, Traced.bind_of_error rfl]
  · have hx : (Lower.straight site x).run n = ⟨steps.map (.step site), .ok (a, n')⟩ := by
      show (⟨(x.run n).notes.map (.step site), (x.run n).outcome⟩
        : Traced LowerError Emission (α × Nat)) = _
      rw [h]
    rw [hx, Traced.bind_of_ok rfl, Traced.bind_of_ok rfl]
    show (⟨(steps ++ ((f a).run n').notes).map (.step site), ((f a).run n').outcome⟩
      : Traced LowerError Emission (β × Nat)) = _
    rw [List.map_append]
    rfl

/-- Straight code that, if it can be made, calls a function. -/
def Calls {α : Type} (e : External) (y : Straight α) : Prop :=
  ∀ n steps a n', Makes y n steps a n' → ∃ s ∈ steps, s.instr.external? = some e

namespace Calls

variable {α β : Type} {e : External}

theorem emit {i : Instr} (h : i.external? = some e) : Calls e (Straight.emit i) := by
  intro n steps u n' hmade
  obtain ⟨rfl, -⟩ := Straight.makes_emit.1 hmade
  exact ⟨_, List.mem_singleton_self _, h⟩

theorem define {i : Temp → Instr} (h : ∀ t, (i t).external? = some e) :
    Calls e (Straight.define i) := by
  intro n steps t n' hmade
  obtain ⟨rfl, -⟩ := Straight.makes_define.1 hmade
  exact ⟨_, List.mem_singleton_self _, h _⟩

/-- The calls of a first part are calls of the whole. -/
theorem before {y : Straight α} {g : α → Straight β} (h : Calls e y) : Calls e (y >>= g) := by
  intro n steps b n' hmade
  obtain ⟨a, _, steps₁, steps₂, hy, -, rfl⟩ := makes_bind.1 hmade
  obtain ⟨s, hs, hcall⟩ := h _ _ _ _ hy
  exact ⟨s, List.mem_append_left _ hs, hcall⟩

/-- The calls of a second part are calls of the whole, whatever the first comes to. -/
theorem after {y : Straight α} {g : α → Straight β} (h : ∀ a, Calls e (g a)) :
    Calls e (y >>= g) := by
  intro n steps b n' hmade
  obtain ⟨a, _, steps₁, steps₂, -, hg, rfl⟩ := makes_bind.1 hmade
  obtain ⟨s, hs, hcall⟩ := h a _ _ _ _ hg
  exact ⟨s, List.mem_append_right _ hs, hcall⟩

end Calls

/-- The work `x` follows the straight code `y` of the line `site`. -/
def Follows {α : Type} (c : Stand) (site : Option Nat) (x : Craft α) (y : Straight α) : Prop :=
  Does c (At site) (At site) x (Lower.straight site y)

namespace Follows

variable {α β : Type} {c : Stand} {site : Option Nat}

theorem pure {a : α} : Follows c site (Pure.pure a) (Pure.pure a) :=
  Does.pure (a := a)

theorem fail {e : LowerError} : Follows c site (throw e : Craft α) (Straight.fail e) :=
  Does.fail (e := e)

theorem bind {x : Craft α} {y : Straight α} {f : α → Craft β} {g : α → Straight β}
    (hx : Follows c site x y) (hf : ∀ a, Follows c site (f a) (g a)) :
    Follows c site (x >>= f) (y >>= g) := by
  rw [Follows, straight_bind]
  exact Does.bind hx hf

theorem emitAs {role : Role} {i : Instr} (h : c.Allows i) :
    Follows c site (Craft.emitAs role i) (Straight.emitAs role i) := Does.emitAs h

theorem emit {i : Instr} (h : c.Allows i) :
    Follows c site (Craft.emit i) (Straight.emit i) := Does.emitAs h

/-- A fresh number is the next one, on the bench as in the code. -/
theorem newTemp :
    Follows c site Craft.newTemp (do let n ← get; set (n + 1); return ⟨n⟩) := by
  intro b desk hc hp
  show Agrees (At site) b desk
    (.ok (Temp.mk b.temps), ({ b with temps := b.temps + 1 }, desk.enterAll (Emission.entries [])))
    ⟨[], .ok (Temp.mk b.temps, b.temps + 1)⟩
  exact .ok ⟨rfl, rfl, rfl, rfl, fun _ => by simp [Emission.calls], by simp,
    fun _ hi => by cases hi⟩ hp

/-- An instruction with a result is written behind the number it takes. -/
theorem defineAs {role : Role} {i : Temp → Instr} (h : ∀ t, c.Allows (i t)) :
    Follows c site (Craft.defineAs role i) (Straight.defineAs role i) := by
  have hsplit : Straight.defineAs role i
      = (do let n ← get; set (n + 1); return ⟨n⟩ : Straight Temp) >>= fun t =>
        Straight.emitAs role (i t) >>= fun _ => Pure.pure t := rfl
  rw [hsplit]
  exact newTemp.bind fun t => (emitAs (h t)).bind fun _ => pure

theorem define {i : Temp → Instr} (h : ∀ t, c.Allows (i t)) :
    Follows c site (Craft.define i) (Straight.define i) := defineAs h

/-- Putting a function down beforehand is right if the code that follows calls it. -/
theorem use {e : External} {x : Craft α} {y : Straight α}
    (h : Follows { c with granted := e.name :: c.granted } site x y)
    (hcall : Calls e y) : Follows c site (do Craft.use e; x) y := by
  intro b desk hc hp
  rw [Craft.use, Work.run_bind_ok (Work.run_change _)]
  have hstands : ({ c with granted := e.name :: c.granted } : Stand).Holds
      { b with used := b.used.insert e.name } := by
    refine ⟨hc.env, hc.active, fun name hname => Ascending.mem_insert.2 ?_⟩
    rcases List.mem_cons.1 hname with rfl | hname
    · exact .inl rfl
    · exact .inr (hc.granted name hname)
  have h := h { b with used := b.used.insert e.name } desk hstands hp
  dsimp only at h ⊢
  generalize x.run.run ({ b with used := b.used.insert e.name }, desk) = run at h ⊢
  rcases hmade : (Lower.straight site y).run b.temps with ⟨es, o⟩
  rw [hmade] at h
  cases h with
  | error hb => exact .error hb
  | ok hb hsite =>
    -- The function entered beforehand is called by the code, so it would be in use anyway.
    obtain ⟨steps, hsteps, rfl⟩ := Lower.makes_straight.1 hmade
    obtain ⟨s, hs, hexternal⟩ := hcall _ _ _ _ hsteps
    have hcalled : e.name ∈ Emission.calls (steps.map (.step site)) := by
      refine List.mem_map.2 ⟨e, List.mem_filterMap.2 ⟨s.instr, ?_, hexternal⟩, rfl⟩
      exact List.mem_filterMap.2 ⟨.step site s, List.mem_map.2 ⟨s, hs, rfl⟩, rfl⟩
    refine .ok ⟨hb.inventory, hb.env, hb.active, hb.temps, fun name => ?_, hb.out, hb.literals⟩
      hsite
    rw [hb.used, Ascending.mem_insert]
    constructor
    · rintro ((rfl | hname) | hname)
      · exact .inr hcalled
      · exact .inl hname
      · exact .inr hname
    · rintro (hname | hname)
      · exact .inl (.inr hname)
      · exact .inr hname

/-- A variable without a slot is refused by both. -/
theorem requireSlot {name : String} :
    Follows c site (Craft.requireSlot name) (c.env.requireSlot name) := by
  intro b desk hc hp
  have hnames : b.names = c.env.names := congrArg Env.names hc.env
  rw [Craft.requireSlot, Work.run_bind_ok (Work.run_look Bench.names), Env.requireSlot, hnames]
  by_cases h : name ∈ c.env.names
  · rw [if_pos h, if_pos h]
    exact pure b desk hc hp
  · rw [if_neg h, if_neg h]
    exact fail b desk hc hp

/-- A string literal has one place in the pool, and its address is taken the same way. -/
theorem textAddress {value : String} :
    Follows c site (Craft.textAddress value) (c.env.textAddress value) := by
  intro b desk hc hp
  have htexts : b.texts = c.env.texts := congrArg Env.texts hc.env
  rw [Craft.textAddress, Work.run_bind_ok (Work.run_look Bench.texts), Env.textAddress, htexts]
  cases hplace : c.env.texts.toList.idxOf? value with
  | none => exact fail b desk hc hp
  | some k =>
    have hk : k < c.env.texts.toList.length := (List.idxOf?_eq_some_iff.1 hplace).1
    refine define (fun t => ⟨fun _ hx => (by cases hx), fun k' hk' => ?_⟩) b desk hc hp
    cases hk'
    exact hk

end Follows

variable {c : Stand}

/-- An instruction that refers to nothing. -/
theorem quiet {i : Instr} (hcall : i.external? = none) (hliteral : i.literal? = none) :
    c.Allows i where
  call x hx := by
    rw [hcall] at hx
    cases hx
  literal k hk := by
    rw [hliteral] at hk
    cases hk

/-- An instruction that calls the function put down last. -/
theorem granted {i : Instr} {e : External} {names : List String} (hcall : i.external? = some e)
    (hliteral : i.literal? = none) :
    ({ c with granted := e.name :: names } : Stand).Allows i where
  call x hx := by
    rw [hcall] at hx
    cases hx
    exact List.mem_cons_self
  literal k hk := by
    rw [hliteral] at hk
    cases hk

end Craft

end LineBasic
