/-
  LineBasic.Traced

  Computations that leave notes behind, also when they fail.  The notes of a
  sequence of steps are the notes of the steps, one after the other, up to and
  including the step that failed.
-/

namespace LineBasic

/-- Outcomes are compared by kind and content. -/
instance decidableEqExcept {ε α : Type} [DecidableEq ε] [DecidableEq α] :
    DecidableEq (Except ε α)
  | .ok a, .ok b => decidable_of_iff (a = b) (by rw [Except.ok.injEq])
  | .error e, .error f => decidable_of_iff (e = f) (by rw [Except.error.injEq])
  | .ok _, .error _ => isFalse nofun
  | .error _, .ok _ => isFalse nofun

/-- A result, or the failure in its place, and the notes left on the way. -/
structure Traced (ε ω α : Type) where
  notes : List ω
  outcome : Except ε α

namespace Traced

variable {ε ω α β : Type}

/-- A result without notes. -/
protected def pure (a : α) : Traced ε ω α := ⟨[], .ok a⟩

/-- Runs `f` on the result of `x`, if there is one. -/
protected def bind (x : Traced ε ω α) (f : α → Traced ε ω β) : Traced ε ω β :=
  match x.outcome with
  | .ok a => ⟨x.notes ++ (f a).notes, (f a).outcome⟩
  | .error e => ⟨x.notes, .error e⟩

instance : Monad (Traced ε ω) where
  pure := Traced.pure
  bind := Traced.bind

/-- Leaves one note. -/
def note (n : ω) : Traced ε ω Unit := ⟨[n], .ok ()⟩

/-- Fails. -/
def fail (e : ε) : Traced ε ω α := ⟨[], .error e⟩

-- ----------------------------------------------------------------------------
-- Notes and outcome of a sequence
-- ----------------------------------------------------------------------------

@[simp] theorem notes_pure (a : α) : (pure a : Traced ε ω α).notes = [] := rfl

@[simp] theorem outcome_pure (a : α) : (pure a : Traced ε ω α).outcome = .ok a := rfl

@[simp] theorem notes_note (n : ω) : (note n : Traced ε ω Unit).notes = [n] := rfl

@[simp] theorem outcome_note (n : ω) : (note n : Traced ε ω Unit).outcome = .ok () := rfl

@[simp] theorem notes_fail (e : ε) : (fail e : Traced ε ω α).notes = [] := rfl

@[simp] theorem outcome_fail (e : ε) : (fail e : Traced ε ω α).outcome = .error e := rfl

theorem bind_of_ok {x : Traced ε ω α} {a : α} (h : x.outcome = .ok a)
    (f : α → Traced ε ω β) :
    x >>= f = ⟨x.notes ++ (f a).notes, (f a).outcome⟩ := by
  show Traced.bind x f = _
  simp [Traced.bind, h]

theorem bind_of_error {x : Traced ε ω α} {e : ε} (h : x.outcome = .error e)
    (f : α → Traced ε ω β) : x >>= f = ⟨x.notes, .error e⟩ := by
  show Traced.bind x f = _
  simp [Traced.bind, h]

/-- A sequence goes through if its steps do. -/
theorem outcome_bind_eq_ok_iff {x : Traced ε ω α} {f : α → Traced ε ω β} {b : β} :
    (x >>= f).outcome = .ok b ↔ ∃ a, x.outcome = .ok a ∧ (f a).outcome = .ok b := by
  cases h : x.outcome with
  | error e => simp [bind_of_error h]
  | ok a => simp [bind_of_ok h]

instance : LawfulMonad (Traced ε ω) :=
  LawfulMonad.mk' _
    (by
      intro α x
      show Traced.bind x _ = x
      cases x with
      | mk notes outcome => cases outcome <;> simp [Traced.bind, Traced.pure])
    (by
      intro α β a f
      show Traced.bind (Traced.pure a) f = f a
      simp [Traced.bind, Traced.pure])
    (by
      intro α β γ x f g
      show Traced.bind (Traced.bind x f) g = Traced.bind x fun a => Traced.bind (f a) g
      cases x with
      | mk notes outcome =>
        cases outcome with
        | error e => simp [Traced.bind]
        | ok a => cases h : (f a).outcome <;> simp [Traced.bind, h])

end Traced

end LineBasic
