/-
  LineBasic.Proofs.DistinctLabels

  No label occurs twice in the code of a program.  Every label below an owner
  starts its path with a part of the owner that has a number of its own: the
  numbers of decisions, loops and calls come from one count, those of the lines of
  a subroutine from another, and both only grow.
-/

import LineBasic.Proofs.CodeLayout
import LineBasic.Proofs.LabelText

namespace LineBasic

-- ============================================================================
-- Paths
-- ============================================================================

namespace Label

/-- The entry, the exit or the line below which a label lies. -/
def root : Label → Label
  | entry => entry
  | exit => exit
  | line n => line n
  | decided o _ | loopTest o _ | loopBody o _ | loopStep o _ | loopEnd o _ | subStart o _
  | subEnd o _ | subLine o _ => root o

/-- The numbered parts that lead from the root to a label. -/
def path : Label → List (Part × Nat)
  | entry | exit | line _ => []
  | decided o k => path o ++ [(.decided, k)]
  | loopTest o k => path o ++ [(.loopTest, k)]
  | loopBody o k => path o ++ [(.loopBody, k)]
  | loopStep o k => path o ++ [(.loopStep, k)]
  | loopEnd o k => path o ++ [(.loopEnd, k)]
  | subStart o k => path o ++ [(.subStart, k)]
  | subEnd o k => path o ++ [(.subEnd, k)]
  | subLine o k => path o ++ [(.subLine, k)]

@[simp] theorem root_part (o : Label) (p : Part) (k : Nat) : (o.part p k).root = o.root := by
  cases p <;> rfl

@[simp] theorem path_part (o : Label) (p : Part) (k : Nat) :
    (o.part p k).path = o.path ++ [(p, k)] := by
  cases p <;> rfl

/-- A label lies below `o`, and the part of `o` in which it lies satisfies `P`. -/
def Below (o : Label) (P : Part × Nat → Prop) (l : Label) : Prop :=
  l.root = o.root ∧ ∃ first rest, l.path = o.path ++ first :: rest ∧ P first

namespace Below

variable {o l : Label} {P Q : Part × Nat → Prop}

theorem part (p : Part) (k : Nat) (h : P (p, k)) : Below o P (o.part p k) :=
  ⟨root_part .., (p, k), [], path_part .., h⟩

theorem mono (h : Below o P l) (hPQ : ∀ first, P first → Q first) : Below o Q l := by
  obtain ⟨hroot, first, rest, hpath, hfirst⟩ := h
  exact ⟨hroot, first, rest, hpath, hPQ first hfirst⟩

/-- What lies below a part of `o` lies below `o`, in that part. -/
theorem of_part {p : Part} {k : Nat} (h : Below (o.part p k) P l) : Below o (· = (p, k)) l := by
  obtain ⟨hroot, first, rest, hpath, -⟩ := h
  refine ⟨by rw [hroot, root_part], (p, k), first :: rest, ?_, rfl⟩
  rw [hpath, path_part, List.append_assoc]
  rfl

/-- A label below another one is not that one. -/
theorem ne_owner (h : Below o P l) : l ≠ o := by
  rintro rfl
  obtain ⟨-, first, rest, hpath, -⟩ := h
  have hlen := congrArg List.length hpath
  simp at hlen

/-- The part of `o` in which a label lies is determined. -/
theorem unique (h : Below o P l) (h' : Below o Q l) : ∃ first, P first ∧ Q first := by
  obtain ⟨-, first, rest, hpath, hP⟩ := h
  obtain ⟨-, first', rest', hpath', hQ⟩ := h'
  rw [hpath] at hpath'
  obtain ⟨rfl, -⟩ := List.cons.inj (List.append_cancel_left hpath')
  exact ⟨first, hP, hQ⟩

end Below

end Label

-- ============================================================================
-- Numbers that are still free
-- ============================================================================

/-- How many lines of a subroutine behind its first have begun. -/
def Behind.index : Behind → Nat
  | .block _ => 0
  | .lines i _ => i

/-- A part whose number is still free when `k` blocks and `i` lines have been numbered. -/
def Unused (k i : Nat) (first : Label.Part × Nat) : Prop :=
  if first.1 = .subLine then i < first.2 else k < first.2

/-- What is unused from the next part on is unused from this one on. -/
theorem Unused.mono {k i : Nat} {first : Label.Part × Nat} (h : Unused (k + 1) i first) :
    Unused k i first := by
  unfold Unused at *
  split at h
  · next hline => rwa [if_pos hline]
  · next hline =>
    rw [if_neg hline]
    omega

theorem Unused.mono_line {k i : Nat} {first : Label.Part × Nat} (h : Unused k (i + 1) first) :
    Unused k i first := by
  unfold Unused at *
  split at h
  · next hline =>
    rw [if_pos hline]
    omega
  · next hline => rwa [if_neg hline]

/-- A part that has its number lies in no part whose number is free. -/
theorem Label.Below.ne_part {o l : Label} {k i : Nat} (h : o.Below (Unused k i) l) {p : Label.Part}
    (hp : p ≠ .subLine) : l ≠ o.part p k := by
  rintro rfl
  obtain ⟨first, hunused, rfl⟩ := h.unique (.part p k rfl : o.Below (· = (p, k)) (o.part p k))
  simp [Unused, hp] at hunused

-- ============================================================================
-- Code of statements
-- ============================================================================

section Statements

open Emission

variable {env : Env} {frame : Frame} {k n n' site : Nat} {ss : List Stmt} {behind : Behind}
  {es : List Emission}

/-- The parts of a loop share one number. -/
theorem LoopParts.mem_labels_code {parts : LoopParts} {owner l : Label} {name : String}
    (h : l ∈ labels (parts.code site owner k name es)) :
    (∃ p, p ≠ .subLine ∧ l = owner.part p k) ∨ l ∈ labels es := by
  rw [LoopParts.labels_code, List.mem_append] at h
  refine h.imp_left fun h => ?_
  simp only [List.mem_cons, List.not_mem_nil, or_false] at h
  rcases h with rfl | rfl | rfl | rfl
  · exact ⟨.loopTest, by decide, rfl⟩
  · exact ⟨.loopBody, by decide, rfl⟩
  · exact ⟨.loopStep, by decide, rfl⟩
  · exact ⟨.loopEnd, by decide, rfl⟩

/-- Every label of the code of statements lies below their owner, in a part whose
    number was free. -/
theorem CodeOf.labels_below (h : CodeOf env frame k n site ss behind es n') :
    ∀ l ∈ labels es, frame.owner.Below (Unused k behind.index) l := by
  induction h with
  | plain _ _ _ ih => simpa using ih
  | goto _ | return_ | end_ | lineEnd | regionEnd => simp
  | gotoNowhere _ _ ih => exact ih
  | @gosub frame k n n₁ n' site pos target ss behind _ _ es₁ es₂ _ _ _ ih₁ ih₂ =>
    intro l hl
    simp only [labels_step, labels_note, labels_label, labels_append, List.mem_cons,
      List.mem_append] at hl
    rcases hl with rfl | hl | rfl | hl
    · exact .part .subStart (k + 1) (by simp [Unused])
    -- Labels of the expanded lines are below the start of the subroutine.
    · have hsub : frame.owner.Below (· = (.subStart, k + 1)) l :=
        (ih₁ l hl).of_part (p := .subStart)
      exact hsub.mono fun first hfirst => by simp [hfirst, Unused]
    · exact .part .subEnd (k + 1) (by simp [Unused])
    · exact (ih₂ l hl).mono fun _ => Unused.mono
  | @gosubNowhere frame k n n' site pos target ss behind es _ _ ih =>
    intro l hl
    simp only [labels_step, labels_note, labels_label, List.mem_cons] at hl
    rcases hl with rfl | rfl | hl
    · exact .part .subStart (k + 1) (by simp [Unused])
    · exact .part .subEnd (k + 1) (by simp [Unused])
    · exact (ih l hl).mono fun _ => Unused.mono
  | @ifThen frame k n n₁ n' site pos condition target ss behind steps c es _ _ _ ih
  | @ifNowhere frame k n n₁ n' site pos condition target ss behind steps c es _ _ _ ih =>
    intro l hl
    simp only [labels_append, labels_steps, labels_step, labels_label, List.nil_append,
      List.mem_cons] at hl
    rcases hl with rfl | hl
    · exact .part .decided (k + 1) (by simp [Unused])
    · exact (ih l hl).mono fun _ => Unused.mono
  | forNext _ _ ih =>
    intro l hl
    rcases LoopParts.mem_labels_code hl with ⟨p, hp, rfl⟩ | hl
    · exact .part p _ (by simp [Unused, hp])
    · exact (ih l hl).mono fun _ => Unused.mono
  | @nextLine frame k n n' site i _ _ es _ ih =>
    intro l hl
    simp only [labels_step, labels_note, labels_label, List.mem_cons] at hl
    rcases hl with rfl | hl
    · exact .part .subLine (i + 1) (by simp [Unused, Behind.index])
    · exact (ih l hl).mono fun _ => Unused.mono_line

/-- No label occurs twice in the code of statements. -/
theorem CodeOf.nodup_labels (h : CodeOf env frame k n site ss behind es n') :
    (labels es).Nodup := by
  induction h with
  | plain _ _ _ ih => simpa using ih
  | goto _ | return_ | end_ | lineEnd | regionEnd => simp
  | gotoNowhere _ _ ih => exact ih
  | @gosub frame k n n₁ n' site pos target ss behind _ _ es₁ es₂ _ h₁ h₂ ih₁ ih₂ =>
    -- Labels inside the subroutine go through its start, those behind it through unused parts.
    have hin : ∀ l ∈ labels es₁, frame.owner.Below (· = (.subStart, k + 1)) l := fun l hl =>
      (h₁.labels_below l hl).of_part (p := .subStart)
    have hout := h₂.labels_below
    simp only [labels_step, labels_note, labels_label, labels_append, List.nodup_cons,
      List.mem_append, List.mem_cons, List.nodup_append, not_or]
    refine ⟨⟨fun hl => ?_, by simp, fun hl => ?_⟩, ih₁, ⟨fun hl => ?_, ih₂⟩, ?_⟩
    · exact (h₁.labels_below _ hl).ne_owner rfl
    · exact (hout _ hl).ne_part (p := .subStart) (by decide) rfl
    · exact (hout _ hl).ne_part (p := .subEnd) (by decide) rfl
    · rintro l hl l' (rfl | hl') rfl
      · obtain ⟨_, rfl, heq⟩ := (hin _ hl).unique
          (.part .subEnd (k + 1) rfl : frame.owner.Below (· = (.subEnd, k + 1)) _)
        cases heq
      · obtain ⟨_, rfl, hunused⟩ := (hin _ hl).unique (hout _ hl')
        simp [Unused] at hunused
  | @gosubNowhere frame k n n' site pos target ss behind es _ h ih =>
    have hout := h.labels_below
    simp only [labels_step, labels_note, labels_label, List.nodup_cons, List.mem_cons, not_or]
    refine ⟨⟨by simp, fun hl => ?_⟩, fun hl => ?_, ih⟩
    · exact (hout _ hl).ne_part (p := .subStart) (by decide) rfl
    · exact (hout _ hl).ne_part (p := .subEnd) (by decide) rfl
  | @ifThen frame k n n₁ n' site pos condition target ss behind steps c es _ _ h ih
  | @ifNowhere frame k n n₁ n' site pos condition target ss behind steps c es _ _ h ih =>
    simp only [labels_append, labels_steps, labels_step, labels_label, List.nil_append,
      List.nodup_cons]
    refine ⟨fun hl => ?_, ih⟩
    exact (h.labels_below _ hl).ne_part (p := .decided) (by decide) rfl
  | @forNext frame k n n₁ n' site pos name start stop step body ss behind es parts _ h ih =>
    have hout := h.labels_below
    simp only [LoopParts.labels_code, List.cons_append, List.nil_append, List.nodup_cons,
      List.mem_cons, not_or]
    refine ⟨⟨by simp, by simp, by simp, fun hl => ?_⟩, ⟨by simp, by simp, fun hl => ?_⟩,
      ⟨by simp, fun hl => ?_⟩, fun hl => ?_, ih⟩
    · exact (hout _ hl).ne_part (p := .loopTest) (by decide) rfl
    · exact (hout _ hl).ne_part (p := .loopBody) (by decide) rfl
    · exact (hout _ hl).ne_part (p := .loopStep) (by decide) rfl
    · exact (hout _ hl).ne_part (p := .loopEnd) (by decide) rfl
  | @nextLine frame k n n' site i _ _ es h ih =>
    simp only [labels_step, labels_note, labels_label, List.nodup_cons]
    refine ⟨fun hl => ?_, ih⟩
    obtain ⟨_, hunused, rfl⟩ := (h.labels_below _ hl).unique
      (.part .subLine (i + 1) rfl : frame.owner.Below (· = (.subLine, i + 1)) _)
    simp [Unused, Behind.index] at hunused

end Statements

-- ============================================================================
-- Code of programs
-- ============================================================================

section Programs

open Emission

variable {env : Env} {n n' : Nat} {es : List Emission} {ls : List Line}

/-- Every label of the code of lines is a line or lies below one. -/
theorem LinesCode.root_of_mem_labels (h : LinesCode env ls n es n') {l : Label}
    (hl : l ∈ labels es) : ∃ m ∈ ls, l.root = .line m.number := by
  induction h with
  | nil => cases hl
  | @cons m ls n n₁ n' es es' hcode _ ih =>
    simp only [labels_note, labels_label, labels_append, List.mem_cons, List.mem_append] at hl
    rcases hl with rfl | hl | hl
    · exact ⟨m, List.mem_cons_self .., rfl⟩
    · exact ⟨m, List.mem_cons_self .., (hcode.labels_below l hl).1⟩
    · obtain ⟨m', hm', hroot⟩ := ih hl
      exact ⟨m', List.mem_cons_of_mem _ hm', hroot⟩

/-- Lines with distinct numbers have code with distinct labels: each has its labels below its
    own. -/
theorem LinesCode.nodup_labels (h : LinesCode env ls n es n') (hls : (ls.map Line.number).Nodup) :
    (labels es).Nodup := by
  induction h with
  | nil => exact List.nodup_nil
  | @cons m ls n n₁ n' es es' hcode hrest ih =>
    rw [List.map_cons, List.nodup_cons] at hls
    -- a label of the other lines has another root
    have hother : ∀ l ∈ labels es', l.root ≠ .line m.number := by
      intro l hl hroot
      obtain ⟨m', hm', hroot'⟩ := hrest.root_of_mem_labels hl
      rw [hroot] at hroot'
      injection hroot' with hnum
      exact hls.1 (List.mem_map.2 ⟨m', hm', hnum.symm⟩)
    simp only [labels_note, labels_label, labels_append, List.nodup_cons, List.mem_append,
      not_or, List.nodup_append]
    refine ⟨⟨fun hl => ?_, fun hl => hother _ hl rfl⟩, hcode.nodup_labels, ih hls.2, ?_⟩
    · exact (hcode.labels_below _ hl).ne_owner rfl
    · rintro l hl l' hl' rfl
      exact hother l hl' (hcode.labels_below l hl).1

@[simp] theorem labels_slotCode (names : List String) : labels (slotCode names) = [] := by
  induction names with
  | nil => rfl
  | cons x names ih => exact ih

/-- No label occurs twice in the code of a program. -/
theorem MainCode.nodup_labels (h : MainCode env es n)
    (hlines : (env.lines.map Line.number).Nodup) : (labels es).Nodup := by
  cases h with
  | empty _ => simp
  | @lines es n _ hcode =>
    have hroot : ∀ l ∈ labels es, l ≠ .entry ∧ l ≠ .exit := by
      intro l hl
      obtain ⟨m, -, hroot⟩ := hcode.root_of_mem_labels hl
      constructor <;> rintro rfl <;> cases hroot
    simp only [labels_label, labels_append, labels_slotCode, labels_step, labels_nil,
      List.nil_append, List.nodup_cons, List.mem_append, List.mem_singleton, not_or,
      List.nodup_append]
    refine ⟨⟨fun hl => (hroot _ hl).1 rfl, by simp⟩, hcode.nodup_labels hlines, by simp, ?_⟩
    rintro l hl l' rfl
    exact (hroot l hl).2

end Programs

end LineBasic
