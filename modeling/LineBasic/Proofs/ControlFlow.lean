/-
  LineBasic.Proofs.ControlFlow

  The control flow of a generated function.  Its code falls into blocks, one for
  every label; each block ends in a jump or a return and has no other, every jump
  leads to a block, and no two blocks have names that are written alike.  The
  blocks that are named after a line alone are those of the lines of the program,
  in ascending order.
-/

import LineBasic.Proofs.DistinctLabels
import LineBasic.Proofs.Flow
import LineBasic.Proofs.Listing

namespace LineBasic

-- ============================================================================
-- Blocks
-- ============================================================================

/-- A label and the instructions behind it, up to the next label. -/
structure Block where
  label : Label
  instrs : List Instr
deriving DecidableEq

/-- Code cut at its labels: the instructions in front of the first label, and the
    blocks. -/
def Emission.cut : List Emission → List Instr × List Block
  | [] => ([], [])
  | .label l :: es => ([], ⟨l, (cut es).1⟩ :: (cut es).2)
  | .step _ s :: es => (s.instr :: (cut es).1, (cut es).2)
  | .note _ :: es => cut es

namespace Module

/-- The labels of the function of a module. -/
def labels (m : Module) : List Label := Emission.labels m.body

/-- The instructions in front of the first label. -/
def leading (m : Module) : List Instr := (Emission.cut m.body).1

/-- The blocks of the function of a module. -/
def blocks (m : Module) : List Block := (Emission.cut m.body).2

end Module

/-- The instructions of a block from a point on where the temporaries `known` are
    known: each uses what is known, and the last is the only one that ends the
    block. -/
inductive BlockBody : Known → List Instr → Prop where
  | last {known i} : i.isTerminator = true → i.uses ⊆ known → BlockBody known [i]
  | cons {known i is} : i.isTerminator = false → i.uses ⊆ known →
      BlockBody (i.result?.toList ++ known) is → BlockBody known (i :: is)

/-- What is left of an open block, or nothing where no block is open. -/
def LeftOf : Option Known → List Instr → Prop
  | none, is => is = []
  | some known, is => BlockBody known is

theorem Instr.isTerminator_of_result {i : Instr} {r : Temp × CodeType}
    (h : i.result? = some r) : i.isTerminator = false := by
  cases i <;> first | rfl | cases h

/-- Code that can be read falls into blocks that can be read. -/
theorem Flow.cut {ok : Instr → Prop} {n n' : Nat} {known known' : Option Known}
    {es : List Emission} (h : Flow ok n known es n' known') (hend : known' = none) :
    LeftOf known (Emission.cut es).1 ∧ ∀ b ∈ (Emission.cut es).2, BlockBody [] b.instrs := by
  induction h with
  | nil =>
    subst hend
    simp [Emission.cut, LeftOf]
  | label _ ih =>
    obtain ⟨hleft, hblocks⟩ := ih hend
    simp only [Emission.cut, List.mem_cons, forall_eq_or_imp]
    exact ⟨rfl, hleft, hblocks⟩
  | note _ ih => exact ih hend
  | define hr _ hu _ ih =>
    obtain ⟨hleft, hblocks⟩ := ih hend
    refine ⟨.cons (Instr.isTerminator_of_result hr) hu ?_, hblocks⟩
    rw [hr]
    exact hleft
  | effect hr ht _ hu _ ih =>
    obtain ⟨hleft, hblocks⟩ := ih hend
    refine ⟨.cons ht hu ?_, hblocks⟩
    rw [hr]
    exact hleft
  | close ht _ hu _ ih =>
    obtain ⟨hleft, hblocks⟩ := ih hend
    -- Nothing is left open behind a terminator, so the block ends with it.
    refine ⟨?_, hblocks⟩
    simp only [Emission.cut, show (Emission.cut _).1 = [] from hleft]
    exact .last ht hu

/-- A block has instructions, and the last of them is the only one that ends it. -/
def Block.Closed (b : Block) : Prop :=
  ∃ front last, b.instrs = front ++ [last] ∧ last.isTerminator = true ∧
    ∀ i ∈ front, i.isTerminator = false

/-- A block ends with its only terminator. -/
theorem BlockBody.closed {known : Known} {is : List Instr} (h : BlockBody known is) :
    ∃ front last, is = front ++ [last] ∧ last.isTerminator = true ∧
      ∀ i ∈ front, i.isTerminator = false := by
  induction h with
  | @last known i ht _ => exact ⟨[], i, rfl, ht, by simp⟩
  | @cons known i is ht _ _ ih =>
    obtain ⟨front, last, rfl, hlast, hfront⟩ := ih
    exact ⟨i :: front, last, rfl, hlast, by simpa using ⟨ht, hfront⟩⟩

-- ============================================================================
-- Names of lines
-- ============================================================================

/-- Whether a text is `line`, a number and nothing else. -/
def isLineName (text : String) : Bool :=
  match text.toList with
  | 'l' :: 'i' :: 'n' :: 'e' :: ds => !ds.isEmpty && ds.all Char.isDigit
  | _ => false

theorem isLineName_text_line (n : Nat) : isLineName (Label.line n).text = true := by
  have hall : (Nat.toDigits 10 n).all Char.isDigit = true :=
    List.all_eq_true.2 fun c hc => Label.isDigit_of_mem_digits hc
  have hlist : (Label.line n).text.toList = 'l' :: 'i' :: 'n' :: 'e' :: Nat.toDigits 10 n :=
    Label.toList_text_line n
  simp [isLineName, hlist, hall, Nat.toDigits_ne_nil]

/-- A label below another one has an underscore and is no name of a line. -/
theorem isLineName_text_part (o : Label) (p : Label.Part) (k : Nat) :
    isLineName (o.part p k).text = false := by
  have hmem := Label.underscore_mem_text_part o p k
  unfold isLineName
  split
  · next ds hds =>
    rw [hds] at hmem
    have hunder : '_' ∈ ds := by simpa using hmem
    have hall : ds.all Char.isDigit = false := by
      rw [List.all_eq_false]
      exact ⟨'_', hunder, by decide⟩
    rw [hall, Bool.and_false]
  · rfl

/-- No label that is made for the code of a line is a name of a line. -/
theorem isLineName_of_below {o l : Label} {P : Label.Part × Nat → Prop} (h : o.Below P l) :
    isLineName l.text = false := by
  obtain ⟨-, first, rest, hpath, -⟩ := h
  induction l using Label.rec_part with
  | entry | exit | line => exact absurd hpath.symm (by simp [Label.path])
  | part owner p k _ => exact isLineName_text_part owner p k

section LineNames

open Emission

variable {env : Env} {n n' : Nat} {es : List Emission}

/-- The names of lines among labels. -/
def lineNames (ls : List Label) : List String := (ls.map Label.text).filter isLineName

/-- The code of statements has no labels of lines, expanded subroutines included. -/
theorem CodeOf.lineNames {frame : Frame} {k site : Nat} {ss : List Stmt} {behind : Behind}
    (h : CodeOf env frame k n site ss behind es n') : lineNames (labels es) = [] := by
  rw [LineBasic.lineNames, List.filter_eq_nil_iff]
  intro text htext
  obtain ⟨l, hl, rfl⟩ := List.mem_map.1 htext
  simp [isLineName_of_below (h.labels_below l hl)]

/-- The code of lines has their labels, in their order. -/
theorem LinesCode.lineNames {ls : List Line} (h : LinesCode env ls n es n') :
    lineNames (labels es) = ls.map fun l => (Label.line l.number).text := by
  induction h with
  | nil => rfl
  | @cons l ls n n₁ n' es es' hcode _ ih =>
    have hes := hcode.lineNames
    unfold LineBasic.lineNames at *
    simp [isLineName_text_line, hes, ih]

/-- The whole function has the labels of its lines and no other names of lines. -/
theorem MainCode.lineNames (h : MainCode env es n) :
    lineNames (labels es) = env.lines.map fun l => (Label.line l.number).text := by
  have hentry : isLineName (Label.text .entry) = false := by decide
  have hexit : isLineName (Label.text .exit) = false := by decide
  cases h with
  | empty hlines =>
    rw [hlines]
    simp [LineBasic.lineNames, hentry]
  | lines _ hcode =>
    have hes := hcode.lineNames
    unfold LineBasic.lineNames at *
    simp [hentry, hexit, hes]

end LineNames

-- ============================================================================
-- The function of a module
-- ============================================================================

/-- The function made for a program is a well-formed control-flow graph: no two labels
    are written alike, every jump leads to a label, every block is closed by its
    last instruction, and the labels that name a line are the numbers of the
    program in ascending order. -/
theorem Program.lower_controlFlow (p : Program) (inventory : Inventory) (m : Module)
    (h : (p.lower inventory).outcome = .ok m) :
    (m.labels.map Label.text).Nodup ∧
    (∀ i ∈ m.instrs, ∀ l ∈ i.targets, l ∈ m.labels) ∧
    (m.leading = [] ∧ ∀ b ∈ m.blocks, b.Closed) ∧
    ∃ numbers : List Nat, numbers.Pairwise (· < ·) ∧
      (∀ n, n ∈ numbers ↔ ∃ l ∈ p.lines, l.number = n) ∧
      (m.labels.map Label.text).filter isLineName = numbers.map fun n => s!"line{n}" := by
  have hmain := Program.mainCode_of_lower h
  have hflow := hmain.flow
  obtain ⟨hleading, hblocks⟩ := hflow.cut rfl
  refine ⟨?_, ?_, ⟨hleading, ?_⟩, p.listing.map Line.number, ?_, ?_, ?_⟩
  · have hlabels := hmain.nodup_labels p.nodup_numbers
    exact List.pairwise_map.2 (hlabels.imp fun hne htext => hne (Label.text_injective htext))
  · intro i hi
    exact (hflow.ok_of_mem hi).targets
  · intro b hb
    exact (hblocks b hb).closed
  · exact List.pairwise_map.2 p.ascends_listing
  · intro n
    rw [← p.exists_mem_listing_iff, List.mem_map]
  · rw [List.map_map]
    exact hmain.lineNames

/-- A program whose line 30 is expanded twice, with line 40 expanded inside it, that
    loops, jumps backwards and nowhere, and repeats a number. -/
def Program.tour : Program :=
  let start : Position := ⟨1, 1⟩
  ⟨[⟨40, [.forNext start "I" (.number start 1.0) (.number start 3.0) none
        [.print start (.var start "I")]], start⟩,
    ⟨10, [.gosub start 30, .gosub start 30,
      .ifThen start (.binary start (.compare .gt) (.var start "I") (.number start 2.0)) 10,
      .goto start 99], start⟩,
    ⟨20, [.input start "N", .end_ start], start⟩,
    ⟨30, [.gosub start 40, .return_ start], start⟩,
    ⟨20, [], start⟩]⟩

theorem Program.exists_lower_tour : ∃ m, (tour.lower tour.inventory).outcome = .ok m := by
  have hok : (tour.lower tour.inventory).outcome.isOk = true := by decide +kernel
  cases h : (tour.lower tour.inventory).outcome with
  | ok m => exact ⟨m, rfl⟩
  | error e =>
    rw [h] at hok
    cases hok

theorem Program.controlFlow_tour :
    ∃ m, (tour.lower tour.inventory).outcome = .ok m ∧ (m.labels.map Label.text).Nodup ∧
      ∃ numbers : List Nat, numbers.Pairwise (· < ·) ∧ (∀ n, n ∈ numbers ↔ n ∈ [10, 20, 30, 40]) ∧
        (m.labels.map Label.text).filter isLineName = numbers.map fun n => s!"line{n}" := by
  obtain ⟨m, hm⟩ := exists_lower_tour
  obtain ⟨hnodup, -, -, numbers, hascends, hmem, hlines⟩ := tour.lower_controlFlow _ m hm
  refine ⟨m, hm, hnodup, numbers, hascends, fun n => ?_, hlines⟩
  rw [hmem]
  simp [tour]
  omega

end LineBasic
