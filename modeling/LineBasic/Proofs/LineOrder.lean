/-
  LineBasic.Proofs.LineOrder

  The order in which numbered lines are written does not matter.  Lowering sees a
  program through its listing, which sorts lines with distinct numbers, and through
  an inventory, which is made of sets.  Checking goes through the lines as they are
  written, but whether one of them passes depends on which lines there are, and not
  on what was met before it.
-/

import LineBasic.Proofs.Collection
import LineBasic.Proofs.Listing
import LineBasic.Proofs.Simplification

namespace LineBasic

-- ============================================================================
-- The listing and the inventory
-- ============================================================================

theorem Ascending.ofList_eq_of_perm {α : Type} [Ord α] [Std.TransOrd α] [Std.LawfulEqOrd α]
    {as bs : List α} (h : as.Perm bs) : ofList as = ofList bs :=
  ext_mem fun x => by rw [mem_ofList, mem_ofList, h.mem_iff]

namespace Program

/-- A line with a new number is added to the lines. -/
theorem place_perm {line : Line} {ls : List Line} (hnew : line.number ∉ ls.map Line.number) :
    (place line ls).Perm (line :: ls) := by
  induction ls with
  | nil => exact .refl _
  | cons l ls ih =>
    rw [List.map_cons, List.mem_cons, not_or] at hnew
    unfold place
    split
    · exact .refl _
    · rw [if_neg hnew.1]
      exact ((ih hnew.2).cons l).trans (.swap line l ls)

/-- Lines with distinct numbers are all added. -/
theorem foldr_place_perm {lines : List Line} (hdistinct : (lines.map Line.number).Nodup) :
    (lines.foldr place []).Perm lines := by
  induction lines with
  | nil => exact .refl _
  | cons line lines ih =>
    rw [List.map_cons, List.nodup_cons] at hdistinct
    have hlines := ih hdistinct.2
    have hnew : line.number ∉ (lines.foldr place []).map Line.number := fun hmem =>
      hdistinct.1 ((hlines.map Line.number).mem_iff.1 hmem)
    exact (place_perm hnew).trans (hlines.cons line)

/-- Lines with distinct numbers all come into the listing. -/
theorem listing_perm {p : Program} (hdistinct : (p.lines.map Line.number).Nodup) :
    p.listing.Perm p.lines := foldr_place_perm hdistinct

/-- Lines have one ascending order only. -/
theorem Ascends.eq_of_perm {ls ms : List Line} (hls : Ascends ls) (hms : Ascends ms)
    (hperm : ls.Perm ms) : ls = ms := by
  refine hperm.eq_of_pairwise (fun l m _ _ hlt hgt => ?_) hls hms
  exact absurd hgt (Nat.not_lt_of_lt hlt)

/-- Two programs with the same lines, in any order, where no two lines share a number. -/
structure Reorders (p q : Program) : Prop where
  perm : p.lines.Perm q.lines
  distinct : (p.lines.map Line.number).Nodup

namespace Reorders

variable {p q : Program}

theorem symm (h : p.Reorders q) : q.Reorders p where
  perm := h.perm.symm
  distinct := (h.perm.map Line.number).nodup_iff.1 h.distinct

theorem mem_numbers_iff (h : p.Reorders q) (n : Nat) :
    n ∈ p.lines.map Line.number ↔ n ∈ q.lines.map Line.number :=
  (h.perm.map Line.number).mem_iff

/-- Simplified lines are reordered as the lines were. -/
theorem simplify (h : p.Reorders q) : p.simplify.Reorders q.simplify where
  perm := h.perm.map Line.simplify
  distinct := by
    have hnumbers : p.simplify.lines.map Line.number = p.lines.map Line.number := by
      rw [Program.simplify, List.map_map]
      exact List.map_congr_left fun l _ => l.number_simplify
    rw [hnumbers]
    exact h.distinct

/-- Reordered programs have one listing, since lines ascend in one way only. -/
theorem listing_eq (h : p.Reorders q) : p.listing = q.listing := by
  have hperm : p.listing.Perm q.listing :=
    (listing_perm h.distinct).trans (h.perm.trans (listing_perm h.symm.distinct).symm)
  exact p.ascends_listing.eq_of_perm q.ascends_listing hperm

theorem inventory_eq (h : p.Reorders q) : p.inventory = q.inventory := by
  rw [inventory, inventory, Ascending.ofList_eq_of_perm (h.perm.flatMap_right _),
    Ascending.ofList_eq_of_perm (h.perm.flatMap_right _),
    Ascending.ofList_eq_of_perm (h.perm.map Line.number)]

/-- Code is made from the listing and an inventory, so it is the same code or the same
    fault, with the same emissions. -/
theorem generate_eq (h : p.Reorders q) (g : Generator) : g.generate p = g.generate q := by
  rw [Generator.generate, Generator.generate, lower, lower, env, env, h.listing_eq, h.inventory_eq]

end Reorders

end Program

-- ============================================================================
-- The check, line by line
-- ============================================================================

open Check

section Congruence

variable {lines lines' : List Nat}

/-- Of the lines of a program, a jump asks only whether its target is one of them. -/
theorem leadItem_congr (h : ∀ n, n ∈ lines ↔ n ∈ lines') : leadItem lines = leadItem lines' := by
  funext jump target pos
  simp only [leadItem, h target]

mutual

/-- A statement uses the lines in its jumps, and nowhere else. -/
theorem Stmt.items_congr (h : leadItem lines = leadItem lines') (s : Stmt) :
    s.items lines = s.items lines' := by
  match s with
  | .goto pos target => rw [items, items, h]
  | .gosub pos target => rw [items, items, h]
  | .ifThen pos c target => rw [items, items, h]
  | .forNext pos x start stop step body => rw [items, items, itemsOfList_congr h body]
  | .assign pos x e | .print pos e | .return_ pos | .input pos x | .end_ pos => rw [items, items]

theorem Stmt.itemsOfList_congr (h : leadItem lines = leadItem lines') (ss : List Stmt) :
    itemsOfList lines ss = itemsOfList lines' ss := by
  match ss with
  | [] => rfl
  | s :: ss => rw [itemsOfList, itemsOfList, items_congr h s, itemsOfList_congr h ss]

end

end Congruence

/-- Nothing stands against lines if nothing stands against any of them. -/
theorem passes_lineItems_iff {lines : List Nat} {strict : Bool} {ls : List Line} :
    (∀ i ∈ lineItems lines ls, i.passes strict = true) ↔
      ∀ l ∈ ls, ∀ i ∈ Stmt.itemsOfList lines l.stmts, i.passes strict = true := by
  induction ls with
  | nil => exact iff_of_true (List.forall_mem_nil _) (List.forall_mem_nil _)
  | cons l ls ih =>
    rw [lineItems, List.forall_mem_cons, List.forall_mem_append, List.forall_mem_cons, ih]
    exact and_iff_right rfl

/-- No number is repeated if the numbers are distinct and none of them was seen before. -/
theorem repeated?_eq_none_iff {seen : List Nat} {ls : List Line} :
    repeated? seen ls = none ↔
      (∀ l ∈ ls, l.number ∉ seen) ∧ (ls.map Line.number).Nodup := by
  induction ls generalizing seen with
  | nil => simp [repeated?]
  | cons l ls ih =>
    rw [repeated?]
    split
    · next hseen => simp [hseen]
    · next hnew =>
      rw [ih, List.map_cons, List.nodup_cons, List.forall_mem_cons]
      grind

namespace Program

/-- A program passes the check if no two of its lines share a number and each of them passes
    among these numbers. -/
theorem check_eq_ok_iff {p : Program} {strict : Bool} :
    (p.check strict).outcome = .ok () ↔
      (p.lines.map Line.number).Nodup ∧
      ∀ l ∈ p.lines, ∀ i ∈ Stmt.itemsOfList (p.lines.map Line.number) l.stmts,
        i.passes strict = true := by
  have hrepeated : repeated? [] p.lines = none ↔ (p.lines.map Line.number).Nodup := by
    simp [repeated?_eq_none_iff]
  rw [← hrepeated, ← passes_lineItems_iff, check_eq_runItems, runItems_eq_ok_iff, items]
  cases repeated? [] p.lines with
  | none => exact (and_iff_right rfl).symm
  | some l => simp [Item.passes]

/-- Reordered programs pass the check together. -/
theorem Reorders.check_eq_ok_iff {p q : Program} (h : p.Reorders q) (strict : Bool) :
    (p.check strict).outcome = .ok () ↔ (q.check strict).outcome = .ok () := by
  have hleads := leadItem_congr h.mem_numbers_iff
  rw [Program.check_eq_ok_iff, Program.check_eq_ok_iff]
  refine and_congr (h.perm.map Line.number).nodup_iff (forall_congr' fun l => ?_)
  rw [h.perm.mem_iff, Stmt.itemsOfList_congr hleads]

end Program

-- ============================================================================
-- Lines in any order
-- ============================================================================

/-- An analyst accepts what passes its check, and finds what the program holds. -/
theorem Analyst.visit_eq_ok_iff {a : Analyst} {p : Program} {found : Inventory} :
    (a.visit p).1.outcome = .ok found ↔
      (p.check a.strict).outcome = .ok () ∧ p.inventory = found := by
  rw [visit_fst]
  cases (p.check a.strict).outcome with
  | error e => simp [Except.map]
  | ok u => simp [Except.map]

namespace Program

/-- Lines with distinct numbers may be written in any order: the same code is made of them or
    the same fault found, from a given inventory or their own, simplified or not; and an analyst
    accepts them in one order if it accepts them in another, with the same inventory. -/
theorem order_immaterial {p q : Program} (hperm : p.lines.Perm q.lines)
    (hdistinct : (p.lines.map Line.number).Nodup) :
    (∀ g : Generator,
      g.generate p = g.generate q ∧ g.generate p.simplify = g.generate q.simplify) ∧
    ∀ (a : Analyst) (found : Inventory),
      (a.visit p).1.outcome = .ok found ↔ (a.visit q).1.outcome = .ok found := by
  have h : p.Reorders q := ⟨hperm, hdistinct⟩
  refine ⟨fun g => ⟨h.generate_eq g, h.simplify.generate_eq g⟩, fun a found => ?_⟩
  rw [Analyst.visit_eq_ok_iff, Analyst.visit_eq_ok_iff, h.check_eq_ok_iff, h.inventory_eq]

/-- A program that jumps back over a subroutine, line by line upwards. -/
def upwards : Program :=
  let start : Position := ⟨1, 1⟩
  ⟨[⟨10, [.gosub start 30], start⟩,
    ⟨20, [.ifThen start (.binary start (.compare .lt) (.var start "X") (.number start 3.0)) 10,
      .end_ start], start⟩,
    ⟨30, [.print start (.text start "NEXT"), .input start "X", .return_ start], start⟩]⟩

/-- The same program, line by line downwards. -/
def downwards : Program := ⟨upwards.lines.reverse⟩

theorem order_immaterial_downwards :
    (upwards.lines.map Line.number = [10, 20, 30] ∧
      downwards.lines.map Line.number = [30, 20, 10]) ∧
    (⟨none⟩ : Generator).generate upwards = (⟨none⟩ : Generator).generate downwards ∧
    ((Analyst.fresh true).visit upwards).1.outcome = .ok upwards.inventory ∧
    ((Analyst.fresh true).visit downwards).1.outcome = .ok upwards.inventory := by
  have himmaterial := order_immaterial (p := upwards) (q := downwards)
    (List.reverse_perm upwards.lines).symm (by decide)
  have hchecked : (upwards.check (Analyst.fresh true).strict).outcome = .ok () := by rfl
  have hvisited := Analyst.visit_eq_ok_iff.2 ⟨hchecked, rfl⟩
  exact ⟨⟨rfl, rfl⟩, (himmaterial.1 ⟨none⟩).1, hvisited, (himmaterial.2 _ _).1 hvisited⟩

end Program

end LineBasic
