/-
  LineBasic.Proofs.Listing

  The listing of a program: its lines in ascending order, each number once, and of
  several lines with one number the first that was written.
-/

import LineBasic.Program

namespace LineBasic.Program

/-- Lines in ascending order, no number twice. -/
def Ascends (ls : List Line) : Prop := ls.Pairwise fun l m => l.number < m.number

/-- A line that is placed is there, and replaces the one with its number, by induction on the
    lines. -/
theorem mem_place {line l : Line} {ls : List Line} (h : Ascends ls) :
    l ∈ place line ls ↔ l = line ∨ l ∈ ls ∧ l.number ≠ line.number := by
  induction ls with
  | nil => simp [place]
  | cons m ls ih =>
    obtain ⟨hm, hls⟩ := List.pairwise_cons.1 h
    unfold place
    split
    · next hlt =>
      -- All numbers from here on are greater, so no line is replaced.
      have hne : ∀ x ∈ m :: ls, x.number ≠ line.number := by
        intro x hx
        rcases List.mem_cons.1 hx with rfl | hx
        · omega
        · have := hm x hx
          omega
      rw [List.mem_cons]
      exact or_congr_right ⟨fun hl => ⟨hl, hne l hl⟩, And.left⟩
    · split
      · next heq =>
        -- The line with this number is replaced.
        rw [List.mem_cons, List.mem_cons]
        refine or_congr_right ⟨fun hl => ⟨.inr hl, ?_⟩, ?_⟩
        · have := hm l hl
          omega
        · rintro ⟨rfl | hl, hne⟩
          · exact absurd heq.symm hne
          · exact hl
      · next hlt heq =>
        rw [List.mem_cons, ih hls, List.mem_cons]
        constructor
        · rintro (rfl | rfl | ⟨hl, hne⟩)
          · exact .inr ⟨.inl rfl, fun h => heq h.symm⟩
          · exact .inl rfl
          · exact .inr ⟨.inr hl, hne⟩
        · rintro (rfl | ⟨rfl | hl, hne⟩)
          · exact .inr (.inl rfl)
          · exact .inl rfl
          · exact .inr (.inr ⟨hl, hne⟩)

/-- Placing a line keeps the lines in ascending order. -/
theorem ascends_place {line : Line} {ls : List Line} (h : Ascends ls) :
    Ascends (place line ls) := by
  induction ls with
  | nil => simp [place, Ascends]
  | cons m ls ih =>
    obtain ⟨hm, hls⟩ := List.pairwise_cons.1 h
    unfold place
    split
    · next hlt =>
      refine List.pairwise_cons.2 ⟨?_, h⟩
      intro x hx
      rcases List.mem_cons.1 hx with rfl | hx
      · exact hlt
      · exact Nat.lt_trans hlt (hm x hx)
    · split
      · next heq =>
        exact List.pairwise_cons.2 ⟨fun x hx => heq ▸ hm x hx, hls⟩
      · next hlt heq =>
        refine List.pairwise_cons.2 ⟨fun x hx => ?_, ih hls⟩
        rcases (mem_place hls).1 hx with rfl | ⟨hx, -⟩
        · omega
        · exact hm x hx

theorem ascends_foldr_place (lines : List Line) : Ascends (lines.foldr place []) := by
  induction lines with
  | nil => exact List.Pairwise.nil
  | cons line lines ih => exact ascends_place ih

/-- The numbers of a listing ascend. -/
theorem ascends_listing (p : Program) : Ascends p.listing := ascends_foldr_place p.lines

theorem nodup_numbers (p : Program) : (p.listing.map Line.number).Nodup := by
  have hlt : (p.listing.map Line.number).Pairwise (· < ·) :=
    List.pairwise_map.2 p.ascends_listing
  exact hlt.imp fun h => Nat.ne_of_lt h

/-- A line is in the listing if it is the first with its number. -/
theorem mem_listing_iff {p : Program} {l : Line} :
    l ∈ p.listing ↔ p.lines.find? (·.number = l.number) = some l := by
  unfold listing
  induction p.lines with
  | nil => simp
  | cons line lines ih =>
    rw [List.foldr_cons, mem_place (ascends_foldr_place lines), ih, List.find?_cons]
    by_cases hn : line.number = l.number
    · simp [hn, eq_comm]
    · have hne : l ≠ line := fun h => hn (by rw [h])
      have hnum : l.number ≠ line.number := fun h => hn h.symm
      simp [hn, hne, hnum]

/-- The listing holds every number of the program. -/
theorem exists_mem_listing_iff {p : Program} {n : Nat} :
    (∃ l ∈ p.listing, l.number = n) ↔ ∃ l ∈ p.lines, l.number = n := by
  constructor
  · rintro ⟨l, hl, rfl⟩
    exact ⟨l, List.mem_of_find?_eq_some (mem_listing_iff.1 hl), rfl⟩
  · rintro ⟨l, hl, rfl⟩
    have hsome : (p.lines.find? (·.number = l.number)).isSome := by
      rw [List.find?_isSome]
      exact ⟨l, hl, by simp⟩
    obtain ⟨m, hm⟩ := Option.isSome_iff_exists.1 hsome
    have hnum : m.number = l.number := by simpa using List.find?_some hm
    exact ⟨m, mem_listing_iff.2 (by rw [hnum]; exact hm), hnum⟩

end LineBasic.Program
