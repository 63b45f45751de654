/-
  LineBasic.Ascending

  Finite sets as ascending lists.  Every set has exactly one such list, so two
  sets with the same members are equal (`Ascending.ext_mem`).
-/

namespace LineBasic

/-- A finite set, listed in ascending order and without repetition. -/
structure Ascending (α : Type) [Ord α] where
  toList : List α
  sorted : toList.Pairwise fun a b => compare a b = .lt

namespace Ascending

variable {α : Type} [Ord α]

instance : Membership α (Ascending α) := ⟨fun s a => a ∈ s.toList⟩

instance [DecidableEq α] (a : α) (s : Ascending α) : Decidable (a ∈ s) :=
  inferInstanceAs (Decidable (a ∈ s.toList))

instance [DecidableEq α] : DecidableEq (Ascending α) := fun s t =>
  decidable_of_iff (s.toList = t.toList) (by cases s; cases t; simp)

theorem mem_toList {a : α} {s : Ascending α} : a ∈ s.toList ↔ a ∈ s := Iff.rfl

/-- The set without members. -/
def empty : Ascending α := ⟨[], .nil⟩

@[simp] theorem not_mem_empty (a : α) : a ∉ (empty : Ascending α) := by
  simp [← mem_toList, empty]

/-- How many members a set has. -/
def size (s : Ascending α) : Nat := s.toList.length

-- ============================================================================
-- Insertion
-- ============================================================================

/-- Puts a value into an ascending list, unless it is there already. -/
def insertInto (a : α) : List α → List α
  | [] => [a]
  | b :: bs =>
    match compare a b with
    | .lt => a :: b :: bs
    | .eq => b :: bs
    | .gt => b :: insertInto a bs

theorem mem_insertInto [Std.LawfulEqOrd α] {a x : α} {bs : List α} :
    x ∈ insertInto a bs ↔ x = a ∨ x ∈ bs := by
  induction bs with
  | nil => simp [insertInto]
  | cons b bs ih =>
    unfold insertInto
    split
    · simp
    · next h =>
      have : a = b := Std.LawfulEqOrd.eq_of_compare h
      subst this
      simp
    · rw [List.mem_cons, ih, List.mem_cons]
      grind

theorem sorted_insertInto [Std.TransOrd α] [Std.LawfulEqOrd α] {a : α} {bs : List α}
    (hs : bs.Pairwise fun a b => compare a b = .lt) :
    (insertInto a bs).Pairwise fun a b => compare a b = .lt := by
  induction bs with
  | nil => simp [insertInto]
  | cons b bs ih =>
    rw [List.pairwise_cons] at hs
    obtain ⟨hb, hbs⟩ := hs
    unfold insertInto
    split
    · next h =>
      refine List.pairwise_cons.2 ⟨?_, List.pairwise_cons.2 ⟨hb, hbs⟩⟩
      intro x hx
      rcases List.mem_cons.1 hx with rfl | hx
      · exact h
      · exact Std.TransCmp.lt_trans h (hb x hx)
    · exact List.pairwise_cons.2 ⟨hb, hbs⟩
    · next h =>
      refine List.pairwise_cons.2 ⟨?_, ih hbs⟩
      intro x hx
      rcases mem_insertInto.1 hx with rfl | hx
      · exact Std.OrientedCmp.lt_of_gt h
      · exact hb x hx

variable [Std.TransOrd α] [Std.LawfulEqOrd α]

/-- Adds a member. -/
def insert (a : α) (s : Ascending α) : Ascending α :=
  ⟨insertInto a s.toList, sorted_insertInto s.sorted⟩

@[simp] theorem mem_insert {a x : α} {s : Ascending α} : x ∈ s.insert a ↔ x = a ∨ x ∈ s :=
  mem_insertInto

/-- The set of the values of a list. -/
def ofList (as : List α) : Ascending α := as.foldl (fun s a => s.insert a) empty

theorem mem_foldl_insert {x : α} {as : List α} {s : Ascending α} :
    x ∈ as.foldl (fun s a => s.insert a) s ↔ x ∈ as ∨ x ∈ s := by
  induction as generalizing s with
  | nil => simp
  | cons a as ih =>
    rw [List.foldl_cons, ih, mem_insert, List.mem_cons]
    grind

@[simp] theorem mem_ofList {x : α} {as : List α} : x ∈ ofList as ↔ x ∈ as := by
  rw [ofList, mem_foldl_insert]
  simp

-- ============================================================================
-- Extensionality
-- ============================================================================

theorem eq_of_sorted_of_mem {as bs : List α} (ha : as.Pairwise fun a b => compare a b = .lt)
    (hb : bs.Pairwise fun a b => compare a b = .lt) (h : ∀ x, x ∈ as ↔ x ∈ bs) : as = bs := by
  induction as generalizing bs with
  | nil =>
    cases bs with
    | nil => rfl
    | cons b bs => simpa using (h b).2 (List.mem_cons_self ..)
  | cons a as ih =>
    cases bs with
    | nil => simpa using (h a).1 (List.mem_cons_self ..)
    | cons b bs =>
      rw [List.pairwise_cons] at ha hb
      have hab : a = b := by
        rcases List.mem_cons.1 ((h a).1 (List.mem_cons_self ..)) with hab | hab
        · exact hab
        · rcases List.mem_cons.1 ((h b).2 (List.mem_cons_self ..)) with hba | hba
          · exact hba.symm
          · have h₁ := hb.1 a hab
            have h₂ := Std.OrientedCmp.gt_of_lt (ha.1 b hba)
            rw [h₁] at h₂
            cases h₂
      subst hab
      have hirr : ∀ x, compare a x = .lt → x ≠ a := by
        rintro x hx rfl
        have : compare x x = .eq := Std.ReflCmp.compare_self
        rw [this] at hx
        cases hx
      congr 1
      refine ih ha.2 hb.2 fun x => ?_
      constructor
      · intro hx
        rcases List.mem_cons.1 ((h x).1 (List.mem_cons_of_mem _ hx)) with rfl | hx'
        · exact absurd rfl (hirr _ (ha.1 _ hx))
        · exact hx'
      · intro hx
        rcases List.mem_cons.1 ((h x).2 (List.mem_cons_of_mem _ hx)) with rfl | hx'
        · exact absurd rfl (hirr _ (hb.1 _ hx))
        · exact hx'

/-- Sets with the same members are equal. -/
theorem ext_mem {s t : Ascending α} (h : ∀ x, x ∈ s ↔ x ∈ t) : s = t := by
  have heq := eq_of_sorted_of_mem s.sorted t.sorted h
  cases s
  cases t
  simpa using heq

end Ascending

end LineBasic
