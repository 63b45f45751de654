/-
  LineBasic.Proofs.Numerals

  Numerals of source texts and what they write.  A numeral is a row of digits, perhaps
  with one dot behind its first digit; `Numeral.Writes` says which decimal number it
  stands for.  Reading a numeral as a double never fails and gives the double nearest
  to that number.
-/

import LineBasic.Numeral
import Mathlib.Data.List.TakeWhile

namespace LineBasic

-- ============================================================================
-- Runs of characters
-- ============================================================================

section Runs

variable {α : Type} {p : α → Bool} {as rest : List α}

theorem takeWhile_run (h : ∀ a ∈ as, p a = true) (hrest : ∀ a ∈ rest.head?, p a = false) :
    (as ++ rest).takeWhile p = as := by
  rw [List.takeWhile_append_of_pos h]
  cases rest with
  | nil => simp
  | cons a rest => simp [hrest a rfl]

theorem dropWhile_run (h : ∀ a ∈ as, p a = true) (hrest : ∀ a ∈ rest.head?, p a = false) :
    (as ++ rest).dropWhile p = rest := by
  rw [List.dropWhile_append_of_pos h]
  cases rest with
  | nil => rfl
  | cons a rest => simp [hrest a rfl]

end Runs

/-- A row of digits. -/
def AllDigits (cs : List Char) : Prop := ∀ c ∈ cs, c.isDigit = true

theorem AllDigits.takeWhile {cs : List Char} (h : AllDigits cs) :
    cs.takeWhile Char.isDigit = cs := List.takeWhile_eq_self_iff.2 h

theorem AllDigits.dropWhile {cs : List Char} (h : AllDigits cs) :
    cs.dropWhile Char.isDigit = [] := List.dropWhile_eq_nil_iff.2 h

-- ============================================================================
-- What numerals write
-- ============================================================================

namespace Numeral

/-- The decimal number that a numeral writes. -/
inductive Writes : List Char → Decimal → Prop
  | whole {ds : List Char} (digits : AllDigits ds) (first : ds ≠ []) :
      Writes ds ⟨Decimal.ofDigits ds, 0⟩
  | dotted {ds fs : List Char} (digits : AllDigits ds) (first : ds ≠ []) (fraction : AllDigits fs) :
      Writes (ds ++ '.' :: fs) ⟨Decimal.ofDigits (ds ++ fs), -(fs.length : Int)⟩

/-- The double that a numeral stands for. -/
def Denotes (cs : List Char) (x : Float) : Prop := ∃ d, Writes cs d ∧ x = d.toFloat

variable {cs : List Char} {d : Decimal}

/-- A numeral starts with a digit. -/
theorem Writes.exists_cons (h : Writes cs d) : ∃ c rest, cs = c :: rest ∧ c.isDigit = true := by
  cases h with
  | whole digits first =>
    obtain ⟨c, rest, rfl⟩ := List.exists_cons_of_ne_nil first
    exact ⟨c, rest, rfl, digits c (List.mem_cons_self ..)⟩
  | dotted digits first _ =>
    obtain ⟨c, rest, rfl⟩ := List.exists_cons_of_ne_nil first
    exact ⟨c, _, rfl, digits c (List.mem_cons_self ..)⟩

/-- A numeral is read as the decimal it writes. -/
theorem Writes.decimal? (h : Writes cs d) : Numeral.decimal? cs = some d := by
  unfold Numeral.decimal?
  cases h with
  | whole digits first => simp [digits.takeWhile, digits.dropWhile, first, exponent?]
  | dotted digits first fraction =>
    rw [takeWhile_run digits (by simp), dropWhile_run digits (by simp)]
    simp [fraction.takeWhile, fraction.dropWhile, first, exponent?]

/-- A digit is no sign. -/
theorem takeSign_of_isDigit {c : Char} {rest : List Char} (h : c.isDigit = true) :
    takeSign (c :: rest) = (false, c :: rest) := by
  unfold takeSign
  split
  · next heq => simp_all
  · next heq => simp_all
  · rfl

/-- A digit has no case. -/
theorem toLower_of_isDigit {c : Char} (h : c.isDigit = true) : c.toLower = c := by
  have hle : c.val ≤ '9'.val := by
    simp only [Char.isDigit, Bool.and_eq_true, decide_eq_true_eq] at h
    exact h.2
  refine dif_neg fun hupper => ?_
  have hgt : ¬ 'A'.val ≤ '9'.val := by decide
  exact hgt (UInt32.le_trans hupper.1 hle)

/-- A text that starts with a digit is none of the words for what is not finite. -/
theorem magnitude?_of_isDigit {c : Char} {rest : List Char} (h : c.isDigit = true) :
    magnitude? (c :: rest) = (Numeral.decimal? (c :: rest)).map Decimal.toFloat := by
  have hword : ∀ d ds, d.isDigit = false →
      String.ofList ((c :: rest).map Char.toLower) ≠ String.ofList (d :: ds) := by
    intro d ds hd heq
    have hhead := (List.cons.inj (String.ofList_injective heq)).1
    rw [toLower_of_isDigit h] at hhead
    rw [hhead, hd] at h
    cases h
  unfold magnitude?
  rw [if_neg (not_or.2 ⟨hword 'i' ['n', 'f'] rfl, hword 'i' _ rfl⟩), if_neg (hword 'n' _ rfl)]

/-- A numeral is read as the double nearest to the number it writes. -/
theorem Writes.double? {text : String} (h : Writes text.toList d) :
    Numeral.double? text = some d.toFloat := by
  obtain ⟨c, rest, hcs, hc⟩ := h.exists_cons
  have hmagnitude : magnitude? text.toList = some d.toFloat := by
    rw [hcs, magnitude?_of_isDigit hc, ← hcs, h.decimal?]
    rfl
  unfold Numeral.double?
  rw [hcs, takeSign_of_isDigit hc, ← hcs]
  simp [hmagnitude]

/-- A row of digits is read as a line number exactly if the number is within bounds. -/
theorem lineNumber?_eq_some_iff {text : String} {n : Nat} (digits : AllDigits text.toList)
    (first : text.toList ≠ []) :
    lineNumber? text = some n ↔ n = Decimal.ofDigits text.toList ∧ n ≤ lineNumberMax := by
  have hall : text.toList.all Char.isDigit = true := List.all_eq_true.2 digits
  have hread : lineNumber? text = if Decimal.ofDigits text.toList ≤ lineNumberMax
      then some (Decimal.ofDigits text.toList) else none := by
    unfold lineNumber?
    dsimp only
    split
    · next heq => exact absurd (digits '+' (heq ▸ List.mem_cons_self ..)) (by decide)
    · simp only [ne_eq, first, not_false_eq_true, hall, true_and]
  rw [hread]
  grind

end Numeral

end LineBasic
