/-
  LineBasic.Proofs.LabelText

  Labels are written without ambiguity.  A label is a root (the entry, the exit or
  a line) and a path of numbered parts below it.  Its text ends in the number of
  the last part; in front of that number stands the word of the part, and in front
  of the word the text of the owner.  No word can be mistaken for the end of
  another one, because no text of an owner ends like `_gosub`.
-/

import LineBasic.Code.Label

namespace LineBasic.Label

-- ============================================================================
-- Parts
-- ============================================================================

/-- What a numbered block is to its owner. -/
inductive Part where
  | decided
  | loopTest
  | loopBody
  | loopStep
  | loopEnd
  | subStart
  | subEnd
  | subLine
deriving DecidableEq

/-- The word for a part. -/
def Part.word : Part → String
  | decided => "_cont"
  | loopTest => "_for_cond"
  | loopBody => "_for_body"
  | loopStep => "_for_inc"
  | loopEnd => "_for_end"
  | subStart => "_gosub_entry"
  | subEnd => "_gosub_cont"
  | subLine => "_n"

/-- The label of a numbered part of `owner`. -/
def part (owner : Label) (p : Part) (k : Nat) : Label :=
  match p with
  | .decided => .decided owner k
  | .loopTest => .loopTest owner k
  | .loopBody => .loopBody owner k
  | .loopStep => .loopStep owner k
  | .loopEnd => .loopEnd owner k
  | .subStart => .subStart owner k
  | .subEnd => .subEnd owner k
  | .subLine => .subLine owner k

/-- Every label is a root or a part of another label. -/
theorem rec_part {motive : Label → Prop} (entry : motive .entry) (exit : motive .exit)
    (line : ∀ n, motive (.line n))
    (part : ∀ owner p k, motive owner → motive (owner.part p k)) (l : Label) : motive l := by
  induction l with
  | entry => exact entry
  | exit => exact exit
  | line n => exact line n
  | decided o k ih => exact part o .decided k ih
  | loopTest o k ih => exact part o .loopTest k ih
  | loopBody o k ih => exact part o .loopBody k ih
  | loopStep o k ih => exact part o .loopStep k ih
  | loopEnd o k ih => exact part o .loopEnd k ih
  | subStart o k ih => exact part o .subStart k ih
  | subEnd o k ih => exact part o .subEnd k ih
  | subLine o k ih => exact part o .subLine k ih

-- ============================================================================
-- Characters of labels
-- ============================================================================

/-- The label of a line is a word and the digits of its number. -/
theorem toList_text_line (n : Nat) :
    (text (.line n)).toList = "line".toList ++ Nat.toDigits 10 n := by
  show (toString "line" ++ toString n).toList = _
  rw [String.toList_append]
  simp
  rfl

/-- The label of a part is its owner's, the word of the part and digits. -/
theorem toList_text_part (owner : Label) (p : Part) (k : Nat) :
    (text (owner.part p k)).toList
      = owner.text.toList ++ (p.word.toList ++ Nat.toDigits 10 k) := by
  have htext : text (owner.part p k) = toString owner.text ++ toString p.word ++ toString k := by
    cases p <;> rfl
  rw [htext]
  simp
  rfl

-- ============================================================================
-- Numbers at the end
-- ============================================================================

/-- The last character is there and is no digit. -/
def EndsPlain (cs : List Char) : Prop := ∃ c, cs.getLast? = some c ∧ c.isDigit = false

theorem isDigit_of_mem_digits {c : Char} {n : Nat} (h : c ∈ Nat.toDigits 10 n) :
    c.isDigit = true :=
  Nat.isDigit_of_mem_toDigits (by decide) (by decide) h

theorem digits_inj {m n : Nat} (h : Nat.toDigits 10 m = Nat.toDigits 10 n) : m = n := by
  rw [← Nat.ofDigitChars_ten_toDigits (n := m), h, Nat.ofDigitChars_ten_toDigits]

theorem EndsPlain.append {cs : List Char} (h : EndsPlain cs) (bs : List Char) :
    EndsPlain (bs ++ cs) := by
  obtain ⟨c, hc, hplain⟩ := h
  exact ⟨c, by rw [List.getLast?_append, hc]; rfl, hplain⟩

/-- Taking digits off the end stops where the plain text starts. -/
theorem dropDigits_append {cs ds : List Char} (hcs : EndsPlain cs)
    (hds : ∀ c ∈ ds, c.isDigit = true) :
    (cs ++ ds).reverse.dropWhile Char.isDigit = cs.reverse := by
  obtain ⟨c, hc, hplain⟩ := hcs
  obtain ⟨bs, rfl⟩ := List.getLast?_eq_some_iff.1 hc
  rw [List.reverse_append, List.dropWhile_append_of_pos (by simpa using hds)]
  simp [hplain]

/-- A plain text and a number behind it can be told apart. -/
theorem append_digits_inj {as bs ds es : List Char} (ha : EndsPlain as) (hb : EndsPlain bs)
    (hds : ∀ c ∈ ds, c.isDigit = true) (hes : ∀ c ∈ es, c.isDigit = true)
    (h : as ++ ds = bs ++ es) : as = bs ∧ ds = es := by
  have hrev : as.reverse = bs.reverse := by
    rw [← dropDigits_append ha hds, ← dropDigits_append hb hes, h]
  have hab : as = bs := List.reverse_inj.1 hrev
  subst hab
  exact ⟨rfl, List.append_cancel_left h⟩

-- ============================================================================
-- Words
-- ============================================================================

theorem Part.endsPlain_word (p : Part) : EndsPlain p.word.toList := by
  cases p <;> exact ⟨_, rfl, rfl⟩

theorem Part.underscore_mem_word (p : Part) : '_' ∈ p.word.toList := by
  cases p <;> decide

/-- No label ends like the word for a subroutine without its last part. -/
theorem getLast?_text (l : Label) : l.text.toList.getLast? ≠ some 'b' := by
  have hdigits : ∀ (cs : List Char) (n : Nat),
      (cs ++ Nat.toDigits 10 n).getLast? ≠ some 'b' := by
    intro cs n h
    rw [List.getLast?_append, List.getLast?_eq_some_getLast Nat.toDigits_ne_nil] at h
    have hlast : (Nat.toDigits 10 n).getLast Nat.toDigits_ne_nil = 'b' := by simpa using h
    have hdigit := isDigit_of_mem_digits (List.getLast_mem (Nat.toDigits_ne_nil (n := n)))
    rw [hlast] at hdigit
    exact absurd hdigit (by decide)
  induction l using rec_part with
  | entry => decide
  | exit => decide
  | line n =>
    rw [toList_text_line]
    exact hdigits _ _
  | part owner p k _ =>
    rw [toList_text_part, ← List.append_assoc]
    exact hdigits _ _

/-- The word at the end tells the part, if what is in front of it is a label. -/
theorem append_word_inj {as bs : List Char} {p q : Part} (ha : as.getLast? ≠ some 'b')
    (hb : bs.getLast? ≠ some 'b') (h : as ++ p.word.toList = bs ++ q.word.toList) :
    as = bs ∧ p = q := by
  have hrev := congrArg List.reverse h
  rw [List.reverse_append, List.reverse_append] at hrev
  -- Read backwards, two different words differ before either of them ends, except
  -- that `_cont` may be the end of `_gosub_cont`.
  cases p <;> cases q <;> simp [Part.word] at hrev ⊢
  case decided.subEnd =>
    rw [hrev] at ha
    simp at ha
  case subEnd.decided =>
    rw [← List.head?_reverse, ← hrev, List.head?_cons] at hb
    exact hb rfl
  all_goals exact hrev

-- ============================================================================
-- Texts
-- ============================================================================

/-- Only the entry and the exit have no number at the end. -/
theorem endsPlain_text {l : Label} (h : EndsPlain l.text.toList) : l = .entry ∨ l = .exit := by
  have hdigits : ∀ (cs : List Char) (n : Nat), EndsPlain cs →
      ¬ EndsPlain (cs ++ Nat.toDigits 10 n) := by
    intro cs n hcs hall
    have hsplit := append_digits_inj hall hcs (List.forall_mem_nil _)
      (fun c hc => isDigit_of_mem_digits hc) (List.append_nil _)
    exact Nat.toDigits_ne_nil hsplit.2.symm
  induction l using rec_part with
  | entry => exact .inl rfl
  | exit => exact .inr rfl
  | line n =>
    rw [toList_text_line] at h
    exact absurd h (hdigits _ _ ⟨'e', rfl, rfl⟩)
  | part owner p k _ =>
    rw [toList_text_part, ← List.append_assoc] at h
    exact absurd h (hdigits _ _ (p.endsPlain_word.append _))

theorem underscore_mem_text_part (owner : Label) (p : Part) (k : Nat) :
    '_' ∈ (text (owner.part p k)).toList := by
  rw [toList_text_part]
  exact List.mem_append_right _ (List.mem_append_left _ p.underscore_mem_word)

theorem underscore_not_mem_text_line (n : Nat) : '_' ∉ (text (.line n)).toList := by
  rw [toList_text_line, List.mem_append, not_or]
  exact ⟨by decide, Nat.underscore_not_in_toDigits⟩

theorem line_inj_of_text {m n : Nat} (h : text (.line m) = text (.line n)) : m = n := by
  have hlist := congrArg String.toList h
  rw [toList_text_line, toList_text_line] at hlist
  exact digits_inj (List.append_cancel_left hlist)

/-- Parts with the same label have the same owner's label, word and number: the digits at the
    end are taken off first, then the word. -/
theorem part_inj_of_text {o o' : Label} {p q : Part} {j k : Nat}
    (h : text (o.part p j) = text (o'.part q k)) : o.text = o'.text ∧ p = q ∧ j = k := by
  have hlist := congrArg String.toList h
  rw [toList_text_part, toList_text_part, ← List.append_assoc, ← List.append_assoc] at hlist
  obtain ⟨hword, hdigits⟩ := append_digits_inj (p.endsPlain_word.append _)
    (q.endsPlain_word.append _) (fun c hc => isDigit_of_mem_digits hc)
    (fun c hc => isDigit_of_mem_digits hc) hlist
  obtain ⟨htext, rfl⟩ := append_word_inj o.getLast?_text o'.getLast?_text hword
  exact ⟨String.toList_inj.1 htext, rfl, digits_inj hdigits⟩

/-- Labels that are written alike are the same. -/
theorem text_injective : Function.Injective text := by
  have hentry : EndsPlain (text .entry).toList := ⟨'y', rfl, rfl⟩
  have hexit : EndsPlain (text .exit).toList := ⟨'t', rfl, rfl⟩
  have hdiff : text .entry ≠ text .exit := by decide
  -- The two fixed labels end in a letter, those of lines have no underscore, those of parts have
  -- one.
  intro l
  induction l using rec_part with
  | entry =>
    intro l' h
    rcases endsPlain_text (h ▸ hentry) with rfl | rfl
    · rfl
    · exact absurd h hdiff
  | exit =>
    intro l' h
    rcases endsPlain_text (h ▸ hexit) with rfl | rfl
    · exact absurd h.symm hdiff
    · rfl
  | line n =>
    intro l' h
    induction l' using rec_part with
    | entry => rcases endsPlain_text (h ▸ hentry) with h | h <;> cases h
    | exit => rcases endsPlain_text (h ▸ hexit) with h | h <;> cases h
    | line m => rw [line_inj_of_text h]
    | part o q j _ =>
      exact absurd (h ▸ underscore_mem_text_part o q j) (underscore_not_mem_text_line n)
  | part owner p k ih =>
    intro l' h
    induction l' using rec_part with
    | entry => rcases endsPlain_text (h ▸ hentry) with h | h <;> cases p <;> cases h
    | exit => rcases endsPlain_text (h ▸ hexit) with h | h <;> cases p <;> cases h
    | line m =>
      exact absurd (h ▸ underscore_mem_text_part owner p k) (underscore_not_mem_text_line m)
    | part o q j _ =>
      obtain ⟨htext, rfl, rfl⟩ := part_inj_of_text h
      rw [ih htext]

end LineBasic.Label
