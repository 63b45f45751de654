/-
  LineBasic.Proofs.LetterCase

  A text and the same text in capitals, which only the letters from a to z have.  The
  two are cut into segments at the same places: no class of characters that the scanner
  asks about tells a small letter from its capital, keywords are spelt in any case, and a
  backslash takes the character behind it along whatever that stands for.  So the scans
  go in lockstep, and only what stands between quotes can come to something else than its
  capitals.
-/

import LineBasic.Proofs.Dissection
import LineBasic.Proofs.Splicing
import Mathlib.Data.List.Forall2

namespace LineBasic

-- ============================================================================
-- Capitals
-- ============================================================================

/-- A character is its own capital, unless it is a small letter. -/
theorem toUpper_eq_or_isUpper (c : Char) :
    c.toUpper = c ∨ c.isAlpha = true ∧ c.toUpper.isUpper = true := by
  unfold Char.toUpper
  split
  · next h =>
    have hsmall : c.isLower = true :=
      Bool.and_eq_true_iff.2 ⟨decide_eq_true h.1, decide_eq_true h.2⟩
    have hlow : 97 ≤ c.val.toNat := h.1
    have hhigh : c.val.toNat ≤ 122 := h.2
    have hshift : ('A'.val - 'a'.val).toNat = 2 ^ 32 - 32 := by decide
    have hcapital : (c.val + ('A'.val - 'a'.val)).toNat = c.val.toNat - 32 := by
      rw [UInt32.toNat_add, hshift]
      omega
    refine .inr ⟨Bool.or_eq_true_iff.2 (.inr hsmall), decide_eq_true ⟨?_, ?_⟩⟩
    · show 'A'.val ≤ c.val + ('A'.val - 'a'.val)
      rw [UInt32.le_iff_toNat_le, hcapital, show 'A'.val.toNat = 65 from rfl]
      omega
    · show c.val + ('A'.val - 'a'.val) ≤ 'Z'.val
      rw [UInt32.le_iff_toNat_le, hcapital, show 'Z'.val.toNat = 90 from rfl]
      omega
  · exact .inl rfl

/-- What is the same of all letters does not tell a letter from its capital. -/
theorem apply_toUpper {β : Type} {f : Char → β} {b : β}
    (h : ∀ c : Char, c.isAlpha = true → f c = b) (c : Char) : f c.toUpper = f c := by
  rcases toUpper_eq_or_isUpper c with heq | ⟨hletter, hcapital⟩
  · rw [heq]
  · have hletter' : c.toUpper.isAlpha = true := Bool.or_eq_true_iff.2 (.inl hcapital)
    rw [h _ hletter', h _ hletter]

theorem toUpper_toUpper (c : Char) : c.toUpper.toUpper = c.toUpper := by
  rcases toUpper_eq_or_isUpper c with heq | ⟨-, hcapital⟩
  · exact congrArg Char.toUpper heq
  · have hZ : c.toUpper.val ≤ 'Z'.val := (of_decide_eq_true hcapital).2
    refine dif_neg fun h => ?_
    exact absurd (UInt32.le_trans h.1 hZ) (by decide)

/-- A character that is no letter has no lower case. -/
theorem toUpper_eq_iff {d : Char} (hd : d.isAlpha = false) (c : Char) :
    c.toUpper = d ↔ c = d := by
  have h := apply_toUpper (f := fun c => decide (c = d)) (b := false) ?_ c
  · simpa using h
  · intro c hc
    refine decide_eq_false ?_
    rintro rfl
    rw [hc] at hd
    cases hd

theorem isAlpha_toUpper (c : Char) : c.toUpper.isAlpha = c.isAlpha :=
  apply_toUpper (fun _ => id) c

theorem isDigit_toUpper (c : Char) : c.toUpper.isDigit = c.isDigit :=
  apply_toUpper (fun _ => Segment.isDigit_of_isAlpha) c

theorem isBlank_toUpper (c : Char) : isBlank c.toUpper = isBlank c :=
  apply_toUpper (fun _ h => (Segment.plain_of_class h (by decide)).1) c

theorem isWordChar_toUpper (c : Char) : isWordChar c.toUpper = isWordChar c :=
  apply_toUpper (b := true) (fun c h => by simp [isWordChar, Char.isAlphanum, h]) c

theorem notNewline_toUpper (c : Char) : decide (c.toUpper ≠ '\n') = decide (c ≠ '\n') :=
  decide_eq_decide.2 (not_congr (toUpper_eq_iff rfl c))

namespace Symbol

/-- No letter is a symbol. -/
theorem ofChar?_of_isAlpha {c : Char} (h : c.isAlpha = true) : ofChar? c = none := by
  cases hmark : ofChar? c with
  | none => rfl
  | some s =>
    rw [(Segment.not_word_of_ofChar? hmark).2] at h
    cases h

theorem ofChar?_toUpper (c : Char) : ofChar? c.toUpper = ofChar? c :=
  apply_toUpper (fun _ => ofChar?_of_isAlpha) c

/-- No symbol has a letter in it. -/
theorem ofPair?_of_isAlpha {c d : Char} (h : c.isAlpha = true ∨ d.isAlpha = true) :
    ofPair? c d = none := by
  unfold ofPair?
  split
  case h_4 => rfl
  all_goals rcases h with h | h <;> cases h

theorem ofPair?_toUpper (c d : Char) : ofPair? c.toUpper d.toUpper = ofPair? c d := by
  rw [apply_toUpper (f := fun c => ofPair? c d.toUpper) (fun _ h => ofPair?_of_isAlpha (.inl h)) c]
  exact apply_toUpper (f := ofPair? c) (fun _ h => ofPair?_of_isAlpha (.inr h)) d

end Symbol

-- ============================================================================
-- Texts in capitals
-- ============================================================================

section Rows

variable {p : Char → Bool}

theorem takeWhile_upper (h : ∀ c : Char, p c.toUpper = p c) (cs : List Char) :
    (upper cs).takeWhile p = upper (cs.takeWhile p) := by
  rw [upper, List.takeWhile_map, show p ∘ Char.toUpper = p from funext h]
  rfl

theorem dropWhile_upper (h : ∀ c : Char, p c.toUpper = p c) (cs : List Char) :
    (upper cs).dropWhile p = upper (cs.dropWhile p) := by
  rw [upper, List.dropWhile_map, show p ∘ Char.toUpper = p from funext h]
  rfl

end Rows

theorem upper_cons (c : Char) (cs : List Char) : upper (c :: cs) = c.toUpper :: upper cs := rfl

theorem upper_append (cs ds : List Char) : upper (cs ++ ds) = upper cs ++ upper ds :=
  List.map_append

theorem upper_upper (cs : List Char) : upper (upper cs) = upper cs := by
  rw [upper, upper, List.map_map]
  exact congrFun (congrArg List.map (funext toUpper_toUpper)) cs

theorem toUpper_ofList (cs : List Char) :
    (String.ofList cs).toUpper = String.ofList (upper cs) := by
  rw [← String.toList_inj, String.toUpper, String.toList_map, String.toList_ofList,
    String.toList_ofList]
  rfl

/-- A word is the keyword that its capitals are. -/
theorem Keyword.ofWord?_upper (cs : List Char) :
    ofWord? (String.ofList (upper cs)) = ofWord? (String.ofList cs) := by
  refine Option.ext fun k => ?_
  rw [ofWord?_eq_some_iff, ofWord?_eq_some_iff, upper_upper]

theorem Position.advance_toUpper (p : Position) (c : Char) : p.advance c.toUpper = p.advance c := by
  unfold advance
  simp only [toUpper_eq_iff (d := '\n') rfl]

theorem Position.after_upper (p : Position) (cs : List Char) : p.after (upper cs) = p.after cs := by
  induction cs generalizing p with
  | nil => rfl
  | cons c cs ih => rw [upper_cons, after_cons, after_cons, advance_toUpper, ih]

namespace Segment

/-- Two ways in which quotes are closed, or not, at the same place. -/
inductive ClosesAlike : Option (List Char × List Char × List Char) →
    Option (List Char × List Char × List Char) → Prop
  | left_open : ClosesAlike none none
  | closed {raw value value' left : List Char} :
      ClosesAlike (some (raw, value, left)) (some (upper raw, value', upper left))

/-- Texts that close alike do so behind a front of either case. -/
theorem ClosesAlike.map {x y : Option (List Char × List Char × List Char)} (h : ClosesAlike x y)
    (front : List Char) (d d' : Char) :
    ClosesAlike (x.map fun r => (front ++ r.1, d :: r.2.1, r.2.2))
      (y.map fun r => (upper front ++ r.1, d' :: r.2.1, r.2.2)) := by
  cases h with
  | left_open => exact .left_open
  | @closed raw value value' left =>
    have hraw : upper front ++ upper raw = upper (front ++ raw) := (upper_append ..).symm
    rw [Option.map_some, Option.map_some, hraw]
    exact .closed

/-- Quotes are closed at the same place, though what stands between them may differ: a small `n`
    behind a backslash is a line end, a capital one is not. -/
theorem closeQuote?_upper (cs : List Char) :
    ClosesAlike (closeQuote? cs) (closeQuote? (upper cs)) := by
  fun_induction closeQuote? cs with
  | case1 => exact .left_open
  | case2 rest => exact @ClosesAlike.closed ['"'] [] [] rest
  | case3 => exact .left_open
  | case4 c rest ih => exact ih.map ['\\', c] (unescaped c) (unescaped c.toUpper)
  | case5 c rest hquote hend hslash ih =>
    have hplain : c ≠ '\\' := by
      intro hc
      cases rest with
      | nil => exact hend hc rfl
      | cons d rest => exact hslash d rest hc rfl
    have hquote' : c.toUpper ≠ '"' := fun h => hquote ((toUpper_eq_iff rfl c).1 h)
    have hplain' : c.toUpper ≠ '\\' := fun h => hplain ((toUpper_eq_iff rfl c).1 h)
    have hstep : closeQuote? (upper (c :: rest)) = (closeQuote? (upper rest)).map
        fun r => (c.toUpper :: r.1, c.toUpper :: r.2.1, r.2.2) := by
      rw [upper_cons]
      simp [closeQuote?, hplain']
    rw [hstep]
    exact ih.map [c] c c.toUpper

theorem wordOf_upper (c : Char) (rest : List Char) :
    wordOf c.toUpper (upper rest) = upper (wordOf c rest) := by
  rw [wordOf, takeWhile_upper isWordChar_toUpper]
  rfl

theorem digitsOf_upper (c : Char) (rest : List Char) :
    digitsOf c.toUpper (upper rest) = upper (digitsOf c rest) := by
  rw [digitsOf, takeWhile_upper isDigit_toUpper]
  rfl

end Segment

-- ============================================================================
-- Scans in lockstep
-- ============================================================================

/-- The same token in capitals.  Of a string literal only kind and place are the same. -/
structure Token.Capital (t u : Token) : Prop where
  kind : u.kind = t.kind
  pos : u.pos = t.pos
  lexeme : t.kind ≠ .text → u.lexeme = t.lexeme.toUpper

theorem Symbol.toUpper_spelling (s : Symbol) : s.spelling.toUpper = s.spelling := by
  cases s <;> decide +kernel

namespace Segment

variable {pos : Position} {c : Char} {rest left : List Char} {seg : Segment}

/-- Two segments that take the same stretch of text, the second one in capitals. -/
structure Capital (seg seg' : Segment) : Prop where
  raw : seg'.raw = upper seg.raw
  token : ∀ pos, List.Forall₂ Token.Capital (seg.tokenAt pos).toList (seg'.tokenAt pos).toList

theorem Capital.ofToken (raw : List Char) {kind : TokenKind} {lexeme lexeme' : String}
    (h : kind ≠ .text → lexeme' = lexeme.toUpper) :
    Capital ⟨raw, some (kind, lexeme)⟩ ⟨upper raw, some (kind, lexeme')⟩ :=
  ⟨rfl, fun _ => .cons ⟨rfl, rfl, h⟩ .nil⟩

theorem Capital.ofRaw {raw : List Char} {kind : TokenKind} :
    Capital ⟨raw, some (kind, String.ofList raw)⟩
      ⟨upper raw, some (kind, String.ofList (upper raw))⟩ :=
  .ofToken raw fun _ => (toUpper_ofList raw).symm

theorem Capital.silent (raw : List Char) : Capital ⟨raw, none⟩ ⟨upper raw, none⟩ :=
  ⟨rfl, fun _ => .nil⟩

/-- At the front of a text and of its capitals stand segments of one form. -/
theorem Form.capital (h : Form c rest seg left) :
    ∃ seg', Form c.toUpper (upper rest) seg' (upper left) ∧ Capital seg seg' := by
  cases h with
  | blank first =>
    exact ⟨_, .blank ((isBlank_toUpper c).trans first), .silent [c]⟩
  | newline first =>
    exact ⟨_, .newline ((toUpper_eq_iff rfl c).2 first), .ofToken [c] fun _ => by decide +kernel⟩
  | comment first =>
    have hform : Form c.toUpper (upper rest) _ _ := .comment ((toUpper_eq_iff rfl c).2 first)
    rw [takeWhile_upper notNewline_toUpper, dropWhile_upper notNewline_toUpper] at hform
    exact ⟨_, hform, .silent (c :: _)⟩
  | @text raw value left first closed =>
    have hcloses := closeQuote?_upper rest
    rw [closed] at hcloses
    generalize hupper : closeQuote? (upper rest) = found at hcloses
    cases hcloses
    exact ⟨_, .text ((toUpper_eq_iff rfl c).2 first) hupper, .ofToken (c :: raw) (absurd rfl)⟩
  | integer first behind =>
    have hbehind : ((upper rest).dropWhile Char.isDigit).head? ≠ some '.' := by
      rw [dropWhile_upper isDigit_toUpper, upper, List.head?_map]
      intro hdot
      obtain ⟨d, hd, heq⟩ := Option.map_eq_some_iff.1 hdot
      rw [(toUpper_eq_iff rfl d).1 heq] at hd
      exact behind hd
    have hform := Form.integer ((isDigit_toUpper c).trans first) hbehind
    rw [digitsOf_upper, dropWhile_upper isDigit_toUpper] at hform
    exact ⟨_, hform, .ofRaw⟩
  | @decimal left first behind =>
    have hbehind : (upper rest).dropWhile Char.isDigit = '.' :: upper left := by
      rw [dropWhile_upper isDigit_toUpper, behind]
      rfl
    have hform := Form.decimal ((isDigit_toUpper c).trans first) hbehind
    rw [digitsOf_upper, takeWhile_upper isDigit_toUpper, dropWhile_upper isDigit_toUpper] at hform
    have hraw : upper (digitsOf c rest) ++ '.' :: upper (left.takeWhile Char.isDigit) =
        upper (digitsOf c rest ++ '.' :: left.takeWhile Char.isDigit) :=
      (upper_append _ ('.' :: left.takeWhile Char.isDigit)).symm
    rw [hraw] at hform
    exact ⟨_, hform, .ofRaw⟩
  | remark first word =>
    have hword : Keyword.ofWord? (String.ofList (wordOf c.toUpper (upper rest))) = some .rem := by
      rw [wordOf_upper, Keyword.ofWord?_upper, word]
    have hform := Form.remark ((isAlpha_toUpper c).trans first) hword
    rw [wordOf_upper, dropWhile_upper isWordChar_toUpper, takeWhile_upper notNewline_toUpper,
      dropWhile_upper notNewline_toUpper, ← upper_append] at hform
    exact ⟨_, hform, .ofToken _ fun _ => by decide +kernel⟩
  | @keyword k first other word =>
    have hword : Keyword.ofWord? (String.ofList (wordOf c.toUpper (upper rest))) = some k := by
      rw [wordOf_upper, Keyword.ofWord?_upper, word]
    have hform := Form.keyword ((isAlpha_toUpper c).trans first) other hword
    rw [wordOf_upper, dropWhile_upper isWordChar_toUpper] at hform
    exact ⟨_, hform, .ofRaw⟩
  | name first word =>
    have hword : Keyword.ofWord? (String.ofList (wordOf c.toUpper (upper rest))) = none := by
      rw [wordOf_upper, Keyword.ofWord?_upper, word]
    have hform := Form.name ((isAlpha_toUpper c).trans first) hword
    rw [wordOf_upper, dropWhile_upper isWordChar_toUpper] at hform
    exact ⟨_, hform, .ofRaw⟩
  | @pair d left s two mark =>
    subst two
    exact ⟨_, .pair rfl ((Symbol.ofPair?_toUpper c d).trans mark),
      .ofToken [c, d] fun _ => s.toUpper_spelling.symm⟩
  | @single s one mark =>
    have hone : ∀ d ∈ (upper rest).head?, Symbol.ofPair? c.toUpper d = none := by
      rw [upper, List.head?_map]
      intro d hd
      obtain ⟨d', hd', rfl⟩ := Option.map_eq_some_iff.1 hd
      rw [Symbol.ofPair?_toUpper, one d' hd']
    exact ⟨_, .single hone ((Symbol.ofChar?_toUpper c).trans mark),
      .ofToken [c] fun _ => s.toUpper_spelling.symm⟩

/-- Where a text cannot be read, its capitals cannot either. -/
theorem read_upper_of_error {e : ScanError} (h : read pos c rest = .error e) :
    read pos c.toUpper (upper rest) = .error e := by
  rcases read_eq_error_iff.1 h with ⟨rfl, hopen, rfl⟩ | ⟨hstray, rfl⟩
  · have hcloses := closeQuote?_upper rest
    rw [hopen] at hcloses
    generalize hupper : closeQuote? (upper rest) = found at hcloses
    cases hcloses
    exact read_of_open hupper
  · have hsame : c.toUpper = c := by
      rcases toUpper_eq_or_isUpper c with heq | ⟨hletter, -⟩
      · exact heq
      · simp [isStray, hletter] at hstray
    rw [hsame]
    exact read_of_isStray hstray

end Segment

/-- The scans of a text and of its capitals go in lockstep. -/
theorem Scan.run_upper (pos : Position) (cs : List Char) :
    List.Forall₂ Token.Capital (run pos cs).tokens (run pos (upper cs)).tokens ∧
      (run pos (upper cs)).fault = (run pos cs).fault := by
  fun_induction run pos cs with
  | case1 pos =>
    have hend : "".toUpper = "" := by decide +kernel
    rw [upper, List.map_nil, run]
    exact ⟨.cons ⟨rfl, rfl, fun _ => hend.symm⟩ .nil, rfl⟩
  | case2 pos c rest e hread =>
    rw [upper_cons, run_of_error (Segment.read_upper_of_error hread)]
    exact ⟨.nil, rfl⟩
  | case3 pos c rest seg left hread scan ih =>
    obtain ⟨seg', hform, hraw, htoken⟩ := (Segment.read_eq_ok_iff.1 hread).capital
    obtain ⟨htokens, hfault⟩ := ih
    rw [upper_cons, run_of_form hform, hraw, Position.after_upper]
    exact ⟨List.rel_append (htoken pos) htokens, hfault⟩

/-- What two texts come to that differ in the case of letters only. -/
inductive ScansAlike : Except ScanError (List Token) → Except ScanError (List Token) → Prop
  | tokens {ts us : List Token} (tokens : List.Forall₂ Token.Capital ts us) :
      ScansAlike (.ok ts) (.ok us)
  | fault (e : ScanError) : ScansAlike (.error e) (.error e)

/-- Scanning does not mind the case of letters.  A text and its capitals have the same fault, or
    both have tokens, which are of the same kinds and at the same places; and all of them, but
    for string literals, carry the text in capitals. -/
theorem tokenize_toUpper (source : String) :
    ScansAlike (tokenize source) (tokenize source.toUpper) := by
  have hchars : source.toUpper.toList = upper source.toList := by
    rw [String.toUpper, String.toList_map]
    rfl
  obtain ⟨htokens, hfault⟩ := Scan.run_upper .start source.toList
  rw [tokenize, tokenize, Scan.of, Scan.of, hchars, Scan.result, Scan.result, hfault]
  cases (Scan.run .start source.toList).fault with
  | none => exact .tokens htokens
  | some e => exact .fault e

-- String literals are left out for a reason: a capital `N` behind a backslash is no line end.
example :
    (tokenize "Print \"a\\n\"").map (·.map Token.lexeme) = .ok ["Print", "a\n", ""] ∧
    (tokenize "PRINT \"A\\N\"").map (·.map Token.lexeme) = .ok ["PRINT", "AN", ""] := by
  decide +kernel

end LineBasic
