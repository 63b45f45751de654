/-
  LineBasic.Proofs.Words

  Source texts put together word by word.  A word that is followed by a blank or a line
  end is scanned as one token, whatever the word is and whatever follows; so the tokens
  of a text made of words with blanks between them are the words.
-/

import LineBasic.Proofs.Segments

namespace LineBasic

-- ============================================================================
-- Words
-- ============================================================================

/-- A word of a source text. -/
inductive Word where
  | keyword (k : Keyword)
  | symbol (s : Symbol)
  | name (s : String)
  | numeral (cs : List Char)
  | text (s : String)

/-- Whether a text is the name of a variable or a function: a letter, then letters, digits
    and underscores, and no keyword in any case. -/
def isName (s : String) : Bool :=
  match s.toList with
  | [] => false
  | c :: cs => c.isAlpha && cs.all isWordChar && (Keyword.ofWord? s).isNone

/-- How a character is written between quotes. -/
def escaped (c : Char) : List Char := if c = '"' ∨ c = '\\' then ['\\', c] else [c]

namespace Word

/-- What a word is written with. -/
def chars : Word → List Char
  | keyword k => k.spelling.toList
  | symbol s => s.spelling.toList
  | name s => s.toList
  | numeral cs => cs
  | text s => '"' :: (s.toList.flatMap escaped ++ ['"'])

/-- Whether a word can stand in a text as what it is. -/
def Fits : Word → Prop
  | keyword k => k ≠ .rem
  | symbol _ => True
  | name s => isName s = true
  | numeral cs => ∃ d, Numeral.Writes cs d
  | text _ => True

/-- The kind of token that a word is scanned as. -/
def kind : Word → TokenKind
  | keyword k => .keyword k
  | symbol s => .symbol s
  | name _ => .identifier
  | numeral cs => if '.' ∈ cs then .decimal else .integer
  | text _ => .text

/-- The text of the token that a word is scanned as. -/
def lexeme : Word → String
  | keyword k => k.spelling
  | symbol s => s.spelling
  | name s => s
  | numeral cs => String.ofList cs
  | text s => s

end Word

-- ============================================================================
-- Words are segments
-- ============================================================================

/-- A text that does not go on a word in front of it. -/
def Apart (rest : List Char) : Prop := ∀ c ∈ rest.head?, c = ' ' ∨ c = '\n'

theorem apart_blank (rest : List Char) : Apart (' ' :: rest) :=
  fun _ hc => .inl (Option.some.inj hc).symm

theorem apart_newline (rest : List Char) : Apart ('\n' :: rest) :=
  fun _ hc => .inr (Option.some.inj hc).symm

/-- Nothing apart from a word goes on with a character of words. -/
theorem Apart.not {p : Char → Bool} {rest : List Char} (h : Apart rest) (blank : p ' ' = false)
    (newline : p '\n' = false) : ∀ c ∈ rest.head?, p c = false := by
  intro c hc
  rcases h c hc with rfl | rfl
  · exact blank
  · exact newline

namespace Segment

variable {c : Char} {cs rest : List Char}

theorem wordOf_append (more : ∀ d ∈ cs, isWordChar d = true) (h : Apart rest) :
    wordOf c (cs ++ rest) = c :: cs ∧ (cs ++ rest).dropWhile isWordChar = rest := by
  have hrest := h.not (p := isWordChar) rfl rfl
  exact ⟨congrArg (c :: ·) (takeWhile_run more hrest), dropWhile_run more hrest⟩

/-- A keyword is scanned as a keyword, if what follows is apart. -/
theorem Form.keyword_append {k : Keyword} {s : String} (hs : s.toList = c :: cs)
    (first : c.isAlpha = true) (more : ∀ d ∈ cs, isWordChar d = true) (other : k ≠ .rem)
    (word : Keyword.ofWord? s = some k) (h : Apart rest) :
    Form c (cs ++ rest) ⟨c :: cs, some (.keyword k, s)⟩ rest := by
  obtain ⟨htake, hdrop⟩ := wordOf_append (c := c) more h
  have hlexeme : String.ofList (wordOf c (cs ++ rest)) = s := by
    rw [htake, ← hs, String.ofList_toList]
  have hform : Form c (cs ++ rest) _ _ := .keyword first other (by rw [hlexeme, word])
  rwa [hlexeme, htake, hdrop] at hform

/-- A name is scanned as a name, if what follows is apart. -/
theorem Form.name_append {s : String} (hs : s.toList = c :: cs) (first : c.isAlpha = true)
    (more : ∀ d ∈ cs, isWordChar d = true) (word : Keyword.ofWord? s = none) (h : Apart rest) :
    Form c (cs ++ rest) ⟨c :: cs, some (.identifier, s)⟩ rest := by
  obtain ⟨htake, hdrop⟩ := wordOf_append (c := c) more h
  have hlexeme : String.ofList (wordOf c (cs ++ rest)) = s := by
    rw [htake, ← hs, String.ofList_toList]
  have hform : Form c (cs ++ rest) _ _ := .name first (by rw [hlexeme, word])
  rwa [hlexeme, htake, hdrop] at hform

theorem digitsOf_append (more : AllDigits cs) (h : ∀ d ∈ rest.head?, d.isDigit = false) :
    digitsOf c (cs ++ rest) = c :: cs ∧ (cs ++ rest).dropWhile Char.isDigit = rest :=
  ⟨congrArg (c :: ·) (takeWhile_run more h), dropWhile_run more h⟩

/-- Digits are scanned as an integer, if what follows is apart. -/
theorem Form.integer_append (digits : AllDigits (c :: cs)) (h : Apart rest) :
    Form c (cs ++ rest) ⟨c :: cs, some (.integer, String.ofList (c :: cs))⟩ rest := by
  obtain ⟨first, more⟩ := List.forall_mem_cons.1 digits
  obtain ⟨htake, hdrop⟩ := digitsOf_append (c := c) more (h.not rfl rfl)
  have hform : Form c (cs ++ rest) _ _ := .integer first (by
    rw [hdrop]
    exact fun hdot => by rcases h '.' hdot with hdot | hdot <;> cases hdot)
  rwa [htake, hdrop] at hform

/-- Digits with a dot are scanned as a decimal number. -/
theorem Form.decimal_append {fs : List Char} (digits : AllDigits (c :: cs))
    (fraction : AllDigits fs) (h : Apart rest) :
    Form c (cs ++ '.' :: fs ++ rest)
      ⟨c :: (cs ++ '.' :: fs), some (.decimal, String.ofList (c :: (cs ++ '.' :: fs)))⟩ rest := by
  obtain ⟨first, more⟩ := List.forall_mem_cons.1 digits
  have hrest := h.not (p := Char.isDigit) rfl rfl
  have hdot : ∀ d ∈ ('.' :: (fs ++ rest)).head?, d.isDigit = false := by simp
  obtain ⟨htake, hdrop⟩ := digitsOf_append (c := c) more hdot
  rw [List.append_assoc, List.cons_append]
  have hform : Form c (cs ++ '.' :: (fs ++ rest)) _ _ := .decimal first hdrop
  rw [takeWhile_run fraction hrest, dropWhile_run fraction hrest, htake] at hform
  exact hform

end Segment

/-- A keyword is spelt as a word, and as itself. -/
theorem Keyword.spelling_word (k : Keyword) : ∃ c cs, k.spelling.toList = c :: cs ∧
    c.isAlpha = true ∧ (∀ d ∈ cs, isWordChar d = true) ∧ Keyword.ofWord? k.spelling = some k := by
  cases k <;> exact ⟨_, _, rfl, by decide, List.all_eq_true.1 (by decide), by decide +kernel⟩

/-- A symbol is spelt with one character or with two. -/
theorem Symbol.spelling_marks (s : Symbol) :
    (∃ c, s.spelling.toList = [c] ∧ ofChar? c = some s ∧ ofPair? c ' ' = none ∧
      ofPair? c '\n' = none) ∨ ∃ c d, s.spelling.toList = [c, d] ∧ ofPair? c d = some s := by
  cases s with
  | lessEqual => exact .inr ⟨_, _, rfl, rfl⟩
  | greaterEqual => exact .inr ⟨_, _, rfl, rfl⟩
  | notEqual => exact .inr ⟨_, _, rfl, rfl⟩
  | _ => exact .inl ⟨_, rfl, rfl, rfl, rfl⟩

/-- A name is a word that is no keyword. -/
theorem exists_of_isName {s : String} (h : isName s = true) : ∃ c cs, s.toList = c :: cs ∧
    c.isAlpha = true ∧ (∀ d ∈ cs, isWordChar d = true) ∧ Keyword.ofWord? s = none := by
  unfold isName at h
  split at h
  · cases h
  · next c cs hcs =>
    simp only [Bool.and_eq_true, List.all_eq_true, Option.isNone_iff_eq_none] at h
    exact ⟨c, cs, hcs, h.1.1, h.1.2, h.2⟩

/-- An escaped text between quotes is scanned as that text. -/
theorem Segment.closeQuote?_escaped (cs rest : List Char) :
    closeQuote? (cs.flatMap escaped ++ '"' :: rest) =
      some (cs.flatMap escaped ++ ['"'], cs, rest) := by
  induction cs with
  | nil => rfl
  | cons c cs ih =>
    rw [List.flatMap_cons, List.append_assoc]
    by_cases hquote : c = '"'
    · subst hquote
      simp [escaped, closeQuote?, ih, unescaped]
    by_cases hslash : c = '\\'
    · subst hslash
      simp [escaped, closeQuote?, ih, unescaped]
    · simp [escaped, closeQuote?, ih, hquote, hslash]

/-- A word that fits is a segment of its own in front of what does not go on it. -/
theorem Word.form {w : Word} {rest : List Char} (fits : w.Fits) (h : Apart rest) :
    ∃ c cs, w.chars = c :: cs ∧
      Segment.Form c (cs ++ rest) ⟨w.chars, some (w.kind, w.lexeme)⟩ rest := by
  cases w with
  | keyword k =>
    obtain ⟨c, cs, hcs, first, more, word⟩ := k.spelling_word
    refine ⟨c, cs, hcs, ?_⟩
    rw [Word.chars, hcs]
    exact .keyword_append hcs first more fits word h
  | name s =>
    obtain ⟨c, cs, hcs, first, more, word⟩ := exists_of_isName fits
    refine ⟨c, cs, hcs, ?_⟩
    rw [Word.chars, hcs]
    exact .name_append hcs first more word h
  | symbol s =>
    rcases s.spelling_marks with ⟨c, hc, mark, blank, newline⟩ | ⟨c, d, hcd, mark⟩
    · refine ⟨c, [], hc, ?_⟩
      rw [Word.chars, hc]
      -- A mark of one character must not make a pair with the blank or newline behind it.
      refine .single (fun d hd => ?_) mark
      rcases h d hd with rfl | rfl
      · exact blank
      · exact newline
    · refine ⟨c, [d], hcd, ?_⟩
      rw [Word.chars, hcd]
      exact .pair rfl mark
  | text s =>
    refine ⟨'"', _, rfl, ?_⟩
    have hclosed := Segment.closeQuote?_escaped s.toList rest
    have hform := Segment.Form.text (c := '"') rfl hclosed
    rw [String.ofList_toList] at hform
    simpa [Word.chars, Word.kind, Word.lexeme] using hform
  | numeral cs =>
    obtain ⟨d, writes⟩ := fits
    cases writes with
    | whole digits first =>
      obtain ⟨c, cs, rfl⟩ := List.exists_cons_of_ne_nil first
      have hdot : '.' ∉ c :: cs := fun hmem => absurd (digits '.' hmem) (by decide)
      refine ⟨c, cs, rfl, ?_⟩
      rw [Word.kind, if_neg hdot]
      exact .integer_append digits h
    | @dotted ds fs digits first fraction =>
      obtain ⟨c, cs, rfl⟩ := List.exists_cons_of_ne_nil first
      refine ⟨c, cs ++ '.' :: fs, rfl, ?_⟩
      rw [Word.kind, if_pos (by simp)]
      exact .decimal_append digits fraction h

-- ============================================================================
-- Rows of words
-- ============================================================================

/-- The tokens that a row of words is scanned as, up to where they stand. -/
def Spelt (ws : List Word) (ts : List Token) : Prop :=
  ts.map (fun t => (t.kind, t.lexeme)) = ws.map fun w => (w.kind, w.lexeme)

variable {w : Word} {ws vs : List Word} {ts : List Token}

theorem spelt_nil_iff : Spelt [] ts ↔ ts = [] := List.map_eq_nil_iff

theorem spelt_cons_iff : Spelt (w :: ws) ts ↔
    ∃ t us, ts = t :: us ∧ t.kind = w.kind ∧ t.lexeme = w.lexeme ∧ Spelt ws us := by
  unfold Spelt
  rw [List.map_cons, List.map_eq_cons_iff]
  simp only [Prod.mk.injEq, and_assoc]

theorem spelt_append_iff : Spelt (ws ++ vs) ts ↔
    ∃ us xs, ts = us ++ xs ∧ Spelt ws us ∧ Spelt vs xs := by
  unfold Spelt
  rw [List.map_append, List.map_eq_append_iff]

/-- Words with a blank between them. -/
def spaced (ws : List Word) : List Char := [' '].intercalate (ws.map Word.chars)

/-- Wherever the text `cs` starts, it has tokens, and they are as `good` says. -/
def ScansTo (cs : List Char) (good : List Token → Prop) : Prop :=
  ∀ pos, ∃ ts, Scans pos cs ts ∧ good ts

namespace ScansTo

variable {rest : List Char} {good : List Token → Prop}

theorem nil : ScansTo [] fun ts => ∃ t, ts = [t] ∧ t.kind = .eof :=
  fun pos => ⟨_, .done, ⟨.eof, "", pos⟩, rfl, rfl⟩

theorem blank (h : ScansTo rest good) : ScansTo (' ' :: rest) good := by
  intro pos
  obtain ⟨ts, hscans, hts⟩ := h (pos.after [' '])
  exact ⟨ts, .segment (.blank rfl) hscans, hts⟩

theorem newline (h : ScansTo rest good) :
    ScansTo ('\n' :: rest) fun ts => ∃ t us, ts = t :: us ∧ t.kind = .newline ∧ good us := by
  intro pos
  obtain ⟨ts, hscans, hts⟩ := h (pos.after ['\n'])
  exact ⟨_, .segment (.newline rfl) hscans, ⟨.newline, "\n", pos⟩, ts, rfl, rfl, hts⟩

/-- A word that fits is scanned as its token, and scanning goes on behind it. -/
theorem word (fits : w.Fits) (apart : Apart rest) (h : ScansTo rest good) :
    ScansTo (w.chars ++ rest) fun ts =>
      ∃ t us, ts = t :: us ∧ (t.kind = w.kind ∧ t.lexeme = w.lexeme) ∧ good us := by
  intro pos
  obtain ⟨c, cs, hcs, form⟩ := w.form fits apart
  obtain ⟨ts, hscans, hts⟩ := h (pos.after w.chars)
  refine ⟨_, ?_, ⟨w.kind, w.lexeme, pos⟩, ts, rfl, ⟨rfl, rfl⟩, hts⟩
  rw [hcs, List.cons_append]
  exact .segment form hscans

/-- A row of words is scanned word by word. -/
theorem words (fits : ∀ w ∈ ws, w.Fits) (some_ : ws ≠ []) (apart : Apart rest)
    (h : ScansTo rest good) :
    ScansTo (spaced ws ++ rest) fun ts => ∃ us vs, ts = us ++ vs ∧ Spelt ws us ∧ good vs := by
  induction ws with
  | nil => exact absurd rfl some_
  | cons w ws ih =>
    obtain ⟨hw, hws⟩ := List.forall_mem_cons.1 fits
    cases ws with
    | nil =>
      intro pos
      rw [spaced, List.map_singleton, List.intercalate_singleton]
      obtain ⟨_, hscans, t, us, rfl, hface, hus⟩ := h.word hw apart pos
      exact ⟨_, hscans, [t], us, rfl, spelt_cons_iff.2 ⟨t, [], rfl, hface.1, hface.2, rfl⟩, hus⟩
    | cons v ws =>
      intro pos
      have hmore := (ih hws (List.cons_ne_nil _ _)).blank
      have htext : spaced (w :: v :: ws) ++ rest =
          w.chars ++ ' ' :: (spaced (v :: ws) ++ rest) := by
        simp [spaced, List.intercalate_cons_cons]
      rw [htext]
      obtain ⟨_, hscans, t, _, rfl, hface, us, xs, rfl, hus, hxs⟩ :=
        hmore.word hw (apart_blank _) pos
      exact ⟨_, hscans, t :: us, xs, rfl,
        spelt_cons_iff.2 ⟨t, us, rfl, hface.1, hface.2, hus⟩, hxs⟩

end ScansTo

end LineBasic
