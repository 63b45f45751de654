/-
  LineBasic.Token.Scan

  From characters to tokens.  A source text is cut into segments: a blank, an
  apostrophe comment, or the raw text of one token.  Every segment takes at
  least one character, and what a segment takes and what it leaves make up the
  text it was read from (`Segment.read?_append`).

  The scan keeps the tokens before a fault, so a journal of the tokens is the
  same whether or not the rest of the text can be read.
-/

import LineBasic.Token

namespace LineBasic

-- ============================================================================
-- Faults
-- ============================================================================

/-- Why a text has no tokens. -/
inductive ScanError where
  | unexpectedChar (char : Char) (pos : Position)
  | unterminatedString (pos : Position)
deriving DecidableEq, Repr

namespace ScanError

/-- Where the fault lies. -/
def pos : ScanError → Position
  | unexpectedChar _ p => p
  | unterminatedString p => p

/-- The fault in words. -/
def message : ScanError → String
  | unexpectedChar c p => s!"Unexpected character '{c}' at {p.text}"
  | unterminatedString p => s!"Unterminated string literal at line {p.line}"

end ScanError

-- ============================================================================
-- Character classes
-- ============================================================================

/-- Characters that separate tokens and stand for nothing. -/
def isBlank (c : Char) : Bool := c = ' ' || c = '\t' || c = '\r'

/-- Characters of a word after its first letter. -/
def isWordChar (c : Char) : Bool := c.isAlphanum || c = '_'

/-- What a backslash and `c` stand for inside a string. -/
def unescaped (c : Char) : Char :=
  if c = 'n' then '\n' else if c = 't' then '\t' else c

-- ============================================================================
-- Segments
-- ============================================================================

/-- A stretch of source text and what it stands for, if it stands for a token. -/
structure Segment where
  raw : List Char
  token : Option (TokenKind × String)

namespace Segment

/-- The raw text up to and including the closing quote, what it stands for, and
    what is left after it.  `none` when the text ends first. -/
def closeQuote? : List Char → Option (List Char × List Char × List Char)
  | [] => none
  | '"' :: rest => some (['"'], [], rest)
  | ['\\'] => none
  | '\\' :: c :: rest =>
    (closeQuote? rest).map fun (raw, value, left) => ('\\' :: c :: raw, unescaped c :: value, left)
  | c :: rest => (closeQuote? rest).map fun (raw, value, left) => (c :: raw, c :: value, left)

/-- The rest of a number after its first digit: digits, and at most one dot with
    the digits behind it. -/
def numberTail (cs : List Char) : List Char × TokenKind × List Char :=
  let whole := cs.takeWhile Char.isDigit
  match cs.dropWhile Char.isDigit with
  | '.' :: rest =>
    (whole ++ '.' :: rest.takeWhile Char.isDigit, .decimal, rest.dropWhile Char.isDigit)
  | rest => (whole, .integer, rest)

/-- The segment of a word: a comment to the end of the line after REM, which
    counts as the line's end, a keyword, or a name. -/
def ofWord (word rest : List Char) : Segment × List Char :=
  match Keyword.ofWord? (String.ofList word) with
  | some .rem =>
    (⟨word ++ rest.takeWhile (· ≠ '\n'), some (.newline, "\n")⟩, rest.dropWhile (· ≠ '\n'))
  | some k => (⟨word, some (.keyword k, String.ofList word)⟩, rest)
  | none => (⟨word, some (.identifier, String.ofList word)⟩, rest)

/-- The segment of an operator or a punctuation mark; two characters are taken
    together whenever they spell a symbol. -/
def ofSymbol? (c : Char) : List Char → Option (Segment × List Char)
  | d :: rest =>
    match Symbol.ofPair? c d with
    | some s => some (⟨[c, d], some (.symbol s, s.spelling)⟩, rest)
    | none => (Symbol.ofChar? c).map fun s => (⟨[c], some (.symbol s, s.spelling)⟩, d :: rest)
  | [] => (Symbol.ofChar? c).map fun s => (⟨[c], some (.symbol s, s.spelling)⟩, [])

/-- The first segment of `c :: rest`, which starts at `pos`, and what it leaves. -/
def read (pos : Position) (c : Char) (rest : List Char) :
    Except ScanError (Segment × List Char) :=
  if isBlank c then .ok (⟨[c], none⟩, rest)
  else if c = '\n' then .ok (⟨[c], some (.newline, "\n")⟩, rest)
  else if c = '\'' then
    .ok (⟨c :: rest.takeWhile (· ≠ '\n'), none⟩, rest.dropWhile (· ≠ '\n'))
  else if c = '"' then
    match closeQuote? rest with
    | some (raw, value, left) => .ok (⟨c :: raw, some (.text, String.ofList value)⟩, left)
    | none => .error (.unterminatedString pos)
  else if c.isDigit then
    let (tail, kind, left) := numberTail rest
    .ok (⟨c :: tail, some (kind, String.ofList (c :: tail))⟩, left)
  else if c.isAlpha then
    .ok (ofWord (c :: rest.takeWhile isWordChar) (rest.dropWhile isWordChar))
  else
    match ofSymbol? c rest with
    | some found => .ok found
    | none => .error (.unexpectedChar c pos)

-- ----------------------------------------------------------------------------
-- A segment and its rest make up the text
-- ----------------------------------------------------------------------------

theorem closeQuote?_append {cs raw value left : List Char}
    (h : closeQuote? cs = some (raw, value, left)) : raw ++ left = cs := by
  fun_induction closeQuote? cs generalizing raw value left with
  | case1 => simp at h
  | case2 rest =>
    simp only [Option.some.injEq, Prod.mk.injEq] at h
    obtain ⟨rfl, -, rfl⟩ := h
    rfl
  | case3 => simp at h
  | case4 c rest ih =>
    obtain ⟨⟨r, v, l⟩, hr, heq⟩ := Option.map_eq_some_iff.1 h
    simp only [Prod.mk.injEq] at heq
    obtain ⟨rfl, -, rfl⟩ := heq
    simp [ih hr]
  | case5 c rest _ _ _ ih =>
    obtain ⟨⟨r, v, l⟩, hr, heq⟩ := Option.map_eq_some_iff.1 h
    simp only [Prod.mk.injEq] at heq
    obtain ⟨rfl, -, rfl⟩ := heq
    simp [ih hr]

theorem numberTail_append (cs : List Char) :
    (numberTail cs).1 ++ (numberTail cs).2.2 = cs := by
  unfold numberTail
  split
  · next rest h =>
    simp only [List.append_assoc, List.cons_append, List.takeWhile_append_dropWhile]
    rw [← h, List.takeWhile_append_dropWhile]
  · exact List.takeWhile_append_dropWhile

theorem ofWord_append (word rest : List Char) :
    (ofWord word rest).1.raw ++ (ofWord word rest).2 = word ++ rest := by
  unfold ofWord
  split <;> simp

theorem prefix_ofWord_raw (word rest : List Char) : word <+: (ofWord word rest).1.raw := by
  unfold ofWord
  split <;> simp

theorem ofSymbol?_append {c : Char} {rest left : List Char} {seg : Segment}
    (h : ofSymbol? c rest = some (seg, left)) : seg.raw ++ left = c :: rest ∧ seg.raw ≠ [] := by
  unfold ofSymbol? at h
  split at h
  · split at h
    · simp only [Option.some.injEq, Prod.mk.injEq] at h
      obtain ⟨rfl, rfl⟩ := h
      simp
    · obtain ⟨s, -, heq⟩ := Option.map_eq_some_iff.1 h
      simp only [Prod.mk.injEq] at heq
      obtain ⟨rfl, rfl⟩ := heq
      simp
  · obtain ⟨s, -, heq⟩ := Option.map_eq_some_iff.1 h
    simp only [Prod.mk.injEq] at heq
    obtain ⟨rfl, rfl⟩ := heq
    simp

/-- A segment takes at least one character, and it and its rest make up the text
    it was read from. -/
theorem read_append {pos : Position} {c : Char} {rest left : List Char} {seg : Segment}
    (h : read pos c rest = .ok (seg, left)) : seg.raw ++ left = c :: rest ∧ seg.raw ≠ [] := by
  unfold read at h
  split at h
  · cases h; simp
  split at h
  · cases h; simp
  split at h
  · cases h; simp
  split at h
  · split at h
    · next hq => cases h; simp [closeQuote?_append hq]
    · cases h
  split at h
  · simp only [Except.ok.injEq, Prod.mk.injEq] at h
    obtain ⟨rfl, rfl⟩ := h
    simp [numberTail_append]
  split at h
  · simp only [Except.ok.injEq, Prod.ext_iff] at h
    obtain ⟨rfl, rfl⟩ := h
    constructor
    · rw [ofWord_append]; simp
    · have hp := prefix_ofWord_raw (c :: rest.takeWhile isWordChar) (rest.dropWhile isWordChar)
      intro hnil
      simp [hnil] at hp
  · split at h
    · next found hs => cases h; exact ofSymbol?_append hs
    · cases h

theorem length_read_lt {pos : Position} {c : Char} {rest left : List Char} {seg : Segment}
    (h : read pos c rest = .ok (seg, left)) : left.length < (c :: rest).length := by
  obtain ⟨heq, hne⟩ := read_append h
  rw [← heq, List.length_append]
  have := List.length_pos_iff.2 hne
  omega

/-- The token of a segment that starts at `pos`, if it has one. -/
def tokenAt (seg : Segment) (pos : Position) : Option Token :=
  seg.token.map fun (kind, lexeme) => ⟨kind, lexeme, pos⟩

end Segment

-- ============================================================================
-- Scans
-- ============================================================================

/-- What scanning a text came to: the tokens read, and the fault that stopped
    the scan, if one did. -/
structure Scan where
  tokens : List Token
  fault : Option ScanError

namespace Scan

/-- Scans `cs`, which starts at `pos`.  A text read to its end closes with an
    end-of-text token. -/
def run (pos : Position) (cs : List Char) : Scan :=
  match cs with
  | [] => ⟨[⟨.eof, "", pos⟩], none⟩
  | c :: rest =>
    match _h : Segment.read pos c rest with
    | .error fault => ⟨[], some fault⟩
    | .ok (seg, left) =>
      let scan := Scan.run (pos.after seg.raw) left
      { scan with tokens := (seg.tokenAt pos).toList ++ scan.tokens }
termination_by cs.length
decreasing_by exact Segment.length_read_lt _h

/-- Scans a whole text. -/
def of (source : String) : Scan := Scan.run .start source.toList

/-- The tokens of a text that was read to its end, else the fault. -/
def result (scan : Scan) : Except ScanError (List Token) :=
  match scan.fault with
  | none => .ok scan.tokens
  | some fault => .error fault

end Scan

/-- The tokens of a source text. -/
def tokenize (source : String) : Except ScanError (List Token) := (Scan.of source).result

end LineBasic
