/-
  LineBasic.Proofs.Segments

  What a scan is made of.  `Segment.Form` lists the forms a segment can have, each with
  the text it leaves, and `Scans` relates a text to its tokens segment by segment.
  Everything that is said about the tokens of a text is proved by induction on `Scans`;
  the scanner itself is only looked at here.
-/

import LineBasic.Proofs.Numerals
import LineBasic.Token.Scan

namespace LineBasic

-- ============================================================================
-- Forms of segments
-- ============================================================================

namespace Segment

/-- The word at the front of a text that starts with the letter `c`. -/
def wordOf (c : Char) (rest : List Char) : List Char := c :: rest.takeWhile isWordChar

/-- The digits at the front of a text that starts with the digit `c`. -/
def digitsOf (c : Char) (rest : List Char) : List Char := c :: rest.takeWhile Char.isDigit

/-- The segment at the front of `c :: rest`, and what it leaves. -/
inductive Form (c : Char) (rest : List Char) : Segment → List Char → Prop
  | blank (first : isBlank c = true) : Form c rest ⟨[c], none⟩ rest
  | newline (first : c = '\n') : Form c rest ⟨[c], some (.newline, "\n")⟩ rest
  | comment (first : c = '\'') :
      Form c rest ⟨c :: rest.takeWhile (· ≠ '\n'), none⟩ (rest.dropWhile (· ≠ '\n'))
  | text {raw value left : List Char} (first : c = '"')
      (closed : closeQuote? rest = some (raw, value, left)) :
      Form c rest ⟨c :: raw, some (.text, String.ofList value)⟩ left
  | integer (first : c.isDigit = true)
      (behind : (rest.dropWhile Char.isDigit).head? ≠ some '.') :
      Form c rest ⟨digitsOf c rest, some (.integer, String.ofList (digitsOf c rest))⟩
        (rest.dropWhile Char.isDigit)
  | decimal {left : List Char} (first : c.isDigit = true)
      (behind : rest.dropWhile Char.isDigit = '.' :: left) :
      Form c rest ⟨digitsOf c rest ++ '.' :: left.takeWhile Char.isDigit,
        some (.decimal, String.ofList (digitsOf c rest ++ '.' :: left.takeWhile Char.isDigit))⟩
        (left.dropWhile Char.isDigit)
  | remark (first : c.isAlpha = true)
      (word : Keyword.ofWord? (String.ofList (wordOf c rest)) = some .rem) :
      Form c rest ⟨wordOf c rest ++ (rest.dropWhile isWordChar).takeWhile (· ≠ '\n'),
        some (.newline, "\n")⟩ ((rest.dropWhile isWordChar).dropWhile (· ≠ '\n'))
  | keyword {k : Keyword} (first : c.isAlpha = true) (other : k ≠ .rem)
      (word : Keyword.ofWord? (String.ofList (wordOf c rest)) = some k) :
      Form c rest ⟨wordOf c rest, some (.keyword k, String.ofList (wordOf c rest))⟩
        (rest.dropWhile isWordChar)
  | name (first : c.isAlpha = true)
      (word : Keyword.ofWord? (String.ofList (wordOf c rest)) = none) :
      Form c rest ⟨wordOf c rest, some (.identifier, String.ofList (wordOf c rest))⟩
        (rest.dropWhile isWordChar)
  | pair {d : Char} {left : List Char} {s : Symbol} (two : rest = d :: left)
      (mark : Symbol.ofPair? c d = some s) :
      Form c rest ⟨[c, d], some (.symbol s, s.spelling)⟩ left
  | single {s : Symbol} (one : ∀ d ∈ rest.head?, Symbol.ofPair? c d = none)
      (mark : Symbol.ofChar? c = some s) :
      Form c rest ⟨[c], some (.symbol s, s.spelling)⟩ rest

variable {pos : Position} {c : Char} {rest left : List Char} {seg : Segment}

-- ----------------------------------------------------------------------------
-- What is read has a form
-- ----------------------------------------------------------------------------

/-- A digit starts a number, which goes as far as digits and one dot do. -/
theorem form_of_number (first : c.isDigit = true) :
    Form c rest ⟨c :: (numberTail rest).1,
      some ((numberTail rest).2.1, String.ofList (c :: (numberTail rest).1))⟩
      (numberTail rest).2.2 := by
  unfold numberTail
  dsimp only
  split
  · next heq => exact .decimal first heq
  · next hnot =>
    refine .integer first fun h => ?_
    obtain ⟨left, hleft⟩ := List.head?_eq_some_iff.1 h
    exact hnot left hleft

/-- A letter starts a word: a remark, a keyword or a name. -/
theorem form_of_word (first : c.isAlpha = true) :
    Form c rest (ofWord (wordOf c rest) (rest.dropWhile isWordChar)).1
      (ofWord (wordOf c rest) (rest.dropWhile isWordChar)).2 := by
  unfold ofWord
  split
  · next hword => exact .remark first hword
  · next k hnot hword => exact .keyword first (fun h => hnot (h ▸ rfl)) hword
  · next hword => exact .name first hword

/-- A symbol is taken with two characters if they are one. -/
theorem form_of_symbol (h : ofSymbol? c rest = some (seg, left)) : Form c rest seg left := by
  unfold ofSymbol? at h
  split at h
  · next d rest' =>
    split at h
    · next hpair =>
      cases h
      exact .pair rfl hpair
    · next hpair =>
      obtain ⟨s, hs, heq⟩ := Option.map_eq_some_iff.1 h
      cases heq
      exact .single (by simpa using hpair) hs
  · obtain ⟨s, hs, heq⟩ := Option.map_eq_some_iff.1 h
    cases heq
    exact .single nofun hs

/-- What the scanner reads has one of the forms: the cases are those of the scanner, by the
    first character. -/
theorem form_of_read (h : read pos c rest = .ok (seg, left)) : Form c rest seg left := by
  unfold read at h
  split at h
  · next hblank =>
    cases h
    exact .blank hblank
  split at h
  · next hnewline =>
    cases h
    exact .newline hnewline
  split at h
  · next hcomment =>
    cases h
    exact .comment hcomment
  split at h
  · next hquote =>
    split at h
    · next hclosed =>
      cases h
      exact .text hquote hclosed
    · cases h
  split at h
  · next hdigit =>
    simp only [Except.ok.injEq, Prod.mk.injEq] at h
    obtain ⟨rfl, rfl⟩ := h
    exact form_of_number hdigit
  split at h
  · next hletter =>
    obtain ⟨rfl, rfl⟩ := Prod.ext_iff.1 (Except.ok.inj h)
    exact form_of_word hletter
  · split at h
    · next hsymbol =>
      cases h
      exact form_of_symbol hsymbol
    · cases h

-- ----------------------------------------------------------------------------
-- Every form is read
-- ----------------------------------------------------------------------------

/-- The characters that decide about a segment by themselves. -/
def special : List Char := [' ', '\t', '\r', '\n', '\'', '"']

/-- Characters of a class without the special ones are none of these. -/
theorem plain_of_class {p : Char → Bool} (h : p c = true) (hp : special.any p = false) :
    isBlank c = false ∧ c ≠ '\n' ∧ c ≠ '\'' ∧ c ≠ '"' := by
  have hne : ∀ d ∈ special, c ≠ d := by
    rintro d hd rfl
    exact List.any_eq_false.1 hp c hd h
  simp only [special, List.mem_cons, List.not_mem_nil, or_false, forall_eq_or_imp,
    forall_eq] at hne
  simp [isBlank, hne]

theorem isDigit_of_isAlpha (h : c.isAlpha = true) : c.isDigit = false := by
  cases hdigit : c.isDigit with
  | false => rfl
  | true =>
    have hnine : c.val ≤ '9'.val := of_decide_eq_true (Bool.and_eq_true_iff.1 hdigit).2
    rcases Bool.or_eq_true_iff.1 h with hupper | hlower
    · have hA : 'A'.val ≤ c.val := (of_decide_eq_true hupper).1
      exact absurd (UInt32.le_trans hA hnine) (by decide)
    · have ha : 'a'.val ≤ c.val := of_decide_eq_true (Bool.and_eq_true_iff.1 hlower).1
      exact absurd (UInt32.le_trans ha hnine) (by decide)

theorem read_number {tail : List Char} {kind : TokenKind} (first : c.isDigit = true)
    (more : numberTail rest = (tail, kind, left)) :
    read pos c rest = .ok (⟨c :: tail, some (kind, String.ofList (c :: tail))⟩, left) := by
  obtain ⟨hblank, hnewline, hcomment, hquote⟩ := plain_of_class first (by decide)
  simp [read, hblank, hnewline, hcomment, hquote, first, more]

theorem read_word (first : c.isAlpha = true)
    (more : ofWord (wordOf c rest) (rest.dropWhile isWordChar) = (seg, left)) :
    read pos c rest = .ok (seg, left) := by
  obtain ⟨hblank, hnewline, hcomment, hquote⟩ := plain_of_class first (by decide)
  rw [wordOf] at more
  simp [read, hblank, hnewline, hcomment, hquote, isDigit_of_isAlpha first, first, more]

/-- No symbol starts with a digit or a letter. -/
theorem not_word_of_ofChar? {s : Symbol} (h : Symbol.ofChar? c = some s) :
    c.isDigit = false ∧ c.isAlpha = false := by
  unfold Symbol.ofChar? at h
  split at h
  case h_12 => cases h
  all_goals exact ⟨rfl, rfl⟩

theorem read_symbol {s : Symbol} (mark : Symbol.ofChar? c = some s)
    (more : ofSymbol? c rest = some (seg, left)) : read pos c rest = .ok (seg, left) := by
  obtain ⟨hdigit, hletter⟩ := not_word_of_ofChar? mark
  have hclass : (Symbol.ofChar? c).isSome = true := by rw [mark]; rfl
  obtain ⟨hblank, hnewline, hcomment, hquote⟩ :=
    plain_of_class (p := fun c => (Symbol.ofChar? c).isSome) hclass (by decide)
  simp [read, hblank, hnewline, hcomment, hquote, hdigit, hletter, more]

/-- A symbol of two characters starts with one of a single character. -/
theorem exists_ofChar?_of_ofPair? {d : Char} {s : Symbol} (h : Symbol.ofPair? c d = some s) :
    ∃ s, Symbol.ofChar? c = some s := by
  unfold Symbol.ofPair? at h
  split at h
  · exact ⟨_, rfl⟩
  · exact ⟨_, rfl⟩
  · exact ⟨_, rfl⟩
  · cases h

/-- What has one of the forms is read as such: the form tells the first character, and no case
    of the scanner in front of its own applies. -/
theorem read_of_form (h : Form c rest seg left) : read pos c rest = .ok (seg, left) := by
  cases h with
  | blank first => simp [read, first]
  | newline first => simp [read, first, isBlank]
  | comment first => simp [read, first, isBlank]
  | text first closed => simp [read, first, isBlank, closed]
  | integer first behind =>
    refine read_number first ?_
    unfold numberTail
    dsimp only
    split
    · next heq => exact absurd (congrArg List.head? heq) behind
    · rfl
  | decimal first behind =>
    refine read_number first ?_
    unfold numberTail
    rw [behind]
    rfl
  | remark first word =>
    refine read_word first ?_
    unfold ofWord
    rw [word]
  | keyword first other word =>
    refine read_word first ?_
    unfold ofWord
    rw [word]
    split
    · next heq => exact absurd (Option.some.inj heq) other
    · next heq => cases heq; rfl
    · next heq => cases heq
  | name first word =>
    refine read_word first ?_
    unfold ofWord
    rw [word]
  | pair two mark =>
    obtain ⟨s, hs⟩ := exists_ofChar?_of_ofPair? mark
    refine read_symbol hs ?_
    simp [two, ofSymbol?, mark]
  | single one mark =>
    refine read_symbol mark ?_
    unfold ofSymbol?
    split
    · next d rest' => simp [one d rfl, mark]
    · simp [mark]

/-- What is read at the front of a text has one of the forms, and each form is read. -/
theorem read_eq_ok_iff : read pos c rest = .ok (seg, left) ↔ Form c rest seg left :=
  ⟨form_of_read, read_of_form⟩

-- ----------------------------------------------------------------------------
-- What is not read
-- ----------------------------------------------------------------------------

/-- Whether no segment starts with a character. -/
def isStray (c : Char) : Bool :=
  !(isBlank c || c = '\n' || c = '\'' || c = '"' || c.isDigit || c.isAlpha ||
    (Symbol.ofChar? c).isSome)

theorem ofSymbol?_eq_none_iff : ofSymbol? c rest = none ↔ Symbol.ofChar? c = none := by
  unfold ofSymbol?
  split
  · next d rest' =>
    split
    · next s hpair =>
      obtain ⟨s', hs'⟩ := exists_ofChar?_of_ofPair? hpair
      rw [hs']
      exact ⟨nofun, nofun⟩
    · exact Option.map_eq_none_iff
  · exact Option.map_eq_none_iff

/-- A stray character is reported where it stands. -/
theorem read_of_isStray (h : isStray c = true) :
    read pos c rest = .error (.unexpectedChar c pos) := by
  simp only [isStray, Bool.not_eq_true', Bool.or_eq_false_iff, decide_eq_false_iff_not,
    Option.isSome_eq_false_iff, Option.isNone_iff_eq_none] at h
  obtain ⟨⟨⟨⟨⟨⟨hblank, hnewline⟩, hcomment⟩, hquote⟩, hdigit⟩, hletter⟩, hchar⟩ := h
  have hsymbol : ofSymbol? c rest = none := ofSymbol?_eq_none_iff.2 hchar
  simp [read, hblank, hnewline, hcomment, hquote, hdigit, hletter, hsymbol]

theorem read_of_open (h : closeQuote? rest = none) :
    read pos '"' rest = .error (.unterminatedString pos) := by
  simp [read, isBlank, h]

/-- Reading fails at a stray character or at a quote that is not closed, and at nothing else. -/
theorem isStray_or_open_of_read {e : ScanError} (h : read pos c rest = .error e) :
    (c = '"' ∧ closeQuote? rest = none ∧ e = .unterminatedString pos) ∨
      (isStray c = true ∧ e = .unexpectedChar c pos) := by
  unfold read at h
  split at h
  · cases h
  next hblank =>
  split at h
  · cases h
  next hnewline =>
  split at h
  · cases h
  next hcomment =>
  split at h
  · next hquote =>
    split at h
    · cases h
    · next hopen =>
      cases h
      exact .inl ⟨hquote, hopen, rfl⟩
  next hquote =>
  split at h
  · cases h
  next hdigit =>
  split at h
  · cases h
  next hletter =>
  split at h
  · cases h
  · next hsymbol =>
    cases h
    have hchar := ofSymbol?_eq_none_iff.1 hsymbol
    exact .inr ⟨by simp [isStray, hblank, hnewline, hcomment, hquote, hdigit, hletter, hchar], rfl⟩

/-- Nothing is read at the front of a text in two cases only: a quote is not closed, or the
    first character starts no segment. -/
theorem read_eq_error_iff {e : ScanError} : read pos c rest = .error e ↔
    (c = '"' ∧ closeQuote? rest = none ∧ e = .unterminatedString pos) ∨
      (isStray c = true ∧ e = .unexpectedChar c pos) := by
  refine ⟨isStray_or_open_of_read, ?_⟩
  rintro (⟨rfl, hopen, rfl⟩ | ⟨hstray, rfl⟩)
  · exact read_of_open hopen
  · exact read_of_isStray hstray

end Segment

-- ============================================================================
-- Tokens of a text
-- ============================================================================

/-- `Scans pos cs ts`: the text `cs`, which starts at `pos`, has the tokens `ts`. -/
inductive Scans : Position → List Char → List Token → Prop
  | done {pos : Position} : Scans pos [] [⟨.eof, "", pos⟩]
  | segment {pos : Position} {c : Char} {rest left : List Char} {seg : Segment} {ts : List Token}
      (form : seg.Form c rest left) (more : Scans (pos.after seg.raw) left ts) :
      Scans pos (c :: rest) ((seg.tokenAt pos).toList ++ ts)

variable {pos : Position} {cs : List Char} {ts : List Token}

namespace Scan

/-- A scan without a fault has its tokens as the result. -/
theorem result_eq_ok_iff {scan : Scan} :
    scan.result = .ok ts ↔ scan.fault = none ∧ scan.tokens = ts := by
  unfold result
  split
  · next h => simp [h]
  · next h => simp [h]

/-- A run without a fault is a scan, piece by piece. -/
theorem scans_of_run (h : (run pos cs).fault = none) : Scans pos cs (run pos cs).tokens := by
  fun_induction run pos cs with
  | case1 pos => exact .done
  | case2 pos c rest e hread => cases h
  | case3 pos c rest seg left hread scan ih =>
    exact .segment (Segment.read_eq_ok_iff.1 hread) (ih h)

/-- A scan takes the segment at the front and goes on behind it. -/
theorem run_of_form {c : Char} {rest left : List Char} {seg : Segment}
    (form : seg.Form c rest left) :
    run pos (c :: rest) = ⟨(seg.tokenAt pos).toList ++ (run (pos.after seg.raw) left).tokens,
      (run (pos.after seg.raw) left).fault⟩ := by
  rw [run]
  split
  · next hread =>
    rw [Segment.read_of_form form] at hread
    cases hread
  · next hread =>
    rw [Segment.read_of_form form] at hread
    cases hread
    rfl

/-- A run ends at the first character that cannot be read. -/
theorem run_of_error {c : Char} {rest : List Char} {e : ScanError}
    (h : Segment.read pos c rest = .error e) : run pos (c :: rest) = ⟨[], some e⟩ := by
  rw [run]
  split
  · next hread =>
    rw [h] at hread
    cases hread
    rfl
  · next hread =>
    rw [h] at hread
    cases hread

/-- A scan is what a run finds. -/
theorem run_of_scans (h : Scans pos cs ts) : run pos cs = ⟨ts, none⟩ := by
  induction h with
  | done => rw [run]
  | segment form more ih => rw [run_of_form form, ih]

end Scan

/-- A text has exactly the tokens of its segments. -/
theorem tokenize_eq_ok_iff {source : String} :
    tokenize source = .ok ts ↔ Scans .start source.toList ts := by
  rw [tokenize, Scan.of, Scan.result_eq_ok_iff]
  constructor
  · rintro ⟨hfault, rfl⟩
    exact Scan.scans_of_run hfault
  · intro h
    rw [Scan.run_of_scans h]
    exact ⟨rfl, rfl⟩

-- ============================================================================
-- What scanned tokens look like
-- ============================================================================

/-- A number token carries a numeral of its kind. -/
inductive Token.Legible (t : Token) : Prop
  | integer (kind : t.kind = .integer) (digits : AllDigits t.lexeme.toList)
      (first : t.lexeme.toList ≠ []) : Legible t
  | decimal (kind : t.kind = .decimal) (writes : ∃ d, Numeral.Writes t.lexeme.toList d) : Legible t
  | other (kind : t.kind ≠ .integer) (kind' : t.kind ≠ .decimal) : Legible t

namespace Segment

variable {c : Char} {rest left : List Char} {seg : Segment} {t : Token}

theorem allDigits_digitsOf (rest : List Char) (first : c.isDigit = true) :
    AllDigits (digitsOf c rest) := by
  intro d hd
  rcases List.mem_cons.1 hd with rfl | hd
  · exact first
  · exact List.mem_takeWhile_imp hd

/-- Each token can be read: numbers write decimals and names are words. -/
theorem Form.legible (h : Form c rest seg left) (ht : seg.tokenAt pos = some t) : t.Legible := by
  cases h with
  | integer first behind =>
    cases ht
    refine .integer rfl ?_ ?_
    · rw [String.toList_ofList]
      exact allDigits_digitsOf rest first
    · rw [String.toList_ofList]
      exact List.cons_ne_nil _ _
  | @decimal left first behind =>
    cases ht
    have hfraction : AllDigits (left.takeWhile Char.isDigit) := fun _ => List.mem_takeWhile_imp
    have hwrites := Numeral.Writes.dotted (allDigits_digitsOf rest first) (List.cons_ne_nil _ _)
      hfraction
    rw [← String.toList_ofList (l := digitsOf c rest ++ _)] at hwrites
    exact .decimal rfl ⟨_, hwrites⟩
  | blank => cases ht
  | comment => cases ht
  | _ =>
    cases ht
    exact .other nofun nofun

theorem Form.kind_ne_eof (h : Form c rest seg left) (ht : seg.tokenAt pos = some t) :
    t.kind ≠ .eof := by
  cases h with
  | blank => cases ht
  | comment => cases ht
  | _ =>
    cases ht
    exact nofun

end Segment

/-- All tokens of a scan can be read. -/
theorem Scans.legible (h : Scans pos cs ts) : ∀ t ∈ ts, t.Legible := by
  induction h with
  | done =>
    intro t ht
    obtain rfl := List.mem_singleton.1 ht
    exact .other nofun nofun
  | segment form more ih =>
    intro t ht
    rcases List.mem_append.1 ht with ht | ht
    · exact form.legible (Option.mem_toList.1 ht)
    · exact ih t ht

/-- One end-of-text token, behind all other tokens. -/
inductive Closed : List Token → Prop
  | last {z : Token} (kind : z.kind = .eof) : Closed [z]
  | cons {t : Token} {ts : List Token} (kind : t.kind ≠ .eof) (more : Closed ts) : Closed (t :: ts)

namespace Closed

theorem eq_nil {t : Token} (h : Closed (t :: ts)) (kind : t.kind = .eof) : ts = [] := by
  cases h with
  | last _ => rfl
  | cons kind' _ => exact absurd kind kind'

theorem tail {t : Token} (h : Closed (t :: ts)) (kind : t.kind ≠ .eof) : Closed ts := by
  cases h with
  | last kind' => exact absurd kind' kind
  | cons _ more => exact more

theorem rest {w rest : List Token} (h : Closed (w ++ rest)) (hw : ∀ t ∈ w, t.kind ≠ .eof) :
    Closed rest := by
  induction w with
  | nil => exact h
  | cons t w ih =>
    exact ih (h.tail (hw t (List.mem_cons_self ..))) fun u hu => hw u (List.mem_cons_of_mem _ hu)

theorem append {w : List Token} (hw : ∀ t ∈ w, t.kind ≠ .eof) (h : Closed ts) :
    Closed (w ++ ts) := by
  induction w with
  | nil => exact h
  | cons t w ih =>
    exact .cons (hw t (List.mem_cons_self ..)) (ih fun u hu => hw u (List.mem_cons_of_mem _ hu))

/-- Nothing stands behind the end of the text. -/
theorem eq_nil_of_append {more : List Token} (h : Closed ts) (h' : Closed (ts ++ more)) :
    more = [] := by
  induction h with
  | last kind => exact h'.eq_nil kind
  | cons kind _ ih => exact ih (h'.tail kind)

end Closed

/-- A scan ends with the end of the text, and that is nowhere else. -/
theorem Scans.closed (h : Scans pos cs ts) : Closed ts := by
  induction h with
  | done => exact .last rfl
  | @segment pos c rest left seg ts form more ih =>
    cases ht : seg.tokenAt pos with
    | none => exact ih
    | some t => exact .cons (form.kind_ne_eof ht) ih

end LineBasic
