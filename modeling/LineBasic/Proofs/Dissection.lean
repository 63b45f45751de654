/-
  LineBasic.Proofs.Dissection

  A source text and its segments.  `Segment.Stands` says what a stretch of text has to be
  to stand in front of what follows it: a blank, a comment up to the end of the line, or
  the raw text of one token, a number, a word or a symbol being the longest at its place.
  It says so without a scanner.  A text has at most one dissection into such stretches
  (`Dissection`), and the scanner finds it: the tokens are those of the stretches, each at
  the place that counting the characters in front of it gives.
-/

import LineBasic.Proofs.Words
import Mathlib.Algebra.Group.Nat.Defs

namespace LineBasic

-- ============================================================================
-- Longest rows
-- ============================================================================

/-- `raw` is the longest row of its kind at the front of `raw ++ rest`. -/
def Longest (kind : List Char → Prop) (raw rest : List Char) : Prop :=
  kind raw ∧ ∀ longer, kind longer → longer <+: raw ++ rest → longer.length ≤ raw.length

section Longest

variable {kind : List Char → Prop} {raw rest : List Char}

/-- A row is the longest of its kind if nothing of what follows goes on it. -/
theorem longest_iff :
    Longest kind raw rest ↔
      kind raw ∧ ∀ d more, d :: more <+: rest → ¬ kind (raw ++ d :: more) := by
  constructor
  · rintro ⟨hraw, hlongest⟩
    refine ⟨hraw, fun d more hmore hkind => ?_⟩
    have hle := hlongest _ hkind ((List.prefix_append_right_inj raw).2 hmore)
    rw [List.length_append, List.length_cons] at hle
    omega
  · rintro ⟨hraw, hends⟩
    refine ⟨hraw, fun longer hkind hfront => ?_⟩
    by_contra hlt
    have hle : raw.length ≤ longer.length := by omega
    obtain ⟨tail, rfl⟩ :=
      List.prefix_of_prefix_length_le (List.prefix_append raw rest) hfront hle
    cases tail with
    | nil => exact hlt (by rw [List.append_nil])
    | cons d more => exact hends d more ((List.prefix_append_right_inj raw).1 hfront) hkind

/-- When one more character decides, the row ends where the next character does not fit. -/
theorem longest_iff_head (fits : Char → Prop) (one : ∀ d, fits d → kind raw → kind (raw ++ [d]))
    (more : ∀ d ds, kind (raw ++ d :: ds) → fits d) :
    Longest kind raw rest ↔ kind raw ∧ ∀ d ∈ rest.head?, ¬ fits d := by
  rw [longest_iff]
  refine and_congr_right fun hraw => ⟨fun hends d hd hfits => ?_, fun hends d ds hds hkind => ?_⟩
  · obtain ⟨rest', rfl⟩ := List.head?_eq_some_iff.1 hd
    exact hends d [] (List.prefix_append [d] rest') (one d hfits hraw)
  · obtain ⟨rest', rfl⟩ := hds
    exact hends d rfl (more d ds hkind)

end Longest

theorem head_dropWhile {p : Char → Bool} (cs : List Char) :
    ∀ d ∈ (cs.dropWhile p).head?, p d = false := by
  intro d hd
  have h := List.head?_dropWhile_not p cs
  rw [hd] at h
  exact h

-- ============================================================================
-- Rows of characters
-- ============================================================================

/-- A row of characters on one line. -/
def InLine (cs : List Char) : Prop := ∀ c ∈ cs, c ≠ '\n'

/-- A letter, and letters, digits and underscores behind it. -/
def IsWord (cs : List Char) : Prop :=
  ∃ c more, cs = c :: more ∧ c.isAlpha = true ∧ ∀ d ∈ more, isWordChar d = true

/-- Digits, perhaps with a dot and more digits behind them. -/
inductive IsNumeral : TokenKind → List Char → Prop
  | integer {ds : List Char} (digits : AllDigits ds) (first : ds ≠ []) : IsNumeral .integer ds
  | decimal {ds fs : List Char} (digits : AllDigits ds) (first : ds ≠ [])
      (fraction : AllDigits fs) : IsNumeral .decimal (ds ++ '.' :: fs)

/-- What a number is written with. -/
def IsNumber (cs : List Char) : Prop := ∃ kind, IsNumeral kind cs

/-- What a symbol is written with. -/
def IsMark (cs : List Char) : Prop := ∃ s : Symbol, cs = s.spelling.toList

/-- What can stand between quotes, and what it stands for. -/
inductive Quotes : List Char → List Char → Prop
  | nil : Quotes [] []
  | plain {c : Char} {raw value : List Char} (quote : c ≠ '"') (slash : c ≠ '\\')
      (more : Quotes raw value) : Quotes (c :: raw) (c :: value)
  | newline {raw value : List Char} (more : Quotes raw value) :
      Quotes ('\\' :: 'n' :: raw) ('\n' :: value)
  | tab {raw value : List Char} (more : Quotes raw value) :
      Quotes ('\\' :: 't' :: raw) ('\t' :: value)
  | other {c : Char} {raw value : List Char} (n : c ≠ 'n') (t : c ≠ 't')
      (more : Quotes raw value) : Quotes ('\\' :: c :: raw) (c :: value)

/-- The upper-case letters of a word. -/
def upper (cs : List Char) : List Char := cs.map Char.toUpper

section Rows

variable {raw rest : List Char}

/-- The longest front within a line goes up to the end of the line. -/
theorem longest_inLine_iff :
    Longest InLine raw rest ↔ InLine raw ∧ ∀ d ∈ rest.head?, d = '\n' := by
  rw [longest_iff_head (· ≠ '\n')]
  · simp only [Decidable.not_not]
  · intro d hd hraw
    exact List.forall_mem_append.2 ⟨hraw, List.forall_mem_singleton.2 hd⟩
  · intro d ds h
    exact h d (List.mem_append_right _ (List.mem_cons_self ..))

/-- A word cannot be made longer if what follows is no character of words. -/
theorem longest_isWord_iff :
    Longest IsWord raw rest ↔ IsWord raw ∧ ∀ d ∈ rest.head?, isWordChar d = false := by
  rw [longest_iff_head (isWordChar · = true)]
  · simp only [Bool.not_eq_true]
  · rintro d hd ⟨c, more, rfl, first, hmore⟩
    exact ⟨c, more ++ [d], rfl, first,
      List.forall_mem_append.2 ⟨hmore, List.forall_mem_singleton.2 hd⟩⟩
  · rintro d ds ⟨c, more, heq, first, hmore⟩
    cases raw with
    | nil =>
      obtain ⟨rfl, -⟩ := List.cons.inj heq
      simp [isWordChar, Char.isAlphanum, first]
    | cons e es =>
      obtain ⟨-, rfl⟩ := List.cons.inj heq
      exact hmore d (List.mem_append_right _ (List.mem_cons_self ..))

theorem IsWord.ne_nil (h : IsWord raw) : raw ≠ [] := by
  obtain ⟨c, more, rfl, -⟩ := h
  exact List.cons_ne_nil c more

theorem IsNumeral.ne_nil {kind : TokenKind} (h : IsNumeral kind raw) : raw ≠ [] := by
  cases h with
  | integer digits first => exact first
  | decimal digits first fraction => exact List.append_ne_nil_of_left_ne_nil first _

/-- A numeral holds digits and at most one dot. -/
theorem IsNumeral.digits_or_dot {kind : TokenKind} (h : IsNumeral kind raw) :
    (∀ c ∈ raw, c.isDigit = true ∨ c = '.') ∧ raw.count '.' ≤ 1 := by
  have hcount : ∀ {ds : List Char}, AllDigits ds → ds.count '.' = 0 := by
    intro ds hds
    exact List.count_eq_zero.2 fun hmem => absurd (hds '.' hmem) (by decide)
  cases h with
  | integer digits first => exact ⟨fun c hc => .inl (digits c hc), by rw [hcount digits]; omega⟩
  | decimal digits first fraction =>
    constructor
    · intro c hc
      rcases List.mem_append.1 hc with hc | hc
      · exact .inl (digits c hc)
      · rcases List.mem_cons.1 hc with rfl | hc
        · exact .inr rfl
        · exact .inl (fraction c hc)
    · rw [List.count_append, List.count_cons_self, hcount digits, hcount fraction]

/-- Digits go on with a digit or the dot. -/
theorem longest_integer_iff (h : IsNumeral .integer raw) :
    Longest IsNumber raw rest ↔ ∀ d ∈ rest.head?, ¬ (d.isDigit = true ∨ d = '.') := by
  rw [longest_iff_head fun d => d.isDigit = true ∨ d = '.']
  · exact and_iff_right ⟨_, h⟩
  · rintro d hd -
    cases h with
    | integer digits first =>
      rcases hd with hd | rfl
      · have hdigits := List.forall_mem_append.2 ⟨digits, List.forall_mem_singleton.2 hd⟩
        exact ⟨_, .integer hdigits (List.append_ne_nil_of_left_ne_nil first _)⟩
      · exact ⟨_, .decimal digits first nofun⟩
  · rintro d ds ⟨kind, hkind⟩
    exact hkind.digits_or_dot.1 d (List.mem_append_right _ (List.mem_cons_self ..))

/-- Behind the dot only digits go on. -/
theorem longest_decimal_iff (h : IsNumeral .decimal raw) :
    Longest IsNumber raw rest ↔ ∀ d ∈ rest.head?, ¬ d.isDigit = true := by
  rw [longest_iff_head fun d => d.isDigit = true]
  · exact and_iff_right ⟨_, h⟩
  · rintro d hd -
    cases h with
    | @decimal ds fs digits first fraction =>
      refine ⟨.decimal, ?_⟩
      rw [List.append_assoc, List.cons_append]
      exact .decimal digits first
        (List.forall_mem_append.2 ⟨fraction, List.forall_mem_singleton.2 hd⟩)
  · rintro d ds ⟨kind, hkind⟩
    obtain ⟨hchars, hdots⟩ := hkind.digits_or_dot
    refine (hchars d (List.mem_append_right _ (List.mem_cons_self ..))).resolve_right ?_
    rintro rfl
    have hdot : 1 ≤ raw.count '.' := by
      cases h with
      | decimal digits first fraction => exact List.count_pos_iff.2 (by simp)
    rw [List.count_append, List.count_cons_self] at hdots
    omega

end Rows

-- ============================================================================
-- Symbols and keywords
-- ============================================================================

namespace Symbol

variable {c d : Char} {s : Symbol}

/-- A symbol of one character is spelled as that character. -/
theorem spelling_of_ofChar? (h : ofChar? c = some s) : s.spelling.toList = [c] := by
  unfold ofChar? at h
  split at h
  case h_12 => cases h
  all_goals
    cases h
    rfl

theorem spelling_of_ofPair? (h : ofPair? c d = some s) : s.spelling.toList = [c, d] := by
  unfold ofPair? at h
  split at h
  case h_4 => cases h
  all_goals
    cases h
    rfl

/-- A symbol that starts with two characters is found by them. -/
theorem ofPair?_of_spelling {more : List Char} (h : s.spelling.toList = c :: d :: more) :
    ofPair? c d = some s := by
  rcases s.spelling_marks with ⟨e, he, -⟩ | ⟨e, f, hef, hmark⟩
  · rw [he] at h
    cases h
  · rw [hef] at h
    cases h
    exact hmark

/-- No symbol has three characters. -/
theorem not_isMark_of_two {e : Char} {more : List Char} : ¬ IsMark (c :: d :: e :: more) := by
  rintro ⟨s, hs⟩
  rcases s.spelling_marks with ⟨e, he, -⟩ | ⟨e, f, hef, -⟩
  · rw [he] at hs
    cases hs
  · rw [hef] at hs
    cases hs

/-- Two characters that spell a symbol are taken together. -/
theorem longest_isMark_one (h : ofChar? c = some s) {rest : List Char} :
    Longest IsMark [c] rest ↔ ∀ d ∈ rest.head?, ofPair? c d = none := by
  rw [longest_iff_head fun d => ofPair? c d ≠ none]
  · simp only [not_not]
    exact and_iff_right ⟨s, (spelling_of_ofChar? h).symm⟩
  · rintro d hd -
    obtain ⟨t, ht⟩ := Option.ne_none_iff_exists'.1 hd
    exact ⟨t, (spelling_of_ofPair? ht).symm⟩
  · rintro d ds ⟨t, ht⟩
    rw [ofPair?_of_spelling ht.symm]
    exact nofun

/-- No symbol has more than two characters. -/
theorem longest_isMark_two (h : ofPair? c d = some s) (rest : List Char) :
    Longest IsMark [c, d] rest :=
  longest_iff.2 ⟨⟨s, (spelling_of_ofPair? h).symm⟩, fun _ _ _ => not_isMark_of_two⟩

end Symbol

/-- A word is a keyword exactly if its upper-case letters spell one. -/
theorem Keyword.ofWord?_eq_some_iff {cs : List Char} {k : Keyword} :
    ofWord? (String.ofList cs) = some k ↔ upper cs = k.spelling.toList := by
  have hupper : (String.ofList cs).toUpper = String.ofList (upper cs) := by
    rw [← String.toList_inj, String.toUpper, String.toList_map, String.toList_ofList,
      String.toList_ofList]
    rfl
  rw [ofWord?, hupper]
  constructor
  · intro h
    have hbeq := List.find?_some h
    rw [eq_of_beq hbeq, String.toList_ofList]
  · intro h
    rw [h, String.ofList_toList]
    cases k <;> decide +kernel

theorem Keyword.ofWord?_eq_none_iff {cs : List Char} :
    ofWord? (String.ofList cs) = none ↔ ∀ k : Keyword, upper cs ≠ k.spelling.toList := by
  rw [Option.eq_none_iff_forall_ne_some]
  exact forall_congr' fun k => not_congr ofWord?_eq_some_iff

-- ============================================================================
-- Quotes
-- ============================================================================

namespace Segment

/-- What a scan takes as a string literal is quoted: its value is what stands for the text
    between the marks, backslashes resolved. -/
theorem quotes_of_closeQuote? {cs raw value left : List Char}
    (h : closeQuote? cs = some (raw, value, left)) :
    ∃ inner, raw = inner ++ ['"'] ∧ Quotes inner value := by
  fun_induction closeQuote? cs generalizing raw value left with
  | case1 => cases h
  | case2 rest =>
    cases h
    exact ⟨[], rfl, .nil⟩
  | case3 => cases h
  | case4 c rest ih =>
    obtain ⟨⟨r, v, l⟩, hr, heq⟩ := Option.map_eq_some_iff.1 h
    cases heq
    obtain ⟨inner, rfl, hinner⟩ := ih hr
    refine ⟨'\\' :: c :: inner, rfl, ?_⟩
    -- Two escapes stand for another character, and any other for its character itself.
    by_cases hn : c = 'n'
    · subst hn
      exact .newline hinner
    by_cases ht : c = 't'
    · subst ht
      exact .tab hinner
    · rw [unescaped, if_neg hn, if_neg ht]
      exact .other hn ht hinner
  | case5 c rest hquote hend hslash ih =>
    obtain ⟨⟨r, v, l⟩, hr, heq⟩ := Option.map_eq_some_iff.1 h
    cases heq
    obtain ⟨inner, rfl, hinner⟩ := ih hr
    refine ⟨c :: inner, rfl, .plain hquote (fun hc => ?_) hinner⟩
    cases rest with
    | nil => exact hend hc rfl
    | cons d rest => exact hslash d rest hc rfl

/-- A quoted text is taken up to its closing mark, and no further. -/
theorem closeQuote?_of_quotes {raw value : List Char} (h : Quotes raw value) (left : List Char) :
    closeQuote? (raw ++ '"' :: left) = some (raw ++ ['"'], value, left) := by
  induction h with
  | nil => rfl
  | plain quote slash more ih => simp [closeQuote?, slash, ih]
  | newline more ih => simp [closeQuote?, unescaped, ih]
  | tab more ih => simp [closeQuote?, unescaped, ih]
  | other n t more ih => simp [closeQuote?, unescaped, n, t, ih]

-- ============================================================================
-- Stretches of text
-- ============================================================================

/-- What a stretch of text in front of `rest` can be, and the token it is. -/
inductive Stands (rest : List Char) : Segment → Prop
  | blank {c : Char} (blank : c = ' ' ∨ c = '\t' ∨ c = '\r') : Stands rest ⟨[c], none⟩
  | comment {body : List Char} (line : Longest InLine body rest) :
      Stands rest ⟨'\'' :: body, none⟩
  | newline : Stands rest ⟨['\n'], some (.newline, "\n")⟩
  | text {raw value : List Char} (quotes : Quotes raw value) :
      Stands rest ⟨'"' :: (raw ++ ['"']), some (.text, String.ofList value)⟩
  | number {raw : List Char} {kind : TokenKind} (longest : Longest IsNumber raw rest)
      (numeral : IsNumeral kind raw) : Stands rest ⟨raw, some (kind, String.ofList raw)⟩
  | remark {word body : List Char} (longest : Longest IsWord word (body ++ rest))
      (rem : upper word = Keyword.rem.spelling.toList) (line : Longest InLine body rest) :
      Stands rest ⟨word ++ body, some (.newline, "\n")⟩
  | keyword {word : List Char} {k : Keyword} (longest : Longest IsWord word rest)
      (other : k ≠ .rem) (spelt : upper word = k.spelling.toList) :
      Stands rest ⟨word, some (.keyword k, String.ofList word)⟩
  | name {word : List Char} (longest : Longest IsWord word rest)
      (none_ : ∀ k : Keyword, upper word ≠ k.spelling.toList) :
      Stands rest ⟨word, some (.identifier, String.ofList word)⟩
  | mark {s : Symbol} (longest : Longest IsMark s.spelling.toList rest) :
      Stands rest ⟨s.spelling.toList, some (.symbol s, s.spelling)⟩

variable {c : Char} {cs left : List Char} {seg : Segment}

theorem longest_inLine_takeWhile (cs : List Char) :
    Longest InLine (cs.takeWhile (· ≠ '\n')) (cs.dropWhile (· ≠ '\n')) := by
  refine longest_inLine_iff.2 ⟨fun c hc => ?_, fun d hd => ?_⟩
  · have hne := List.mem_takeWhile_imp hc
    exact of_decide_eq_true hne
  · exact not_not.1 (of_decide_eq_false (head_dropWhile cs d hd))

theorem longest_wordOf (first : c.isAlpha = true) :
    Longest IsWord (wordOf c cs) (cs.dropWhile isWordChar) :=
  longest_isWord_iff.2
    ⟨⟨c, _, rfl, first, fun _ => List.mem_takeWhile_imp⟩, head_dropWhile cs⟩

/-- What is read at the front of a text stands there. -/
theorem Form.stands (h : Form c cs seg left) : seg.Stands left := by
  cases h with
  | blank first => exact .blank (by simpa [isBlank, or_assoc] using first)
  | newline first =>
    subst first
    exact .newline
  | comment first =>
    subst first
    exact .comment (longest_inLine_takeWhile cs)
  | text first closed =>
    subst first
    obtain ⟨inner, rfl, hinner⟩ := quotes_of_closeQuote? closed
    exact .text hinner
  | integer first behind =>
    have hnumeral : IsNumeral .integer (digitsOf c cs) :=
      .integer (allDigits_digitsOf cs first) (List.cons_ne_nil _ _)
    refine .number ((longest_integer_iff hnumeral).2 fun d hd => ?_) hnumeral
    -- The run takes all digits, and a point behind it would have made it a decimal.
    rintro (hdigit | rfl)
    · exact Bool.false_ne_true ((head_dropWhile cs d hd).symm.trans hdigit)
    · exact behind hd
  | @decimal left first behind =>
    have hnumeral : IsNumeral .decimal (digitsOf c cs ++ '.' :: left.takeWhile Char.isDigit) :=
      .decimal (allDigits_digitsOf cs first) (List.cons_ne_nil _ _)
        fun _ => List.mem_takeWhile_imp
    refine .number ((longest_decimal_iff hnumeral).2 fun d hd hdigit => ?_) hnumeral
    exact Bool.false_ne_true ((head_dropWhile left d hd).symm.trans hdigit)
  | remark first word =>
    refine .remark ?_ (Keyword.ofWord?_eq_some_iff.1 word) (longest_inLine_takeWhile _)
    rw [List.takeWhile_append_dropWhile]
    exact longest_wordOf first
  | keyword first other word =>
    exact .keyword (longest_wordOf first) other (Keyword.ofWord?_eq_some_iff.1 word)
  | name first word => exact .name (longest_wordOf first) (Keyword.ofWord?_eq_none_iff.1 word)
  | @pair d left s two mark =>
    have hlongest := Symbol.longest_isMark_two mark left
    rw [← Symbol.spelling_of_ofPair? mark] at hlongest ⊢
    exact .mark hlongest
  | @single s one mark =>
    have hlongest := (Symbol.longest_isMark_one mark).2 one
    rw [← Symbol.spelling_of_ofChar? mark] at hlongest ⊢
    exact .mark hlongest

/-- What is taken from a line is the longest front within it. -/
theorem lineOf_of_longest {body rest : List Char} (h : Longest InLine body rest) :
    (body ++ rest).takeWhile (· ≠ '\n') = body ∧ (body ++ rest).dropWhile (· ≠ '\n') = rest := by
  obtain ⟨hbody, hrest⟩ := longest_inLine_iff.1 h
  have hall : ∀ c ∈ body, decide (c ≠ '\n') = true := fun c hc => decide_eq_true (hbody c hc)
  have hhead : ∀ d ∈ rest.head?, decide (d ≠ '\n') = false :=
    fun d hd => decide_eq_false (not_not.2 (hrest d hd))
  exact ⟨takeWhile_run hall hhead, dropWhile_run hall hhead⟩

theorem wordOf_of_longest {word rest : List Char} (h : Longest IsWord word rest)
    (heq : word ++ rest = c :: cs) :
    c.isAlpha = true ∧ wordOf c cs = word ∧ cs.dropWhile isWordChar = rest := by
  obtain ⟨⟨d, more, rfl, first, hmore⟩, hrest⟩ := longest_isWord_iff.1 h
  obtain ⟨rfl, rfl⟩ := List.cons.inj heq
  exact ⟨first, congrArg (d :: ·) (takeWhile_run hmore hrest), dropWhile_run hmore hrest⟩

/-- A number that stands in front of the rest is scanned as it stands: the longest front that is
    one, with or without a point. -/
theorem form_of_number_stands {raw : List Char} {kind : TokenKind}
    (longest : Longest IsNumber raw left) (numeral : IsNumeral kind raw)
    (heq : raw ++ left = c :: cs) : Form c cs ⟨raw, some (kind, String.ofList raw)⟩ left := by
  cases numeral with
  | integer digits first =>
    have hends := (longest_integer_iff (.integer digits first)).1 longest
    obtain ⟨d, ds, rfl⟩ := List.exists_cons_of_ne_nil first
    obtain ⟨rfl, rfl⟩ := List.cons.inj heq
    obtain ⟨hd, hds⟩ := List.forall_mem_cons.1 digits
    have hhead : ∀ e ∈ left.head?, e.isDigit = false :=
      fun e he => Bool.eq_false_iff.2 fun hdigit => hends e he (.inl hdigit)
    obtain ⟨htake, hdrop⟩ := digitsOf_append (c := d) hds hhead
    have hform : Form d (ds ++ left) _ _ := .integer hd (by
      rw [hdrop]
      exact fun hdot => hends '.' hdot (.inr rfl))
    rwa [htake, hdrop] at hform
  | @decimal ds fs digits first fraction =>
    have hends := (longest_decimal_iff (.decimal digits first fraction)).1 longest
    obtain ⟨d, ds, rfl⟩ := List.exists_cons_of_ne_nil first
    rw [List.append_assoc] at heq
    obtain ⟨rfl, rfl⟩ := List.cons.inj heq
    obtain ⟨hd, hds⟩ := List.forall_mem_cons.1 digits
    have hhead : ∀ e ∈ left.head?, e.isDigit = false :=
      fun e he => Bool.eq_false_iff.2 (hends e he)
    -- The point is not a digit, so the run in front of it ends there.
    have hdot : ∀ e ∈ ('.' :: (fs ++ left)).head?, e.isDigit = false := by simp
    obtain ⟨htake, hdrop⟩ := digitsOf_append (c := d) hds hdot
    have hform : Form d (ds ++ '.' :: (fs ++ left)) _ _ := .decimal hd hdrop
    rwa [takeWhile_run fraction hhead, dropWhile_run fraction hhead, htake] at hform

/-- A symbol that stands in front of the rest is scanned, of two characters if there is one. -/
theorem form_of_mark_stands {s : Symbol} (longest : Longest IsMark s.spelling.toList left)
    (heq : s.spelling.toList ++ left = c :: cs) :
    Form c cs ⟨s.spelling.toList, some (.symbol s, s.spelling)⟩ left := by
  rcases s.spelling_marks with ⟨e, he, hmark, -, -⟩ | ⟨e, f, hef, hmark⟩
  · rw [he] at heq longest ⊢
    obtain ⟨rfl, rfl⟩ := List.cons.inj heq
    exact .single ((Symbol.longest_isMark_one hmark).1 longest) hmark
  · rw [hef] at heq ⊢
    obtain ⟨rfl, rfl⟩ := List.cons.inj heq
    exact .pair rfl hmark

/-- What stands at the front of a text is read there. -/
theorem Stands.form (h : seg.Stands left) (heq : seg.raw ++ left = c :: cs) :
    Form c cs seg left := by
  cases h with
  | @blank d hblank =>
    obtain ⟨rfl, rfl⟩ := List.cons.inj heq
    refine .blank ?_
    rcases hblank with rfl | rfl | rfl <;> rfl
  | @comment body line =>
    obtain ⟨rfl, rfl⟩ := List.cons.inj heq
    obtain ⟨htake, hdrop⟩ := lineOf_of_longest line
    have hform : Form '\'' (body ++ left) _ _ := .comment rfl
    rwa [htake, hdrop] at hform
  | newline =>
    obtain ⟨rfl, rfl⟩ := List.cons.inj heq
    exact .newline rfl
  | @text raw value quotes =>
    obtain ⟨rfl, rfl⟩ := List.cons.inj heq
    have hclosed := closeQuote?_of_quotes quotes left
    rw [List.append_cons] at hclosed
    exact .text rfl hclosed
  | number longest numeral => exact form_of_number_stands longest numeral heq
  | @remark word body longest rem line =>
    rw [List.append_assoc] at heq
    obtain ⟨first, hword, hdrop⟩ := wordOf_of_longest longest heq
    obtain ⟨htake, hdrop'⟩ := lineOf_of_longest line
    have hform : Form c cs _ _ := .remark first (by rw [hword, Keyword.ofWord?_eq_some_iff, rem])
    rwa [hword, hdrop, htake, hdrop'] at hform
  | @keyword word k longest other spelt =>
    obtain ⟨first, hword, hdrop⟩ := wordOf_of_longest longest heq
    have hform : Form c cs _ _ :=
      .keyword first other (by rw [hword, Keyword.ofWord?_eq_some_iff, spelt])
    rwa [hword, hdrop] at hform
  | @name word longest none_ =>
    obtain ⟨first, hword, hdrop⟩ := wordOf_of_longest longest heq
    have hform : Form c cs _ _ :=
      .name first (by rw [hword, Keyword.ofWord?_eq_none_iff]; exact none_)
    rwa [hword, hdrop] at hform
  | mark longest => exact form_of_mark_stands longest heq

theorem Form.raw_append (h : Form c cs seg left) : seg.raw ++ left = c :: cs := by
  have hread : read .start c cs = .ok (seg, left) := read_of_form h
  exact (read_append hread).1

theorem form_iff_stands : Form c cs seg left ↔ seg.raw ++ left = c :: cs ∧ seg.Stands left :=
  ⟨fun h => ⟨h.raw_append, h.stands⟩, fun h => h.2.form h.1⟩

theorem Stands.ne_nil (h : seg.Stands left) : seg.raw ≠ [] := by
  cases h with
  | number longest numeral => exact numeral.ne_nil
  | remark longest rem line => exact List.append_ne_nil_of_left_ne_nil longest.1.ne_nil _
  | keyword longest other spelt => exact longest.1.ne_nil
  | name longest none_ => exact longest.1.ne_nil
  | @mark s longest => cases s <;> exact List.cons_ne_nil _ _
  | _ => exact List.cons_ne_nil _ _

end Segment

-- ============================================================================
-- Places
-- ============================================================================

namespace Position

/-- The place behind the text `cs`: as many lines down as it has line ends, and as many columns
    to the right as characters follow the last of them. -/
def behind (cs : List Char) : Position :=
  ⟨1 + cs.count '\n', 1 + (cs.reverse.takeWhile (· ≠ '\n')).length⟩

/-- In front of another place in a text. -/
def Before (p q : Position) : Prop := p.line < q.line ∨ p.line = q.line ∧ p.column < q.column

/-- The place behind a text moves with its last character. -/
theorem advance_behind (cs : List Char) (c : Char) :
    (behind cs).advance c = behind (cs ++ [c]) := by
  by_cases hc : c = '\n'
  · subst hc
    simp [behind, advance, Nat.add_assoc]
  · simp [behind, advance, hc, Nat.add_comm]

theorem after_behind (cs ds : List Char) : (behind cs).after ds = behind (cs ++ ds) := by
  induction ds generalizing cs with
  | nil => rw [List.append_nil, after_nil]
  | cons d ds ih => rw [after_cons, advance_behind, ih, List.append_assoc, List.singleton_append]

theorem Before.trans {p q r : Position} (h : p.Before q) (h' : q.Before r) : p.Before r := by
  unfold Before at *
  omega

theorem before_advance (p : Position) (c : Char) : p.Before (p.advance c) := by
  unfold Before advance
  split
  · exact .inl (Nat.lt_succ_self _)
  · exact .inr ⟨rfl, Nat.lt_succ_self _⟩

/-- Behind characters, the place is a later one. -/
theorem before_after {cs : List Char} (p : Position) (h : cs ≠ []) : p.Before (p.after cs) := by
  induction cs generalizing p with
  | nil => exact absurd rfl h
  | cons c cs ih =>
    rw [after_cons]
    cases cs with
    | nil => exact before_advance p c
    | cons d ds => exact (before_advance p c).trans (ih _ (List.cons_ne_nil _ _))

theorem line_behind_le (cs : List Char) : (behind cs).line ≤ 1 + cs.length :=
  Nat.add_le_add_left (List.count_le_length ..) 1

theorem column_behind_le (cs : List Char) : (behind cs).column ≤ 1 + cs.length := by
  have hle := (List.takeWhile_sublist (fun c => decide (c ≠ '\n')) (l := cs.reverse)).length_le
  rw [List.length_reverse] at hle
  exact Nat.add_le_add_left hle 1

/-- Behind a text of less than `2 ^ 32 - 1` characters line and column fit into 32 bits.  One
    character more on a single line, and the column does not. -/
theorem behind_lt {cs : List Char} (h : cs.length + 1 < 2 ^ 32) :
    (behind cs).line < 2 ^ 32 ∧ (behind cs).column < 2 ^ 32 := by
  have hline := line_behind_le cs
  have hcolumn := column_behind_le cs
  constructor
  · omega
  · omega

end Position

-- ============================================================================
-- Dissections
-- ============================================================================

/-- A text cut into stretches, each of which stands in front of the text behind it. -/
inductive Dissection : List Char → List Segment → Prop
  | nil : Dissection [] []
  | cons {seg : Segment} {rest : List Char} {segs : List Segment} (stands : seg.Stands rest)
      (more : Dissection rest segs) : Dissection (seg.raw ++ rest) (seg :: segs)

/-- The tokens of stretches that follow the text `before`, each at the place behind the text in
    front of it. -/
def stamped (before : List Char) : List Segment → List Token
  | [] => []
  | seg :: segs => (seg.tokenAt (.behind before)).toList ++ stamped (before ++ seg.raw) segs

namespace Dissection

variable {cs before : List Char} {segs : List Segment}

/-- The pieces of a dissection make up the text. -/
theorem flatMap_raw (h : Dissection cs segs) : segs.flatMap Segment.raw = cs := by
  induction h with
  | nil => rfl
  | cons stands more ih => rw [List.flatMap_cons, ih]

theorem raw_ne_nil (h : Dissection cs segs) : ∀ seg ∈ segs, seg.raw ≠ [] := by
  induction h with
  | nil => exact nofun
  | cons stands more ih => exact List.forall_mem_cons.2 ⟨stands.ne_nil, ih⟩

theorem exists_first {seg : Segment} {rest : List Char} (stands : seg.Stands rest) :
    ∃ c more, seg.raw ++ rest = c :: more :=
  List.exists_cons_of_ne_nil (List.append_ne_nil_of_left_ne_nil stands.ne_nil rest)

/-- A text has at most one dissection: what stands at its front is what is read there. -/
theorem unique (h : Dissection cs segs) {others : List Segment} (h' : Dissection cs others) :
    others = segs := by
  induction h generalizing others with
  | nil =>
    generalize hcs : ([] : List Char) = cs at h'
    cases h' with
    | nil => rfl
    | cons stands more =>
      obtain ⟨c, tail, htext⟩ := exists_first stands
      rw [htext] at hcs
      cases hcs
  | @cons seg rest segs stands more ih =>
    obtain ⟨c, tail, htext⟩ := exists_first stands
    have hread : Segment.read .start c tail = .ok (seg, rest) :=
      Segment.read_of_form (stands.form htext)
    rw [htext] at h'
    generalize hcs : c :: tail = cs at h'
    cases h' with
    | nil => cases hcs
    | @cons seg' rest' segs' stands' more' =>
      have hread' : Segment.read .start c tail = .ok (seg', rest') :=
        Segment.read_of_form (stands'.form hcs.symm)
      obtain ⟨rfl, rfl⟩ := Prod.mk.inj (Except.ok.inj (hread'.symm.trans hread))
      rw [ih more']

/-- A dissection is scanned piece by piece, each token at the place behind what is in front of
    it. -/
theorem scans (h : Dissection cs segs) (before : List Char) :
    Scans (.behind before) cs (stamped before segs ++ [⟨.eof, "", .behind (before ++ cs)⟩]) := by
  induction h generalizing before with
  | nil =>
    rw [List.append_nil]
    exact .done
  | @cons seg rest segs stands more ih =>
    obtain ⟨c, tail, htext⟩ := exists_first stands
    have hmore := ih (before ++ seg.raw)
    rw [← Position.after_behind, List.append_assoc, htext] at hmore
    rw [htext, stamped, List.append_assoc]
    exact .segment (stands.form htext) hmore

end Dissection

/-- What is scanned is a dissection, by induction on the scan. -/
theorem Scans.exists_dissection {pos : Position} {cs : List Char} {ts : List Token}
    (h : Scans pos cs ts) (before : List Char) (hpos : pos = .behind before) :
    ∃ segs, Dissection cs segs ∧
      ts = stamped before segs ++ [⟨.eof, "", .behind (before ++ cs)⟩] := by
  induction h generalizing before with
  | done =>
    subst hpos
    refine ⟨[], .nil, ?_⟩
    rw [List.append_nil]
    rfl
  | @segment pos c rest left seg ts form more ih =>
    subst hpos
    obtain ⟨htext, stands⟩ := Segment.form_iff_stands.1 form
    obtain ⟨segs, hsegs, rfl⟩ := ih _ (Position.after_behind before seg.raw)
    rw [← htext]
    refine ⟨seg :: segs, .cons stands hsegs, ?_⟩
    rw [stamped, List.append_assoc, List.append_assoc]

/-- The tokens of a text are those of its dissection. -/
theorem tokenize_eq_ok_iff_dissection {source : String} {ts : List Token} :
    tokenize source = .ok ts ↔ ∃ segs, Dissection source.toList segs ∧
      ts = stamped [] segs ++ [⟨.eof, "", .behind source.toList⟩] := by
  rw [tokenize_eq_ok_iff]
  constructor
  · exact fun h => h.exists_dissection [] rfl
  · rintro ⟨segs, hsegs, rfl⟩
    exact hsegs.scans []

-- ============================================================================
-- Places of tokens
-- ============================================================================

theorem Segment.kind_ne_eof_of_tokenAt {seg : Segment} {rest : List Char} {pos : Position}
    {t : Token} (stands : seg.Stands rest) (ht : seg.tokenAt pos = some t) : t.kind ≠ .eof := by
  obtain ⟨c, tail, htext⟩ := Dissection.exists_first stands
  exact (stands.form htext).kind_ne_eof ht

theorem Segment.pos_of_tokenAt {seg : Segment} {pos : Position} {t : Token}
    (ht : seg.tokenAt pos = some t) : t.pos = pos := by
  obtain ⟨face, -, rfl⟩ := Option.map_eq_some_iff.1 ht
  rfl

namespace Dissection

variable {cs : List Char} {segs : List Segment}

/-- A token of a dissected text stands behind a part of the text that is not all of it. -/
theorem exists_of_mem_stamped (h : Dissection cs segs) {before : List Char} {t : Token}
    (ht : t ∈ stamped before segs) :
    t.kind ≠ .eof ∧ ∃ front tail, cs = front ++ tail ∧ tail ≠ [] ∧
      t.pos = .behind (before ++ front) := by
  induction h generalizing before with
  | nil => cases ht
  | @cons seg rest segs stands more ih =>
    rcases List.mem_append.1 ht with ht | ht
    · have htoken := Option.mem_toList.1 ht
      refine ⟨Segment.kind_ne_eof_of_tokenAt stands htoken, [], seg.raw ++ rest, rfl,
        List.append_ne_nil_of_left_ne_nil stands.ne_nil rest, ?_⟩
      rw [List.append_nil]
      exact Segment.pos_of_tokenAt htoken
    · obtain ⟨hkind, front, tail, rfl, hne, hpos⟩ := ih ht
      refine ⟨hkind, seg.raw ++ front, tail, (List.append_assoc ..).symm, hne, ?_⟩
      rw [hpos, List.append_assoc]

/-- Behind a stretch every token stands behind the place where the stretch starts. -/
theorem pairwise_before (h : Dissection cs segs) (before : List Char) :
    List.Pairwise (fun t u : Token => t.pos.Before u.pos)
      (stamped before segs ++ [⟨.eof, "", .behind (before ++ cs)⟩]) := by
  induction h generalizing before with
  | nil => exact List.pairwise_singleton ..
  | @cons seg rest segs stands more ih =>
    rw [stamped, List.append_assoc, ← List.append_assoc before]
    refine List.pairwise_append.2 ⟨?_, ih _, ?_⟩
    · cases seg.tokenAt (.behind before) with
      | none => exact .nil
      | some t => exact List.pairwise_singleton ..
    · intro t ht u hu
      rw [Segment.pos_of_tokenAt (Option.mem_toList.1 ht)]
      have hbehind : ∃ front, u.pos = .behind (before ++ (seg.raw ++ front)) := by
        rcases List.mem_append.1 hu with hu | hu
        · obtain ⟨-, front, tail, -, -, hpos⟩ := more.exists_of_mem_stamped hu
          exact ⟨front, by rw [hpos, List.append_assoc]⟩
        · exact ⟨rest, by rw [List.mem_singleton.1 hu, List.append_assoc]⟩
      obtain ⟨front, hpos⟩ := hbehind
      rw [hpos, ← Position.after_behind]
      exact Position.before_after _ (List.append_ne_nil_of_left_ne_nil stands.ne_nil front)

end Dissection

/-- A text has tokens exactly if it can be dissected, and then in one way only: into stretches
    that are not empty and make up the text.  The tokens are those of the stretches in order,
    each at the place behind the text in front of it, and one end-of-text token behind them; so
    their places ascend, and all places of a text of less than `2 ^ 32` characters in front of
    its end fit into 32 bits; so does the end itself if the text is one character shorter. -/
theorem tokenize_dissects {source : String} (hsize : source.length < 2 ^ 32) {ts : List Token} :
    tokenize source = .ok ts ↔
      ∃ segs : List Segment, Dissection source.toList segs ∧
        (∀ others, Dissection source.toList others → others = segs) ∧
        segs.flatMap Segment.raw = source.toList ∧
        (∀ seg ∈ segs, seg.raw ≠ []) ∧
        ts = stamped [] segs ++ [⟨.eof, "", .behind source.toList⟩] ∧
        (∀ t ∈ stamped [] segs, t.kind ≠ .eof ∧ t.pos.line < 2 ^ 32 ∧ t.pos.column < 2 ^ 32) ∧
        (source.length + 1 < 2 ^ 32 → ∀ t ∈ ts, t.pos.line < 2 ^ 32 ∧ t.pos.column < 2 ^ 32) ∧
        ts.Pairwise fun t u => t.pos.Before u.pos := by
  rw [tokenize_eq_ok_iff_dissection]
  constructor
  · rintro ⟨segs, hsegs, rfl⟩
    have hfront : ∀ t ∈ stamped [] segs,
        t.kind ≠ .eof ∧ t.pos.line < 2 ^ 32 ∧ t.pos.column < 2 ^ 32 := by
      intro t ht
      obtain ⟨hkind, front, tail, htext, hne, hpos⟩ := hsegs.exists_of_mem_stamped ht
      have hlength : front.length + tail.length < 2 ^ 32 := by
        rw [← List.length_append, ← htext, String.length_toList]
        exact hsize
      have htail : 0 < tail.length := List.length_pos_iff.2 hne
      rw [hpos, List.nil_append]
      exact ⟨hkind, Position.behind_lt (by omega)⟩
    refine ⟨segs, hsegs, fun others => hsegs.unique, hsegs.flatMap_raw, hsegs.raw_ne_nil, rfl,
      hfront, fun hend t ht => ?_, hsegs.pairwise_before []⟩
    rcases List.mem_append.1 ht with ht | ht
    · exact (hfront t ht).2
    · rw [List.mem_singleton.1 ht]
      rw [← String.length_toList] at hend
      exact Position.behind_lt hend
  · rintro ⟨segs, hsegs, -, -, -, hts, -⟩
    exact ⟨segs, hsegs, hts⟩

/-- A text with a remark, a string over two lines, two symbols side by side and a comment. -/
def sampler : String := "10 rem <é\n20 Print \"é\\n\\q\n\"<=1.5>>=x_2 'ü"

/-- Its tokens. -/
def samplerTokens : List Token :=
  [⟨.integer, "10", ⟨1, 1⟩⟩, ⟨.newline, "\n", ⟨1, 4⟩⟩, ⟨.newline, "\n", ⟨1, 10⟩⟩,
    ⟨.integer, "20", ⟨2, 1⟩⟩, ⟨.keyword .print, "Print", ⟨2, 4⟩⟩, ⟨.text, "é\nq\n", ⟨2, 10⟩⟩,
    ⟨.symbol .lessEqual, "<=", ⟨3, 2⟩⟩, ⟨.decimal, "1.5", ⟨3, 4⟩⟩, ⟨.symbol .greater, ">", ⟨3, 7⟩⟩,
    ⟨.symbol .greaterEqual, ">=", ⟨3, 8⟩⟩, ⟨.identifier, "x_2", ⟨3, 10⟩⟩, ⟨.eof, "", ⟨3, 16⟩⟩]

theorem tokenize_dissects_sampler :
    sampler.length < 2 ^ 32 ∧ tokenize sampler = .ok samplerTokens ∧
      ∃ segs : List Segment, Dissection sampler.toList segs ∧
        (∀ others, Dissection sampler.toList others → others = segs) ∧
        samplerTokens = stamped [] segs ++ [⟨.eof, "", ⟨3, 16⟩⟩] ∧
        ∀ t ∈ samplerTokens, t.pos.line < 2 ^ 32 ∧ t.pos.column < 2 ^ 32 := by
  have hsize : sampler.length < 2 ^ 32 := by decide +kernel
  have htokens : tokenize sampler = .ok samplerTokens := by decide +kernel
  have hend : Position.behind sampler.toList = ⟨3, 16⟩ := by decide +kernel
  obtain ⟨segs, hsegs, hunique, -, -, hts, -, hfits, -⟩ := (tokenize_dissects hsize).1 htokens
  rw [hend] at hts
  exact ⟨hsize, htokens, segs, hsegs, hunique, hts, hfits (by decide +kernel)⟩

end LineBasic
