/-
  LineBasic.Proofs.TokenRecords

  Tokens read back from the journal.  The text of a token is escaped so that it stays
  on its line and within its quotes; `Quoted.unescape?` undoes the escapes, and
  `Token.ofRecord?` reads a whole line: the kind up to a blank, the place up to the next
  one, the text between quotes.  So the journal of a scan holds the tokens, one on each
  line, and journals that are the same are those of the same tokens.
-/

import LineBasic.Proofs.ExactDecimals
import LineBasic.Proofs.ModuleLines
import LineBasic.Proofs.ScanFaults

namespace LineBasic

/-- What stands in two lists joined stands in the first one or in the second. -/
theorem append_eq_append_cons {α : Type} {as bs xs ys : List α} {x : α}
    (h : as ++ bs = xs ++ x :: ys) :
    (∃ more, as = xs ++ x :: more ∧ ys = more ++ bs) ∨
      ∃ more, xs = as ++ more ∧ bs = more ++ x :: ys := by
  rcases List.append_eq_append_iff.1 h with ⟨more, hxs, hbs⟩ | ⟨more, has, hmore⟩
  · exact .inr ⟨more, hxs, hbs⟩
  · cases more with
    | nil => exact .inr ⟨[], by rw [has, List.append_nil, List.append_nil], hmore.symm⟩
    | cons y more =>
      obtain ⟨rfl, rfl⟩ := List.cons.inj hmore
      exact .inl ⟨more, has, rfl⟩

-- ============================================================================
-- Escaped texts
-- ============================================================================

namespace Quoted

/-- The character that a backslash and another character stand for. -/
def ofShort? : Char → Option Char
  | '\\' => some '\\'
  | 'n' => some '\n'
  | 'r' => some '\r'
  | 't' => some '\t'
  | '"' => some '"'
  | _ => none

/-- The text that was escaped. -/
def unescape? : List Char → Option (List Char)
  | [] => some []
  | '\\' :: 'x' :: a :: b :: rest => do
    let high ← Constant.hexValue? a
    let low ← Constant.hexValue? b
    (unescape? rest).map (Char.ofNat (16 * high + low) :: ·)
  | '\\' :: d :: rest => do
    let c ← ofShort? d
    (unescape? rest).map (c :: ·)
  | c :: rest => if c = '\\' then none else (unescape? rest).map (c :: ·)

/-- A character that can stand on a journal line. -/
def Printable (c : Char) : Prop := 0x20 ≤ c.toNat ∧ c.toNat ≠ 0x7f

instance (c : Char) : Decidable (Printable c) := inferInstanceAs (Decidable (_ ∧ _))

/-- How one character is written: as it is, behind a backslash, or by its number. -/
inductive Code (c : Char) : List Char → Prop
  | plain (slash : c ≠ '\\') (quote : c ≠ '"') (printable : Printable c) : Code c [c]
  | short {d : Char} (stands : ofShort? d = some c) : Code c ['\\', d]
  | number (small : c.toNat < 0x80) : Code c ('\\' :: 'x' :: hexPair c.toNat)

/-- A character is escaped in one of three ways, and each tells which character it was. -/
theorem code_escapeChar (c : Char) : Code c (escapeChar c) := by
  unfold escapeChar
  split
  · next h => subst h; exact .short rfl
  next hslash =>
  split
  · next h => subst h; exact .short rfl
  split
  · next h => subst h; exact .short rfl
  split
  · next h => subst h; exact .short rfl
  split
  · next h => subst h; exact .short rfl
  next hquote =>
  split
  · next h => exact .number (by omega)
  · next h => exact .plain hslash hquote ⟨by omega, by omega⟩

theorem ne_x_of_ofShort? {c d : Char} (h : ofShort? d = some c) : d ≠ 'x' := by
  rintro rfl
  cases h

theorem printable_of_ofShort? {c d : Char} (h : ofShort? d = some c) : Printable d := by
  unfold ofShort? at h
  split at h
  case h_6 => cases h
  all_goals decide

theorem printable_hexDigit {n : Nat} (h : n < 16) : Printable (hexDigit n) ∧ hexDigit n ≠ '"' := by
  revert n
  decide

variable {c : Char} {code : List Char}

/-- Whatever the character, what is written is printable. -/
theorem Code.printable (h : Code c code) : ∀ d ∈ code, Printable d := by
  cases h with
  | plain _ _ printable => exact List.forall_mem_singleton.2 printable
  | short stands =>
    exact List.forall_mem_cons.2 ⟨by decide,
      List.forall_mem_singleton.2 (printable_of_ofShort? stands)⟩
  | number small =>
    refine List.forall_mem_cons.2 ⟨by decide, List.forall_mem_cons.2 ⟨by decide, ?_⟩⟩
    exact List.forall_mem_cons.2 ⟨(printable_hexDigit (by omega)).1,
      List.forall_mem_singleton.2 (printable_hexDigit (by omega)).1⟩

/-- Behind the code of a character nothing is escaped. -/
theorem Code.escapes_append (h : Code c code) (cs : List Char) :
    escapes (code ++ cs) = escapes cs := by
  cases h with
  | plain slash _ _ => exact escapes_cons slash cs
  | short stands => exact escapes_slash _ cs
  | number small =>
    have hdigit : ∀ n < 16, hexDigit n ≠ '\\' := by decide
    rw [hexPair, List.cons_append, List.cons_append, List.cons_append, List.cons_append,
      List.nil_append, escapes_slash, escapes_cons (hdigit _ (by omega)),
      escapes_cons (hdigit _ (by omega))]

/-- A quote in the code of a character is escaped. -/
theorem Code.escapes_of_quote (h : Code c code) {inner left : List Char}
    (hsplit : code = inner ++ '"' :: left) : escapes inner = true := by
  cases h with
  | plain _ quote _ =>
    have hmem : '"' ∈ [c] := by rw [hsplit]; exact List.mem_append_right _ (List.mem_cons_self ..)
    exact absurd (List.mem_singleton.1 hmem).symm quote
  | short stands =>
    cases inner with
    | nil => exact absurd (List.cons.inj hsplit).1 (by decide)
    | cons d inner =>
      obtain ⟨rfl, htail⟩ := List.cons.inj hsplit
      cases inner with
      | nil => decide
      | cons d' inner => exact absurd (List.cons.inj htail).2.symm (by simp)
  | number small =>
    have hmem : '"' ∈ '\\' :: 'x' :: hexPair c.toNat := by
      rw [hsplit]
      exact List.mem_append_right _ (List.mem_cons_self ..)
    simp only [hexPair, List.mem_cons, List.not_mem_nil, or_false] at hmem
    rcases hmem with hmem | hmem | hmem | hmem
    · exact absurd hmem (by decide)
    · exact absurd hmem (by decide)
    · exact absurd hmem.symm (printable_hexDigit (by omega)).2
    · exact absurd hmem.symm (printable_hexDigit (by omega)).2

/-- A character other than a backslash stands for itself. -/
theorem unescape?_plain (h : c ≠ '\\') (cs : List Char) :
    unescape? (c :: cs) = (unescape? cs).map (c :: ·) := by
  rw [unescape?, if_neg h]
  · rintro a b rest rfl
    exact absurd rfl h
  · rintro d rest rfl
    exact absurd rfl h

/-- A code is read back, whatever stands behind it. -/
theorem Code.unescape?_append (h : Code c code) (cs : List Char) :
    unescape? (code ++ cs) = (unescape? cs).map (c :: ·) := by
  cases h with
  | plain slash _ _ => exact unescape?_plain slash cs
  | @short d stands =>
    have hx := ne_x_of_ofShort? stands
    rw [List.cons_append, List.singleton_append, unescape?, stands]
    · rfl
    · rintro a b rest rfl
      exact absurd rfl hx
  | number small =>
    have hdigit : ∀ n < 16, Constant.hexValue? (hexDigit n) = some n := by decide
    have hvalue : 16 * (c.toNat / 16) + c.toNat % 16 = c.toNat := Nat.div_add_mod _ 16
    rw [hexPair, List.cons_append, List.cons_append, List.cons_append, List.cons_append,
      List.nil_append, unescape?, hdigit _ (by omega), hdigit _ (by omega)]
    show (unescape? cs).map (Char.ofNat (16 * (c.toNat / 16) + c.toNat % 16) :: ·) = _
    rw [hvalue, Char.ofNat_toNat]

/-- Escapes are undone. -/
theorem unescape?_escape (s : String) : unescape? (escape s).toList = some s.toList := by
  rw [escape, String.toList_ofList]
  induction s.toList with
  | nil => rfl
  | cons c cs ih =>
    rw [List.flatMap_cons, (code_escapeChar c).unescape?_append, ih]
    rfl

/-- Different texts are escaped differently. -/
theorem escape_injective : Function.Injective escape := by
  intro s t h
  have hread := unescape?_escape s
  rw [h, unescape?_escape] at hread
  exact (String.toList_inj.1 (Option.some.inj hread)).symm

/-- The text stays on its line and within its quotes. -/
structure Guarded (text : String) : Prop where
  printable : ∀ c ∈ text.toList, Printable c
  quotes : ∀ inner left, text.toList = inner ++ '"' :: left → escapes inner = true

/-- A quote in an escaped text has a backslash in front of it that escapes it. -/
theorem escapes_of_flatMap {cs inner left : List Char}
    (h : cs.flatMap escapeChar = inner ++ '"' :: left) : escapes inner = true := by
  induction cs generalizing inner with
  | nil => exact absurd h.symm (by simp)
  | cons c cs ih =>
    have hcode := code_escapeChar c
    rw [List.flatMap_cons] at h
    -- The quote stands in the code of the first character, or behind it.
    rcases append_eq_append_cons h with ⟨more, hquote, -⟩ | ⟨more, rfl, hmore⟩
    · exact hcode.escapes_of_quote hquote
    · rw [hcode.escapes_append]
      exact ih hmore

/-- No quote ends an escaped text early. -/
theorem guarded_escape (s : String) : Guarded (escape s) := by
  constructor
  · intro c hc
    rw [escape, String.toList_ofList] at hc
    obtain ⟨d, -, hd⟩ := List.mem_flatMap.1 hc
    exact (code_escapeChar d).printable c hd
  · intro inner left h
    rw [escape, String.toList_ofList] at h
    exact escapes_of_flatMap h

end Quoted

-- ============================================================================
-- Places
-- ============================================================================

namespace Position

/-- Reads a place at the front of a text, and gives what is left. -/
def ofText (cs : List Char) : Position × List Char :=
  let behind := (cs.dropWhile Char.isDigit).drop 1
  (⟨Decimal.ofDigits (cs.takeWhile Char.isDigit), Decimal.ofDigits (behind.takeWhile Char.isDigit)⟩,
    behind.dropWhile Char.isDigit)

/-- A place is two numbers with a colon between them. -/
theorem toList_text (p : Position) :
    p.text.toList = Decimal.digits p.line ++ ':' :: Decimal.digits p.column := by
  show (toString p.line ++ toString ":" ++ toString p.column).toList = _
  rw [String.toList_append, String.toList_append, List.append_assoc, Nat.toString_eq_repr,
    Nat.toString_eq_repr, Nat.toList_repr, Nat.toList_repr]
  rfl

/-- A place is read up to its last digit. -/
theorem ofText_append (p : Position) {rest : List Char}
    (h : ∀ c ∈ rest.head?, c.isDigit = false) : ofText (p.text.toList ++ rest) = (p, rest) := by
  have hline := Decimal.allDigits_digits p.line
  have hcolumn := Decimal.allDigits_digits p.column
  have htext : p.text.toList ++ rest
      = Decimal.digits p.line ++ ':' :: (Decimal.digits p.column ++ rest) := by
    rw [toList_text, List.append_assoc, List.cons_append]
  have hbehind : (p.text.toList ++ rest).dropWhile Char.isDigit
      = ':' :: (Decimal.digits p.column ++ rest) := by
    rw [htext, dropWhile_run hline (by simp)]
  unfold ofText
  dsimp only
  rw [hbehind, htext, takeWhile_run hline (by simp), List.drop_one, List.tail_cons,
    takeWhile_run hcolumn h, dropWhile_run hcolumn h, Decimal.ofDigits_digits,
    Decimal.ofDigits_digits]

end Position

-- ============================================================================
-- Records
-- ============================================================================

/-- The name of a kind tells the kind. -/
theorem TokenKind.ofName?_name (k : TokenKind) : ofName? k.name = some k := by
  cases k with
  | keyword k => cases k <;> decide +kernel
  | symbol s => cases s <;> decide +kernel
  | _ => decide +kernel

/-- Names of kinds have no blanks. -/
theorem TokenKind.printable_name (k : TokenKind) :
    ∀ c ∈ k.name.toList, c ≠ ' ' ∧ Quoted.Printable c := by
  have hall : k.name.toList.all (fun c => decide (c ≠ ' ' ∧ Quoted.Printable c)) = true := by
    cases k with
    | keyword k => cases k <;> decide
    | symbol s => cases s <;> decide
    | _ => decide
  exact fun c hc => of_decide_eq_true (List.all_eq_true.1 hall c hc)

namespace Token

/-- The text of a token of some kind, from what its record shows behind the place. -/
def lexeme? (kind : TokenKind) (shown : List Char) : Option String :=
  match kind with
  | .eof => some ""
  | .newline => some "\n"
  | _ => (Quoted.unescape? (shown.drop 2).dropLast).map String.ofList

/-- The token that a record tells of. -/
def ofRecord? (line : String) : Option Token := do
  let behind := line.toList.drop 6
  let kind ← TokenKind.ofName? (String.ofList (behind.takeWhile (· ≠ ' ')))
  let found := Position.ofText ((behind.dropWhile (· ≠ ' ')).drop 3)
  let lexeme ← lexeme? kind found.2
  return ⟨kind, lexeme, found.1⟩

/-- The two end marks carry the text of their kind. -/
structure Marks (t : Token) : Prop where
  eof : t.kind = .eof → t.lexeme = ""
  newline : t.kind = .newline → t.lexeme = "\n"

/-- What every record starts with: the kind of the token and its place. -/
def heading (t : Token) : String := s!"token {t.kind.name} @ {t.pos.text}"

/-- The text that a record shows behind the place of a token. -/
def shown (t : Token) : List Char :=
  match t.kind with
  | .eof | .newline => []
  | _ => ' ' :: '"' :: ((Quoted.escape t.lexeme).toList ++ ['"'])

/-- A record starts with the kind of the token and its place. -/
theorem toList_heading (t : Token) :
    t.heading.toList = "token ".toList ++
      (t.kind.name.toList ++ ' ' :: '@' :: ' ' :: t.pos.text.toList) := by
  show (toString "token " ++ toString t.kind.name ++ toString " @ "
    ++ toString t.pos.text).toList = _
  rw [String.toList_append, String.toList_append, String.toList_append, List.append_assoc,
    List.append_assoc]
  rfl

theorem toList_append_quoted (s text : String) :
    (s ++ " \"" ++ text ++ "\"").toList = s.toList ++ ' ' :: '"' :: (text.toList ++ ['"']) := by
  rw [String.toList_append, String.toList_append, String.toList_append, List.append_assoc,
    List.append_assoc]
  rfl

/-- A record shows the text of the token behind kind and place. -/
theorem toList_record (t : Token) : t.record.toList = t.heading.toList ++ t.shown := by
  obtain ⟨kind, lexeme, pos⟩ := t
  cases kind with
  | eof => exact (List.append_nil _).symm
  | newline => exact (List.append_nil _).symm
  | _ => exact toList_append_quoted (heading _) (Quoted.escape lexeme)

/-- What is shown does not start with a digit, so the place ends there. -/
theorem head_shown (t : Token) : ∀ c ∈ t.shown.head?, c.isDigit = false := by
  unfold shown
  split
  · exact nofun
  · exact nofun
  · rintro _ ⟨⟩
    rfl

/-- What is shown is read back as the text of the token. -/
theorem lexeme?_shown {t : Token} (h : t.Marks) : lexeme? t.kind t.shown = some t.lexeme := by
  obtain ⟨kind, lexeme, pos⟩ := t
  cases kind with
  | eof => exact congrArg some (h.eof rfl).symm
  | newline => exact congrArg some (h.newline rfl).symm
  | _ =>
    show (Quoted.unescape? ((Quoted.escape lexeme).toList ++ ['"']).dropLast).map String.ofList = _
    rw [List.dropLast_concat, Quoted.unescape?_escape, Option.map_some, String.ofList_toList]

/-- A record is read back. -/
theorem ofRecord?_record {t : Token} (h : t.Marks) : ofRecord? t.record = some t := by
  have hname : ∀ c ∈ t.kind.name.toList, decide (c ≠ ' ') = true := fun c hc =>
    decide_eq_true (t.kind.printable_name c hc).1
  have hbehind : t.record.toList.drop 6
      = t.kind.name.toList ++ ' ' :: '@' :: ' ' :: (t.pos.text.toList ++ t.shown) := by
    rw [toList_record, toList_heading, List.append_assoc, List.append_assoc]
    rfl
  have hplace : Position.ofText (List.drop 3 (' ' :: '@' :: ' ' :: (t.pos.text.toList ++ t.shown)))
      = (t.pos, t.shown) := t.pos.ofText_append t.head_shown
  unfold ofRecord?
  dsimp only
  rw [hbehind, takeWhile_run hname (by simp), dropWhile_run hname (by simp), String.ofList_toList,
    TokenKind.ofName?_name, hplace, Option.bind_eq_bind, Option.bind_some, lexeme?_shown h]
  rfl

theorem printable_text (p : Position) : ∀ c ∈ p.text.toList, Quoted.Printable c := by
  have hdigit : ∀ n, ∀ c ∈ Decimal.digits n, Quoted.Printable c := by
    intro n c hc
    obtain ⟨hlow, hhigh⟩ := Bool.and_eq_true_iff.1 (Decimal.allDigits_digits n c hc)
    have hlow' : 48 ≤ c.toNat := of_decide_eq_true hlow
    have hhigh' : c.toNat ≤ 57 := of_decide_eq_true hhigh
    exact ⟨by omega, by omega⟩
  rw [Position.toList_text]
  exact List.forall_mem_append.2 ⟨hdigit _, List.forall_mem_cons.2 ⟨by decide, hdigit _⟩⟩

/-- What is shown is printable, whatever the token holds. -/
theorem printable_shown (t : Token) : ∀ c ∈ t.shown, Quoted.Printable c := by
  unfold shown
  split
  · exact nofun
  · exact nofun
  · refine List.forall_mem_cons.2 ⟨by decide, List.forall_mem_cons.2 ⟨by decide, ?_⟩⟩
    exact List.forall_mem_append.2 ⟨(Quoted.guarded_escape _).printable,
      List.forall_mem_singleton.2 (by decide)⟩

/-- A record is printable, so it stays on one line. -/
theorem printable_record (t : Token) : ∀ c ∈ t.record.toList, Quoted.Printable c := by
  have hword : "token ".toList.all (fun c => decide (Quoted.Printable c)) = true := by decide
  rw [toList_record, toList_heading]
  refine List.forall_mem_append.2 ⟨List.forall_mem_append.2 ⟨fun c hc =>
    of_decide_eq_true (List.all_eq_true.1 hword c hc), ?_⟩, t.printable_shown⟩
  refine List.forall_mem_append.2 ⟨fun c hc => (t.kind.printable_name c hc).2, ?_⟩
  exact List.forall_mem_cons.2 ⟨by decide, List.forall_mem_cons.2 ⟨by decide,
    List.forall_mem_cons.2 ⟨by decide, printable_text t.pos⟩⟩⟩

/-- A record is written on one line. -/
theorem oneLine_record (t : Token) : OneLine t.record := fun h =>
  absurd (t.printable_record _ h) (by decide)

end Token

/-- Ends of lines and of the text carry the text of their kind. -/
theorem Segment.Form.marks {c : Char} {rest left : List Char} {seg : Segment} {pos : Position}
    {t : Token} (h : seg.Form c rest left) (ht : seg.tokenAt pos = some t) : t.Marks := by
  cases h with
  | blank => cases ht
  | comment => cases ht
  | newline => cases ht; exact ⟨nofun, fun _ => rfl⟩
  | remark => cases ht; exact ⟨nofun, fun _ => rfl⟩
  | _ => cases ht; exact ⟨nofun, nofun⟩

/-- All tokens of a scan, also of one that fails, can be read back from their records. -/
theorem Scan.marks_of_mem {pos : Position} {cs : List Char} :
    ∀ t ∈ (run pos cs).tokens, t.Marks := by
  fun_induction run pos cs with
  | case1 pos => exact List.forall_mem_singleton.2 ⟨fun _ => rfl, TokenKind.noConfusion⟩
  | case2 pos c rest e hread => exact fun t ht => absurd ht List.not_mem_nil
  | case3 pos c rest seg left hread scan ih =>
    refine List.forall_mem_append.2 ⟨fun t ht => ?_, ih⟩
    exact (Segment.read_eq_ok_iff.1 hread).marks (Option.mem_toList.1 ht)

-- ============================================================================
-- Journals of scans
-- ============================================================================

/-- A transcript is the bytes of a text. -/
theorem transcript_eq_toUTF8 (lines : List String) :
    transcript lines = (String.join (lines.map (· ++ "\n"))).toUTF8 := by
  induction lines with
  | nil => rfl
  | cons line rest ih =>
    rw [transcript, ih, List.map_cons, String.join_cons, String.toUTF8_eq_toByteArray,
      String.toUTF8_eq_toByteArray, String.toUTF8_eq_toByteArray, String.toUTF8_eq_toByteArray,
      String.toByteArray_append, String.toByteArray_append]

namespace Scan

/-- What a scan writes into a journal that takes everything. -/
def journal (source : String) : ByteArray :=
  ((workOn source).run.run ([], .ofJournal (.into .unbounded))).2.2.journal.received

theorem journal_eq (source : String) :
    journal source = transcript ((Scan.of source).tokens.map Token.record) := by
  rw [journal, run_workOn]
  exact received_enterAll_records _

/-- The lines of the journal are the records of the tokens. -/
theorem exists_journal_text (source : String) :
    ∃ text : String, journal source = text.toUTF8 ∧ text.toList.splitOn '\n' =
      (Scan.of source).tokens.map (fun t => t.record.toList) ++ [[]] := by
  refine ⟨_, (journal_eq source).trans (transcript_eq_toUTF8 _), ?_⟩
  rw [splitOn_join, List.map_map]
  · rfl
  · intro line hline
    obtain ⟨t, -, rfl⟩ := List.mem_map.1 hline
    exact t.oneLine_record

/-- Journals tell tokens apart. -/
theorem tokens_eq_of_journal {a b : String} (h : journal a = journal b) :
    (Scan.of a).tokens = (Scan.of b).tokens := by
  obtain ⟨text, htext, hlines⟩ := exists_journal_text a
  obtain ⟨text', htext', hlines'⟩ := exists_journal_text b
  have hsame : text = text' := String.toByteArray_inj.1 (htext.symm.trans (h.trans htext'))
  rw [hsame, hlines'] at hlines
  have hrecords := congrArg (List.map fun line => Token.ofRecord? (String.ofList line))
    (List.append_cancel_right hlines)
  have hread : ∀ source, ((Scan.of source).tokens.map fun t => t.record.toList).map
      (fun line => Token.ofRecord? (String.ofList line)) = (Scan.of source).tokens.map some := by
    intro source
    rw [List.map_map]
    refine List.map_congr_left fun t ht => ?_
    rw [Function.comp_apply, String.ofList_toList, Token.ofRecord?_record (marks_of_mem t ht)]
  rw [hread, hread] at hrecords
  exact ((List.map_inj_right fun _ _ => Option.some.inj).1 hrecords).symm

/-- The journal of a scan is a faithful record.  Every token, in order, has one line of it, from
    which it can be read back.  Escaping is what makes this so: no two texts look the same when
    escaped, and none leaves its line or its quotes.  Hence texts whose journals are the same have
    the same tokens. -/
theorem journal_faithful :
    (∀ source, ∃ text : String, journal source = text.toUTF8 ∧
      text.toList.splitOn '\n' = (Scan.of source).tokens.map (fun t => t.record.toList) ++ [[]] ∧
      ∀ t ∈ (Scan.of source).tokens, Token.ofRecord? t.record = some t) ∧
    Function.Injective Quoted.escape ∧
    (∀ s, Quoted.Guarded (Quoted.escape s)) ∧
    ∀ a b ts us, tokenize a = .ok ts → tokenize b = .ok us → journal a = journal b → ts = us := by
  refine ⟨fun source => ?_, Quoted.escape_injective, Quoted.guarded_escape, ?_⟩
  · obtain ⟨text, htext, hlines⟩ := exists_journal_text source
    exact ⟨text, htext, hlines, fun t ht => Token.ofRecord?_record (marks_of_mem t ht)⟩
  · intro a b ts us ha hb h
    obtain ⟨-, rfl⟩ := result_eq_ok_iff.1 ha
    obtain ⟨-, rfl⟩ := result_eq_ok_iff.1 hb
    exact tokens_eq_of_journal h

/-- A string literal that holds a quote, a line end, a whole record, a backslash and a bell. -/
def poser : Token := ⟨.text, "\"\ntoken INT @ 1:1 \\\x07", ⟨1, 3⟩⟩

/-- A text with this literal, and a comment behind it. -/
def posing : String := "5 \"\\\"\ntoken INT @ 1:1 \\\\\x07\" 'a"

/-- The same text with another comment. -/
def disguised : String := "5 \"\\\"\ntoken INT @ 1:1 \\\\\x07\" 'b"

theorem journal_faithful_posing :
    (tokenize posing = .ok [⟨.integer, "5", ⟨1, 1⟩⟩, poser, ⟨.eof, "", ⟨2, 24⟩⟩] ∧
      journal posing = journal disguised ∧
      ∃ us, tokenize disguised = .ok us ∧
        [⟨.integer, "5", ⟨1, 1⟩⟩, poser, ⟨.eof, "", ⟨2, 24⟩⟩] = us) ∧
    poser ∈ (Scan.of posing).tokens ∧
    poser.record = "token STRING @ 1:3 \"\\\"\\ntoken INT @ 1:1 \\\\\\x07\"" ∧
    Token.ofRecord? poser.record = some poser := by
  have hposing : tokenize posing = .ok [⟨.integer, "5", ⟨1, 1⟩⟩, poser, ⟨.eof, "", ⟨2, 24⟩⟩] := by
    decide +kernel
  have hdisguised : tokenize disguised
      = .ok [⟨.integer, "5", ⟨1, 1⟩⟩, poser, ⟨.eof, "", ⟨2, 24⟩⟩] := by
    decide +kernel
  have hjournal : journal posing = journal disguised := by
    rw [journal_eq, journal_eq, (result_eq_ok_iff.1 hposing).2, (result_eq_ok_iff.1 hdisguised).2]
  have hmem : poser ∈ (Scan.of posing).tokens := by
    rw [(result_eq_ok_iff.1 hposing).2]
    exact List.mem_cons_of_mem _ (List.mem_cons_self ..)
  obtain ⟨hread, -, -, hsame⟩ := journal_faithful
  obtain ⟨text, -, -, hrecords⟩ := hread posing
  refine ⟨⟨hposing, hjournal, _, hdisguised, ?_⟩, hmem, by decide +kernel, hrecords poser hmem⟩
  exact hsame posing disguised _ _ hposing hdisguised hjournal

end Scan

end LineBasic
