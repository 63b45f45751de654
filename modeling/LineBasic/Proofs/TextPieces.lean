/-
  LineBasic.Proofs.TextPieces

  What the text of a module is put together from.  Some characters divide the text: a
  line ends in one, the name of a global begins with another, and blanks and
  punctuation stand between words.  Numbers, temporaries, slots and labels hold none of
  them, where the names of variables do not, so that lines, names and words can be read
  off the text again.
-/

import LineBasic.Desk.Lower
import LineBasic.Proofs.SingleAssignment

namespace LineBasic

-- ============================================================================
-- Dividing characters
-- ============================================================================

/-- The characters that divide the text of a module: the end of a line, and the sign in front of
    the name of a global. -/
def dividers : List Char := ['\n', '@']

/-- The characters that divide a line into words. -/
def separators : List Char := [' ', ',', '(', ')']

/-- The characters that stand in no number and in no name. -/
def marks : List Char := dividers ++ separators

/-- Whether no character of a row is one of the given ones. -/
def avoids (marks cs : List Char) : Bool := cs.all fun d => !marks.contains d

/-- The text does not hold the character. -/
def Lacks (c : Char) (s : String) : Prop := c ∉ s.toList

section Lacks

variable {c : Char} {s t : String}

theorem lacks_append : Lacks c (s ++ t) ↔ Lacks c s ∧ Lacks c t := by
  rw [Lacks, String.toList_append, List.mem_append, not_or]
  rfl

theorem Lacks.append (hs : Lacks c s) (ht : Lacks c t) : Lacks c (s ++ t) :=
  lacks_append.2 ⟨hs, ht⟩

theorem lacks_string : Lacks c (toString s) ↔ Lacks c s := Iff.rfl

theorem lacks_ofList {cs : List Char} : Lacks c (String.ofList cs) ↔ c ∉ cs := by
  rw [Lacks, String.toList_ofList]

end Lacks

theorem head_ofList {c : Char} {cs : List Char} :
    (String.ofList (c :: cs)).toList.head? = some c := by
  rw [String.toList_ofList]
  rfl

variable {c : Char}

theorem sign_mem_dividers : '@' ∈ dividers := by decide

theorem marked (hc : c ∈ dividers) : c ∈ marks := List.mem_append_left _ hc

/-- A text that avoids marks has none of them. -/
theorem not_mem_of_avoids {marks cs : List Char} (hc : c ∈ marks) (h : avoids marks cs = true) :
    c ∉ cs := by
  intro hmem
  have hother := List.all_eq_true.1 h c hmem
  rw [List.contains_iff_mem.2 hc] at hother
  cases hother

/-- A text that is written out is looked through by its characters, not by its bytes. -/
theorem lacks_fixed {marks cs : List Char} (hc : c ∈ marks) (h : avoids marks cs = true) :
    Lacks c (String.ofList cs) :=
  lacks_ofList.2 (not_mem_of_avoids hc h)

theorem eq_of_dividers (hc : c ∈ dividers) : c = '\n' ∨ c = '@' := by
  simpa [dividers] using hc

-- ============================================================================
-- Numbers
-- ============================================================================

/-- Whether a character can stand in the literal of a double. -/
def isLiteralChar (c : Char) : Bool :=
  c.isDigit || ['.', '-', 'e', 'x', 'A', 'B', 'C', 'D', 'E', 'F'].contains c

theorem isLiteralChar_of_marks (hc : c ∈ marks) : isLiteralChar c = false := by
  have hall : marks.all (fun d => !isLiteralChar d) = true := by decide
  exact Bool.not_eq_true' _ ▸ List.all_eq_true.1 hall c hc

section Numbers

variable (hc : isLiteralChar c = false)

include hc

theorem ne_of_isLiteralChar {d : Char} (h : isLiteralChar d = true) : c ≠ d := by
  rintro rfl
  rw [hc] at h
  cases h

theorem not_mem_digits (n : Nat) : c ∉ Nat.toDigits 10 n := by
  intro h
  rw [isLiteralChar, Label.isDigit_of_mem_digits h] at hc
  cases hc

theorem lacks_toString (n : Nat) : Lacks c (toString n) := by
  rw [Lacks, Nat.toString_eq_repr, Nat.toList_repr]
  exact not_mem_digits hc n

namespace Numeral

theorem Layout.not_mem_wholeEnd (layout : Layout) : c ∉ layout.wholeEnd := by
  unfold wholeEnd
  split
  · rw [List.mem_cons, List.mem_singleton, not_or]
    exact ⟨ne_of_isLiteralChar hc (by decide), ne_of_isLiteralChar hc (by decide)⟩
  · exact List.not_mem_nil

theorem Digits.not_mem_of (d : Decimal) : c ∉ (Digits.of d).digits := by
  intro h
  have hdrop := (List.dropWhile_sublist _).subset (List.mem_reverse.1 h)
  exact not_mem_digits hc _ (List.mem_reverse.1 hdrop)

/-- A number with its point in place has no mark in it. -/
theorem Layout.not_mem_placed (layout : Layout) {d : Digits} (h : c ∉ d.digits) :
    c ∉ layout.placed d := by
  have hzero : c ≠ '0' := ne_of_isLiteralChar hc (by decide)
  have hpoint : c ≠ '.' := ne_of_isLiteralChar hc (by decide)
  unfold placed
  split
  · simp [h, hzero, hpoint]
  · split
    · simp [h, hzero, layout.not_mem_wholeEnd hc]
    · rw [List.mem_append, List.mem_cons, not_or, not_or]
      exact ⟨fun hmem => h (List.mem_of_mem_take hmem), hpoint,
        fun hmem => h (List.mem_of_mem_drop hmem)⟩

/-- A number with a power has no mark in it. -/
theorem Layout.not_mem_scientific (layout : Layout) {d : Digits} (h : c ∉ d.digits) :
    c ∉ layout.scientific d := by
  have hend := layout.not_mem_wholeEnd hc
  have hexponent := not_mem_digits hc (d.point - 1).natAbs
  have hsign : c ∉ if d.point - 1 < 0 then ['-'] else [] := by
    split
    · rw [List.mem_singleton]
      exact ne_of_isLiteralChar hc (by decide)
    · exact List.not_mem_nil
  unfold scientific
  dsimp only
  rw [List.mem_append, List.mem_append, List.mem_cons, not_or, not_or, not_or]
  refine ⟨⟨?_, ne_of_isLiteralChar hc (by decide), hsign⟩, hexponent⟩
  split
  · exact List.not_mem_nil
  · next d₁ hd =>
    rw [hd, List.mem_singleton] at h
    rw [List.mem_cons, not_or]
    exact ⟨h, hend⟩
  · next d₁ rest _ hd =>
    rw [hd, List.mem_cons, not_or] at h
    rw [List.mem_cons, List.mem_cons, not_or, not_or]
    exact ⟨h.1, ne_of_isLiteralChar hc (by decide), h.2⟩

/-- The size of a double is written without marks, with a power or without. -/
theorem Layout.not_mem_magnitude (layout : Layout) (bits : Nat) : c ∉ layout.magnitude bits := by
  have hdigits := Digits.not_mem_of hc (Decimal.shortest bits)
  unfold magnitude
  split
  · rw [List.mem_cons, not_or]
    exact ⟨ne_of_isLiteralChar hc (by decide), layout.not_mem_wholeEnd hc⟩
  · dsimp only
    split
    · exact layout.not_mem_placed hc hdigits
    · exact layout.not_mem_scientific hc hdigits

/-- Hexadecimal digits are no marks. -/
theorem not_mem_hexDigits (n : Nat) : c ∉ (Nat.toDigits 16 n).map Char.toUpper := by
  induction n using Nat.strongRecOn with
  | ind n ih =>
    have hdigits : ∀ d < 16, isLiteralChar d.digitChar.toUpper = true := by decide
    rw [Nat.toDigits_eq_if (by decide)]
    split
    · next hn => simpa using ne_of_isLiteralChar hc (hdigits n hn)
    · rw [List.map_append, List.mem_append, not_or]
      refine ⟨ih _ (by omega), ?_⟩
      simpa using ne_of_isLiteralChar hc (hdigits _ (Nat.mod_lt n (by decide)))

/-- A literal holds digits, also hexadecimal ones, and what stands between them. -/
theorem lacks_literal (x : Float) : Lacks c (literal x) := by
  unfold literal
  split
  · rw [Layout.finite, lacks_ofList, List.mem_append, not_or]
    refine ⟨?_, Layout.not_mem_magnitude hc _ _⟩
    split
    · rw [List.mem_singleton]
      exact ne_of_isLiteralChar hc (by decide)
    · exact List.not_mem_nil
  · have hsign : "0x" = String.ofList ['0', 'x'] := rfl
    rw [hsign, hexWord]
    refine .append (lacks_ofList.2 ?_) (lacks_ofList.2 ?_)
    · rw [List.mem_cons, List.mem_singleton, not_or]
      exact ⟨ne_of_isLiteralChar hc (by decide), ne_of_isLiteralChar hc (by decide)⟩
    · rw [List.mem_append, not_or]
      refine ⟨fun h => ?_, not_mem_hexDigits hc _⟩
      exact ne_of_isLiteralChar hc (by decide) (List.eq_of_mem_replicate h)

end Numeral

end Numbers

-- ============================================================================
-- Names and operands
-- ============================================================================

section Names

variable (hc : c ∈ marks)

include hc

theorem ne_of_marks {d : Char} (h : d ∉ marks) : c ≠ d := fun heq => h (heq ▸ hc)

theorem Temp.lacks_text (t : Temp) : Lacks c t.text := by
  rw [Lacks, toList_text, List.mem_cons, List.mem_cons, not_or, not_or]
  exact ⟨ne_of_marks hc (by decide), ne_of_marks hc (by decide),
    not_mem_digits (isLiteralChar_of_marks hc) _⟩

theorem lacks_slotText {x : String} (h : Lacks c x) : Lacks c (slotText x) := by
  rw [Lacks, toList_slotText, List.mem_cons, List.mem_append, not_or, not_or]
  exact ⟨ne_of_marks hc (by decide), h, not_mem_of_avoids hc (by decide)⟩

/-- Labels have no marks, by induction on what they belong to. -/
theorem Label.lacks_text (l : Label) : Lacks c l.text := by
  have hdigits := not_mem_digits (isLiteralChar_of_marks hc)
  induction l using rec_part with
  | entry => exact lacks_fixed hc (by decide)
  | exit => exact lacks_fixed hc (by decide)
  | line n =>
    rw [Lacks, toList_text_line, List.mem_append, not_or]
    exact ⟨not_mem_of_avoids hc (by decide), hdigits n⟩
  | part owner p k ih =>
    rw [Lacks, toList_text_part, List.mem_append, List.mem_append, not_or, not_or]
    exact ⟨ih, not_mem_of_avoids hc (by cases p <;> decide), hdigits k⟩

theorem Operand.lacks_text (v : Operand) : Lacks c v.text := by
  cases v with
  | literal x => exact Numeral.lacks_literal (isLiteralChar_of_marks hc) x
  | temp t => exact t.lacks_text hc

theorem Arith.lacks_mnemonic (op : Arith) : Lacks c op.mnemonic := by
  cases op <;> exact lacks_fixed hc (by decide)

theorem Relation.lacks_floatCode (rel : Relation) : Lacks c rel.floatCode := by
  cases rel <;> exact lacks_fixed hc (by decide)

theorem Relation.lacks_integerCode (rel : Relation) : Lacks c rel.integerCode := by
  cases rel <;> exact lacks_fixed hc (by decide)

end Names

-- ============================================================================
-- Globals
-- ============================================================================

/-- Whether a character can stand in the name of a global. -/
def isNameChar (c : Char) : Bool := c.isAlphanum || c ∈ ['-', '$', '.', '_']

/-- A global that code names, and whether arguments stand right behind the name. -/
structure Mention where
  name : String
  applied : Bool
deriving DecidableEq

/-- What stands right behind the name. -/
def Mention.behind (g : Mention) : Char := if g.applied then '(' else ','

/-- The text can be the name of a global. -/
def IsName (s : String) : Prop := ∀ c ∈ s.toList, isNameChar c = true

theorem isName_ofList {cs : List Char} (h : cs.all isNameChar = true) : IsName (.ofList cs) := by
  rw [IsName, String.toList_ofList]
  exact List.all_eq_true.1 h

theorem External.isName_name (x : External) : IsName x.name := by
  cases x with
  | math f => cases f <;> exact isName_ofList (by decide)
  | _ => exact isName_ofList (by decide)

/-- A function is declared by its name, between its type and its arguments. -/
theorem External.exists_declaration_eq (x : External) : ∃ type rest,
    x.declaration = "declare " ++ type ++ "@" ++ x.name ++ ("(" ++ rest) ∧
      ∀ c ∈ dividers, Lacks c type ∧ Lacks c rest := by
  have hlacks : ∀ {ts rs : List Char}, avoids dividers ts = true → avoids dividers rs = true →
      ∀ c ∈ dividers, Lacks c (.ofList ts) ∧ Lacks c (.ofList rs) := fun ht hr _ hc =>
    ⟨lacks_fixed hc ht, lacks_fixed hc hr⟩
  cases x with
  | printf => exact ⟨"i32 ", "ptr, ...)", rfl, hlacks (by decide) (by decide)⟩
  | scanf => exact ⟨"i32 ", "ptr, ...)", rfl, hlacks (by decide) (by decide)⟩
  | strcmp => exact ⟨"i32 ", "ptr, ptr)", rfl, hlacks (by decide) (by decide)⟩
  | drand48 => exact ⟨"double ", ")", rfl, hlacks (by decide) (by decide)⟩
  | math f =>
    have hfixed : "declare double @" = "declare " ++ "double " ++ "@" := rfl
    have hopen : "(double)" = "(" ++ "double)" := rfl
    refine ⟨"double ", "double)", ?_, hlacks (by decide) (by decide)⟩
    show "declare double @" ++ (External.math f).name ++ "(double)" = _
    rw [hfixed, hopen]

namespace Global

/-- The name of a constant text. -/
def name : Global → String
  | numberFormat => ".fmt_num"
  | textFormat => ".fmt_str"
  | inputFormat => ".fmt_in"
  | literal k => s!".str.{k}"

/-- A global is its sign and its name. -/
theorem text_eq (g : Global) : g.text = "@" ++ g.name := by
  cases g with
  | literal k =>
    show "@.str." ++ toString k = "@" ++ (".str." ++ toString k)
    rw [← String.append_assoc]
    rfl
  | _ => rfl

theorem toList_name_literal (k : Nat) :
    (literal k).name.toList = ['.', 's', 't', 'r', '.'] ++ Nat.toDigits 10 k := by
  have hfixed : ".str.".toList = ['.', 's', 't', 'r', '.'] := String.toList_ofList
  show (".str." ++ toString k).toList = _
  rw [String.toList_append, hfixed, Nat.toString_eq_repr, Nat.toList_repr]

/-- Globals have names. -/
theorem isName_name (g : Global) : IsName g.name := by
  cases g with
  | literal k =>
    have hfixed : ['.', 's', 't', 'r', '.'].all isNameChar = true := by decide
    intro c h
    rw [toList_name_literal, List.mem_append] at h
    rcases h with h | h
    · exact List.all_eq_true.1 hfixed c h
    · rw [isNameChar, Char.isAlphanum, Label.isDigit_of_mem_digits h, Bool.or_true, Bool.true_or]
  | _ => exact isName_ofList (by decide)

end Global

-- ============================================================================
-- Instructions
-- ============================================================================

namespace Instr

/-- The global that an instruction names, if it names one: the constant whose address it takes,
    or the function that it calls. -/
def mention? : Instr → Option Mention
  | address _ g => some ⟨g.name, false⟩
  | i => i.external?.map fun x => ⟨x.name, true⟩

theorem mention?_of_external {i : Instr} {x : External} (h : i.external? = some x) :
    i.mention? = some ⟨x.name, true⟩ := by
  cases i <;> cases h <;> rfl

/-- An instruction mentions a constant of which it takes the address, or a function that it
    calls. -/
theorem cases_of_mention {i : Instr} {g : Mention} (h : i.mention? = some g) :
    (∃ t c, i = address t c ∧ g = ⟨c.name, false⟩) ∨
      ∃ x, i.external? = some x ∧ g = ⟨x.name, true⟩ := by
  cases i with
  | address t c =>
    cases h
    exact .inl ⟨t, c, rfl, rfl⟩
  | _ => cases h <;> exact .inr ⟨_, rfl, rfl⟩

/-- An instruction that names no global holds no divider. -/
theorem lacks_text_of_none {i : Instr} (hc : c ∈ dividers) (hslots : ∀ x ∈ i.slots, Lacks c x)
    (h : i.mention? = none) : Lacks c i.text := by
  have hmark := marked hc
  have hslotTexts : ∀ x ∈ i.slots, Lacks c (slotText x) := fun x hx =>
    lacks_slotText hmark (hslots x hx)
  clear hslots
  cases i <;> cases h <;> unfold text <;>
    simp_all only [slots, List.mem_singleton, forall_eq, lacks_append, lacks_string,
      Temp.lacks_text hmark, Operand.lacks_text hmark, Label.lacks_text hmark,
      Arith.lacks_mnemonic hmark, Relation.lacks_floatCode hmark,
      Relation.lacks_integerCode hmark, and_true, true_and] <;>
    and_intros <;> exact lacks_fixed hc (by decide)

/-- How an instruction names a global: what stands in front of the sign and behind the name.
    Neither holds a divider, where the names of variables do not. -/
structure Naming (i : Instr) (g : Mention) where
  front : String
  rest : String
  isName : IsName g.name
  text_eq : i.text = front ++ "@" ++ g.name ++ rest
  head_rest : rest.toList.head? = some g.behind
  call : g.applied = true → ∃ before after, "  " ++ front = before ++ " call " ++ after
  lacks : ∀ c ∈ dividers, (∀ x ∈ i.slots, Lacks c x) → Lacks c front ∧ Lacks c rest

namespace Naming

variable {i : Instr} {x : External}

theorem head_open (args : String) : ("(" ++ args).toList.head? = some '(' := by
  rw [String.toList_append, List.head?_append]
  rfl

/-- A call that has a result. -/
def ofResult (t : Temp) (type args : String)
    (htext : i.text = t.text ++ " =" ++ " call " ++ type ++ "@" ++ x.name ++ ("(" ++ args))
    (htype : ∀ c ∈ dividers, Lacks c type) (hargs : ∀ c ∈ dividers, Lacks c args) :
    i.Naming ⟨x.name, true⟩ where
  front := t.text ++ " =" ++ " call " ++ type
  rest := "(" ++ args
  isName := x.isName_name
  text_eq := htext
  head_rest := head_open args
  call _ := ⟨"  " ++ t.text ++ " =", type, by simp only [String.append_assoc]⟩
  lacks c hc _ :=
    ⟨(((t.lacks_text (marked hc)).append (lacks_fixed hc (by decide))).append
        (lacks_fixed hc (by decide))).append (htype c hc),
      .append (lacks_fixed hc (by decide)) (hargs c hc)⟩

/-- A call whose result is left alone. -/
def ofCall (args : String)
    (htext : i.text = "call i32 (ptr, ...) " ++ "@" ++ x.name ++ ("(" ++ args))
    (hargs : ∀ c ∈ dividers, (∀ x ∈ i.slots, Lacks c x) → Lacks c args) :
    i.Naming ⟨x.name, true⟩ where
  front := "call i32 (ptr, ...) "
  rest := "(" ++ args
  isName := x.isName_name
  text_eq := htext
  head_rest := head_open args
  call _ := ⟨" ", "i32 (ptr, ...) ", rfl⟩
  lacks c hc hslots :=
    ⟨lacks_fixed hc (by decide), .append (lacks_fixed hc (by decide)) (hargs c hc hslots)⟩

/-- Taking the address of a constant. -/
def ofAddress (t : Temp) (g : Global) : (address t g).Naming ⟨g.name, false⟩ where
  front := t.text ++ " = getelementptr inbounds i8, ptr "
  rest := ", i64 0"
  isName := g.isName_name
  text_eq := by
    show t.text ++ " = getelementptr inbounds i8, ptr " ++ g.text ++ ", i64 0" = _
    rw [g.text_eq]
    simp only [String.append_assoc]
  head_rest := rfl
  call := nofun
  lacks c hc _ :=
    ⟨(t.lacks_text (marked hc)).append (lacks_fixed hc (by decide)), lacks_fixed hc (by decide)⟩

end Naming

/-- The rest of a call with two arguments, the first of which is an address. -/
def pairRest (a sep b : String) : String := "ptr " ++ a ++ sep ++ b ++ ")"

theorem lacks_pairRest {c : Char} (hc : c ∈ dividers) {a sep b : String} (ha : Lacks c a)
    (hsep : Lacks c sep) (hb : Lacks c b) : Lacks c (pairRest a sep b) :=
  ((((lacks_fixed hc (by decide)).append ha).append hsep).append hb).append
    (lacks_fixed hc (by decide))

/-- The text of a comparison of texts, cut around the name of the function. -/
theorem text_compareTexts (t a b : Temp) :
    (compareTexts t a b).text = t.text ++ " =" ++ " call " ++ "i32 " ++ "@" ++ External.strcmp.name
      ++ ("(" ++ pairRest a.text ", ptr " b.text) := by
  have hfixed : " = call i32 @strcmp(ptr "
      = " =" ++ " call " ++ "i32 " ++ "@" ++ External.strcmp.name ++ "(" ++ "ptr " := rfl
  show t.text ++ " = call i32 @strcmp(ptr " ++ a.text ++ ", ptr " ++ b.text ++ ")" = _
  rw [hfixed]
  simp only [pairRest, String.append_assoc]

/-- The text of a call, cut around the name of the function. -/
theorem text_call (t : Temp) (f : MathFunction) (v : Operand) :
    (call t f v).text = t.text ++ " =" ++ " call " ++ "double " ++ "@" ++ (External.math f).name
      ++ ("(" ++ ("double " ++ v.text ++ ")")) := by
  have hfixed : " = call double @" = " =" ++ " call " ++ "double " ++ "@" := rfl
  have hopen : "(double " = "(" ++ "double " := rfl
  show t.text ++ " = call double @" ++ (External.math f).name ++ "(double " ++ v.text ++ ")" = _
  rw [hfixed, hopen]
  simp only [String.append_assoc]

theorem text_draw (t : Temp) :
    (draw t).text = t.text ++ " =" ++ " call " ++ "double " ++ "@" ++ External.drand48.name
      ++ ("(" ++ ")") := by
  have hfixed : " = call double @drand48()"
      = " =" ++ " call " ++ "double " ++ "@" ++ External.drand48.name ++ "(" ++ ")" := rfl
  show t.text ++ " = call double @drand48()" = _
  rw [hfixed]
  simp only [String.append_assoc]

/-- The text of a call whose result is left alone, split at the name of the function. -/
theorem text_pair {x : External} {s a sep b : String}
    (h : s = "call i32 (ptr, ...) " ++ "@" ++ x.name ++ "(" ++ "ptr ") :
    s ++ a ++ sep ++ b ++ ")"
      = "call i32 (ptr, ...) " ++ "@" ++ x.name ++ ("(" ++ pairRest a sep b) := by
  rw [h]
  simp only [pairRest, String.append_assoc]

/-- The instructions that name a global take the address of a constant or call a function. -/
def naming : (i : Instr) → (g : Mention) → i.mention? = some g → i.Naming g
  | address t g, _, rfl => .ofAddress t g
  | compareTexts t a b, _, rfl =>
    .ofResult t _ _ (text_compareTexts t a b) (fun _ hc => lacks_fixed hc (by decide))
      fun _ hc => lacks_pairRest hc (a.lacks_text (marked hc)) (lacks_fixed hc (by decide))
        (b.lacks_text (marked hc))
  | call t f v, _, rfl =>
    .ofResult t _ _ (text_call t f v) (fun _ hc => lacks_fixed hc (by decide))
      fun _ hc => ((lacks_fixed hc (by decide)).append (v.lacks_text (marked hc))).append
        (lacks_fixed hc (by decide))
  | draw t, _, rfl =>
    .ofResult t _ _ (text_draw t) (fun _ hc => lacks_fixed hc (by decide))
      fun _ hc => lacks_fixed hc (by decide)
  | printNumber f v, _, rfl =>
    .ofCall _ (text_pair (x := .printf) rfl) fun _ hc _ =>
      lacks_pairRest hc (f.lacks_text (marked hc)) (lacks_fixed hc (by decide))
        (v.lacks_text (marked hc))
  | printText f v, _, rfl =>
    .ofCall _ (text_pair (x := .printf) rfl) fun _ hc _ =>
      lacks_pairRest hc (f.lacks_text (marked hc)) (lacks_fixed hc (by decide))
        (v.lacks_text (marked hc))
  | readNumber f y, _, rfl =>
    .ofCall _ (text_pair (x := .scanf) rfl) fun _ hc hslots =>
      lacks_pairRest hc (f.lacks_text (marked hc)) (lacks_fixed hc (by decide))
        (lacks_slotText (marked hc) (hslots y (List.mem_singleton_self y)))

end Instr

end LineBasic
