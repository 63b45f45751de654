/-
  LineBasic.Proofs.ModuleLines

  The text of a module, line by line: the header, the declarations, the formats, the
  definitions of string literals, and the function.  No piece of a line runs over its
  end, where the names of variables do not, so that the lines of the text are the lines
  it was put together from.
-/

import LineBasic.Proofs.Constants
import LineBasic.Proofs.TextPieces

namespace LineBasic

-- ============================================================================
-- Single lines
-- ============================================================================

/-- The text does not run over the end of a line. -/
def OneLine (s : String) : Prop := '\n' ∉ s.toList

instance (s : String) : Decidable (OneLine s) := inferInstanceAs (Decidable (¬ _))

theorem OneLine.append {s t : String} (hs : OneLine s) (ht : OneLine t) : OneLine (s ++ t) :=
  Lacks.append hs ht

theorem newline_mem_dividers : '\n' ∈ dividers := by decide

theorem IsName.oneLine {s : String} (h : IsName s) : OneLine s := fun hmem =>
  absurd (h _ hmem) (by decide)

theorem Label.oneLine_text (l : Label) : OneLine l.text :=
  l.lacks_text (marked newline_mem_dividers)

theorem Global.oneLine_text (g : Global) : OneLine g.text := by
  rw [text_eq]
  exact .append (by decide) g.isName_name.oneLine

/-- An instruction is written on one line, if the names in it are. -/
theorem Instr.oneLine_text {i : Instr} (h : ∀ x ∈ i.slots, OneLine x) : OneLine i.text := by
  cases hg : i.mention? with
  | none => exact lacks_text_of_none newline_mem_dividers h hg
  | some g =>
    have naming := i.naming g hg
    obtain ⟨hfront, hrest⟩ := naming.lacks '\n' newline_mem_dividers h
    rw [naming.text_eq]
    have hname : OneLine (naming.front ++ "@" ++ g.name) :=
      .append (.append hfront (by decide)) naming.isName.oneLine
    exact hname.append hrest

-- ============================================================================
-- Lines that define string literals
-- ============================================================================

/-- Whether a line starts like the definition of a string literal. -/
def startsDefinition (l : String) : Bool := "@.str.".toList.isPrefixOf l.toList

/-- The lines of a text that define string literals, from top to bottom. -/
def definitionLines (text : String) : List String :=
  ((text.toList.splitOn '\n').map String.ofList).filter startsDefinition

/-- The lines of a text whose lines all have an end. -/
theorem splitOn_join (ls : List String) (h : ∀ l ∈ ls, OneLine l) :
    (String.join (ls.map (· ++ "\n"))).toList.splitOn '\n' = ls.map String.toList ++ [[]] := by
  induction ls with
  | nil => rfl
  | cons l ls ih =>
    obtain ⟨hl, hls⟩ := List.forall_mem_cons.1 h
    have hcons : (String.join ((l :: ls).map (· ++ "\n"))).toList
        = l.toList ++ '\n' :: (String.join (ls.map (· ++ "\n"))).toList := by
      simp
    rw [hcons, List.splitOn_eq_splitOnP, List.splitOnP_append_cons_of_forall_mem ?_ _ (by simp)]
    · exact congrArg (l.toList :: ·) (ih hls)
    · intro c hc
      have hne : c ≠ '\n' := fun heq => hl (heq ▸ hc)
      simpa using hne

theorem map_ofList_toList (ls : List String) : (ls.map String.toList).map String.ofList = ls := by
  rw [List.map_map]
  exact (List.map_congr_left fun l _ => String.ofList_toList).trans (List.map_id _)

theorem definitionLines_of_splitOn {text : String} {ls : List String}
    (h : text.toList.splitOn '\n' = ls.map String.toList ++ [[]]) :
    definitionLines text = ls.filter startsDefinition := by
  rw [definitionLines, h, List.map_append, map_ofList_toList, List.filter_append]
  exact List.append_nil _

/-- A definition starts with the sign of globals. -/
theorem startsDefinition_of_head {l : String} {c : Char} (h : l.toList.head? = some c)
    (hc : c ≠ '@') : startsDefinition l = false := by
  cases hl : l.toList with
  | nil =>
    rw [hl] at h
    cases h
  | cons d ds =>
    rw [hl] at h
    cases h
    rw [startsDefinition, hl]
    exact Bool.and_eq_false_imp.2 fun heq => absurd (eq_of_beq heq).symm hc

namespace Constant.Defines

variable {line : String} {k : Nat} {bytes : List UInt8}

/-- A definition is one line: it holds names, numbers and printable characters only. -/
theorem oneLine (h : Defines line k bytes) : OneLine line := by
  obtain ⟨quoted, rfl, hplain, -⟩ := h
  have hquoted : OneLine quoted := fun hn => absurd (hplain _ hn).1 (by decide)
  have hlength : OneLine (toString bytes.length) := lacks_toString (by decide) _
  refine (Global.oneLine_text _).append ?_
  exact .append (.append (.append (.append (by decide) hlength) (by decide)) hquoted) (by decide)

/-- A definition starts with the name of its constant. -/
theorem startsDefinition (h : Defines line k bytes) : startsDefinition line = true := by
  obtain ⟨quoted, rfl, -, -⟩ := h
  refine List.isPrefixOf_iff_prefix.2 ?_
  rw [String.toList_append, Global.text, String.toList_append, List.append_assoc]
  exact List.prefix_append _ _

end Constant.Defines

-- ============================================================================
-- In front of the function
-- ============================================================================

/-- The line is whole, and it does not start like the definition of a string literal. -/
def IsOther (l : String) : Prop := OneLine l ∧ startsDefinition l = false

instance (l : String) : Decidable (IsOther l) := inferInstanceAs (Decidable (_ ∧ _))

namespace Module

/-- What stands in front of the function of a module. -/
def preamble (m : Module) : String :=
  header ++ m.declarations ++ formats ++ m.constants ++ "\n"

theorem text_eq_preamble_append (m : Module) : m.text = m.preamble ++ m.function := rfl

/-- The lines of the header. -/
def headerLines : List String := ["; ModuleID = 'basic'", "source_filename = \"basic\"", ""]

/-- The lines that declare functions. -/
def declarationLines (m : Module) : List String :=
  if m.externals = [] then [] else m.externals.map External.declaration ++ [""]

/-- The lines that define the formats. -/
def formatLines : List String :=
  ["@.fmt_num = private unnamed_addr constant [4 x i8] c\"%f\\0A\\00\"",
    "@.fmt_str = private unnamed_addr constant [4 x i8] c\"%s\\0A\\00\"",
    "@.fmt_in = private unnamed_addr constant [4 x i8] c\"%lf\\00\""]

/-- The definitions of the string literals. -/
def definitions (m : Module) : List String :=
  m.texts.zipIdx.map fun (s, k) => Constant.definition k s

/-- The lines in front of the function. -/
def preambleLines (m : Module) : List String :=
  headerLines ++ m.declarationLines ++ formatLines ++ m.definitions ++ [""]

/-- Declarations come line by line. -/
theorem declarations_eq_join (m : Module) :
    m.declarations = String.join (m.declarationLines.map (· ++ "\n")) := by
  unfold declarations declarationLines
  split
  · rfl
  · rw [List.map_append, String.join_append, List.map_map]
    rfl

/-- What stands in front of the function comes line by line. -/
theorem preamble_eq_join (m : Module) :
    m.preamble = String.join (m.preambleLines.map (· ++ "\n")) := by
  have hheader : header = String.join (headerLines.map (· ++ "\n")) := rfl
  have hformats : formats = String.join (formatLines.map (· ++ "\n")) := rfl
  have hconstants : m.constants = String.join (m.definitions.map (· ++ "\n")) := by
    rw [definitions, List.map_map]
    rfl
  rw [preamble, hheader, hformats, hconstants, declarations_eq_join]
  simp only [preambleLines, List.map_append, String.join_append]
  rfl

/-- A declaration is one line and no definition. -/
theorem isOther_declaration (x : External) : IsOther x.declaration := by
  obtain ⟨type, rest, hdeclaration, hlacks⟩ := x.exists_declaration_eq
  obtain ⟨htype, hrest⟩ := hlacks '\n' newline_mem_dividers
  have hword : OneLine "declare " := lacks_fixed newline_mem_dividers (by decide)
  have hfront : OneLine ("declare " ++ type ++ "@" ++ x.name) :=
    .append (.append (hword.append htype) (by decide)) x.isName_name.oneLine
  refine ⟨?_, startsDefinition_of_head ?_ (by decide : 'd' ≠ '@')⟩
  · rw [hdeclaration]
    exact hfront.append (.append (by decide) hrest)
  · have hhead : "declare ".toList.head? = some 'd' := head_ofList
    rw [hdeclaration]
    simp only [String.append_assoc, String.toList_append, List.head?_append, hhead, Option.some_or]

theorem isOther_fixed {cs : List Char} (hline : cs.contains '\n' = false)
    (hstart : ['@', '.', 's', 't', 'r', '.'].isPrefixOf cs = false) : IsOther (.ofList cs) := by
  have hname : "@.str.".toList = ['@', '.', 's', 't', 'r', '.'] := String.toList_ofList
  refine ⟨?_, ?_⟩
  · rw [OneLine, String.toList_ofList, ← List.contains_iff_mem, hline]
    exact Bool.false_ne_true
  · rw [startsDefinition, hname, String.toList_ofList, hstart]

/-- Header, declarations and formats are lines that define no literal. -/
theorem isOther_of_mem {m : Module} {l : String}
    (h : l ∈ headerLines ++ m.declarationLines ++ formatLines) : IsOther l := by
  have hheader : ∀ l ∈ headerLines, IsOther l := by
    intro l hl
    simp only [headerLines, List.mem_cons, List.not_mem_nil, or_false] at hl
    rcases hl with rfl | rfl | rfl
    · exact isOther_fixed rfl rfl
    · exact isOther_fixed rfl rfl
    · exact isOther_fixed rfl rfl
  have hformats : ∀ l ∈ formatLines, IsOther l := by
    intro l hl
    simp only [formatLines, List.mem_cons, List.not_mem_nil, or_false] at hl
    rcases hl with rfl | rfl | rfl
    · exact isOther_fixed rfl rfl
    · exact isOther_fixed rfl rfl
    · exact isOther_fixed rfl rfl
  rcases List.mem_append.1 h with h | h
  · rcases List.mem_append.1 h with h | h
    · exact hheader l h
    · unfold declarationLines at h
      split at h
      · cases h
      · rcases List.mem_append.1 h with h | h
        · obtain ⟨x, -, rfl⟩ := List.mem_map.1 h
          exact isOther_declaration x
        · rw [List.mem_singleton.1 h]
          decide
  · exact hformats l h

theorem defines_of_mem {m : Module} {l : String} (h : l ∈ m.definitions) :
    ∃ k s, Constant.Defines l k (utf8 s ++ [0]) := by
  obtain ⟨⟨s, k⟩, -, rfl⟩ := List.mem_map.1 h
  exact ⟨k, s, Constant.defines_definition k s⟩

/-- No line in front of the function is broken. -/
theorem oneLine_of_mem_preambleLines {m : Module} {l : String} (h : l ∈ m.preambleLines) :
    OneLine l := by
  rcases List.mem_append.1 h with h | h
  · rcases List.mem_append.1 h with h | h
    · exact (isOther_of_mem h).1
    · obtain ⟨k, s, hdefines⟩ := defines_of_mem h
      exact hdefines.oneLine
  · rw [List.mem_singleton.1 h]
    decide

/-- Of the lines in front of the function, the definitions are those of the literals. -/
theorem filter_preambleLines (m : Module) :
    m.preambleLines.filter startsDefinition = m.definitions := by
  have hothers : (headerLines ++ m.declarationLines ++ formatLines).filter startsDefinition = [] :=
    List.filter_eq_nil_iff.2 fun l hl => by simp [(isOther_of_mem hl).2]
  have hdefinitions : m.definitions.filter startsDefinition = m.definitions :=
    List.filter_eq_self.2 fun l hl => by
      obtain ⟨k, s, hdefines⟩ := defines_of_mem hl
      exact hdefines.startsDefinition
  rw [preambleLines, List.filter_append, List.filter_append, hothers, hdefinitions]
  exact List.append_nil _

/-- The lines in front of the function that define string literals are their
    definitions, in order. -/
theorem definitionLines_preamble (m : Module) : definitionLines m.preamble = m.definitions := by
  have hlines := splitOn_join m.preambleLines fun l => oneLine_of_mem_preambleLines
  rw [preamble_eq_join, definitionLines_of_splitOn hlines, filter_preambleLines]

theorem length_definitions (m : Module) : m.definitions.length = m.texts.length := by
  rw [definitions, List.length_map, List.length_zipIdx]

/-- The `k`-th definition is that of the `k`-th literal. -/
theorem exists_defines {m : Module} {k : Nat} {s : String} (h : m.texts[k]? = some s) :
    ∃ line, m.definitions[k]? = some line ∧ Constant.Defines line k (utf8 s ++ [0]) := by
  refine ⟨_, ?_, Constant.defines_definition k s⟩
  rw [definitions, List.getElem?_map, List.getElem?_zipIdx, h, Nat.zero_add]
  rfl

end Module

-- ============================================================================
-- The function
-- ============================================================================

/-- The line that an emission adds to the function, if it adds one. -/
def Emission.line? : Emission → Option String
  | label l => some (l.text ++ ":")
  | step _ s => some ("  " ++ s.instr.text)
  | note _ => none

/-- An emission with a line writes that line. -/
theorem Emission.text_of_line? {e : Emission} {l : String} (h : e.line? = some l) :
    e.text = l ++ "\n" := by
  cases e with
  | label label =>
    cases h
    rw [String.append_assoc]
    rfl
  | step site s =>
    cases h
    rfl
  | note a => cases h

/-- The text of the body is made of its lines; notes write nothing. -/
theorem Emission.join_text (es : List Emission) :
    String.join (es.map text) = String.join ((es.filterMap line?).map (· ++ "\n")) := by
  induction es with
  | nil => rfl
  | cons e es ih =>
    rw [List.map_cons, String.join_cons, ih]
    cases hl : e.line? with
    | some l =>
      rw [List.filterMap_cons_some hl, List.map_cons, String.join_cons, text_of_line? hl]
    | none =>
      have hnone : e.text = "" := by
        cases e <;> first | rfl | cases hl
      rw [List.filterMap_cons_none hl, hnone, String.empty_append]

namespace Module

/-- The lines of the function. -/
def functionLines (m : Module) : List String :=
  ["define i32 @main() \x7b"] ++ m.body.filterMap Emission.line? ++ ["\x7d"]

theorem function_eq_join (m : Module) :
    m.function = String.join (m.functionLines.map (· ++ "\n")) := by
  have hopen : "define i32 @main() \x7b\n"
      = String.join (["define i32 @main() \x7b"].map (· ++ "\n")) := rfl
  have hclose : "\x7d\n" = String.join (["\x7d"].map (· ++ "\n")) := rfl
  unfold function
  rw [hopen, hclose, Emission.join_text, ← String.join_append, ← String.join_append,
    ← List.map_append, ← List.map_append, functionLines]

/-- Between its first and its last line, the lines of a function start with a letter of
    a label or with a blank. -/
theorem head_of_mem_body {m : Module} {l : String} (h : l ∈ m.body.filterMap Emission.line?) :
    ∃ c ∈ ['e', 'l', ' '], l.toList.head? = some c := by
  obtain ⟨e, -, hline⟩ := List.mem_filterMap.1 h
  cases e with
  | label label =>
    cases hline
    rw [String.toList_append, List.head?_append]
    rcases label.head_text with hhead | hhead
    · rw [hhead]
      exact ⟨'e', by decide, rfl⟩
    · rw [hhead]
      exact ⟨'l', by decide, rfl⟩
  | step site s =>
    cases hline
    rw [String.toList_append, List.head?_append]
    exact ⟨' ', by decide, rfl⟩
  | note a => cases hline

/-- Instructions are on one line each, if the names in them are. -/
theorem oneLine_of_mem_body {m : Module} {l : String}
    (h : ∀ i ∈ m.instrs, ∀ x ∈ i.slots, OneLine x) (hl : l ∈ m.body.filterMap Emission.line?) :
    OneLine l := by
  obtain ⟨e, he, hline⟩ := List.mem_filterMap.1 hl
  cases e with
  | label label =>
    cases hline
    exact label.oneLine_text.append (by decide)
  | step site s =>
    cases hline
    have hinstr : s.instr ∈ m.instrs := List.mem_filterMap.2 ⟨_, he, rfl⟩
    exact .append (by decide) (Instr.oneLine_text (h _ hinstr))
  | note a => cases hline

/-- Where the names of variables do not run over the end of a line, no line of the
    function starts like the definition of a string literal. -/
theorem isOther_of_mem_functionLines {m : Module} {l : String}
    (h : ∀ i ∈ m.instrs, ∀ x ∈ i.slots, OneLine x) (hl : l ∈ m.functionLines) : IsOther l := by
  rcases List.mem_append.1 hl with hl | hl
  · rcases List.mem_append.1 hl with hl | hl
    · rw [List.mem_singleton.1 hl]
      decide
    · obtain ⟨c, hc, hhead⟩ := head_of_mem_body hl
      have hsign : c ≠ '@' := ne_of_mem_of_not_mem hc (by decide)
      exact ⟨oneLine_of_mem_body h hl, startsDefinition_of_head hhead hsign⟩
  · rw [List.mem_singleton.1 hl]
    decide

/-- The lines of the whole text, where the names of variables do not run over the end of
    a line. -/
theorem splitOn_text {m : Module} (h : ∀ i ∈ m.instrs, ∀ x ∈ i.slots, OneLine x) :
    m.text.toList.splitOn '\n'
      = (m.preambleLines ++ m.functionLines).map String.toList ++ [[]] := by
  rw [text_eq_preamble_append, preamble_eq_join, function_eq_join, ← String.join_append,
    ← List.map_append]
  exact splitOn_join _ fun l hl => (List.mem_append.1 hl).elim oneLine_of_mem_preambleLines
    fun hl => (isOther_of_mem_functionLines h hl).1

/-- The lines of the whole text that define string literals are then those in front of
    the function. -/
theorem definitionLines_text {m : Module} (h : ∀ i ∈ m.instrs, ∀ x ∈ i.slots, OneLine x) :
    definitionLines m.text = m.definitions := by
  have hfunction : m.functionLines.filter startsDefinition = [] :=
    List.filter_eq_nil_iff.2 fun l hl => by simp [(isOther_of_mem_functionLines h hl).2]
  rw [definitionLines_of_splitOn (splitOn_text h), List.filter_append, hfunction, List.append_nil,
    filter_preambleLines]

end Module

end LineBasic
