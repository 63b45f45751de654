/-
  LineBasic.Proofs.ClosedModules

  Modules that hold all they refer to and declare no more than they use.  This is read
  off the text alone: its lines, the globals that a line names, the lines that declare
  or define a global, and the lines of the function that call or refer to one.  Every
  text made at a bench is closed in this sense (`Craft.isClosed_text`), though functions
  are put down to be declared in one place and called in another.
-/

import LineBasic.Proofs.BenchWork
import LineBasic.Proofs.Dissection
import LineBasic.Proofs.ModuleLines
import Mathlib.Data.List.Nodup

namespace LineBasic

-- ============================================================================
-- Reading the text of a module
-- ============================================================================

namespace CodeText

/-- The lines of a text. -/
def lines (text : String) : List String := (text.toList.splitOn '\n').map String.ofList

/-- The line that opens the function. -/
def opening : String := "define i32 @main() \x7b"

/-- The line that closes the function. -/
def closing : String := "\x7d"

/-- The lines in front of the function. -/
def front (text : String) : List String := (lines text).takeWhile (· ≠ opening)

/-- The lines inside the function. -/
def inside (text : String) : List String :=
  ((lines text).dropWhile (· ≠ opening)).tail.takeWhile (· ≠ closing)

/-- The globals that a line names, from left to right. -/
def mentions : List Char → List Mention
  | [] => []
  | c :: cs =>
    if c = '@' then
      ⟨.ofList (cs.takeWhile isNameChar), (cs.dropWhile isNameChar).head? = some '('⟩ :: mentions cs
    else mentions cs

/-- Whether a line starts with a word. -/
def starts (word l : String) : Bool := word.toList.isPrefixOf l.toList

/-- The global that a line is about: the first that it names. -/
def subject? (l : String) : Option String := (mentions l.toList).head?.map Mention.name

/-- The function that a line declares, if it declares one. -/
def declares? (l : String) : Option String := if starts "declare " l then subject? l else none

/-- The global that a line defines, if it defines one: a constant or a function. -/
def defines? (l : String) : Option String :=
  if starts "@" l || starts "define " l then subject? l else none

/-- Whether a word stands somewhere in a row of characters. -/
def holds (word : List Char) : List Char → Bool
  | [] => word.isEmpty
  | c :: cs => word.isPrefixOf (c :: cs) || holds word cs

/-- Whether a line is a call. -/
def isCall (l : String) : Bool := holds " call ".toList l.toList

/-- The functions that a line calls. -/
def calls (l : String) : List String :=
  ((mentions l.toList).filter fun g => g.applied && isCall l).map Mention.name

/-- The globals that a line refers to in any other way. -/
def refers (l : String) : List String :=
  ((mentions l.toList).filter fun g => !(g.applied && isCall l)).map Mention.name

/-- The text of a module holds all that its function refers to and declares no more than the
    function uses. -/
structure IsClosed (text : String) : Prop where
  /-- There is nothing but a header and one function. -/
  parts : lines text = front text ++ opening :: inside text ++ [closing, ""]
  /-- Functions are declared in the header only, and once. -/
  inHeader : (lines text).filterMap declares? = (front text).filterMap declares?
  once : ((front text).filterMap declares?).Nodup
  /-- The functions that are declared are those that are called. -/
  declared : ∀ f, f ∈ (front text).filterMap declares? ↔ ∃ l ∈ inside text, f ∈ calls l
  /-- Any other global that the function refers to is defined once. -/
  defined : ∀ l ∈ inside text, ∀ g ∈ refers l, ((lines text).filterMap defines?).count g = 1

-- ----------------------------------------------------------------------------
-- Names in a line
-- ----------------------------------------------------------------------------

/-- A text without the sign of globals mentions nothing. -/
theorem mentions_append {cs ds : List Char} (h : '@' ∉ cs) : mentions (cs ++ ds) = mentions ds := by
  induction cs with
  | nil => rfl
  | cons c cs ih =>
    rw [List.mem_cons, not_or] at h
    rw [List.cons_append, mentions, if_neg (Ne.symm h.1), ih h.2]

theorem mentions_of_lacks {s : String} (h : Lacks '@' s) : mentions s.toList = [] := by
  have hnil : mentions (s.toList ++ []) = mentions [] := mentions_append h
  rwa [List.append_nil] at hnil

/-- A name behind the sign is read up to the first character that cannot stand in one. -/
theorem mentions_sign (name rest : List Char) {c : Char} (hname : ∀ d ∈ name, isNameChar d = true)
    (hrest : rest.head? = some c) (hc : isNameChar c = false) :
    mentions ('@' :: (name ++ rest)) = ⟨.ofList name, c = '('⟩ :: mentions rest := by
  obtain ⟨more, rfl⟩ : ∃ more, rest = c :: more := List.head?_eq_some_iff.1 hrest
  have hsign : '@' ∉ name := fun hmem => absurd (hname _ hmem) (by decide)
  rw [mentions, if_pos rfl, List.takeWhile_append_of_pos hname, List.dropWhile_append_of_pos hname,
    List.takeWhile_cons_of_neg (by simp [hc]), List.dropWhile_cons_of_neg (by simp [hc]),
    mentions_append hsign, List.append_nil]
  simp

/-- The line of an instruction names what the instruction names. -/
theorem mentions_step {i : Instr} (h : ∀ x ∈ i.slots, Lacks '@' x) :
    mentions ("  " ++ i.text).toList = i.mention?.toList := by
  rw [String.toList_append, mentions_append (by decide)]
  cases hg : i.mention? with
  | none => exact mentions_of_lacks (Instr.lacks_text_of_none (by decide) h hg)
  | some g =>
    have naming := i.naming g hg
    obtain ⟨hfront, hrest⟩ := naming.lacks '@' (by decide) h
    have hbehind : isNameChar g.behind = false := by
      unfold Mention.behind
      split <;> decide
    rw [naming.text_eq]
    simp only [String.toList_append, List.append_assoc]
    rw [mentions_append hfront]
    show mentions ('@' :: (g.name.toList ++ naming.rest.toList)) = [g]
    rw [mentions_sign _ _ naming.isName naming.head_rest hbehind, mentions_of_lacks hrest,
      String.ofList_toList]
    have happlied : decide (g.behind = '(') = g.applied := by
      unfold Mention.behind
      split <;> simp_all
    rw [happlied]

theorem mentions_label (l : Label) : mentions (l.text ++ ":").toList = [] :=
  mentions_of_lacks ((l.lacks_text (by decide)).append (lacks_fixed sign_mem_dividers (by decide)))

-- ----------------------------------------------------------------------------
-- Calls and references
-- ----------------------------------------------------------------------------

/-- A word is found wherever it stands. -/
theorem holds_append {word : List Char} (hword : word ≠ []) (before after : List Char) :
    holds word (before ++ (word ++ after)) = true := by
  induction before with
  | nil =>
    obtain ⟨c, cs, rfl⟩ := List.exists_cons_of_ne_nil hword
    have hstarts : (c :: cs).isPrefixOf (c :: (cs ++ after)) = true :=
      List.isPrefixOf_iff_prefix.2 (List.prefix_append (c :: cs) after)
    rw [List.nil_append, List.cons_append, holds, hstarts, Bool.true_or]
  | cons b before ih => rw [List.cons_append, holds, ih, Bool.or_true]

/-- What is applied stands on a line with a call. -/
theorem isCall_of_mention {i : Instr} {g : Mention} (h : i.mention? = some g)
    (happlied : g.applied = true) : isCall ("  " ++ i.text) = true := by
  have naming := i.naming g h
  obtain ⟨before, after, hcall⟩ := naming.call happlied
  have hword : " call ".toList ≠ [] := by
    rw [show " call ".toList = [' ', 'c', 'a', 'l', 'l', ' '] from String.toList_ofList]
    exact List.cons_ne_nil _ _
  have hline : ("  " ++ i.text).toList = before.toList ++ (" call ".toList ++
      (after ++ "@" ++ g.name ++ naming.rest).toList) := by
    rw [naming.text_eq, ← String.toList_append, ← String.toList_append, String.toList_inj]
    simp only [← String.append_assoc, hcall]
  rw [isCall, hline]
  exact holds_append hword _ _

/-- The function that a line calls is the one that its instruction calls. -/
theorem mem_calls_step {i : Instr} (h : ∀ x ∈ i.slots, Lacks '@' x) {f : String} :
    f ∈ calls ("  " ++ i.text) ↔ ∃ x, i.external? = some x ∧ x.name = f := by
  rw [calls, mentions_step h]
  constructor
  · intro hf
    obtain ⟨g, hg, rfl⟩ := List.mem_map.1 hf
    obtain ⟨hmention, hcall⟩ := List.mem_filter.1 hg
    rcases Instr.cases_of_mention (Option.mem_toList.1 hmention) with ⟨t, c, -, rfl⟩ | ⟨x, hx, rfl⟩
    · cases hcall
    · exact ⟨x, hx, rfl⟩
  · rintro ⟨x, hx, rfl⟩
    have hmention := Instr.mention?_of_external hx
    refine List.mem_map.2
      ⟨⟨x.name, true⟩, List.mem_filter.2 ⟨Option.mem_toList.2 hmention, ?_⟩, rfl⟩
    exact isCall_of_mention hmention rfl

/-- The line of an instruction refers to a constant whose address the instruction takes. -/
theorem eq_address_of_mem_refers {i : Instr} (h : ∀ x ∈ i.slots, Lacks '@' x) {name : String}
    (hname : name ∈ refers ("  " ++ i.text)) : ∃ t g, i = .address t g ∧ g.name = name := by
  rw [refers, mentions_step h] at hname
  obtain ⟨g, hg, rfl⟩ := List.mem_map.1 hname
  obtain ⟨hmention, hother⟩ := List.mem_filter.1 hg
  have hmention := Option.mem_toList.1 hmention
  rcases Instr.cases_of_mention hmention with ⟨t, c, rfl, rfl⟩ | ⟨x, -, rfl⟩
  · exact ⟨t, c, rfl, rfl⟩
  · rw [isCall_of_mention hmention rfl] at hother
    cases hother

-- ----------------------------------------------------------------------------
-- Declarations and definitions
-- ----------------------------------------------------------------------------

/-- A line is about the global that it names first. -/
theorem subject?_name {s name rest : String} {c : Char} (hs : Lacks '@' s) (hname : IsName name)
    (hrest : rest.toList.head? = some c) (hc : isNameChar c = false) :
    subject? (s ++ "@" ++ name ++ rest) = some name := by
  have hsign : "@".toList = ['@'] := String.toList_ofList
  have hlist : (s ++ "@" ++ name ++ rest).toList
      = s.toList ++ '@' :: (name.toList ++ rest.toList) := by
    simp only [String.toList_append, hsign, List.append_assoc, List.cons_append, List.nil_append]
  rw [subject?, hlist, mentions_append hs, mentions_sign _ _ hname hrest hc, String.ofList_toList]
  rfl

theorem starts_append (word t : String) : starts word (word ++ t) = true := by
  rw [starts, String.toList_append, List.isPrefixOf_iff_prefix]
  exact List.prefix_append _ _

theorem starts_of_head {word l : String} {c d : Char} (hword : word.toList.head? = some d)
    (hl : l.toList.head? = some c) (hne : d ≠ c) : starts word l = false := by
  obtain ⟨ds, hds⟩ := List.head?_eq_some_iff.1 hword
  obtain ⟨cs, hcs⟩ := List.head?_eq_some_iff.1 hl
  rw [starts, hds, hcs, List.isPrefixOf, beq_eq_false_iff_ne.2 hne, Bool.false_and]

theorem declares?_of_head {l : String} {c : Char} (hl : l.toList.head? = some c) (hd : 'd' ≠ c) :
    declares? l = none := by
  have hword : starts "declare " l = false := starts_of_head head_ofList hl hd
  rw [declares?, hword]
  rfl

theorem defines?_of_head {l : String} {c : Char} (hl : l.toList.head? = some c) (hd : 'd' ≠ c)
    (hsign : '@' ≠ c) : defines? l = none := by
  have hword : starts "define " l = false := starts_of_head head_ofList hl hd
  have hname : starts "@" l = false := starts_of_head head_ofList hl hsign
  rw [defines?, hword, hname]
  rfl

/-- A line that starts with the name of a constant defines it. -/
theorem defines?_name {name rest : String} (hname : IsName name)
    (hrest : rest.toList.head? = some ' ') : defines? ("@" ++ name ++ rest) = some name := by
  have hsubject : subject? ("" ++ "@" ++ name ++ rest) = some name :=
    subject?_name (lacks_ofList.2 List.not_mem_nil) hname hrest (by decide)
  have hstarts : starts "@" ("@" ++ name ++ rest) = true := by
    rw [String.append_assoc]
    exact starts_append _ _
  rw [String.empty_append] at hsubject
  rw [defines?, hstarts, Bool.true_or, if_pos rfl, hsubject]

theorem declares?_name (name rest : String) : declares? ("@" ++ name ++ rest) = none := by
  have hsign : "@".toList.head? = some '@' := head_ofList
  have hhead : ("@" ++ name ++ rest).toList.head? = some '@' := by
    rw [String.append_assoc, String.toList_append, List.head?_append, hsign, Option.some_or]
  exact declares?_of_head hhead (by decide)

/-- A declaration is read back as the name it declares. -/
theorem declares?_declaration (x : External) : declares? x.declaration = some x.name := by
  obtain ⟨type, rest, hdeclaration, hlacks⟩ := x.exists_declaration_eq
  have hfront : Lacks '@' ("declare " ++ type) :=
    (lacks_fixed sign_mem_dividers (by decide)).append (hlacks '@' (by decide)).1
  have hsubject := subject?_name hfront x.isName_name (Instr.Naming.head_open rest) (by decide)
  have hstarts : starts "declare " x.declaration = true := by
    rw [hdeclaration]
    simp only [String.append_assoc]
    exact starts_append _ _
  rw [declares?, hstarts, if_pos rfl, hdeclaration, hsubject]

/-- A declaration defines nothing. -/
theorem defines?_declaration (x : External) : defines? x.declaration = none := by
  obtain ⟨type, rest, hdeclaration, -⟩ := x.exists_declaration_eq
  have hword : "declare ".toList = ['d', 'e', 'c', 'l', 'a', 'r', 'e', ' '] := String.toList_ofList
  have hother : "define ".toList = ['d', 'e', 'f', 'i', 'n', 'e', ' '] := String.toList_ofList
  have hsign : "@".toList = ['@'] := String.toList_ofList
  have hstarts : (starts "@" x.declaration || starts "define " x.declaration) = false := by
    rw [starts, starts, hsign, hother, hdeclaration]
    simp only [String.append_assoc, String.toList_append, hword]
    rfl
  rw [defines?, hstarts]
  rfl

/-- A constant is defined by a line with its name in front. -/
theorem exists_definition_eq (k : Nat) (s : String) : ∃ rest,
    Constant.definition k s = "@" ++ (Global.literal k).name ++ rest ∧
      rest.toList.head? = some ' ' := by
  obtain ⟨quoted, hline, -, -⟩ := Constant.defines_definition k s
  have hblank : " = private unnamed_addr constant [".toList.head? = some ' ' := head_ofList
  rw [Global.text_eq] at hline
  refine ⟨_, hline, ?_⟩
  simp only [String.toList_append, List.head?_append, toString, hblank, Option.some_or]

theorem declares?_definition (k : Nat) (s : String) :
    declares? (Constant.definition k s) = none := by
  obtain ⟨rest, hdefinition, -⟩ := exists_definition_eq k s
  rw [hdefinition, declares?_name]

theorem defines?_definition (k : Nat) (s : String) :
    defines? (Constant.definition k s) = some (Global.literal k).name := by
  obtain ⟨rest, hdefinition, hrest⟩ := exists_definition_eq k s
  rw [hdefinition, defines?_name (Global.literal k).isName_name hrest]

end CodeText

-- ============================================================================
-- The parts of a module
-- ============================================================================

namespace Global

/-- The formats. -/
def formats : List Global := [numberFormat, textFormat, inputFormat]

theorem mem_formats_or (g : Global) : g ∈ formats ∨ ∃ k, g = literal k := by
  cases g with
  | literal k => exact .inr ⟨k, rfl⟩
  | _ => exact .inl (by decide)

/-- No format is named like a string literal. -/
theorem name_ne_literal {g : Global} (h : g ∈ formats) (k : Nat) : g.name ≠ (literal k).name := by
  intro heq
  have hlist := congrArg String.toList heq
  rw [toList_name_literal] at hlist
  cases g with
  | literal k => exact absurd h (by simp [formats])
  | numberFormat => exact absurd (String.toList_ofList.symm.trans hlist) (by simp)
  | textFormat => exact absurd (String.toList_ofList.symm.trans hlist) (by simp)
  | inputFormat => exact absurd (String.toList_ofList.symm.trans hlist) (by simp)

/-- Constants are told apart by their names. -/
theorem name_inj {g g' : Global} (h : g.name = g'.name) : g = g' := by
  have hformats : ∀ g ∈ formats, ∀ g' ∈ formats, g.name = g'.name → g = g' := by decide
  rcases g.mem_formats_or with hg | ⟨k, rfl⟩
  · rcases g'.mem_formats_or with hg' | ⟨k, rfl⟩
    · exact hformats g hg g' hg' h
    · exact absurd h (name_ne_literal hg k)
  · rcases g'.mem_formats_or with hg' | ⟨k', rfl⟩
    · exact absurd h.symm (name_ne_literal hg' k)
    · have hlist := congrArg String.toList h
      rw [toList_name_literal, toList_name_literal] at hlist
      exact congrArg literal (Label.digits_inj (List.append_cancel_left hlist))

/-- No constant is named like the function. -/
theorem name_ne_main (g : Global) : g.name ≠ "main" := by
  have hformats : ∀ g ∈ formats, g.name ≠ "main" := by decide
  rcases g.mem_formats_or with hg | ⟨k, rfl⟩
  · exact hformats g hg
  · intro heq
    have hlist := congrArg String.toList heq
    rw [toList_name_literal] at hlist
    cases hlist

end Global

namespace Module

open CodeText

theorem filterMap_map_of_eq {α β γ : Type} {f : α → β} {g : β → Option γ} {h : α → γ}
    (heq : ∀ a, g (f a) = some (h a)) (l : List α) : (l.map f).filterMap g = l.map h := by
  induction l with
  | nil => rfl
  | cons a l ih => rw [List.map_cons, List.filterMap_cons_some (heq a), ih, List.map_cons]

/-- The constants that a module defines: the formats, and the string literals. -/
def globals (m : Module) : List Global :=
  Global.formats ++ (List.range m.texts.length).map .literal

/-- A module has each of its constants once. -/
theorem nodup_globals (m : Module) : m.globals.Nodup := by
  refine List.nodup_append.2 ⟨by decide, ?_, ?_⟩
  · exact List.nodup_range.map fun _ _ h => Global.literal.inj h
  · intro g hg g' hg' heq
    obtain ⟨k, -, rfl⟩ := List.mem_map.1 hg'
    exact Global.name_ne_literal hg k (congrArg Global.name heq)

/-- The lines that define the formats, split behind the names. -/
theorem formatLines_eq : ∃ numbers texts input, formatLines
      = [("@" ++ Global.numberFormat.name ++ numbers), "@" ++ Global.textFormat.name ++ texts,
        "@" ++ Global.inputFormat.name ++ input] ∧
    ∀ rest ∈ [numbers, texts, input], rest.toList.head? = some ' ' := by
  refine ⟨" = private unnamed_addr constant [4 x i8] c\"%f\\0A\\00\"",
    " = private unnamed_addr constant [4 x i8] c\"%s\\0A\\00\"",
    " = private unnamed_addr constant [4 x i8] c\"%lf\\00\"", rfl, ?_⟩
  rintro rest hrest
  simp only [List.mem_cons, List.not_mem_nil, or_false] at hrest
  rcases hrest with rfl | rfl | rfl
  · exact head_ofList
  · exact head_ofList
  · exact head_ofList

/-- What stands in front of the function declares the external functions of the module, each in
    its turn. -/
theorem declared_preambleLines (m : Module) :
    m.preambleLines.filterMap declares? = m.externals.map External.name := by
  have hheader : headerLines.filterMap declares? = [] := by
    rw [headerLines, List.filterMap_cons_none (declares?_of_head head_ofList (by decide)),
      List.filterMap_cons_none (declares?_of_head head_ofList (by decide))]
    rfl
  have hformats : formatLines.filterMap declares? = [] := by
    obtain ⟨numbers, texts, input, hlines, -⟩ := formatLines_eq
    rw [hlines, List.filterMap_cons_none (declares?_name _ _),
      List.filterMap_cons_none (declares?_name _ _), List.filterMap_cons_none (declares?_name _ _)]
    rfl
  have hblank : [""].filterMap declares? = [] := rfl
  have hdeclarations : m.declarationLines.filterMap declares? = m.externals.map External.name := by
    unfold declarationLines
    split
    · next hnone => rw [hnone]; rfl
    · rw [List.filterMap_append, hblank, List.append_nil]
      exact filterMap_map_of_eq declares?_declaration m.externals
  have hdefinitions : m.definitions.filterMap declares? = [] := by
    refine List.filterMap_eq_nil_iff.2 fun l hl => ?_
    obtain ⟨⟨s, k⟩, -, rfl⟩ := List.mem_map.1 hl
    exact declares?_definition k s
  simp only [preambleLines, List.filterMap_append, hheader, hdeclarations, hformats, hdefinitions,
    hblank, List.append_nil, List.nil_append]

/-- What stands in front of the function defines the constants of the module, each in its
    turn. -/
theorem defined_preambleLines (m : Module) :
    m.preambleLines.filterMap defines? = m.globals.map Global.name := by
  have hheader : headerLines.filterMap defines? = [] := by
    rw [headerLines,
      List.filterMap_cons_none (defines?_of_head head_ofList (by decide) (by decide)),
      List.filterMap_cons_none (defines?_of_head head_ofList (by decide) (by decide))]
    rfl
  have hformats : formatLines.filterMap defines? = Global.formats.map Global.name := by
    obtain ⟨numbers, texts, input, hlines, hrest⟩ := formatLines_eq
    rw [hlines, List.filterMap_cons_some (defines?_name (Global.isName_name _) (hrest _ (by simp))),
      List.filterMap_cons_some (defines?_name (Global.isName_name _) (hrest _ (by simp))),
      List.filterMap_cons_some (defines?_name (Global.isName_name _) (hrest _ (by simp)))]
    rfl
  have hblank : [""].filterMap defines? = [] := rfl
  have hdeclarations : m.declarationLines.filterMap defines? = [] := by
    unfold declarationLines
    split
    · rfl
    · rw [List.filterMap_append, hblank, List.append_nil]
      refine List.filterMap_eq_nil_iff.2 fun l hl => ?_
      obtain ⟨x, -, rfl⟩ := List.mem_map.1 hl
      exact defines?_declaration x
  have hdefinitions : m.definitions.filterMap defines?
      = (List.range m.texts.length).map fun k => (Global.literal k).name := by
    -- Literals are numbered by their places in the pool.
    have hlines : m.definitions = m.texts.zipIdx.map fun p => Constant.definition p.2 p.1 := rfl
    have hnames : ∀ p : String × Nat,
        defines? (Constant.definition p.2 p.1) = some (Global.literal p.2).name :=
      fun p => defines?_definition p.2 p.1
    have hplaces : m.texts.zipIdx.map Prod.snd = List.range m.texts.length := by
      rw [List.zipIdx_map_snd, List.range_eq_range']
    rw [hlines, filterMap_map_of_eq hnames, ← hplaces, List.map_map]
    rfl
  simp only [preambleLines, List.filterMap_append, hheader, hdeclarations, hformats, hdefinitions,
    hblank, List.append_nil, List.nil_append, globals, List.map_append, List.map_map]
  rfl

section Function

variable {m : Module}

theorem functionLines_eq (m : Module) :
    m.functionLines = opening :: m.body.filterMap Emission.line? ++ [closing] := rfl

theorem opening_eq : opening = "define " ++ "i32 " ++ "@" ++ "main" ++ "() \x7b" := rfl

/-- The line that opens the function defines it. -/
theorem defines?_opening : defines? opening = some "main" := by
  have hfront : Lacks '@' ("define " ++ "i32 ") :=
    (lacks_fixed sign_mem_dividers (by decide)).append (lacks_fixed sign_mem_dividers (by decide))
  have hsubject : subject? ("define " ++ "i32 " ++ "@" ++ "main" ++ "() \x7b") = some "main" :=
    subject?_name hfront (isName_ofList (by decide)) head_ofList (by decide)
  have hstarts : starts "define " opening = true := by
    rw [opening_eq]
    simp only [String.append_assoc]
    exact starts_append _ _
  rw [defines?, hstarts, Bool.or_true, if_pos rfl, opening_eq, hsubject]

theorem declares?_opening : declares? opening = none := by
  have hword : "declare ".toList = ['d', 'e', 'c', 'l', 'a', 'r', 'e', ' '] := String.toList_ofList
  have hother : "define ".toList = ['d', 'e', 'f', 'i', 'n', 'e', ' '] := String.toList_ofList
  have hstarts : starts "declare " opening = false := by
    rw [starts, hword, opening_eq]
    simp only [String.append_assoc, String.toList_append, hother]
    rfl
  rw [declares?, hstarts]
  rfl

/-- Nothing is declared inside of the function. -/
theorem declared_functionLines (m : Module) : m.functionLines.filterMap declares? = [] := by
  refine List.filterMap_eq_nil_iff.2 fun l hl => ?_
  rw [functionLines_eq] at hl
  rcases List.mem_append.1 hl with hl | hl
  · rcases List.mem_cons.1 hl with rfl | hl
    · exact declares?_opening
    · obtain ⟨c, hc, hhead⟩ := head_of_mem_body hl
      exact declares?_of_head hhead (ne_of_mem_of_not_mem hc (by decide)).symm
  · rw [List.mem_singleton.1 hl]
    exact declares?_of_head head_ofList (by decide)

/-- Nothing but the function itself is defined there. -/
theorem defined_functionLines (m : Module) : m.functionLines.filterMap defines? = ["main"] := by
  have hclosing : [closing].filterMap defines? = [] :=
    List.filterMap_cons_none (defines?_of_head head_ofList (by decide) (by decide))
  have hbody : (m.body.filterMap Emission.line?).filterMap defines? = [] := by
    refine List.filterMap_eq_nil_iff.2 fun l hl => ?_
    obtain ⟨c, hc, hhead⟩ := head_of_mem_body hl
    exact defines?_of_head hhead (ne_of_mem_of_not_mem hc (by decide)).symm
      (ne_of_mem_of_not_mem hc (by decide)).symm
  rw [functionLines_eq, List.filterMap_append, hclosing, List.append_nil,
    List.filterMap_cons_some defines?_opening, hbody]

/-- No variable of a module has a divider in its name. -/
def PlainNames (m : Module) : Prop := ∀ i ∈ m.instrs, ∀ x ∈ i.slots, ∀ c ∈ dividers, Lacks c x

theorem lines_text (h : m.PlainNames) :
    lines m.text = m.preambleLines ++ m.functionLines ++ [""] := by
  have honeLine : ∀ i ∈ m.instrs, ∀ x ∈ i.slots, OneLine x := fun i hi x hx =>
    h i hi x hx _ newline_mem_dividers
  rw [lines, splitOn_text honeLine, List.map_append, map_ofList_toList]
  rfl

/-- The function is not opened in front of it. -/
theorem ne_opening_of_mem {l : String} (h : l ∈ m.preambleLines) : l ≠ opening := by
  rintro rfl
  have hmain : "main" ∈ m.preambleLines.filterMap defines? :=
    List.mem_filterMap.2 ⟨opening, h, defines?_opening⟩
  rw [defined_preambleLines] at hmain
  obtain ⟨g, -, hg⟩ := List.mem_map.1 hmain
  exact g.name_ne_main hg

/-- No line of the body closes the function. -/
theorem ne_closing_of_mem {l : String} (h : l ∈ m.body.filterMap Emission.line?) :
    l ≠ closing := by
  rintro rfl
  obtain ⟨c, hc, hhead⟩ := head_of_mem_body h
  have hbrace : closing.toList.head? = some '\x7d' := rfl
  rw [hbrace] at hhead
  cases hhead
  exact absurd hc (by decide)

/-- What is read as the front of a text is the preamble of the module. -/
theorem front_text (h : m.PlainNames) : front m.text = m.preambleLines := by
  have hother : ∀ l ∈ m.preambleLines, decide (l ≠ opening) = true := fun l hl =>
    decide_eq_true (ne_opening_of_mem hl)
  rw [front, lines_text h, List.append_assoc, List.takeWhile_append_of_pos hother,
    functionLines_eq, List.cons_append, List.cons_append, List.takeWhile_cons_of_neg (by simp),
    List.append_nil]

/-- What is read as the inside of a text is the body of the module. -/
theorem inside_text (h : m.PlainNames) : inside m.text = m.body.filterMap Emission.line? := by
  have hother : ∀ l ∈ m.preambleLines, decide (l ≠ opening) = true := fun l hl =>
    decide_eq_true (ne_opening_of_mem hl)
  have hinside : ∀ l ∈ m.body.filterMap Emission.line?, decide (l ≠ closing) = true := fun l hl =>
    decide_eq_true (ne_closing_of_mem hl)
  rw [inside, lines_text h, List.append_assoc, List.dropWhile_append_of_pos hother,
    functionLines_eq, List.cons_append, List.cons_append, List.dropWhile_cons_of_neg (by simp),
    List.tail_cons, List.append_assoc, List.takeWhile_append_of_pos hinside, List.cons_append,
    List.takeWhile_cons_of_neg (by simp), List.append_nil]

theorem lacks_of_plainNames (h : m.PlainNames) {i : Instr} (hi : i ∈ m.instrs) :
    ∀ x ∈ i.slots, Lacks '@' x := fun x hx => h i hi x hx _ (by decide)

/-- The functions that the lines inside the function call are those that the module has to
    declare. -/
theorem exists_calls_iff (h : m.PlainNames) {f : String} :
    (∃ l ∈ m.body.filterMap Emission.line?, f ∈ calls l) ↔ f ∈ m.externals.map External.name := by
  constructor
  · rintro ⟨l, hl, hf⟩
    obtain ⟨e, he, hline⟩ := List.mem_filterMap.1 hl
    cases e with
    | label label =>
      cases hline
      rw [calls, mentions_label] at hf
      cases hf
    | step site s =>
      cases hline
      have hi : s.instr ∈ m.instrs := List.mem_filterMap.2 ⟨_, he, rfl⟩
      obtain ⟨x, hx, rfl⟩ := (mem_calls_step (lacks_of_plainNames h hi)).1 hf
      exact List.mem_map.2 ⟨x, mem_externals.2 ⟨_, hi, hx⟩, rfl⟩
    | note a => cases hline
  · intro hf
    obtain ⟨x, hx, rfl⟩ := List.mem_map.1 hf
    obtain ⟨i, hi, hcall⟩ := mem_externals.1 hx
    obtain ⟨e, he, hinstr⟩ := List.mem_filterMap.1 hi
    cases e with
    | step site s =>
      cases hinstr
      exact ⟨_, List.mem_filterMap.2 ⟨_, he, rfl⟩,
        (mem_calls_step (lacks_of_plainNames h hi)).2 ⟨x, hcall, rfl⟩⟩
    | label label => cases hinstr
    | note a => cases hinstr

/-- What the lines inside the function refer to is a constant of the module. -/
theorem mem_globals_of_refers (h : m.PlainNames)
    (hliterals : ∀ i ∈ m.instrs, ∀ k, i.literal? = some k → k < m.texts.length) {l name : String}
    (hl : l ∈ m.body.filterMap Emission.line?) (hname : name ∈ refers l) :
    name ∈ m.globals.map Global.name := by
  obtain ⟨e, he, hline⟩ := List.mem_filterMap.1 hl
  cases e with
  | label label =>
    cases hline
    rw [refers, mentions_label] at hname
    cases hname
  | note a => cases hline
  | step site s =>
    cases hline
    have hi : s.instr ∈ m.instrs := List.mem_filterMap.2 ⟨_, he, rfl⟩
    obtain ⟨t, g, heq, rfl⟩ := eq_address_of_mem_refers (lacks_of_plainNames h hi) hname
    refine List.mem_map_of_mem ?_
    rcases g.mem_formats_or with hg | ⟨k, rfl⟩
    · exact List.mem_append_left _ hg
    · have hk : k < m.texts.length := hliterals _ hi k (by rw [heq]; rfl)
      exact List.mem_append_right _ (List.mem_map_of_mem (List.mem_range.2 hk))

theorem nodup_externals (m : Module) : m.externals.Nodup :=
  List.filter_sublist.nodup (by decide)

/-- The names defined in a text are those of the constants and of the function. -/
theorem defined_lines (h : m.PlainNames) :
    (lines m.text).filterMap defines? = m.globals.map Global.name ++ ["main"] := by
  have hblank : [""].filterMap defines? = [] := rfl
  rw [lines_text h, List.filterMap_append, List.filterMap_append, defined_preambleLines,
    defined_functionLines, hblank, List.append_nil]

/-- No name is defined twice. -/
theorem nodup_defined (m : Module) : (m.globals.map Global.name ++ ["main"]).Nodup := by
  refine List.nodup_append.2 ⟨m.nodup_globals.map fun _ _ => Global.name_inj, by decide, ?_⟩
  intro name hname main hmain
  obtain ⟨g, -, rfl⟩ := List.mem_map.1 hname
  rw [List.mem_singleton.1 hmain]
  exact g.name_ne_main

/-- A module is closed, if its names and its literals are in order. -/
theorem isClosed_of_plainNames (h : m.PlainNames)
    (hliterals : ∀ i ∈ m.instrs, ∀ k, i.literal? = some k → k < m.texts.length) :
    IsClosed m.text where
  parts := by
    rw [front_text h, inside_text h, lines_text h, functionLines_eq]
    simp
  inHeader := by
    have hblank : [""].filterMap declares? = [] := rfl
    rw [front_text h, lines_text h, List.filterMap_append, List.filterMap_append,
      declared_functionLines, hblank, List.append_nil, List.append_nil]
  once := by
    rw [front_text h, declared_preambleLines]
    exact m.nodup_externals.map fun _ _ => External.name_inj
  declared f := by
    rw [front_text h, inside_text h, declared_preambleLines, exists_calls_iff h]
  defined l hl name hname := by
    rw [inside_text h] at hl
    rw [defined_lines h]
    have hmem := mem_globals_of_refers h hliterals hl hname
    exact List.count_eq_one_of_mem m.nodup_defined (List.mem_append_left _ hmem)

end Function

end Module

-- ============================================================================
-- Modules made at a bench
-- ============================================================================

/-- The names of variables that the scanner finds hold no divider. -/
theorem IsWord.lacks {x : String} (h : IsWord x.toList) {c : Char} (hc : c ∈ dividers) :
    Lacks c x := by
  have hword : c.isAlpha = false ∧ isWordChar c = false := by
    rcases eq_of_dividers hc with rfl | rfl
    · decide
    · decide
  obtain ⟨first, more, hx, hfirst, hmore⟩ := h
  rw [Lacks, hx, List.mem_cons, not_or]
  constructor
  · rintro rfl
    rw [hword.1] at hfirst
    cases hfirst
  · intro hmem
    have hc' := hmore c hmem
    rw [hword.2] at hc'
    cases hc'

theorem Program.plainNames_of_lower {p : Program} {inventory : Inventory} {m : Module}
    (h : (p.lower inventory).outcome = .ok m) (hnames : ∀ x ∈ inventory.names, IsWord x.toList) :
    m.PlainNames := by
  intro i hi x hx c hc
  have hslot : x ∈ inventory.names := ((Program.mainCode_of_lower h).flow.ok_of_mem hi).slots x hx
  exact (hnames x hslot).lacks hc

namespace Craft

/-- Every text made at a bench is closed and declares no more than it uses, whatever lies on the
    bench, where the variables of the inventory have names that the scanner finds. -/
theorem isClosed_text (p : Program) (b : Bench) (desk : Desk) (text : String)
    (hnames : ∀ x ∈ (b.inventory.getD p.inventory).names, IsWord x.toList)
    (h : ((workOn p).run.run (b, desk)).1 = .ok text) : CodeText.IsClosed text := by
  obtain ⟨b', -, hrun⟩ := run_workOn p b desk
  rw [hrun] at h
  cases hmade : (p.lower (b.inventory.getD p.inventory)).outcome with
  | error e =>
    rw [hmade] at h
    cases h
  | ok m =>
    rw [hmade] at h
    cases h
    exact Module.isClosed_of_plainNames (Program.plainNames_of_lower hmade hnames)
      (literal_lt_of_lower hmade)

end Craft

/-- A program that reads a number, draws one and takes a root in a subroutine, prints a text that
    looks like the name of a global, and compares two texts. -/
def Program.kiosk : Program :=
  let start : Position := ⟨1, 1⟩
  ⟨[⟨10, [.input start "N", .gosub start 40, .ifThen start
      (.binary start (.compare .lt) (.text start "a") (.text start "b")) 30], start⟩,
    ⟨30, [.end_ start], start⟩,
    ⟨40, [.print start (.text start "@puts("),
      .print start (.call start "SQR" [.call start "RND" [.var start "N"]]), .return_ start], start⟩]⟩

theorem Program.exists_lower_kiosk :
    ∃ m, (kiosk.lower kiosk.inventory).outcome = .ok m ∧
      m.externals.map External.name = ["printf", "scanf", "strcmp", "sqrt", "drand48"] := by
  have hnames : (kiosk.lower kiosk.inventory).outcome.toOption.map
      (fun m => m.externals.map External.name)
        = some ["printf", "scanf", "strcmp", "sqrt", "drand48"] := by decide +kernel
  cases h : (kiosk.lower kiosk.inventory).outcome with
  | ok m =>
    rw [h] at hnames
    exact ⟨m, rfl, Option.some.inj hnames⟩
  | error e =>
    rw [h] at hnames
    cases hnames

theorem Craft.isClosed_kiosk :
    (∀ x ∈ Program.kiosk.inventory.names, IsWord x.toList) ∧
    ∃ text, ((workOn .kiosk).run.run (.fresh none, .ofJournal .off)).1 = .ok text ∧
      CodeText.IsClosed text ∧
      (CodeText.front text).filterMap CodeText.declares?
        = ["printf", "scanf", "strcmp", "sqrt", "drand48"] := by
  have hnames : ∀ x ∈ Program.kiosk.inventory.names, IsWord x.toList := by
    have hlist : Program.kiosk.inventory.names.toList = ["N"] := by decide +kernel
    intro x hx
    have hx : x ∈ ["N"] := hlist ▸ hx
    rw [List.mem_singleton.1 hx]
    exact ⟨'N', [], rfl, rfl, nofun⟩
  obtain ⟨m, hm, hexternals⟩ := Program.exists_lower_kiosk
  obtain ⟨b', -, hrun⟩ := run_workOn .kiosk (.fresh none) (.ofJournal .off)
  have htext : ((workOn .kiosk).run.run (.fresh none, .ofJournal .off)).1 = .ok m.text := by
    rw [hrun]
    exact congrArg (Except.map Module.text) hm
  refine ⟨hnames, m.text, htext, isClosed_text .kiosk (.fresh none) _ m.text hnames htext, ?_⟩
  rw [Module.front_text (Program.plainNames_of_lower hm hnames), Module.declared_preambleLines,
    hexternals]

end LineBasic
