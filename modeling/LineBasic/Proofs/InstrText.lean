/-
  LineBasic.Proofs.InstrText

  What an instruction says is what it is.  The text of an instruction is read without
  knowing which instruction it was: it is cut into words, the words are grouped by the
  types among them (`Printed.Clause`), and general rules tell what the words define, use,
  name and jump to.  A word behind a type is a value of that type; a temporary, a slot and
  a label are told by their spelling; the first word tells what is done.

  This gives back everything that the proofs know about an instruction: its result, the
  temporaries it uses with their types, the slots it names, the blocks it goes on with,
  and what it does when it is carried out.
-/

import LineBasic.Proofs.CodeMachine
import LineBasic.Proofs.Literals
import LineBasic.Proofs.TextPieces

namespace LineBasic

namespace Printed

-- ============================================================================
-- Words
-- ============================================================================

/-- Puts a word in front of others, if it has any characters. -/
def putWord (w : List Char) (ws : List String) : List String :=
  if w = [] then ws else String.ofList w :: ws

/-- The word that a row of characters begins with, and the words behind the first separator. -/
def cutWord : List Char → List Char × List String
  | [] => ([], [])
  | c :: cs =>
    if separators.contains c then ([], putWord (cutWord cs).1 (cutWord cs).2)
    else (c :: (cutWord cs).1, (cutWord cs).2)

/-- The words of a row of characters: what stands between separators. -/
def words (cs : List Char) : List String := putWord (cutWord cs).1 (cutWord cs).2

/-- The text is a single word. -/
structure IsSingle (w : String) : Prop where
  ne_nil : w.toList ≠ []
  lacks : ∀ c ∈ separators, Lacks c w

/-- Words behind a word stay behind it. -/
theorem putWord_append (w : List Char) (ws ws' : List String) :
    putWord w (ws ++ ws') = putWord w ws ++ ws' := by
  unfold putWord
  split <;> rfl

theorem cutWord_separator {c : Char} (hc : c ∈ separators) (cs : List Char) :
    cutWord (c :: cs) = ([], words cs) := by
  rw [cutWord, if_pos (List.contains_iff_mem.2 hc), words]

/-- Words on both sides of a separator are read apart. -/
theorem words_append (as bs : List Char) {c : Char} (hc : c ∈ separators) :
    words (as ++ c :: bs) = words as ++ words bs := by
  have hcut : cutWord (as ++ c :: bs) = ((cutWord as).1, (cutWord as).2 ++ words bs) := by
    induction as with
    | nil => exact cutWord_separator hc bs
    | cons a as ih =>
      rw [List.cons_append, cutWord, cutWord, ih]
      split
      · rw [putWord_append]
      · rfl
  rw [words, hcut]
  exact putWord_append _ _ _

/-- A single word is read as itself. -/
theorem words_of_isSingle {w : String} (h : IsSingle w) : words w.toList = [w] := by
  have hcut : ∀ cs : List Char, (∀ c ∈ separators, c ∉ cs) → cutWord cs = (cs, []) := by
    intro cs hcs
    induction cs with
    | nil => rfl
    | cons c cs ih =>
      have hc : c ∉ separators := fun hmem => hcs c hmem List.mem_cons_self
      rw [cutWord, if_neg (mt List.contains_iff_mem.1 hc),
        ih fun d hd hmem => hcs d hd (List.mem_cons_of_mem c hmem)]
  rw [words, hcut _ h.lacks, putWord, if_neg h.ne_nil, String.ofList_toList]

/-- Whether a row of characters begins with a separator. -/
def opens (cs : List Char) : Bool := cs.head?.any separators.contains

/-- Whether a row of characters ends in a separator. -/
def closes (cs : List Char) : Bool := cs.getLast?.any separators.contains

/-- A text that begins with a separator can be read apart from what is in front of it. -/
theorem words_append_of_opens (as : List Char) {bs : List Char} (h : opens bs = true) :
    words (as ++ bs) = words as ++ words bs := by
  cases bs with
  | nil => cases h
  | cons b bs =>
    have hb : b ∈ separators := List.contains_iff_mem.1 h
    have hbs : words (b :: bs) = words bs := words_append [] bs hb
    rw [words_append as bs hb, hbs]

/-- A text that ends in a separator can be read apart from what is behind it. -/
theorem words_append_of_closes {as : List Char} (bs : List Char) (h : closes as = true) :
    words (as ++ bs) = words as ++ words bs := by
  rcases List.eq_nil_or_concat' as with rfl | ⟨as, a, rfl⟩
  · cases h
  · have ha : a ∈ separators := by
      rw [closes, List.getLast?_concat] at h
      exact List.contains_iff_mem.1 h
    have hnil : words (as ++ [a]) = words as := by
      rw [words_append as [] ha]
      exact List.append_nil _
    rw [hnil, List.append_assoc]
    exact words_append as bs ha

-- ============================================================================
-- Clauses
-- ============================================================================

/-- The words for types. -/
def typeWords : List String := ["double", "i1", "i32", "i64", "float", "ptr", "i8", "label"]

/-- The type of temporaries that a word stands for. -/
def codeType? : String → Option CodeType
  | "double" => some .double
  | "i1" => some .truth
  | "i32" => some .order
  | "i64" => some .integer
  | "float" => some .single
  | "ptr" => some .address
  | _ => none

/-- An instruction by its words: what it names in front of an equals sign, the words up to the
    first type, and each type with the words up to the next one. -/
structure Clause where
  result : Option String
  action : List String
  args : List (String × List String)

/-- The words up to the first type, and each type with the words up to the next one. -/
def grouped : List String → List String × List (String × List String)
  | [] => ([], [])
  | w :: ws =>
    if typeWords.contains w then ([], (w, (grouped ws).1) :: (grouped ws).2)
    else (w :: (grouped ws).1, (grouped ws).2)

/-- The clause that words make; an equals sign can only be the second of them. -/
def Clause.ofWords (ws : List String) : Clause :=
  if ws.tail.head? = some "=" then ⟨ws.head?, (grouped (ws.drop 2)).1, (grouped (ws.drop 2)).2⟩
  else ⟨none, (grouped ws).1, (grouped ws).2⟩

/-- Reads an instruction. -/
def read (text : String) : Clause := .ofWords (words text.toList)

-- ----------------------------------------------------------------------------
-- Names and numbers
-- ----------------------------------------------------------------------------

/-- The temporary that a word names. -/
def temp? (w : String) : Option Temp :=
  match w.toList with
  | '%' :: 't' :: ds =>
    if ds ≠ [] ∧ ds.all Char.isDigit = true then some ⟨Nat.ofDigitChars 10 ds 0⟩ else none
  | _ => none

/-- The variable whose slot a word names. -/
def slot? (w : String) : Option String :=
  match w.toList with
  | '%' :: cs =>
    if ".addr".toList.isSuffixOf cs then some (String.ofList (cs.take (cs.length - 5))) else none
  | _ => none

/-- The operand that a word is. -/
def operand? (w : String) : Option Operand :=
  match temp? w with
  | some t => some (.temp t)
  | none => (Numeral.ofLiteral? w).map .literal

/-- The temporary that is used at a type, if a word names one. -/
def used (type w : String) : Known :=
  match temp? w, codeType? type with
  | some t, some codeType => [(t, codeType)]
  | _, _ => []

namespace Clause

/-- The words behind types, each with its type. -/
def values (p : Clause) : List (String × String) :=
  p.args.flatMap fun (type, ws) => ws.map (type, ·)

/-- The type of the result.  A comparison gives a truth value and an address calculation an
    address; a conversion gives the type it names last, everything else the type it names first. -/
def resultType? (p : Clause) : Option CodeType :=
  p.action.head?.bind fun verb =>
    if ["fcmp", "icmp"].contains verb then some .truth
    else if verb = "getelementptr" then some .address
    else if ["uitofp", "fptosi", "sitofp", "fptrunc", "fpext"].contains verb then
      p.args.getLast?.bind (codeType? ·.1)
    else p.args.head?.bind (codeType? ·.1)

/-- The temporary that is defined, and its type. -/
def result? (p : Clause) : Option (Temp × CodeType) := do
  let t ← p.result.bind temp?
  let type ← p.resultType?
  return (t, type)

/-- The temporaries that are used, each at the type in front of it. -/
def uses (p : Clause) : Known := p.values.flatMap fun (type, w) => used type w

/-- The variables whose slots are named. -/
def slots (p : Clause) : List String := (p.result.toList ++ p.values.map Prod.snd).filterMap slot?

/-- What the blocks are called that may come next. -/
def targets (p : Clause) : List String :=
  (p.values.filter (·.1 = "label")).map fun (_, w) => String.ofList (w.toList.drop 1)

end Clause

-- ----------------------------------------------------------------------------
-- Execution
-- ----------------------------------------------------------------------------

/-- The operation that a word stands for. -/
def arith? : String → Option Arith
  | "fadd" => some .add
  | "fsub" => some .sub
  | "fmul" => some .mul
  | "fdiv" => some .div
  | _ => none

/-- The relation between doubles that a word stands for. -/
def floatRelation? : String → Option Relation
  | "oeq" => some .eq
  | "one" => some .ne
  | "olt" => some .lt
  | "ole" => some .le
  | "ogt" => some .gt
  | "oge" => some .ge
  | _ => none

/-- The relation between whole numbers that a word stands for. -/
def integerRelation? : String → Option Relation
  | "eq" => some .eq
  | "ne" => some .ne
  | "slt" => some .lt
  | "sle" => some .le
  | "sgt" => some .gt
  | "sge" => some .ge
  | _ => none

/-- The function of the mathematical library that a word names. -/
def math? : String → Option MathFunction
  | "@sqrt" => some .sqrt
  | "@fabs" => some .fabs
  | "@sin" => some .sin
  | "@cos" => some .cos
  | "@tan" => some .tan
  | "@atan" => some .atan
  | "@log" => some .log
  | "@exp" => some .exp
  | "@floor" => some .floor
  | "@round" => some .round
  | _ => none

/-- The constant text that a word names. -/
def global? (w : String) : Option Global :=
  match w.toList with
  | ['@', '.', 'f', 'm', 't', '_', 'n', 'u', 'm'] => some .numberFormat
  | ['@', '.', 'f', 'm', 't', '_', 's', 't', 'r'] => some .textFormat
  | ['@', '.', 'f', 'm', 't', '_', 'i', 'n'] => some .inputFormat
  | '@' :: '.' :: 's' :: 't' :: 'r' :: '.' :: ds => some (.literal (Nat.ofDigitChars 10 ds 0))
  | _ => none

section Execution

variable {M : Meaning} (ρ : Regs M)

/-- The number that a word stands for. -/
def number? (w : String) : Option M.Num := (operand? w).bind (·.value? ρ)

/-- The truth value in the temporary that a word names. -/
def truth? (w : String) : Option Bool :=
  match (temp? w).bind ρ with
  | some (.truth b) => some b
  | _ => none

/-- The outcome of a comparison in the temporary that a word names. -/
def order? (w : String) : Option Int :=
  match (temp? w).bind ρ with
  | some (.order o) => some o
  | _ => none

/-- The whole number in the temporary that a word names. -/
def whole? (w : String) : Option M.Whole :=
  match (temp? w).bind ρ with
  | some (.whole i) => some i
  | _ => none

/-- The number of single precision in the temporary that a word names. -/
def single? (w : String) : Option M.Single :=
  match (temp? w).bind ρ with
  | some (.single x) => some x
  | _ => none

/-- Whether the temporary that a word names holds the address of a constant text. -/
def pointsTo (w : String) (g : Global) : Option Unit :=
  match (temp? w).bind ρ with
  | some (.address g') => if g' = g then some () else none
  | _ => none

/-- What an instruction does, told from its words. -/
def Clause.exec (texts : List String) (μ : M.Mem) (p : Clause) : Option (Regs M × M.Mem) :=
  match p.result, p.action, p.args with
  | some _, ["alloca"], [("double", [])] => some (ρ, μ)
  | none, ["store"], [("double", [v]), ("ptr", [x])] => do
    some (ρ, μ.assign (← slot? x) (← number? ρ v))
  | some t, ["load"], [("double", []), ("ptr", [x])] => do
    some (ρ.set (← temp? t) (.number (μ.store (← slot? x))), μ)
  | some t, [op], [("double", [l, r])] => do
    some (ρ.set (← temp? t) (.number (M.arith (← arith? op) (← number? ρ l) (← number? ρ r))), μ)
  | some t, ["fcmp", code], [("double", [l, r])] => do
    let (b, μ') := M.compare (← floatRelation? code) (← number? ρ l) (← number? ρ r) μ
    some (ρ.set (← temp? t) (.truth b), μ')
  | some t, ["call"], [("i32", ["@strcmp"]), ("ptr", [a]), ("ptr", [b])] => do
    let a ← (temp? a).bind (ρ.text? texts)
    let b ← (temp? b).bind (ρ.text? texts)
    some (ρ.set (← temp? t) (.order (M.order a b)), μ)
  | some t, ["icmp", code], [("i32", [o, "0"])] => do
    let rel ← integerRelation? code
    let b := rel.ofOrder (← order? ρ o)
    some (ρ.set (← temp? t) (.truth b), μ.perform (.compared rel b))
  | some t, ["uitofp"], [("i1", [c, "to"]), ("double", [])] => do
    some (ρ.set (← temp? t) (.number (M.ofTruth (← truth? ρ c))), μ)
  | some t, ["fptosi"], [("double", [v, "to"]), ("i64", [])] => do
    some (ρ.set (← temp? t) (.whole (M.toInteger (← number? ρ v))), μ)
  | some t, ["sitofp"], [("i64", [i, "to"]), ("double", [])] => do
    some (ρ.set (← temp? t) (.number (M.ofInteger (← whole? ρ i))), μ)
  | some t, ["fptrunc"], [("double", [v, "to"]), ("float", [])] => do
    some (ρ.set (← temp? t) (.single (M.toSingle (← number? ρ v))), μ)
  | some t, ["fpext"], [("float", [x, "to"]), ("double", [])] => do
    some (ρ.set (← temp? t) (.number (M.ofSingle (← single? ρ x))), μ)
  | some t, ["getelementptr", "inbounds"], [("i8", []), ("ptr", [g]), ("i64", ["0"])] => do
    some (ρ.set (← temp? t) (.address (← global? g)), μ)
  | some t, ["call"], [("double", [f]), ("double", [v])] => do
    some (ρ.set (← temp? t) (.number (M.call (← math? f) (← number? ρ v))), μ)
  | some t, ["call"], [("double", ["@drand48"])] => do
    some (ρ.set (← temp? t) (.number (M.random μ).1), (M.random μ).2)
  | none, ["call"], [("i32", []), ("ptr", ["...", "@printf"]), ("ptr", [f]), ("double", [v])] => do
    pointsTo ρ f .numberFormat
    some (ρ, μ.perform (.printed (← number? ρ v)))
  | none, ["call"], [("i32", []), ("ptr", ["...", "@printf"]), ("ptr", [f]), ("ptr", [s])] => do
    pointsTo ρ f .textFormat
    some (ρ, μ.perform (.printedText (← (temp? s).bind (ρ.text? texts))))
  | none, ["call"], [("i32", []), ("ptr", ["...", "@scanf"]), ("ptr", [f]), ("ptr", [x])] => do
    pointsTo ρ f .inputFormat
    some (ρ, μ.input M.read (← slot? x))
  | _, _, _ => none

end Execution

-- ============================================================================
-- The text of an instruction
-- ============================================================================

/-- A word that is no type. -/
structure IsPlain (w : String) : Prop extends IsSingle w where
  noType : typeWords.contains w = false

/-- A sign that no type holds tells a word from types. -/
theorem noType_of_head {w : String} {c : Char} {cs : List Char} (h : w.toList = c :: cs)
    (hc : (typeWords.all fun type => !type.toList.contains c) = true) :
    typeWords.contains w = false := by
  refine Bool.eq_false_iff.2 fun hw => ?_
  have hlacks := List.all_eq_true.1 hc w (List.contains_iff_mem.1 hw)
  rw [h, List.contains_iff_mem.2 List.mem_cons_self] at hlacks
  cases hlacks

/-- So does it tell a text without separators from types. -/
theorem isPlain_of_head {w : String} {c : Char} {cs : List Char} (h : w.toList = c :: cs)
    (hc : (typeWords.all fun type => !type.toList.contains c) = true)
    (hlacks : ∀ d ∈ separators, Lacks d w) : IsPlain w := by
  refine ⟨⟨?_, hlacks⟩, noType_of_head h hc⟩
  rw [h]
  exact List.cons_ne_nil c cs

theorem isPlain_temp (t : Temp) : IsPlain t.text :=
  isPlain_of_head t.toList_text (by decide) fun _ hd =>
    t.lacks_text (List.mem_append_right _ hd)

theorem isPlain_slot {x : String} (h : ∀ c ∈ separators, Lacks c x) : IsPlain (slotText x) :=
  isPlain_of_head (toList_slotText x) (by decide) fun c hc =>
    lacks_slotText (List.mem_append_right _ hc) (h c hc)

theorem isPlain_reference (l : Label) : IsPlain l.reference :=
  isPlain_of_head l.toList_reference (by decide) fun _ hc =>
    .append (lacks_fixed hc (by decide)) (l.lacks_text (List.mem_append_right _ hc))

/-- A literal is one word, and no type is written with the characters of literals. -/
theorem isPlain_literal (x : Float) : IsPlain (Numeral.literal x) := by
  have hread := Numeral.ofLiteral?_literal x
  refine ⟨⟨fun hnil => ?_, fun c hc => ?_⟩, Bool.eq_false_iff.2 fun htype => ?_⟩
  · rw [String.toList_eq_nil_iff.1 hnil] at hread
    cases hread
  · exact Numeral.lacks_literal (isLiteralChar_of_marks (List.mem_append_right _ hc)) x
  · have hall : (typeWords.all fun type => type.toList.any fun c => !isLiteralChar c) = true := by
      decide
    obtain ⟨c, hmem, hc⟩ :=
      List.any_eq_true.1 (List.all_eq_true.1 hall _ (List.contains_iff_mem.1 htype))
    exact Numeral.lacks_literal (Bool.not_eq_true' _ ▸ hc) x hmem

theorem isPlain_operand (v : Operand) : IsPlain v.text := by
  cases v with
  | literal x => exact isPlain_literal x
  | temp t => exact isPlain_temp t

/-- The name of a global is one word. -/
theorem isPlain_sign {name : String} (h : IsName name) : IsPlain ("@" ++ name) := by
  have hlist : ("@" ++ name).toList = '@' :: name.toList := by
    rw [String.toList_append]
    rfl
  refine isPlain_of_head hlist (by decide) fun c hc hmem => ?_
  have hnames : (separators.all fun c => !isNameChar c && c != '@') = true := by decide
  have hother := List.all_eq_true.1 hnames c hc
  rw [hlist] at hmem
  rcases List.mem_cons.1 hmem with rfl | hmem
  · exact absurd hother (by decide)
  · rw [h c hmem] at hother
    cases hother

theorem isPlain_global (g : Global) : IsPlain g.text := by
  rw [g.text_eq]
  exact isPlain_sign g.isName_name

-- ----------------------------------------------------------------------------
-- Words of a clause
-- ----------------------------------------------------------------------------

/-- The words of a clause, in order. -/
def Clause.words (p : Clause) : List String :=
  (p.result.elim [] fun r => [r, "="]) ++ (p.action ++ p.args.flatMap fun (type, ws) => type :: ws)

/-- Whether no word of a row is a type. -/
def noTypes (ws : List String) : Bool := ws.all fun w => !typeWords.contains w

/-- Types stand where types belong, and a clause without a result has one word in front of the
    first type. -/
structure Clause.Sound (p : Clause) : Prop where
  action : noTypes p.action = true
  args : (p.args.all fun a => typeWords.contains a.1 && noTypes a.2) = true
  single : p.result = none → ∃ w, p.action = [w]

/-- Words that are no types stay together up to the first type. -/
theorem grouped_append {ws : List String} (h : noTypes ws = true) (ws' : List String) :
    grouped (ws ++ ws') = (ws ++ (grouped ws').1, (grouped ws').2) := by
  induction ws with
  | nil => rfl
  | cons w ws ih =>
    obtain ⟨hw, hws⟩ := Bool.and_eq_true_iff.1 h
    rw [List.cons_append, grouped, if_neg (Bool.not_eq_true _ ▸ Bool.not_eq_true' _ ▸ hw), ih hws]
    rfl

/-- Every type begins a group. -/
theorem grouped_args {args : List (String × List String)}
    (h : (args.all fun a => typeWords.contains a.1 && noTypes a.2) = true) :
    grouped (args.flatMap fun (type, ws) => type :: ws) = ([], args) := by
  induction args with
  | nil => rfl
  | cons a args ih =>
    obtain ⟨ha, hargs⟩ := Bool.and_eq_true_iff.1 h
    obtain ⟨htype, hws⟩ := Bool.and_eq_true_iff.1 ha
    obtain ⟨type, ws⟩ := a
    rw [List.flatMap_cons, List.cons_append, grouped, if_pos htype, grouped_append hws, ih hargs,
      List.append_nil]

/-- The words of a clause are read as the clause. -/
theorem Clause.ofWords_words {p : Clause} (h : p.Sound) : ofWords p.words = p := by
  obtain ⟨result, action, args⟩ := p
  have hgrouped : grouped (action ++ args.flatMap fun (type, ws) => type :: ws)
      = (action, args) := by
    rw [grouped_append h.action, grouped_args h.args, List.append_nil]
  unfold ofWords
  cases result with
  | some r =>
    have hwords : (Clause.mk (some r) action args).words
        = r :: "=" :: (action ++ args.flatMap fun (type, ws) => type :: ws) := rfl
    rw [hwords, List.tail_cons, List.head?_cons, if_pos rfl, List.drop_succ_cons,
      List.drop_succ_cons, List.drop_zero, hgrouped, List.head?_cons]
  | none =>
    have hwords : (Clause.mk none action args).words
        = action ++ args.flatMap fun (type, ws) => type :: ws := rfl
    obtain ⟨w, hw⟩ := h.single rfl
    obtain rfl : action = [w] := hw
    -- The second word could be `=` only as a type, and it is none.
    have hsecond : (Clause.mk none [w] args).words.tail.head? ≠ some "=" := by
      rw [hwords]
      cases args with
      | nil => exact Option.some_ne_none _ ∘ Eq.symm
      | cons a args =>
        intro heq
        obtain ⟨ha, -⟩ := Bool.and_eq_true_iff.1 h.args
        obtain ⟨htype, -⟩ := Bool.and_eq_true_iff.1 ha
        rw [show a.1 = "=" from Option.some.inj heq] at htype
        exact absurd htype (by decide)
    rw [if_neg hsecond, hwords, hgrouped]

-- ----------------------------------------------------------------------------
-- Words with fixed texts between them
-- ----------------------------------------------------------------------------

/-- The text has the given words. -/
def Spells (s : String) (ws : List String) : Prop := words s.toList = ws

namespace Spells

variable {s t : String} {ws ws' : List String} {cs : List Char}

/-- Words with a fixed text between them. -/
theorem between (hs : Spells s ws) (ht : Spells t ws') (hopens : opens cs = true)
    (hcloses : closes cs = true) :
    Spells (s ++ String.ofList cs ++ t) (ws ++ (words cs ++ ws')) := by
  have hback : opens (cs ++ t.toList) = true := by
    cases cs with
    | nil => cases hopens
    | cons c cs => exact hopens
  rw [Spells, String.toList_append, String.toList_append, String.toList_ofList, List.append_assoc,
    words_append_of_opens _ hback, words_append_of_closes _ hcloses, hs, ht]

/-- Words behind a fixed text. -/
theorem front (ht : Spells t ws) (hcloses : closes cs = true) :
    Spells (String.ofList cs ++ t) (words cs ++ ws) := by
  rw [Spells, String.toList_append, String.toList_ofList, words_append_of_closes _ hcloses, ht]

/-- Words in front of a fixed text. -/
theorem back (hs : Spells s ws) (hopens : opens cs = true) :
    Spells (s ++ String.ofList cs) (ws ++ words cs) := by
  rw [Spells, String.toList_append, String.toList_ofList, words_append_of_opens _ hopens, hs]

end Spells

theorem IsPlain.spells {w : String} (h : IsPlain w) : Spells w [w] := words_of_isSingle h.toIsSingle

end Printed

namespace Instr

open Printed

/-- What the text of an instruction is read as. -/
def clause : Instr → Clause
  | alloca x => ⟨some (slotText x), ["alloca"], [("double", [])]⟩
  | store v x => ⟨none, ["store"], [("double", [v.text]), ("ptr", [slotText x])]⟩
  | load t x => ⟨some t.text, ["load"], [("double", []), ("ptr", [slotText x])]⟩
  | arith t op l r => ⟨some t.text, [op.mnemonic], [("double", [l.text, r.text])]⟩
  | compare t rel l r => ⟨some t.text, ["fcmp", rel.floatCode], [("double", [l.text, r.text])]⟩
  | compareTexts t a b =>
    ⟨some t.text, ["call"], [("i32", ["@strcmp"]), ("ptr", [a.text]), ("ptr", [b.text])]⟩
  | compareOrder t rel o => ⟨some t.text, ["icmp", rel.integerCode], [("i32", [o.text, "0"])]⟩
  | ofTruth t c => ⟨some t.text, ["uitofp"], [("i1", [c.text, "to"]), ("double", [])]⟩
  | toInteger t v => ⟨some t.text, ["fptosi"], [("double", [v.text, "to"]), ("i64", [])]⟩
  | ofInteger t i => ⟨some t.text, ["sitofp"], [("i64", [i.text, "to"]), ("double", [])]⟩
  | toSingle t v => ⟨some t.text, ["fptrunc"], [("double", [v.text, "to"]), ("float", [])]⟩
  | ofSingle t f => ⟨some t.text, ["fpext"], [("float", [f.text, "to"]), ("double", [])]⟩
  | address t g =>
    ⟨some t.text, ["getelementptr", "inbounds"], [("i8", []), ("ptr", [g.text]), ("i64", ["0"])]⟩
  | call t f v => ⟨some t.text, ["call"], [("double", ["@" ++ f.linkName]), ("double", [v.text])]⟩
  | draw t => ⟨some t.text, ["call"], [("double", ["@drand48"])]⟩
  | printNumber f v => ⟨none, ["call"],
      [("i32", []), ("ptr", ["...", "@printf"]), ("ptr", [f.text]), ("double", [v.text])]⟩
  | printText f s => ⟨none, ["call"],
      [("i32", []), ("ptr", ["...", "@printf"]), ("ptr", [f.text]), ("ptr", [s.text])]⟩
  | readNumber f x => ⟨none, ["call"],
      [("i32", []), ("ptr", ["...", "@scanf"]), ("ptr", [f.text]), ("ptr", [slotText x])]⟩
  | br l => ⟨none, ["br"], [("label", [l.reference])]⟩
  | brIf c yes no =>
    ⟨none, ["br"], [("i1", [c.text]), ("label", [yes.reference]), ("label", [no.reference])]⟩
  | ret => ⟨none, ["ret"], [("i32", ["0"])]⟩

/-- The names of variables have no separators in them. -/
def Legible (i : Instr) : Prop := ∀ x ∈ i.slots, ∀ c ∈ separators, Lacks c x

/-- A call, with the name of the function in one piece. -/
theorem text_call_eq (t : Temp) (f : MathFunction) (v : Operand) :
    (call t f v).text
      = t.text ++ " = call double " ++ ("@" ++ f.linkName) ++ "(double " ++ v.text ++ ")" := by
  have hfixed : " = call double @" = " = call double " ++ "@" := rfl
  show t.text ++ " = call double @" ++ f.linkName ++ "(double " ++ v.text ++ ")" = _
  rw [hfixed]
  simp only [String.append_assoc]

theorem text_br_eq (l : Label) : (br l).text = "br label " ++ l.reference := by
  have hfixed : "br label %" = "br label " ++ "%" := rfl
  show "br label %" ++ l.text = _
  rw [hfixed, String.append_assoc]
  rfl

/-- A jump on a condition names the condition and both of its targets. -/
theorem text_brIf_eq (c : Temp) (yes no : Label) :
    (brIf c yes no).text
      = "br i1 " ++ c.text ++ ", label " ++ yes.reference ++ ", label " ++ no.reference := by
  have hfixed : ", label %" = ", label " ++ "%" := rfl
  show "br i1 " ++ c.text ++ ", label %" ++ yes.text ++ ", label %" ++ no.text = _
  rw [hfixed]
  simp only [Label.reference, String.append_assoc]

/-- The text of an instruction has the words of its clause. -/
theorem spells_text {i : Instr} (h : i.Legible) : Spells i.text i.clause.words := by
  have hslot : ∀ x ∈ i.slots, Spells (slotText x) [slotText x] := fun x hx =>
    (isPlain_slot (h x hx)).spells
  have htemp : ∀ t : Temp, Spells t.text [t.text] := fun t => (isPlain_temp t).spells
  have hoperand : ∀ v : Operand, Spells v.text [v.text] := fun v => (isPlain_operand v).spells
  have hlabel : ∀ l : Label, Spells l.reference [l.reference] := fun l =>
    (isPlain_reference l).spells
  -- Between the operands stand fixed pieces, whose words are computed.
  cases i with
  | alloca x => exact (hslot x (List.mem_singleton_self x)).back (by decide)
  | store v x =>
    exact ((hoperand v).front (by decide)).between (hslot x (List.mem_singleton_self x))
      (by decide) (by decide)
  | load t x =>
    exact (htemp t).between (hslot x (List.mem_singleton_self x)) (by decide) (by decide)
  | arith t op l r =>
    have hop : Spells op.mnemonic [op.mnemonic] := by cases op <;> rfl
    exact (((htemp t).between hop (by decide) (by decide)).between (hoperand l)
      (by decide) (by decide)).between (hoperand r) (by decide) (by decide)
  | compare t rel l r =>
    have hrel : Spells rel.floatCode [rel.floatCode] := by cases rel <;> rfl
    exact (((htemp t).between hrel (by decide) (by decide)).between (hoperand l)
      (by decide) (by decide)).between (hoperand r) (by decide) (by decide)
  | compareTexts t a b =>
    exact (((htemp t).between (htemp a) (by decide) (by decide)).between (htemp b)
      (by decide) (by decide)).back (by decide)
  | compareOrder t rel o =>
    have hrel : Spells rel.integerCode [rel.integerCode] := by cases rel <;> rfl
    exact (((htemp t).between hrel (by decide) (by decide)).between (htemp o)
      (by decide) (by decide)).back (by decide)
  | ofTruth t c => exact ((htemp t).between (htemp c) (by decide) (by decide)).back (by decide)
  | toInteger t v => exact ((htemp t).between (hoperand v) (by decide) (by decide)).back (by decide)
  | ofInteger t i => exact ((htemp t).between (htemp i) (by decide) (by decide)).back (by decide)
  | toSingle t v => exact ((htemp t).between (hoperand v) (by decide) (by decide)).back (by decide)
  | ofSingle t f => exact ((htemp t).between (htemp f) (by decide) (by decide)).back (by decide)
  | address t g =>
    exact ((htemp t).between (isPlain_global g).spells (by decide) (by decide)).back (by decide)
  | call t f v =>
    have hf : Spells ("@" ++ f.linkName) ["@" ++ f.linkName] :=
      (isPlain_sign (External.math f).isName_name).spells
    rw [text_call_eq]
    exact (((htemp t).between hf (by decide) (by decide)).between (hoperand v)
      (by decide) (by decide)).back (by decide)
  | draw t => exact (htemp t).back (by decide)
  | printNumber f v =>
    exact (((htemp f).front (by decide)).between (hoperand v) (by decide) (by decide)).back
      (by decide)
  | printText f s =>
    exact (((htemp f).front (by decide)).between (htemp s) (by decide) (by decide)).back (by decide)
  | readNumber f x =>
    exact (((htemp f).front (by decide)).between (hslot x (List.mem_singleton_self x))
      (by decide) (by decide)).back (by decide)
  | br l =>
    rw [text_br_eq]
    exact (hlabel l).front (by decide)
  | brIf c yes no =>
    rw [text_brIf_eq]
    exact (((htemp c).front (by decide)).between (hlabel yes) (by decide) (by decide)).between
      (hlabel no) (by decide) (by decide)
  | ret => rfl

/-- Types stand in an instruction where types belong. -/
theorem sound_clause (i : Instr) : i.clause.Sound := by
  have hslot : ∀ x, typeWords.contains (slotText x) = false := fun x =>
    noType_of_head (toList_slotText x) (by decide)
  have hmnemonic : ∀ op : Arith, typeWords.contains op.mnemonic = false := by
    intro op
    cases op <;> decide
  have hfloat : ∀ rel : Relation, typeWords.contains rel.floatCode = false := by
    intro rel
    cases rel <;> decide
  have hinteger : ∀ rel : Relation, typeWords.contains rel.integerCode = false := by
    intro rel
    cases rel <;> decide
  have hmath : ∀ f : MathFunction, typeWords.contains ("@" ++ f.linkName) = false := fun f =>
    (isPlain_sign (External.math f).isName_name).noType
  have htemp := fun t => (isPlain_temp t).noType
  have hoperand := fun v => (isPlain_operand v).noType
  have hlabel := fun l => (isPlain_reference l).noType
  have hglobal := fun g => (isPlain_global g).noType
  constructor
  · cases i <;> simp only [clause, noTypes, List.all_cons, hmnemonic, hfloat, hinteger] <;> decide
  · cases i <;>
      simp only [clause, noTypes, List.all_cons, htemp, hoperand, hlabel, hglobal, hmath, hslot] <;>
      decide
  · cases i <;> simp [clause]

/-- The text of an instruction is read as its clause. -/
theorem read_text {i : Instr} (h : i.Legible) : Printed.read i.text = i.clause := by
  rw [Printed.read, spells_text h, Clause.ofWords_words i.sound_clause]

end Instr

namespace Printed

/-- Temporaries are read back. -/
theorem temp?_text (t : Temp) : temp? t.text = some t := by
  have hdigits : (Nat.toDigits 10 t.index).all Char.isDigit = true :=
    List.all_eq_true.2 fun _ hc => Label.isDigit_of_mem_digits hc
  rw [temp?, t.toList_text]
  show (if _ then _ else _) = _
  rw [if_pos ⟨Nat.toDigits_ne_nil, hdigits⟩, Nat.ofDigitChars_ten_toDigits]

/-- Slots are read back. -/
theorem slot?_slotText (x : String) : slot? (slotText x) = some x := by
  rw [slot?, toList_slotText]
  show (if _ then _ else _) = _
  rw [if_pos (List.isSuffixOf_iff_suffix.2 (List.suffix_append _ _)), List.length_append]
  have htake : (x.toList ++ ".addr".toList).take (x.toList.length + ".addr".toList.length - 5)
      = x.toList := List.take_left' rfl
  rw [htake, String.ofList_toList]

/-- A temporary has no dot in its name. -/
theorem slot?_temp (t : Temp) : slot? t.text = none := by
  rw [slot?, t.toList_text]
  show (if _ then _ else _) = _
  rw [if_neg]
  intro h
  have hdot : '.' ∈ 't' :: Nat.toDigits 10 t.index :=
    (List.isSuffixOf_iff_suffix.1 h).subset (by decide)
  rcases List.mem_cons.1 hdot with hdot | hdot
  · cases hdot
  · exact dot_not_mem_digits _ hdot

/-- A slot has a dot in its name, and is no temporary even if the variable is called like one. -/
theorem temp?_slotText (x : String) : temp? (slotText x) = none := by
  have hdot := dot_mem_slotText x
  rw [temp?]
  split
  · next ds heq =>
    rw [if_neg]
    rintro ⟨-, hdigits⟩
    rw [heq, List.mem_cons, List.mem_cons] at hdot
    have hmem : '.' ∈ ds := (hdot.resolve_left (by decide)).resolve_left (by decide)
    exact absurd (List.all_eq_true.1 hdigits '.' hmem) (by decide)
  · rfl

/-- A word without the sign of registers is no register. -/
theorem temp?_of_lacks {w : String} (h : Lacks '%' w) : temp? w = none := by
  rw [temp?]
  split
  · next ds heq =>
    refine absurd ?_ h
    rw [heq]
    exact List.mem_cons_self
  · rfl

theorem slot?_of_lacks {w : String} (h : Lacks '%' w) : slot? w = none := by
  rw [slot?]
  split
  · next ds heq =>
    refine absurd ?_ h
    rw [heq]
    exact List.mem_cons_self
  · rfl

/-- A reference to a label is not read as a slot, since no label has a dot in it. -/
theorem slot?_reference (l : Label) : slot? l.reference = none := by
  rw [slot?, l.toList_reference]
  show (if _ then _ else _) = _
  rw [if_neg]
  intro h
  exact l.dot_not_mem_text ((List.isSuffixOf_iff_suffix.1 h).subset (by decide))

theorem lacks_percent_literal (x : Float) : Lacks '%' (Numeral.literal x) :=
  Numeral.lacks_literal (by decide) x

theorem lacks_percent_sign {name : String} (h : IsName name) : Lacks '%' ("@" ++ name) := by
  refine .append (lacks_ofList.2 (by decide)) fun hmem => ?_
  exact absurd (h '%' hmem) (by decide)

/-- Operands are read back, be they literals or temporaries. -/
theorem operand?_text (v : Operand) : operand? v.text = some v := by
  cases v with
  | literal x =>
    show operand? (Numeral.literal x) = _
    rw [operand?, temp?_of_lacks (lacks_percent_literal x), Numeral.ofLiteral?_literal]
    rfl
  | temp t =>
    show operand? t.text = _
    rw [operand?, temp?_text]

/-- Constant texts are read back. -/
theorem global?_text (g : Global) : global? g.text = some g := by
  cases g with
  | literal k =>
    have hlist : (Global.literal k).text.toList
        = ['@', '.', 's', 't', 'r', '.'] ++ Nat.toDigits 10 k := by
      rw [Global.text_eq, String.toList_append, Global.toList_name_literal]
      rfl
    rw [global?, hlist]
    show some (Global.literal (Nat.ofDigitChars 10 (Nat.toDigits 10 k) 0)) = _
    rw [Nat.ofDigitChars_ten_toDigits]
  | numberFormat => decide
  | textFormat => decide
  | inputFormat => decide

/-- A temporary is used at the type in front of it. -/
theorem used_temp (t : Temp) {type : String} {codeType : CodeType}
    (h : codeType? type = some codeType) : used type t.text = [(t, codeType)] := by
  rw [used, temp?_text, h]

theorem used_of_none {w : String} (h : temp? w = none) (type : String) : used type w = [] := by
  rw [used, h]

/-- An operand uses a temporary at the type for doubles, or none. -/
theorem used_operand (v : Operand) : used "double" v.text = v.uses := by
  cases v with
  | literal x => exact used_of_none (temp?_of_lacks (lacks_percent_literal x)) "double"
  | temp t => exact used_temp t rfl

theorem used_label (w : String) : used "label" w = [] := by
  rw [used]
  cases temp? w <;> rfl

theorem slot?_operand (v : Operand) : slot? v.text = none := by
  cases v with
  | literal x => exact slot?_of_lacks (lacks_percent_literal x)
  | temp t => exact slot?_temp t

end Printed

namespace Instr

open Printed

variable {i : Instr} (h : i.Legible)

include h

/-- The slots that an instruction names are read off its text. -/
theorem slots_read : (Printed.read i.text).slots = i.slots := by
  have hglobal : ∀ g : Global, slot? g.text = none := fun g =>
    slot?_of_lacks (g.text_eq ▸ lacks_percent_sign g.isName_name)
  have hmath : ∀ f : MathFunction, slot? ("@" ++ f.linkName) = none := fun f =>
    slot?_of_lacks (lacks_percent_sign (External.math f).isName_name)
  rw [read_text h]
  cases i <;>
    simp only [clause, Clause.slots, Clause.values, List.flatMap_cons, List.flatMap_nil,
      List.map_cons, List.map_nil, Option.toList, List.append_nil, List.nil_append,
      List.cons_append, List.filterMap_cons, List.filterMap_nil, slot?_slotText, slot?_temp,
    slot?_operand,
      slot?_reference, hglobal, hmath, slots] <;>
    rfl

/-- So are the temporaries that it uses. -/
theorem uses_read : (Printed.read i.text).uses = i.uses := by
  have hslot : ∀ type x, used type (slotText x) = [] := fun type x =>
    used_of_none (temp?_slotText x) type
  have hglobal : ∀ type (g : Global), used type g.text = [] := fun type g =>
    used_of_none (temp?_of_lacks (g.text_eq ▸ lacks_percent_sign g.isName_name)) type
  have hmath : ∀ type (f : MathFunction), used type ("@" ++ f.linkName) = [] := fun type f =>
    used_of_none (temp?_of_lacks (lacks_percent_sign (External.math f).isName_name)) type
  have hto : ∀ type, used type "to" = [] := used_of_none rfl
  have htruth := fun t => used_temp t (show codeType? "i1" = some .truth from rfl)
  have horder := fun t => used_temp t (show codeType? "i32" = some .order from rfl)
  have hinteger := fun t => used_temp t (show codeType? "i64" = some .integer from rfl)
  have hsingle := fun t => used_temp t (show codeType? "float" = some .single from rfl)
  have haddress := fun t => used_temp t (show codeType? "ptr" = some .address from rfl)
  rw [read_text h]
  cases i <;>
    simp only [clause, Clause.uses, Clause.values, List.flatMap_cons, List.flatMap_nil,
      List.map_cons, List.map_nil, List.append_nil, List.nil_append, List.cons_append,
      used_operand, used_label,
      hslot, hglobal, hmath, hto, htruth, horder, hinteger, hsingle, haddress, uses] <;>
    rfl

/-- So are the blocks that it may go on with. -/
theorem targets_read : (Printed.read i.text).targets = i.targets.map Label.text := by
  have hdrop : ∀ l : Label, String.ofList (l.reference.toList.drop 1) = l.text := by
    intro l
    rw [l.toList_reference, List.drop_succ_cons, List.drop_zero, String.ofList_toList]
  rw [read_text h]
  cases i with
  | br l => exact congrArg (fun s => [s]) (hdrop l)
  | brIf c yes no => exact congrArg₂ (fun s s' => [s, s']) (hdrop yes) (hdrop no)
  | _ => rfl

/-- So is the temporary that it defines. -/
theorem result?_read : (Printed.read i.text).result? = i.result? := by
  have htemp : ∀ t : Temp, (some t.text).bind temp? = some t := temp?_text
  have hslot : ∀ x, (some (slotText x)).bind temp? = none := temp?_slotText
  rw [read_text h]
  cases i with
  | arith t op l r =>
    rw [clause, Clause.result?, htemp]
    cases op <;> rfl
  | _ =>
    simp only [clause, Clause.result?, htemp, hslot]
    rfl

variable (M : Meaning) (texts : List String) (ρ : Regs M) (μ : M.Mem)

/-- What an instruction does is told from its text. -/
theorem exec_read : (Printed.read i.text).exec ρ texts μ = i.exec M texts ρ μ := by
  have hnumber : ∀ v : Operand, number? ρ v.text = v.value? ρ := by
    intro v
    rw [number?, operand?_text]
    rfl
  have hcell : ∀ t : Temp, (temp? t.text).bind ρ = ρ t := by
    intro t
    rw [temp?_text]
    rfl
  have htext : ∀ t : Temp, (temp? t.text).bind (ρ.text? texts) = ρ.text? texts t := by
    intro t
    rw [temp?_text]
    rfl
  rw [read_text h]
  -- Each case unfolds the clause to its reader and then reads every word back.
  cases i with
  | alloca x => rfl
  | store v x =>
    show (do some (ρ, μ.assign (← slot? (slotText x)) (← number? ρ v.text))) = _
    rw [slot?_slotText, hnumber]
    rfl
  | load t x =>
    show (do some (ρ.set (← temp? t.text) (.number (μ.store (← slot? (slotText x)))), μ)) = _
    rw [slot?_slotText, temp?_text]
    rfl
  | arith t op l r =>
    have hop : arith? op.mnemonic = some op := by cases op <;> rfl
    have hexec : (arith t op l r).clause.exec ρ texts μ = (do
        some (ρ.set (← temp? t.text) (.number (M.arith (← arith? op.mnemonic)
          (← number? ρ l.text) (← number? ρ r.text))), μ)) := by
      cases op <;> rfl
    rw [hexec, temp?_text, hop, hnumber, hnumber]
    rfl
  | compare t rel l r =>
    have hrel : floatRelation? rel.floatCode = some rel := by cases rel <;> rfl
    show (do
      let (b, μ') := M.compare (← floatRelation? rel.floatCode) (← number? ρ l.text)
        (← number? ρ r.text) μ
      some (ρ.set (← temp? t.text) (.truth b), μ')) = _
    rw [temp?_text, hrel, hnumber, hnumber]
    rfl
  | compareTexts t a b =>
    show (do
      let a ← (temp? a.text).bind (ρ.text? texts)
      let b ← (temp? b.text).bind (ρ.text? texts)
      some (ρ.set (← temp? t.text) (.order (M.order a b)), μ)) = _
    rw [htext, htext, temp?_text]
    rfl
  | compareOrder t rel o =>
    have hrel : integerRelation? rel.integerCode = some rel := by cases rel <;> rfl
    show (do
      let rel ← integerRelation? rel.integerCode
      let b := rel.ofOrder (← order? ρ o.text)
      some (ρ.set (← temp? t.text) (.truth b), μ.perform (.compared rel b))) = _
    rw [hrel, order?, hcell, temp?_text, exec]
    cases ρ o with
    | none => rfl
    | some c => cases c <;> rfl
  | ofTruth t c =>
    show (do some (ρ.set (← temp? t.text) (.number (M.ofTruth (← truth? ρ c.text))), μ)) = _
    rw [truth?, hcell, temp?_text, exec]
    cases ρ c with
    | none => rfl
    | some c => cases c <;> rfl
  | toInteger t v =>
    show (do some (ρ.set (← temp? t.text) (.whole (M.toInteger (← number? ρ v.text))), μ)) = _
    rw [temp?_text, hnumber]
    rfl
  | ofInteger t j =>
    show (do some (ρ.set (← temp? t.text) (.number (M.ofInteger (← whole? ρ j.text))), μ)) = _
    rw [whole?, hcell, temp?_text, exec]
    cases ρ j with
    | none => rfl
    | some c => cases c <;> rfl
  | toSingle t v =>
    show (do some (ρ.set (← temp? t.text) (.single (M.toSingle (← number? ρ v.text))), μ)) = _
    rw [temp?_text, hnumber]
    rfl
  | ofSingle t x =>
    show (do some (ρ.set (← temp? t.text) (.number (M.ofSingle (← single? ρ x.text))), μ)) = _
    rw [single?, hcell, temp?_text, exec]
    cases ρ x with
    | none => rfl
    | some c => cases c <;> rfl
  | address t g =>
    show (do some (ρ.set (← temp? t.text) (.address (← global? g.text)), μ)) = _
    rw [temp?_text, global?_text]
    rfl
  | call t f v =>
    have hf : math? ("@" ++ f.linkName) = some f := by cases f <;> rfl
    show (do some (ρ.set (← temp? t.text) (.number (M.call (← math? ("@" ++ f.linkName))
      (← number? ρ v.text))), μ)) = _
    rw [temp?_text, hf, hnumber]
    rfl
  | draw t =>
    show (do some (ρ.set (← temp? t.text) (.number (M.random μ).1), (M.random μ).2)) = _
    rw [temp?_text]
    rfl
  | printNumber f v =>
    show (do
      pointsTo ρ f.text .numberFormat
      some (ρ, μ.perform (.printed (← number? ρ v.text)))) = _
    rw [pointsTo, hcell, hnumber, exec]
    cases ρ f with
    | none => rfl
    | some c =>
      cases c with
      | address g => cases g <;> rfl
      | _ => rfl
  | printText f v =>
    show (do
      pointsTo ρ f.text .textFormat
      some (ρ, μ.perform (.printedText (← (temp? v.text).bind (ρ.text? texts))))) = _
    rw [pointsTo, hcell, htext, exec]
    cases ρ f with
    | none => rfl
    | some c =>
      cases c with
      | address g => cases g <;> rfl
      | _ => rfl
  | readNumber f x =>
    show (do
      pointsTo ρ f.text .inputFormat
      some (ρ, μ.input M.read (← slot? (slotText x)))) = _
    rw [pointsTo, hcell, slot?_slotText, exec]
    cases ρ f with
    | none => rfl
    | some c =>
      cases c with
      | address g => cases g <;> rfl
      | _ => rfl
  | br l => rfl
  | brIf c yes no => rfl
  | ret => rfl

end Instr

end LineBasic
