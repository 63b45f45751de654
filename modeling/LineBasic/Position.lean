/-
  LineBasic.Position

  Where something stands in a source text: a line and a column, both counted
  from one.  Columns count characters (Unicode scalar values).
-/

namespace LineBasic

/-- A place in a source text. -/
structure Position where
  line : Nat
  column : Nat
deriving DecidableEq, Repr, Inhabited

namespace Position

/-- The place of the first character of a text. -/
def start : Position := ⟨1, 1⟩

/-- The place after `c`, when `c` stands at `p`: a newline opens the next line,
    any other character moves one column on. -/
def advance (p : Position) (c : Char) : Position :=
  if c = '\n' then ⟨p.line + 1, 1⟩ else ⟨p.line, p.column + 1⟩

/-- The place after the text `cs`, when `cs` starts at `p`. -/
def after (p : Position) (cs : List Char) : Position := cs.foldl advance p

/-- `line:column`. -/
def text (p : Position) : String := s!"{p.line}:{p.column}"

@[simp] theorem after_nil (p : Position) : p.after [] = p := rfl

@[simp] theorem after_cons (p : Position) (c : Char) (cs : List Char) :
    p.after (c :: cs) = (p.advance c).after cs := rfl

@[simp] theorem after_append (p : Position) (cs ds : List Char) :
    p.after (cs ++ ds) = (p.after cs).after ds := by
  simp [after]

end Position

end LineBasic
