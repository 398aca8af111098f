/-!
# Places in a source text

A location is a line and a column, both counted from one, columns in characters. Reading a
character moves the location (`step`); reading a list of characters moves it character by
character (`after`), so reading two lists in turn is reading their concatenation.
-/

namespace Pascalize

/-- A line and a column of a source text. -/
structure Location where
  line : Nat
  column : Nat
deriving DecidableEq, Repr, Inhabited

namespace Location

/-- The location of the first character. -/
def start : Location := ⟨1, 1⟩

/-- The location of what follows `c`. A line feed opens the next line. -/
def step (p : Location) (c : Char) : Location :=
  if c = '\n' then ⟨p.line + 1, 1⟩ else ⟨p.line, p.column + 1⟩

/-- The location of what follows `cs`. -/
def after (p : Location) (cs : List Char) : Location :=
  cs.foldl step p

@[simp] theorem after_nil (p : Location) : p.after [] = p := rfl

@[simp] theorem after_cons (p : Location) (c : Char) (cs : List Char) :
    p.after (c :: cs) = (p.step c).after cs := rfl

@[simp] theorem after_append (p : Location) (cs ds : List Char) :
    p.after (cs ++ ds) = (p.after cs).after ds := by
  simp [after]

/-- A message about a place: what kind of error, where, and the detail. -/
def report (p : Location) (kind detail : String) : String :=
  s!"{kind} error at line {p.line}, column {p.column}: {detail}"

end Location

end Pascalize
