import Pascalize.Grammar.Error

/-!
# Cursors and parsers

A cursor is the current token and the lexer behind it. A parser takes a cursor to a value or an
error, and to a new cursor in both cases, so that reading can go on after an error. Line feeds are
never current.

Rules that call themselves are given a bound on how often they may. The wrappers take it from the
text that is left (`Cursor.bound`), which is always enough.
-/

namespace Pascalize

/-- The current token and the unread text after it. -/
structure Cursor where
  lexer : Lexer
  current : Token
deriving DecidableEq, Repr, Inhabited

/-- A parser: a value or an error, and where it stopped. -/
abbrev Parser := EStateM ParseError Cursor

namespace Cursor

/-- A cursor at the first token of a text. -/
def ofString (source : String) : Except ParseError Cursor :=
  match (Lexer.ofString source).significant with
  | (.ok t, lexer) => .ok ⟨lexer, t⟩
  | (.error e, _) => .error (.lexical e)

/-- More than rules can call themselves while they read what is left. -/
def bound (c : Cursor) : Nat :=
  4 * (c.lexer.unread.length + 4)

end Cursor

namespace Parser

/-- The kind of the current token. -/
def peek : Parser Kind := do
  return (← get).current.kind

/-- Refuses the token `found`. -/
def refuse {α : Type} (what : Expectation) (found : Token) : Parser α :=
  throw (.grammatical (.expected what found))

/-- Refuses the current token. -/
def fail {α : Type} (what : Expectation) : Parser α := do
  refuse what (← get).current

/-- The bound on calls is used up. -/
def exhausted {α : Type} : Parser α := do
  throw (.grammatical (.exhausted (← get).current))

/-- Takes the current token and moves to the next. At the end of input it stays, and at a lexical
error the current token stays while the lexer has moved past the error. -/
def advance : Parser Token := do
  let c ← get
  if c.current.kind = .endOfInput then return c.current
  match c.lexer.significant with
  | (.ok t, lexer) =>
    set (⟨lexer, t⟩ : Cursor)
    return c.current
  | (.error e, lexer) =>
    set { c with lexer }
    throw (.lexical e)

/-- Takes the current token if it has the kind that is due. -/
def expect (kind : Kind) (place : Place) : Parser Token := do
  if (← peek) = kind then advance else fail (.token kind place)

/-- Takes the current token if it has the kind, and tells whether it did. -/
def accept (kind : Kind) : Parser Bool := do
  if (← peek) = kind then
    let _ ← advance
    return true
  else
    return false

/-- Runs `item`, and again after each token of kind `sep`, at most `n` times. -/
def separatedWithin {α : Type} (sep : Kind) (item : Parser α) : Nat → Parser (List α)
  | 0 => exhausted
  | n + 1 => do
    let first ← item
    if ← accept sep then
      return first :: (← separatedWithin sep item n)
    else
      return [first]

/-- One or more items with separators between them. -/
def separated {α : Type} (sep : Kind) (item : Parser α) : Parser (List α) := do
  separatedWithin sep item (← get).bound

/-- Items with commas between and perhaps after them, until one has no comma after it or the next
token has kind `stop`, at most `n`. -/
def listedWithin {α : Type} (stop : Kind) (item : Parser α) : Nat → Parser (List α)
  | 0 => exhausted
  | n + 1 => do
    if (← peek) = stop then return []
    let first ← item
    if ← accept .comma then
      return first :: (← listedWithin stop item n)
    else
      return [first]

/-- A list of items that the token of kind `stop` ends. -/
def listed {α : Type} (stop : Kind) (item : Parser α) : Parser (List α) := do
  listedWithin stop item (← get).bound

/-- Items until the current token's kind satisfies `stop`, at most `n`. -/
def manyWithin {α : Type} (stop : Kind → Bool) (item : Parser α) : Nat → Parser (List α)
  | 0 => exhausted
  | n + 1 => do
    if stop (← peek) then return []
    let first ← item
    return first :: (← manyWithin stop item n)

/-- Items until the current token's kind satisfies `stop`. -/
def many {α : Type} (stop : Kind → Bool) (item : Parser α) : Parser (List α) := do
  manyWithin stop item (← get).bound

end Parser

end Pascalize
