import Pascalize.Token.Lexeme

/-!
# The token stream of a source text

A lexer is the unread text and its location. There are three ways to read on.

* `Lexer.next` gives one token or error. It goes on after an error, and at the end of the text it
  gives the end of input again and again.
* `Lexer.next?` is the stream: it ends with the end of input or with the first error.
* `Lexer.tokenize` gives all tokens that are left, or the first error.

Every reading but the one at the end leaves less text (`next_unread_lt`), which bounds the three
loops below by the length of the text.
-/

namespace Pascalize

/-- A fault and the location of the lexeme that has it. -/
structure LexError where
  fault : Fault
  location : Location
deriving DecidableEq, Repr, Inhabited

/-- The wording of a lexical error. -/
def LexError.message (e : LexError) : String :=
  e.location.report "Lexical" e.fault.detail

/-- The unread text, the location of its first character, and whether the stream has ended. -/
structure Lexer where
  unread : List Char
  location : Location := .start
  ended : Bool := false
deriving DecidableEq, Repr, Inhabited

namespace Lexer

/-- A lexer at the start of a text. -/
def ofString (source : String) : Lexer :=
  { unread := source.toList }

/-- The lexer after it has read `taken`, which leaves `rest`. -/
def advance (l : Lexer) (taken rest : List Char) : Lexer :=
  { l with unread := rest, location := l.location.after taken }

/-- Skips the blanks before the next lexeme. -/
def skipBlanks (l : Lexer) : Lexer :=
  l.advance (l.unread.takeWhile Lexeme.isBlank) (l.unread.dropWhile Lexeme.isBlank)

/-- The next token or error. -/
def next (l : Lexer) : Except LexError Token × Lexer :=
  let l := l.skipBlanks
  match l.unread with
  | [] => (.ok ⟨.endOfInput, "", l.location⟩, l)
  | c :: cs =>
    let lexeme := Lexeme.read c cs
    let result := match lexeme.outcome with
      | .ok (kind, text) => .ok ⟨kind, text, l.location⟩
      | .error fault => .error ⟨fault, l.location⟩
    (result, l.advance lexeme.taken lexeme.rest)

/-- Whether a reading is the last of its stream. -/
def isLast : Except LexError Token → Bool
  | .ok t => t.kind = .endOfInput
  | .error _ => true

/-- The stream: the next token or error, or nothing once it has ended. -/
def next? (l : Lexer) : Option (Except LexError Token) × Lexer :=
  if l.ended then (none, l)
  else
    let (result, l) := l.next
    (some result, { l with ended := isLast result })

/-- At most `n` readings, up to the first that is the last of its stream. -/
def itemsWithin : Nat → Lexer → List (Except LexError Token)
  | 0, _ => []
  | n + 1, l =>
    let (result, l) := l.next
    if isLast result then [result] else result :: itemsWithin n l

/-- What the stream of a lexer yields: tokens up to the end of input or up to an error. -/
def items (l : Lexer) : List (Except LexError Token) :=
  l.itemsWithin (l.unread.length + 1)

/-- At most `n` tokens, up to the end of input, or the first error among them. -/
def tokenizeWithin : Nat → Lexer → Except LexError (List Token) × Lexer
  | 0, l => (.ok [], l)
  | n + 1, l =>
    match l.next with
    | (.error e, l) => (.error e, l)
    | (.ok t, l) =>
      if t.kind = .endOfInput then (.ok [t], l)
      else
        let (rest, l) := tokenizeWithin n l
        (rest.map (t :: ·), l)

/-- All tokens that are left with the end of input, or the first error. -/
def tokenize (l : Lexer) : Except LexError (List Token) × Lexer :=
  l.tokenizeWithin (l.unread.length + 1)

/-- The first of the next `n + 1` readings that is no line feed. -/
def significantWithin : Nat → Lexer → Except LexError Token × Lexer
  | 0, l => l.next
  | n + 1, l =>
    match l.next with
    | (.ok t, l) => if t.kind = .newline then significantWithin n l else (.ok t, l)
    | (.error e, l) => (.error e, l)

/-- The next token that is no line feed, or an error before it. -/
def significant (l : Lexer) : Except LexError Token × Lexer :=
  l.significantWithin l.unread.length

theorem skipBlanks_unread_le (l : Lexer) : l.skipBlanks.unread.length ≤ l.unread.length :=
  (List.dropWhile_suffix _).sublist.length_le

/-- A reading that is not at the end of the text leaves less text. -/
theorem next_unread_lt (l : Lexer) (h : l.skipBlanks.unread ≠ []) :
    l.next.2.unread.length < l.unread.length := by
  have le := l.skipBlanks_unread_le
  simp only [next]
  split
  next ends => exact absurd ends h
  next c cs starts =>
    have lt := Lexeme.length_rest_lt c cs
    rw [← starts] at lt
    simp only [advance]
    omega

end Lexer

end Pascalize
