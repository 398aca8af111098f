import Pascalize.Token.Basic

/-!
# Lexemes

`Lexeme.read` takes the longest lexeme off a non-empty text that starts with no blank. It tells
what was read (a kind and a text, or a fault), which characters it took and which it left. A
fault takes characters too, so reading goes on after it. `taken_append_rest` says that nothing is
lost, `taken_ne_nil` that every reading makes progress.
-/

namespace Pascalize

/-- Why no token starts here. -/
inductive Fault where
  /-- No lexeme starts with this character. -/
  | unexpected (c : Char)
  /-- The character only occurs as the first half of an operator. -/
  | incomplete (c : Char) (operator : String)
  /-- No second quote follows. -/
  | unterminated (quote : Char) (body : String)
  /-- A letter or an underscore touches the number; the text includes it. -/
  | malformedNumber (text : String)
deriving DecidableEq, Repr, Inhabited

/-- The wording of a fault. -/
def Fault.detail : Fault → String
  | unexpected c => "Unexpected character: '" ++ c.toString ++ "'"
  | incomplete c operator =>
    "Unexpected character: '" ++ c.toString ++ "', expected operator " ++ operator
  | unterminated quote body => "Unterminated string literal: " ++ quote.toString ++ body
  | malformedNumber text => "Malformed numeric literal: '" ++ text ++ "'"

/-- The outcome of reading one lexeme. -/
structure Lexeme where
  outcome : Except Fault (Kind × String)
  taken : List Char
  rest : List Char

namespace Lexeme

/-- Blanks separate lexemes and are otherwise skipped. The line feed is no blank. -/
def isBlank (c : Char) : Bool :=
  c = ' ' || c = '\t' || c = '\r'

/-- A quote opens a string literal that the next equal quote closes. -/
def isQuote (c : Char) : Bool :=
  c = '\x22' || c = '\x27'

/-- Words start with a letter or an underscore. -/
def isWordStart (c : Char) : Bool :=
  c.isAlpha || c = '_'

/-- Words go on with letters, digits and underscores. -/
def isWordRest (c : Char) : Bool :=
  c.isAlphanum || c = '_'

/-- The operators and delimiters of two characters. -/
def pair? (c d : Char) : Option Kind :=
  match c, d with
  | '/', '*' => some .openComment
  | '*', '/' => some .closeComment
  | '=', '=' => some .equal
  | '!', '=' => some .notEqual
  | '<', '=' => some .lessEqual
  | '<', '<' => some .shiftLeft
  | '>', '=' => some .greaterEqual
  | '>', '>' => some .shiftRight
  | '&', '&' => some .conj
  | '|', '|' => some .disj
  | _, _ => none

/-- The operators and delimiters of one character. -/
def single? (c : Char) : Option Kind :=
  match c with
  | '+' => some .plus
  | '-' => some .minus
  | '*' => some .star
  | '/' => some .slash
  | '%' => some .percent
  | '=' => some .assign
  | '<' => some .less
  | '>' => some .greater
  | '&' => some .ampersand
  | '(' => some .openParen
  | ')' => some .closeParen
  | '\x7b' => some .openBrace
  | '\x7d' => some .closeBrace
  | '[' => some .openBracket
  | ']' => some .closeBracket
  | ';' => some .semicolon
  | ',' => some .comma
  | _ => none

/-- Why a character that stands for no operator of its own starts no lexeme. -/
def refuse (c : Char) : Fault :=
  match c with
  | '!' => .incomplete c "!="
  | '|' => .incomplete c "||"
  | _ => .unexpected c

/-- A line feed. Its token is written as the two characters of its escape. -/
def readNewline (cs : List Char) : Lexeme :=
  ⟨.ok (.newline, "\\n"), ['\n'], cs⟩

/-- A string literal, up to the first quote equal to the opening one. -/
def readString (quote : Char) (cs : List Char) : Lexeme :=
  let body := cs.takeWhile (· ≠ quote)
  match cs.dropWhile (· ≠ quote) with
  | [] => ⟨.error (.unterminated quote (String.ofList body)), quote :: body, []⟩
  | q :: rest => ⟨.ok (.stringLiteral, String.ofList body), quote :: (body ++ [q]), rest⟩

/-- The digits of a number and, after a point, those of its fraction. -/
def numeral (cs : List Char) : Kind × List Char × List Char :=
  let whole := cs.takeWhile Char.isDigit
  match cs.dropWhile Char.isDigit with
  | '.' :: rest =>
    (.floatLiteral, whole ++ '.' :: rest.takeWhile Char.isDigit, rest.dropWhile Char.isDigit)
  | rest => (.intLiteral, whole, rest)

/-- A number. A letter or underscore right after it is a fault, and stays unread. -/
def readNumber (cs : List Char) : Lexeme :=
  let (kind, digits, rest) := numeral cs
  match rest with
  | [] => ⟨.ok (kind, String.ofList digits), digits, []⟩
  | c :: _ =>
    if isWordStart c then
      ⟨.error (.malformedNumber (String.ofList (digits ++ [c]))), digits, rest⟩
    else
      ⟨.ok (kind, String.ofList digits), digits, rest⟩

/-- A keyword or an identifier. -/
def readWord (cs : List Char) : Lexeme :=
  let word := String.ofList (cs.takeWhile isWordRest)
  ⟨.ok (.ofWord word, word), cs.takeWhile isWordRest, cs.dropWhile isWordRest⟩

/-- A comment up to the end of the line. Its text leaves the two slashes out. -/
def readLineComment (cs : List Char) : Lexeme :=
  let text := cs.takeWhile (· ≠ '\n')
  ⟨.ok (.lineComment, String.ofList text), '/' :: '/' :: text, cs.dropWhile (· ≠ '\n')⟩

/-- An operator or delimiter of one character. -/
def readSingle (c : Char) (cs : List Char) : Lexeme :=
  match single? c with
  | some kind => ⟨.ok (kind, c.toString), [c], cs⟩
  | none => ⟨.error (refuse c), [c], cs⟩

/-- An operator, a delimiter or a line comment; two characters go before one. -/
def readSymbol (c : Char) : List Char → Lexeme
  | [] => readSingle c []
  | d :: cs =>
    if c = '/' ∧ d = '/' then readLineComment cs
    else match pair? c d with
      | some kind => ⟨.ok (kind, String.ofList [c, d]), [c, d], cs⟩
      | none => readSingle c (d :: cs)

/-- The longest lexeme at the front of `c :: cs`, where `c` is no blank. -/
def read (c : Char) (cs : List Char) : Lexeme :=
  if c = '\n' then readNewline cs
  else if isQuote c then readString c cs
  else if c.isDigit then readNumber (c :: cs)
  else if isWordStart c then readWord (c :: cs)
  else readSymbol c cs

theorem numeral_append (cs : List Char) : (numeral cs).2.1 ++ (numeral cs).2.2 = cs := by
  have h := List.takeWhile_append_dropWhile (p := Char.isDigit) (l := cs)
  unfold numeral
  split <;> simp_all

theorem readNumber_taken_append_rest (cs : List Char) :
    (readNumber cs).taken ++ (readNumber cs).rest = cs := by
  have h := numeral_append cs
  simp only [readNumber]
  split
  · simp_all
  · split <;> simp_all

theorem readString_taken_append_rest (q : Char) (cs : List Char) :
    (readString q cs).taken ++ (readString q cs).rest = q :: cs := by
  have h := List.takeWhile_append_dropWhile (p := (· ≠ q)) (l := cs)
  unfold readString
  split
  next ends =>
    rw [ends] at h
    simp only [List.cons_append, h]
  next ends =>
    rw [ends] at h
    simp only [List.cons_append, List.append_assoc, List.nil_append, h]

theorem readSingle_taken_append_rest (c : Char) (cs : List Char) :
    (readSingle c cs).taken ++ (readSingle c cs).rest = c :: cs := by
  unfold readSingle
  split <;> rfl

theorem readSymbol_taken_append_rest (c : Char) (cs : List Char) :
    (readSymbol c cs).taken ++ (readSymbol c cs).rest = c :: cs := by
  unfold readSymbol
  split
  · exact readSingle_taken_append_rest c []
  · split
    · simp_all [readLineComment]
    · split
      · rfl
      · exact readSingle_taken_append_rest c _

/-- Reading splits the text in two and loses nothing. -/
theorem taken_append_rest (c : Char) (cs : List Char) :
    (read c cs).taken ++ (read c cs).rest = c :: cs := by
  unfold read
  split
  · simp_all [readNewline]
  · split
    · exact readString_taken_append_rest c cs
    · split
      · exact readNumber_taken_append_rest (c :: cs)
      · split
        · simp [readWord]
        · exact readSymbol_taken_append_rest c cs

theorem taken_ne_nil (c : Char) (cs : List Char) : (read c cs).taken ≠ [] := by
  unfold read
  split
  · simp [readNewline]
  · split
    · unfold readString
      split <;> simp
    · split
      next digit =>
        have h : (numeral (c :: cs)).2.1 ≠ [] := by
          unfold numeral
          split <;> simp [digit]
        simp only [readNumber]
        split
        · exact h
        · split <;> exact h
      · split
        next start =>
          have : isWordRest c = true := by
            simp only [isWordStart, isWordRest, Char.isAlphanum] at *
            grind
          simp [readWord, this]
        · unfold readSymbol
          split
          · unfold readSingle
            split <;> simp
          · split
            · simp [readLineComment]
            · split
              · simp
              · unfold readSingle
                split <;> simp

/-- What is left is shorter than the text. -/
theorem length_rest_lt (c : Char) (cs : List Char) :
    (read c cs).rest.length < (c :: cs).length := by
  have split := congrArg List.length (taken_append_rest c cs)
  have progress := List.length_pos_iff.2 (taken_ne_nil c cs)
  rw [List.length_append] at split
  omega

end Lexeme

end Pascalize
