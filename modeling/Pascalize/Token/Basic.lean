import Pascalize.Source.Location

/-!
# Tokens

A token is a kind, a text and the location of its first character. Keywords, operators and
delimiters have one spelling each (`Kind.spelling?`), which is also their text; the other kinds
carry the text that was read. `Token.describe` is how a token is named in messages.
-/

namespace Pascalize

/-- What a token is. -/
inductive Kind where
  | stringLiteral | intLiteral | floatLiteral | ident
  | kwFor | kwWhile | kwReturn | kwFunction | kwIf | kwElse | kwNot | kwCout | kwCin | kwConst
  | plus | minus | star | slash | percent
  | equal | notEqual | less | lessEqual | greater | greaterEqual
  | conj | disj | ampersand | shiftLeft | shiftRight | assign
  | openParen | closeParen | openBrace | closeBrace | openBracket | closeBracket
  | semicolon | comma
  | lineComment | openComment | closeComment
  | newline | endOfInput
deriving DecidableEq, Repr, Inhabited

namespace Kind

/-- The one way to write a keyword, operator or delimiter. -/
def spelling? : Kind → Option String
  | kwFor => some "for"
  | kwWhile => some "while"
  | kwReturn => some "return"
  | kwFunction => some "function"
  | kwIf => some "if"
  | kwElse => some "else"
  | kwNot => some "not"
  | kwCout => some "cout"
  | kwCin => some "cin"
  | kwConst => some "const"
  | plus => some "+"
  | minus => some "-"
  | star => some "*"
  | slash => some "/"
  | percent => some "%"
  | equal => some "=="
  | notEqual => some "!="
  | less => some "<"
  | lessEqual => some "<="
  | greater => some ">"
  | greaterEqual => some ">="
  | conj => some "&&"
  | disj => some "||"
  | ampersand => some "&"
  | shiftLeft => some "<<"
  | shiftRight => some ">>"
  | assign => some "="
  | openParen => some "("
  | closeParen => some ")"
  | openBrace => some "\x7b"
  | closeBrace => some "\x7d"
  | openBracket => some "["
  | closeBracket => some "]"
  | semicolon => some ";"
  | comma => some ","
  | openComment => some "/*"
  | closeComment => some "*/"
  | stringLiteral | intLiteral | floatLiteral | ident | lineComment | newline | endOfInput => none

/-- The words that are keywords, with their kinds. -/
def keywords : List (String × Kind) :=
  [("for", kwFor), ("while", kwWhile), ("return", kwReturn), ("function", kwFunction),
   ("if", kwIf), ("else", kwElse), ("not", kwNot), ("cout", kwCout), ("cin", kwCin),
   ("const", kwConst)]

/-- A word is a keyword or an identifier. -/
def ofWord (word : String) : Kind :=
  (keywords.lookup word).getD ident

/-- A kind as messages name it: its spelling in quotes, or its class. -/
def describe : Kind → String
  | stringLiteral => "string literal"
  | intLiteral => "int literal"
  | floatLiteral => "float literal"
  | ident => "identifier"
  | lineComment => "line comment"
  | newline => "newline"
  | endOfInput => "end of file"
  | kind => "'" ++ kind.spelling?.getD "" ++ "'"

end Kind

/-- A token with the location of its first character. -/
structure Token where
  kind : Kind
  text : String
  location : Location
deriving DecidableEq, Repr, Inhabited

/-- A token as messages name it: its kind, and its text where the kind leaves it open. -/
def Token.describe (t : Token) : String :=
  match t.kind with
  | .stringLiteral => t.kind.describe ++ " \"" ++ t.text ++ "\""
  | .intLiteral | .floatLiteral => t.kind.describe ++ " " ++ t.text
  | .ident => t.kind.describe ++ " '" ++ t.text ++ "'"
  | .lineComment => "comment \"" ++ t.text ++ "\""
  | kind => kind.describe

end Pascalize
