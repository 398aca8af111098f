import Pascalize.Token.Lexer

/-!
# Parse errors

A source text is refused for a lexical error or for a token that cannot stand where it does. A
syntax error holds what the grammar expected and the token found in its place; the wording is in
`Expectation.text` and `SyntaxError.detail`.
-/

namespace Pascalize

/-- Where in a construct a token of a given kind is due. -/
inductive Place where
  | afterStatement
  | afterKeyword (keyword : Kind)
  | closingKeywordBlock (keyword : Kind)
  | afterInputKeyword
  | inputTarget
  | afterOutputKeyword
  | declarationStart
  | afterArrayType
  | inArrayType
  | arraySize
  | afterArraySize
  | typeName
  | afterFunctionName
  | parameterName
  | afterParameters
  | beforeFunctionBody
  | afterFunctionBody
  | afterDeclarationComma
  | openingSequence
  | closingSequence
  | afterArguments
  | afterIndex
  | afterExpression
deriving DecidableEq, Repr, Inhabited

/-- A place as messages name it. -/
def Place.phrase : Place → String
  | afterStatement => "after statement"
  | afterKeyword keyword => "after " ++ keyword.describe
  | closingKeywordBlock keyword => "to close " ++ keyword.describe ++ " block"
  | afterInputKeyword => "after 'cin'"
  | inputTarget => "as input target"
  | afterOutputKeyword => "after 'cout'"
  | declarationStart => "at start of declaration"
  | afterArrayType => "after array type"
  | inArrayType => "in array type"
  | arraySize => "as array size"
  | afterArraySize => "after array size"
  | typeName => "as type name"
  | afterFunctionName => "after function name"
  | parameterName => "as parameter name"
  | afterParameters => "after parameters"
  | beforeFunctionBody => "before function body"
  | afterFunctionBody => "after function body"
  | afterDeclarationComma => "after ',' in declaration"
  | openingSequence => "to open sequence"
  | closingSequence => "to close sequence"
  | afterArguments => "after arguments"
  | afterIndex => "after index"
  | afterExpression => "after expression"

/-- What the grammar can go on with. -/
inductive Expectation where
  | program
  | token (kind : Kind) (place : Place)
  | statement
  | expression
  | outputItem
  | commentEnd
  /-- The name of a constant, after its type. -/
  | constantName (type : String)
  /-- What makes a statement of the name it starts with. -/
  | nameUse (name : String)
  | declarationTail
deriving DecidableEq, Repr, Inhabited

/-- An expectation as messages state it. -/
def Expectation.text : Expectation → String
  | program => "Empty source, expected at least one statement"
  | token kind place => "Expected " ++ kind.describe ++ " " ++ place.phrase
  | statement => "Expected statement"
  | expression => "Expected expression"
  | outputItem => "Expected identifier or literal as output item"
  | commentEnd => "Expected '*/' to close block comment"
  | constantName type => "Expected name after type '" ++ type ++ "' in constant declaration"
  | nameUse name => "Expected declaration, assignment or function call after '" ++ name ++ "'"
  | declarationTail => "Expected ',', '=' or ';' in declaration"

/-- Why a token is refused. -/
inductive SyntaxError where
  | expected (what : Expectation) (found : Token)
  /-- The size of an array does not fit a machine word. -/
  | arraySize (size : Token)
  /-- The bound on nested calls was used up. Parsing starts with a bound that grows with the text
  and is large enough, so no text is refused for this. -/
  | exhausted (found : Token)
deriving DecidableEq, Repr, Inhabited

namespace SyntaxError

/-- The token that is refused. -/
def token : SyntaxError → Token
  | expected _ found => found
  | arraySize size => size
  | exhausted found => found

def detail : SyntaxError → String
  | expected what found => what.text ++ ", found " ++ found.describe
  | arraySize size => "Invalid array size: " ++ size.text
  | exhausted found => "Nested too deeply, found " ++ found.describe

end SyntaxError

/-- Why a source text is no program. -/
inductive ParseError where
  | lexical (error : LexError)
  | grammatical (error : SyntaxError)
deriving DecidableEq, Repr, Inhabited

namespace ParseError

def location : ParseError → Location
  | lexical e => e.location
  | grammatical e => e.token.location

def detail : ParseError → String
  | lexical e => e.fault.detail
  | grammatical e => e.detail

def message : ParseError → String
  | lexical e => e.message
  | grammatical e => e.token.location.report "Syntax" e.detail

end ParseError

end Pascalize
