import Pascalize.Grammar.Expression

/-!
# Statements that start with a name

The token after the first name decides. A second name makes a declaration, several of them, or a
function; a bracket makes an array declaration; `=` an assignment; a parenthesis a call. `const` in
front leaves only the declarations and the function.
-/

namespace Pascalize.Parser

/-- The value of decimal digits. -/
def decimalValue (digits : List Char) : Nat :=
  digits.foldl (fun n c => 10 * n + (c.toNat - '0'.toNat)) 0

/-- The number of values of a machine word of 64 bits. -/
def wordLimit : Nat := 0x10000000000000000

/-- The size that a text of digits gives an array, if it fits a machine word. -/
def arraySize? (text : String) : Option Nat :=
  let n := decimalValue text.toList
  if n < wordLimit then some n else none

/-- The bracketed size after the name of an element type. -/
def arrayType (element : Token) : Parser TypeName := do
  let _ ← expect .openBracket .inArrayType
  let size ← expect .intLiteral .arraySize
  match arraySize? size.text with
  | none => throw (.grammatical (.arraySize size))
  | some n =>
    let _ ← expect .closeBracket .afterArraySize
    return ⟨element.text, some n, element.location⟩

/-- A type: a name, and a size in brackets if it is an array. -/
def typeName : Parser TypeName := do
  let name ← expect .ident .typeName
  if (← peek) = .openBracket then
    arrayType name
  else
    return ⟨name.text, none, name.location⟩

/-- A declaration of `name` with the type. -/
def declare (type : TypeName) (isConst : Bool) (name : Token) : Declaration :=
  ⟨type, name.text, isConst, name.location⟩

def parameter : Parser Declaration := do
  let type ← typeName
  let name ← expect .ident .parameterName
  return declare type false name

def parameters : Parser (List Declaration) := do
  if (← peek) = .closeParen then
    return []
  else
    separated .comma parameter

/-- A function after its return type and name, with a parser for its body. -/
def function (body : Parser (List Node)) (returns name : Token) : Parser Node := do
  let _ ← expect .openParen .afterFunctionName
  let params ← parameters
  let _ ← expect .closeParen .afterParameters
  let _ ← expect .openBrace .beforeFunctionBody
  let statements ← body
  let _ ← expect .closeBrace .afterFunctionBody
  return .function returns.text name.text params statements name.location

/-- What follows the first of several declarations, up to the semicolon: further names, and values
for the `latest` name, at most `n` of them. -/
def declarationTailWithin (type : TypeName) (isConst : Bool) : Nat → Token → Parser (List Node)
  | 0, _ => exhausted
  | n + 1, latest => do
    match ← peek with
    | .semicolon => return []
    | .comma =>
      let _ ← advance
      let name ← expect .ident .afterDeclarationComma
      return .declaration (declare type isConst name) ::
        (← declarationTailWithin type isConst n name)
    | .assign =>
      let sign ← advance
      let value ← expression
      return .assignment (.var latest.text latest.location) value sign.location ::
        (← declarationTailWithin type isConst n latest)
    | _ => fail .declarationTail

/-- Declarations that share a type, after the first name. -/
def declarations (type : TypeName) (isConst : Bool) (name : Token) : Parser Node := do
  let rest ← declarationTailWithin type isConst (← get).bound name
  return .declarations (.declaration (declare type isConst name) :: rest) name.location

/-- A declaration or a function, after the name of its type. -/
def typedName (body : Parser (List Node)) (isConst : Bool) (type : Token) : Parser Node := do
  let name ← advance
  let plain : TypeName := ⟨type.text, none, type.location⟩
  match ← peek with
  | .openParen => function body type name
  | .comma | .assign => declarations plain isConst name
  | _ => return .declaration (declare plain isConst name)

/-- An array declaration, after the name of its element type. -/
def arrayDeclaration (isConst : Bool) (element : Token) : Parser Node := do
  let type ← arrayType element
  let name ← expect .ident .afterArrayType
  return .declaration (declare type isConst name)

/-- Expressions in brackets. -/
def sequence : Parser Node := do
  let bracket ← expect .openBracket .openingSequence
  let items ← listed .closeBracket expression
  let _ ← expect .closeBracket .closingSequence
  return .sequence items bracket.location

/-- An assignment, after the name of its target. -/
def assignment (target : Token) : Parser Node := do
  let sign ← advance
  let value ← if (← peek) = .openBracket then sequence else expression
  return .assignment (.var target.text target.location) value sign.location

/-- A statement that starts with a name or with `const`. -/
def nameStatement (body : Parser (List Node)) : Parser Node := do
  let isConst ← accept .kwConst
  let first ← expect .ident .declarationStart
  match ← peek with
  | .ident => typedName body isConst first
  | .openBracket => arrayDeclaration isConst first
  | kind =>
    if isConst then
      fail (.constantName first.text)
    else
      match kind with
      | .assign => assignment first
      | .openParen => return .call first.text (← arguments expression) first.location
      | _ => fail (.nameUse first.text)

end Pascalize.Parser
