import Pascalize.Grammar.Declaration

/-!
# Statements and programs

A statement that does not end with a block or a line takes a semicolon. Blocks are statements in
braces, and a program is one statement or more.
-/

namespace Pascalize.Parser

/-- `if`, `while` and `else`: the keyword, a condition except for `else`, and a block. -/
def control (body : Parser (List Node)) : Parser Node := do
  let keyword ← advance
  match keyword.kind with
  | .kwElse => return .alternative (← block keyword) keyword.location
  | .kwWhile =>
    let condition ← expression
    return .loop condition (← block keyword) keyword.location
  | _ =>
    let condition ← expression
    return .conditional condition (← block keyword) keyword.location
where
  block (keyword : Token) : Parser (List Node) := do
    let _ ← expect .openBrace (.afterKeyword keyword.kind)
    let statements ← body
    let _ ← expect .closeBrace (.closingKeywordBlock keyword.kind)
    return statements

def result : Parser Node := do
  let keyword ← advance
  return .result (← expression) keyword.location

def inputTarget : Parser Node := do
  let name ← expect .ident .inputTarget
  return .reference name.text name.location

def input : Parser Node := do
  let keyword ← advance
  let _ ← expect .shiftRight .afterInputKeyword
  return .input (← separated .shiftRight inputTarget) keyword.location

/-- An item that is written out. The token is taken before it is judged. -/
def outputItem : Parser Node := do
  let t ← advance
  if t.kind = .ident then
    return .reference t.text t.location
  else
    match literal? t with
    | some node => return node
    | none => refuse .outputItem t

def output : Parser Node := do
  let keyword ← advance
  let _ ← expect .shiftLeft .afterOutputKeyword
  return .output (← separated .shiftLeft outputItem) keyword.location

/-- A token as the text of a block comment shows it. -/
def commentWord (t : Token) : String :=
  match t.kind with
  | .stringLiteral => "\"" ++ t.text ++ "\""
  | .lineComment => "//" ++ t.text
  | _ => t.text

/-- One token inside a block comment. -/
def commentItem : Parser String := do
  if (← peek) = .endOfInput then
    fail .commentEnd
  else
    return commentWord (← advance)

/-- A block comment: its tokens with one space between them. -/
def blockComment : Parser Node := do
  let start ← advance
  let words ← many (· = .closeComment) commentItem
  let _ ← advance
  return .comment (" ".intercalate words) start.location

def lineComment : Parser Node := do
  let t ← advance
  return .comment t.text t.location

/-- A statement without its semicolon, with a parser for the blocks in it. -/
def bareStatement (body : Parser (List Node)) : Parser Node := do
  match ← peek with
  | .ident | .kwConst => nameStatement body
  | .kwWhile | .kwIf | .kwElse => control body
  | .kwReturn => result
  | .kwCin => input
  | .kwCout => output
  | .lineComment => lineComment
  | .openComment => blockComment
  | _ => fail .statement

/-- Whether a token of this kind ends a block. -/
def endsBlock (kind : Kind) : Bool :=
  kind = .closeBrace || kind = .endOfInput

/-- A statement with its semicolon and blocks at most `n` deep. -/
def statementWithin : Nat → Parser Node
  | 0 => exhausted
  | n + 1 => do
    let node ← bareStatement (many endsBlock (statementWithin n))
    if node.isSelfTerminated then
      return node
    else
      let _ ← expect .semicolon .afterStatement
      return node

/-- A statement with its semicolon. -/
def statement : Parser Node := do
  statementWithin (← get).bound

/-- The statements up to the end of input, at least one. -/
def program : Parser Program := do
  if (← peek) = .endOfInput then
    fail .program
  else
    let statements ← many (· = .endOfInput) statement
    return ⟨statements, (← get).current.location⟩

end Pascalize.Parser

namespace Pascalize

/-- Reads one program from the cursor and tells where reading stopped. -/
def Cursor.parse (c : Cursor) : Except ParseError Program × Cursor :=
  match Parser.program.run c with
  | .ok program c => (.ok program, c)
  | .error e c => (.error e, c)

/-- The program that a source text is. -/
def Program.parse (source : String) : Except ParseError Program := do
  let c ← Cursor.ofString source
  c.parse.1

end Pascalize
