import Pascalize.Pascal.Spelling
import Pascalize.Text.WhiteSpace

/-!
# Lines of Pascal

A line is a depth and what stands on it. Text is made of lines last: three spaces per level of
depth, except on a line without any text.
-/

namespace Pascalize.Pascal

/-- A variable or parameter with its Pascal type. -/
structure Variable where
  name : String
  type : String
deriving DecidableEq, Repr, Inhabited

/-- The heading of a routine: a function if it returns a type, else a procedure. -/
structure Heading where
  name : String
  params : List Variable
  returns : Option String
deriving DecidableEq, Repr, Inhabited

def Heading.text (h : Heading) : String :=
  let params := h.params.map fun p => p.name ++ ": " ++ p.type
  let list := if params.isEmpty then "" else "(" ++ "; ".intercalate params ++ ")"
  match h.returns with
  | none => "procedure " ++ h.name ++ list ++ ";"
  | some type => "function " ++ h.name ++ list ++ ": " ++ type ++ ";"

/-- What stands on a line. Statements and blocks end with a semicolon or without one. -/
inductive Content where
  | program (name : String)
  | blank
  | var (v : Variable)
  | heading (h : Heading)
  | begin
  | blockEnd (semicolon : Bool)
  | routineEnd (name : String)
  | programEnd (name : String)
  | comment (text : String)
  | ifThen (condition : String)
  | whileDo (condition : String)
  | otherwise
  | statement (text : String) (semicolon : Bool)
deriving DecidableEq, Repr, Inhabited

/-- Breaks up each end of a comment inside it, so that the comment ends where it is closed. -/
def breakCommentEnds : List Char → List Char
  | '*' :: ')' :: rest => '*' :: ' ' :: ')' :: breakCommentEnds rest
  | c :: rest => c :: breakCommentEnds rest
  | [] => []

/-- A comment in braces, or in starred parentheses if its text holds a closing brace. -/
def commentText (text : String) : String :=
  if text.toList.contains '\x7d' then
    "(* " ++ String.ofList (breakCommentEnds text.toList) ++ " *)"
  else
    "\x7b " ++ text ++ " \x7d"

/-- The end of a statement or block. -/
def terminator (semicolon : Bool) : String :=
  if semicolon then ";" else ""

/-- The remark at the end of a routine or program. -/
def endRemark (name : String) : String :=
  " \x7bEND OF " ++ name ++ "\x7d"

namespace Content

def text : Content → String
  | program name => "program " ++ name ++ ";"
  | blank => ""
  | var v => "var " ++ v.name ++ ": " ++ v.type ++ ";"
  | heading h => h.text
  | begin => "begin"
  | blockEnd semicolon => "end" ++ terminator semicolon
  | routineEnd name => "end;" ++ endRemark name
  | programEnd name => "end." ++ endRemark name
  | comment remark => commentText (Text.trim remark)
  | ifThen condition => "if " ++ condition ++ " then"
  | whileDo condition => "while " ++ condition ++ " do"
  | otherwise => "else"
  | statement text semicolon => text ++ terminator semicolon

end Content

/-- A line at a depth. -/
structure Line where
  depth : Nat
  content : Content
deriving DecidableEq, Repr, Inhabited

namespace Line

/-- Lines one level deeper. -/
def indent (lines : List Line) : List Line :=
  lines.map fun l => { l with depth := l.depth + 1 }

@[simp] theorem indent_nil : indent [] = [] := rfl

@[simp] theorem indent_append (before after : List Line) :
    indent (before ++ after) = indent before ++ indent after := by
  simp [indent]

def text (l : Line) : String :=
  let content := l.content.text
  if content.isEmpty then "" else String.join (List.replicate l.depth "   ") ++ content

/-- A block: `begin`, the lines inside it one level deeper, and its end. -/
def block (inside : List Line) (close : Content) : List Line :=
  ⟨0, .begin⟩ :: (indent inside ++ [⟨0, close⟩])

/-- Lines as a text. -/
def render (lines : List Line) : String :=
  "\n".intercalate (lines.map text) ++ "\n"

end Line

end Pascalize.Pascal
