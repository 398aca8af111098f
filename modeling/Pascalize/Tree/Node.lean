import Pascalize.Tree.Operator

/-!
# Program trees

One type for statements and expressions. Which node may stand where is the grammar's business: the
analysis and the Pascal writer are defined on every tree.
-/

namespace Pascalize

/-- A type as written: a name, and a size if it is an array of that many elements. -/
structure TypeName where
  base : String
  size : Option Nat
  location : Location
deriving DecidableEq, Repr, Inhabited

/-- A declared variable or parameter, at the location of its name. -/
structure Declaration where
  type : TypeName
  name : String
  isConst : Bool
  location : Location
deriving DecidableEq, Repr, Inhabited

/-- A statement or an expression. -/
inductive Node where
  | declaration (decl : Declaration)
  /-- Declarations that share a type, each followed by its initial assignment if it has one. -/
  | declarations (items : List Node) (location : Location)
  | function (returns name : String) (params : List Declaration) (body : List Node)
      (location : Location)
  | assignment (target value : Node) (location : Location)
  | conditional (condition : Node) (body : List Node) (location : Location)
  | loop (condition : Node) (body : List Node) (location : Location)
  /-- An `else` block. It is a statement of its own, after the conditional it belongs to. -/
  | alternative (body : List Node) (location : Location)
  | result (value : Node) (location : Location)
  | input (targets : List Node) (location : Location)
  | output (items : List Node) (location : Location)
  | comment (text : String) (location : Location)
  | binary (op : Operator) (left right : Node) (location : Location)
  | negation (operand : Node) (location : Location)
  | complement (operand : Node) (location : Location)
  | var (name : String) (location : Location)
  /-- A name that is read into or written out. -/
  | reference (name : String) (location : Location)
  | call (name : String) (args : List Node) (location : Location)
  | index (target position : Node) (location : Location)
  | sequence (items : List Node) (location : Location)
  | stringLiteral (text : String) (location : Location)
  | intLiteral (text : String) (location : Location)
  | floatLiteral (text : String) (location : Location)
deriving Inhabited

/-- Statements that end with their own block or line and take no semicolon. -/
def Node.isSelfTerminated : Node → Bool
  | .comment .. | .function .. | .loop .. | .conditional .. | .alternative .. => true
  | _ => false

/-- A program: its statements and the location of the end of its text. -/
structure Program where
  statements : List Node
  finish : Location
deriving Inhabited

end Pascalize
