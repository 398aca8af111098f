import Pascalize.Tree.Operator

/-!
# Pascal spellings

How Pascal spells the operators and the builtin types of the source language. Other type names stay
as they are.
-/

namespace Pascalize

/-- The Pascal spelling of an operator. -/
def Operator.pascal : Operator → String
  | .eq => "="
  | .ne => "<>"
  | .and => "and"
  | .or => "or"
  | .mod => "mod"
  | op => op.symbol

namespace Pascal

/-- The Pascal name of a type. -/
def typeName (name : String) : String :=
  match name with
  | "int" => "integer"
  | "float" => "real"
  | "bool" => "boolean"
  | name => name

/-- The return type of a function that returns nothing. -/
def void : String := "void"

end Pascal

end Pascalize
