import Pascalize.Source.Location

/-!
# Diagnostics

What is wrong with the names of a program, and where.
-/

namespace Pascalize

/-- What is wrong with a name, or with their whole. -/
inductive Complaint where
  | undeclared (name : String)
  | redeclared (name : String)
  | undefinedType (name : String)
  | missingMain
deriving DecidableEq, Repr, Inhabited

namespace Complaint

def detail : Complaint → String
  | undeclared name => "Undeclared identifier '" ++ name ++ "'"
  | redeclared name => "Redeclaration of '" ++ name ++ "'"
  | undefinedType name => "Undefined type '" ++ name ++ "'"
  | missingMain => "No 'main' function found"

/-- The name that is complained about. -/
def name? : Complaint → Option String
  | undeclared name | redeclared name | undefinedType name => some name
  | missingMain => none

end Complaint

/-- A complaint and where it arose. -/
structure Diagnostic where
  complaint : Complaint
  location : Location
deriving DecidableEq, Repr, Inhabited

def Diagnostic.message (d : Diagnostic) : String :=
  d.location.report "Semantic" d.complaint.detail

end Pascalize
