/-!
# Symbols

A symbol is a name with what it names, its type and how often it is used. Symbols are addressed by
the scope that owns them and their position in it.
-/

namespace Pascalize

/-- A scope by its position in its forest. -/
abbrev ScopeId := Nat

/-- A symbol by its scope and its position in that scope. -/
structure SymbolId where
  scope : ScopeId
  position : Nat
deriving DecidableEq, Repr, Inhabited

/-- What a symbol names. -/
inductive Role where
  | builtin
  | var
  | parameter
  | function (params : List SymbolId) (returns : String)
deriving DecidableEq, Repr, Inhabited

/-- A named thing. -/
structure Symbol where
  name : String
  role : Role
  /-- The symbol of its type, if that was found. -/
  type : Option SymbolId := none
  /-- The name of its type as written, the element type for an array. -/
  written : Option String := none
  /-- How often it was used, in 32 bits. -/
  uses : UInt32 := 0
deriving DecidableEq, Repr, Inhabited

namespace Symbol

/-- The symbol of a function whose parameters are not known yet. -/
def ofFunction (name returns : String) : Symbol :=
  ⟨name, .function [] returns, none, none, 0⟩

/-- Whether a symbol can be the type of another. -/
def isType (s : Symbol) : Bool :=
  s.role = .builtin

def isVariable (s : Symbol) : Bool :=
  s.role = .var

def isFunction (s : Symbol) : Bool :=
  match s.role with
  | .function .. => true
  | _ => false

end Symbol

end Pascalize
