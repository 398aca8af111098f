import Pascalize.Scope.Diagnostic
import Pascalize.Scope.Forest
import Pascalize.Scope.Walk

/-!
# Analysis of names

An analysis plays the events of a program on a forest of scopes. Declarations are inserted,
references are looked up from the active scope outwards and counted, and what goes wrong is noted
without stopping. `Program.analyze` is the whole of it.
-/

namespace Pascalize

/-- The scopes built so far, what went wrong, and the scopes that are open, the active one first. -/
structure Analysis where
  forest : Forest := .start
  diagnostics : List Diagnostic := []
  opened : List ScopeId := []
deriving DecidableEq, Repr, Inhabited

namespace Analysis

/-- The scope that events belong to. -/
def active (a : Analysis) : ScopeId :=
  a.opened.headD Forest.global

def report (a : Analysis) (complaint : Complaint) (location : Location) : Analysis :=
  { a with diagnostics := a.diagnostics ++ [⟨complaint, location⟩] }

/-- A reference to a name. -/
def refer (a : Analysis) (name : String) (location : Location) : Analysis :=
  match a.forest.resolve a.active name with
  | (some _, forest) => { a with forest }
  | (none, _) => a.report (.undeclared name) location

/-- Looks the name of a type up. It counts as used even if what it names is no type. -/
def useType (a : Analysis) (type : TypeName) : Option SymbolId × Analysis :=
  let (found, forest) := a.forest.resolve a.active type.base
  let a := { a with forest }
  match found.filter fun ref => (forest.symbol? ref).any Symbol.isType with
  | some ref => (some ref, a)
  | none => (none, a.report (.undefinedType type.base) type.location)

/-- Inserts a symbol into the active scope, and tells which symbol has its name then. -/
def insert (a : Analysis) (symbol : Symbol) (location : Location) : Forest.Insertion × Analysis :=
  match a.forest.insert a.active symbol with
  | (.inserted ref, forest) => (.inserted ref, { a with forest })
  | (.clash existing, _) => (.clash existing, a.report (.redeclared symbol.name) location)

/-- Declares a variable or parameter: first its type is looked up, then its name is inserted. -/
def declare (a : Analysis) (role : Role) (decl : Declaration) : SymbolId × Analysis :=
  let (type, a) := a.useType decl.type
  match a.insert ⟨decl.name, role, type, some decl.type.base, 0⟩ decl.location with
  | (.inserted ref, a) => (ref, a)
  | (.clash existing, a) => (existing, a)

/-- Declares parameters in turn, and collects the symbols that have their names. -/
def declareParams (a : Analysis) : List Declaration → List SymbolId × Analysis
  | [] => ([], a)
  | decl :: rest =>
    let (ref, a) := a.declare .parameter decl
    let (refs, a) := a.declareParams rest
    (ref :: refs, a)

/-- Opens a scope inside the active one and makes it active. -/
def openScope (a : Analysis) (name : String) : Analysis :=
  let (id, forest) := a.forest.openScope a.active name
  { a with forest, opened := id :: a.opened }

/-- Gives the symbol of a function its parameters. -/
def sign (a : Analysis) (ref : SymbolId) (params : List SymbolId) (returns : String) : Analysis :=
  { a with
    forest := a.forest.modifySymbol ref fun s => { s with role := .function params returns } }

/-- Closes the active scope. -/
def leave (a : Analysis) : Analysis :=
  { a with opened := a.opened.tail }

/-- The heading of a function. Its name goes to the active scope and its parameters to a scope of
its own. A function whose name was taken leaves the first symbol as it is. -/
def enter (a : Analysis) (returns name : String) (params : List Declaration)
    (location : Location) : Analysis :=
  let (insertion, a) := a.insert (.ofFunction name returns) location
  let (refs, a) := (a.openScope name).declareParams params
  match insertion with
  | .inserted ref => a.sign ref refs returns
  | .clash _ => a

/-- What one event does. -/
def step (a : Analysis) : Event → Analysis
  | .refer name location => a.refer name location
  | .declare decl => (a.declare .var decl).2
  | .enter returns name params location => a.enter returns name params location
  | .leave => a.leave

/-- What events do in turn. -/
def play (a : Analysis) (events : List Event) : Analysis :=
  events.foldl step a

/-- Whether the global scope holds a function `main`. -/
def hasMain (a : Analysis) : Bool :=
  ((a.forest.find? Forest.global "main").bind a.forest.symbol?).any Symbol.isFunction

end Analysis

/-- The scopes of a program and all that is wrong with its names. -/
def Program.analyze (program : Program) : Analysis :=
  let a := ({} : Analysis).play (Node.eventsAll program.statements)
  if a.hasMain then a else a.report .missingMain program.finish

end Pascalize
