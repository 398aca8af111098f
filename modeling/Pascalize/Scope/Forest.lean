import Pascalize.Scope.Symbol

/-!
# Forests of scopes

A forest holds the global scope and one scope for each function. A scope keeps its symbols in the
order they were inserted, and beside them an index: the position of each symbol by the name it was
inserted by, which a later change of the symbol's own name leaves alone. It also knows its parent,
the scope around it, and how deep it lies. A name is looked up in a scope and then along the parents.

Maps from names are lists of pairs with the latest first, and looking up takes the first. Functions
of one name may have several scopes; a name then leads to the latest.
-/

namespace Pascalize

/-- The scope of a function, or the global scope. -/
structure Scope where
  name : String
  /-- How many scopes are around this one. -/
  level : Nat := 0
  /-- The scope around this one. The global scope has none. -/
  parent? : Option ScopeId := none
  symbols : List Symbol := []
  /-- The positions of the symbols by the names they were inserted by, latest first. -/
  index : List (String × Nat) := []
  /-- The scopes of the functions defined here, latest first. -/
  children : List (String × ScopeId) := []
deriving DecidableEq, Repr, Inhabited

namespace Scope

/-- The position of the symbol inserted under a name. -/
def position? (s : Scope) (name : String) : Option Nat :=
  s.index.lookup name

/-- The variables, without parameters and functions. -/
def vars (s : Scope) : List Symbol :=
  s.symbols.filter Symbol.isVariable

/-- The scope of the latest function of that name defined here. -/
def child? (s : Scope) (name : String) : Option ScopeId :=
  s.children.lookup name

/-- Adds a symbol, and its name to the index. -/
def push (s : Scope) (symbol : Symbol) : Scope :=
  { s with
    symbols := s.symbols ++ [symbol]
    index := (symbol.name, s.symbols.length) :: s.index }

/-- Changes the symbol at a position; the index stays. -/
def modify (s : Scope) (position : Nat) (f : Symbol → Symbol) : Scope :=
  { s with symbols := s.symbols.modify position f }

end Scope

/-- All scopes of a program in the order of their creation. -/
structure Forest where
  scopes : List Scope
  /-- The scopes of all functions by name, latest first. -/
  functions : List (String × ScopeId) := []
deriving DecidableEq, Repr, Inhabited

namespace Forest

/-- The types that need no declaration. -/
def builtinTypes : List String :=
  ["int", "float", "char", "bool", "string"]

/-- The position of the global scope. -/
def global : ScopeId := 0

/-- A forest with the global scope alone, which holds the builtin types. -/
def start : Forest :=
  { scopes := [builtinTypes.foldl (fun s name => s.push ⟨name, .builtin, none, none, 0⟩)
      { name := "global" }] }

def scope? (f : Forest) (id : ScopeId) : Option Scope :=
  f.scopes[id]?

def modifyScope (f : Forest) (id : ScopeId) (g : Scope → Scope) : Forest :=
  { f with scopes := f.scopes.modify id g }

def symbol? (f : Forest) (ref : SymbolId) : Option Symbol := do
  let s ← f.scope? ref.scope
  s.symbols[ref.position]?

/-- Changes one symbol in place. -/
def modifySymbol (f : Forest) (ref : SymbolId) (g : Symbol → Symbol) : Forest :=
  f.modifyScope ref.scope (·.modify ref.position g)

/-- Looks a name up in one scope only. -/
def find? (f : Forest) (id : ScopeId) (name : String) : Option SymbolId := do
  let s ← f.scope? id
  let position ← s.position? name
  return ⟨id, position⟩

/-- A scope and those around it, innermost first, for at most `fuel` scopes. -/
def outward (f : Forest) : Nat → ScopeId → List ScopeId
  | 0, _ => []
  | fuel + 1, id =>
    match f.scope? id with
    | some s => id :: s.parent?.elim [] (f.outward fuel)
    | none => []

/-- A scope and those around it, innermost first. There are no more than all scopes. -/
def chain (f : Forest) (id : ScopeId) : List ScopeId :=
  f.outward f.scopes.length id

/-- Looks a name up in a scope and then in those around it. -/
def lookup (f : Forest) (id : ScopeId) (name : String) : Option SymbolId :=
  (f.chain id).findSome? (f.find? · name)

/-- Looks a name up and counts a use of the symbol found. -/
def resolve (f : Forest) (id : ScopeId) (name : String) : Option SymbolId × Forest :=
  match f.lookup id name with
  | some ref => (some ref, f.modifySymbol ref fun s => { s with uses := s.uses + 1 })
  | none => (none, f)

/-- The outcome of inserting a symbol: it was added, or its name was taken already. -/
inductive Insertion where
  | inserted (ref : SymbolId)
  | clash (existing : SymbolId)
deriving DecidableEq, Repr, Inhabited

/-- Adds a symbol to a scope. The first symbol of a name stays. -/
def insert (f : Forest) (id : ScopeId) (symbol : Symbol) : Insertion × Forest :=
  match f.find? id symbol.name with
  | some existing => (.clash existing, f)
  | none =>
    let position := ((f.scope? id).map (·.symbols.length)).getD 0
    (.inserted ⟨id, position⟩, f.modifyScope id (·.push symbol))

/-- Opens the scope of a function defined in scope `id`. -/
def openScope (f : Forest) (id : ScopeId) (name : String) : ScopeId × Forest :=
  let fresh := f.scopes.length
  let level := ((f.scope? id).map (·.level + 1)).getD 0
  let f' := f.modifyScope id fun s => { s with children := (name, fresh) :: s.children }
  (fresh,
    { scopes := f'.scopes ++ [{ name, level, parent? := some id }]
      functions := (name, fresh) :: f'.functions })

/-- The scope of the latest function of that name defined in scope `id`. -/
def child? (f : Forest) (id : ScopeId) (name : String) : Option ScopeId := do
  let s ← f.scope? id
  s.child? name

/-- The scope of the latest function of that name, wherever it was defined. -/
def scopeNamed? (f : Forest) (name : String) : Option ScopeId :=
  f.functions.lookup name

/-- The current name of a symbol's type. -/
def typeName? (f : Forest) (symbol : Symbol) : Option String := do
  let type ← symbol.type
  let s ← f.symbol? type
  return s.name

/-- The type of a symbol as written, else the current name of its type. -/
def typeText? (f : Forest) (symbol : Symbol) : Option String :=
  symbol.written <|> f.typeName? symbol

@[simp] theorem length_modifyScope (f : Forest) (id : ScopeId) (g : Scope → Scope) :
    (f.modifyScope id g).scopes.length = f.scopes.length := by
  simp [modifyScope]

theorem scope?_modifyScope (f : Forest) (id other : ScopeId) (g : Scope → Scope) :
    (f.modifyScope id g).scope? other =
      if id = other then (f.scope? other).map g else f.scope? other := by
  simp only [scope?, modifyScope, List.getElem?_modify]
  split <;> simp

/-- Opening a scope adds one scope, and its position is the number of scopes before. -/
theorem length_openScope (f : Forest) (id : ScopeId) (name : String) :
    (f.openScope id name).2.scopes.length = f.scopes.length + 1 := by
  simp [openScope]

/-- A taken name leaves the forest as it is. -/
theorem insert_of_find? {f : Forest} {id : ScopeId} {symbol : Symbol} {existing : SymbolId}
    (taken : f.find? id symbol.name = some existing) :
    f.insert id symbol = (.clash existing, f) := by
  simp [insert, taken]

end Forest

end Pascalize
