import Pascalize.Scope.Forest

/-!
# Symbol tables as text

One block per scope in the order of creation: a heading, the names of the scopes inside it, and a
line per symbol with its role, its type and its uses.
-/

namespace Pascalize

namespace Forest

/-- What a symbol is, as the table shows it. -/
def describe (f : Forest) (symbol : Symbol) : String :=
  let type := (f.typeText? symbol).getD "?"
  match symbol.role with
  | .builtin => "builtin type"
  | .var => "variable " ++ type
  | .parameter => "parameter " ++ type
  | .function params returns =>
    let names := params.map fun p => ((f.symbol? p).map (·.name)).getD ""
    "function (" ++ ", ".intercalate names ++ ") -> " ++ returns

def heading (f : Forest) (s : Scope) : String :=
  match s.parent? with
  | none => s!"Scope '{s.name}' (level {s.level})"
  | some p =>
    let around := ((f.scope? p).map (·.name)).getD ""
    s!"Scope '{s.name}' (level {s.level}, enclosing '{around}')"

/-- The names of the scopes directly inside scope `id`. -/
def nested (f : Forest) (id : ScopeId) : List String :=
  (f.scopes.filter (·.parent? = some id)).map (·.name)

def scopeLines (f : Forest) (id : ScopeId) (s : Scope) : List String :=
  let inside := f.nested id
  [f.heading s] ++
    (if inside.isEmpty then [] else ["  nested: " ++ ", ".intercalate inside]) ++
    s.symbols.map fun symbol => s!"  {symbol.name}: {f.describe symbol}, uses {symbol.uses}"

/-- The symbol table of a forest. -/
def table (f : Forest) : String :=
  let lines := f.scopes.zipIdx.flatMap fun (s, id) => f.scopeLines id s
  String.join (lines.map (· ++ "\n"))

end Forest

end Pascalize
