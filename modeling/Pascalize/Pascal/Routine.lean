import Pascalize.Pascal.Statement
import Pascalize.Scope.Forest

/-!
# Pascal routines

A function becomes a routine: a heading, the variables of its scope, the routines defined inside it
and a body. The variables come from the scopes that the analysis built, everything else from the
tree. A function without a scope has neither variables nor inner routines.
-/

namespace Pascalize

namespace Pascal

/-- A variable that was left out because nothing uses it. -/
structure Removal where
  name : String
  scope : String
deriving DecidableEq, Repr, Inhabited

def Removal.note (r : Removal) : String :=
  s!"removed unused variable declaration '{r.name}' in scope '{r.scope}'"

/-- The variables of a scope: those that are declared, and those that were left out. -/
structure VarSection where
  kept : List Variable := []
  removed : List Removal := []
deriving DecidableEq, Repr, Inhabited

def VarSection.lines (v : VarSection) : List Line :=
  v.kept.map fun v => ⟨0, .var v⟩

/-- A function or procedure. A blank line parts its body from the functions defined in it, `spaced`
telling whether there are any in the tree. -/
inductive Routine where
  | mk (heading : Heading) (vars : VarSection) (inner : List Routine) (spaced : Bool)
      (body : List Line)
deriving Inhabited

namespace Routine

def heading : Routine → Heading
  | mk heading .. => heading

def name (r : Routine) : String :=
  r.heading.name

mutual

/-- The lines of a routine. -/
def lines : Routine → List Line
  | mk heading vars inner spaced body =>
    ⟨0, .heading heading⟩ :: (vars.lines ++ innerLines inner ++
      (if spaced then [⟨0, .blank⟩] else []) ++ Line.block body (.routineEnd heading.name))

/-- The lines of inner routines, one level deeper and each after a blank line. -/
def innerLines : List Routine → List Line
  | [] => []
  | r :: rest => ⟨0, .blank⟩ :: (Line.indent r.lines ++ innerLines rest)

end

mutual

/-- The variables left out of a routine and of those inside it. -/
def removed : Routine → List Removal
  | mk _ vars inner _ _ => vars.removed ++ removedAll inner

def removedAll : List Routine → List Removal
  | [] => []
  | r :: rest => r.removed ++ removedAll rest

end

end Routine

end Pascal

open Pascal

namespace Forest

/-- Whether a variable is left out: nothing uses it, and unused variables are to go. -/
def drops (optimize : Bool) (symbol : Symbol) : Bool :=
  optimize && symbol.uses = 0

/-- The Pascal declaration of a variable. A type that is not known is left empty. -/
def declared (f : Forest) (symbol : Symbol) : Variable :=
  ⟨symbol.name, ((f.typeText? symbol).map typeName).getD ""⟩

/-- The variables of a scope. -/
def varSection (f : Forest) (optimize : Bool) (id : ScopeId) : VarSection :=
  match f.scope? id with
  | none => {}
  | some s =>
    { kept := (s.vars.filter (!drops optimize ·)).map f.declared
      removed := (s.vars.filter (drops optimize ·)).map fun v => ⟨v.name, s.name⟩ }

end Forest

/-- A function as it stands in a tree. -/
structure Definition where
  returns : String
  name : String
  params : List Declaration
  body : List Node
deriving Inhabited

mutual

/-- The functions defined in a statement: the statement itself or, in the blocks of a control
statement, those defined there. Functions inside functions are left to those. -/
def Node.functions : Node → List Definition
  | .function returns name params body _ => [⟨returns, name, params, body⟩]
  | .conditional _ body _ | .loop _ body _ | .alternative body _ => functionsAll body
  | _ => []

/-- The functions defined in a list of statements. -/
def Node.functionsAll : List Node → List Definition
  | [] => []
  | node :: rest => node.functions ++ functionsAll rest

end

theorem Node.functionsAll_append (before after : List Node) :
    functionsAll (before ++ after) = functionsAll before ++ functionsAll after := by
  induction before with
  | nil => simp [functionsAll]
  | cons node rest ih => simp [functionsAll, ih]

/-- The Pascal heading of a function. -/
def Pascal.headingOf (returns name : String) (params : List Declaration) : Heading where
  name := name
  params := params.map fun p => ⟨p.name, typeName p.type.base⟩
  returns := if returns = void then none else some (typeName returns)

mutual

/-- The routines for the functions of a statement in scope `id`. -/
def Node.routines (f : Forest) (optimize : Bool) (id : ScopeId) : Node → List Routine
  | .function returns name params body _ =>
    let heading := headingOf returns name params
    let spaced := !(functionsAll body).isEmpty
    match f.child? id name with
    | some own =>
      [.mk heading (f.varSection optimize own) (routinesAll f optimize own body) spaced
        (linesAll body)]
    | none => [.mk heading {} [] spaced (linesAll body)]
  | .conditional _ body _ | .loop _ body _ | .alternative body _ => routinesAll f optimize id body
  | _ => []

/-- The routines for the functions of statements in scope `id`. -/
def Node.routinesAll (f : Forest) (optimize : Bool) (id : ScopeId) : List Node → List Routine
  | [] => []
  | node :: rest => node.routines f optimize id ++ routinesAll f optimize id rest

end

theorem Node.routinesAll_append (f : Forest) (optimize : Bool) (id : ScopeId)
    (before after : List Node) :
    routinesAll f optimize id (before ++ after) =
      routinesAll f optimize id before ++ routinesAll f optimize id after := by
  induction before with
  | nil => simp [routinesAll]
  | cons node rest ih => simp [routinesAll, ih]

end Pascalize
