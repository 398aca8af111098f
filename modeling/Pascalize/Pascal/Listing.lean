import Pascalize.Pascal.Routine

/-!
# Pascal programs

The program level of Pascal is flat: it takes the global variables and those of `main`, the
functions at the top and those inside `main`, and one body, the statements at the top and then those
of `main`. Where `main` uses a global variable's name again, its own variable is declared; where a
function inside `main` has the name of one at the top, the one at the top is. Both are warned of.
-/

namespace Pascalize

namespace Pascal

/-- How a program is written. -/
structure Options where
  /-- Leave out variables that nothing uses. -/
  optimize : Bool := false
  /-- The name in the heading and at the end. -/
  programName : String := "translated"
deriving DecidableEq, Repr, Inhabited

/-- What the flat program level cannot hold as it was written. -/
inductive Warning where
  | shadowedGlobal (name : String)
  | duplicateFunction (name : String)
deriving DecidableEq, Repr, Inhabited

namespace Warning

def name : Warning → String
  | shadowedGlobal name | duplicateFunction name => name

def message : Warning → String
  | shadowedGlobal name =>
    s!"Variable '{name}' of 'main' shadows a global variable; " ++
      "only the 'main' declaration is emitted"
  | duplicateFunction name =>
    s!"Function '{name}' nested in 'main' clashes with a top-level function; " ++
      "only the top-level one is emitted"

end Warning

/-- A whole Pascal program and what became of the source on the way to it. -/
structure Listing where
  name : String
  vars : List Variable
  routines : List Routine
  body : List Line
  removed : List Removal
  warnings : List Warning
deriving Inhabited

namespace Listing

def lines (p : Listing) : List Line :=
  ⟨0, .program p.name⟩ :: (p.vars.map (fun v => ⟨0, .var v⟩) ++
    p.routines.flatMap (fun r => ⟨0, .blank⟩ :: r.lines) ++
    ⟨0, .blank⟩ :: Line.block p.body (.programEnd p.name))

def text (p : Listing) : String :=
  Line.render p.lines

end Listing

/-- The function whose body becomes the body of the program. -/
def mainName : String := "main"

end Pascal

open Pascal

/-- The function `main` of a program, if it has one. -/
def Program.main? (program : Program) : Option Definition :=
  (Node.functionsAll program.statements).find? (·.name = mainName)

/-- The scope of `main`, if the program has a `main` and the scopes hold one for it. -/
def Program.mainScope? (program : Program) (f : Forest) : Option ScopeId :=
  match program.main? with
  | some _ => f.child? Forest.global mainName
  | none => none

/-- The routines for the functions inside `main`. -/
def Program.mainRoutines (program : Program) (f : Forest) (optimize : Bool) : List Routine :=
  match program.main?, program.mainScope? f with
  | some main, some id => Node.routinesAll f optimize id main.body
  | _, _ => []

/-- A program in Pascal, with the variables of the scopes `f`. -/
def Program.pascal (program : Program) (f : Forest) (options : Options) : Listing :=
  let globals := f.varSection options.optimize Forest.global
  let locals := match program.mainScope? f with
    | some id => f.varSection options.optimize id
    | none => {}
  let isShadowed (v : Variable) : Bool := locals.kept.any (·.name = v.name)
  let top := (Node.routinesAll f options.optimize Forest.global program.statements).filter
    (·.name ≠ mainName)
  let isDuplicate (r : Routine) : Bool := top.any (·.name = r.name)
  let inMain := program.mainRoutines f options.optimize
  let routines := top ++ inMain.filter (!isDuplicate ·)
  let mainBody := (program.main?.map (·.body)).getD []
  { name := options.programName
    vars := globals.kept.filter (!isShadowed ·) ++ locals.kept
    routines := routines
    body := Node.linesAll (program.statements ++ mainBody)
    removed := globals.removed ++ locals.removed ++ Routine.removedAll routines
    warnings := (globals.kept.filter isShadowed).map (fun v => .shadowedGlobal v.name) ++
      (inMain.filter isDuplicate).map (fun r => .duplicateFunction r.name) }

end Pascalize
