import Pascalize.Proofs.NameBinding
import Pascalize.Proofs.UnusedVariables

/-!
# Names at the program level

Four lists of names meet at the program level: the global variables, the variables of `main`, the
functions at the top and those inside `main`. Names within a scope differ, so the first and the third
list share none, nor do the second and the fourth. Two of the other four pairs are settled and warned
of, variables with variables and functions with functions. A variable of `main` with the name of a
function at the top, or a global variable with that of a function inside `main`, is declared twice
(`Program.declares_once_iff`).
-/

namespace Pascalize

open Pascal

namespace Program

variable {source : String} {program : Program}

/-- The names of the global variables that are declared. -/
def globalNames (program : Program) (optimize : Bool) : List String :=
  (program.analyze.forest.varSection optimize Forest.global).kept.map Variable.name

/-- The names of the variables of `main` that are declared. -/
def localNames (program : Program) (optimize : Bool) : List String :=
  (program.localSection program.analyze.forest optimize).kept.map Variable.name

/-- The names of the functions at the top but `main`. -/
def topNames (program : Program) : List String :=
  (program.sections.map Section.name).filter (· ≠ mainName)

/-- The names of the functions inside `main`. -/
def innerNames (program : Program) : List String :=
  program.inMain.map Section.name

/-- The functions at the top are those that the analysis meets. -/
theorem topNames_eq_met (clear : program.analyze.Clear) :
    program.topNames = (program.met.filter (·.name ≠ mainName)).map Scoping.name := by
  rw [topNames, sections_eq_met clear, List.map_map, List.filter_map]
  simp only [Function.comp_def, Routine.name_toSection, Scoping.name_routine]

theorem innerNames_eq_met (clear : program.analyze.Clear) : program.innerNames =
    (((program.met.find? (·.name = mainName)).map Scoping.inner).getD []).map Scoping.name := by
  rw [innerNames, inMain, mainSection?_eq_met clear]
  cases program.met.find? (·.name = mainName) with
  | none => rfl
  | some s =>
    obtain ⟨d, outside, own, inner⟩ := s
    simp [Scoping.routine, Scoping.inner, Routine.toSection, Section.inner, Scoping.routines_eq_map,
      Routine.toSections_eq_map]

/-! ## The names of a scope differ -/

/-- Leaving out unused variables keeps the order of the others. -/
theorem names_sublist (f : Forest) (optimize : Bool) (id : ScopeId) :
    ((f.varSection optimize id).kept.map Variable.name).Sublist
      ((f.varSection false id).kept.map Variable.name) := by
  rw [Forest.kept_varSection_plain, Forest.varSection_eq]
  exact (List.filter_sublist.map _).map _

/-- **Variables and routines of the global scope** have names of their own. -/
theorem nodup_top (clear : program.analyze.Clear) (optimize : Bool) :
    (program.globalNames optimize ++ program.topNames).Nodup := by
  have distinct := program.titled_analyze.nodup_declared (bare_global clear)
  have all := (Declared.perm_names program.declared).nodup_iff.2 distinct
  refine List.Sublist.nodup (List.Sublist.append ?_ List.filter_sublist) all
  exact (names_sublist _ optimize _).trans (by rw [kept_globals clear]; exact List.Sublist.refl _)

/-- So have those of `main`. -/
theorem nodup_main (parsed : parse source = .ok program) (clear : program.analyze.Clear)
    (optimize : Bool) : (program.localNames optimize ++ program.innerNames).Nodup := by
  have locals : (program.localNames optimize).Sublist (program.locals.map Variable.name) := by
    rw [← kept_locals parsed clear, localNames, localSection]
    cases program.mainScope? program.analyze.forest with
    | none => exact List.Sublist.refl _
    | some main => exact names_sublist _ optimize main
  refine List.Sublist.nodup (locals.append (List.Sublist.refl _)) ?_
  rw [Program.locals, innerNames, inMain]
  cases found : program.mainSection? with
  | none => exact List.nodup_nil
  | some s =>
    obtain ⟨d, inside, member, rfl⟩ := Declared.of_mem_sectionsAll (List.mem_of_find?_eq_some found)
    obtain ⟨n, laid⟩ := Declared.laid_of_mem (laidAll_analyze clear) member
    have distinct := program.titled_analyze.nodup_declared laid.1
    exact (Declared.perm_names inside).nodup_iff.2 distinct

/-! ## What stands at the program level -/

/-- The names of what is left when others go before it. -/
theorem names_filter {α β : Type} (l : List α) (first : List β) (name : α → String)
    (name' : β → String) : (l.filter fun x => !first.any (name' · = name x)).map name =
      (l.map name).filter (· ∉ first.map name') := by
  rw [List.filter_map]
  refine congrArg (List.map name) (List.filter_congr fun x _ => ?_)
  rw [Bool.eq_iff_iff]
  simp

/-- What is left out has a name that both lists have. -/
theorem mem_names_filter {α β : Type} {l : List α} {first : List β} {name : α → String}
    {name' : β → String} {x : String} : (∃ a ∈ l.filter fun a => first.any (name' · = name a), name a = x) ↔
      x ∈ l.map name ∧ x ∈ first.map name' := by
  simp only [List.mem_filter, List.any_eq_true, decide_eq_true_eq, List.mem_map]
  constructor
  · rintro ⟨a, ⟨member, b, member', same⟩, rfl⟩
    exact ⟨⟨a, member, rfl⟩, b, member', same⟩
  · rintro ⟨⟨a, member, rfl⟩, b, member', same⟩
    exact ⟨a, ⟨member, b, member', same⟩, rfl⟩

theorem names_vars (program : Program) (options : Options) :
    (program.pascal program.analyze.forest options).vars.map Variable.name =
      (program.globalNames options.optimize).filter (· ∉ program.localNames options.optimize) ++
        program.localNames options.optimize := by
  rw [vars_eq, List.map_append, names_filter]
  rfl

/-- Routines inside `main` give way to outer ones of their names. -/
theorem names_routines (parsed : parse source = .ok program) (clear : program.analyze.Clear)
    (options : Options) :
    (program.pascal program.analyze.forest options).routines.map Routine.name =
      program.topNames ++ program.innerNames.filter (· ∉ program.topNames) := by
  rw [name_routines parsed clear options, Scoping.hoist, List.map_append, names_filter,
    topNames_eq_met clear, innerNames_eq_met clear]

theorem shadowed_iff (program : Program) (options : Options) (name : String) :
    .shadowedGlobal name ∈ (program.pascal program.analyze.forest options).warnings ↔
      name ∈ program.globalNames options.optimize ∧ name ∈ program.localNames options.optimize := by
  rw [warnings_eq]
  simp only [List.mem_append, List.mem_map, Warning.shadowedGlobal.injEq, reduceCtorEq, and_false,
    exists_false, or_false]
  exact mem_names_filter

theorem duplicate_iff (parsed : parse source = .ok program) (clear : program.analyze.Clear)
    (options : Options) (name : String) :
    .duplicateFunction name ∈ (program.pascal program.analyze.forest options).warnings ↔
      name ∈ program.innerNames ∧ name ∈ program.topNames := by
  rw [warnings_eq, topNames_eq_met clear, innerNames_eq_met clear, mainLookup?, lookups_eq_met parsed clear]
  simp only [List.mem_append, List.mem_map (f := fun s : Scoping => Warning.duplicateFunction s.name),
    List.mem_map (f := fun v : Variable => Warning.shadowedGlobal v.name),
    Warning.duplicateFunction.injEq, reduceCtorEq, and_false, exists_false, false_or]
  exact mem_names_filter

/-- Four lists of names, where the second goes before the first and the third before the fourth. -/
theorem nodup_level_iff {globals locals top inner : List String} (outside : (globals ++ top).Nodup)
    (inside : (locals ++ inner).Nodup) :
    (globals.filter (· ∉ locals) ++ locals ++ (top ++ inner.filter (· ∉ top))).Nodup ↔
      (∀ name ∈ locals, name ∉ top) ∧ ∀ name ∈ globals, name ∉ inner := by
  rw [List.nodup_append] at outside inside
  obtain ⟨nodupGlobals, nodupTop, apart⟩ := outside
  obtain ⟨nodupLocals, nodupInner, apart'⟩ := inside
  constructor
  · intro nodup
    obtain ⟨-, -, differ⟩ := List.nodup_append.1 nodup
    refine ⟨fun name isLocal isTop => ?_, fun name isGlobal isInner => ?_⟩
    · exact differ name (List.mem_append_right _ isLocal) name (List.mem_append_left _ isTop) rfl
    · -- the name is in neither list that goes before the two, so both declarations stay
      have noLocal : name ∉ locals := fun isLocal => apart' name isLocal name isInner rfl
      have noTop : name ∉ top := fun isTop => apart name isGlobal name isTop rfl
      exact differ name (List.mem_append_left _ (List.mem_filter.2 ⟨isGlobal, by simpa using noLocal⟩))
        name (List.mem_append_right _ (List.mem_filter.2 ⟨isInner, by simpa using noTop⟩)) rfl
  · rintro ⟨noLocal, noGlobal⟩
    refine List.nodup_append.2 ⟨?_, ?_, ?_⟩
    · refine List.nodup_append.2 ⟨List.filter_sublist.nodup nodupGlobals, nodupLocals, ?_⟩
      rintro name member _ isLocal rfl
      exact of_decide_eq_true (List.mem_filter.1 member).2 isLocal
    · refine List.nodup_append.2 ⟨nodupTop, List.filter_sublist.nodup nodupInner, ?_⟩
      rintro name isTop _ member rfl
      exact of_decide_eq_true (List.mem_filter.1 member).2 isTop
    · rintro name isVar _ isFunction rfl
      obtain isGlobal | isLocal := List.mem_append.1 isVar <;>
        obtain isTop | isInner := List.mem_append.1 isFunction
      · exact apart name (List.mem_filter.1 isGlobal).1 name isTop rfl
      · exact noGlobal name (List.mem_filter.1 isGlobal).1 (List.mem_filter.1 isInner).1
      · exact noLocal name isLocal isTop
      · exact apart' name isLocal name (List.mem_filter.1 isInner).1 rfl

/-- **When the program level declares each name once.** In the text of a parsed program that declares no
name twice in a scope, the program level has the global variables but for those that a warning names, the
variables of `main`, the functions at the top, and the functions inside `main` but for those that a warning
names. These names differ iff no variable of `main` has the name of a function at the top and no global
variable that of a function inside `main`. A warning names a global variable iff `main` declares a variable
of this name too, and a function inside `main` iff there is one of this name at the top. -/
theorem declares_once_iff (parsed : parse source = .ok program) (clear : program.analyze.Clear)
    (options : Options) :
    let listing := program.pascal program.analyze.forest options
    let globals := program.globalNames options.optimize
    let locals := program.localNames options.optimize
    ∃ text, readProgram (listing.lines.map Line.text) = some text ∧
      text.vars.map Variable.name = globals.filter (.shadowedGlobal · ∉ listing.warnings) ++ locals ∧
      text.inner.map Section.name =
        program.topNames ++ program.innerNames.filter (.duplicateFunction · ∉ listing.warnings) ∧
      ((text.vars.map Variable.name ++ text.inner.map Section.name).Nodup ↔
        (∀ name ∈ locals, name ∉ program.topNames) ∧ ∀ name ∈ globals, name ∉ program.innerNames) ∧
      (∀ name, .shadowedGlobal name ∈ listing.warnings ↔ name ∈ globals ∧ name ∈ locals) ∧
      ∀ name, .duplicateFunction name ∈ listing.warnings ↔
        name ∈ program.innerNames ∧ name ∈ program.topNames := by
  intro listing globals locals
  have vars : listing.vars.map Variable.name = globals.filter (· ∉ locals) ++ locals :=
    names_vars program options
  have sections : (listing.routines.map Routine.toSection).map Section.name =
      program.topNames ++ program.innerNames.filter (· ∉ program.topNames) := by
    simp only [List.map_map, Function.comp_def, Routine.name_toSection]
    exact names_routines parsed clear options
  refine ⟨_, (legible_pascal parsed clear options).readProgram_lines, ?_, ?_, ?_,
    shadowed_iff program options, duplicate_iff parsed clear options⟩
  · rw [vars]
    refine congrArg (· ++ locals) (List.filter_congr fun name isGlobal => ?_)
    simp [listing, shadowed_iff, show name ∈ program.globalNames options.optimize from isGlobal, locals]
  · rw [sections]
    refine congrArg (program.topNames ++ ·) (List.filter_congr fun name isInner => ?_)
    simp [listing, duplicate_iff parsed clear, isInner]
  · rw [vars, sections]
    exact nodup_level_iff (nodup_top clear options.optimize) (nodup_main parsed clear options.optimize)

/-- A global variable and a function at the top whose names `main` uses again. -/
theorem declares_once_of_namesakes : ∃ program : Program,
    parse "int a; void f() { } int main() { int a; a = 1; void f() { } }" = .ok program ∧
    program.analyze.Clear ∧
    ∃ text, readProgram ((program.pascal program.analyze.forest ⟨true, "once"⟩).lines.map Line.text) =
        some text ∧
      (text.vars.map Variable.name ++ text.inner.map Section.name).Nodup := by
  let int (column : Nat) : TypeName := ⟨"int", none, ⟨1, column⟩⟩
  let program : Program := ⟨[
    .declaration ⟨int 1, "a", false, ⟨1, 5⟩⟩,
    .function "void" "f" [] [] ⟨1, 13⟩,
    .function "int" "main" [] [.declaration ⟨int 34, "a", false, ⟨1, 38⟩⟩,
      .assignment (.var "a" ⟨1, 41⟩) (.intLiteral "1" ⟨1, 45⟩) ⟨1, 43⟩,
      .function "void" "f" [] [] ⟨1, 53⟩] ⟨1, 25⟩], ⟨1, 62⟩⟩
  have parsed : parse "int a; void f() { } int main() { int a; a = 1; void f() { } }" = .ok program :=
    (parse_ofList _).trans (by decide +kernel)
  have clear : program.analyze.Clear := by decide
  obtain ⟨text, read, -, -, once, -⟩ := declares_once_iff parsed clear ⟨true, "once"⟩
  exact ⟨program, parsed, clear, text, read, once.2 ⟨by decide, by decide⟩⟩

/-- A variable of `main` has the name of a function at the top: the program level declares it twice, and
no warning names it. -/
theorem not_declares_once : ∃ (program : Program) (text : Sections),
    parse "void h() { } int main() { int h; h = 1; }" = .ok program ∧
    program.analyze.diagnostics = [] ∧
    (program.pascal program.analyze.forest {}).warnings = [] ∧
    readProgram ((program.pascal program.analyze.forest {}).lines.map Line.text) = some text ∧
    text.vars.map Variable.name = ["h"] ∧ text.inner.map Section.name = ["h"] := by
  let program : Program := ⟨[.function "void" "h" [] [] ⟨1, 6⟩,
    .function "int" "main" [] [.declaration ⟨⟨"int", none, ⟨1, 27⟩⟩, "h", false, ⟨1, 31⟩⟩,
      .assignment (.var "h" ⟨1, 34⟩) (.intLiteral "1" ⟨1, 38⟩) ⟨1, 36⟩] ⟨1, 18⟩], ⟨1, 42⟩⟩
  have parsed : parse "void h() { } int main() { int h; h = 1; }" = .ok program :=
    (parse_ofList _).trans (by decide +kernel)
  have clear : program.analyze.Clear := by decide
  exact ⟨program, _, parsed, by decide, by decide, (legible_pascal parsed clear {}).readProgram_lines,
    by decide, by decide⟩

end Program

end Pascalize
