import Pascalize.Proofs.References
import Pascalize.Proofs.SectionReading

/-!
# Names in the body of a program

The body of a Pascal program is made of the statements at the top and those of `main`, so the names in it
belong to the global scope or to the scope of `main`, and what these two scopes hold is written at the
program level. Two things are not: the parameters of `main`, and `main` itself. All other names are
declared (`Program.declared_of_body`), whatever is left out and whatever clashes.
-/

namespace Pascalize

open Pascal

/-! ## The scopes of functions -/

namespace Declared

variable {f : Forest} {outer : List ScopeId} {n : ScopeId}

theorem mem_scopingsAll (outside n : ScopeId) {xs : List Declared} {d : Definition}
    {inside : List Declared} (member : function d inside ∈ xs) :
    ∃ s ∈ scopingsAll outside n xs, s.name = d.name := by
  induction xs generalizing n with
  | nil => nomatch member
  | cons x xs ih =>
    rw [scopingsAll]
    obtain rfl | later := List.mem_cons.1 member
    · exact ⟨_, List.mem_append_left _ (List.mem_singleton_self _), rfl⟩
    · obtain ⟨s, is, named⟩ := ih (n + x.count) later
      exact ⟨s, List.mem_append_right _ is, named⟩

theorem chain_of_laid (rooted : f.Rooted) {d : Definition} {inside : List Declared} {own : ScopeId}
    (laid : (function d inside).Laid f outer own) : f.chain own = own :: outer :=
  rooted.chain_of_bare laid.1

/-- A symbol of a scope was there before or is declared in it. -/
theorem of_named? (titled : f.Titled) {xs : List Declared} {scope : BareScope} {id : ScopeId} {name : String}
    {symbol : Symbol} (is : f.bare[id]? = some (extend n xs scope))
    (named : f.named? id name = some symbol) :
    (symbol.bare ∈ scope.symbols ∨ ∃ x ∈ xs, x.symbol = symbol.bare) ∧ symbol.name = name := by
  obtain ⟨member, title⟩ := titled.mem_bare_of_named? is named
  rw [extend, List.mem_append] at member
  exact ⟨member.imp_right List.mem_map.1, title⟩

end Declared

namespace Program

variable {source : String} {program : Program} {main : ScopeId} {name : String} {symbol : Symbol}

/-- The scope of `main` is that of a function of this name at the top. -/
theorem of_mainScope? (parsed : parse source = .ok program) (clear : program.analyze.Clear)
    (is : program.mainScope? program.analyze.forest = some main) : ∃ d inside,
      program.met.find? (·.name = mainName) =
        some (.mk d Forest.global (some main) (Declared.scopingsAll main (main + 1) inside)) ∧
      Declared.function d inside ∈ program.declared ∧
      (Declared.function d inside).Laid program.analyze.forest [Forest.global] main := by
  rw [mainScope?_eq_met parsed clear] at is
  obtain ⟨s, found, own⟩ := Option.bind_eq_some_iff.1 is
  obtain ⟨d, inside, own', rfl, declared, laid⟩ := of_mem_met clear (List.mem_of_find?_eq_some found)
  obtain rfl := Option.some.inj own
  exact ⟨d, inside, found, declared, laid⟩

theorem chain_main (parsed : parse source = .ok program) (clear : program.analyze.Clear)
    (is : program.mainScope? program.analyze.forest = some main) :
    program.analyze.forest.chain main = [main, Forest.global] := by
  obtain ⟨d, inside, -, -, laid⟩ := of_mainScope? parsed clear is
  exact Declared.chain_of_laid program.rooted_analyze laid

end Program

/-! ## What the two scopes hold -/

theorem Role.of_bare {role role' : Role} (same : role.bare = role') :
    role = role' ∨ ∃ params returns, role = .function params returns ∧ role' = .function [] returns := by
  subst same
  cases role with
  | function params returns => exact .inr ⟨params, returns, rfl, rfl⟩
  | _ => exact .inl rfl

/-- The symbol is that of what is declared, under its name. -/
def Declared.Has (x : Declared) (name : String) (symbol : Symbol) : Prop :=
  x.name = name ∧
    ((∃ decl, x = .var decl ∧ symbol.role = .var) ∨
      ∃ d inside params returns, x = .function d inside ∧ symbol.role = .function params returns)

/-- The role of a symbol tells what it was declared as. -/
theorem Declared.has_of_symbol {x : Declared} {symbol : Symbol} (same : x.symbol = symbol.bare) :
    x.Has symbol.name symbol := by
  refine ⟨by rw [← x.name_symbol, same]; rfl, ?_⟩
  cases x with
  | var decl =>
    obtain role | ⟨_, _, -, none⟩ := Role.of_bare (congrArg Symbol.role same.symm)
    · exact .inl ⟨decl, rfl, role⟩
    · nomatch none
  | function d inside =>
    obtain role | ⟨params, returns, role, -⟩ := Role.of_bare (congrArg Symbol.role same.symm)
    · exact .inr ⟨d, inside, _, _, rfl, role⟩
    · exact .inr ⟨d, inside, params, returns, rfl, role⟩

namespace Program

variable {source : String} {program : Program} {main : ScopeId} {name : String} {symbol : Symbol}

/-- The global scope holds the builtin types and what is declared at the top. -/
theorem of_named_global (clear : program.analyze.Clear)
    (named : program.analyze.forest.named? Forest.global name = some symbol)
    (noType : symbol.isType = false) : ∃ x ∈ program.declared, x.Has name symbol := by
  obtain ⟨builtin | ⟨x, member, same⟩, rfl⟩ :=
    Declared.of_named? program.titled_analyze (bare_global clear) named
  · obtain ⟨type, -, same⟩ := List.mem_map.1 builtin
    obtain role | ⟨_, _, -, none⟩ := Role.of_bare (congrArg Symbol.role same.symm)
    · simp [Symbol.isType, role] at noType
    · cases none
  · exact ⟨x, member, Declared.has_of_symbol same⟩

/-- The scope of a function holds its parameters and what is declared inside it. -/
theorem of_named_laid {d : Definition} {inside : List Declared} {outer : List ScopeId} {own : ScopeId}
    (laid : (Declared.function d inside).Laid program.analyze.forest outer own)
    (named : program.analyze.forest.named? own name = some symbol)
    (noParameter : symbol.role ≠ .parameter) : ∃ x ∈ inside, x.Has name symbol := by
  obtain ⟨parameter | ⟨x, member, same⟩, rfl⟩ :=
    Declared.of_named? program.titled_analyze laid.1 named
  · obtain ⟨decl, -, same⟩ := List.mem_map.1 parameter
    obtain role | ⟨_, _, -, none⟩ := Role.of_bare (congrArg Symbol.role same.symm)
    · exact absurd role noParameter
    · nomatch none
  · exact ⟨x, member, Declared.has_of_symbol same⟩

end Program

/-! ## What is written at the program level -/

/-- A variable that is not left out is declared. -/
theorem Forest.Titled.mem_kept {f : Forest} (h : f.Titled) {id : ScopeId} {name : String} {symbol : Symbol}
    (named : f.named? id name = some symbol) (var : symbol.role = .var) {optimize : Bool}
    (stays : drops optimize symbol = false) : name ∈ (f.varSection optimize id).kept.map Variable.name := by
  obtain ⟨scope, there, member, rfl⟩ := h.mem_of_named? named
  have isVar : symbol ∈ scope.vars := List.mem_filter.2 ⟨member, by simp [Symbol.isVariable, var]⟩
  have kept : f.declared symbol ∈ (f.varSection optimize id).kept := by
    simp only [varSection, there]
    exact List.mem_map_of_mem (List.mem_filter.2 ⟨isVar, by simp [stays]⟩)
  exact List.mem_map.2 ⟨_, kept, rfl⟩

/-- What a reference is resolved to is not left out, if uses are not too many to be counted. -/
theorem Program.Reference.drops_eq_false {program : Program} {r : program.Reference} {ref : SymbolId}
    (resolved : r.resolved? = some ref) {symbol : Symbol}
    (is : program.analyze.forest.symbol? ref = some symbol) {optimize : Bool}
    (few : optimize = true → Moment.useCount program.moments ref.scope r.name < UInt32.size) :
    Forest.drops optimize symbol = false := by
  cases optimize with
  | false => rfl
  | true =>
    obtain ⟨symbol', is', used⟩ := used_of_resolved resolved (few rfl)
    obtain rfl := Option.some.inj (is.symm.trans is')
    exact decide_eq_false used

namespace Scoping

theorem mem_hoist {l : List Scoping} {s : Scoping} (member : s ∈ l) (other : s.name ≠ mainName) :
    s ∈ hoist l :=
  List.mem_append_left _ (List.mem_filter.2 ⟨member, by simpa using other⟩)

/-- A function inside `main` stands at the program level, or another one of its name does. -/
theorem name_mem_hoist {l : List Scoping} {main s : Scoping} (found : l.find? (·.name = mainName) = some main)
    (member : s ∈ main.inner) : s.name ∈ (hoist l).map name := by
  simp only [hoist, found, Option.map_some, Option.getD_some, List.map_append, List.mem_append]
  cases taken : (l.filter (·.name ≠ mainName)).any (·.name = s.name) with
  | true =>
    obtain ⟨t, inside, same⟩ := List.any_eq_true.1 taken
    exact .inl (List.mem_map.2 ⟨t, inside, of_decide_eq_true same⟩)
  | false => exact .inr (List.mem_map_of_mem (List.mem_filter.2 ⟨member, by rw [taken]; rfl⟩))

end Scoping

namespace Program

variable {source : String} {program : Program} {main : ScopeId} {name : String} {symbol : Symbol}

/-- A global variable is declared, or one of `main` under its name. -/
theorem mem_vars_of_global (program : Program) (f : Forest) (options : Options)
    (kept : name ∈ (f.varSection options.optimize Forest.global).kept.map Variable.name) :
    name ∈ (program.pascal f options).vars.map Variable.name := by
  obtain ⟨v, member, rfl⟩ := List.mem_map.1 kept
  simp only [pascal, List.map_append, List.mem_append]
  have among (locals : List Variable) :
      v.name ∈ ((f.varSection options.optimize Forest.global).kept.filter fun u =>
        !locals.any (·.name = u.name)).map Variable.name ∨ v.name ∈ locals.map Variable.name := by
    cases shadowed : locals.any (·.name = v.name) with
    | true =>
      obtain ⟨u, inside, same⟩ := List.any_eq_true.1 shadowed
      exact .inr (List.mem_map.2 ⟨u, inside, of_decide_eq_true same⟩)
    | false => exact .inl (List.mem_map_of_mem (List.mem_filter.2 ⟨member, by simp [shadowed]⟩))
  exact among _

theorem mem_vars_of_main {f : Forest} (options : Options) (is : program.mainScope? f = some main)
    (kept : name ∈ (f.varSection options.optimize main).kept.map Variable.name) :
    name ∈ (program.pascal f options).vars.map Variable.name := by
  simp only [pascal, is, List.map_append, List.mem_append]
  exact .inr kept

theorem name_routines (parsed : parse source = .ok program) (clear : program.analyze.Clear)
    (options : Options) : (program.pascal program.analyze.forest options).routines.map Routine.name =
      (Scoping.hoist program.met).map Scoping.name := by
  rw [routines_pascal, lookups_eq_met parsed clear, List.map_map]
  exact List.map_congr_left fun s _ => Scoping.name_routine _ _ s

/-- What is declared at the top, but for `main`, has its name at the program level. -/
theorem mem_of_global (parsed : parse source = .ok program) (clear : program.analyze.Clear)
    (options : Options) (named : program.analyze.forest.named? Forest.global name = some symbol)
    (noType : symbol.isType = false) (stays : Forest.drops options.optimize symbol = false)
    (other : name ≠ mainName) :
    name ∈ (program.pascal program.analyze.forest options).vars.map Variable.name ∨
      name ∈ (program.pascal program.analyze.forest options).routines.map Routine.name := by
  obtain ⟨x, member, rfl, ⟨decl, -, var⟩ | ⟨d, inside, _, _, rfl, -⟩⟩ := of_named_global clear named noType
  · exact .inl (mem_vars_of_global program _ options (program.titled_analyze.mem_kept named var stays))
  · obtain ⟨s, inMet, sameName⟩ := Declared.mem_scopingsAll Forest.global 1 member
    rw [← met_eq] at inMet
    have placed := Scoping.mem_hoist inMet (sameName ▸ other)
    rw [name_routines parsed clear]
    exact .inr (List.mem_map.2 ⟨s, placed, sameName⟩)

/-- What is declared in `main` has its name at the program level. -/
theorem mem_of_main (parsed : parse source = .ok program) (clear : program.analyze.Clear)
    (options : Options) (is : program.mainScope? program.analyze.forest = some main)
    (named : program.analyze.forest.named? main name = some symbol)
    (noParameter : symbol.role ≠ .parameter) (stays : Forest.drops options.optimize symbol = false) :
    name ∈ (program.pascal program.analyze.forest options).vars.map Variable.name ∨
      name ∈ (program.pascal program.analyze.forest options).routines.map Routine.name := by
  obtain ⟨d, inside, found, -, laid⟩ := of_mainScope? parsed clear is
  obtain ⟨x, member, rfl, ⟨decl, -, var⟩ | ⟨d', inside', _, _, rfl, -⟩⟩ :=
    of_named_laid laid named noParameter
  · exact .inl (mem_vars_of_main options is (program.titled_analyze.mem_kept named var stays))
  · obtain ⟨s, inner, sameName⟩ := Declared.mem_scopingsAll main (main + 1) member
    have placed := Scoping.name_mem_hoist found inner
    rw [sameName] at placed
    rw [name_routines parsed clear]
    exact .inr placed

/-- **The body names what is declared**: in a parsed program that declares no name twice, let a reference
stand at the top or in `main` itself, and let it be resolved to a variable or a function other than `main`.
Then a line of the Pascal text declares its name, as a variable of the program or in the heading of a
section at the program level. Where unused variables are left out, its uses are to be fewer than `2 ^ 32`. -/
theorem declared_of_body (parsed : parse source = .ok program) (clear : program.analyze.Clear)
    (options : Options) (r : program.Reference) {ref : SymbolId}
    (inBody : r.scope = Forest.global ∨ program.mainScope? program.analyze.forest = some r.scope)
    (resolved : r.resolved? = some ref)
    (is : program.analyze.forest.symbol? ref = some symbol)
    (noType : symbol.isType = false) (noParameter : symbol.role ≠ .parameter)
    (notMain : ¬ (ref.scope = Forest.global ∧ r.name = mainName))
    (few : options.optimize = true → Moment.useCount program.moments ref.scope r.name < UInt32.size) :
    ∃ text, readProgram ((program.pascal program.analyze.forest options).lines.map Line.text) = some text ∧
      (r.name ∈ text.vars.map Variable.name ∨ r.name ∈ text.inner.map Section.name) := by
  refine ⟨_, (legible_pascal parsed clear options).readProgram_lines, ?_⟩
  simp only [List.map_map, Function.comp_def, Routine.name_toSection]
  obtain ⟨nearer, farther, chain, -, -, found⟩ := Reference.of_resolved resolved
  have stays := Reference.drops_eq_false resolved is few
  have named : program.analyze.forest.named? ref.scope r.name = some symbol :=
    Forest.named?_of_find? found is
  have inChain : ref.scope ∈ program.analyze.forest.chain r.scope := by simp [chain]
  have ofGlobal (here : ref.scope = Forest.global) :=
    mem_of_global parsed clear options (here ▸ named) noType stays fun same => notMain ⟨here, same⟩
  obtain atTop | inMain := inBody
  · rw [atTop, program.rooted_analyze.chain_global, List.mem_singleton] at inChain
    exact ofGlobal inChain
  · rw [chain_main parsed clear inMain, List.mem_cons, List.mem_singleton] at inChain
    obtain here | here := inChain
    · exact mem_of_main parsed clear options inMain (here ▸ named) noParameter stays
    · exact ofGlobal here

/-- A global variable that `main` uses and then declares again, with unused variables left out. -/
theorem declared_of_body_redeclared : ∃ (program : Program) (r : program.Reference),
    parse "int a; int main() { a = 1; int a; }" = .ok program ∧ program.analyze.Clear ∧
    program.mainScope? program.analyze.forest = some r.scope ∧
    r.resolved? = some ⟨Forest.global, 5⟩ ∧ r.name = "a" ∧
    ∃ text, readProgram ((program.pascal program.analyze.forest ⟨true, "body"⟩).lines.map Line.text) =
        some text ∧
      (r.name ∈ text.vars.map Variable.name ∨ r.name ∈ text.inner.map Section.name) := by
  let first : Declaration := ⟨⟨"int", none, ⟨1, 1⟩⟩, "a", false, ⟨1, 5⟩⟩
  let second : Declaration := ⟨⟨"int", none, ⟨1, 28⟩⟩, "a", false, ⟨1, 32⟩⟩
  let program : Program := ⟨[.declaration first,
    .function "int" "main" [] [
      .assignment (.var "a" ⟨1, 21⟩) (.intLiteral "1" ⟨1, 25⟩) ⟨1, 23⟩, .declaration second] ⟨1, 12⟩],
    ⟨1, 36⟩⟩
  let r : program.Reference := ⟨[.declare first, .enter "int" "main" [] ⟨1, 12⟩], "a", ⟨1, 21⟩,
    [.declare second, .leave], rfl⟩
  have parsed : parse "int a; int main() { a = 1; int a; }" = .ok program :=
    (parse_ofList _).trans (by decide +kernel)
  have clear : program.analyze.Clear := by decide
  have inMain : program.mainScope? program.analyze.forest = some r.scope := by decide
  have resolved : r.resolved? = some ⟨Forest.global, 5⟩ := by decide
  have is : program.analyze.forest.symbol? ⟨Forest.global, 5⟩ =
      some ⟨"a", .var, some ⟨Forest.global, 0⟩, some "int", 1⟩ := by decide
  exact ⟨program, r, parsed, clear, inMain, resolved, rfl, declared_of_body parsed clear ⟨true, "body"⟩ r
    (.inr inMain) resolved is rfl (by decide) (by decide) fun _ => by decide⟩

/-- A parameter of `main` is named in the body and declared nowhere. -/
theorem not_declared_parameter : ∃ (program : Program) (r : program.Reference) (symbol : Symbol)
    (text : Sections),
    parse "int main(int n) { n = 1; }" = .ok program ∧ program.analyze.diagnostics = [] ∧
    program.mainScope? program.analyze.forest = some r.scope ∧
    r.resolved?.bind program.analyze.forest.symbol? = some symbol ∧ symbol.role = .parameter ∧
    (program.pascal program.analyze.forest {}).warnings = [] ∧
    readProgram ((program.pascal program.analyze.forest {}).lines.map Line.text) = some text ∧
    r.name ∉ text.vars.map Variable.name ∧ r.name ∉ text.inner.map Section.name := by
  let n : Declaration := ⟨⟨"int", none, ⟨1, 10⟩⟩, "n", false, ⟨1, 14⟩⟩
  let program : Program := ⟨[.function "int" "main" [n] [
    .assignment (.var "n" ⟨1, 19⟩) (.intLiteral "1" ⟨1, 23⟩) ⟨1, 21⟩] ⟨1, 5⟩], ⟨1, 27⟩⟩
  let r : program.Reference := ⟨[.enter "int" "main" [n] ⟨1, 5⟩], "n", ⟨1, 19⟩, [.leave], rfl⟩
  have parsed : parse "int main(int n) { n = 1; }" = .ok program :=
    (parse_ofList _).trans (by decide +kernel)
  have clear : program.analyze.Clear := by decide
  exact ⟨program, r, ⟨"n", .parameter, some ⟨Forest.global, 0⟩, some "int", 1⟩, _, parsed, by decide,
    by decide, by decide, rfl, by decide, (legible_pascal parsed clear {}).readProgram_lines, by decide,
    by decide⟩

end Program

end Pascalize
