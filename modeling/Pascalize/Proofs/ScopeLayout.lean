import Pascalize.Proofs.BlockStructure
import Pascalize.Proofs.Moments

/-!
# The scopes of a program

A forest without what uses and types add to it (`Forest.bare`) is known before the analysis runs: the
scope of a function holds its parameters and then what is declared inside it, functions get their scopes
in the order of the text, and the scopes around a scope are those of the functions around its function.
`Program.scopes` writes this down, and `Program.bare_analyze` says that an analysis without complaints
about names declared twice ends with these scopes.
-/

namespace Pascalize

/-! ## Bare scopes -/

/-- A symbol without its type and its uses. -/
def Symbol.bare (s : Symbol) : Symbol :=
  ⟨s.name, s.role.bare, none, s.written, 0⟩

/-- What of a scope does not depend on uses and types, with the scopes around it. -/
structure BareScope where
  name : String
  enclosing : List ScopeId := []
  symbols : List Symbol := []
  children : List (String × ScopeId) := []

def Scope.bare (enclosing : List ScopeId) (s : Scope) : BareScope :=
  ⟨s.name, enclosing, s.symbols.map Symbol.bare, s.children⟩

namespace Forest

variable {f : Forest}

def bare (f : Forest) : List BareScope :=
  f.scopes.mapIdx fun id s => s.bare (f.chain id).tail

@[simp] theorem length_bare (f : Forest) : f.bare.length = f.scopes.length := by
  simp [bare]

/-- Looking a bare scope up is looking the scope up and leaving out what uses add. -/
theorem getElem?_bare (f : Forest) (id : ScopeId) :
    f.bare[id]? = (f.scope? id).map (·.bare (f.chain id).tail) := by
  simp [bare, scope?]

/-- The scopes around a scope are those around the bare scope. -/
theorem Rooted.chain_of_bare (h : f.Rooted) {id : ScopeId} {scope : BareScope}
    (is : f.bare[id]? = some scope) : f.chain id = id :: scope.enclosing := by
  rw [getElem?_bare, Option.map_eq_some_iff] at is
  obtain ⟨full, there, rfl⟩ := is
  rw [Scope.bare, h.chain_eq there, List.tail_cons]

/-- A change to a scope that shows in the bare scope. -/
theorem bare_modifyScope (f : Forest) (id : ScopeId) {g : Scope → Scope} {g' : BareScope → BareScope}
    (chains : ∀ s, (f.modifyScope id g).chain s = f.chain s)
    (same : ∀ outer s, (g s).bare outer = g' (s.bare outer)) :
    (f.modifyScope id g).bare = f.bare.modify id g' := by
  apply List.ext_getElem?
  intro i
  simp only [getElem?_bare, scope?_modifyScope, List.getElem?_modify, chains]
  split
  · cases f.scope? i <;> simp [same]
  · cases f.scope? i <;> rfl

/-- A change to a symbol that does not show in the bare symbol. -/
theorem bare_modifySymbol (f : Forest) (ref : SymbolId) {g : Symbol → Symbol}
    (same : ∀ symbol, f.symbol? ref = some symbol → (g symbol).bare = symbol.bare) :
    (f.modifySymbol ref g).bare = f.bare := by
  apply List.ext_getElem?
  intro i
  rw [getElem?_bare, getElem?_bare, scope?_modifySymbol, chain_modifySymbol]
  split
  next here =>
    cases there : f.scope? i with
    | none => rfl
    | some scope =>
      have symbols : (scope.symbols.modify ref.position g).map Symbol.bare =
          scope.symbols.map Symbol.bare := by
        apply List.ext_getElem?
        intro j
        simp only [List.getElem?_map, List.getElem?_modify]
        cases is : scope.symbols[j]? with
        | none => rfl
        | some symbol =>
          by_cases position : ref.position = j
          · have changed : f.symbol? ref = some symbol := by
              rw [symbol?_eq, here, there, position]
              exact is
            simp [position, same _ changed]
          · simp [position]
      simp [Scope.bare, Scope.modify, symbols]
  next => rfl

/-- Counting a use does not show. -/
theorem bare_resolve (f : Forest) (id : ScopeId) (name : String) : (f.resolve id name).2.bare = f.bare := by
  obtain ⟨-, same⟩ | ⟨used, -, same⟩ := f.resolve_cases id name <;> rw [same]
  exact f.bare_modifySymbol used fun _ _ => rfl

/-- An inserted symbol shows at the end of its scope. -/
theorem bare_push (f : Forest) (id : ScopeId) (symbol : Symbol) :
    (f.modifyScope id (·.push symbol)).bare =
      f.bare.modify id fun s => { s with symbols := s.symbols ++ [symbol.bare] } :=
  f.bare_modifyScope id (f.chain_push id symbol) fun outer s => by simp [Scope.bare, Scope.push]

/-- A new scope shows as a child of the scope it is opened in, and as an empty scope behind the others.
-/
theorem Rooted.bare_openScope (h : f.Rooted) {id : ScopeId} (valid : id < f.scopes.length) (name : String) :
    (f.openScope id name).2.bare =
      f.bare.modify id (fun s => { s with children := (name, f.scopes.length) :: s.children }) ++
        [{ name, enclosing := f.chain id }] := by
  apply List.ext_getElem?
  intro i
  rw [getElem?_bare, scope?_openScope]
  by_cases new : i = f.scopes.length
  · subst new
    rw [if_pos rfl, h.chain_openScope_fresh valid, List.getElem?_append_right (by simp)]
    simp [opened, Scope.bare]
  · rw [if_neg new]
    by_cases known : i < f.scopes.length
    · rw [h.chain_openScope valid name known, List.getElem?_append_left (by simpa using known),
        List.getElem?_modify, getElem?_bare]
      split
      · cases f.scope? i <;> rfl
      · cases f.scope? i <;> rfl
    · have beyond : f.scope? i = none := List.getElem?_eq_none (Nat.le_of_not_lt known)
      have after : f.scopes.length + 1 ≤ i :=
        Nat.lt_of_le_of_ne (Nat.le_of_not_lt known) (Ne.symm new)
      rw [List.getElem?_eq_none (by simpa using after)]
      split
      · rw [beyond]
        rfl
      · rw [beyond]
        rfl

end Forest

/-! ## What the analysis does to bare scopes -/

/-- What is changed stands in the front part. -/
theorem modify_of_lt {α : Type} {l : List α} {i : Nat} (lt : i < l.length) (l' : List α) (g : α → α) :
    (l ++ l').modify i g = l.modify i g ++ l' := by
  induction l generalizing i with
  | nil => nomatch lt
  | cons x l ih =>
    cases i with
    | zero => rfl
    | succ i => simp [ih (Nat.lt_of_succ_lt_succ lt)]

/-- What is changed is the last element. -/
theorem modify_last {α : Type} {l : List α} {i : Nat} (last : l.length = i) (x : α) (g : α → α) :
    (l ++ [x]).modify i g = l ++ [g x] := by
  subst last
  induction l with
  | nil => rfl
  | cons y l ih => simp [ih]

/-- Whether a name was declared twice. -/
def Complaint.isRedeclaration : Complaint → Bool
  | .redeclared _ => true
  | _ => false

namespace Analysis

/-- No name was declared twice. -/
def Clear (a : Analysis) : Prop :=
  ∀ d ∈ a.diagnostics, d.complaint.isRedeclaration = false

instance (a : Analysis) : Decidable a.Clear :=
  inferInstanceAs (Decidable (∀ d ∈ a.diagnostics, d.complaint.isRedeclaration = false))

variable {a a' : Analysis}

/-- Complaints stay, so an analysis without any comes from one without any. -/
theorem Precedes.clear (h : a.Precedes a') (clear : a'.Clear) : a.Clear :=
  fun d member => clear d (h.reports.subset member)

theorem bare_refer (a : Analysis) (name : String) (location : Location) :
    (a.refer name location).forest.bare = a.forest.bare := by
  rw [forest_refer, Forest.bare_resolve]

theorem bare_useType (a : Analysis) (type : TypeName) :
    (a.useType type).2.forest.bare = a.forest.bare := by
  rw [forest_useType, Forest.bare_resolve]

/-- That the symbol of a function is given its parameters does not show. -/
theorem bare_sign {ref : SymbolId} {name returns : String}
    (is : a.forest.face? ref = some (.ofFunction name returns)) (params : List SymbolId) :
    (a.sign ref params returns).forest.bare = a.forest.bare := by
  refine Forest.bare_modifySymbol _ ref fun symbol there => ?_
  rw [Forest.face?_of_symbol? there, Option.some.injEq] at is
  have role : symbol.role.bare = .function [] returns := congrArg Symbol.role is
  rw [Symbol.bare, Symbol.bare, role, Role.bare]

namespace Standing

/-- Without a complaint the symbol is in the active scope. -/
theorem bare_insert (h : a.Standing) {symbol : Symbol} {location : Location}
    (clear : (a.insert symbol location).2.Clear) : (a.insert symbol location).2.forest.bare =
      a.forest.bare.modify a.active fun s => { s with symbols := s.symbols ++ [symbol.bare] } := by
  obtain ⟨scope, there⟩ := h.scope
  cases free : a.forest.find? a.active symbol.name with
  | some existing =>
    rw [insert_of_taken free] at clear
    have complaint := clear ⟨.redeclared symbol.name, location⟩ (by simp [report])
    cases complaint
  | none =>
    rw [insert_of_free there free]
    exact a.forest.bare_push a.active symbol

/-- **A declaration** whose name is free adds its symbol to the active scope. -/
theorem bare_declare (h : a.Standing) {role : Role} (bare : role.bare = role) {decl : Declaration}
    (clear : (a.declare role decl).2.Clear) :
    (a.declare role decl).2.forest.bare = a.forest.bare.modify a.active
      fun s => { s with symbols := s.symbols ++ [decl.symbol role] } := by
  rw [declare_snd] at clear ⊢
  rw [(h.useType decl.type).bare_insert clear, bare_useType, (a.stays_useType decl.type).active,
    declared, Symbol.bare, bare]
  rfl

/-- Parameters add their symbols in order. -/
theorem bare_declareParams (h : a.Standing) {params : List Declaration}
    (clear : (a.declareParams params).2.Clear) :
    (a.declareParams params).2.forest.bare = a.forest.bare.modify a.active
      fun s => { s with symbols := s.symbols ++ params.map (Declaration.symbol .parameter) } := by
  induction params generalizing a with
  | nil =>
    simp only [Analysis.declareParams, List.map_nil, List.append_nil]
    exact (List.modify_id _ _).symm
  | cons decl params ih =>
    have standing := h.declare .parameter decl
    rw [declareParams_cons_snd] at clear ⊢
    have first := (standing.declareParams params).2.toPrecedes.clear clear
    rw [ih standing clear, h.bare_declare rfl first, (h.stays_declare .parameter decl).active,
      List.modify_modify_eq]
    congr 1
    funext s
    simp

/-- Without a complaint the name of a function is in the active scope, and its parameters are in the new
one. -/
theorem bare_headed (h : a.Standing) {returns name : String} {params : List Declaration} {location : Location}
    (clear : (a.headed returns name params location).2.Clear) :
    (a.headed returns name params location).2.forest.bare =
      a.forest.bare.modify a.active (fun s => { s with
        symbols := s.symbols ++ [.ofFunction name returns]
        children := (name, a.forest.scopes.length) :: s.children }) ++
      [{ name, enclosing := a.forest.chain a.active
         symbols := params.map (Declaration.symbol .parameter) }] := by
  have named := h.insert (.ofFunction name returns) location
  have stays := h.stays_insert (.ofFunction name returns) location
  have inner := named.openScope name
  have opened := (inner.declareParams params).2.toPrecedes.clear clear
  have inserted := (named.precedes_openScope name).clear opened
  have chain := stays.forest.chains a.active h.known
  have scopes := named.rooted.bare_openScope named.known name
  rw [stays.active, h.bare_insert inserted, stays.length, chain] at scopes
  rw [Analysis.headed, inner.bare_declareParams clear, active_openScope, stays.length, Analysis.openScope]
  simp only
  rw [stays.active, scopes, modify_last (by simp), List.modify_modify_eq]
  rfl

/-- What signing a function adds is left out of bare scopes. -/
theorem bare_enter (h : a.Standing) (returns name : String) (params : List Declaration)
    (location : Location) : (a.enter returns name params location).forest.bare =
      (a.headed returns name params location).2.forest.bare := by
  obtain ⟨existing, -, same⟩ | ⟨ref, -, -, -, is, same⟩ := h.enter_cases returns name params location
  · rw [same]
  · rw [same, bare_sign is]

end Standing

end Analysis

/-! ## The scopes that declarations make -/

namespace Declared

/-- The bare symbol of what is declared. -/
def symbol : Declared → Symbol
  | var decl => decl.symbol .var
  | function d _ => .ofFunction d.name d.returns

theorem name_symbol (x : Declared) : x.symbol.name = x.name := by
  cases x <;> rfl

/-- The functions declared in one scope with the numbers of their scopes, the first of which is `n`. -/
def numbered (n : ScopeId) : List Declared → List (String × ScopeId)
  | [] => []
  | var _ :: rest => numbered n rest
  | function d inside :: rest => (d.name, n) :: numbered (n + (countAll inside + 1)) rest

/-- A scope with what is declared in it besides, `n` being the number of the next scope. -/
def extend (n : ScopeId) (xs : List Declared) (s : BareScope) : BareScope :=
  { s with symbols := s.symbols ++ xs.map symbol, children := (numbered n xs).reverse ++ s.children }

/-- The scope of a function, `n` being the number of the scope after it. -/
def scopeOf (outer : List ScopeId) (n : ScopeId) (d : Definition) (inside : List Declared) : BareScope :=
  extend n inside
    { name := d.name, enclosing := outer, symbols := d.params.map (Declaration.symbol .parameter) }

mutual

/-- The scopes of the functions in what is declared, in the order of the text. -/
def scopes (outer : List ScopeId) (n : ScopeId) : Declared → List BareScope
  | var _ => []
  | function d inside => scopeOf outer (n + 1) d inside :: scopesAll (n :: outer) (n + 1) inside

def scopesAll (outer : List ScopeId) (n : ScopeId) : List Declared → List BareScope
  | [] => []
  | x :: rest => x.scopes outer n ++ scopesAll outer (n + x.count) rest

end

/-- The functions behind others get the numbers behind theirs. -/
theorem numbered_append (n : ScopeId) (xs ys : List Declared) :
    numbered n (xs ++ ys) = numbered n xs ++ numbered (n + countAll xs) ys := by
  induction xs generalizing n with
  | nil => simp [numbered, countAll]
  | cons x xs ih =>
    cases x with
    | var => simp [numbered, countAll, count, ih]
    | function d inside => simp [numbered, countAll, count, ih, Nat.add_assoc]

/-- So do their scopes. -/
theorem scopesAll_append (outer : List ScopeId) (n : ScopeId) (xs ys : List Declared) :
    scopesAll outer n (xs ++ ys) = scopesAll outer n xs ++ scopesAll outer (n + countAll xs) ys := by
  induction xs generalizing n with
  | nil => simp [scopesAll, countAll]
  | cons x xs ih => simp [scopesAll, countAll, ih, Nat.add_assoc]

/-- A scope is extended by one part after the other. -/
theorem extend_append (n : ScopeId) (xs ys : List Declared) :
    extend n (xs ++ ys) = extend (n + countAll xs) ys ∘ extend n xs := by
  funext s
  simp [extend, numbered_append]

@[simp] theorem extend_nil (n : ScopeId) : extend n [] = id := by
  funext s
  simp [extend, numbered]

mutual

/-- A function makes one scope for itself and those for the functions inside. -/
theorem length_scopes (outer : List ScopeId) (n : ScopeId) :
    (x : Declared) → (x.scopes outer n).length = x.count
  | var _ => rfl
  | function _ inside => by
    rw [scopes, List.length_cons, length_scopesAll _ _ inside, count]

theorem length_scopesAll (outer : List ScopeId) (n : ScopeId) :
    (xs : List Declared) → (scopesAll outer n xs).length = countAll xs
  | [] => rfl
  | x :: rest => by
    rw [scopesAll, List.length_append, length_scopes _ _ x, length_scopesAll _ _ rest, countAll]

end

end Declared

namespace Analysis

open Declared

/-- Between two analyses the active scope came to hold what was declared, and the functions in it got
their scopes. -/
structure Builds (a a' : Analysis) (xs : List Declared) : Prop where
  opened : a'.opened = a.opened
  bare : a'.forest.bare = a.forest.bare.modify a.active (extend a.forest.scopes.length xs) ++
    scopesAll (a.forest.chain a.active) a.forest.scopes.length xs

variable {a a' a'' : Analysis} {xs ys : List Declared}

namespace Builds

theorem length (h : a.Builds a' xs) :
    a'.forest.scopes.length = a.forest.scopes.length + countAll xs := by
  rw [← Forest.length_bare, h.bare, List.length_append, List.length_modify, length_scopesAll,
    Forest.length_bare]

theorem active (h : a.Builds a' xs) : a'.active = a.active := by
  rw [Analysis.active, Analysis.active, h.opened]

/-- No scope is made, and the active one is extended. -/
theorem of_stays (h : a.Stays a')
    (bare : a'.forest.bare = a.forest.bare.modify a.active (extend a.forest.scopes.length xs))
    (none : countAll xs = 0) : a.Builds a' xs := by
  have empty : scopesAll (a.forest.chain a.active) a.forest.scopes.length xs = [] := by
    rw [← List.length_eq_zero_iff, length_scopesAll, none]
  refine ⟨h.opened, ?_⟩
  rw [bare, empty, List.append_nil]

/-- **Declarations in turn**: the second part extends what the first has left, and the scopes of the
first part stay. -/
theorem trans (h : a.Builds a' xs) (h' : a'.Builds a'' ys) (standing : a.Standing)
    (precedes : a.Precedes a') : a.Builds a'' (xs ++ ys) := by
  refine ⟨h'.opened.trans h.opened, ?_⟩
  rw [h'.bare, h.active, precedes.forest.chains _ standing.known, h.length, h.bare,
    modify_of_lt (by simpa using standing.known), List.modify_modify_eq, ← extend_append, scopesAll_append,
    List.append_assoc]

/-- A function with what is declared inside it. -/
theorem function {returns name : String} {params : List Declaration} {location : Location}
    {inside : List Declared} (standing : a.Standing)
    (clear : (a.enter returns name params location).Clear)
    (h : (a.enter returns name params location).Builds a' inside) (body : List Node) :
    a.Builds a'.leave [.function ⟨returns, name, params, body⟩ inside] := by
  obtain ⟨entered, -, opened, length⟩ := standing.enter returns name params location
  have active := standing.active_enter returns name params location
  have chain : (a.enter returns name params location).forest.chain a.forest.scopes.length =
      a.forest.scopes.length :: a.forest.chain a.active := by
    rw [← active, entered.chain, opened, List.cons_append, standing.chain, active]
  have headed : (a.headed returns name params location).2.Clear := by
    obtain ⟨existing, -, same⟩ | ⟨ref, -, -, -, -, same⟩ :=
      standing.enter_cases returns name params location <;> rwa [same] at clear
  refine ⟨by rw [leave, h.opened, opened]; rfl, ?_⟩
  show a'.forest.bare = _
  rw [h.bare, active, chain, length, standing.bare_enter, standing.bare_headed headed,
    modify_last (by simp), scopesAll, scopesAll, scopes, List.append_nil, List.append_assoc]
  rfl

end Builds

/-- What events do to bare scopes depends on what they declare. -/
theorem carried_builds : Carried fun a events xs _ => (a.play events).Clear → a.Builds (a.play events) xs where
  none a _ := .of_stays (.refl a) (by simp [play]) rfl
  append {a before after _ _ _ _} standing h h' clear := by
    rw [play_append] at clear ⊢
    have first := h (((standing.play before).precedes_play after).clear clear)
    exact first.trans (h' clear) standing (standing.precedes_play before)
  refer a name location _ := .of_stays (a.stays_refer name location) (by simp [play, step, bare_refer]) rfl
  declare standing decl clear :=
    .of_stays (standing.stays_declare .var decl) (standing.bare_declare rfl clear) rfl
  function {a _ _} standing returns name params body location h clear := by
    have entered := (standing.enter returns name params location).1
    have inner : ((a.enter returns name params location).play (Node.eventsAll body)).Clear := by
      rwa [play_append] at clear
    rw [play_append]
    exact .function standing ((entered.precedes_play _).clear inner) (h inner) body

end Analysis

/-- The global scope before a program, with the builtin types. -/
def Forest.globalScope : BareScope :=
  { name := "global", symbols := builtinTypes.map fun name => ⟨name, .builtin, none, none, 0⟩ }

/-- The scopes of a program: the global one, and one for each function. -/
def Program.scopes (program : Program) : List BareScope :=
  Declared.extend 1 program.declared Forest.globalScope ::
    Declared.scopesAll [Forest.global] 1 program.declared

/-- An analysis without complaints about names declared twice builds the scopes of the program. -/
theorem Program.bare_analyze {program : Program} (clear : program.analyze.Clear) :
    program.analyze.forest.bare = program.scopes := by
  have played : (({} : Analysis).play (Node.eventsAll program.statements)).Clear := by
    intro d member
    refine clear d ?_
    rw [Program.analyze]
    split
    · exact member
    · exact List.mem_append_left _ member
  have builds := Analysis.carried_builds.program program played
  rw [program.forest_analyze, builds.bare]
  rfl

/-! ## Scopes by number and by name -/

namespace Declared

mutual

/-- The forest has the scopes of the functions in what is declared, numbered from `n` on. -/
def Laid (f : Forest) (outer : List ScopeId) (n : ScopeId) : Declared → Prop
  | var _ => True
  | function d inside =>
    f.bare[n]? = some (scopeOf outer (n + 1) d inside) ∧ LaidAll f (n :: outer) (n + 1) inside

def LaidAll (f : Forest) (outer : List ScopeId) (n : ScopeId) : List Declared → Prop
  | [] => True
  | x :: rest => x.Laid f outer n ∧ LaidAll f outer (n + x.count) rest

end

mutual

/-- Where the scopes of a declaration stand in the forest, it is laid out. -/
theorem laid_of_bare {f : Forest} {before after : List BareScope} {outer : List ScopeId} :
    (x : Declared) → f.bare = before ++ x.scopes outer before.length ++ after →
      x.Laid f outer before.length
  | var _, _ => trivial
  | function d inside, same => by
    rw [scopes] at same
    refine ⟨by simp [same], ?_⟩
    have inner : LaidAll f (before.length :: outer)
        (before ++ [scopeOf outer (before.length + 1) d inside]).length inside :=
      laidAll_of_bare inside (by simpa using same)
    simpa using inner

/-- Scopes in a row are found at their numbers. -/
theorem laidAll_of_bare {f : Forest} {before after : List BareScope} {outer : List ScopeId} :
    (xs : List Declared) → f.bare = before ++ scopesAll outer before.length xs ++ after →
      LaidAll f outer before.length xs
  | [], _ => trivial
  | x :: rest, same => by
    rw [scopesAll] at same
    refine ⟨laid_of_bare x (by rw [same, List.append_assoc, List.append_assoc, List.append_assoc]), ?_⟩
    have others : LaidAll f outer (before ++ x.scopes outer before.length).length rest :=
      laidAll_of_bare rest (by simpa [length_scopes] using same)
    simpa [length_scopes] using others

end

theorem laid_of_mem {f : Forest} {outer : List ScopeId} {n : ScopeId} {xs : List Declared}
    (laid : LaidAll f outer n xs) {x : Declared} (member : x ∈ xs) : ∃ n', x.Laid f outer n' := by
  induction xs generalizing n with
  | nil => nomatch member
  | cons y xs ih =>
    obtain rfl | later := List.mem_cons.1 member
    · exact ⟨n, laid.1⟩
    · exact ih laid.2 later

/-- Functions are some of what is declared, in the same order. -/
theorem numbered_sublist (n : ScopeId) (xs : List Declared) :
    ((numbered n xs).map Prod.fst).Sublist (xs.map name) := by
  induction xs generalizing n with
  | nil => exact .slnil
  | cons x xs ih =>
    cases x with
    | var => exact (ih n).cons _
    | function => exact (ih _).cons_cons _

end Declared

/-- Among pairs with names of their own, any is found by its name. -/
theorem lookup_reverse {α : Type} {l : List (String × α)} (distinct : (l.map Prod.fst).Nodup)
    {p : String × α} (member : p ∈ l) : l.reverse.lookup p.1 = some p.2 := by
  obtain ⟨before, after, rfl⟩ := List.append_of_mem member
  refine List.lookup_eq_some_iff.2 ⟨after.reverse, before.reverse, by simp, fun q later => ?_⟩
  simp only [List.map_append, List.map_cons, List.nodup_append, List.nodup_cons] at distinct
  have other : p.1 ≠ q.1 := by
    intro same
    exact distinct.2.1.1 (same ▸ List.mem_map_of_mem (List.mem_reverse.1 later))
  simpa using other

namespace Forest

open Declared

variable {f : Forest} {id n : ScopeId} {xs : List Declared} {s : BareScope}

/-- A scope has its names before and those that are declared. -/
theorem names_extend (n : ScopeId) (xs : List Declared) (s : BareScope) :
    (extend n xs s).symbols.map Symbol.name = s.symbols.map Symbol.name ++ xs.map Declared.name := by
  simp [extend, Declared.name_symbol]

/-- No name stands twice in a bare scope. -/
theorem Titled.nodup_of_bare (h : f.Titled) (is : f.bare[id]? = some s) :
    (s.symbols.map Symbol.name).Nodup := by
  rw [getElem?_bare, Option.map_eq_some_iff] at is
  obtain ⟨scope, there, rfl⟩ := is
  have names := Scope.Indexed.nodup (h id scope there)
  rwa [Scope.bare, List.map_map]

/-- As symbols are found by their names, no two declared ones share a name. -/
theorem Titled.nodup_declared (h : f.Titled) (is : f.bare[id]? = some (extend n xs s)) :
    (xs.map Declared.name).Nodup := by
  have names := h.nodup_of_bare is
  rw [names_extend, List.nodup_append] at names
  exact names.2.1

/-- Each function has its scope under its name. -/
theorem Titled.child?_of_bare (h : f.Titled) (is : f.bare[id]? = some (extend n xs s))
    (first : s.children = []) {p : String × ScopeId} (member : p ∈ numbered n xs) :
    f.child? id p.1 = some p.2 := by
  have names := h.nodup_declared is
  rw [getElem?_bare, Option.map_eq_some_iff] at is
  obtain ⟨scope, there, same⟩ := is
  have children : scope.children = (numbered n xs).reverse := by
    have := congrArg BareScope.children same
    simpa [Scope.bare, extend, first] using this
  simp [child?, there, Scope.child?, children, lookup_reverse ((numbered_sublist n xs).nodup names) member]

end Forest

namespace Program

variable {program : Program}

/-- The global scope holds what the program declares outside of functions. -/
theorem bare_global (clear : program.analyze.Clear) : program.analyze.forest.bare[Forest.global]? =
    some (Declared.extend 1 program.declared Forest.globalScope) := by
  rw [bare_analyze clear]
  rfl

/-- Every function of a program without redeclarations is laid out. -/
theorem laidAll_analyze (clear : program.analyze.Clear) :
    Declared.LaidAll program.analyze.forest [Forest.global] 1 program.declared :=
  have bare : program.analyze.forest.bare = [Declared.extend 1 program.declared Forest.globalScope] ++
      Declared.scopesAll [Forest.global] 1 program.declared ++ [] := by
    rw [bare_analyze clear, List.append_nil]
    rfl
  Declared.laidAll_of_bare program.declared bare

end Program

end Pascalize
