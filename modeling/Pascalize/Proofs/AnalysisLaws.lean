import Pascalize.Proofs.ForestLaws
import Pascalize.Scope.Analysis

/-!
# Laws of the analysis

The analysis changes its forest in six ways: it counts a use, looks a type up, inserts a symbol, opens a
scope, gives the symbol of a function its parameters, and closes a scope. For each of them it is said here
once what it needs and what it keeps. `Analysis.Standing` is what holds all the time: the tables of the
forest agree, and the open scopes are the chain of the active one. `Analysis.Precedes` is what stays once it
is there: chains, names, the faces of symbols and complaints. Both hold along one event (`Standing.step`,
`Standing.precedes_step`) and along any number of them (`Standing.play`, `Standing.precedes_play`).

A function is entered in several of these ways, and `Standing.enter_cases` takes it apart.
-/

namespace Pascalize

/-! ## Faces -/

/-- A role without the symbols of a function's parameters. -/
def Role.bare : Role → Role
  | .function _ returns => .function [] returns
  | role => role

theorem Role.bare_eq_var {role : Role} : role.bare = .var ↔ role = .var := by
  cases role <;> simp [bare]

theorem Role.bare_eq_parameter {role : Role} : role.bare = .parameter ↔ role = .parameter := by
  cases role <;> simp [bare]

theorem Role.bare_eq_builtin {role : Role} : role.bare = .builtin ↔ role = .builtin := by
  cases role <;> simp [bare]

namespace Symbol

/-- A symbol without its uses and without the parameters of a function: what of it does not change. -/
def face (s : Symbol) : Symbol :=
  { s with role := s.role.bare, uses := 0 }

@[simp] theorem name_face (s : Symbol) : s.face.name = s.name := rfl

@[simp] theorem role_face (s : Symbol) : s.face.role = s.role.bare := rfl

@[simp] theorem type_face (s : Symbol) : s.face.type = s.type := rfl

@[simp] theorem written_face (s : Symbol) : s.face.written = s.written := rfl

@[simp] theorem face_ofFunction (name returns : String) :
    (ofFunction name returns).face = ofFunction name returns := rfl

/-- Whether a symbol is a type is seen from its face. -/
theorem isType_face (s : Symbol) : s.face.isType = s.isType := by
  rw [isType, isType, role_face, Bool.eq_iff_iff, decide_eq_true_eq, decide_eq_true_eq, Role.bare_eq_builtin]

end Symbol

namespace Forest

variable {f f' f'' : Forest} {s : ScopeId} {name : String} {ref : SymbolId} {symbol : Symbol} {scope : Scope}

/-- The face of a symbol. -/
def face? (f : Forest) (ref : SymbolId) : Option Symbol :=
  (f.symbol? ref).map Symbol.face

theorem face?_eq_none_iff : f.face? ref = none ↔ f.symbol? ref = none :=
  Option.map_eq_none_iff

theorem face?_of_symbol? (is : f.symbol? ref = some symbol) : f.face? ref = some symbol.face :=
  congrArg (Option.map Symbol.face) is

/-- A change that keeps the face of a symbol keeps all faces. -/
theorem face?_modifySymbol (f : Forest) (ref ref' : SymbolId) {g : Symbol → Symbol}
    (same : ∀ symbol, f.symbol? ref = some symbol → (g symbol).face = symbol.face) :
    (f.modifySymbol ref g).face? ref' = f.face? ref' := by
  rw [face?, face?, symbol?_modifySymbol]
  split
  next here =>
    subst here
    cases is : f.symbol? ref with
    | none => rfl
    | some symbol => simp [same symbol is]
  next => rfl

@[simp] theorem face?_resolve (f : Forest) (s : ScopeId) (name : String) (ref : SymbolId) :
    (f.resolve s name).2.face? ref = f.face? ref := by
  obtain ⟨-, same⟩ | ⟨used, -, same⟩ := f.resolve_cases s name <;> rw [same]
  exact f.face?_modifySymbol used ref fun _ _ => rfl

@[simp] theorem face?_openScope (f : Forest) (id : ScopeId) (name : String) (ref : SymbolId) :
    (f.openScope id name).2.face? ref = f.face? ref := by
  rw [face?, symbol?_openScope, face?]

/-- A pushed symbol shows its face at the end of its scope. -/
theorem face?_push (there : f.scope? s = some scope) (symbol : Symbol) (ref : SymbolId) :
    (f.modifyScope s (·.push symbol)).face? ref =
      if ref = ⟨s, scope.symbols.length⟩ then some symbol.face else f.face? ref := by
  rw [face?, face?, symbol?_push there]
  split <;> rfl

/-- The parameters of a function do not show in its face. -/
theorem face?_setRole (f : Forest) {returns : String} {face : Symbol} (is : f.face? ref = some face)
    (role : face.role = .function [] returns) (params : List SymbolId) (ref' : SymbolId) :
    (f.modifySymbol ref fun s => { s with role := .function params returns }).face? ref' =
      f.face? ref' := by
  refine f.face?_modifySymbol ref ref' fun symbol is' => ?_
  rw [face?_of_symbol? is', Option.some.injEq] at is
  subst is
  simp only [Symbol.face] at role ⊢
  rw [role, Role.bare]

/-! ## What stays in a forest -/

/-- What a forest has, a later one has too. -/
structure Precedes (f f' : Forest) : Prop where
  length : f.scopes.length ≤ f'.scopes.length
  chains : ∀ s, s < f.scopes.length → f'.chain s = f.chain s
  names : ∀ s name ref, f.find? s name = some ref → f'.find? s name = some ref
  faces : ∀ ref face, f.face? ref = some face → f'.face? ref = some face

namespace Precedes

theorem refl (f : Forest) : f.Precedes f :=
  ⟨Nat.le_refl _, fun _ _ => rfl, fun _ _ _ found => found, fun _ _ is => is⟩

theorem trans (h : f.Precedes f') (h' : f'.Precedes f'') : f.Precedes f'' where
  length := Nat.le_trans h.length h'.length
  chains s known := (h'.chains s (Nat.lt_of_lt_of_le known h.length)).trans (h.chains s known)
  names s name ref found := h'.names s name ref (h.names s name ref found)
  faces ref face is := h'.faces ref face (h.faces ref face is)

/-- Looking a name up changes nothing but a count. -/
theorem resolve (f : Forest) (s : ScopeId) (name : String) : f.Precedes (f.resolve s name).2 where
  length := by simp
  chains s' _ := by simp
  names s' name' ref found := by simp [found]
  faces ref face is := by simp [is]

/-- A symbol is added behind the others, or not at all. -/
theorem insert (there : f.scope? s = some scope) (symbol : Symbol) : f.Precedes (f.insert s symbol).2 := by
  cases free : f.find? s symbol.name with
  | some existing =>
    rw [insert_of_find? free]
    exact .refl f
  | none =>
    rw [insert_of_free there free]
    refine ⟨by simp, fun s' _ => by simp, fun s' name' ref found => ?_, fun ref face is => ?_⟩
    · have other : ¬ (s = s' ∧ symbol.name = name') := by
        rintro ⟨rfl, rfl⟩
        cases free.symm.trans found
      rw [find?_push there, if_neg other, found]
    · have other : ref ≠ ⟨s, scope.symbols.length⟩ := by
        rintro rfl
        rw [face?, symbol?_fresh there] at is
        cases is
      rw [face?_push there, if_neg other, is]

/-- A scope is added behind the others, and its chain leads through known ones. -/
theorem openScope (h : f.Rooted) (valid : s < f.scopes.length) (name : String) :
    f.Precedes (f.openScope s name).2 where
  length := by rw [length_openScope]; exact Nat.le_succ _
  chains s' known := h.chain_openScope valid name known
  names s' name' ref found := by simp [found]
  faces ref face is := by simp [is]

/-- A function is given its parameters, which its face does not show. -/
theorem setRole {returns : String} {face : Symbol} (is : f.face? ref = some face)
    (role : face.role = .function [] returns) (params : List SymbolId) :
    f.Precedes (f.modifySymbol ref fun s => { s with role := .function params returns }) where
  length := by simp
  chains s _ := by simp
  names s name ref' found := by simp [found]
  faces ref' face' is' := by rw [face?_setRole f is role, is']

end Precedes

/-- An inserted symbol is found under its name. -/
theorem Titled.insert (h : f.Titled) (there : f.scope? s = some scope) (symbol : Symbol) :
    (f.insert s symbol).2.Titled := by
  cases free : f.find? s symbol.name with
  | some existing =>
    rw [insert_of_find? free]
    exact h
  | none =>
    rw [insert_of_free there free]
    exact h.push free

theorem Rooted.insert (h : f.Rooted) (there : f.scope? s = some scope) (symbol : Symbol) :
    (f.insert s symbol).2.Rooted := by
  cases free : f.find? s symbol.name with
  | some existing =>
    rw [insert_of_find? free]
    exact h
  | none =>
    rw [insert_of_free there free]
    exact h.push s symbol

/-- The symbol that is found under a face's name has this face. -/
theorem Titled.name_of_face? (h : f.Titled) {face : Symbol} (found : f.find? s name = some ref)
    (is : f.face? ref = some face) : face.name = name := by
  obtain ⟨symbol, there, rfl⟩ := Option.map_eq_some_iff.1 is
  rw [Symbol.name_face, h.name_of_find? found there]

end Forest

/-! ## What the analysis keeps -/

namespace Analysis

open Forest

variable {a a' a'' : Analysis}

/-- The tables of the forest agree, and the open scopes are the chain of the active one. -/
structure Standing (a : Analysis) : Prop where
  rooted : a.forest.Rooted
  titled : a.forest.Titled
  chain : a.forest.chain a.active = a.opened ++ [Forest.global]

/-- What one analysis has, a later one has too. Complaints are added only, none of them about a missing
`main`. -/
structure Precedes (a a' : Analysis) : Prop where
  forest : a.forest.Precedes a'.forest
  adds : ∃ more, a'.diagnostics = a.diagnostics ++ more ∧ ∀ d ∈ more, d.complaint ≠ .missingMain

/-- The active scope stays so, and no scope is opened. -/
structure Stays (a a' : Analysis) : Prop extends Precedes a a' where
  opened : a'.opened = a.opened
  length : a'.forest.scopes.length = a.forest.scopes.length

namespace Precedes

theorem refl (a : Analysis) : a.Precedes a :=
  ⟨.refl a.forest, [], by simp⟩

/-- What stays along two runs stays along both in turn. -/
theorem trans (h : a.Precedes a') (h' : a'.Precedes a'') : a.Precedes a'' := by
  obtain ⟨more, same, named⟩ := h.adds
  obtain ⟨more', same', named'⟩ := h'.adds
  exact ⟨h.forest.trans h'.forest, more ++ more', by rw [same', same, List.append_assoc],
    List.forall_mem_append.2 ⟨named, named'⟩⟩

/-- A change to the forest alone. -/
theorem of_forest {forest : Forest} (h : a.forest.Precedes forest) : a.Precedes { a with forest } :=
  ⟨h, [], by simp⟩

/-- Closing a scope leaves the forest as it is. -/
theorem leave (a : Analysis) : a.Precedes a.leave :=
  ⟨.refl a.forest, [], by simp [Analysis.leave]⟩

/-- Complaints are added behind the others. -/
theorem reports (h : a.Precedes a') : a.diagnostics <+: a'.diagnostics := by
  obtain ⟨more, same, -⟩ := h.adds
  exact ⟨more, same.symm⟩

end Precedes

namespace Stays

theorem refl (a : Analysis) : a.Stays a :=
  ⟨.refl a, rfl, rfl⟩

theorem trans (h : a.Stays a') (h' : a'.Stays a'') : a.Stays a'' :=
  ⟨h.toPrecedes.trans h'.toPrecedes, h'.opened.trans h.opened, h'.length.trans h.length⟩

theorem active (h : a.Stays a') : a'.active = a.active := by
  rw [Analysis.active, Analysis.active, h.opened]

theorem report (a : Analysis) {complaint : Complaint} (named : complaint ≠ .missingMain)
    (location : Location) : a.Stays (a.report complaint location) :=
  ⟨⟨.refl a.forest, [⟨complaint, location⟩], rfl, by simpa using named⟩, rfl, rfl⟩

end Stays

/-! ## References and types -/

/-- A reference resolves its name, whatever comes of it. -/
theorem forest_refer (a : Analysis) (name : String) (location : Location) :
    (a.refer name location).forest = (a.forest.resolve a.active name).2 := by
  rw [refer, resolve]
  cases a.forest.lookup a.active name <;> rfl

/-- The complaint about an undefined name is the only one. -/
theorem stays_refer (a : Analysis) (name : String) (location : Location) :
    a.Stays (a.refer name location) := by
  rw [refer]
  split
  next ref forest is =>
    have same : forest = (a.forest.resolve a.active name).2 := by rw [is]
    rw [same]
    exact ⟨.of_forest (.resolve a.forest a.active name), rfl, by simp⟩
  next => exact .report a (by simp) location

/-- The name of a type is resolved as well, which counts it as used. -/
theorem forest_useType (a : Analysis) (type : TypeName) :
    (a.useType type).2.forest = (a.forest.resolve a.active type.base).2 := by
  rw [useType]
  simp only
  split <;> rfl

/-- The complaint about an undefined type is the only one. -/
theorem stays_useType (a : Analysis) (type : TypeName) : a.Stays (a.useType type).2 := by
  have found : a.Stays { a with forest := (a.forest.resolve a.active type.base).2 } :=
    ⟨.of_forest (.resolve a.forest a.active type.base), rfl, by simp⟩
  rw [useType]
  simp only
  split
  · exact found
  · exact found.trans (.report _ (by simp) _)

/-! ## Inserting -/

/-- A symbol is inserted in the active scope, whether or not its name is taken. -/
theorem forest_insert (a : Analysis) (symbol : Symbol) (location : Location) :
    (a.insert symbol location).2.forest = (a.forest.insert a.active symbol).2 := by
  rw [insert, Forest.insert]
  cases a.forest.find? a.active symbol.name <;> rfl

/-- A symbol whose name is taken gives a complaint. -/
theorem insert_of_taken {symbol : Symbol} {existing : SymbolId}
    (taken : a.forest.find? a.active symbol.name = some existing) (location : Location) :
    a.insert symbol location = (.clash existing, a.report (.redeclared symbol.name) location) := by
  rw [insert, insert_of_find? taken]

/-- A symbol whose name is free comes into the active scope. -/
theorem insert_of_free {symbol : Symbol} {scope : Scope} (there : a.forest.scope? a.active = some scope)
    (free : a.forest.find? a.active symbol.name = none) (location : Location) :
    a.insert symbol location = (.inserted ⟨a.active, scope.symbols.length⟩,
      { a with forest := a.forest.modifyScope a.active (·.push symbol) }) := by
  rw [insert, Forest.insert_of_free there free]

namespace Standing

/-- The active scope is one of the forest. -/
theorem scope (h : a.Standing) : ∃ scope, a.forest.scope? a.active = some scope := by
  have chain := h.chain
  cases is : a.opened <;> rw [is] at chain <;> exact scope?_of_chain chain

/-- The active scope is one of the forest. -/
theorem known (h : a.Standing) : a.active < a.forest.scopes.length :=
  scope?_isSome_iff.1 h.scope

theorem indexed (h : a.Standing) : a.forest.Indexed :=
  h.titled.indexed

/-- What stays is enough, if the tables agree again. -/
theorem of_stays (h : a.Standing) (stays : a.Stays a') (rooted : a'.forest.Rooted)
    (titled : a'.forest.Titled) : a'.Standing where
  rooted := rooted
  titled := titled
  chain := by rw [stays.active, stays.opened, stays.forest.chains _ h.known, h.chain]

/-- Counting a use keeps the tables of the forest in step. -/
theorem refer (h : a.Standing) (name : String) (location : Location) : (a.refer name location).Standing := by
  refine h.of_stays (a.stays_refer name location) ?_ ?_ <;> rw [forest_refer]
  · exact h.rooted.resolve _ _
  · exact h.titled.resolve _ _

theorem useType (h : a.Standing) (type : TypeName) : (a.useType type).2.Standing := by
  refine h.of_stays (a.stays_useType type) ?_ ?_ <;> rw [forest_useType]
  · exact h.rooted.resolve _ _
  · exact h.titled.resolve _ _

/-- The complaint about a name that is taken is the only one. -/
theorem stays_insert (h : a.Standing) (symbol : Symbol) (location : Location) :
    a.Stays (a.insert symbol location).2 := by
  obtain ⟨scope, there⟩ := h.scope
  cases free : a.forest.find? a.active symbol.name with
  | some existing =>
    rw [insert_of_taken free]
    exact .report a (by simp) location
  | none =>
    have precedes := Forest.Precedes.insert there symbol
    rw [Forest.insert_of_free there free] at precedes
    rw [insert_of_free there free]
    exact ⟨.of_forest precedes, rfl, length_modifyScope _ _ _⟩

/-- Inserting keeps the tables of the forest in step. -/
theorem insert (h : a.Standing) (symbol : Symbol) (location : Location) :
    (a.insert symbol location).2.Standing := by
  obtain ⟨scope, there⟩ := h.scope
  refine h.of_stays (h.stays_insert symbol location) ?_ ?_ <;> rw [forest_insert]
  · exact h.rooted.insert there symbol
  · exact h.titled.insert there symbol

/-- A name that is found after a symbol was inserted was found before, or it is that of the symbol. -/
theorem of_find?_insert (h : a.Standing) {symbol : Symbol} {location : Location} {s : ScopeId}
    {name : String} {ref : SymbolId}
    (found : (a.insert symbol location).2.forest.find? s name = some ref) :
    a.forest.find? s name = some ref ∨
      (a.insert symbol location).2.forest.face? ref = some symbol.face := by
  obtain ⟨scope, there⟩ := h.scope
  cases free : a.forest.find? a.active symbol.name with
  | some existing =>
    rw [insert_of_taken free] at found
    exact .inl found
  | none =>
    rw [insert_of_free there free] at found ⊢
    simp only [find?_push there] at found
    split at found
    next =>
      obtain rfl := Option.some.inj found
      exact .inr ((face?_push there symbol _).trans (if_pos rfl))
    next => exact .inl found

end Standing

/-! ## Declarations -/

/-- The symbol of a declared name. -/
def declared (a : Analysis) (role : Role) (decl : Declaration) : Symbol :=
  ⟨decl.name, role, (a.useType decl.type).1, some decl.type.base, 0⟩

/-- **A declaration** looks its type up and inserts its symbol. -/
theorem declare_snd (a : Analysis) (role : Role) (decl : Declaration) :
    (a.declare role decl).2 =
      ((a.useType decl.type).2.insert (a.declared role decl) decl.location).2 := by
  rw [declare, declared]
  rcases a.useType decl.type with ⟨type, a₁⟩
  simp only
  split
  next inserted => rw [inserted]
  next clash => rw [clash]

theorem declareParams_cons_snd (a : Analysis) (decl : Declaration) (params : List Declaration) :
    (a.declareParams (decl :: params)).2 = ((a.declare .parameter decl).2.declareParams params).2 :=
  rfl

namespace Standing

theorem stays_declare (h : a.Standing) (role : Role) (decl : Declaration) :
    a.Stays (a.declare role decl).2 := by
  rw [declare_snd]
  exact (a.stays_useType decl.type).trans ((h.useType decl.type).stays_insert _ _)

theorem declare (h : a.Standing) (role : Role) (decl : Declaration) : (a.declare role decl).2.Standing := by
  rw [declare_snd]
  exact (h.useType decl.type).insert _ _

/-- The symbol that a declaration gives has its name in the active scope. -/
theorem find?_declare (h : a.Standing) (role : Role) (decl : Declaration) :
    (a.declare role decl).2.forest.find? a.active decl.name = some (a.declare role decl).1 := by
  obtain ⟨scope, there⟩ := (h.useType decl.type).scope
  rw [← (a.stays_useType decl.type).active, Analysis.declare]
  generalize a.useType decl.type = used at there ⊢
  obtain ⟨type, a₁⟩ := used
  simp only at there ⊢
  cases free : a₁.forest.find? a₁.active decl.name with
  | some existing =>
    rw [insert_of_taken free]
    exact free
  | none =>
    rw [insert_of_free there free]
    exact (find?_push there _ _ _).trans (if_pos ⟨rfl, rfl⟩)

/-- Parameters are declared one after the other. -/
theorem declareParams (h : a.Standing) (params : List Declaration) :
    (a.declareParams params).2.Standing ∧ a.Stays (a.declareParams params).2 := by
  induction params generalizing a with
  | nil => exact ⟨h, .refl a⟩
  | cons decl params ih =>
    obtain ⟨standing, stays⟩ := ih (h.declare .parameter decl)
    rw [declareParams_cons_snd]
    exact ⟨standing, (h.stays_declare .parameter decl).trans stays⟩

/-- Parameters go to the active scope only. -/
theorem find?_declareParams (h : a.Standing) (params : List Declaration) {s : ScopeId}
    (other : a.active ≠ s) (name : String) :
    (a.declareParams params).2.forest.find? s name = a.forest.find? s name := by
  induction params generalizing a with
  | nil => rfl
  | cons decl params ih =>
    obtain ⟨scope, there⟩ := (h.useType decl.type).scope
    have active := (a.stays_useType decl.type).active
    have typed : (a.useType decl.type).2.forest.find? s name = a.forest.find? s name := by
      rw [forest_useType, find?_resolve]
    rw [declareParams_cons_snd,
      ih (h.declare .parameter decl) ((h.stays_declare .parameter decl).active ▸ other), declare_snd,
      forest_insert]
    cases free : (a.useType decl.type).2.forest.find? (a.useType decl.type).2.active
        (a.declared .parameter decl).name with
    | some existing => rw [insert_of_find? free, typed]
    | none =>
      rw [Forest.insert_of_free there free, find?_push there, if_neg, typed]
      rw [active]
      exact fun here => other here.1

end Standing

/-! ## Functions -/

theorem active_openScope (a : Analysis) (name : String) :
    (a.openScope name).active = a.forest.scopes.length :=
  rfl

namespace Standing

/-- Opening a scope moves on to it and complains of nothing. -/
theorem precedes_openScope (h : a.Standing) (name : String) : a.Precedes (a.openScope name) :=
  ⟨.openScope h.rooted h.known name, [], by simp [Analysis.openScope]⟩

/-- A new scope stands at the head of the open ones, and its chain is theirs. -/
theorem openScope (h : a.Standing) (name : String) : (a.openScope name).Standing where
  rooted := h.rooted.openScope h.known name
  titled := h.titled.openScope a.active name
  chain := by
    rw [active_openScope]
    exact (h.rooted.chain_openScope_fresh h.known name).trans (congrArg _ h.chain)

/-- The scope around the closed one is the next of its chain. -/
theorem leave (h : a.Standing) : a.leave.Standing where
  rooted := h.rooted
  titled := h.titled
  chain := by
    have chain := h.chain
    rw [active] at chain
    rw [Analysis.leave, active]
    simp only
    cases is : a.opened with
    | nil =>
      rw [is] at chain
      exact chain
    | cons s rest =>
      rw [is] at chain
      cases rest with
      | nil => exact h.rooted.chain_global
      | cons s' rest =>
        have around : a.forest.chain s = [s] ++ s' :: (rest ++ [Forest.global]) := chain
        exact h.rooted.chain_of_chain around

/-- The symbol of a function gets its parameters. -/
theorem stays_sign {ref : SymbolId} {name returns : String}
    (is : a.forest.face? ref = some (.ofFunction name returns)) (params : List SymbolId) :
    a.Stays (a.sign ref params returns) :=
  ⟨.of_forest (.setRole is rfl params), rfl, length_modifySymbol _ _ _⟩

/-- Signing a function changes a role only. -/
theorem sign (h : a.Standing) {ref : SymbolId} {name returns : String}
    (is : a.forest.face? ref = some (.ofFunction name returns)) (params : List SymbolId) :
    (a.sign ref params returns).Standing :=
  h.of_stays (stays_sign is params) (h.rooted.modifySymbol ref _) (h.titled.modifySymbol ref fun _ => rfl)

end Standing

/-- A function with its name, its scope and its parameters in place, but for those of its symbol. -/
def headed (a : Analysis) (returns name : String) (params : List Declaration) (location : Location) :
    List SymbolId × Analysis :=
  ((a.insert (.ofFunction name returns) location).2.openScope name).declareParams params

namespace Standing

variable (returns name : String) (params : List Declaration) (location : Location)

/-- The scope of a function is inside the active one. -/
theorem headed (h : a.Standing) : (a.headed returns name params location).2.Standing ∧
    a.Precedes (a.headed returns name params location).2 ∧
    (a.headed returns name params location).2.opened = a.forest.scopes.length :: a.opened ∧
    (a.headed returns name params location).2.forest.scopes.length = a.forest.scopes.length + 1 := by
  have named := h.insert (.ofFunction name returns) location
  have stays := h.stays_insert (.ofFunction name returns) location
  obtain ⟨standing, more⟩ := (named.openScope name).declareParams params
  refine ⟨standing, (stays.toPrecedes.trans (named.precedes_openScope name)).trans more.toPrecedes, ?_, ?_⟩
  · rw [Analysis.headed, more.opened, ← stays.opened, ← stays.length]
    rfl
  · rw [Analysis.headed, more.length, ← stays.length]
    exact length_openScope _ _ _

/-- A function is entered with its heading in place. If its name was free, its symbol is new in the scope
around, and gets its parameters then. -/
theorem enter_cases (h : a.Standing) :
    (∃ existing, a.forest.find? a.active name = some existing ∧
      a.enter returns name params location = (a.headed returns name params location).2) ∨
    ∃ ref, a.forest.find? a.active name = none ∧
      (a.insert (.ofFunction name returns) location).2.forest.find? a.active name = some ref ∧
      (a.headed returns name params location).2.forest.find? a.active name = some ref ∧
      (a.headed returns name params location).2.forest.face? ref = some (.ofFunction name returns) ∧
      a.enter returns name params location = (a.headed returns name params location).2.sign ref
        (a.headed returns name params location).1 returns := by
  have named := h.insert (.ofFunction name returns) location
  have later := (named.precedes_openScope name).trans ((named.openScope name).declareParams params).2.toPrecedes
  obtain ⟨scope, there⟩ := h.scope
  cases free : a.forest.find? a.active name with
  | some existing =>
    left
    rw [enter, Analysis.headed, insert_of_taken free]
    exact ⟨existing, rfl, rfl⟩
  | none =>
    right
    have inserted : a.insert (.ofFunction name returns) location =
        (.inserted ⟨a.active, scope.symbols.length⟩,
          { a with forest := a.forest.modifyScope a.active (·.push (.ofFunction name returns)) }) :=
      insert_of_free there free location
    have found := (find?_push there (.ofFunction name returns) a.active name).trans (if_pos ⟨rfl, rfl⟩)
    have is := (face?_push there (.ofFunction name returns) _).trans (if_pos rfl)
    rw [inserted] at later
    rw [enter, Analysis.headed, inserted]
    exact ⟨⟨a.active, scope.symbols.length⟩, rfl, found, later.forest.names _ _ _ found,
      later.forest.faces _ _ is, rfl⟩

/-- **Entering a function** keeps everything, complaints included, and opens one scope behind the others.
-/
theorem enter (h : a.Standing) : (a.enter returns name params location).Standing ∧
    a.Precedes (a.enter returns name params location) ∧
    (a.enter returns name params location).opened = a.forest.scopes.length :: a.opened ∧
    (a.enter returns name params location).forest.scopes.length = a.forest.scopes.length + 1 := by
  obtain ⟨standing, precedes, opened, length⟩ := h.headed returns name params location
  obtain ⟨existing, -, same⟩ | ⟨ref, -, -, -, is, same⟩ := h.enter_cases returns name params location
  · rw [same]
    exact ⟨standing, precedes, opened, length⟩
  · have stays := stays_sign is (a.headed returns name params location).1
    rw [same]
    exact ⟨standing.sign is _, precedes.trans stays.toPrecedes, opened, stays.length.trans length⟩

/-- The new scope is active in a function. -/
theorem active_enter (h : a.Standing) :
    (a.enter returns name params location).active = a.forest.scopes.length := by
  rw [active, (h.enter returns name params location).2.2.1]
  rfl

end Standing

/-! ## Events -/

theorem play_append (a : Analysis) (before after : List Event) :
    a.play (before ++ after) = (a.play before).play after :=
  List.foldl_append

namespace Standing

/-- One event. -/
theorem step (h : a.Standing) (e : Event) : (a.step e).Standing := by
  cases e with
  | refer name location => exact h.refer name location
  | declare decl => exact h.declare .var decl
  | enter returns name params location => exact (h.enter returns name params location).1
  | leave => exact h.leave

/-- What one event leaves. -/
theorem precedes_step (h : a.Standing) (e : Event) : a.Precedes (a.step e) := by
  cases e with
  | refer name location => exact (a.stays_refer name location).toPrecedes
  | declare decl => exact (h.stays_declare .var decl).toPrecedes
  | enter returns name params location => exact (h.enter returns name params location).2.1
  | leave => exact .leave a

/-- Events in turn. -/
theorem play (h : a.Standing) (events : List Event) : (a.play events).Standing := by
  induction events generalizing a with
  | nil => exact h
  | cons e events ih => exact ih (h.step e)

/-- What a run leaves, by induction on its events. -/
theorem precedes_play (h : a.Standing) (events : List Event) : a.Precedes (a.play events) := by
  induction events generalizing a with
  | nil => exact .refl a
  | cons e events ih => exact (h.precedes_step e).trans (ih (h.step e))

theorem start : ({} : Analysis).Standing :=
  ⟨rooted_start, titled_start, rfl⟩

end Standing

end Analysis

/-- The last check adds a complaint at most, so the forest is that of the run. -/
theorem Program.forest_analyze (program : Program) : program.analyze.forest =
    (({} : Analysis).play (Node.eventsAll program.statements)).forest := by
  rw [Program.analyze]
  split <;> rfl

/-- The tables of an analyzed program agree. -/
theorem Program.titled_analyze (program : Program) : program.analyze.forest.Titled := by
  rw [forest_analyze]
  exact (Analysis.Standing.start.play _).titled

/-- **The scopes of a program** are rooted in the global one. -/
theorem Program.rooted_analyze (program : Program) : program.analyze.forest.Rooted := by
  rw [forest_analyze]
  exact (Analysis.Standing.start.play _).rooted

end Pascalize
