import Pascalize.Proofs.ScopeAgreement

/-!
# Signatures of functions

A function leaves three things behind: a symbol in the scope it is defined in, a scope of its own under
its name there, and its parameters in that scope, which the symbol lists. A name that is taken stays with
its first symbol, while the scope under a name is the latest. So the symbol and its parameters are those
of the first definition of the name in a scope, and the scope under the name is that of the last
(`Signs`). They are of one definition unless the function is defined again.
-/

namespace Pascalize

/-- Whether a function is one of that name in scope `s`. -/
def Scoping.defines (s : ScopeId) (name : String) (d : Scoping) : Bool :=
  d.outside = s && d.name = name

theorem Scoping.defines_iff {s : ScopeId} {name : String} {d : Scoping} :
    d.defines s name = true ↔ d.outside = s ∧ d.name = name := by
  simp [defines]

namespace Forest

variable {f : Forest} {s : ScopeId} {ref : SymbolId}

/-- The name and the role of a symbol. -/
def sight? (f : Forest) (ref : SymbolId) : Option (String × Role) :=
  (f.symbol? ref).map fun symbol => (symbol.name, symbol.role)

/-- What a symbol is called and what it names stays. -/
def Sees (f f' : Forest) : Prop :=
  ∀ ref x, f.sight? ref = some x → f'.sight? ref = some x

@[simp] theorem sight?_resolve (f : Forest) (s : ScopeId) (name : String) (ref : SymbolId) :
    (f.resolve s name).2.sight? ref = f.sight? ref := by
  obtain ⟨-, same⟩ | ⟨used, -, same⟩ := f.resolve_cases s name <;> rw [same]
  rw [sight?, symbol?_modifySymbol, sight?]
  split
  · simp [Function.comp_def]
  · rfl

/-- A pushed symbol is seen at the end of its scope. -/
theorem sight?_push {scope : Scope} (there : f.scope? s = some scope) (symbol : Symbol)
    (ref : SymbolId) : (f.modifyScope s (·.push symbol)).sight? ref =
      if ref = ⟨s, scope.symbols.length⟩ then some (symbol.name, symbol.role) else f.sight? ref := by
  rw [sight?, sight?, symbol?_push there]
  split <;> rfl

/-- Uses are not seen. -/
theorem sees_resolve (f : Forest) (s : ScopeId) (name : String) : f.Sees (f.resolve s name).2 := by
  intro ref x is
  rw [sight?_resolve, is]

theorem sees_push {scope : Scope} (there : f.scope? s = some scope) (symbol : Symbol) :
    f.Sees (f.modifyScope s (·.push symbol)) := by
  intro ref x is
  have other : ref ≠ ⟨s, scope.symbols.length⟩ := by
    rintro rfl
    rw [sight?, symbol?_fresh there] at is
    cases is
  rw [sight?_push there, if_neg other, is]

/-- Inserting hides nothing. -/
theorem sees_insert {scope : Scope} (there : f.scope? s = some scope) (symbol : Symbol) :
    f.Sees (f.insert s symbol).2 := by
  cases free : f.find? s symbol.name with
  | some existing =>
    rw [insert_of_find? free]
    exact fun _ _ is => is
  | none =>
    rw [insert_of_free there free]
    exact sees_push there symbol

/-- What is seen after inserting was seen before or is what was inserted. -/
theorem of_sight?_insert {scope : Scope} (there : f.scope? s = some scope) {symbol : Symbol}
    {x : String × Role} (is : (f.insert s symbol).2.sight? ref = some x) :
    f.sight? ref = some x ∨ x = (symbol.name, symbol.role) := by
  cases free : f.find? s symbol.name with
  | some existing =>
    rw [insert_of_find? free] at is
    exact .inl is
  | none =>
    rw [insert_of_free there free, sight?_push there] at is
    split at is
    · exact .inr (Option.some.inj is).symm
    · exact .inl is

@[simp] theorem sight?_openScope (f : Forest) (id : ScopeId) (name : String) (ref : SymbolId) :
    (f.openScope id name).2.sight? ref = f.sight? ref := by
  rw [sight?, symbol?_openScope, sight?]

theorem sight?_setRole (f : Forest) (ref ref' : SymbolId) (role : Role) :
    (f.modifySymbol ref fun symbol => { symbol with role }).sight? ref' =
      if ref = ref' then (f.sight? ref').map fun x => (x.1, role) else f.sight? ref' := by
  rw [sight?, symbol?_modifySymbol, sight?]
  split
  · simp [Function.comp_def]
  · rfl

/-- The symbol that is found under a name has this name. -/
theorem Titled.sight?_of_find? (h : f.Titled) {name : String} (found : f.find? s name = some ref) :
    ∃ role, f.sight? ref = some (name, role) := by
  obtain ⟨symbol, is⟩ := h.indexed.symbol?_of_find? found
  exact ⟨symbol.role, by rw [sight?, is, Option.map_some, h.name_of_find? found is]⟩

theorem child?_modifyScope (f : Forest) (id : ScopeId) (g : Scope → Scope)
    (keeps : ∀ scope, (g scope).children = scope.children) (s : ScopeId) (name : String) :
    (f.modifyScope id g).child? s name = f.child? s name := by
  rw [child?, child?, scope?_modifyScope]
  split
  · cases f.scope? s <;> simp [Scope.child?, keeps]
  · rfl

theorem child?_resolve (f : Forest) (s : ScopeId) (name : String) (s' : ScopeId) (name' : String) :
    (f.resolve s name).2.child? s' name' = f.child? s' name' := by
  obtain ⟨-, same⟩ | ⟨used, -, same⟩ := f.resolve_cases s name <;> rw [same]
  exact f.child?_modifyScope _ (·.modify _ _) (fun _ => rfl) s' name'

/-- The scope that was opened last under a name is the one that is found. -/
theorem child?_openScope {id : ScopeId} (valid : id < f.scopes.length) (name : String) (s : ScopeId)
    (name' : String) : (f.openScope id name).2.child? s name' =
      if id = s ∧ name = name' then some f.scopes.length else f.child? s name' := by
  rw [child?, scope?_openScope]
  by_cases new : s = f.scopes.length
  · have other : id ≠ s := by
      rintro rfl
      exact Nat.lt_irrefl _ (new ▸ valid)
    simp [new, child?, scope?_length, Scope.child?, opened, new ▸ other]
  · rw [if_neg new]
    by_cases same : id = s
    · subst same
      obtain ⟨scope, there⟩ : ∃ scope, f.scope? id = some scope := ⟨_, List.getElem?_eq_getElem valid⟩
      by_cases named : name = name'
      · simp [there, named, Scope.child?]
      · have other : (name' == name) = false := by simpa using Ne.symm named
        simp [there, named, Scope.child?, child?, List.lookup_cons, other]
    · simp [same, child?]

end Forest

/-- The symbol is a parameter of the function, with the name of `decl`. -/
structure Scoping.Declares (d : Scoping) (f : Forest) (ref : SymbolId) (decl : Declaration) : Prop where
  inside : d.own = some ref.scope
  sight : f.sight? ref = some (decl.name, .parameter)

/-- What a function declares stays in sight. -/
theorem Scoping.Declares.mono {d : Scoping} {f f' : Forest} (sees : f.Sees f') {ref : SymbolId}
    {decl : Declaration} (h : d.Declares f ref decl) : d.Declares f' ref decl :=
  ⟨h.inside, sees _ _ h.sight⟩

/-- What functions that were defined, in the order of the text, have left in a forest. The symbol `open?`
has not got its parameters yet. -/
structure Signs (past : List Scoping) (open? : Option SymbolId) (f : Forest) : Prop where
  owned : ∀ d ∈ past, ∃ own, d.own = some own ∧ own < f.scopes.length
  apart : (past.map Scoping.own).Nodup
  taken : ∀ d ∈ past, f.find? d.outside d.name ≠ none
  /-- The scope under a name is that of the last definition. -/
  child : ∀ s name, f.child? s name = ((past.filter (·.defines s name)).getLast?).bind Scoping.own
  /-- A symbol is that of the first definition, and so are its parameters. -/
  signature : ∀ ref name params returns, open? ≠ some ref →
    f.sight? ref = some (name, .function params returns) → ∃ first,
      (past.filter (·.defines ref.scope name)).head? = some first ∧ first.definition.returns = returns ∧
      List.Forall₂ (first.Declares f) params first.definition.params

namespace Signs

open Forest

variable {past : List Scoping} {open? : Option SymbolId} {f : Forest} {s : ScopeId} {ref : SymbolId}

theorem resolve (h : Signs past open? f) (s : ScopeId) (name : String) :
    Signs past open? (f.resolve s name).2 where
  owned := by
    rw [length_resolve]
    exact h.owned
  apart := h.apart
  taken d member := by
    rw [find?_resolve]
    exact h.taken d member
  child s' name' := by
    rw [child?_resolve]
    exact h.child s' name'
  signature ref name' params returns closed is := by
    rw [sight?_resolve] at is
    obtain ⟨first, isFirst, same, each⟩ := h.signature ref name' params returns closed is
    exact ⟨first, isFirst, same, each.imp fun _ _ declares => declares.mono (f.sees_resolve s name)⟩

/-- A symbol comes into a scope. If it is a function, it is open for its parameters. -/
theorem push (h : Signs past open? f) {scope : Scope} (there : f.scope? s = some scope) {symbol : Symbol}
    {still? : Option SymbolId} (covers : ∀ ref, open? = some ref → still? = some ref)
    (new : (∀ params returns, symbol.role ≠ .function params returns) ∨
      still? = some ⟨s, scope.symbols.length⟩) :
    Signs past still? (f.modifyScope s (·.push symbol)) where
  owned := by simpa using h.owned
  apart := h.apart
  taken d member := by
    obtain ⟨ref, found⟩ := Option.ne_none_iff_exists'.1 (h.taken d member)
    rw [find?_push there]
    split
    · simp
    · simp [found]
  child s' name' := by
    rw [f.child?_modifyScope s (·.push symbol) fun _ => rfl]
    exact h.child s' name'
  signature ref name' params returns closed is := by
    rw [sight?_push there] at is
    split at is
    next here =>
      obtain ⟨-, role⟩ := Prod.mk.inj (Option.some.inj is)
      obtain plain | opened := new
      · exact absurd role (plain params returns)
      · exact absurd (here ▸ opened) closed
    next =>
      obtain ⟨first, isFirst, same, each⟩ := h.signature ref name' params returns
        (fun still => closed (covers ref still)) is
      exact ⟨first, isFirst, same, each.imp fun _ _ declares => declares.mono (sees_push there symbol)⟩

/-- A symbol that is no function signs nothing. -/
theorem insert (h : Signs past open? f) {scope : Scope} (there : f.scope? s = some scope) {symbol : Symbol}
    (plain : ∀ params returns, symbol.role ≠ .function params returns) :
    Signs past open? (f.insert s symbol).2 := by
  cases free : f.find? s symbol.name with
  | some existing =>
    rw [insert_of_find? free]
    exact h
  | none =>
    rw [insert_of_free there free]
    exact h.push there (fun _ is => is) (.inl plain)

/-- A function whose name is taken gets its scope. -/
theorem openScope (h : Signs past open? f) (valid : s < f.scopes.length) {d : Definition}
    (taken : f.find? s d.name ≠ none) (inner : List Scoping) :
    Signs (past ++ [Scoping.mk d s (some f.scopes.length) inner]) open? (f.openScope s d.name).2 where
  owned := by
    rw [length_openScope]
    intro e member
    obtain old | last := List.mem_append.1 member
    · obtain ⟨own, is, less⟩ := h.owned e old
      exact ⟨own, is, Nat.lt_succ_of_lt less⟩
    · obtain rfl := List.mem_singleton.1 last
      exact ⟨_, rfl, Nat.lt_succ_self _⟩
  apart := by
    rw [List.map_append, List.nodup_append]
    refine ⟨h.apart, by simp, ?_⟩
    rintro _ old _ last rfl
    obtain ⟨e, member, same⟩ := List.mem_map.1 old
    obtain ⟨own, is, less⟩ := h.owned e member
    rw [List.map_singleton, List.mem_singleton] at last
    rw [is, last] at same
    exact absurd (Option.some.inj same) (Nat.ne_of_lt less)
  taken e member := by
    rw [find?_openScope]
    obtain old | last := List.mem_append.1 member
    · exact h.taken e old
    · obtain rfl := List.mem_singleton.1 last
      exact taken
  child s' name' := by
    rw [child?_openScope valid, List.filter_append, List.filter_singleton]
    by_cases here : s = s' ∧ d.name = name'
    · simp [here, Scoping.defines, Scoping.outside, Scoping.name, Scoping.definition, Scoping.own]
    · have other : Scoping.defines s' name' (.mk d s (some f.scopes.length) inner) = false :=
        Bool.eq_false_iff.2 (mt Scoping.defines_iff.1 here)
      rw [if_neg here, other, cond_false, List.append_nil]
      exact h.child s' name'
  signature ref name' params returns closed is := by
    rw [sight?_openScope] at is
    obtain ⟨first, isFirst, same, each⟩ := h.signature ref name' params returns closed is
    refine ⟨first, ?_, same, each.imp fun _ _ declares => declares.mono ?_⟩
    · rw [List.filter_append, List.head?_append, isFirst, Option.some_or]
    · exact fun ref x is => by rw [sight?_openScope, is]

/-- A function gets its parameters. -/
theorem close {name returns : String} {params : List SymbolId} (h : Signs past (some ref) f)
    (first : Scoping) (is : f.sight? ref = some (name, .function [] returns))
    (isFirst : (past.filter (·.defines ref.scope name)).head? = some first)
    (same : first.definition.returns = returns)
    (each : List.Forall₂ (first.Declares f) params first.definition.params) :
    Signs past none (f.modifySymbol ref fun symbol => { symbol with role := .function params returns }) where
  owned := by simpa [modifySymbol] using h.owned
  apart := h.apart
  taken d member := by
    rw [find?_modifySymbol]
    exact h.taken d member
  child s' name' := by
    rw [modifySymbol, f.child?_modifyScope _ (·.modify ref.position _) fun _ => rfl]
    exact h.child s' name'
  signature ref' name' params' returns' _ is' := by
    -- The parameters are no functions, so their symbols are others.
    have kept : ∀ {d : Scoping} {p decl}, d.Declares f p decl → d.Declares
        (f.modifySymbol ref fun symbol => { symbol with role := .function params returns }) p decl := by
      intro d p decl declares
      refine ⟨declares.inside, ?_⟩
      have other : ref ≠ p := by
        rintro rfl
        simpa [is] using declares.sight
      rw [sight?_setRole, if_neg other, declares.sight]
    rw [sight?_setRole] at is'
    split at is'
    next here =>
      subst here
      simp only [is, Option.map_some, Option.some.injEq, Prod.mk.injEq, Role.function.injEq] at is'
      obtain ⟨rfl, rfl, rfl⟩ := is'
      exact ⟨first, isFirst, same, each.imp fun _ _ => kept⟩
    next other =>
      obtain ⟨first', isFirst', same', each'⟩ := h.signature ref' name' params' returns'
        (fun here => other (Option.some.inj here)) is'
      exact ⟨first', isFirst', same', each'.imp fun _ _ => kept⟩

/-- A name that is free has not been defined. -/
theorem none_of_free (h : Signs past open? f) {name : String} (free : f.find? s name = none) :
    past.filter (·.defines s name) = [] := by
  rw [List.filter_eq_nil_iff]
  intro d member defines
  obtain ⟨rfl, rfl⟩ := Scoping.defines_iff.1 defines
  exact h.taken d member free

end Signs

/-! ## Along an analysis -/

namespace Forest

/-- A scope that holds nothing but parameters. -/
def OnlyParameters (f : Forest) (s : ScopeId) : Prop :=
  ∀ ref x, ref.scope = s → f.sight? ref = some x → x.2 = .parameter

/-- A new scope has nothing but parameters, as it has nothing. -/
theorem onlyParameters_openScope (f : Forest) (id : ScopeId) (name : String) :
    (f.openScope id name).2.OnlyParameters f.scopes.length := by
  intro ref x here is
  rw [sight?_openScope, sight?, symbol?_eq, here, scope?_length] at is
  cases is

/-- At the start there are only builtin types. -/
theorem role_start {ref : SymbolId} {x : String × Role} (is : start.sight? ref = some x) :
    x.2 = .builtin := by
  obtain ⟨symbol, there, rfl⟩ := Option.map_eq_some_iff.1 is
  obtain ⟨scope, inForest, here⟩ := Option.bind_eq_some_iff.1 there
  rw [scope?_start] at inForest
  split at inForest
  · obtain rfl := Option.some.inj inForest
    have each : ∀ symbol ∈ (start.scopes.head?.map Scope.symbols).getD [], symbol.role = .builtin := by decide
    exact each symbol (List.mem_of_getElem? here)
  · cases inForest

end Forest

namespace Analysis.Standing

variable {a : Analysis}

theorem sees_declare (h : a.Standing) (role : Role) (decl : Declaration) :
    a.forest.Sees (a.declare role decl).2.forest := by
  obtain ⟨scope, there⟩ := (h.useType decl.type).scope
  intro ref x is
  rw [declare_snd, forest_insert]
  refine Forest.sees_insert there _ _ _ ?_
  rw [forest_useType, Forest.sight?_resolve, is]

/-- What is seen after a declaration was seen before or is what was declared. -/
theorem of_sight?_declare (h : a.Standing) {role : Role} {decl : Declaration} {ref : SymbolId}
    {x : String × Role} (is : (a.declare role decl).2.forest.sight? ref = some x) :
    a.forest.sight? ref = some x ∨ x = (decl.name, role) := by
  obtain ⟨scope, there⟩ := (h.useType decl.type).scope
  rw [declare_snd, forest_insert] at is
  have oldOrNew := Forest.of_sight?_insert there is
  rwa [forest_useType, Forest.sight?_resolve] at oldOrNew

theorem sees_declareParams (h : a.Standing) (params : List Declaration) :
    a.forest.Sees (a.declareParams params).2.forest := by
  induction params generalizing a with
  | nil => exact fun _ _ is => is
  | cons decl params ih =>
    intro ref x is
    rw [declareParams_cons_snd]
    exact ih (h.declare .parameter decl) ref x (h.sees_declare .parameter decl ref x is)

/-- In a scope of their own parameters get symbols of their names, whether they are new or share one. -/
theorem given_declareParams (h : a.Standing) (only : a.forest.OnlyParameters a.active)
    (params : List Declaration) :
    List.Forall₂ (fun ref decl => ref.scope = a.active ∧
        (a.declareParams params).2.forest.sight? ref = some (decl.name, .parameter))
      (a.declareParams params).1 params := by
  induction params generalizing a with
  | nil => exact .nil
  | cons decl params ih =>
    have standing := h.declare .parameter decl
    have active := (h.stays_declare .parameter decl).active
    have only₁ : (a.declare .parameter decl).2.forest.OnlyParameters
        (a.declare .parameter decl).2.active := by
      intro ref x here is
      obtain before | rfl := h.of_sight?_declare is
      · exact only ref x (here.trans active) before
      · rfl
    -- The symbol may be that of an earlier parameter, but nothing else is in the scope.
    have found := h.find?_declare .parameter decl
    have inside := (Forest.of_find? found).1
    obtain ⟨role, is⟩ := standing.titled.sight?_of_find? found
    obtain rfl := only₁ _ _ (inside.trans active.symm) is
    have rest := ih standing only₁
    rw [active] at rest
    exact .cons ⟨inside, standing.sees_declareParams params _ _ is⟩ rest

end Analysis.Standing

namespace Signs

open Forest Analysis

variable {past : List Scoping} {open? : Option SymbolId} {a : Analysis}

/-- A variable or a parameter signs nothing. -/
theorem declare (h : Signs past open? a.forest) (standing : a.Standing) {role : Role}
    (plain : ∀ params returns, role ≠ .function params returns) (decl : Declaration) :
    Signs past open? (a.declare role decl).2.forest := by
  obtain ⟨scope, there⟩ := (standing.useType decl.type).scope
  have typed : Signs past open? (a.useType decl.type).2.forest := by
    rw [forest_useType]
    exact h.resolve a.active decl.type.base
  rw [declare_snd, forest_insert]
  exact typed.insert there plain

theorem declareParams (h : Signs past open? a.forest) (standing : a.Standing)
    (params : List Declaration) : Signs past open? (a.declareParams params).2.forest := by
  induction params generalizing a with
  | nil => exact h
  | cons decl params ih =>
    rw [declareParams_cons_snd]
    exact ih (h.declare standing (by simp) decl) (standing.declare .parameter decl)

/-- A function whose name is in the scope around gets its own scope with its parameters. -/
theorem headed (h : Signs past open? a.forest) (standing : a.Standing) {name : String}
    (taken : a.forest.find? a.active name ≠ none) (returns : String) (params : List Declaration)
    (body : List Node) (inner : List Scoping) :
    Signs (past ++
      [Scoping.mk ⟨returns, name, params, body⟩ a.active (some a.forest.scopes.length) inner]) open?
      ((a.openScope name).declareParams params).2.forest := by
  have opened := h.openScope (d := ⟨returns, name, params, body⟩) standing.known taken inner
  exact opened.declareParams (a := a.openScope name) (standing.openScope name) params

/-- The symbol of a function whose name is free is open for its parameters. -/
theorem signed (h : Signs past none a.forest) (standing : a.Standing) {name returns : String}
    {location : Location} {ref : SymbolId} (free : a.forest.find? a.active name = none)
    (found : (a.insert (.ofFunction name returns) location).2.forest.find? a.active name = some ref) :
    Signs past (some ref) (a.insert (.ofFunction name returns) location).2.forest ∧
      (a.insert (.ofFunction name returns) location).2.forest.sight? ref =
        some (name, .function [] returns) := by
  obtain ⟨scope, there⟩ := standing.scope
  rw [Analysis.insert_of_free there free] at found ⊢
  obtain rfl : ⟨a.active, scope.symbols.length⟩ = ref :=
    Option.some.inj (((find?_push there _ _ _).trans (if_pos ⟨rfl, rfl⟩)).symm.trans found)
  exact ⟨h.push there (by simp) (.inr rfl), (sight?_push there _ _).trans (if_pos rfl)⟩

/-- A function is defined, for the first time in its scope or again. -/
theorem enter (h : Signs past none a.forest) (standing : a.Standing) (returns name : String)
    (params : List Declaration) (body : List Node) (location : Location) (inner : List Scoping) :
    Signs (past ++
      [Scoping.mk ⟨returns, name, params, body⟩ a.active (some a.forest.scopes.length) inner]) none
      (a.enter returns name params location).forest := by
  have named := standing.insert (.ofFunction name returns) location
  have stays := standing.stays_insert (.ofFunction name returns) location
  rw [← stays.active, ← stays.length]
  obtain ⟨existing, taken, same⟩ | ⟨ref, free, found, -, is, same⟩ :=
    standing.enter_cases returns name params location
  · have kept : (a.insert (.ofFunction name returns) location).2.forest = a.forest := by
      rw [insert_of_taken taken]
      rfl
    rw [same]
    refine headed (by rw [kept]; exact h) named ?_ returns params body inner
    rw [kept, stays.active, taken]
    simp
  · obtain ⟨open', sight⟩ := h.signed standing free found
    have taken : (a.insert (.ofFunction name returns) location).2.forest.find?
        (a.insert (.ofFunction name returns) location).2.active name ≠ none := by
      rw [stays.active, found]
      simp
    have still : (a.headed returns name params location).2.forest.sight? ref =
        some (name, .function [] returns) :=
      (named.openScope name).sees_declareParams params _ _ ((sight?_openScope _ _ _ _).trans sight)
    have given := (named.openScope name).given_declareParams (onlyParameters_openScope _ _ _) params
    rw [same]
    refine (open'.headed named taken returns params body inner).close
      (.mk ⟨returns, name, params, body⟩ (a.insert (.ofFunction name returns) location).2.active
        (some (a.insert (.ofFunction name returns) location).2.forest.scopes.length) inner) still ?_ rfl ?_
    · -- An earlier definition would have taken the name.
      have none := h.none_of_free free
      rw [(of_find? found).1, List.filter_append, none, stays.active]
      simp [Scoping.defines, Scoping.outside, Scoping.name, Scoping.definition]
    · exact given.imp fun p decl given => ⟨congrArg some given.1.symm, given.2⟩

/-- Before a program there are the builtin types alone, and they are no functions. -/
theorem start : Signs [] none .start where
  owned := by simp
  apart := .nil
  taken := by simp
  child s name := by
    cases s <;> rfl
  signature ref name params returns _ is := by
    cases role_start is

end Signs

/-- The functions that are met join those before them, each ahead of the functions inside it. -/
theorem Analysis.carried_signs : Carried fun a events _ met => ∀ past, Signs past none a.forest →
    Signs (past ++ Scoping.allOf met) none (a.play events).forest where
  none a past h := (List.append_nil past).symm ▸ h
  append {a before after _ _ _ _} _ h h' past signs := by
    rw [play_append, Scoping.allOf_append, ← List.append_assoc]
    exact h' _ (h past signs)
  refer a name location past h := by
    refine (List.append_nil past).symm ▸ ?_
    have same : (a.play [.refer name location]).forest = (a.forest.resolve a.active name).2 :=
      a.forest_refer name location
    rw [same]
    exact h.resolve a.active name
  declare standing decl past h := (List.append_nil past).symm ▸ h.declare standing (by simp) decl
  function {a inside inner} standing returns name params body location h past signs := by
    have entered := signs.enter standing returns name params body location inner
    have body := h _ entered
    rw [play_append, Scoping.allOf, Scoping.all, Scoping.allOf, List.append_nil,
      standing.active_enter returns name params location]
    rw [List.append_assoc] at body
    exact body

/-- **The signatures of a program**, at the end of its analysis. -/
theorem Program.signs_analyze (program : Program) :
    Signs (Scoping.allOf program.met) none program.analyze.forest := by
  rw [program.forest_analyze]
  exact Analysis.carried_signs.program program [] Signs.start

/-- The first of several definitions has the scope of the last one if it is the only one. -/
theorem Scoping.own_eq_iff_length {ds : List Scoping} (apart : (ds.map own).Nodup) {first last : Scoping}
    (isFirst : ds.head? = some first) (isLast : ds.getLast? = some last) :
    first.own = last.own ↔ ds.length = 1 := by
  cases ds with
  | nil => cases isFirst
  | cons d rest =>
    obtain rfl := Option.some.inj isFirst
    cases rest with
    | nil =>
      obtain rfl := Option.some.inj isLast
      simp
    | cons e more =>
      rw [List.getLast?_cons_cons] at isLast
      have later := List.mem_map_of_mem (f := own) (List.mem_of_getLast? isLast)
      rw [List.map_cons, List.nodup_cons] at apart
      have other : d.own ≠ last.own := fun same => apart.1 (same ▸ later)
      simp [other]

namespace Program

/-- The definitions of functions of that name in scope `s`, in the order of the text. -/
def definitions (program : Program) (s : ScopeId) (name : String) : List Scoping :=
  (Scoping.allOf program.met).filter (·.defines s name)

/-- **A symbol is of the first definition, the scope under its name of the last**: a function symbol has
what the first definition of its name in its scope returns, and its parameters stand in that definition's
scope under the names written there. The scope that is found under the name is that of the last
definition. The two scopes are one if the function is defined once. -/
theorem signature_of_definitions (program : Program) {ref : SymbolId} {symbol : Symbol}
    {params : List SymbolId} {returns : String} (is : program.analyze.forest.symbol? ref = some symbol)
    (role : symbol.role = .function params returns) : ∃ first last own,
      (program.definitions ref.scope symbol.name).head? = some first ∧
      (program.definitions ref.scope symbol.name).getLast? = some last ∧
      last.own = some own ∧ program.analyze.forest.child? ref.scope symbol.name = some own ∧
      first.definition.returns = returns ∧
      List.Forall₂ (first.Declares program.analyze.forest) params first.definition.params ∧
      (first.own = last.own ↔ (program.definitions ref.scope symbol.name).length = 1) := by
  have signs := program.signs_analyze
  have sight : program.analyze.forest.sight? ref = some (symbol.name, .function params returns) := by
    rw [Forest.sight?, is, Option.map_some, role]
  obtain ⟨first, isFirst, same, each⟩ := signs.signature ref symbol.name params returns (by simp) sight
  rw [← definitions] at isFirst
  obtain ⟨last, isLast⟩ : ∃ last, (program.definitions ref.scope symbol.name).getLast? = some last :=
    Option.isSome_iff_exists.1 (List.getLast?_isSome.2 (List.ne_nil_of_mem (List.mem_of_head? isFirst)))
  obtain ⟨own, isOwn, -⟩ := signs.owned last (List.mem_filter.1 (List.mem_of_getLast? isLast)).1
  have apart : ((program.definitions ref.scope symbol.name).map Scoping.own).Nodup :=
    signs.apart.sublist (List.filter_sublist.map Scoping.own)
  refine ⟨first, last, own, isFirst, isLast, isOwn, ?_, same, each,
    Scoping.own_eq_iff_length apart isFirst isLast⟩
  rw [signs.child, ← definitions, isLast, Option.bind_some, isOwn]

/-- A function is defined twice, and inside its first definition there is another of the same name. -/
theorem signature_of_namesakes : ∃ (program : Program) (first last : Scoping),
    parse "void f(int a, int b) { void f(int c) { } } void f() { }" = .ok program ∧
    program.analyze.forest.symbol? ⟨0, 5⟩ =
      some ⟨"f", .function [⟨1, 0⟩, ⟨1, 1⟩] "void", none, none, 0⟩ ∧
    (program.definitions 0 "f").head? = some first ∧ (program.definitions 0 "f").getLast? = some last ∧
    List.Forall₂ (first.Declares program.analyze.forest) [⟨1, 0⟩, ⟨1, 1⟩] first.definition.params ∧
    program.analyze.forest.child? 0 "f" = last.own ∧ first.own ≠ last.own := by
  let int (column : Nat) : TypeName := ⟨"int", none, ⟨1, column⟩⟩
  let program : Program := ⟨[
    .function "void" "f" [⟨int 8, "a", false, ⟨1, 12⟩⟩, ⟨int 15, "b", false, ⟨1, 19⟩⟩]
      [.function "void" "f" [⟨int 31, "c", false, ⟨1, 35⟩⟩] [] ⟨1, 29⟩] ⟨1, 6⟩,
    .function "void" "f" [] [] ⟨1, 49⟩], ⟨1, 56⟩⟩
  have parsed : parse "void f(int a, int b) { void f(int c) { } } void f() { }" = .ok program :=
    (parse_ofList _).trans (by decide +kernel)
  have is : program.analyze.forest.symbol? ⟨0, 5⟩ =
      some ⟨"f", .function [⟨1, 0⟩, ⟨1, 1⟩] "void", none, none, 0⟩ := by decide
  obtain ⟨first, last, own, isFirst, isLast, isOwn, child, -, each, once⟩ :=
    program.signature_of_definitions is rfl
  refine ⟨program, first, last, parsed, is, isFirst, isLast, each, child.trans isOwn.symm, ?_⟩
  exact fun same => absurd (once.1 same) (by decide)

/-- A function that is defined again has its parameters in another scope than the one under its name. -/
theorem params_outside_child : ∃ program : Program,
    parse "void f(int a) { } void f(int b) { } int main() { }" = .ok program ∧
    program.analyze.forest.symbol? ⟨0, 5⟩ = some ⟨"f", .function [⟨1, 0⟩] "void", none, none, 0⟩ ∧
    program.analyze.forest.child? 0 "f" = some 2 := by
  let int (column : Nat) : TypeName := ⟨"int", none, ⟨1, column⟩⟩
  let program : Program := ⟨[
    .function "void" "f" [⟨int 8, "a", false, ⟨1, 12⟩⟩] [] ⟨1, 6⟩,
    .function "void" "f" [⟨int 26, "b", false, ⟨1, 30⟩⟩] [] ⟨1, 24⟩,
    .function "int" "main" [] [] ⟨1, 41⟩], ⟨1, 51⟩⟩
  have parsed : parse "void f(int a) { } void f(int b) { } int main() { }" = .ok program :=
    (parse_ofList _).trans (by decide +kernel)
  exact ⟨program, parsed, by decide, by decide⟩

end Program

end Pascalize
