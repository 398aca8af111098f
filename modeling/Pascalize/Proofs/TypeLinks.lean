import Pascalize.Proofs.DeclarationReading
import Pascalize.Proofs.UnusedVariables

/-!
# Types of symbols

A declaration looks its type up when it is visited, and the symbol keeps what was found. Names of types may
be taken by variables, parameters and functions, so what is found need not be a type; then the declaration
is complained about and its symbol has no type. A visit (`Visit`) is a declaration with the analysis that
came to it, and `Program.visits` are those of a program.

`Passes` says of a relation that every change of the analysis carries it along, with the visits on the way;
then events in turn do (`Passes.play`). Two relations are such: visits come one after another, and what they
leave stays (`Turns`), and the faces of a forest are those of builtin types, visits and functions (`Linked`).
So each symbol of a variable or parameter leads back to the one visit that made it.
-/

namespace Pascalize

/-! ## Visits -/

/-- The analysis comes to the declaration of a variable or parameter. -/
structure Visit where
  before : Analysis
  role : Role
  decl : Declaration

namespace Visit

/-- The analysis when it is done with the declaration. -/
def after (v : Visit) : Analysis :=
  (v.before.declare v.role v.decl).2

/-- The symbol that the declaration makes. -/
def symbol (v : Visit) : Symbol :=
  v.before.declared v.role v.decl

/-- The declaration brings the symbol into its scope. -/
def Inserts (v : Visit) (ref : SymbolId) : Prop :=
  v.before.forest.symbol? ref = none ∧ v.after.forest.symbol? ref ≠ none

/-- What is reported for the declaration. -/
def reported (v : Visit) : List Diagnostic :=
  v.after.diagnostics.drop v.before.diagnostics.length

/-- The type of the declaration is reported to be undefined. -/
def Complains (v : Visit) : Prop :=
  ⟨.undefinedType v.decl.type.base, v.decl.type.location⟩ ∈ v.reported

end Visit

/-- The variables and parameters that an event declares, with their roles. -/
def Event.declarations : Event → List (Role × Declaration)
  | .declare decl => [(.var, decl)]
  | .enter _ _ params _ => params.map fun decl => (.parameter, decl)
  | .refer .. | .leave => []

namespace Analysis

/-- The visits of parameters in turn. -/
def paramVisits (a : Analysis) : List Declaration → List Visit
  | [] => []
  | decl :: rest => ⟨a, .parameter, decl⟩ :: (a.declare .parameter decl).2.paramVisits rest

/-- The visits of an event. -/
def visits (a : Analysis) : Event → List Visit
  | .declare decl => [⟨a, .var, decl⟩]
  | .enter returns name params location =>
    ((a.insert (.ofFunction name returns) location).2.openScope name).paramVisits params
  | .refer .. | .leave => []

/-- The visits of events in turn. -/
def visitsAll (a : Analysis) : List Event → List Visit
  | [] => []
  | e :: rest => a.visits e ++ (a.step e).visitsAll rest

theorem declarations_paramVisits (a : Analysis) (params : List Declaration) :
    (a.paramVisits params).map (fun v => (v.role, v.decl)) = params.map fun decl => (.parameter, decl) := by
  induction params generalizing a with
  | nil => rfl
  | cons decl params ih => rw [paramVisits, List.map_cons, ih, List.map_cons]

/-- All that events declare is visited, in this order. -/
theorem declarations_visitsAll (a : Analysis) (events : List Event) :
    (a.visitsAll events).map (fun v => (v.role, v.decl)) = events.flatMap Event.declarations := by
  induction events generalizing a with
  | nil => rfl
  | cons e events ih =>
    rw [visitsAll, List.map_append, ih, List.flatMap_cons]
    cases e with
    | enter returns name params location => rw [visits, declarations_paramVisits, Event.declarations]
    | _ => rfl

end Analysis

/-- A relation between the analysis before, the visits on the way and the analysis after, which every change
of the analysis carries along. -/
structure Passes (R : Analysis → List Visit → Analysis → Prop) : Prop where
  refl : ∀ a, R a [] a
  append : ∀ {a a' a'' l l'}, R a l a' → R a' l' a'' → R a (l ++ l') a''
  refer : ∀ a name location, R a [] (a.refer name location)
  visit : ∀ {a}, a.Standing → ∀ {role}, role = .var ∨ role = .parameter → ∀ decl,
    R a [⟨a, role, decl⟩] (a.declare role decl).2
  function : ∀ {a}, a.Standing → ∀ name returns location,
    R a [] (a.insert (.ofFunction name returns) location).2
  openScope : ∀ {a}, a.Standing → ∀ name, R a [] (a.openScope name)
  sign : ∀ {a : Analysis} {ref name returns}, a.forest.face? ref = some (.ofFunction name returns) →
    ∀ params, R a [] (a.sign ref params returns)
  leave : ∀ a, R a [] a.leave

namespace Passes

variable {R : Analysis → List Visit → Analysis → Prop} {a : Analysis}

theorem params (h : Passes R) (standing : a.Standing) (params : List Declaration) :
    R a (a.paramVisits params) (a.declareParams params).2 := by
  induction params generalizing a with
  | nil => exact h.refl a
  | cons decl params ih =>
    rw [Analysis.paramVisits, Analysis.declareParams_cons_snd]
    exact h.append (h.visit standing (.inr rfl) decl) (ih (standing.declare .parameter decl))

/-- One event. -/
theorem step (h : Passes R) (standing : a.Standing) (e : Event) : R a (a.visits e) (a.step e) := by
  cases e with
  | refer name location => exact h.refer a name location
  | declare decl => exact h.visit standing (.inl rfl) decl
  | leave => exact h.leave a
  | enter returns name params location =>
    have named := standing.insert (.ofFunction name returns) location
    have headed : R a (a.visits (.enter returns name params location))
        (a.headed returns name params location).2 :=
      h.append (l := []) (h.function standing name returns location)
        (h.append (l := []) (h.openScope named name) (h.params (named.openScope name) params))
    obtain ⟨_, -, same⟩ | ⟨ref, -, -, -, is, same⟩ := standing.enter_cases returns name params location
    · rw [Analysis.step, same]
      exact headed
    · rw [Analysis.step, same, ← List.append_nil (a.visits _)]
      exact h.append headed (h.sign is _)

/-- Events in turn. -/
theorem play (h : Passes R) (standing : a.Standing) (events : List Event) :
    R a (a.visitsAll events) (a.play events) := by
  induction events generalizing a with
  | nil => exact h.refl a
  | cons e events ih => exact h.append (h.step standing e) (ih (standing.step e))

end Passes

/-! ## Visits in turn -/

/-- Visits in turn on the way from one analysis to another. -/
structure Turns (a : Analysis) (visits : List Visit) (a' : Analysis) : Prop where
  precedes : a.Precedes a'
  first : ∀ v ∈ visits, a.Precedes v.before
  each : ∀ v ∈ visits, v.before.Precedes v.after
  last : ∀ v ∈ visits, v.after.Precedes a'
  ordered : visits.Pairwise fun v w => v.after.Precedes w.before

namespace Turns

variable {a a' a'' : Analysis} {l l' : List Visit}

theorem none (h : a.Precedes a') : Turns a [] a' :=
  ⟨h, by simp, by simp, by simp, .nil⟩

theorem append (h : Turns a l a') (h' : Turns a' l' a'') : Turns a (l ++ l') a'' where
  precedes := h.precedes.trans h'.precedes
  first := List.forall_mem_append.2 ⟨h.first, fun v member => h.precedes.trans (h'.first v member)⟩
  each := List.forall_mem_append.2 ⟨h.each, h'.each⟩
  last := List.forall_mem_append.2 ⟨fun v member => (h.last v member).trans h'.precedes, h'.last⟩
  ordered := List.pairwise_append.2 ⟨h.ordered, h'.ordered, fun v member w member' =>
    (h.last v member).trans (h'.first w member')⟩

theorem visit (h : a.Standing) (role : Role) (decl : Declaration) :
    Turns a [⟨a, role, decl⟩] (a.declare role decl).2 := by
  have precedes := (h.stays_declare role decl).toPrecedes
  refine ⟨precedes, ?_, ?_, ?_, List.pairwise_singleton _ _⟩ <;> rw [List.forall_mem_singleton]
  · exact .refl a
  · exact precedes
  · exact .refl _

theorem passes : Passes Turns where
  refl a := .none (.refl a)
  append h h' := h.append h'
  refer a name location := .none (a.stays_refer name location).toPrecedes
  visit standing _ _ decl := .visit standing _ decl
  function standing _ _ location := .none (standing.stays_insert _ location).toPrecedes
  openScope standing name := .none (standing.precedes_openScope name)
  sign is params := .none (Analysis.Standing.stays_sign is params).toPrecedes
  leave a := .none (.leave a)

/-- A symbol is inserted once. -/
theorem unique (h : Turns a l a') {ref : SymbolId} {k m : Nat} {v w : Visit} (isV : l[k]? = some v)
    (isW : l[m]? = some w) (inserts : v.Inserts ref) (inserts' : w.Inserts ref) : k = m := by
  have apart {k m : Nat} {v w : Visit} (isV : l[k]? = some v) (isW : l[m]? = some w)
      (inserts : v.Inserts ref) (inserts' : w.Inserts ref) : ¬ k < m := by
    intro less
    obtain ⟨_, rfl⟩ := List.getElem?_eq_some_iff.1 isV
    obtain ⟨_, rfl⟩ := List.getElem?_eq_some_iff.1 isW
    have precedes := List.pairwise_iff_getElem.1 h.ordered k m (by assumption) (by assumption) less
    obtain ⟨face, is⟩ := Option.ne_none_iff_exists'.1 (mt Forest.face?_eq_none_iff.1 inserts.2)
    have taken := precedes.forest.faces ref face is
    rw [Forest.face?_eq_none_iff.2 inserts'.1] at taken
    cases taken
  exact Nat.le_antisymm (Nat.le_of_not_lt (apart isW isV inserts' inserts))
    (Nat.le_of_not_lt (apart isV isW inserts inserts'))

end Turns

/-! ## Where faces come from -/

open Forest

/-- A face is that of a builtin type in its place, of a symbol that a visit inserted, or of a function. -/
inductive Made (past : List Visit) (ref : SymbolId) : Symbol → Prop
  | builtin {name : String} (isGlobal : ref.scope = global)
      (here : builtinTypes[ref.position]? = some name) : Made past ref ⟨name, .builtin, none, none, 0⟩
  | visit {v : Visit} (member : v ∈ past) (inserts : v.Inserts ref) : Made past ref v.symbol.face
  | function (name returns : String) : Made past ref (.ofFunction name returns)

theorem Made.mono {past past' : List Visit} {ref : SymbolId} {face : Symbol} (sub : past ⊆ past')
    (h : Made past ref face) : Made past' ref face := by
  cases h with
  | builtin isGlobal here => exact .builtin isGlobal here
  | visit member inserts => exact .visit (sub member) inserts
  | function name returns => exact .function name returns

/-- The visit finds a builtin type of the name that was written, or complains. -/
structure Visit.Sound (v : Visit) : Prop where
  role : v.role = .var ∨ v.role = .parameter
  missing : v.symbol.type = none ↔ v.Complains
  found : ∀ type, v.symbol.type = some type →
    type.scope = global ∧ builtinTypes[type.position]? = some v.decl.type.base

/-- Visits make no types. -/
theorem Made.of_builtin {past : List Visit} {ref : SymbolId} {face : Symbol} (h : Made past ref face)
    (sound : ∀ v ∈ past, v.Sound) (role : face.role = .builtin) :
    ref.scope = global ∧ builtinTypes[ref.position]? = some face.name := by
  cases h with
  | builtin isGlobal here => exact ⟨isGlobal, here⟩
  | visit member _ =>
    have isRole := Role.bare_eq_builtin.1 role
    obtain var | parameter := (sound _ member).role
    · cases var.symm.trans isRole
    · cases parameter.symm.trans isRole
  | function => cases role

/-- At the start there are the builtin types. -/
theorem Forest.face?_start (ref : SymbolId) : start.face? ref =
    if ref.scope = global then builtinTypes[ref.position]?.map fun name => ⟨name, .builtin, none, none, 0⟩
    else none := by
  rw [face?, symbol?_eq, scope?_start]
  split
  · obtain ⟨scope, first, symbols⟩ : ∃ scope, start.scopes.head? = some scope ∧
        scope.symbols = builtinTypes.map fun name => ⟨name, .builtin, none, none, 0⟩ := ⟨_, rfl, rfl⟩
    rw [first, Option.bind_some, symbols, List.getElem?_map, Option.map_map]
    rfl
  · rfl

/-- The faces of a forest after visits. -/
structure Linked (past : List Visit) (f : Forest) : Prop where
  made : ∀ ref face, f.face? ref = some face → Made past ref face
  sound : ∀ v ∈ past, v.Sound

theorem Analysis.diagnostics_insert (a : Analysis) (symbol : Symbol) (location : Location) : ∃ more,
    (a.insert symbol location).2.diagnostics = a.diagnostics ++ more ∧
      ∀ d ∈ more, d.complaint = .redeclared symbol.name := by
  rw [insert]
  split
  · exact ⟨[], (List.append_nil _).symm, by simp⟩
  · exact ⟨[⟨.redeclared symbol.name, location⟩], rfl, by simp⟩

namespace Linked

variable {past : List Visit} {f f' : Forest} {s : ScopeId} {a : Analysis}

theorem congr (h : Linked past f) (faces : ∀ ref, f'.face? ref = f.face? ref) : Linked past f' where
  made ref face is := h.made ref face (faces ref ▸ is)
  sound := h.sound

/-- A sound visit is added. -/
theorem more (h : Linked past f) {v : Visit} (sound : v.Sound) : Linked (past ++ [v]) f where
  made ref face is := (h.made ref face is).mono (List.subset_append_left past [v])
  sound := List.forall_mem_append.2 ⟨h.sound, by simpa using sound⟩

theorem insert (h : Linked past f) {scope : Scope} (there : f.scope? s = some scope) {symbol : Symbol}
    (made : f.find? s symbol.name = none → Made past ⟨s, scope.symbols.length⟩ symbol.face) :
    Linked past (f.insert s symbol).2 := by
  cases free : f.find? s symbol.name with
  | some existing =>
    rw [insert_of_find? free]
    exact h
  | none =>
    rw [insert_of_free there free]
    refine ⟨fun ref face is => ?_, h.sound⟩
    rw [face?_push there] at is
    split at is
    next here =>
      rw [here, ← Option.some.inj is]
      exact made free
    next => exact h.made ref face is

/-- What was found is a builtin type, or the name of the type is reported. -/
theorem useType (h : Linked past a.forest) (standing : a.Standing) (type : TypeName) :
    (∃ ref, (a.useType type).1 = some ref ∧ ref.scope = global ∧
      builtinTypes[ref.position]? = some type.base ∧
      (a.useType type).2.diagnostics = a.diagnostics) ∨
    ((a.useType type).1 = none ∧ (a.useType type).2.diagnostics =
      a.diagnostics ++ [⟨.undefinedType type.base, type.location⟩]) := by
  rw [Analysis.useType]
  simp only
  split
  next ref is =>
    refine .inl ⟨ref, rfl, ?_⟩
    obtain ⟨resolved, isType⟩ := Option.filter_eq_some_iff.1 is
    rw [fst_resolve] at resolved
    have found := find?_of_lookup resolved
    obtain ⟨symbol, there, isBuiltin⟩ := (Option.any_eq_true _ _).1 isType
    have isFace : a.forest.face? ref = some symbol.face := by
      rw [← face?_resolve a.forest a.active type.base]
      exact face?_of_symbol? there
    have named : symbol.face.name = type.base := standing.titled.name_of_face? found isFace
    obtain ⟨isGlobal, here⟩ := (h.made ref _ isFace).of_builtin h.sound
      (Role.bare_eq_builtin.2 (of_decide_eq_true isBuiltin))
    exact ⟨isGlobal, named ▸ here, rfl⟩
  next => exact .inr ⟨rfl, rfl⟩

/-- A visit is sound, since what is there when it comes is. -/
theorem sound_visit (h : Linked past a.forest) (standing : a.Standing) {role : Role}
    (isRole : role = .var ∨ role = .parameter) (decl : Declaration) : Visit.Sound ⟨a, role, decl⟩ := by
  obtain ⟨more, same, others⟩ :=
    (a.useType decl.type).2.diagnostics_insert (a.declared role decl) decl.location
  have reported : Visit.reported ⟨a, role, decl⟩ =
      ((a.useType decl.type).2.diagnostics ++ more).drop a.diagnostics.length := by
    rw [← same, ← Analysis.declare_snd]
    rfl
  obtain ⟨type, is, isGlobal, here, silent⟩ | ⟨is, complaint⟩ := h.useType standing decl.type
  · refine ⟨isRole, ⟨fun none => ?_, fun complains => ?_⟩, fun type' is' => ?_⟩
    · cases none.symm.trans is
    · rw [Visit.Complains, reported, silent, List.drop_left] at complains
      cases others _ complains
    · obtain rfl := Option.some.inj (is'.symm.trans is)
      exact ⟨isGlobal, here⟩
  · refine ⟨isRole, ⟨fun _ => ?_, fun _ => is⟩, fun type is' => ?_⟩
    · rw [Visit.Complains, reported, complaint, List.append_assoc, List.drop_left]
      exact List.mem_append_left _ (List.mem_singleton_self _)
    · cases is'.symm.trans is

/-- A declaration is visited. -/
theorem visit (h : Linked past a.forest) (standing : a.Standing) {role : Role}
    (isRole : role = .var ∨ role = .parameter) (decl : Declaration) :
    Linked (past ++ [⟨a, role, decl⟩]) (a.declare role decl).2.forest := by
  obtain ⟨scope, there⟩ := (standing.useType decl.type).scope
  have typed : Linked past (a.useType decl.type).2.forest :=
    h.congr fun ref => by rw [Analysis.forest_useType, face?_resolve]
  have visited : Linked (past ++ [⟨a, role, decl⟩]) (a.useType decl.type).2.forest :=
    typed.more (h.sound_visit standing isRole decl)
  rw [Analysis.declare_snd, Analysis.forest_insert]
  refine visited.insert there fun free => .visit (v := ⟨a, role, decl⟩) (by simp) ⟨?_, ?_⟩
  · rw [← face?_eq_none_iff, ← face?_resolve a.forest a.active decl.type.base, ← Analysis.forest_useType,
      face?_eq_none_iff]
    exact symbol?_fresh there
  · rw [Visit.after, Analysis.declare_snd, Analysis.forest_insert, Forest.insert_of_free there free,
      symbol?_push there, if_pos rfl]
    simp

theorem passes : Passes fun a l a' => ∀ past, Linked past a.forest → Linked (past ++ l) a'.forest where
  refl _ past h := (List.append_nil past).symm ▸ h
  append h h' past linked := by
    rw [← List.append_assoc]
    exact h' _ (h past linked)
  refer a name location past h := by
    rw [List.append_nil, Analysis.forest_refer]
    exact h.congr fun ref => face?_resolve _ _ _ ref
  visit standing _ isRole decl past h := h.visit standing isRole decl
  function standing name returns location past h := by
    obtain ⟨scope, there⟩ := standing.scope
    rw [List.append_nil, Analysis.forest_insert]
    exact h.insert there fun _ => .function name returns
  openScope _ name past h := by
    rw [List.append_nil]
    exact h.congr fun ref => face?_openScope _ _ _ ref
  sign is params past h := by
    rw [List.append_nil]
    exact h.congr fun ref => face?_setRole _ is rfl params ref
  leave _ past h := (List.append_nil past).symm ▸ h

theorem start : Linked [] Forest.start where
  made ref face is := by
    rw [face?_start] at is
    split at is
    next isGlobal =>
      obtain ⟨name, here, rfl⟩ := Option.map_eq_some_iff.1 is
      exact .builtin isGlobal here
    next => cases is
  sound := by simp

end Linked

/-! ## Programs -/

open Pascal

namespace Thins

variable {f : Forest} {slots : List Slot} {plain lean : List Line}

theorem sublist (h : Thins f slots plain lean) : lean.Sublist plain := by
  induction h with
  | nil => exact .slnil
  | line _ _ ih | kept _ _ _ ih => exact ih.cons_cons _
  | removed _ _ _ ih => exact ih.cons _

/-- Where a line declares a variable, this is one of the slots. -/
theorem slot_of_mem (h : Thins f slots plain lean) {l : Line} (member : l ∈ plain) {x : Variable}
    (is : l.content = .var x) : ∃ slot ∈ slots, x = f.declared slot.symbol := by
  induction h with
  | nil => cases member
  | line other _ ih =>
    obtain rfl | later := List.mem_cons.1 member
    · exact absurd is (other x)
    · exact ih later
  | kept _ _ _ ih | removed _ _ _ ih =>
    obtain rfl | later := List.mem_cons.1 member
    · cases is
      exact ⟨_, List.mem_cons_self, rfl⟩
    · obtain ⟨slot, inside, same⟩ := ih later
      exact ⟨slot, List.mem_cons_of_mem _ inside, same⟩

end Thins

namespace Program

open Scoping

/-- What stands on a line that declares a variable comes from one of the slots. -/
theorem slot_of_var_line (program : Program) (f : Forest) (options : Options) {l : Line}
    (member : l ∈ (program.pascal f options).lines) {x : Variable} (is : l.content = .var x) :
    ∃ slot ∈ program.slots f, x = f.declared slot.symbol := by
  simp only [slots, List.mem_append, or_assoc]
  rw [Listing.lines, List.mem_cons, List.mem_append, List.mem_append] at member
  obtain rfl | (inVars | inRoutines) | inBody := member
  · cases is
  · obtain ⟨y, isVar, rfl⟩ := List.mem_map.1 inVars
    cases is
    rw [vars_eq, List.mem_append, Forest.varSection_eq, localSection_eq] at isVar
    obtain isGlobal | isLocal := isVar
    · obtain ⟨slot, inside, same⟩ := List.mem_map.1 (List.mem_filter.1 isGlobal).1
      exact ⟨slot, .inl (List.mem_filter.1 inside).1, same.symm⟩
    · obtain ⟨slot, inside, same⟩ := List.mem_map.1 isLocal
      exact ⟨slot, .inr (.inl (List.mem_filter.1 inside).1), same.symm⟩
  · have thins := thins_flatMap f (hoist (program.lookups f))
    have inPlain : l ∈ ((hoist (program.lookups f)).map (routine f false)).flatMap
        fun r => ⟨0, .blank⟩ :: r.lines := by
      rw [routines_pascal] at inRoutines
      cases same : options.optimize <;> rw [same] at inRoutines
      · exact inRoutines
      · exact thins.sublist.subset inRoutines
    obtain ⟨slot, inside, same⟩ := thins.slot_of_mem inPlain is
    exact ⟨slot, .inr (.inr inside), same⟩
  · obtain rfl | inBlock := List.mem_cons.1 inBody
    · cases is
    · have other : ∀ v, Content.programEnd (program.pascal f options).name ≠ .var v := by simp
      exact absurd is (Line.ne_var_of_mem_block other (Node.ne_var_of_mem_linesAll _) l inBlock x)

/-- The declarations of a program as the analysis comes to them. -/
def visits (program : Program) : List Visit :=
  ({} : Analysis).visitsAll (Node.eventsAll program.statements)

theorem turns (program : Program) :
    Turns {} program.visits (({} : Analysis).play (Node.eventsAll program.statements)) :=
  Turns.passes.play .start _

theorem linked (program : Program) : Linked program.visits program.analyze.forest := by
  rw [forest_analyze]
  exact Linked.passes.play .start (Node.eventsAll program.statements) [] Linked.start

/-- At the end there may be a complaint more. -/
theorem prefix_analyze (program : Program) :
    (({} : Analysis).play (Node.eventsAll program.statements)).diagnostics <+:
      program.analyze.diagnostics := by
  rw [analyze]
  split
  · exact List.prefix_refl _
  · exact List.prefix_append _ _

variable {program : Program} {ref : SymbolId} {symbol : Symbol}

theorem made_of_symbol? (is : program.analyze.forest.symbol? ref = some symbol) :
    Made program.visits ref symbol.face :=
  program.linked.made ref symbol.face (congrArg (Option.map Symbol.face) is)

/-- The builtin types are there to the end. -/
theorem builtin_analyze (program : Program) {i : Nat} {name : String}
    (here : Forest.builtinTypes[i]? = some name) : ∃ symbol,
      program.analyze.forest.symbol? ⟨Forest.global, i⟩ = some symbol ∧ symbol.role = .builtin ∧
      symbol.name = name := by
  have first : Forest.start.face? ⟨Forest.global, i⟩ = some ⟨name, .builtin, none, none, 0⟩ := by
    rw [Forest.face?_start, if_pos rfl, here, Option.map_some]
  rw [forest_analyze]
  obtain ⟨symbol, is, same⟩ := Option.map_eq_some_iff.1 (program.turns.precedes.forest.faces _ _ first)
  have role : symbol.role.bare = .builtin := by rw [← Symbol.role_face, same]
  have named : symbol.name = name := by rw [← Symbol.name_face, same]
  exact ⟨symbol, is, Role.bare_eq_builtin.1 role, named⟩

theorem isBuiltin_iff (is : program.analyze.forest.symbol? ref = some symbol) :
    symbol.role = .builtin ↔ ref.scope = Forest.global ∧ ref.position < Forest.builtinTypes.length := by
  constructor
  · intro role
    have made := (made_of_symbol? is).of_builtin program.linked.sound (Role.bare_eq_builtin.2 role)
    exact ⟨made.1, (List.getElem?_eq_some_iff.1 made.2).1⟩
  · rintro ⟨isGlobal, less⟩
    obtain ⟨builtin, is', role, -⟩ := program.builtin_analyze (List.getElem?_eq_getElem less)
    obtain ⟨s, i⟩ := ref
    subst isGlobal
    obtain rfl := Option.some.inj (is.symm.trans is')
    exact role

end Program

/-- The symbol is what a visit has made of its declaration. Its type is missing iff the visit complains, and
else it is the global builtin type that has the name written. -/
structure Visit.Makes (v : Visit) (f : Forest) (symbol : Symbol) : Prop where
  role : symbol.role = v.role
  name : symbol.name = v.decl.name
  written : symbol.written = some v.decl.type.base
  missing : symbol.type = none ↔ v.Complains
  builtin : ∀ type, symbol.type = some type → type.scope = Forest.global ∧ ∃ t,
    f.symbol? type = some t ∧ t.role = .builtin ∧ t.name = v.decl.type.base

theorem Visit.Makes.typeName? {v : Visit} {f : Forest} {symbol : Symbol} (h : v.Makes f symbol)
    {name : String} (is : f.typeName? symbol = some name) : symbol.written = some name := by
  obtain ⟨type, isType, rest⟩ := Option.bind_eq_some_iff.1 is
  obtain ⟨t, there, same⟩ := Option.bind_eq_some_iff.1 rest
  obtain ⟨-, t', there', -, named⟩ := h.builtin type isType
  obtain rfl := Option.some.inj (there.symm.trans there')
  rw [h.written, ← named]
  exact same

/-- The line of a variable has the type that was written. -/
theorem Visit.Makes.declared {v : Visit} {f : Forest} {symbol : Symbol} (h : v.Makes f symbol) :
    f.declared symbol = v.decl.pascal := by
  simp [Forest.declared, Forest.typeText?, h.written, h.name, Declaration.pascal]

namespace Program

variable {program : Program} {ref : SymbolId} {symbol : Symbol}

/-- A variable or parameter was made by a visit. -/
theorem visit_of_symbol? (is : program.analyze.forest.symbol? ref = some symbol)
    (role : symbol.role = .var ∨ symbol.role = .parameter) :
    ∃ v ∈ program.visits, v.Inserts ref ∧ v.Makes program.analyze.forest symbol := by
  have bare : symbol.face.role = symbol.role := by
    obtain var | parameter := role <;> simp [*, Role.bare]
  have made := made_of_symbol? is
  generalize same : symbol.face = face at made bare
  cases made with
  | builtin => simp [← bare] at role
  | function => simp [← bare, Symbol.ofFunction] at role
  | @visit v member inserts =>
    have sound := program.linked.sound v member
    have sameRole : v.role = symbol.role := by
      obtain var | parameter := sound.role <;>
        simp [← bare, *, Visit.symbol, Analysis.declared, Role.bare]
    have sameType : symbol.type = v.symbol.type := by rw [← Symbol.type_face, same, Symbol.type_face]
    have sameName : symbol.name = v.decl.name := by
      rw [← Symbol.name_face, same]
      rfl
    have sameWritten : symbol.written = some v.decl.type.base := by
      rw [← Symbol.written_face, same]
      rfl
    refine ⟨v, member, inserts, sameRole.symm, sameName, sameWritten, ?_, ?_⟩
    · rw [sameType]
      exact sound.missing
    · intro type isType
      rw [sameType] at isType
      obtain ⟨isGlobal, here⟩ := sound.found type isType
      obtain ⟨t, is', role', named⟩ := program.builtin_analyze here
      obtain ⟨s, i⟩ := type
      subst isGlobal
      exact ⟨rfl, t, is', role', named⟩

/-- Other symbols have no type. -/
theorem type_eq_none (is : program.analyze.forest.symbol? ref = some symbol)
    (other : ¬ (symbol.role = .var ∨ symbol.role = .parameter)) : symbol.type = none := by
  have made := made_of_symbol? is
  generalize same : symbol.face = face at made
  cases made with
  | builtin => rw [← Symbol.type_face, same]
  | function =>
    rw [← Symbol.type_face, same]
    rfl
  | @visit v member _ =>
    have sameRole : symbol.role.bare = v.role.bare := by
      rw [← Symbol.role_face, same]
      rfl
    refine absurd ?_ other
    rw [← Role.bare_eq_var, ← Role.bare_eq_parameter, sameRole, Role.bare_eq_var, Role.bare_eq_parameter]
    exact (program.linked.sound v member).role

/-- **Types of symbols are builtin types with the names written.** All that a program declares is visited in
the order of the walk, and what is reported stays. In the forest of the program only the first five symbols
of the global scope are builtin types. Each symbol of a variable or parameter was inserted by exactly one of
the visits and is what that visit has made. Functions have no type. Hence the name of a type is the one
written, and each line that declares a variable has what is written in the declaration that inserted the
symbol of the line. -/
theorem type_links (program : Program) :
    let f := program.analyze.forest
    program.visits.map (fun v => (v.role, v.decl)) =
      (Node.eventsAll program.statements).flatMap Event.declarations ∧
    (∀ v ∈ program.visits, v.before.diagnostics <+: v.after.diagnostics ∧
      v.after.diagnostics <+: program.analyze.diagnostics) ∧
    (∀ ref symbol, f.symbol? ref = some symbol →
      (symbol.role = .builtin ↔ ref.scope = Forest.global ∧ ref.position < 5)) ∧
    (∀ i name, Forest.builtinTypes[i]? = some name → ∃ symbol,
      f.symbol? ⟨Forest.global, i⟩ = some symbol ∧ symbol.role = .builtin ∧ symbol.name = name) ∧
    (∀ ref symbol, f.symbol? ref = some symbol → symbol.role = .var ∨ symbol.role = .parameter →
      ∃ (k : Nat) (v : Visit), program.visits[k]? = some v ∧ v.Makes f symbol ∧
        ∀ (m : Nat) (w : Visit), program.visits[m]? = some w → (w.Inserts ref ↔ m = k)) ∧
    (∀ ref symbol, f.symbol? ref = some symbol → symbol.isFunction ∨ symbol.isType →
      symbol.type = none) ∧
    (∀ ref symbol name, f.symbol? ref = some symbol → f.typeName? symbol = some name →
      symbol.written = some name) ∧
    ∀ options, ∀ l ∈ (program.pascal f options).lines, ∀ x, l.content = .var x →
      ∃ slot ∈ program.slots f, x = f.declared slot.symbol ∧
        ∃ v ∈ program.visits, v.role = .var ∧ v.Inserts slot.ref ∧ x = v.decl.pascal := by
  intro f
  have others (ref : SymbolId) (symbol : Symbol) (is : f.symbol? ref = some symbol)
      (other : symbol.isFunction ∨ symbol.isType) : symbol.type = none := by
    refine type_eq_none is ?_
    rintro (var | parameter) <;> simp_all [Symbol.isFunction, Symbol.isType]
  refine ⟨Analysis.declarations_visitsAll _ _, fun v member => ?_, fun ref symbol is => isBuiltin_iff is,
    fun i name here => program.builtin_analyze here, fun ref symbol is role => ?_, others,
    fun ref symbol name is typed => ?_, fun options l member x isVar => ?_⟩
  · exact ⟨(program.turns.each v member).reports,
      (program.turns.last v member).reports.trans program.prefix_analyze⟩
  · obtain ⟨v, member, inserts, makes⟩ := visit_of_symbol? is role
    obtain ⟨k, at_⟩ := List.getElem?_of_mem member
    refine ⟨k, v, at_, makes, fun m w at' => ⟨fun inserts' => ?_, ?_⟩⟩
    · exact program.turns.unique at' at_ inserts' inserts
    · rintro rfl
      obtain rfl := Option.some.inj (at'.symm.trans at_)
      exact inserts
  · by_cases role : symbol.role = .var ∨ symbol.role = .parameter
    · obtain ⟨v, -, -, makes⟩ := visit_of_symbol? is role
      exact makes.typeName? typed
    · simp [Forest.typeName?, type_eq_none is role] at typed
  · obtain ⟨slot, inside, rfl⟩ := program.slot_of_var_line f options member isVar
    obtain ⟨id, inScope⟩ := scope_of_mem_slots inside
    obtain ⟨-, -, is, isVariable⟩ := Forest.of_mem_slots inScope
    have role : slot.symbol.role = .var := of_decide_eq_true isVariable
    obtain ⟨v, visited, inserts, makes⟩ := visit_of_symbol? is (.inl role)
    exact ⟨slot, inside, rfl, v, visited, makes.role ▸ role, inserts, makes.declared⟩

/-- A parameter that is called like a type hides it: inside `void f(int float)` the variable of `float x`
has no type, but its line has the one written. -/
example :
    let type (base : String) (column : Nat) : TypeName := ⟨base, none, ⟨1, column⟩⟩
    let program : Program := ⟨[.function "void" "f" [⟨type "int" 8, "float", false, ⟨1, 12⟩⟩]
      [.declaration ⟨type "float" 21, "x", false, ⟨1, 27⟩⟩] ⟨1, 6⟩], ⟨1, 31⟩⟩
    (program.analyze.forest.symbol? ⟨1, 1⟩).map
      (fun x => (x.name, x.type, program.analyze.forest.declared x)) =
        some ("x", none, ⟨"x", "real"⟩) := by
  decide

end Program

end Pascalize
