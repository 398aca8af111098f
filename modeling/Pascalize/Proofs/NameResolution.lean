import Pascalize.Proofs.AnalysisLaws
import Pascalize.Proofs.Moments

/-!
# The analysis resolves names as they bind

The analysis and the walk over names go through the same events. `Tracked` says of a relation between the
two that each of the six ways in which the analysis changes keeps it; then events in turn keep it
(`Tracked.play`), and what is tracked from the start on holds of a program (`Tracked.analyze`).

`Mirrors` says that the symbols of a forest are the things that were given names at the moments so far,
each with the number of its uses. `Agrees` puts the complaints beside it, and it is tracked.
-/

namespace Pascalize

open Moment

/-! ## Analysis and walk side by side -/

/-- The walk is where the analysis is. -/
structure Walk.Follows (w : Walk) (a : Analysis) : Prop where
  standing : a.Standing
  opened : w.opened = a.opened
  fresh : w.fresh = a.forest.scopes.length

namespace Walk.Follows

variable {a a' : Analysis} {w : Walk}

theorem here (h : w.Follows a) : w.here = a.active := by
  rw [Walk.here, h.opened, Analysis.active]

theorem chain (h : w.Follows a) : a.forest.chain a.active = w.scopes := by
  rw [h.standing.chain, Walk.scopes, h.opened]

/-- The active scope and those around it. -/
theorem scopes_eq (h : w.Follows a) : ∃ outer, w.scopes = a.active :: outer := by
  rw [Walk.scopes, h.opened, Analysis.active]
  cases a.opened with
  | nil => exact ⟨[], rfl⟩
  | cons s rest => exact ⟨rest ++ [Forest.global], rfl⟩

/-- Another moment in the same scope. -/
theorem add (h : w.Follows a) (stays : a.Stays a') (standing : a'.Standing) (m : Moment) :
    (w.add m).Follows a' :=
  ⟨standing, h.opened.trans stays.opened.symm, h.fresh.trans stays.length.symm⟩

theorem refer (h : w.Follows a) (name : String) (location : Location) :
    (w.refer name location).Follows (a.refer name location) :=
  h.add (a.stays_refer name location) (h.standing.refer name location) _

theorem useType (h : w.Follows a) (type : TypeName) : (w.useType type).Follows (a.useType type).2 :=
  h.add (a.stays_useType type) (h.standing.useType type) _

theorem insert (h : w.Follows a) (symbol : Symbol) (location : Location) (m : Moment) :
    (w.add m).Follows (a.insert symbol location).2 :=
  h.add (h.standing.stays_insert symbol location) (h.standing.insert symbol location) m

theorem openScope (h : w.Follows a) (name : String) : w.openScope.Follows (a.openScope name) where
  standing := h.standing.openScope name
  opened := by
    show w.fresh :: w.opened = a.forest.scopes.length :: a.opened
    rw [h.fresh, h.opened]
  fresh := by
    show w.fresh + 1 = (a.forest.openScope a.active name).2.scopes.length
    rw [h.fresh, Forest.length_openScope]

theorem sign (h : w.Follows a) {ref : SymbolId} {name returns : String}
    (is : a.forest.face? ref = some (.ofFunction name returns)) (params : List SymbolId) :
    w.Follows (a.sign ref params returns) where
  standing := h.standing.sign is params
  opened := h.opened
  fresh := h.fresh.trans (Analysis.Standing.stays_sign is params).length.symm

theorem leave (h : w.Follows a) : w.leave.Follows a.leave :=
  ⟨h.standing.leave, congrArg List.tail h.opened, h.fresh⟩

theorem start : Walk.start.Follows {} :=
  ⟨.start, rfl, rfl⟩

end Walk.Follows

/-- A relation between analysis and walk that stays, whatever the analysis does. A symbol that is inserted is
what is introduced at that moment but for its type. -/
structure Tracked (P : Analysis → Walk → Prop) : Prop where
  refer : ∀ {a w}, w.Follows a → P a w → ∀ name location,
    P (a.refer name location) (w.refer name location)
  useType : ∀ {a w}, w.Follows a → P a w → ∀ type, P (a.useType type).2 (w.useType type)
  insert : ∀ {a w}, w.Follows a → P a w → ∀ (x : Introduction) symbol, x.scope = a.active →
    { symbol with type := none } = x.symbol → P (a.insert symbol x.location).2 (w.add (.introduction x))
  openScope : ∀ {a w}, w.Follows a → P a w → ∀ name, P (a.openScope name) w.openScope
  sign : ∀ {a w}, w.Follows a → P a w → ∀ {s name ref returns}, a.forest.find? s name = some ref →
    a.forest.face? ref = some (.ofFunction name returns) → ∀ params, P (a.sign ref params returns) w
  leave : ∀ {a w}, w.Follows a → P a w → P a.leave w.leave

namespace Tracked

variable {P : Analysis → Walk → Prop} {a : Analysis} {w : Walk}

/-- A declaration of that role. -/
theorem declare (h : Tracked P) (follows : w.Follows a) (holds : P a w) {role : Role}
    {introduces : ScopeId → Declaration → Introduction} {decl : Declaration}
    (scope : ∀ s, (introduces s decl).scope = s) (location : ∀ s, (introduces s decl).location = decl.location)
    (symbol : ∀ s, (introduces s decl).symbol = decl.symbol role) :
    (w.declare introduces decl).Follows (a.declare role decl).2 ∧
      P (a.declare role decl).2 (w.declare introduces decl) := by
  have typed := follows.useType decl.type
  have active : (introduces w.here decl).scope = (a.useType decl.type).2.active := by
    rw [scope, follows.here, (a.stays_useType decl.type).active]
  have inserted := h.insert typed (h.useType follows holds decl.type) (introduces w.here decl)
    (a.declared role decl) active (symbol w.here).symm
  rw [location] at inserted
  rw [Analysis.declare_snd]
  exact ⟨typed.insert _ _ _, inserted⟩

theorem declareParams (h : Tracked P) (follows : w.Follows a) (holds : P a w) (params : List Declaration) :
    (w.declareParams params).Follows (a.declareParams params).2 ∧
      P (a.declareParams params).2 (w.declareParams params) := by
  induction params generalizing a w with
  | nil => exact ⟨follows, holds⟩
  | cons decl params ih =>
    obtain ⟨follows', holds'⟩ : (w.declare .parameter decl).Follows (a.declare .parameter decl).2 ∧
        P (a.declare .parameter decl).2 (w.declare .parameter decl) :=
      h.declare follows holds (fun _ => rfl) (fun _ => rfl) fun _ => rfl
    exact ih follows' holds'

theorem enter (h : Tracked P) (follows : w.Follows a) (holds : P a w) (returns name : String)
    (params : List Declaration) (location : Location) :
    (w.enter returns name params location).Follows (a.enter returns name params location) ∧
      P (a.enter returns name params location) (w.enter returns name params location) := by
  have named := follows.insert (.ofFunction name returns) location
    (.introduction (.function w.here returns name location))
  have inserted := h.insert follows holds (.function w.here returns name location)
    (.ofFunction name returns) follows.here rfl
  obtain ⟨follows', holds'⟩ :=
    h.declareParams (named.openScope name) (h.openScope named inserted name) params
  obtain ⟨existing, -, same⟩ | ⟨ref, -, -, found, is, same⟩ :=
    follows.standing.enter_cases returns name params location
  · rw [same]
    exact ⟨follows', holds'⟩
  · rw [same]
    exact ⟨follows'.sign is _, h.sign follows' holds' found is _⟩

/-- One event. -/
theorem step (h : Tracked P) (follows : w.Follows a) (holds : P a w) (e : Event) :
    (w.step e).Follows (a.step e) ∧ P (a.step e) (w.step e) := by
  cases e with
  | refer name location => exact ⟨follows.refer name location, h.refer follows holds name location⟩
  | declare decl => exact h.declare follows holds (fun _ => rfl) (fun _ => rfl) fun _ => rfl
  | enter returns name params location => exact h.enter follows holds returns name params location
  | leave => exact ⟨follows.leave, h.leave follows holds⟩

/-- Events in turn. -/
theorem play (h : Tracked P) (follows : w.Follows a) (holds : P a w) (events : List Event) :
    (w.play events).Follows (a.play events) ∧ P (a.play events) (w.play events) := by
  induction events generalizing a w with
  | nil => exact ⟨follows, holds⟩
  | cons e events ih =>
    obtain ⟨follows', holds'⟩ := h.step follows holds e
    exact ih follows' holds'

end Tracked

/-! ## Symbols and moments -/

/-- The forest is what the moments make of it. -/
structure Mirrors (f : Forest) (moments : List Moment) : Prop where
  symbols : ∀ s name, (f.named? s name).map (fun symbol => (symbol.isType, symbol.uses)) =
    (given? moments s name).map fun b => (b.isBuiltin, .ofNat (useCount moments s name))
  unused : ∀ s name, given? moments s name = none → useCount moments s name = 0
  chains : ∀ m ∈ moments, ∀ s outer, m.scopes = s :: outer → f.chain s = s :: outer

namespace Mirrors

variable {f : Forest} {moments : List Moment} {m : Moment} {s : ScopeId} {outer : List ScopeId}
  {ref : SymbolId} {name : String}

theorem given?_eq_none (h : Mirrors f moments) (indexed : f.Indexed) (free : f.find? s name = none) :
    given? moments s name = none := by
  have symbols := h.symbols s name
  rw [indexed.named?_eq_none_iff.2 free] at symbols
  exact Option.map_eq_none_iff.1 symbols.symm

/-- A symbol that is found was given its name. -/
theorem given?_of_find? (h : Mirrors f moments) (indexed : f.Indexed) (found : f.find? s name = some ref) :
    ∃ symbol, f.symbol? ref = some symbol ∧ given? moments s name = some ⟨s, symbol.isType⟩ ∧
      symbol.uses = .ofNat (useCount moments s name) := by
  obtain ⟨symbol, is⟩ := indexed.symbol?_of_find? found
  have symbols := h.symbols s name
  simp only [Forest.named?, found, Option.bind_some, is, Option.map_some] at symbols
  obtain ⟨b, given, same⟩ := Option.map_eq_some_iff.1 symbols.symm
  obtain ⟨isBuiltin, first, rfl⟩ := Option.map_eq_some_iff.1 given
  obtain ⟨rfl, uses⟩ := Prod.mk.inj same
  exact ⟨symbol, is, given, uses.symm⟩

/-- Looking a name up along scopes finds what it binds to. -/
theorem lookup (h : Mirrors f moments) (indexed : f.Indexed) (scopes : List ScopeId) (name : String) :
    (scopes.findSome? (f.find? · name) = none ∧ bound? moments scopes name = none) ∨
    ∃ ref symbol, scopes.findSome? (f.find? · name) = some ref ∧ f.find? ref.scope name = some ref ∧
      f.symbol? ref = some symbol ∧ bound? moments scopes name = some ⟨ref.scope, symbol.isType⟩ := by
  induction scopes with
  | nil => exact .inl ⟨rfl, rfl⟩
  | cons s scopes ih =>
    rw [bound?, List.findSome?_cons, List.findSome?_cons]
    cases found : f.find? s name with
    | none =>
      rw [h.given?_eq_none indexed found]
      exact ih
    | some ref =>
      obtain ⟨rfl, -⟩ := Forest.of_find? found
      obtain ⟨symbol, is, given, -⟩ := h.given?_of_find? indexed found
      rw [given]
      exact .inr ⟨ref, symbol, rfl, found, is, rfl⟩

theorem chains_add (h : Mirrors f moments) (m : Moment)
    (chain : ∀ s outer, m.scopes = s :: outer → f.chain s = s :: outer) :
    ∀ m' ∈ moments ++ [m], ∀ s outer, m'.scopes = s :: outer → f.chain s = s :: outer := by
  intro m' member
  obtain old | new := List.mem_append.1 member
  · exact h.chains m' old
  · rw [List.mem_singleton.1 new]
    exact chain

/-- A use is made from the scopes around it. -/
theorem chains_use (h : Mirrors f moments) (use : m.scopes = s :: outer) (chain : f.chain s = s :: outer) :
    ∀ m' ∈ moments ++ [m], ∀ s outer, m'.scopes = s :: outer → f.chain s = s :: outer := by
  refine h.chains_add m fun s' outer' scopes => ?_
  rw [use] at scopes
  cases scopes
  exact chain

/-- A use that binds to nothing changes nothing. -/
theorem use_unbound (h : Mirrors f moments) (use : m.scopes = s :: outer)
    (chain : f.chain s = s :: outer) (free : bound? moments m.scopes m.name = none) :
    Mirrors f (moments ++ [m]) := by
  have same (s' : ScopeId) (name : String) :
      useCount (moments ++ [m]) s' name = useCount moments s' name := by
    simp [useCount_add, free]
  refine ⟨?_, ?_, h.chains_use use chain⟩
  · intro s' name
    rw [given?_use use, same]
    exact h.symbols s' name
  · intro s' name
    rw [given?_use use, same]
    exact h.unused s' name

/-- A use that binds is counted. -/
theorem use_bound (h : Mirrors f moments) (indexed : f.Indexed) (use : m.scopes = s :: outer)
    (chain : f.chain s = s :: outer) (found : f.find? ref.scope m.name = some ref) {b : Binding}
    (bound : bound? moments m.scopes m.name = some b) (inScope : b.scope = ref.scope) :
    Mirrors (f.modifySymbol ref fun symbol => { symbol with uses := symbol.uses + 1 })
      (moments ++ [m]) := by
  have count (s' : ScopeId) (name : String) : useCount (moments ++ [m]) s' name =
      useCount moments s' name + if ref.scope = s' ∧ m.name = name then 1 else 0 := by
    simp [useCount_add, bound, inScope, and_comm]
  refine ⟨?_, ?_, ?_⟩
  · intro s' name'
    rw [given?_use use, count, indexed.named?_modifySymbol found]
    split
    next here =>
      obtain ⟨rfl, rfl⟩ := here
      obtain ⟨symbol, is, given, uses⟩ := h.given?_of_find? indexed found
      rw [Forest.named?_of_find? found is, given, Option.map_some, Option.map_some, Option.map_some, uses,
        UInt32.ofNat_add]
      rfl
    next => simpa using h.symbols s' name'
  · intro s' name' free
    rw [given?_use use] at free
    rw [count, h.unused s' name' free, if_neg]
    rintro ⟨rfl, rfl⟩
    rw [← inScope, (given?_of_bound? bound).2] at free
    cases free
  · intro m' member s' outer' scopes
    rw [Forest.chain_modifySymbol]
    exact h.chains_use use chain m' member s' outer' scopes

/-- Looking a name up is a use of it: the forest that it leaves mirrors one moment more, and what it
finds is a type exactly if the name binds to one. -/
theorem resolve (h : Mirrors f moments) (indexed : f.Indexed) (use : m.scopes = s :: outer)
    (chain : f.chain s = s :: outer) :
    Mirrors (f.resolve s m.name).2 (moments ++ [m]) ∧
    (f.resolve s m.name).1.map (fun ref => ((f.resolve s m.name).2.symbol? ref).any Symbol.isType) =
      (bound? moments (s :: outer) m.name).map (·.isBuiltin) := by
  rw [Forest.resolve, Forest.lookup, chain]
  obtain ⟨none, free⟩ | ⟨ref, symbol, some, found, is, bound⟩ := h.lookup indexed (s :: outer) m.name
  · simp only [none, free]
    rw [← use] at free
    exact ⟨h.use_unbound use chain free, rfl⟩
  · simp only [some, bound]
    rw [← use] at bound
    refine ⟨h.use_bound indexed use chain found bound rfl, ?_⟩
    simp [Forest.symbol?_modifySymbol, is, Symbol.isType]

/-- A symbol under a free name is given that name. -/
theorem insert_free (h : Mirrors f moments) (indexed : f.Indexed) {scope : Scope} {x : Introduction}
    (there : f.scope? x.scope = some scope) (free : f.find? x.scope x.name = none) {symbol : Symbol}
    (same : { symbol with type := none } = x.symbol) :
    Mirrors (f.modifyScope x.scope (·.push symbol)) (moments ++ [Moment.introduction x]) := by
  have name : symbol.name = x.name := by rw [← x.name_symbol, ← same]
  have uses : symbol.uses = 0 := by rw [← x.uses_symbol, ← same]
  have isType : symbol.isType = false := by
    rw [← x.isType_symbol, ← same]
    rfl
  refine ⟨?_, ?_, ?_⟩
  · intro s' name'
    rw [given?_introduction, useCount_introduction, indexed.named?_push there, name]
    split
    next here =>
      obtain ⟨rfl, rfl⟩ := here
      have none := h.given?_eq_none indexed free
      simp [none, h.unused _ _ none, uses, isType]
    next =>
      rw [Option.or_none]
      exact h.symbols s' name'
  · intro s' name' free
    rw [given?_introduction, Option.or_eq_none_iff] at free
    rw [useCount_introduction]
    exact h.unused s' name' free.1
  · intro m member s' outer' scopes
    rw [Forest.chain_push]
    refine h.chains_add (.introduction x) ?_ m member s' outer' scopes
    intro _ _ scopes
    cases scopes

/-- A taken name stays with the first that was given it. -/
theorem insert_taken (h : Mirrors f moments) (indexed : f.Indexed) {x : Introduction}
    (taken : f.find? x.scope x.name = some ref) : Mirrors f (moments ++ [Moment.introduction x]) := by
  have given (s' : ScopeId) (name' : String) :
      given? (moments ++ [Moment.introduction x]) s' name' = given? moments s' name' := by
    rw [given?_introduction]
    split
    next here =>
      obtain ⟨rfl, rfl⟩ := here
      obtain ⟨symbol, -, given, -⟩ := h.given?_of_find? indexed taken
      simp [given]
    next => simp
  refine ⟨?_, ?_, h.chains_add _ fun _ _ scopes => by cases scopes⟩
  · intro s' name'
    rw [given, useCount_introduction]
    exact h.symbols s' name'
  · intro s' name'
    rw [given, useCount_introduction]
    exact h.unused s' name'

theorem openScope (h : Mirrors f moments) (rooted : f.Rooted) {id : ScopeId} (valid : id < f.scopes.length)
    (name : String) : Mirrors (f.openScope id name).2 moments := by
  refine ⟨?_, h.unused, ?_⟩
  · intro s name'
    rw [Forest.named?_openScope]
    exact h.symbols s name'
  · intro m member s outer scopes
    have old := h.chains m member s outer scopes
    rw [rooted.chain_openScope valid name (Forest.scope?_isSome_iff.1 (Forest.scope?_of_chain old)), old]

/-- The symbol of a function gets its parameters. -/
theorem setRole (h : Mirrors f moments) (indexed : f.Indexed) (found : f.find? s name = some ref)
    {face : Symbol} (is : f.face? ref = some face) (noType : face.isType = false) {role : Role}
    (noType' : role ≠ .builtin) : Mirrors (f.modifySymbol ref fun symbol => { symbol with role }) moments := by
  refine ⟨?_, h.unused, ?_⟩
  · intro s' name'
    rw [← h.symbols s' name', indexed.named?_modifySymbol found]
    split
    next here =>
      obtain ⟨rfl, rfl⟩ := here
      obtain ⟨symbol, there, rfl⟩ := Option.map_eq_some_iff.1 is
      rw [Symbol.isType_face] at noType
      have plain : ({ symbol with role } : Symbol).isType = false := by simp [Symbol.isType, noType']
      rw [Forest.named?_of_find? found there, Option.map_some, Option.map_some, Option.map_some, noType, plain]
    next => rfl
  · intro m member s' outer scopes
    rw [Forest.chain_modifySymbol]
    exact h.chains m member s' outer scopes

/-- At the start the global scope holds the builtin types and nothing else. -/
theorem start : Mirrors .start Walk.start.moments where
  symbols s name := by
    by_cases builtin : s = Forest.global ∧ name ∈ Forest.builtinTypes
    · obtain ⟨rfl, is⟩ := builtin
      simp only [Forest.builtinTypes, List.mem_cons, List.not_mem_nil, or_false] at is
      rcases is with rfl | rfl | rfl | rfl | rfl <;> rfl
    · have free : Forest.start.named? s name = none := by
        rw [Option.eq_none_iff_forall_ne_some]
        intro symbol named
        obtain ⟨scope, there, member, rfl⟩ := Forest.titled_start.mem_of_named? named
        rw [Forest.scope?_start] at there
        split at there
        next isGlobal =>
          obtain rfl := Option.some.inj there
          exact builtin ⟨isGlobal, List.mem_map_of_mem (f := Symbol.name) member⟩
        next => cases there
      have none : given? Walk.start.moments s name = none := by
        rw [given?, Option.map_eq_none_iff, List.findSome?_eq_none_iff]
        intro m member
        obtain ⟨type, is, rfl⟩ := List.mem_map.1 member
        rw [gives?, if_neg]
        rintro ⟨rfl, rfl⟩
        exact builtin ⟨rfl, is⟩
      rw [free, none]
      rfl
  unused s name _ := by
    have idle : resolved Walk.start.moments = Walk.start.moments.map (·, none) := rfl
    rw [useCount, idle]
    simp
  chains m member s outer scopes := by
    obtain ⟨type, is, rfl⟩ := List.mem_map.1 member
    cases scopes

end Mirrors

/-! ## Complaints and moments -/

/-- A complaint about an unknown name. -/
def Diagnostic.undeclared? (d : Diagnostic) : Option (String × Location) :=
  match d.complaint with
  | .undeclared name => some (name, d.location)
  | _ => none

/-- A complaint about the name of a type. -/
def Diagnostic.undefinedType? (d : Diagnostic) : Option (String × Location) :=
  match d.complaint with
  | .undefinedType name => some (name, d.location)
  | _ => none

theorem Analysis.filterMap_report {β : Type} (a : Analysis) (complaint : Complaint)
    (location : Location) (p : Diagnostic → Option β) :
    (a.report complaint location).diagnostics.filterMap p =
      a.diagnostics.filterMap p ++ (p ⟨complaint, location⟩).toList := by
  rw [Analysis.report, List.filterMap_append]
  cases is : p ⟨complaint, location⟩ <;> simp [is]

/-- The analysis has seen the moments of the walk. -/
structure Agrees (a : Analysis) (w : Walk) : Prop where
  mirrors : Mirrors a.forest w.moments
  undeclared : a.diagnostics.filterMap Diagnostic.undeclared? = unbound w.moments
  undefined : a.diagnostics.filterMap Diagnostic.undefinedType? = untyped w.moments

namespace Agrees

variable {a : Analysis} {w : Walk}

/-- A reference to a name. -/
theorem refer (h : Agrees a w) (follows : w.Follows a) (name : String) (location : Location) :
    Agrees (a.refer name location) (w.refer name location) := by
  obtain ⟨outer, scopes⟩ := follows.scopes_eq
  have chain := follows.chain.trans scopes
  obtain ⟨mirrors, flag⟩ := h.mirrors.resolve follows.standing.indexed
    (m := .reference w.scopes name location) scopes chain
  rw [Moment.name] at mirrors flag
  rw [← Analysis.forest_refer a name location] at mirrors
  rw [← scopes] at flag
  refine ⟨mirrors, ?_, ?_⟩ <;> rw [Analysis.refer]
  · rcases resolved : a.forest.resolve a.active name with ⟨found, forest⟩
    simp only [resolved] at flag
    simp only [Walk.refer, Walk.add, unbound_reference]
    cases found with
    | none =>
      have free : bound? w.moments w.scopes name = none := Option.map_eq_none_iff.1 flag.symm
      simp [Analysis.filterMap_report, free, Diagnostic.undeclared?, h.undeclared]
    | some ref =>
      obtain ⟨b, bound, -⟩ := Option.map_eq_some_iff.1 flag.symm
      simp [bound, h.undeclared]
  · simp only [Walk.refer, Walk.add, untyped_reference]
    split
    · exact h.undefined
    · simp [Analysis.filterMap_report, Diagnostic.undefinedType?, h.undefined]

/-- The name of a type. -/
theorem useType (h : Agrees a w) (follows : w.Follows a) (type : TypeName) :
    Agrees (a.useType type).2 (w.useType type) := by
  obtain ⟨outer, scopes⟩ := follows.scopes_eq
  have chain := follows.chain.trans scopes
  obtain ⟨mirrors, flag⟩ := h.mirrors.resolve follows.standing.indexed
    (m := .typeName w.scopes type.base type.location) scopes chain
  rw [Moment.name] at mirrors flag
  rw [← Analysis.forest_useType a type] at mirrors
  rw [← scopes] at flag
  refine ⟨mirrors, ?_, ?_⟩ <;> rw [Analysis.useType]
  · simp only [Walk.useType, Walk.add, unbound_typeName]
    split
    · exact h.undeclared
    · simp [Analysis.filterMap_report, Diagnostic.undeclared?, h.undeclared]
  · rcases resolved : a.forest.resolve a.active type.base with ⟨found, forest⟩
    simp only [resolved] at flag
    simp only [Walk.useType, Walk.add, untyped_typeName]
    -- What is found counts as a type exactly if the name binds to one.
    have typed : (found.filter fun ref => (forest.symbol? ref).any Symbol.isType).isSome =
        (bound? w.moments w.scopes type.base).any (·.isBuiltin) := by
      cases found with
      | none =>
        rw [Option.map_eq_none_iff.1 flag.symm]
        rfl
      | some ref =>
        obtain ⟨b, bound, same⟩ := Option.map_eq_some_iff.1 flag.symm
        simp only [bound, Option.filter_some, Option.any_some, same]
        cases (forest.symbol? ref).any Symbol.isType <;> rfl
    split
    next ref is => simp [← typed, is, h.undefined]
    next is => simp [Analysis.filterMap_report, ← typed, is, Diagnostic.undefinedType?, h.undefined]

/-- A name that is given to a new symbol. -/
theorem insert (h : Agrees a w) (follows : w.Follows a) {x : Introduction} (scope : x.scope = a.active)
    {symbol : Symbol} (same : { symbol with type := none } = x.symbol) :
    Agrees (a.insert symbol x.location).2 (w.add (.introduction x)) := by
  have name : symbol.name = x.name := by rw [← x.name_symbol, ← same]
  have indexed := follows.standing.indexed
  obtain ⟨s, there⟩ := follows.standing.scope
  cases found : a.forest.find? a.active symbol.name with
  | some existing =>
    rw [Analysis.insert_of_taken found]
    refine ⟨h.mirrors.insert_taken indexed (by rw [scope, ← name]; exact found), ?_, ?_⟩
    · simp [Analysis.filterMap_report, Walk.add, Diagnostic.undeclared?, h.undeclared]
    · simp [Analysis.filterMap_report, Walk.add, Diagnostic.undefinedType?, h.undefined]
  | none =>
    rw [Analysis.insert_of_free there found, ← scope]
    refine ⟨h.mirrors.insert_free indexed (scope ▸ there) (by rw [scope, ← name]; exact found) same, ?_, ?_⟩
    · simp [Walk.add, h.undeclared]
    · simp [Walk.add, h.undefined]

end Agrees

theorem tracked_agrees : Tracked Agrees where
  refer follows h name location := h.refer follows name location
  useType follows h type := h.useType follows type
  insert follows h x symbol scope same := h.insert follows scope same
  openScope follows h name :=
    ⟨h.mirrors.openScope follows.standing.rooted follows.standing.known name, h.undeclared, h.undefined⟩
  sign follows h _ _ _ _ found is _ :=
    ⟨h.mirrors.setRole follows.standing.indexed found is rfl (by simp), h.undeclared, h.undefined⟩
  leave _ h := ⟨h.mirrors, h.undeclared, h.undefined⟩

theorem Agrees.start : Agrees {} .start :=
  ⟨.start, rfl, rfl⟩

/-- At the end of a program. -/
theorem Program.agrees_play (program : Program) :
    Agrees (({} : Analysis).play (Node.eventsAll program.statements))
      (Walk.start.play (Node.eventsAll program.statements)) :=
  (tracked_agrees.play .start .start _).2

theorem Program.mirrors_analyze (program : Program) : Mirrors program.analyze.forest program.moments := by
  rw [forest_analyze, moments_eq_play]
  exact program.agrees_play.mirrors

/-- **Names resolve as they bind**: after the analysis of a program, every symbol has been used as
often as names have bound to it, counted in 32 bits, which is the number itself if there are fewer uses
than that. The complaints about unknown names are the references that bind to nothing, and the complaints
about types the names of types that bind to no builtin type, all in the order of the walk. What names bind
to are symbols of the forest, and the scopes around a name are the chain of its scope. -/
theorem Program.analyze_resolves (program : Program) :
    (∀ s scope, program.analyze.forest.scope? s = some scope → ∀ symbol ∈ scope.symbols,
      symbol.uses.toNat = useCount program.moments s symbol.name % UInt32.size) ∧
    (program.moments.countP isUse < UInt32.size →
      ∀ s scope, program.analyze.forest.scope? s = some scope → ∀ symbol ∈ scope.symbols,
        symbol.uses.toNat = useCount program.moments s symbol.name) ∧
    (∀ s name b, given? program.moments s name = some b → ∃ scope symbol,
      program.analyze.forest.scope? s = some scope ∧ symbol ∈ scope.symbols ∧ symbol.name = name ∧
        symbol.isType = b.isBuiltin) ∧
    (∀ m ∈ program.moments, ∀ s outer, m.scopes = s :: outer →
      program.analyze.forest.chain s = s :: outer) ∧
    program.analyze.diagnostics.filterMap Diagnostic.undeclared? = unbound program.moments ∧
    program.analyze.diagnostics.filterMap Diagnostic.undefinedType? = untyped program.moments := by
  have titled := program.titled_analyze
  have mirrors := program.mirrors_analyze
  have counted (s : ScopeId) (scope : Scope) (there : program.analyze.forest.scope? s = some scope)
      (symbol : Symbol) (member : symbol ∈ scope.symbols) :
      symbol.uses.toNat = useCount program.moments s symbol.name % UInt32.size := by
    have symbols := mirrors.symbols s symbol.name
    rw [titled.named? there member, Option.map_some] at symbols
    obtain ⟨b, -, same⟩ := Option.map_eq_some_iff.1 symbols.symm
    rw [← (Prod.mk.inj same).2]
    exact UInt32.toNat_ofNat'
  refine ⟨counted, fun few s scope there symbol member => ?_, fun s name b given => ?_, mirrors.chains, ?_, ?_⟩
  · rw [counted s scope there symbol member]
    exact Nat.mod_eq_of_lt (Nat.lt_of_le_of_lt (useCount_le _ s symbol.name) few)
  · have symbols := mirrors.symbols s name
    rw [given, Option.map_some] at symbols
    obtain ⟨symbol, named, same⟩ := Option.map_eq_some_iff.1 symbols
    obtain ⟨scope, there, member, title⟩ := titled.mem_of_named? named
    exact ⟨scope, symbol, there, member, title, (Prod.mk.inj same).1⟩
  · rw [moments_eq_play, ← program.agrees_play.undeclared, Program.analyze]
    split
    · rfl
    · simp [Analysis.filterMap_report, Diagnostic.undeclared?]
  · rw [moments_eq_play, ← program.agrees_play.undefined, Program.analyze]
    split
    · rfl
    · simp [Analysis.filterMap_report, Diagnostic.undefinedType?]

end Pascalize
