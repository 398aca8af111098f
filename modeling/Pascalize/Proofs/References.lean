import Pascalize.Proofs.NameResolution

/-!
# References over time

A reference stands somewhere among the events of a program, and is resolved in the scopes as they are
then. What it was resolved to is still there at the end, since events only ever add to scopes
(`Analysis.Standing.precedes_play`), and it counts as used. Names that come into a scope later may hide it,
but no parameters: a scope has its parameters from the start (`Analysis.Standing.find?_of_parameter`).
-/

namespace Pascalize

namespace Analysis.Standing

open Forest

variable {a : Analysis} {s : ScopeId} {name : String} {ref : SymbolId} {face : Symbol}

/-- The parameters of a function come into its own scope, and it into the scope around. -/
theorem find?_headed (h : a.Standing) (returns title : String) (params : List Declaration)
    (location : Location) (known : s < a.forest.scopes.length) (name : String) :
    (a.headed returns title params location).2.forest.find? s name =
      (a.insert (.ofFunction title returns) location).2.forest.find? s name := by
  have named := h.insert (.ofFunction title returns) location
  have stays := h.stays_insert (.ofFunction title returns) location
  have other : ((a.insert (.ofFunction title returns) location).2.openScope title).active ≠ s := by
    rw [active_openScope, stays.length]
    exact Nat.ne_of_gt known
  rw [Analysis.headed, (named.openScope title).find?_declareParams params other]
  exact find?_openScope _ _ _ _ _

/-- What a scope has after the head of a function it had before, unless it is the symbol of the function. -/
theorem of_find?_headed (h : a.Standing) {returns title : String} {params : List Declaration}
    {location : Location} (known : s < a.forest.scopes.length)
    (found : (a.headed returns title params location).2.forest.find? s name = some ref) :
    a.forest.find? s name = some ref ∨
      (a.headed returns title params location).2.forest.face? ref =
        some (Symbol.ofFunction title returns).face := by
  have named := h.insert (.ofFunction title returns) location
  have later : (a.insert (.ofFunction title returns) location).2.forest.Precedes
      (a.headed returns title params location).2.forest :=
    ((named.precedes_openScope title).trans
      ((named.openScope title).declareParams params).2.toPrecedes).forest
  rw [h.find?_headed returns title params location known] at found
  exact (h.of_find?_insert found).imp_right (later.faces ref _)

/-- The head of a function brings no parameters into the scopes around. -/
theorem find?_of_parameter_enter (h : a.Standing) (known : s < a.forest.scopes.length)
    {returns title : String} {params : List Declaration} {location : Location}
    (found : (a.enter returns title params location).forest.find? s name = some ref)
    (is : (a.enter returns title params location).forest.face? ref = some face)
    (role : face.role = .parameter) : a.forest.find? s name = some ref := by
  have before : (a.headed returns title params location).2.forest.find? s name = some ref ∧
      (a.headed returns title params location).2.forest.face? ref = some face := by
    obtain ⟨_, -, same⟩ | ⟨ref', -, -, -, isFunction, same⟩ := h.enter_cases returns title params location
    · rw [same] at found is
      exact ⟨found, is⟩
    · rw [same] at found is
      rw [Analysis.sign, find?_modifySymbol] at found
      rw [Analysis.sign, face?_setRole _ isFunction rfl] at is
      exact ⟨found, is⟩
  obtain old | new := h.of_find?_headed known before.1
  · exact old
  · -- The symbol of the function is none of a parameter.
    rw [before.2, Option.some.injEq] at new
    subst new
    cases role

/-- An event brings no parameters into scopes that are there already. -/
theorem find?_of_parameter_step (h : a.Standing) (known : s < a.forest.scopes.length) (e : Event)
    (found : (a.step e).forest.find? s name = some ref)
    (is : (a.step e).forest.face? ref = some face) (role : face.role = .parameter) :
    a.forest.find? s name = some ref := by
  cases e with
  | refer name' location =>
    rw [Analysis.step, forest_refer, find?_resolve] at found
    exact found
  | leave => exact found
  | declare decl =>
    rw [Analysis.step, declare_snd] at found is
    obtain old | new := (h.useType decl.type).of_find?_insert found
    · rwa [forest_useType, find?_resolve] at old
    · rw [new, Option.some.injEq] at is
      subst is
      cases role
  | enter returns title params location => exact h.find?_of_parameter_enter known found is role

/-- Events in turn bring no parameters into scopes that are there already. -/
theorem find?_of_parameter (h : a.Standing) (known : s < a.forest.scopes.length) (events : List Event)
    (found : (a.play events).forest.find? s name = some ref)
    (is : (a.play events).forest.face? ref = some face) (role : face.role = .parameter) :
    a.forest.find? s name = some ref := by
  induction events generalizing a with
  | nil => exact found
  | cons e events ih =>
    have standing := h.step e
    have first := ih standing (Nat.lt_of_lt_of_le known (h.precedes_step e).forest.length) found is
    obtain ⟨symbol, there⟩ := standing.indexed.symbol?_of_find? first
    have same := (standing.precedes_play events).forest.faces ref _ (face?_of_symbol? there)
    have here : (a.step e).forest.face? ref = some face := by
      rw [face?_of_symbol? there, ← same]
      exact is
    exact h.find?_of_parameter_step known e first here role

end Analysis.Standing

/-- A reference to a name among the events of a program. -/
structure Program.Reference (program : Program) where
  before : List Event
  name : String
  location : Location
  after : List Event
  split : Node.eventsAll program.statements = before ++ .refer name location :: after

namespace Program.Reference

variable {program : Program} (r : program.Reference) {ref : SymbolId}

/-- The analysis when it comes to the reference. -/
def analysis : Analysis :=
  ({} : Analysis).play r.before

/-- The scope that the reference stands in. -/
def scope : ScopeId :=
  r.analysis.active

/-- What the reference is resolved to. -/
def resolved? : Option SymbolId :=
  r.analysis.forest.lookup r.scope r.name

theorem standing : r.analysis.Standing :=
  Analysis.Standing.start.play r.before

theorem analyze_eq_play : program.analyze.forest =
    (r.analysis.play (.refer r.name r.location :: r.after)).forest := by
  rw [forest_analyze, r.split, Analysis.play_append]
  rfl

theorem moments_eq_play : program.moments =
    (((Walk.start.play r.before).refer r.name r.location).play r.after).moments := by
  rw [Program.moments_eq_play, r.split, Walk.play_append]
  rfl

theorem precedes : r.analysis.forest.Precedes program.analyze.forest := by
  rw [r.analyze_eq_play]
  exact (r.standing.precedes_play _).forest

/-- The scopes around a reference stay. -/
theorem chain_analyze : program.analyze.forest.chain r.scope = r.analysis.forest.chain r.scope :=
  r.precedes.chains r.scope r.standing.known

/-- A parameter at the end was there when the reference was made, if its scope was. -/
theorem find?_of_parameter {s : ScopeId} {symbol : Symbol} (known : s < r.analysis.forest.scopes.length)
    (found : program.analyze.forest.find? s r.name = some ref)
    (is : program.analyze.forest.symbol? ref = some symbol) (role : symbol.role = .parameter) :
    r.analysis.forest.find? s r.name = some ref := by
  rw [r.analyze_eq_play] at found is
  exact r.standing.find?_of_parameter known _ found (Forest.face?_of_symbol? is)
    (Role.bare_eq_parameter.2 role)

variable {r}

/-- The name is found in the scope of the symbol then and later, and then in no scope nearer. -/
theorem of_resolved (resolved : r.resolved? = some ref) : ∃ nearer farther,
    program.analyze.forest.chain r.scope = nearer ++ ref.scope :: farther ∧
    (∀ s ∈ nearer, r.analysis.forest.find? s r.name = none) ∧
    r.analysis.forest.find? ref.scope r.name = some ref ∧
    program.analyze.forest.find? ref.scope r.name = some ref := by
  rw [resolved?, Forest.lookup, List.findSome?_eq_some_iff] at resolved
  obtain ⟨nearer, s, farther, chain, found, free⟩ := resolved
  obtain ⟨rfl, -⟩ := Forest.of_find? found
  exact ⟨nearer, farther, r.chain_analyze.trans chain, free, found, r.precedes.names _ _ _ found⟩

/-- At the end the name is found again. It is found elsewhere iff that is where it was declared later, in a
scope nearer than the one of the symbol. -/
theorem lookup_analyze (resolved : r.resolved? = some ref) : ∃ last,
    program.analyze.forest.lookup r.scope r.name = some last ∧
    program.analyze.forest.find? last.scope r.name = some last ∧
    (last = ref ↔ r.analysis.forest.find? last.scope r.name ≠ none) := by
  obtain ⟨nearer, farther, chain, free, found, later⟩ := of_resolved resolved
  rw [Forest.lookup, chain, List.findSome?_append, List.findSome?_cons, later]
  cases near : nearer.findSome? (program.analyze.forest.find? · r.name) with
  | none => exact ⟨ref, rfl, later, by simp [found]⟩
  | some last =>
    obtain ⟨s, member, is⟩ := List.exists_of_findSome?_eq_some near
    obtain ⟨rfl, -⟩ := Forest.of_find? is
    refine ⟨last, rfl, is, ?_⟩
    rw [free _ member]
    simp only [ne_eq, not_true_eq_false, iff_false]
    rintro rfl
    cases (free _ member).symm.trans found

/-- When the walk comes to the name, it binds in the scope of the symbol. -/
theorem bound?_of_resolved (resolved : r.resolved? = some ref) :
    ∃ b, Moment.bound? (Walk.start.play r.before).moments (Walk.start.play r.before).scopes r.name = some b ∧
      b.scope = ref.scope := by
  obtain ⟨follows, agrees⟩ := tracked_agrees.play .start .start r.before
  rw [resolved?, Forest.lookup, scope, analysis, follows.chain] at resolved
  obtain ⟨none, -⟩ | ⟨ref', symbol, some, -, -, bound⟩ := agrees.mirrors.lookup r.standing.indexed _ r.name
  · cases resolved.symm.trans none
  · obtain rfl := Option.some.inj (resolved.symm.trans some)
    exact ⟨_, bound, rfl⟩

/-- A reference is a use of what it is resolved to. -/
theorem useCount_pos (resolved : r.resolved? = some ref) :
    0 < Moment.useCount program.moments ref.scope r.name := by
  obtain ⟨b, bound, inScope⟩ := bound?_of_resolved resolved
  have moments := r.moments_eq_play
  generalize Walk.start.play r.before = w at bound moments
  have counted : Moment.useCount (w.refer r.name r.location).moments ref.scope r.name =
      Moment.useCount w.moments ref.scope r.name + 1 := by
    rw [Walk.refer, Walk.add, Moment.useCount_add]
    simp [Moment.name, Moment.scopes, bound, inScope]
  have more := Moment.useCount_le_of_prefix ((w.refer r.name r.location).prefix_play r.after) ref.scope r.name
  rw [counted, ← moments] at more
  exact Nat.lt_of_lt_of_le (Nat.succ_pos _) more

/-- The symbol that a reference is resolved to counts as used, as long as it has not too many uses. -/
theorem used_of_resolved (resolved : r.resolved? = some ref)
    (few : Moment.useCount program.moments ref.scope r.name < UInt32.size) :
    ∃ symbol, program.analyze.forest.symbol? ref = some symbol ∧ symbol.uses ≠ 0 := by
  obtain ⟨-, -, -, -, -, later⟩ := of_resolved resolved
  obtain ⟨symbol, is, -, uses⟩ :=
    program.mirrors_analyze.given?_of_find? program.titled_analyze.indexed later
  refine ⟨symbol, is, fun zero => ?_⟩
  rw [zero] at uses
  have same := congrArg UInt32.toNat uses
  rw [UInt32.toNat_ofNat_of_lt' few] at same
  exact absurd same (Nat.ne_of_lt (useCount_pos resolved))

end Program.Reference

end Pascalize
