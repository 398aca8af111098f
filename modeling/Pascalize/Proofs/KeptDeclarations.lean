import Pascalize.Proofs.NameBinding
import Pascalize.Proofs.NamesInText
import Pascalize.Proofs.UnusedVariables

/-!
# Names that are written keep their declarations

With unused variables left out, each variable that the text refers to still has its line. Three things
lead to this. What the lines of statements mention is known (`Node.mentions_linesAll`). Each mention is
an event of the analysis, in the scope that the statements belong to (`Node.refer_of_mention`). And a
reference is a use of its symbol, so the symbol is not left out where its scope is written, as long as its
uses can be counted.
-/

namespace Pascalize

open Pascal

/-! ## Mentions are references -/

/-- Among the events there is a reference, in the scope that they start in. -/
def Refers (events : List Event) (name : String) (location : Location) : Prop :=
  ∃ before after, events = before ++ .refer name location :: after ∧
    ∀ a : Analysis, a.Standing → (a.play before).active = a.active

namespace Refers

variable {events events' : List Event} {name : String} {location : Location}

theorem here (name : String) (location : Location) (rest : List Event) :
    Refers (.refer name location :: rest) name location :=
  ⟨[], rest, rfl, fun _ _ => rfl⟩

/-- A reference among the first events is one among all. -/
theorem left (h : Refers events name location) : Refers (events ++ events') name location := by
  obtain ⟨before, after, rfl, stays⟩ := h
  exact ⟨before, after ++ events', by simp, stays⟩

/-- A reference among the second events, if the first ones leave the active scope as it was. -/
theorem right (h : Refers events' name location)
    (stays : ∀ a : Analysis, a.Standing → (a.play events).active = a.active) :
    Refers (events ++ events') name location := by
  obtain ⟨before, after, rfl, stays'⟩ := h
  refine ⟨events ++ before, after, by simp, fun a standing => ?_⟩
  rw [Analysis.play_append, stays' _ (standing.play events), stays a standing]

theorem cons {event : Event} (h : Refers events name location)
    (stays : ∀ a : Analysis, a.Standing → (a.step event).active = a.active) :
    Refers (event :: events) name location := by
  have whole : Refers ([event] ++ events) name location := h.right stays
  exact whole

end Refers

mutual

/-- What a node mentions is referred to in the scope of the node. -/
theorem Node.refer_of_mention {name : String} {location : Location} (node : Node)
    (h : .reference name location ∈ node.mentions) : Refers node.events name location := by
  cases node with
  | var s place | reference s place =>
    rw [mentions, List.mem_singleton] at h
    cases h
    exact .here name location []
  | call s args place =>
    rw [mentions, List.mem_cons] at h
    rw [events]
    obtain same | inside := h
    · cases same
      exact .here name location _
    · exact (refer_of_mentionAll args inside).cons fun a _ => (a.stays_refer s place).active
  | binary _ first second _ | index first second _ | assignment first second _ =>
    rw [mentions, List.mem_append] at h
    rw [events]
    obtain inFirst | inSecond := h
    · exact (refer_of_mention first inFirst).left
    · exact (refer_of_mention second inSecond).right fun _ standing => standing.active_play_events first
  | conditional condition body _ | loop condition body _ =>
    rw [mentions, List.mem_append] at h
    rw [events]
    obtain inTest | inBody := h
    · exact (refer_of_mention condition inTest).left
    · exact (refer_of_mentionAll body inBody).right fun _ standing => standing.active_play_events condition
  | negation operand _ | complement operand _ =>
    rw [mentions] at h
    exact refer_of_mention operand h
  | sequence items _ | declarations items _ | alternative items _ =>
    rw [mentions] at h
    exact refer_of_mentionAll items h
  | result value _ =>
    rw [mentions, List.mem_cons] at h
    exact refer_of_mention value (h.resolve_left nofun)
  | input items _ | output items _ =>
    rw [mentions, List.mem_cons] at h
    exact refer_of_mentionAll items (h.resolve_left nofun)
  | declaration | function | comment | stringLiteral | intLiteral | floatLiteral =>
    rw [mentions] at h
    nomatch h

theorem Node.refer_of_mentionAll {name : String} {location : Location} (nodes : List Node)
    (h : .reference name location ∈ mentionsAll nodes) : Refers (eventsAll nodes) name location := by
  cases nodes with
  | nil => nomatch h
  | cons node rest =>
    rw [mentionsAll, List.mem_append] at h
    rw [eventsAll]
    obtain here | later := h
    · exact (refer_of_mention node here).left
    · exact (refer_of_mentionAll rest later).right fun _ standing => standing.active_play_events node

end

theorem Node.mentionsAll_append (before after : List Node) :
    mentionsAll (before ++ after) = mentionsAll before ++ mentionsAll after := by
  induction before with
  | nil => simp [mentionsAll]
  | cons node rest ih => simp [mentionsAll, ih]

/-! ## The bodies of functions among the events -/

/-- The events of the body of a function stand among the events, where the scope of its own is active. -/
def Contains (a : Analysis) (events : List Event) (s : Scoping) : Prop :=
  ∃ before after, events = before ++ (Node.eventsAll s.definition.body ++ after) ∧
    s.own = some (a.play before).active

namespace Contains

variable {a : Analysis} {events events' : List Event} {s : Scoping}

/-- A body among the first events is one among all. -/
theorem left (h : Contains a events s) : Contains a (events ++ events') s := by
  obtain ⟨before, after, rfl, own⟩ := h
  exact ⟨before, after ++ events', by simp, own⟩

theorem right (h : Contains (a.play events) events' s) : Contains a (events ++ events') s := by
  obtain ⟨before, after, rfl, own⟩ := h
  exact ⟨events ++ before, after, by simp, by rw [Analysis.play_append, own]⟩

theorem cons (event : Event) (h : Contains (a.step event) events s) : Contains a (event :: events) s := by
  have whole : Contains a ([event] ++ events) s := right h
  exact whole

/-- References in a body are references of the program, made in the scope of the function. -/
theorem reference {program : Program} (h : Contains {} (Node.eventsAll program.statements) s)
    {name : String} {location : Location}
    (mentioned : .reference name location ∈ Node.mentionsAll s.definition.body) :
    ∃ r : program.Reference, r.name = name ∧ r.location = location ∧ s.own = some r.scope := by
  obtain ⟨before, after, split, own⟩ := h
  obtain ⟨before', after', events, stays⟩ := Node.refer_of_mentionAll s.definition.body mentioned
  rw [events] at split
  refine ⟨⟨before ++ before', name, location, after' ++ after, by simp [split]⟩, rfl, rfl, ?_⟩
  rw [own, Program.Reference.scope, Program.Reference.analysis, Analysis.play_append,
    stays _ (Analysis.Standing.start.play before)]

end Contains

/-- Each function that the analysis meets has its body among the events. -/
theorem carried_contains : Carried fun a events _ met => ∀ s ∈ Scoping.allOf met, Contains a events s where
  none _ _ member := nomatch member
  append _ h h' s member := by
    rw [Scoping.allOf_append, List.mem_append] at member
    obtain inFirst | inSecond := member
    · exact (h s inFirst).left
    · exact (h' s inSecond).right
  refer _ _ _ _ member := nomatch member
  declare _ _ _ member := nomatch member
  function _ returns name params body location h s member := by
    rw [Scoping.allOf, Scoping.all, Scoping.allOf, List.append_nil, List.mem_cons] at member
    obtain rfl | inside := member
    · exact ⟨[.enter returns name params location], [.leave], rfl, rfl⟩
    · exact (Contains.cons (.enter returns name params location) (h s inside)).left

namespace Scoping

theorem mem_allOf {l : List Scoping} {s : Scoping} (member : s ∈ l) : s ∈ allOf l := by
  induction l with
  | nil => nomatch member
  | cons t rest ih =>
    rw [allOf, List.mem_append]
    obtain rfl | later := List.mem_cons.1 member
    · cases s
      exact .inl List.mem_cons_self
    · exact .inr (ih later)

mutual

/-- The functions inside a function are among all that are inside whatever it is in. -/
theorem mem_all_of_inner {s t : Scoping} (u : Scoping) (h : s ∈ u.all) (member : t ∈ s.inner) :
    t ∈ u.all := by
  obtain ⟨d, outside, own, inner⟩ := u
  rw [all, List.mem_cons] at h ⊢
  obtain rfl | inside := h
  · exact .inr (mem_allOf member)
  · exact .inr (mem_allOf_of_inner inner inside member)

theorem mem_allOf_of_inner {s t : Scoping} (l : List Scoping) (h : s ∈ allOf l) (member : t ∈ s.inner) :
    t ∈ allOf l := by
  cases l with
  | nil => nomatch h
  | cons u rest =>
    rw [allOf, List.mem_append] at h ⊢
    obtain here | later := h
    · exact .inl (mem_all_of_inner u here member)
    · exact .inr (mem_allOf_of_inner rest later member)

end

/-- A function that is written is one of all functions, at whatever depth it stands. -/
theorem mem_allOf_of_nested {l path : List Scoping} (h : Nested inner (hoist l) path) :
    ∀ s ∈ path, s ∈ allOf l := by
  induction h with
  | @top s member =>
    rw [List.forall_mem_singleton]
    obtain atTop | ⟨main, found, inside⟩ := of_mem_hoist member
    · exact mem_allOf atTop
    · exact mem_allOf_of_inner l (mem_allOf (List.mem_of_find?_eq_some found)) inside
  | inside _ member ih =>
    rw [List.forall_mem_cons]
    exact ⟨mem_allOf_of_inner l (ih _ List.mem_cons_self) member, ih⟩

/-- The section of the routine for a function, with unused variables left out. -/
def leanSection (f : Forest) (s : Scoping) : Section :=
  (s.routine f true).toSection

/-- Without unused variables, the variables of a section are those that are kept. -/
theorem vars_leanSection {f : Forest} {s : Scoping} {own : ScopeId} (is : s.own = some own) :
    (s.leanSection f).vars = (f.varSection true own).kept := by
  obtain ⟨d, outside, own', inner⟩ := s
  obtain rfl : own' = some own := is
  rfl

end Scoping

/-! ## Where lines stand -/

namespace Pascal

namespace Routine

variable (heading : Heading) (vars : VarSection) (inner : List Routine) (spaced : Bool) (body : List Line)

end Routine

namespace Listing

end Listing

end Pascal

namespace Scoping

variable {f : Forest} {optimize : Bool}

end Scoping

/-! ## Where a variable has its line -/

namespace Program

variable {source : String} {program : Program}

/-- Statements whose lines stand together, in the body of the program or in that of a function: the
scopes that they belong to, and the functions around them, the innermost first. -/
inductive Stands (program : Program) (f : Forest) (options : Options) :
    List Node → List Line → List ScopeId → List Scoping → Prop where
  | program : Stands program f options program.bodyStatements (program.pascal f options).body
      (Forest.global :: (program.mainScope? f).toList) []
  | function {s : Scoping} {outer : List Scoping} {heading : Heading} {vars : VarSection}
      {inner : List Routine} {spaced : Bool} {lines : List Line}
      (nested : Nested Scoping.inner (Scoping.hoist (program.lookups f)) (s :: outer))
      (written : s.routine f options.optimize = .mk heading vars inner spaced lines) :
      Stands program f options s.definition.body lines [s.scope] (s :: outer)

/-- A variable of a scope stands in the section of the function whose scope it is, around the
statements, or among the variables of the program if the scope is the global one or that of `main`. -/
def Declares (program : Program) (f : Forest) (text : Sections) (path : List Scoping) (scope : ScopeId)
    (v : Variable) : Prop :=
  (∃ s ∈ path, s.own = some scope ∧ v ∈ (s.leanSection f).vars) ∨
    (scope = Forest.global ∨ program.mainScope? f = some scope) ∧ v ∈ text.vars

section

variable {f : Forest} {options : Options} {nodes : List Node} {lines : List Line}
  {scopes : List ScopeId} {path : List Scoping}

/-- The lines of statements depend on the statements alone. -/
theorem Stands.linesAll (h : program.Stands f options nodes lines scopes path) :
    lines = Node.linesAll nodes := by
  cases h with
  | program => rfl
  | @function s _ _ _ _ _ _ _ written =>
    obtain ⟨d, outside, own, inner⟩ := s
    cases written
    rfl

/-- The functions of statements have statements for their bodies. -/
theorem isStatement_of_mem_lookupsAll {id : ScopeId} {s : Scoping}
    (h : ∀ x ∈ nodes, x.IsStatement) (member : s ∈ Node.lookupsAll f id nodes) :
    ∃ d : Definition, s = d.lookup f id ∧ ∀ x ∈ d.body, x.IsStatement := by
  rw [Node.lookupsAll_eq_map] at member
  obtain ⟨d, inside, rfl⟩ := List.mem_map.1 member
  obtain ⟨x, inNodes, defined⟩ := Node.mem_functionsAll.1 inside
  exact ⟨d, rfl, (h x inNodes).of_functions d defined⟩

theorem isStatement_of_mem_inner {id : ScopeId} {d : Definition} {s : Scoping}
    (h : ∀ x ∈ d.body, x.IsStatement) (member : s ∈ (d.lookup f id).inner) :
    ∃ (d' : Definition) (id' : ScopeId), s = d'.lookup f id' ∧ ∀ x ∈ d'.body, x.IsStatement := by
  rw [Definition.lookup, Scoping.inner] at member
  cases found : f.child? id d.name with
  | none => simp [found] at member
  | some own =>
    rw [found] at member
    obtain ⟨d', is, statements⟩ := isStatement_of_mem_lookupsAll h member
    exact ⟨d', own, is, statements⟩

/-- So have the functions on every path, by induction on the path. -/
theorem isStatement_of_nested (parsed : parse source = .ok program)
    (nested : Nested Scoping.inner (Scoping.hoist (program.lookups f)) path) :
    ∀ s ∈ path, ∃ (d : Definition) (id : ScopeId), s = d.lookup f id ∧ ∀ x ∈ d.body, x.IsStatement := by
  induction nested with
  | @top s member =>
    have atTop {t : Scoping} (inside : t ∈ program.lookups f) :=
      isStatement_of_mem_lookupsAll (isStatement_of_parse parsed) inside
    rw [List.forall_mem_singleton]
    obtain here | ⟨main, found, inMain⟩ := Scoping.of_mem_hoist member
    · obtain ⟨d, is, statements⟩ := atTop here
      exact ⟨d, _, is, statements⟩
    · obtain ⟨d, rfl, statements⟩ := atTop (List.mem_of_find?_eq_some found)
      exact isStatement_of_mem_inner statements inMain
  | inside _ member ih =>
    rw [List.forall_mem_cons]
    obtain ⟨d, id, rfl, statements⟩ := ih _ List.mem_cons_self
    exact ⟨isStatement_of_mem_inner statements member, ih⟩

theorem Stands.isStatement (parsed : parse source = .ok program)
    (h : program.Stands f options nodes lines scopes path) : ∀ s ∈ nodes, s.IsStatement := by
  cases h with
  | program => exact Emits.isStatement parsed (.body f options)
  | function nested =>
    obtain ⟨d, id, rfl, statements⟩ := isStatement_of_nested parsed nested _ List.mem_cons_self
    exact statements

/-- What the lines mention, the analysis comes to as a reference in the scope of the statements. -/
theorem Stands.reference (parsed : parse source = .ok program) (clear : program.analyze.Clear)
    (h : program.Stands program.analyze.forest options nodes lines scopes path) {name : String}
    {location : Location} (mentioned : .reference name location ∈ Node.mentionsAll nodes) :
    ∃ r : program.Reference, r.name = name ∧ r.location = location ∧ r.scope ∈ scopes := by
  have contains {s : Scoping} (member : s ∈ Scoping.allOf program.met) :=
    carried_contains.program program s member
  cases h with
  | program =>
    rw [bodyStatements, Node.mentionsAll_append, List.mem_append] at mentioned
    obtain atTop | inMain := mentioned
    · obtain ⟨before, after, split, stays⟩ := Node.refer_of_mentionAll program.statements atTop
      refine ⟨⟨before, name, location, after, split⟩, rfl, rfl, ?_⟩
      rw [Reference.scope, Reference.analysis, stays _ .start]
      exact List.mem_cons_self
    · cases isMain : program.main? with
      | none => simp [isMain, Node.mentionsAll] at inMain
      | some d =>
        have same := main?_eq_lookup program program.analyze.forest
        rw [isMain, mainLookup?, lookups_eq_met parsed clear] at same
        obtain ⟨s, found, rfl⟩ := Option.map_eq_some_iff.1 same.symm
        rw [isMain] at inMain
        obtain ⟨r, named, placed, own⟩ := (contains
          (Scoping.mem_allOf (List.mem_of_find?_eq_some found))).reference inMain
        refine ⟨r, named, placed, List.mem_cons_of_mem _ ?_⟩
        rw [mainScope?_eq_met parsed clear, found, Option.bind_some, own]
        exact List.mem_singleton_self _
  | @function s outer _ _ _ _ _ nested =>
    rw [lookups_eq_met parsed clear] at nested
    obtain ⟨r, named, placed, own⟩ := (contains
      (Scoping.mem_allOf_of_nested nested s List.mem_cons_self)).reference mentioned
    refine ⟨r, named, placed, ?_⟩
    rw [Scoping.scope, own]
    exact List.mem_singleton_self _

/-- The scopes around the statements are those of the functions around them and the outermost ones. -/
theorem Stands.mem_chain (parsed : parse source = .ok program) (clear : program.analyze.Clear)
    (h : program.Stands program.analyze.forest options nodes lines scopes path) {id scope : ScopeId}
    (inside : id ∈ scopes) (around : scope ∈ program.analyze.forest.chain id) :
    (∃ s ∈ path, s.own = some scope) ∨ scope = Forest.global ∨
      program.mainScope? program.analyze.forest = some scope := by
  cases h with
  | program =>
    right
    rw [List.mem_cons, Option.mem_toList] at inside
    obtain rfl | isMain := inside
    · rw [program.rooted_analyze.chain_global, List.mem_singleton] at around
      exact .inl around
    · rw [chain_main parsed clear isMain, List.mem_cons, List.mem_singleton] at around
      obtain rfl | isGlobal := around
      · exact .inr isMain
      · exact .inl isGlobal
  | @function s outer _ _ _ _ _ nested =>
    rw [lookups_eq_met parsed clear] at nested
    obtain ⟨outermost, isOutermost, placed, first⟩ := placed_of_nested parsed clear nested
    rw [List.mem_singleton.1 inside, (first s outer rfl).chain, ← List.cons_append, ← List.map_cons,
      List.mem_append, List.mem_map] at around
    obtain ⟨t, inPath, rfl⟩ | isOuter := around
    · left
      obtain ⟨_, d, within, outside, own, rfl, -⟩ := placed t inPath
      exact ⟨_, inPath, rfl⟩
    · right
      obtain rfl | ⟨main, isMain, rfl⟩ := isOutermost
      · exact .inl (List.mem_singleton.1 isOuter)
      · rw [List.mem_cons, List.mem_singleton] at isOuter
        obtain rfl | isGlobal := isOuter
        · exact .inr isMain
        · exact .inl isGlobal

/-- A variable that is used is declared. -/
theorem declared_mem_kept {ref : SymbolId} {symbol : Symbol}
    (is : f.symbol? ref = some symbol) (var : symbol.role = .var) (used : symbol.uses ≠ 0) :
    f.declared symbol ∈ (f.varSection true ref.scope).kept := by
  obtain ⟨slot, member, -, rfl⟩ := Forest.mem_slots is (by simp [Symbol.isVariable, var])
  rw [Forest.kept_varSection_lean]
  refine List.mem_map.2 ⟨slot, List.mem_filter.2 ⟨member, ?_⟩, rfl⟩
  simpa [Slot.isUnused] using used

/-- A variable that a reference is resolved to is declared, or it is a global variable that a variable of
`main` stands for. -/
theorem Stands.declares (parsed : parse source = .ok program) (clear : program.analyze.Clear)
    (h : program.Stands program.analyze.forest options nodes lines scopes path) (title : String) {text : Sections}
    (vars : text.vars = (program.pascal program.analyze.forest ⟨true, title⟩).vars)
    {r : program.Reference} {ref : SymbolId} {symbol : Symbol} (inside : r.scope ∈ scopes)
    (resolved : r.resolved? = some ref) (is : program.analyze.forest.symbol? ref = some symbol)
    (var : symbol.role = .var)
    (few : Moment.useCount program.moments ref.scope r.name < UInt32.size) :
    program.Declares program.analyze.forest text path ref.scope (program.analyze.forest.declared symbol) ∨
      ref.scope = Forest.global ∧ .shadowedGlobal symbol.name ∈
        (program.pascal program.analyze.forest ⟨true, title⟩).warnings := by
  obtain ⟨nearer, farther, chain, -⟩ := Reference.of_resolved resolved
  obtain ⟨symbol', is', used⟩ := Reference.used_of_resolved resolved few
  obtain rfl := Option.some.inj (is.symm.trans is')
  have kept := declared_mem_kept is var used
  obtain ⟨s, inPath, own⟩ | isGlobal | isMain :=
    h.mem_chain parsed clear inside (chain ▸ List.mem_append_right nearer List.mem_cons_self)
  · refine .inl (.inl ⟨s, inPath, own, ?_⟩)
    rwa [Scoping.vars_leanSection own]
  · rw [isGlobal] at kept
    by_cases shadowed : (program.localSection program.analyze.forest true).kept.any
        (·.name = symbol.name) = true
    · refine .inr ⟨isGlobal, ?_⟩
      rw [warnings_eq]
      exact List.mem_append_left _ (List.mem_map.2 ⟨_, List.mem_filter.2 ⟨kept, shadowed⟩, rfl⟩)
    · refine .inl (.inr ⟨.inl isGlobal, ?_⟩)
      rw [vars, vars_eq]
      refine List.mem_append_left _ (List.mem_filter.2 ⟨kept, ?_⟩)
      rw [Bool.not_eq_true] at shadowed
      exact congrArg Bool.not shadowed
  · refine .inl (.inr ⟨.inr isMain, ?_⟩)
    rw [vars, vars_eq, localSection, isMain]
    exact List.mem_append_right _ kept

end

end Program

end Pascalize
