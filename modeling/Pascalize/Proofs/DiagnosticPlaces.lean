import Pascalize.Proofs.NameResolution
import Pascalize.Proofs.StreamEnds
import Pascalize.Proofs.TreeShape

/-!
# Diagnostics stand at the names they are about

An event mentions names, each with a location (`Event.names`). Two facts meet here. Whatever an
event makes the analysis complain about is a name that the event mentions, at the location it is
mentioned with. And the names that the events of a derived tree mention are identifiers among its
tokens. The complaint about a missing `main` is made last, after all events were played.
-/

namespace Pascalize

/-- The names of a declaration: its type's and its own. -/
def Declaration.names (decl : Declaration) : List (String × Location) :=
  [(decl.type.base, decl.type.location), (decl.name, decl.location)]

/-- The names that an event mentions. The return type of a function is not looked up. -/
def Event.names : Event → List (String × Location)
  | .refer name location => [(name, location)]
  | .declare decl => decl.names
  | .enter _ name params location => (name, location) :: params.flatMap Declaration.names
  | .leave => []

namespace Analysis

/-- From `a` to `a'` there were complaints about some of the names, and no others. -/
def Complains (names : List (String × Location)) (a a' : Analysis) : Prop :=
  ∃ more, a'.diagnostics = a.diagnostics ++ more ∧
    ∀ d ∈ more, ∃ name, d.complaint.name? = some name ∧ (name, d.location) ∈ names

namespace Complains

variable {names more : List (String × Location)} {a a' a'' : Analysis}

theorem of_eq (same : a'.diagnostics = a.diagnostics) : Complains names a a' :=
  ⟨[], by simpa using same, by simp⟩

theorem trans (h : Complains names a a') (h' : Complains names a' a'') : Complains names a a'' := by
  obtain ⟨first, same, each⟩ := h
  obtain ⟨second, same', each'⟩ := h'
  refine ⟨first ++ second, by rw [same', same, List.append_assoc], fun d member => ?_⟩
  obtain member | member := List.mem_append.1 member
  · exact each d member
  · exact each' d member

theorem mono (h : Complains names a a') (le : names ⊆ more) : Complains more a a' := by
  obtain ⟨noted, same, each⟩ := h
  refine ⟨noted, same, fun d member => ?_⟩
  obtain ⟨name, is, inside⟩ := each d member
  exact ⟨name, is, le inside⟩

/-- A complaint about a name that is mentioned, at its location. -/
theorem report {complaint : Complaint} {name : String} {location : Location}
    (about : complaint.name? = some name) (member : (name, location) ∈ names)
    (same : a'.diagnostics = a.diagnostics) : Complains names a (a'.report complaint location) := by
  refine ⟨[⟨complaint, location⟩], by rw [Analysis.report, same], fun d inside => ?_⟩
  obtain rfl := List.mem_singleton.1 inside
  exact ⟨name, about, member⟩

end Complains

variable (a : Analysis)

theorem complains_refer (name : String) (location : Location) :
    Complains [(name, location)] a (a.refer name location) := by
  rw [refer]
  split
  · exact .of_eq rfl
  · exact .report rfl (by simp) rfl

/-- The complaint about a type stands at the type. -/
theorem complains_useType (type : TypeName) :
    Complains [(type.base, type.location)] a (a.useType type).2 := by
  rw [useType]
  simp only
  split
  · exact .of_eq rfl
  · exact .report rfl (by simp) rfl

/-- The complaint about a taken name stands where the name is declared again. -/
theorem complains_insert (symbol : Symbol) (location : Location) :
    Complains [(symbol.name, location)] a (a.insert symbol location).2 := by
  rw [insert]
  split
  · exact .of_eq rfl
  · exact .report rfl (by simp) rfl

/-- A declaration mentions its type and its name. -/
theorem complains_declare (role : Role) (decl : Declaration) :
    Complains decl.names a (a.declare role decl).2 := by
  rw [declare_snd]
  have typed : Complains decl.names a (a.useType decl.type).2 :=
    (a.complains_useType decl.type).mono (by simp [Declaration.names])
  refine typed.trans ((complains_insert _ _ _).mono ?_)
  simp [Declaration.names, declared]

theorem complains_declareParams (params : List Declaration) :
    Complains (params.flatMap Declaration.names) a (a.declareParams params).2 := by
  induction params generalizing a with
  | nil => exact .of_eq rfl
  | cons decl params ih =>
    rw [declareParams, List.flatMap_cons]
    refine ((a.complains_declare .parameter decl).mono ?_).trans ((ih _).mono ?_)
    · exact List.subset_append_left _ _
    · exact List.subset_append_right _ _

/-- A function mentions its name and what its parameters mention. -/
theorem complains_enter (returns name : String) (params : List Declaration) (location : Location) :
    Complains ((name, location) :: params.flatMap Declaration.names) a
      (a.enter returns name params location) := by
  let symbol : Symbol := ⟨name, .function [] returns, none, none, 0⟩
  have inserted := a.complains_insert symbol location
  have opened : Complains [] (a.insert symbol location).2
      ((a.insert symbol location).2.openScope name) := .of_eq rfl
  have declared := ((a.insert symbol location).2.openScope name).complains_declareParams params
  have headed : Complains ((name, location) :: params.flatMap Declaration.names) a
      (((a.insert symbol location).2.openScope name).declareParams params).2 := by
    refine (inserted.mono ?_).trans ((opened.mono ?_).trans (declared.mono ?_))
    · simp [symbol]
    · simp
    · exact List.subset_cons_self _ _
  rw [enter]
  simp only
  split
  · exact headed.trans (.of_eq rfl)
  · exact headed

/-- What one event complains about, it mentions. -/
theorem complains_step (event : Event) : Complains event.names a (a.step event) := by
  cases event with
  | refer name location => exact a.complains_refer name location
  | declare decl => exact a.complains_declare .var decl
  | enter returns name params location => exact a.complains_enter returns name params location
  | leave => exact .of_eq rfl

/-- What a run of events complains about, some of them mention. -/
theorem complains_play (events : List Event) :
    Complains (events.flatMap Event.names) a (a.play events) := by
  induction events generalizing a with
  | nil => exact .of_eq rfl
  | cons event events ih =>
    rw [List.flatMap_cons]
    refine ((a.complains_step event).mono ?_).trans ((ih _).mono ?_)
    · exact List.subset_append_left _ _
    · exact List.subset_append_right _ _

end Analysis

/-- One of the tokens is an identifier with this text at this location. -/
def Names (w : List Token) (x : String × Location) : Prop :=
  ∃ t ∈ w, t.kind = .ident ∧ t.text = x.1 ∧ t.location = x.2

/-- The names that the events mention are identifiers among the tokens. -/
def Placed (w : List Token) (events : List Event) : Prop :=
  ∀ e ∈ events, ∀ x ∈ e.names, Names w x

/-- What is named among tokens is named among more of them. -/
theorem Names.mono {v w : List Token} {x : String × Location} (h : Names v x) (le : v ⊆ w) :
    Names w x := by
  obtain ⟨t, member, is⟩ := h
  exact ⟨t, le member, is⟩

theorem names_of_mem {w : List Token} {t : Token} (member : t ∈ w) (isName : t.kind = .ident) :
    Names w (t.text, t.location) :=
  ⟨t, member, isName, rfl, rfl⟩

namespace Placed

variable {v w : List Token} {events events' : List Event}

theorem nil : Placed w [] := by simp [Placed]

theorem mono (h : Placed v events) (le : v ⊆ w) : Placed w events :=
  fun e member x inside => (h e member x inside).mono le

theorem append (h : Placed w events) (h' : Placed w events') : Placed w (events ++ events') := by
  intro e member
  obtain member | member := List.mem_append.1 member
  · exact h e member
  · exact h' e member

theorem cons {event : Event} (first : ∀ x ∈ event.names, Names w x) (h : Placed w events) :
    Placed w (event :: events) := by
  intro e member
  obtain rfl | member := List.mem_cons.1 member
  · exact first
  · exact h e member

/-- A reference to a token. -/
theorem refer {t : Token} (member : t ∈ w) (isName : t.kind = .ident) (h : Placed w events) :
    Placed w (.refer t.text t.location :: events) := by
  refine h.cons fun x inside => ?_
  obtain rfl := List.mem_singleton.1 inside
  exact names_of_mem member isName

/-- A declared token with a type whose name is among the tokens. -/
theorem declare {type : TypeName} {isConst : Bool} {name : Token}
    (typed : Names w (type.base, type.location)) (member : name ∈ w) (isName : name.kind = .ident)
    (h : Placed w events) :
    Placed w (.declare ⟨type, name.text, isConst, name.location⟩ :: events) := by
  refine h.cons fun x inside => ?_
  simp only [Event.names, Declaration.names, List.mem_cons, List.not_mem_nil, or_false] at inside
  obtain rfl | rfl := inside
  · exact typed
  · exact names_of_mem member isName

/-- The events of nodes in a row mention names of the tokens if those of each do. -/
theorem eventsAll {nodes : List Node} (each : ∀ node ∈ nodes, Placed w node.events) :
    Placed w (Node.eventsAll nodes) := by
  induction nodes with
  | nil => exact .nil
  | cons node nodes ih =>
    rw [Node.eventsAll]
    exact (each node List.mem_cons_self).append (ih fun x member => each x (by simp [member]))

/-- Phrases whose tokens are among those of the whole. -/
theorem phrases {items : List (List Token × Node)} (each : ∀ x ∈ items, Placed x.1 x.2.events)
    (le : ∀ x ∈ items, x.1 ⊆ w) : Placed w (Node.eventsAll (items.map Prod.snd)) := by
  refine .eventsAll fun node member => ?_
  obtain ⟨x, inside, rfl⟩ := List.mem_map.1 member
  exact (each x inside).mono (le x inside)

end Placed

namespace Derives

/-- Literals mention nothing. -/
theorem events_of_literal {t : Token} {e : Node} (h : Parser.literal? t = some e) :
    e.events = [] := by
  simp only [Parser.literal?] at h
  split at h <;> cases h <;> rfl

/-- The names of an expression are its identifiers, by induction on the derivation. -/
theorem Operation.placed {p : Nat} {w : List Token} {e : Node} (h : Operation p w e) :
    Placed w e.events := by
  induction h with
  | lift _ ih => exact ih
  | binary _ _ _ _ ih₁ ih₂ =>
    rw [Node.events]
    exact (ih₁.mono fun t => by simp +contextual).append (ih₂.mono fun t => by simp +contextual)
  | negation _ _ ih | complement _ _ ih =>
    rw [Node.events]
    exact ih.mono (List.subset_cons_self _ _)
  | literal isLiteral =>
    rw [events_of_literal isLiteral]
    exact .nil
  | var isName =>
    rw [Node.events]
    exact .refer (by simp) isName .nil
  | call isName _ joined _ _ ih =>
    rw [Node.events]
    refine .refer (by simp) isName (.phrases ih fun x member t inside => ?_)
    have := joined.subset (List.mem_map_of_mem member) inside
    simp [this]
  | index isName _ _ _ ih =>
    rw [Node.events, Node.events]
    exact .refer (by simp) isName (ih.mono fun t => by simp +contextual)
  | group _ _ _ ih => exact ih.mono fun t => by simp +contextual

theorem Expressions.placed {w : List Token} {es : List Node} (h : Expressions w es) :
    Placed w (Node.eventsAll es) := by
  obtain ⟨items, joined, each, rfl⟩ := h
  refine .phrases (fun x member => (each x member).placed) fun x member => ?_
  exact joined.subset (List.mem_map_of_mem member)

theorem ArrayType.names {w : List Token} {type : TypeName} (h : ArrayType w type) :
    Names w (type.base, type.location) := by
  obtain ⟨isName, -, -, -, -⟩ := h
  exact names_of_mem (by simp) isName

theorem TypeOf.names {w : List Token} {type : TypeName} (h : TypeOf w type) :
    Names w (type.base, type.location) := by
  cases h with
  | plain isName => exact names_of_mem (by simp) isName
  | array suffixed => exact suffixed.names

/-- A parameter mentions the names of its type and itself, which are tokens of it. -/
theorem Parameter.names {w : List Token} {decl : Declaration} (h : Parameter w decl) :
    ∀ x ∈ decl.names, Names w x := by
  obtain ⟨typed, isName⟩ := h
  intro x inside
  simp only [Declaration.names, List.mem_cons, List.not_mem_nil, or_false] at inside
  obtain rfl | rfl := inside
  · exact typed.names.mono (List.subset_append_left _ _)
  · exact names_of_mem (by simp) isName

theorem Parameters.names {w : List Token} {params : List Declaration} (h : Parameters w params) :
    ∀ x ∈ params.flatMap Declaration.names, Names w x := by
  cases h with
  | nil => simp
  | list joined each =>
    intro x inside
    obtain ⟨decl, member, inside⟩ := List.mem_flatMap.1 inside
    obtain ⟨y, listed, rfl⟩ := List.mem_map.1 member
    exact ((each y listed).names x inside).mono (joined.subset (List.mem_map_of_mem listed))

/-- A value is assigned to the latest name, and all names have the type that stands in front. -/
theorem Tail.placed {type : TypeName} {isConst : Bool} {latest : Token} {v w : List Token}
    {nodes : List Node} (h : Tail type isConst latest v nodes) (le : v ⊆ w)
    (typed : Names w (type.base, type.location)) (member : latest ∈ w)
    (isName : latest.kind = .ident) : Placed w (Node.eventsAll nodes) := by
  induction h with
  | nil => exact .nil
  | name _ isName' _ ih =>
    rw [Node.eventsAll, Node.events]
    have inside := le (List.mem_cons_of_mem _ List.mem_cons_self)
    exact .declare typed inside isName' (ih (fun t h => le (by simp [h])) inside isName')
  | value _ value _ ih =>
    rw [Node.eventsAll, Node.events, Node.events]
    refine .append (.refer member isName ?_) (ih (fun t h => le (by simp [h])) member isName)
    exact value.placed.mono fun t h => le (by simp [h])

/-- Items in a stream are single tokens. -/
theorem Streamed.placed {sign : Kind} {Item : Token → Node → Prop} {w : List Token}
    {es : List Node} (h : Streamed sign Item w es)
    (item : ∀ t e, Item t e → Placed [t] e.events) : Placed w (Node.eventsAll es) := by
  induction h with
  | single _ is =>
    rw [Node.eventsAll, Node.eventsAll]
    exact ((item _ _ is).mono (by simp)).append .nil
  | cons _ is _ ih =>
    rw [Node.eventsAll]
    exact ((item _ _ is).mono (by simp)).append (ih.mono fun t => by simp +contextual)

theorem InputItem.placed (t : Token) (e : Node) (h : InputItem t e) : Placed [t] e.events := by
  obtain ⟨isName⟩ := h
  rw [Node.events]
  exact .refer (by simp) isName .nil

theorem OutputItem.placed (t : Token) (e : Node) (h : OutputItem t e) : Placed [t] e.events := by
  cases h with
  | name isName =>
    rw [Node.events]
    exact .refer (by simp) isName .nil
  | literal isLiteral =>
    rw [events_of_literal isLiteral]
    exact .nil

/-- Statements before their semicolons, rule by rule. -/
theorem Simple.placed {w : List Token} {node : Node} (h : Simple w node) : Placed w node.events := by
  cases h with
  | declaration _ isType isName =>
    rw [Node.events]
    exact .declare (names_of_mem (by simp) isType) (by simp) isName .nil
  | @declarations k w _ type name _ _ isType isName tail _ =>
    rw [Node.events, Node.eventsAll, Node.events]
    have typed : Names (k ++ type :: name :: w) (type.text, type.location) :=
      names_of_mem (by simp) isType
    refine .declare typed (by simp) isName (tail.placed ?_ typed (by simp) isName)
    exact fun t h => by simp [h]
  | array _ suffixed isName =>
    rw [Node.events]
    exact .declare (suffixed.names.mono fun t h => by simp [h]) (by simp) isName .nil
  | assignment isName _ value =>
    rw [Node.events, Node.events]
    exact .refer (by simp) isName (value.placed.mono fun t h => by simp [h])
  | sequence isName _ _ items _ =>
    rw [Node.events, Node.events, Node.events]
    exact .refer (by simp) isName (items.placed.mono fun t h => by simp [h])
  | call isName _ items _ =>
    rw [Node.events]
    exact .refer (by simp) isName (items.placed.mono fun t h => by simp [h])
  | result _ value =>
    rw [Node.events]
    exact value.placed.mono (List.subset_cons_self _ _)
  | input _ stream =>
    rw [Node.events]
    exact (stream.placed InputItem.placed).mono (List.subset_cons_self _ _)
  | output _ stream =>
    rw [Node.events]
    exact (stream.placed OutputItem.placed).mono (List.subset_cons_self _ _)

/-- **The events of a derived statement** mention identifiers among its tokens, by induction on the
derivation. -/
theorem Statement.placed {w : List Token} {node : Node} (h : Statement w node) :
    Placed w node.events := by
  induction h with
  | simple bare _ => exact bare.placed.mono (List.subset_append_left _ _)
  | function _ _ isName _ parameters _ _ _ _ ih =>
    rw [Node.events]
    refine .cons (fun x inside => ?_) (.append (.phrases ih fun x member t inside => ?_) ?_)
    · obtain rfl | inside := List.mem_cons.1 inside
      · exact names_of_mem (by simp) isName
      · exact (parameters.names x inside).mono fun t h => by simp [h]
    · have := subset_concat member inside
      simp [this]
    · exact .cons (by simp [Event.names]) .nil
  | conditional _ condition _ _ _ ih | loop _ condition _ _ _ ih =>
    rw [Node.events]
    refine .append (condition.placed.mono fun t h => by simp [h])
      (.phrases ih fun x member t inside => ?_)
    have := subset_concat member inside
    simp [this]
  | alternative _ _ _ _ ih =>
    rw [Node.events]
    refine .phrases ih fun x member t inside => ?_
    have := subset_concat member inside
    simp [this]
  | lineComment _ | blockComment _ _ _ =>
    rw [Node.events]
    exact .nil

theorem Statements.placed {w : List Token} {nodes : List Node} (h : Statements w nodes) :
    Placed w (Node.eventsAll nodes) := by
  obtain ⟨items, rfl, rfl, each⟩ := h
  exact .phrases (fun x member => (each x member).placed) fun x member => subset_concat member

end Derives

/-- What is wrong with a program: complaints about names that its events mention, and then perhaps
the one about `main`, at the end. -/
theorem Program.diagnostics_analyze (program : Program) : ∃ named,
    (∀ d ∈ named, ∃ name, d.complaint.name? = some name ∧
      (name, d.location) ∈ (Node.eventsAll program.statements).flatMap Event.names) ∧
    (program.analyze.diagnostics = named ∨
      program.analyze.diagnostics = named ++ [⟨.missingMain, program.finish⟩]) := by
  obtain ⟨named, same, each⟩ :=
    Analysis.complains_play {} (Node.eventsAll program.statements)
  refine ⟨named, each, ?_⟩
  rw [Program.analyze]
  split
  · exact .inl same
  · exact .inr (by rw [Analysis.report, same]; rfl)

/-- **Diagnostics stand at the names they are about.** In the stream of a program, each complaint
about a name has the location of an identifier with that text. The complaint about a missing `main`
is the last of all, the only one of its kind, and stands at the end of input. -/
theorem Program.diagnostics_located {source : String} {program : Program}
    (parsed : Program.parse source = .ok program) : ∃ (front : List Token) (last : Token),
      (Lexer.ofString source).items = front.map .ok ++ [.ok last] ∧ last.kind = .endOfInput ∧
      (∀ d ∈ program.analyze.diagnostics, ∀ name, d.complaint.name? = some name →
        ∃ t ∈ front, t.kind = .ident ∧ t.text = name ∧ t.location = d.location) ∧
      (∀ d ∈ program.analyze.diagnostics, d.complaint = .missingMain →
        d.location = last.location ∧ ∃ others, program.analyze.diagnostics = others ++ [d] ∧
          ∀ d' ∈ others, d'.complaint ≠ .missingMain) := by
  obtain ⟨front, last, stream, ends, -, derived, finish⟩ := Program.stream_of_parse parsed
  obtain ⟨named, each, all⟩ := program.diagnostics_analyze
  have placed d (member : d ∈ named) name (about : d.complaint.name? = some name) :
      ∃ t ∈ front, t.kind = .ident ∧ t.text = name ∧ t.location = d.location := by
    obtain ⟨name', about', inside⟩ := each d member
    obtain rfl : name' = name := Option.some.inj (about'.symm.trans about)
    obtain ⟨e, event, inside⟩ := List.mem_flatMap.1 inside
    exact (derived.placed e event _ inside).mono List.filter_sublist.subset
  have others d (member : d ∈ named) : d.complaint ≠ .missingMain := by
    intro is
    obtain ⟨name, about, -⟩ := each d member
    rw [is] at about
    nomatch about
  refine ⟨front, last, stream, ends, fun d member name about => ?_, fun d member is => ?_⟩
  · obtain all | all := all
    · exact placed d (all ▸ member) name about
    · rw [all] at member
      obtain member | member := List.mem_append.1 member
      · exact placed d member name about
      · rw [List.mem_singleton.1 member] at about
        nomatch about
  · obtain all | all := all
    · exact absurd is (others d (all ▸ member))
    · rw [all] at member
      obtain member | member := List.mem_append.1 member
      · exact absurd is (others d member)
      · obtain rfl := List.mem_singleton.1 member
        exact ⟨finish.symm, named, all, others⟩

/-- One complaint of each kind. -/
theorem Program.diagnostics_located_of_each : ∃ program,
    Program.parse "T a = b; int a;" = .ok program ∧
    program.analyze.diagnostics = [⟨.undefinedType "T", ⟨1, 1⟩⟩, ⟨.undeclared "b", ⟨1, 7⟩⟩,
      ⟨.redeclared "a", ⟨1, 14⟩⟩, ⟨.missingMain, ⟨1, 16⟩⟩] ∧
    ∃ (front : List Token) (last : Token),
      (Lexer.ofString "T a = b; int a;").items = front.map .ok ++ [.ok last] ∧
      last.kind = .endOfInput ∧
      (∀ d ∈ program.analyze.diagnostics, ∀ name, d.complaint.name? = some name →
        ∃ t ∈ front, t.kind = .ident ∧ t.text = name ∧ t.location = d.location) ∧
      (∀ d ∈ program.analyze.diagnostics, d.complaint = .missingMain →
        d.location = last.location ∧ ∃ others, program.analyze.diagnostics = others ++ [d] ∧
          ∀ d' ∈ others, d'.complaint ≠ .missingMain) := by
  let program : Program := ⟨[
    .declarations [.declaration ⟨⟨"T", none, ⟨1, 1⟩⟩, "a", false, ⟨1, 3⟩⟩,
      .assignment (.var "a" ⟨1, 3⟩) (.var "b" ⟨1, 7⟩) ⟨1, 5⟩] ⟨1, 3⟩,
    .declaration ⟨⟨"int", none, ⟨1, 10⟩⟩, "a", false, ⟨1, 14⟩⟩], ⟨1, 16⟩⟩
  have parsed : Program.parse "T a = b; int a;" = .ok program :=
    (Program.parse_ofList _).trans (by decide +kernel)
  have diagnostics : program.analyze.diagnostics = [⟨.undefinedType "T", ⟨1, 1⟩⟩,
      ⟨.undeclared "b", ⟨1, 7⟩⟩, ⟨.redeclared "a", ⟨1, 14⟩⟩, ⟨.missingMain, ⟨1, 16⟩⟩] := by decide
  exact ⟨program, parsed, diagnostics, Program.diagnostics_located parsed⟩

end Pascalize
