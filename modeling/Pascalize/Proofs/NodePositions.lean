import Pascalize.Proofs.TreeShape

/-!
# Which node stands where

The parts of a node stand in positions: a condition, an operand, the target of an assignment.
`Position.admits` lists the kinds of nodes that each position is for, and `Program.HasAt` follows the
positions down from the statements of a program. What stands in a parsed program has the shape that its
position asks for (`Program.HasAt.fits`), so the position admits it and its names are identifiers.
-/

namespace Pascalize

/-- Where a node may stand. -/
inductive Position where
  | statement
  | firstDeclared
  | laterDeclared
  | assigned
  /-- The value of an assignment that is a statement. -/
  | value
  /-- The value of an assignment among declarations. -/
  | initial
  | condition
  | operand
  | argument
  | indexed
  | offset
  | element
  | returned
  | readInto
  | writtenOut
deriving DecidableEq, Repr, Inhabited

namespace Node

/-- The parts of a node, with their positions. -/
def parts (here : Position) : Node → List (Position × Node)
  | .declarations [] _ => []
  | .declarations (first :: rest) _ => (.firstDeclared, first) :: rest.map (.laterDeclared, ·)
  | .function _ _ _ body _ | .alternative body _ => body.map (.statement, ·)
  | .assignment target value _ =>
    [(.assigned, target), (if here = .statement then .value else .initial, value)]
  | .conditional condition body _ | .loop condition body _ =>
    (.condition, condition) :: body.map (.statement, ·)
  | .result value _ => [(.returned, value)]
  | .input targets _ => targets.map (.readInto, ·)
  | .output items _ => items.map (.writtenOut, ·)
  | .binary _ left right _ => [(.operand, left), (.operand, right)]
  | .negation inner _ | .complement inner _ => [(.operand, inner)]
  | .call _ args _ => args.map (.argument, ·)
  | .index target position _ => [(.indexed, target), (.offset, position)]
  | .sequence items _ => items.map (.element, ·)
  | .declaration _ | .comment .. | .var .. | .reference .. | .stringLiteral .. | .intLiteral ..
  | .floatLiteral .. => []

/-- The parts of a node are its children, each with a position. -/
theorem map_parts (here : Position) (node : Node) :
    (node.parts here).map Prod.snd = node.children := by
  cases node with
  | declarations items _ => cases items <;> simp [parts, children, Function.comp_def]
  | _ => simp [parts, children, Function.comp_def]

/-- The names that a node holds itself. -/
def names : Node → List String
  | .declaration decl => [decl.type.base, decl.name]
  | .function returns name params _ _ =>
    returns :: name :: params.flatMap fun p => [p.type.base, p.name]
  | .var name _ | .reference name _ | .call name _ _ => [name]
  | _ => []

/-- Literals. -/
def isLiteral : Node → Bool
  | .stringLiteral .. | .intLiteral .. | .floatLiteral .. => true
  | _ => false

end Node

/-- The kinds of nodes that a position is for. -/
def Position.admits : Position → Node → Bool
  | .statement, .declaration _ | .statement, .declarations .. | .statement, .function ..
  | .statement, .assignment .. | .statement, .call .. | .statement, .conditional ..
  | .statement, .loop .. | .statement, .alternative .. | .statement, .result ..
  | .statement, .input .. | .statement, .output .. | .statement, .comment .. => true
  | .statement, _ => false
  | .firstDeclared, .declaration _ => true
  | .firstDeclared, _ => false
  | .laterDeclared, .declaration _ | .laterDeclared, .assignment .. => true
  | .laterDeclared, _ => false
  | .assigned, .var .. | .indexed, .var .. => true
  | .assigned, _ | .indexed, _ => false
  | .readInto, .reference .. => true
  | .readInto, _ => false
  | .writtenOut, .reference .. => true
  | .writtenOut, node => node.isLiteral
  | .value, .sequence .. => true
  | _, .reference .. | _, .sequence .. => false
  | _, node => node.isExpression

/-- The positions in which a node gives a value. In the others it is a statement or declares a name. -/
def Position.isValue : Position → Bool
  | .statement | .firstDeclared | .laterDeclared => false
  | _ => true

/-- From a node in the position `here`, its parts lead to a node in the position `there`. -/
inductive Node.Reaches : Position → Node → Position → Node → Prop where
  | self (here : Position) (node : Node) : Reaches here node here node
  | part {here next there : Position} {node child e : Node} (member : (next, child) ∈ node.parts here)
      (deeper : Reaches next child there e) : Reaches here node there e

/-- The node stands in a program, in the given position. -/
def Program.HasAt (program : Program) (here : Position) (e : Node) : Prop :=
  ∃ s ∈ program.statements, Node.Reaches .statement s here e

theorem Node.Reaches.within {here there : Position} {node e : Node} (h : Reaches here node there e) :
    e.Within node := by
  induction h with
  | self => exact .self
  | @part here _ _ node child _ member _ ih =>
    refine .under ?_ ih
    rw [← node.map_parts here]
    exact List.mem_map_of_mem member

/-- Every node within a node has a position there. -/
theorem Node.Within.reaches {node e : Node} (h : e.Within node) :
    ∀ here, ∃ there, Reaches here node there e := by
  induction h with
  | self => exact fun here => ⟨here, .self here e⟩
  | @under node child member _ ih =>
    intro here
    rw [← node.map_parts here] at member
    obtain ⟨⟨next, _⟩, part, rfl⟩ := List.mem_map.1 member
    obtain ⟨there, deeper⟩ := ih next
    exact ⟨there, .part part deeper⟩

/-- Every node of a program stands somewhere in it. -/
theorem Program.has_iff_hasAt {program : Program} {e : Node} :
    program.Has e ↔ ∃ here, program.HasAt here e := by
  constructor
  · rintro ⟨s, member, within⟩
    obtain ⟨here, reached⟩ := within.reaches .statement
    exact ⟨here, s, member, reached⟩
  · rintro ⟨here, s, member, reached⟩
    exact ⟨s, member, reached.within⟩

/-- What stands in a position of a parsed tree. -/
def Position.Fits : Position → Node → Prop
  | .statement, e => e.IsStatement
  | .firstDeclared, e => ∃ decl : Declaration, decl.Proper ∧ e = .declaration decl
  | .laterDeclared, e => e.IsDeclared
  | .assigned, e | .indexed, e => ∃ name location, IsName name ∧ e = .var name location
  | .value, e => e.IsValue
  | .readInto, e => e.IsReference
  | .writtenOut, e => e.IsReference ∨ e.IsLiteral
  | .initial, e | .condition, e | .operand, e | .argument, e | .offset, e | .element, e
  | .returned, e => e.IsExpression

namespace Node

/-- The parts of nodes in a row all stand in one position. -/
theorem each_part {there : Position} {items : List Node} (each : ∀ x ∈ items, there.Fits x) :
    ∀ x ∈ items.map fun e => (there, e), x.1.Fits x.2 := by
  intro x member
  obtain ⟨e, inside, rfl⟩ := List.mem_map.1 member
  exact each e inside

/-- The operands of an expression fit their positions. -/
theorem IsExpression.parts_fit {e : Node} (h : e.IsExpression) (here : Position) :
    ∀ x ∈ e.parts here, x.1.Fits x.2 := by
  cases h with
  | binary _ _ first second => simpa [parts] using ⟨first, second⟩
  | negation _ inner | complement _ inner => simpa [parts, Position.Fits] using inner
  | var => simp [parts]
  | call _ _ items => exact each_part items
  | index named location _ inner => simpa [parts] using ⟨⟨_, location, named, rfl⟩, inner⟩
  | literal is => cases is <;> simp [parts]

theorem IsDeclared.parts_fit {e : Node} (h : e.IsDeclared) {here : Position}
    (declared : here ≠ .statement) : ∀ x ∈ e.parts here, x.1.Fits x.2 := by
  cases h with
  | declaration => simp [parts]
  | assignment named location _ is =>
    simpa [parts, declared] using ⟨⟨_, location, named, rfl⟩, is⟩

/-- The parts of a statement fit their positions. -/
theorem IsStatement.parts_fit {e : Node} (h : e.IsStatement) :
    ∀ x ∈ e.parts .statement, x.1.Fits x.2 := by
  cases h with
  | declaration | comment => simp [parts]
  | @declarations decl _ _ first _ each =>
    simp only [parts, List.mem_cons, forall_eq_or_imp]
    exact ⟨⟨decl, first, rfl⟩, each_part each⟩
  | function _ _ _ _ statements | alternative _ statements => exact each_part statements
  | assignment named location _ is => simpa [parts] using ⟨⟨_, location, named, rfl⟩, is⟩
  | call _ _ items => exact each_part items
  | conditional _ test statements | loop _ test statements =>
    simp only [parts, List.mem_cons, forall_eq_or_imp]
    exact ⟨test, each_part statements⟩
  | result _ is => simpa [parts, Position.Fits] using is
  | input _ _ each => exact each_part each
  | output _ _ each => exact each_part each

theorem IsExpression.names_free {e : Node} (h : e.IsExpression) : ∀ name ∈ e.names, IsName name := by
  cases h with
  | var named | call named => simpa [names] using named
  | literal is => cases is <;> simp [names]
  | _ => simp [names]

/-- The names of a statement are identifiers. -/
theorem IsStatement.names_free {e : Node} (h : e.IsStatement) : ∀ name ∈ e.names, IsName name := by
  cases h with
  | declaration proper => simpa [names] using ⟨proper.typed.named, proper.named⟩
  | function _ typed named parameters _ =>
    simp only [names, List.mem_cons, forall_eq_or_imp, List.mem_flatMap]
    refine ⟨typed, named, fun name => ?_⟩
    rintro ⟨p, member, inside⟩
    obtain rfl | rfl : name = p.type.base ∨ name = p.name := by simpa using inside
    · exact (parameters p member).typed.named
    · exact (parameters p member).named
  | call named => simpa [names] using named
  | _ => simp [names]

theorem IsReference.names_free {e : Node} (h : e.IsReference) : ∀ name ∈ e.names, IsName name := by
  obtain ⟨named, _⟩ := h
  simpa [names] using named

end Node

namespace Position.Fits

variable {here : Position} {e : Node}

/-- What stands below a node of the right shape is of the right shape too. -/
theorem part (h : here.Fits e) : ∀ x ∈ e.parts here, x.1.Fits x.2 := by
  cases here with
  | statement => exact Node.IsStatement.parts_fit h
  | firstDeclared =>
    obtain ⟨decl, proper, rfl⟩ := h
    simp [Node.parts]
  | laterDeclared => exact Node.IsDeclared.parts_fit h (by decide)
  | assigned | indexed =>
    obtain ⟨name, location, named, rfl⟩ := h
    simp [Node.parts]
  | value =>
    cases h with
    | expression is => exact is.parts_fit _
    | sequence _ each => exact Node.each_part each
  | readInto =>
    obtain ⟨_, _⟩ := h
    simp [Node.parts]
  | writtenOut =>
    obtain ⟨_, _⟩ | is := h
    · simp [Node.parts]
    · exact (Node.IsExpression.literal is).parts_fit _
  | initial | condition | operand | argument | offset | element | returned =>
    exact Node.IsExpression.parts_fit h _

theorem names_free (h : here.Fits e) : ∀ name ∈ e.names, IsName name := by
  cases here with
  | statement => exact Node.IsStatement.names_free h
  | firstDeclared =>
    obtain ⟨decl, proper, rfl⟩ := h
    exact (Node.IsStatement.declaration proper).names_free
  | laterDeclared => exact (Node.IsDeclared.isStatement h).names_free
  | assigned | indexed =>
    obtain ⟨name, location, named, rfl⟩ := h
    exact (Node.IsExpression.var named location).names_free
  | value =>
    cases h with
    | expression is => exact is.names_free
    | sequence => simp [Node.names]
  | readInto => exact Node.IsReference.names_free h
  | writtenOut =>
    obtain is | is := h
    · exact is.names_free
    · exact (Node.IsExpression.literal is).names_free
  | initial | condition | operand | argument | offset | element | returned =>
    exact Node.IsExpression.names_free h

/-- What fits a position is of a kind that the position is for. -/
theorem admits (h : here.Fits e) : here.admits e = true := by
  cases here with
  | statement => cases h <;> rfl
  | firstDeclared =>
    obtain ⟨decl, proper, rfl⟩ := h
    rfl
  | laterDeclared => cases h <;> rfl
  | assigned | indexed =>
    obtain ⟨name, location, named, rfl⟩ := h
    rfl
  | value =>
    cases h with
    | expression is =>
      cases is with
      | literal is => cases is <;> rfl
      | _ => rfl
    | sequence => rfl
  | readInto => cases h; rfl
  | writtenOut =>
    obtain is | is := h
    · cases is; rfl
    · cases is <;> rfl
  | initial | condition | operand | argument | offset | element | returned =>
    cases h with
    | literal is => cases is <;> rfl
    | _ => rfl

/-- Several declarations are two nodes or more. -/
theorem two_le_length {items : List Node} {location : Location}
    (h : here.Fits (.declarations items location)) : 2 ≤ items.length := by
  have allowed := h.admits
  cases here with
  | statement =>
    cases h with
    | declarations _ _ more => simpa [Nat.one_le_iff_ne_zero] using more
  | _ => cases allowed

end Position.Fits

/-- **What a fitting node leads to fits**, by induction on the way down. -/
theorem Node.Reaches.fits {here there : Position} {node e : Node} (h : Reaches here node there e)
    (fits : here.Fits node) : there.Fits e := by
  induction h with
  | self => exact fits
  | part member _ ih => exact ih (fits.part _ member)

/-- What stands in a parsed program has the shape that its position asks for. -/
theorem Program.HasAt.fits {source : String} {program : Program} {here : Position} {e : Node}
    (h : program.HasAt here e) (parsed : Program.parse source = .ok program) : here.Fits e := by
  obtain ⟨s, member, reached⟩ := h
  exact reached.fits (isStatement_of_parse parsed s member)

/-- An identifier is none of the keywords. -/
theorem IsName.not_mem_keywords {name : String} (h : IsName name) :
    name ∉ Kind.keywords.map Prod.fst := by
  intro keyword
  have known : ∀ word ∈ Kind.keywords.map Prod.fst, Kind.ofWord word ≠ .ident := by decide
  exact known name keyword h.free

end Pascalize
