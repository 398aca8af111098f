import Pascalize.Proofs.ProgramParsing
import Pascalize.Proofs.TokenText

/-!
# The shape of parsed trees

One type holds statements and expressions, so the type alone does not say which node may stand
where. `Node.IsExpression` and `Node.IsStatement` do, down to the texts of names and numbers. Every
statement of a parsed program has this shape (`Program.isStatement_of_parse`), and so has every node
in it (`Node.IsWritten`).
-/

namespace Pascalize

/-- A literal with the digits that its kind asks for. -/
inductive Node.IsLiteral : Node → Prop where
  | string (text : String) (location : Location) : IsLiteral (.stringLiteral text location)
  | integer {text : String} (digits : IsDigits text.toList) (location : Location) :
      IsLiteral (.intLiteral text location)
  | fraction {text : String} (digits : IsFraction text.toList) (location : Location) :
      IsLiteral (.floatLiteral text location)

/-- An expression as it stands in conditions, arguments and values. -/
inductive Node.IsExpression : Node → Prop where
  | binary {left right : Node} (op : Operator) (location : Location) (first : IsExpression left)
      (second : IsExpression right) : IsExpression (.binary op left right location)
  | negation {operand : Node} (location : Location) (inner : IsExpression operand) :
      IsExpression (.negation operand location)
  | complement {operand : Node} (location : Location) (inner : IsExpression operand) :
      IsExpression (.complement operand location)
  | var {name : String} (named : IsName name) (location : Location) :
      IsExpression (.var name location)
  | call {name : String} {args : List Node} (named : IsName name) (location : Location)
      (items : ∀ e ∈ args, IsExpression e) : IsExpression (.call name args location)
  | index {name : String} {position : Node} (named : IsName name) (location place : Location)
      (inner : IsExpression position) : IsExpression (.index (.var name location) position place)
  | literal {e : Node} (is : e.IsLiteral) : IsExpression e

/-- A name that is read into or written out. -/
inductive Node.IsReference : Node → Prop where
  | mk {name : String} (named : IsName name) (location : Location) :
      IsReference (.reference name location)

/-- What may be assigned: an expression or a list of expressions. -/
inductive Node.IsValue : Node → Prop where
  | expression {e : Node} (is : e.IsExpression) : IsValue e
  | sequence {items : List Node} (location : Location) (each : ∀ e ∈ items, e.IsExpression) :
      IsValue (.sequence items location)

/-- A type with a name, and a size that fits in a word if it has one. -/
structure TypeName.Proper (type : TypeName) : Prop where
  named : IsName type.base
  fits : ∀ n ∈ type.size, n < Parser.wordLimit

/-- A declared name with its type. -/
structure Declaration.Proper (decl : Declaration) : Prop where
  typed : decl.type.Proper
  named : IsName decl.name

/-- What follows the first of several declarations: a declaration or the value of the latest. -/
inductive Node.IsDeclared : Node → Prop where
  | declaration {decl : Declaration} (proper : decl.Proper) : IsDeclared (.declaration decl)
  | assignment {name : String} {value : Node} (named : IsName name) (location place : Location)
      (is : value.IsExpression) : IsDeclared (.assignment (.var name location) value place)

/-- A statement. -/
inductive Node.IsStatement : Node → Prop where
  | declaration {decl : Declaration} (proper : decl.Proper) : IsStatement (.declaration decl)
  | declarations {decl : Declaration} {items : List Node} (location : Location)
      (first : decl.Proper) (more : items ≠ []) (each : ∀ x ∈ items, x.IsDeclared) :
      IsStatement (.declarations (.declaration decl :: items) location)
  | function {returns name : String} {params : List Declaration} {body : List Node}
      (location : Location) (typed : IsName returns) (named : IsName name)
      (parameters : ∀ p ∈ params, p.Proper) (statements : ∀ s ∈ body, IsStatement s) :
      IsStatement (.function returns name params body location)
  | assignment {name : String} {value : Node} (named : IsName name) (location place : Location)
      (is : value.IsValue) : IsStatement (.assignment (.var name location) value place)
  | call {name : String} {args : List Node} (named : IsName name) (location : Location)
      (items : ∀ e ∈ args, e.IsExpression) : IsStatement (.call name args location)
  | conditional {condition : Node} {body : List Node} (location : Location)
      (test : condition.IsExpression) (statements : ∀ s ∈ body, IsStatement s) :
      IsStatement (.conditional condition body location)
  | loop {condition : Node} {body : List Node} (location : Location)
      (test : condition.IsExpression) (statements : ∀ s ∈ body, IsStatement s) :
      IsStatement (.loop condition body location)
  | alternative {body : List Node} (location : Location) (statements : ∀ s ∈ body, IsStatement s) :
      IsStatement (.alternative body location)
  | result {value : Node} (location : Location) (is : value.IsExpression) :
      IsStatement (.result value location)
  | input {targets : List Node} (location : Location) (some : targets ≠ [])
      (each : ∀ x ∈ targets, x.IsReference) : IsStatement (.input targets location)
  | output {items : List Node} (location : Location) (some : items ≠ [])
      (each : ∀ x ∈ items, x.IsReference ∨ x.IsLiteral) : IsStatement (.output items location)
  | comment (text : String) (location : Location) : IsStatement (.comment text location)

namespace Derives

/-- The tokens of a phrase are tokens of the list. -/
theorem Listed.subset {vs : List (List Token)} {w v : List Token} (h : Listed vs w)
    (member : v ∈ vs) : v ⊆ w := by
  induction h with
  | nil => nomatch member
  | last u =>
    obtain rfl := List.mem_singleton.1 member
    exact List.Subset.refl v
  | cons _ _ ih =>
    obtain rfl | member := List.mem_cons.1 member
    · exact List.subset_append_left v _
    · exact fun t inside => List.mem_append_right _ (List.mem_cons_of_mem _ (ih member inside))

theorem Separated.subset {sep : Kind} {vs : List (List Token)} {w v : List Token}
    (h : Separated sep vs w) (member : v ∈ vs) : v ⊆ w := by
  induction h with
  | single u =>
    obtain rfl := List.mem_singleton.1 member
    exact List.Subset.refl v
  | cons _ _ ih =>
    obtain rfl | member := List.mem_cons.1 member
    · exact List.subset_append_left v _
    · exact fun t inside => List.mem_append_right _ (List.mem_cons_of_mem _ (ih member inside))

theorem subset_concat {α : Type} {items : List (List Token × α)} {x : List Token × α}
    (member : x ∈ items) : x.1 ⊆ concat items :=
  fun _ inside => List.mem_flatten.2 ⟨x.1, List.mem_map_of_mem member, inside⟩

/-- A literal has the text of its token, which is digits if it is a number. -/
theorem isLiteral_of_literal {t : Token} {e : Node} (h : Parser.literal? t = some e)
    (proper : t.Proper) : e.IsLiteral := by
  simp only [Parser.literal?] at h
  split at h
  next =>
    cases h
    exact .string _ _
  next is =>
    cases h
    exact .integer (proper.digits is) _
  next is =>
    cases h
    exact .fraction (proper.fraction is) _
  next => cases h

/-- What operations derive are expressions, by induction on the derivation. -/
theorem Operation.isExpression {p : Nat} {w : List Token} {e : Node} (h : Operation p w e)
    (proper : ∀ t ∈ w, t.Proper) : e.IsExpression := by
  induction h with
  | lift _ ih => exact ih proper
  | binary _ _ _ _ first second =>
    simp only [List.mem_append, List.mem_cons] at proper
    exact .binary _ _ (first fun t inside => proper t (.inl inside))
      (second fun t inside => proper t (.inr (.inr inside)))
  | negation _ _ ih => exact .negation _ (ih fun t inside => proper t (List.mem_cons_of_mem _ inside))
  | complement _ _ ih =>
    exact .complement _ (ih fun t inside => proper t (List.mem_cons_of_mem _ inside))
  | literal isLiteral => exact .literal (isLiteral_of_literal isLiteral (proper _ List.mem_cons_self))
  | var isName => exact .var ((proper _ List.mem_cons_self).name isName) _
  | call isName _ joined _ _ ih =>
    simp only [List.mem_append, List.mem_cons] at proper
    refine .call ((proper _ (.inl rfl)).name isName) _ fun e member => ?_
    obtain ⟨x, within, rfl⟩ := List.mem_map.1 member
    refine ih x within fun t inside => proper t (.inr (.inr (.inl ?_)))
    exact joined.subset (List.mem_map_of_mem within) inside
  | index isName _ _ _ ih =>
    simp only [List.mem_append, List.mem_cons] at proper
    exact .index ((proper _ (.inl rfl)).name isName) _ _
      (ih fun t inside => proper t (.inr (.inr (.inl inside))))
  | group _ _ _ ih =>
    simp only [List.mem_append, List.mem_cons] at proper
    exact ih fun t inside => proper t (.inr (.inl inside))

theorem Expressions.isExpression {w : List Token} {es : List Node} (h : Expressions w es)
    (proper : ∀ t ∈ w, t.Proper) : ∀ e ∈ es, e.IsExpression := by
  obtain ⟨items, joined, each, rfl⟩ := h
  intro e member
  obtain ⟨x, within, rfl⟩ := List.mem_map.1 member
  refine (each x within).isExpression fun t inside => proper t ?_
  exact joined.subset (List.mem_map_of_mem within) inside

/-- Only sizes that fit in a word are derived. -/
theorem ArrayType.proper {w : List Token} {type : TypeName} (h : ArrayType w type)
    (proper : ∀ t ∈ w, t.Proper) : type.Proper := by
  obtain ⟨isName, _, _, fits, _⟩ := h
  refine ⟨(proper _ List.mem_cons_self).name isName, fun n is => ?_⟩
  obtain rfl := Option.some.inj is
  exact fits

theorem plainType_proper {name : Token} (proper : name.Proper) (isName : name.kind = .ident) :
    (plainType name).Proper :=
  ⟨proper.name isName, fun _ is => nomatch is⟩

theorem TypeOf.proper {w : List Token} {type : TypeName} (h : TypeOf w type)
    (proper : ∀ t ∈ w, t.Proper) : type.Proper := by
  cases h with
  | plain isName => exact plainType_proper (proper _ List.mem_cons_self) isName
  | array suffixed => exact suffixed.proper proper

theorem Parameters.proper {w : List Token} {params : List Declaration} (h : Parameters w params)
    (proper : ∀ t ∈ w, t.Proper) : ∀ p ∈ params, p.Proper := by
  cases h with
  | nil => simp
  | list joined each =>
    intro p member
    obtain ⟨⟨v, p⟩, within, rfl⟩ := List.mem_map.1 member
    have parts : ∀ t ∈ v, t.Proper := fun t inside =>
      proper t (joined.subset (List.mem_map_of_mem within) inside)
    have param : Parameter v p := each _ within
    cases param with
    | mk typed isName =>
      simp only [List.mem_append, List.mem_singleton] at parts
      exact ⟨typed.proper fun t among => parts t (.inl among), (parts _ (.inr rfl)).name isName⟩

/-- What follows the first name of declarations declares names or assigns to the latest one. -/
theorem Tail.isDeclared {type : TypeName} {isConst : Bool} {latest : Token} {w : List Token}
    {nodes : List Node} (h : Tail type isConst latest w nodes) (typed : type.Proper)
    (named : IsName latest.text) (proper : ∀ t ∈ w, t.Proper) : ∀ x ∈ nodes, x.IsDeclared := by
  induction h with
  | nil => simp
  | name _ isName _ ih =>
    simp only [List.mem_cons, forall_eq_or_imp] at proper ⊢
    have named := proper.2.1.name isName
    exact ⟨.declaration ⟨typed, named⟩, ih named proper.2.2⟩
  | value _ value _ ih =>
    simp only [List.mem_cons, List.mem_append, forall_eq_or_imp] at proper ⊢
    exact ⟨.assignment named _ _ (value.isExpression fun t inside => proper.2 t (.inl inside)),
      ih named fun t inside => proper.2 t (.inr inside)⟩

/-- Declarations that go on declare or assign something. -/
theorem Tail.ne_nil {type : TypeName} {isConst : Bool} {latest : Token} {w : List Token}
    {nodes : List Node} (h : Tail type isConst latest w nodes) (more : w ≠ []) : nodes ≠ [] := by
  cases h with
  | nil => exact absurd rfl more
  | name | value => simp

/-- There is an item behind the first sign, so a stream is not empty. -/
theorem Streamed.each {sign : Kind} {Item : Token → Node → Prop} {P : Node → Prop} {w : List Token}
    {es : List Node} (h : Streamed sign Item w es) (proper : ∀ t ∈ w, t.Proper)
    (item : ∀ t e, Item t e → t.Proper → P e) : es ≠ [] ∧ ∀ e ∈ es, P e := by
  induction h with
  | single _ is =>
    simp only [List.mem_cons, forall_eq_or_imp] at proper
    simpa using item _ _ is proper.2.1
  | cons _ is _ ih =>
    simp only [List.mem_cons, forall_eq_or_imp] at proper
    simpa using ⟨item _ _ is proper.2.1, (ih proper.2.2).2⟩

/-- Statements before their semicolons, rule by rule. -/
theorem Simple.isStatement {w : List Token} {node : Node} (h : Simple w node)
    (proper : ∀ t ∈ w, t.Proper) : node.IsStatement := by
  cases h with
  | declaration _ isType isName =>
    simp only [List.mem_append, List.mem_cons] at proper
    exact .declaration ⟨plainType_proper (proper _ (.inr (.inl rfl))) isType,
      (proper _ (.inr (.inr (.inl rfl)))).name isName⟩
  | declarations _ isType isName tail more =>
    simp only [List.mem_append, List.mem_cons] at proper
    have typed := plainType_proper (proper _ (.inr (.inl rfl))) isType
    have named := (proper _ (.inr (.inr (.inl rfl)))).name isName
    exact .declarations _ ⟨typed, named⟩ (tail.ne_nil more)
      (tail.isDeclared typed named fun t inside => proper t (.inr (.inr (.inr inside))))
  | array _ suffixed isName =>
    simp only [List.mem_append, List.mem_singleton] at proper
    exact .declaration ⟨suffixed.proper fun t inside => proper t (.inr (.inl inside)),
      (proper _ (.inr (.inr rfl))).name isName⟩
  | assignment isName _ value =>
    simp only [List.mem_cons, forall_eq_or_imp] at proper
    exact .assignment (proper.1.name isName) _ _ (.expression (value.isExpression proper.2.2))
  | sequence isName _ _ items _ =>
    simp only [List.mem_cons, List.mem_append, forall_eq_or_imp] at proper
    exact .assignment (proper.1.name isName) _ _
      (.sequence _ (items.isExpression fun t inside => proper.2.2.2 t (.inl inside)))
  | call isName _ items _ =>
    simp only [List.mem_cons, List.mem_append, forall_eq_or_imp] at proper
    exact .call (proper.1.name isName) _
      (items.isExpression fun t inside => proper.2.2 t (.inl inside))
  | result _ value =>
    exact .result _ (value.isExpression fun t inside => proper t (List.mem_cons_of_mem _ inside))
  | input _ stream =>
    have each := stream.each (P := Node.IsReference)
      (fun t inside => proper t (List.mem_cons_of_mem _ inside)) ?_
    · exact .input _ each.1 each.2
    · rintro t _ ⟨isName⟩ proper
      exact .mk (proper.name isName) _
  | output _ stream =>
    have each := stream.each (P := fun e => e.IsReference ∨ e.IsLiteral)
      (fun t inside => proper t (List.mem_cons_of_mem _ inside)) ?_
    · exact .output _ each.1 each.2
    · rintro t _ (isName | isLiteral) proper
      · exact .inl (.mk (proper.name isName) _)
      · exact .inr (isLiteral_of_literal isLiteral proper)

/-- What holds of each phrase with proper tokens holds of phrases in a row. -/
theorem each_of_concat {P : Node → Prop} {items : List (List Token × Node)}
    (each : ∀ x ∈ items, (∀ t ∈ x.1, t.Proper) → P x.2) (proper : ∀ t ∈ concat items, t.Proper) :
    ∀ s ∈ items.map Prod.snd, P s := by
  intro s member
  obtain ⟨x, within, rfl⟩ := List.mem_map.1 member
  exact each x within fun t inside => proper t (subset_concat within inside)

/-- **Statements that are derived from proper tokens have the shape**, by induction on the derivation. -/
theorem Statement.isStatement {w : List Token} {node : Node} (h : Statement w node)
    (proper : ∀ t ∈ w, t.Proper) : node.IsStatement := by
  induction h with
  | simple bare _ => exact bare.isStatement fun t inside => proper t (List.mem_append_left _ inside)
  | function _ isType isName _ parameters _ _ _ _ ih =>
    simp only [List.mem_append, List.mem_cons] at proper
    exact .function _ ((proper _ (.inr (.inl rfl))).name isType)
      ((proper _ (.inr (.inr (.inl rfl)))).name isName)
      (parameters.proper fun t inside => proper t (by simp [inside]))
      (each_of_concat ih fun t inside => proper t (by simp [inside]))
  | conditional _ condition _ _ _ ih =>
    simp only [List.mem_append, List.mem_cons] at proper
    exact .conditional _ (condition.isExpression fun t inside => proper t (by simp [inside]))
      (each_of_concat ih fun t inside => proper t (by simp [inside]))
  | loop _ condition _ _ _ ih =>
    simp only [List.mem_append, List.mem_cons] at proper
    exact .loop _ (condition.isExpression fun t inside => proper t (by simp [inside]))
      (each_of_concat ih fun t inside => proper t (by simp [inside]))
  | alternative _ _ _ _ ih =>
    simp only [List.mem_append, List.mem_cons] at proper
    exact .alternative _ (each_of_concat ih fun t inside => proper t (by simp [inside]))
  | lineComment => exact .comment _ _
  | blockComment => exact .comment _ _

end Derives

/-- The statements of a parsed program have the shape of statements. -/
theorem Program.isStatement_of_parse {source : String} {program : Program}
    (parsed : Program.parse source = .ok program) : ∀ s ∈ program.statements, s.IsStatement := by
  obtain ⟨c, c', start, run⟩ := Program.parse_eq_ok.1 parsed
  obtain ⟨-, -, -, w, took, items, rfl, same, each⟩ := Parser.program_eq_ok run
  rw [same]
  refine Derives.each_of_concat (fun x member => (each x member).isStatement) fun t inside => ?_
  have ahead : .ok t ∈ c.ahead := by
    rw [took]
    exact List.mem_append_left _ (List.mem_map_of_mem inside)
  rw [Cursor.ahead_ofString start] at ahead
  exact Lexer.proper_of_mem_significantItems ahead

/-! ## Nodes within nodes -/

namespace Node

/-- The nodes right below a node. -/
def children : Node → List Node
  | .declarations items _ | .input items _ | .output items _ | .call _ items _
  | .sequence items _ => items
  | .function _ _ _ body _ | .alternative body _ => body
  | .assignment target value _ => [target, value]
  | .conditional condition body _ | .loop condition body _ => condition :: body
  | .binary _ left right _ => [left, right]
  | .result inner _ | .negation inner _ | .complement inner _ => [inner]
  | .index target position _ => [target, position]
  | .declaration _ | .comment .. | .var .. | .reference .. | .stringLiteral .. | .intLiteral ..
  | .floatLiteral .. => []

/-- The node occurs in a tree, at any depth. -/
inductive Within (e : Node) : Node → Prop where
  | self : Within e e
  | under {node child : Node} (member : child ∈ node.children) (deeper : Within e child) :
      Within e node

/-- Whether a node is of a kind that has a value. A call may also stand as a statement. -/
def isExpression : Node → Bool
  | .binary .. | .negation .. | .complement .. | .var .. | .reference .. | .call .. | .index ..
  | .sequence .. | .stringLiteral .. | .intLiteral .. | .floatLiteral .. => true
  | _ => false

/-- An expression wherever it may stand: as a value, or as a name to read into or write out. -/
inductive IsWritten : Node → Prop where
  | value {e : Node} (is : e.IsValue) : IsWritten e
  | reference {e : Node} (is : e.IsReference) : IsWritten e

theorem IsExpression.written {e : Node} (h : e.IsExpression) : e.IsWritten :=
  .value (.expression h)

/-- The operands of an expression are expressions. -/
theorem IsExpression.child {e : Node} (h : e.IsExpression) : ∀ x ∈ e.children, x.IsExpression := by
  cases h with
  | binary _ _ first second => simpa [children] using ⟨first, second⟩
  | negation _ inner | complement _ inner => simpa [children] using inner
  | var => simp [children]
  | call _ _ items => exact items
  | index named _ _ inner => simpa [children] using ⟨.var named _, inner⟩
  | literal is => cases is <;> simp [children]

/-- The elements of a sequence are expressions, and a name to read into has nothing inside. -/
theorem IsWritten.child {e : Node} (h : e.IsWritten) : ∀ x ∈ e.children, x.IsWritten := by
  intro x member
  cases h with
  | value is =>
    cases is with
    | expression is => exact (is.child x member).written
    | sequence _ each => exact (each x member).written
  | reference is =>
    obtain ⟨_, _⟩ := is
    nomatch member

theorem IsDeclared.isStatement {x : Node} (h : x.IsDeclared) : x.IsStatement := by
  cases h with
  | declaration proper => exact .declaration proper
  | assignment named _ _ is => exact .assignment named _ _ (.expression is)

/-- Below a statement there are statements and expressions of the same shape. -/
theorem IsStatement.child {s : Node} (h : s.IsStatement) :
    ∀ x ∈ s.children, x.IsStatement ∨ x.IsWritten := by
  intro x member
  cases h with
  | declaration => nomatch member
  | declarations _ first _ each =>
    obtain rfl | member := List.mem_cons.1 member
    · exact .inl (.declaration first)
    · exact .inl (each x member).isStatement
  | function _ _ _ _ statements | alternative _ statements => exact .inl (statements x member)
  | assignment named _ _ is =>
    simp only [children, List.mem_cons, List.not_mem_nil, or_false] at member
    obtain rfl | rfl := member
    · exact .inr (IsExpression.var named _).written
    · exact .inr (.value is)
  | call _ _ items => exact .inr (items x member).written
  | conditional _ test statements | loop _ test statements =>
    obtain rfl | member := List.mem_cons.1 member
    · exact .inr test.written
    · exact .inl (statements x member)
  | result _ is =>
    obtain rfl := List.mem_singleton.1 member
    exact .inr is.written
  | input _ _ each => exact .inr (.reference (each x member))
  | output _ _ each =>
    obtain is | is := each x member
    · exact .inr (.reference is)
    · exact .inr (IsExpression.literal is).written
  | comment => nomatch member

/-- The shape goes down from a node to all nodes in it. -/
theorem Within.shape {e node : Node} (h : e.Within node) :
    node.IsStatement ∨ node.IsWritten → e.IsStatement ∨ e.IsWritten := by
  induction h with
  | self => exact id
  | under member _ ih =>
    rintro (is | is)
    · exact ih (is.child _ member)
    · exact ih (.inr (is.child _ member))

/-- Where a statement can be taken for an expression, it is a call. -/
theorem IsStatement.isWritten {s : Node} (h : s.IsStatement) (value : s.isExpression = true) :
    s.IsWritten := by
  cases h with
  | call named _ items => exact (IsExpression.call named _ items).written
  | _ => nomatch value

theorem IsWritten.isExpression {e : Node} (h : e.IsWritten) : e.isExpression = true := by
  cases h with
  | value is =>
    cases is with
    | expression is =>
      cases is with
      | literal is => cases is <;> rfl
      | _ => rfl
    | sequence => rfl
  | reference is =>
    cases is
    rfl

end Node

/-- The node occurs in a program. -/
def Program.Has (program : Program) (e : Node) : Prop :=
  ∃ s ∈ program.statements, e.Within s

/-- Every expression in a parsed program has the shape of one. -/
theorem Program.Has.isWritten {source : String} {program : Program} {e : Node}
    (h : program.Has e) (parsed : Program.parse source = .ok program)
    (value : e.isExpression = true) : e.IsWritten := by
  obtain ⟨s, member, within⟩ := h
  obtain is | is := within.shape (.inl (Program.isStatement_of_parse parsed s member))
  · exact is.isWritten value
  · exact is

/-- Every other node in a parsed program has the shape of a statement. -/
theorem Program.Has.isStatement {source : String} {program : Program} {e : Node}
    (h : program.Has e) (parsed : Program.parse source = .ok program)
    (noValue : e.isExpression = false) : e.IsStatement := by
  obtain ⟨s, member, within⟩ := h
  obtain is | is := within.shape (.inl (Program.isStatement_of_parse parsed s member))
  · exact is
  · rw [is.isExpression] at noValue
    nomatch noValue

end Pascalize
