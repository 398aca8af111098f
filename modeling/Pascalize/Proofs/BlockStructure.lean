import Pascalize.Pascal.Routine
import Pascalize.Proofs.AnalysisLaws
import Pascalize.Proofs.TreeShape

/-!
# What a program declares

The variables and functions of a program, each function with what is declared inside it, and nothing
else of the tree: its block structure. `Node.declared` finds them wherever they stand. A `Scoping` is a
function with the scope around it and the scope of its own, and the same for the functions inside it, and
`Node.met` are those that the analysis meets.

`Carried.events` ties both to the events of a node: a relation that holds along references, declarations and
functions holds along the events of every node, with what the node declares and the functions met in it.
-/

namespace Pascalize

/-- A thing that is declared: a variable, or a function with what is declared inside it. -/
inductive Declared where
  | var (decl : Declaration)
  | function (definition : Definition) (inside : List Declared)
deriving Inhabited

namespace Declared

def name : Declared → String
  | var decl => decl.name
  | function definition _ => definition.name

/-- The declaration of a variable. -/
def declaration? : Declared → Option Declaration
  | var decl => some decl
  | function .. => none

/-- The function that is declared. -/
def definition? : Declared → Option Definition
  | var _ => none
  | function definition _ => some definition

mutual

/-- How many functions there are in what is declared, at any depth. -/
def count : Declared → Nat
  | var _ => 0
  | function _ inside => countAll inside + 1

def countAll : List Declared → Nat
  | [] => 0
  | x :: rest => x.count + countAll rest

end

/-- Functions are counted part by part. -/
theorem countAll_append (xs ys : List Declared) : countAll (xs ++ ys) = countAll xs + countAll ys := by
  induction xs with
  | nil => simp [countAll]
  | cons x xs ih => simp [countAll, ih, Nat.add_assoc]

end Declared

mutual

/-- What a node declares, in the order of the text. What stands in a function is inside it. -/
def Node.declared : Node → List Declared
  | .declaration decl => [.var decl]
  | .function returns name params body _ =>
    [.function ⟨returns, name, params, body⟩ (declaredAll body)]
  | .assignment first second _ | .binary _ first second _ | .index first second _ =>
    first.declared ++ second.declared
  | .conditional condition body _ | .loop condition body _ => condition.declared ++ declaredAll body
  | .declarations items _ | .alternative items _ | .input items _ | .output items _
  | .sequence items _ | .call _ items _ => declaredAll items
  | .result inner _ | .negation inner _ | .complement inner _ => inner.declared
  | .comment .. | .var .. | .reference .. | .stringLiteral .. | .intLiteral ..
  | .floatLiteral .. => []

/-- What nodes declare in turn. -/
def Node.declaredAll : List Node → List Declared
  | [] => []
  | node :: rest => node.declared ++ declaredAll rest

end

/-- What a program declares. -/
def Program.declared (program : Program) : List Declared :=
  Node.declaredAll program.statements

/-- A function with the scope around it and, if there is one, the scope of its own, and the same for the
functions inside it. -/
inductive Scoping where
  | mk (definition : Definition) (outside : ScopeId) (own : Option ScopeId) (inner : List Scoping)
deriving Inhabited

namespace Scoping

def definition : Scoping → Definition
  | mk definition .. => definition

def outside : Scoping → ScopeId
  | mk _ outside .. => outside

def own : Scoping → Option ScopeId
  | mk _ _ own _ => own

def inner : Scoping → List Scoping
  | mk _ _ _ inner => inner

def name (s : Scoping) : String :=
  s.definition.name

mutual

/-- A function and those inside it, at any depth. -/
def all : Scoping → List Scoping
  | s@(mk _ _ _ inner) => s :: allOf inner

def allOf : List Scoping → List Scoping
  | [] => []
  | s :: rest => s.all ++ allOf rest

end

theorem allOf_append (l l' : List Scoping) : allOf (l ++ l') = allOf l ++ allOf l' := by
  induction l with
  | nil => rfl
  | cons s rest ih => rw [List.cons_append, allOf, ih, allOf, List.append_assoc]

end Scoping

mutual

/-- The functions that the analysis meets in a node, each with the scope that is active before it and
the one that is active in it. -/
def Node.met (a : Analysis) : Node → List Scoping
  | .function returns name params body location =>
    let entered := a.enter returns name params location
    [.mk ⟨returns, name, params, body⟩ a.active (some entered.active) (metAll entered body)]
  | .assignment first second _ | .binary _ first second _ | .index first second _ =>
    first.met a ++ second.met (a.play first.events)
  | .conditional condition body _ | .loop condition body _ =>
    condition.met a ++ metAll (a.play condition.events) body
  | .declarations items _ | .alternative items _ | .input items _ | .output items _
  | .sequence items _ => metAll a items
  | .call name args location => metAll (a.refer name location) args
  | .result inner _ | .negation inner _ | .complement inner _ => inner.met a
  | .declaration _ | .comment .. | .var .. | .reference .. | .stringLiteral .. | .intLiteral ..
  | .floatLiteral .. => []

/-- The functions that the analysis meets in nodes in turn. -/
def Node.metAll (a : Analysis) : List Node → List Scoping
  | [] => []
  | node :: rest => node.met a ++ metAll (a.play node.events) rest

end

/-- The functions that the analysis of a program meets. -/
def Program.met (program : Program) : List Scoping :=
  Node.metAll {} program.statements

/-! ## Along the events of a node -/

/-- A relation between an analysis, events that it goes through, what they declare and the functions that
are met, which every event carries along. -/
structure Carried (R : Analysis → List Event → List Declared → List Scoping → Prop) : Prop where
  none : ∀ a, R a [] [] []
  append : ∀ {a before after xs ys met met'}, a.Standing → R a before xs met →
    R (a.play before) after ys met' → R a (before ++ after) (xs ++ ys) (met ++ met')
  refer : ∀ a name location, R a [.refer name location] [] []
  declare : ∀ {a}, a.Standing → ∀ decl, R a [.declare decl] [.var decl] []
  function : ∀ {a inside inner}, a.Standing → ∀ returns name params body location,
    R (a.enter returns name params location) (Node.eventsAll body) inside inner →
      R a (.enter returns name params location :: Node.eventsAll body ++ [.leave])
        [.function ⟨returns, name, params, body⟩ inside]
        [.mk ⟨returns, name, params, body⟩ a.active (some (a.enter returns name params location).active)
          inner]

mutual

/-- What events carry along holds along a node. -/
theorem Carried.events {R : Analysis → List Event → List Declared → List Scoping → Prop} (h : Carried R)
    {a : Analysis} (standing : a.Standing) : (node : Node) → R a node.events node.declared (node.met a)
  | .declaration decl => by
    rw [Node.events, Node.declared, Node.met]
    exact h.declare standing decl
  | .function returns name params body location => by
    rw [Node.events, Node.declared, Node.met]
    exact h.function standing returns name params body location
      (h.eventsAll (standing.enter returns name params location).1 body)
  | .assignment first second _ | .binary _ first second _ | .index first second _ => by
    rw [Node.events, Node.declared, Node.met]
    exact h.append standing (h.events standing first) (h.events (standing.play first.events) second)
  | .conditional condition body _ | .loop condition body _ => by
    rw [Node.events, Node.declared, Node.met]
    exact h.append standing (h.events standing condition) (h.eventsAll (standing.play condition.events) body)
  | .declarations items _ | .alternative items _ | .input items _ | .output items _
  | .sequence items _ => by
    rw [Node.events, Node.declared, Node.met]
    exact h.eventsAll standing items
  | .result inner _ | .negation inner _ | .complement inner _ => by
    rw [Node.events, Node.declared, Node.met]
    exact h.events standing inner
  | .var name location | .reference name location => by
    rw [Node.events, Node.declared, Node.met]
    exact h.refer a name location
  | .call name args location => by
    rw [Node.events, Node.declared, Node.met]
    exact h.append standing (h.refer a name location) (h.eventsAll (standing.refer name location) args)
  | .comment .. | .stringLiteral .. | .intLiteral .. | .floatLiteral .. => by
    rw [Node.events, Node.declared, Node.met]
    exact h.none a

/-- What events carry along holds along nodes in turn. -/
theorem Carried.eventsAll {R : Analysis → List Event → List Declared → List Scoping → Prop} (h : Carried R)
    {a : Analysis} (standing : a.Standing) :
    (nodes : List Node) → R a (Node.eventsAll nodes) (Node.declaredAll nodes) (Node.metAll a nodes)
  | [] => by
    rw [Node.eventsAll, Node.declaredAll, Node.metAll]
    exact h.none a
  | node :: rest => by
    rw [Node.eventsAll, Node.declaredAll, Node.metAll]
    exact h.append standing (h.events standing node) (h.eventsAll (standing.play node.events) rest)

end

/-- What events carry along holds along a program. -/
theorem Carried.program {R : Analysis → List Event → List Declared → List Scoping → Prop} (h : Carried R)
    (program : Program) : R {} (Node.eventsAll program.statements) program.declared program.met :=
  h.eventsAll .start program.statements

/-! ## In statements -/

namespace Node

theorem declaredAll_eq_flatMap (nodes : List Node) : declaredAll nodes = nodes.flatMap declared := by
  induction nodes with
  | nil => rfl
  | cons node rest ih => rw [declaredAll, ih, List.flatMap_cons]

/-- Nodes that declare nothing declare nothing together. -/
theorem declaredAll_eq_nil {nodes : List Node} (h : ∀ x ∈ nodes, x.declared = []) :
    declaredAll nodes = [] := by
  rw [declaredAll_eq_flatMap, List.flatMap_eq_nil_iff]
  exact h

/-- Expressions declare nothing. -/
theorem IsExpression.declared {e : Node} (h : e.IsExpression) : e.declared = [] := by
  induction h with
  | binary _ _ _ _ first second => rw [Node.declared, first, second, List.append_nil]
  | negation _ _ ih | complement _ _ ih => rw [Node.declared, ih]
  | var => rw [Node.declared]
  | call _ _ _ ih => rw [Node.declared, declaredAll_eq_nil ih]
  | index _ _ _ _ ih => rw [Node.declared, Node.declared, ih, List.append_nil]
  | literal is => cases is <;> rw [Node.declared]

/-- Values declare nothing. -/
theorem IsValue.declared {e : Node} (h : e.IsValue) : e.declared = [] := by
  cases h with
  | expression is => exact is.declared
  | sequence _ each => rw [Node.declared, declaredAll_eq_nil fun e member => (each e member).declared]

theorem IsReference.declared {e : Node} (h : e.IsReference) : e.declared = [] := by
  cases h
  rw [Node.declared]

end Node

end Pascalize
