import Pascalize.Tree.Node

/-!
# The walk over a tree

What a tree does to the scopes, as a flat list of events in the order they take place: a target
before its value, a condition before its block, the name of a call before its arguments, the heading
of a function before its body. The events between an `enter` and its `leave` belong to the scope of
that function.
-/

namespace Pascalize

/-- One thing that concerns the scopes. -/
inductive Event where
  | refer (name : String) (location : Location)
  | declare (decl : Declaration)
  | enter (returns name : String) (params : List Declaration) (location : Location)
  | leave
deriving DecidableEq, Repr, Inhabited

mutual

/-- The events of a node. -/
def Node.events : Node → List Event
  | .declaration decl => [.declare decl]
  | .function returns name params body location =>
    .enter returns name params location :: (eventsAll body ++ [.leave])
  | .assignment target value _ => target.events ++ value.events
  | .conditional condition body _ | .loop condition body _ => condition.events ++ eventsAll body
  | .alternative body _ => eventsAll body
  | .result value _ => value.events
  | .declarations items _ | .input items _ | .output items _ | .sequence items _ => eventsAll items
  | .binary _ left right _ => left.events ++ right.events
  | .negation operand _ | .complement operand _ => operand.events
  | .var name location | .reference name location => [.refer name location]
  | .call name args location => .refer name location :: eventsAll args
  | .index target position _ => target.events ++ position.events
  | .comment .. | .stringLiteral .. | .intLiteral .. | .floatLiteral .. => []

/-- The events of nodes in turn. -/
def Node.eventsAll : List Node → List Event
  | [] => []
  | node :: rest => node.events ++ eventsAll rest

end

theorem Node.eventsAll_append (before after : List Node) :
    eventsAll (before ++ after) = eventsAll before ++ eventsAll after := by
  induction before with
  | nil => simp [eventsAll]
  | cons node rest ih => simp [eventsAll, ih]

end Pascalize
