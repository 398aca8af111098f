import Pascalize.Tree.Node

/-!
# Comparing trees

Whether two trees are the same, with all their locations, can be computed (`Node.same`). So equality of
trees is decidable, and what a closed text is parsed as is found by evaluation.
-/

namespace Pascalize

mutual

/-- Whether two nodes are the same. -/
def Node.same : Node → Node → Bool
  | .declaration decl, .declaration decl' => decl = decl'
  | .declarations items p, .declarations items' p' => sameAll items items' && p = p'
  | .function returns name params body p, .function returns' name' params' body' p' =>
    returns = returns' && name = name' && params = params' && sameAll body body' && p = p'
  | .assignment target value p, .assignment target' value' p' =>
    target.same target' && value.same value' && p = p'
  | .conditional condition body p, .conditional condition' body' p'
  | .loop condition body p, .loop condition' body' p' =>
    condition.same condition' && sameAll body body' && p = p'
  | .alternative body p, .alternative body' p' => sameAll body body' && p = p'
  | .result value p, .result value' p' => value.same value' && p = p'
  | .input targets p, .input targets' p' => sameAll targets targets' && p = p'
  | .output items p, .output items' p' => sameAll items items' && p = p'
  | .comment text p, .comment text' p' => text = text' && p = p'
  | .binary op left right p, .binary op' left' right' p' =>
    op = op' && left.same left' && right.same right' && p = p'
  | .negation operand p, .negation operand' p'
  | .complement operand p, .complement operand' p' => operand.same operand' && p = p'
  | .var name p, .var name' p' | .reference name p, .reference name' p' => name = name' && p = p'
  | .call name args p, .call name' args' p' => name = name' && sameAll args args' && p = p'
  | .index target position p, .index target' position' p' =>
    target.same target' && position.same position' && p = p'
  | .sequence items p, .sequence items' p' => sameAll items items' && p = p'
  | .stringLiteral text p, .stringLiteral text' p' | .intLiteral text p, .intLiteral text' p'
  | .floatLiteral text p, .floatLiteral text' p' => text = text' && p = p'
  | _, _ => false

/-- Whether two lists of nodes are the same. -/
def Node.sameAll : List Node → List Node → Bool
  | [], [] => true
  | node :: rest, node' :: rest' => node.same node' && sameAll rest rest'
  | _, _ => false

end

mutual

theorem Node.same_iff (node other : Node) : node.same other = true ↔ node = other := by
  cases node with
  | declaration | comment | var | reference | stringLiteral | intLiteral | floatLiteral =>
    cases other <;> simp [same]
  | declarations items | alternative items | input items | output items | sequence items =>
    cases other <;> simp [same, sameAll_iff items]
  | function _ _ _ body => cases other <;> simp [same, sameAll_iff body, and_assoc]
  | call _ args => cases other <;> simp [same, sameAll_iff args, and_assoc]
  | assignment first second | binary _ first second | index first second =>
    cases other <;> simp [same, same_iff first, same_iff second, and_assoc]
  | conditional condition body | loop condition body =>
    cases other <;> simp [same, same_iff condition, sameAll_iff body, and_assoc]
  | result inner | negation inner | complement inner => cases other <;> simp [same, same_iff inner]

theorem Node.sameAll_iff (nodes others : List Node) : sameAll nodes others = true ↔ nodes = others := by
  cases nodes with
  | nil => cases others <;> simp [sameAll]
  | cons node rest => cases others <;> simp [sameAll, same_iff node, sameAll_iff rest]

end

instance : DecidableEq Node :=
  fun node other => decidable_of_iff _ (node.same_iff other)

deriving instance DecidableEq for Program

end Pascalize
