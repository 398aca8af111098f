import Pascalize.Grammar.Cursor
import Pascalize.Tree.Node

/-!
# The grammar of expressions

Binary operators by precedence, all grouping to the left; then signs and `not`, which nest to the
right; then literals, names, calls, indexed names and expressions in parentheses. An operation is
located at its operator, an indexed name at its bracket, a call at its name.

The four rules call each other at most `n` times deep. `Parser.expression` takes the bound from the
text that is left.
-/

namespace Pascalize.Parser

/-- The literal that a token stands for. -/
def literal? (t : Token) : Option Node :=
  match t.kind with
  | .stringLiteral => some (.stringLiteral t.text t.location)
  | .intLiteral => some (.intLiteral t.text t.location)
  | .floatLiteral => some (.floatLiteral t.text t.location)
  | _ => none

/-- The arguments of a call in their parentheses. -/
def arguments (item : Parser Node) : Parser (List Node) := do
  let _ ← expect .openParen .afterFunctionName
  let args ← listed .closeParen item
  let _ ← expect .closeParen .afterArguments
  return args

mutual

/-- An expression whose operators outside parentheses bind at least as tight as `least`. -/
def operationWithin : Nat → Nat → Parser Node
  | 0, _ => exhausted
  | n + 1, least => do
    let left ← unaryWithin n
    operationTailWithin n least left

/-- The rest of an expression that starts with the operand `left`. -/
def operationTailWithin : Nat → Nat → Node → Parser Node
  | 0, _, _ => exhausted
  | n + 1, least, left => do
    match Operator.ofKind? (← peek) with
    | none => return left
    | some op =>
      if op.precedence < least then
        return left
      else
        let sign ← advance
        let right ← operationWithin n (op.precedence + 1)
        operationTailWithin n least (.binary op left right sign.location)

/-- An operand with the signs and negations before it. -/
def unaryWithin : Nat → Parser Node
  | 0 => exhausted
  | n + 1 => do
    match ← peek with
    | .minus =>
      let sign ← advance
      return .negation (← unaryWithin n) sign.location
    | .kwNot =>
      let sign ← advance
      return .complement (← unaryWithin n) sign.location
    | _ => primaryWithin n

/-- An operand. -/
def primaryWithin : Nat → Parser Node
  | 0 => exhausted
  | n + 1 => do
    let t := (← get).current
    match literal? t with
    | some node =>
      let _ ← advance
      return node
    | none =>
      match t.kind with
      | .ident =>
        let name ← advance
        match ← peek with
        | .openParen => return .call name.text (← arguments (operationWithin n 1)) name.location
        | .openBracket =>
          let bracket ← advance
          let position ← operationWithin n 1
          let _ ← expect .closeBracket .afterIndex
          return .index (.var name.text name.location) position bracket.location
        | _ => return .var name.text name.location
      | .openParen =>
        let _ ← advance
        let inner ← operationWithin n 1
        let _ ← expect .closeParen .afterExpression
        return inner
      | _ => fail .expression

end

/-- An expression. -/
def expression : Parser Node := do
  operationWithin (← get).bound 1

end Pascalize.Parser
