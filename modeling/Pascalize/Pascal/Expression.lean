import Pascalize.Pascal.Spelling
import Pascalize.Tree.Node

/-!
# Pascal expressions

Relational and boolean operations always stand in parentheses. Arithmetic is written bare, and put
in parentheses only where Pascal would group it differently: an operand that binds looser, a right
operand that binds equally, and any operand of `and` and `or`, which bind in Pascal as tight as `*`
and `+`. Nodes that are no expressions are written as the empty text.
-/

namespace Pascalize

namespace Pascal

/-- A text in parentheses, if asked for. -/
def parenthesized (wanted : Bool) (text : String) : String :=
  if wanted then "(" ++ text ++ ")" else text

/-- Whether an arithmetic operand needs parentheses under `parent`. -/
def groupsUnder (parent op : Operator) (isRight : Bool) : Bool :=
  match parent with
  | .and | .or => true
  | _ => parent.isArithmetic &&
      (op.precedence < parent.precedence || (isRight && op.precedence = parent.precedence))

/-- Whether an operand of `parent` needs parentheses. -/
def needsGroup (parent : Operator) (isRight : Bool) : Node → Bool
  | .binary op _ _ _ => op.isArithmetic && groupsUnder parent op isRight
  | _ => false

/-- Whether the operand of a sign or of `not` needs parentheses. -/
def needsUnaryGroup : Node → Bool
  | .binary op _ _ _ => op.isArithmetic
  | .negation .. => true
  | _ => false

/-- A string literal: between single quotes, with those inside it doubled. -/
def quoted (text : String) : String :=
  let doubled := text.toList.flatMap fun c => if c = '\x27' then [c, c] else [c]
  "'" ++ String.ofList doubled ++ "'"

/-- A literal with a fraction, which needs a digit after its point. -/
def fraction (text : String) : String :=
  if text.toList.getLast? = some '.' then text ++ "0" else text

end Pascal

open Pascal

mutual

/-- An expression in Pascal. -/
def Node.pascal : Node → String
  | .binary op left right _ =>
    parenthesized (!op.isArithmetic)
      (parenthesized (needsGroup op false left) left.pascal ++ " " ++ op.pascal ++ " " ++
        parenthesized (needsGroup op true right) right.pascal)
  | .negation operand _ => "-" ++ parenthesized (needsUnaryGroup operand) operand.pascal
  | .complement operand _ => "not " ++ parenthesized (needsUnaryGroup operand) operand.pascal
  | .var name _ | .reference name _ => name
  | .call name args _ => name ++ "(" ++ ", ".intercalate (pascalAll args) ++ ")"
  | .index target position _ => target.pascal ++ "[" ++ position.pascal ++ "]"
  | .sequence items _ => "[" ++ ", ".intercalate (pascalAll items) ++ "]"
  | .stringLiteral text _ => quoted text
  | .intLiteral text _ => text
  | .floatLiteral text _ => fraction text
  | .declaration .. | .declarations .. | .function .. | .assignment .. | .conditional ..
  | .loop .. | .alternative .. | .result .. | .input .. | .output .. | .comment .. => ""

/-- Expressions in Pascal, one by one. -/
def Node.pascalAll : List Node → List String
  | [] => []
  | node :: rest => node.pascal :: pascalAll rest

end

/-- Expressions in Pascal with commas between them. -/
def Node.pascalList (nodes : List Node) : String :=
  ", ".intercalate (pascalAll nodes)

end Pascalize
