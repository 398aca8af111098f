import Pascalize.Pascal.Expression
import Pascalize.Pascal.Line

/-!
# Pascal statements

The lines of a list of statements. Declarations and functions have none of their own; of several
declarations the initial assignments stay. Pascal forbids a semicolon before `else`, so a statement
that an `else` block follows, comments, declarations and functions aside, ends without one.
-/

namespace Pascalize

namespace Node

/-- Statements that stand between a conditional and its `else` without parting them. -/
def isInert : Node → Bool
  | .comment .. | .declaration .. | .function .. => true
  | _ => false

def isAlternative : Node → Bool
  | .alternative .. => true
  | _ => false

/-- Whether the next statement that is not inert is an `else` block. -/
def elseFollows (rest : List Node) : Bool :=
  (rest.find? (!·.isInert)).any isAlternative

/-- The text of an assignment. -/
def assignmentText? : Node → Option String
  | .assignment target value _ => some (target.pascal ++ " := " ++ value.pascal)
  | _ => none

end Node

open Pascal

/-- Statements in a row, of which the last ends as asked for. -/
def Pascal.statementLines (semicolon : Bool) : List String → List Line
  | [] => []
  | [text] => [⟨0, .statement text semicolon⟩]
  | text :: rest => ⟨0, .statement text true⟩ :: statementLines semicolon rest

mutual

/-- The lines of a statement. -/
def Node.lines (semicolon : Bool) : Node → List Line
  | .declaration .. | .function .. => []
  | .declarations items _ => statementLines semicolon (items.filterMap Node.assignmentText?)
  | .assignment target value _ =>
    [⟨0, .statement (target.pascal ++ " := " ++ value.pascal) semicolon⟩]
  | .result value _ => [⟨0, .statement ("Exit(" ++ value.pascal ++ ")") semicolon⟩]
  | .input targets _ => [⟨0, .statement ("readln(" ++ pascalList targets ++ ")") semicolon⟩]
  | .output items _ => [⟨0, .statement ("writeln(" ++ pascalList items ++ ")") semicolon⟩]
  | .comment text _ => [⟨0, .comment text⟩]
  | .conditional condition body _ =>
    ⟨0, .ifThen condition.pascal⟩ :: Line.block (linesAll body) (.blockEnd semicolon)
  | .loop condition body _ =>
    ⟨0, .whileDo condition.pascal⟩ :: Line.block (linesAll body) (.blockEnd semicolon)
  | .alternative body _ => ⟨0, .otherwise⟩ :: Line.block (linesAll body) (.blockEnd semicolon)
  | node => [⟨0, .statement node.pascal semicolon⟩]

/-- The lines of statements in turn. -/
def Node.linesAll : List Node → List Line
  | [] => []
  | node :: rest => node.lines (!elseFollows rest) ++ linesAll rest

end

end Pascalize
