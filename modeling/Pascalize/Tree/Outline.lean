import Pascalize.Tree.Node
import Pascalize.Text.Quoted

/-!
# Outlines

A tree as an indented outline, one entry per node and per part of a node. Entries are kept as a
depth and a label; `Program.outline` writes them out under the heading `Program`.
-/

namespace Pascalize

/-- One line of an outline. -/
structure OutlineEntry where
  depth : Nat
  label : String
deriving DecidableEq, Repr, Inhabited

/-- Depth is drawn by bars, the entry itself by a branch. -/
def OutlineEntry.text (e : OutlineEntry) : String :=
  String.join (List.replicate e.depth "|  ") ++ "+- " ++ e.label

/-- A type as outlines write it. -/
def TypeName.label (type : TypeName) : String :=
  match type.size with
  | none => type.base
  | some n => s!"ComplexType {type.base}[{n}]"

namespace Declaration

def label (decl : Declaration) : String :=
  let mark := if decl.isConst then "const " else ""
  s!"Declaration {mark}{decl.type.label} {decl.name}"

/-- A parameter is written without its constness. -/
def paramLabel (decl : Declaration) : String :=
  s!"Declaration {decl.type.label} {decl.name}"

end Declaration

mutual

/-- The entries of a node that stands at `depth`. -/
def Node.outline (depth : Nat) : Node → List OutlineEntry
  | .declaration decl => [⟨depth, decl.label⟩]
  | .declarations items _ => ⟨depth, "MultipleDeclarations"⟩ :: outlineAll (depth + 1) items
  | .function returns name params body _ =>
    ⟨depth, s!"Function {returns} {name}"⟩ :: ⟨depth + 1, "FormalParams"⟩ ::
      (params.map (fun p => ⟨depth + 2, p.paramLabel⟩) ++
        ⟨depth + 1, "Block"⟩ :: outlineAll (depth + 2) body)
  | .assignment target value _ =>
    ⟨depth, "Assignment"⟩ :: (target.outline (depth + 1) ++ value.outline (depth + 1))
  | .conditional condition body _ =>
    ⟨depth, "If"⟩ :: (condition.outline (depth + 1) ++
      ⟨depth + 1, "Block"⟩ :: outlineAll (depth + 2) body)
  | .loop condition body _ =>
    ⟨depth, "While"⟩ :: (condition.outline (depth + 1) ++
      ⟨depth + 1, "Block"⟩ :: outlineAll (depth + 2) body)
  | .alternative body _ =>
    ⟨depth, "ElseBlock"⟩ :: ⟨depth + 1, "Block"⟩ :: outlineAll (depth + 2) body
  | .result value _ => ⟨depth, "Return"⟩ :: value.outline (depth + 1)
  | .input targets _ => ⟨depth, "Cin"⟩ :: outlineAll (depth + 1) targets
  | .output items _ => ⟨depth, "Cout"⟩ :: outlineAll (depth + 1) items
  | .comment text _ => [⟨depth, "Comment " ++ Text.quoted text⟩]
  | .binary op left right _ =>
    ⟨depth, s!"BinaryOp '{op.symbol}'"⟩ :: (left.outline (depth + 1) ++ right.outline (depth + 1))
  | .negation operand _ => ⟨depth, "UnaryMinus"⟩ :: operand.outline (depth + 1)
  | .complement operand _ => ⟨depth, "Not"⟩ :: operand.outline (depth + 1)
  | .var name _ => [⟨depth, "Var " ++ name⟩]
  | .reference name _ => [⟨depth, "IdRef " ++ name⟩]
  | .call name args _ =>
    ⟨depth, "FunctionCall " ++ name⟩ :: ⟨depth + 1, "ActualParams"⟩ :: outlineAll (depth + 2) args
  | .index target position _ =>
    ⟨depth, "IndexAccess"⟩ :: (target.outline (depth + 1) ++ position.outline (depth + 1))
  | .sequence items _ => ⟨depth, "Sequence"⟩ :: outlineAll (depth + 1) items
  | .stringLiteral text _ => [⟨depth, "StringLiteral " ++ Text.quoted text⟩]
  | .intLiteral text _ => [⟨depth, "IntLiteral " ++ text⟩]
  | .floatLiteral text _ => [⟨depth, "FloatLiteral " ++ text⟩]

/-- The entries of nodes that stand side by side. -/
def Node.outlineAll (depth : Nat) : List Node → List OutlineEntry
  | [] => []
  | node :: rest => node.outline depth ++ outlineAll depth rest

end

/-- The outline of a program, one line per entry. -/
def Program.outline (program : Program) : String :=
  let entries := Node.outlineAll 0 program.statements
  "Program\n" ++ String.join (entries.map (·.text ++ "\n"))

end Pascalize
