import Pascalize.Proofs.LookaheadLaws
import Pascalize.Proofs.NodePositions
import Pascalize.Proofs.OutlineLines

/-!
# Outlines determine programs

The outline of a parsed program shows everything but locations. The first word of a label tells the kind
of its node (`Node.ctorIdx_of_label`), and the words after it are the names and numbers that the node
holds, as none of them has a blank in it. What lies below the label are the parts of the node. So a
label and what lies below it belong to one tree only, up to locations (`Node.sketch_inj`).
-/

namespace Pascalize

open Lexeme

/-! ## Words -/

/-- A name holds nothing but the characters of words. -/
theorem IsName.not_mem {name : String} (h : IsName name) {c : Char} (other : isWordRest c = false) :
    c ∉ name.toList := by
  obtain ⟨first, rest, same, start, each⟩ := h.word
  rw [same]
  intro member
  obtain rfl | member := List.mem_cons.1 member
  · rw [isWordRest_of_start start] at other
    cases other
  · rw [each c member] at other
    cases other

theorem not_mem_of_digits {cs : List Char} (digits : ∀ d ∈ cs, d.isDigit = true) {c : Char}
    (other : c.isDigit = false) : c ∉ cs := by
  intro member
  rw [digits c member] at other
  cases other

theorem not_mem_digits {c : Char} (other : c.isDigit = false) (n : Nat) : c ∉ Nat.toDigits 10 n :=
  not_mem_of_digits (fun _ => Nat.isDigit_of_mem_toDigits (by decide) (by decide)) other

/-- The words of a type. -/
def TypeName.words (type : TypeName) : List (List Char) :=
  match type.size with
  | none => [type.base.toList]
  | some n => ["ComplexType".toList, type.base.toList ++ '[' :: (Nat.toDigits 10 n ++ [']'])]

namespace TypeName

theorem label_array (base : String) (n : Nat) (location : Location) :
    label ⟨base, some n, location⟩ = "ComplexType " ++ base ++ "[" ++ toString n ++ "]" :=
  rfl

theorem Proper.not_mem_words {type : TypeName} (h : type.Proper) : ∀ word ∈ type.words, ' ' ∉ word := by
  have base := h.named.not_mem (c := ' ') (by decide)
  have size := not_mem_digits (c := ' ') (by decide)
  rw [words]
  split <;> simp [base, size]

/-- Two words or one: an array and its size, or a plain type. -/
theorem words_inj {type type' : TypeName} (h : type.Proper) (h' : type'.Proper)
    (same : type.words = type'.words) : type.placeless = type'.placeless := by
  have base := h.named.not_mem (c := '[') (by decide)
  have base' := h'.named.not_mem (c := '[') (by decide)
  obtain ⟨name, size, _⟩ := type
  obtain ⟨name', size', _⟩ := type'
  cases size with
  | none =>
    cases size' with
    | none => simpa [words, placeless, relocate, String.toList_inj] using same
    | some => simp [words] at same
  | some n =>
    cases size' with
    | none => simp [words] at same
    | some n' =>
      simp only [words, List.cons.injEq, true_and, and_true] at same
      obtain ⟨named, digits⟩ := cut_unique base base' same
      have number := congrArg (Nat.ofDigitChars 10 · 0) (List.append_cancel_right digits)
      simpa [placeless, relocate, String.toList_inj] using And.intro named number

/-- No type starts with the word for constants. -/
theorem words_ne_const (type type' : TypeName) : type.words ≠ "const".toList :: type'.words := by
  obtain ⟨_, size, _⟩ := type
  obtain ⟨_, size', _⟩ := type'
  cases size <;> cases size' <;> simp [words]

end TypeName

namespace Declaration

/-- The words of a declaration, after the first. -/
def words (decl : Declaration) : List (List Char) :=
  (if decl.isConst then ["const".toList] else []) ++ decl.type.words ++ [decl.name.toList]

theorem label_eq (decl : Declaration) : decl.label =
    "Declaration " ++ (if decl.isConst then "const " else "") ++ decl.type.label ++ " " ++ decl.name :=
  rfl

/-- The label of a declaration is its words with blanks in between. -/
theorem toList_label (decl : Declaration) :
    decl.label.toList = "Declaration ".toList ++ [' '].intercalate decl.words := by
  obtain ⟨⟨base, size, place⟩, name, isConst, location⟩ := decl
  cases size with
  | none => cases isConst <;> simp [label_eq, words, TypeName.label, TypeName.words]
  | some n => cases isConst <;> simp [label_eq, words, TypeName.label_array, TypeName.words]

/-- A parameter without `const` is labelled as any declaration. -/
theorem paramLabel_eq {decl : Declaration} (plain : decl.isConst = false) :
    decl.paramLabel = decl.label := by
  rw [label_eq, plain]
  rfl

/-- The words of a declaration hold no blank, so they are found again between the blanks. -/
theorem Proper.not_mem_words {decl : Declaration} (h : decl.Proper) : ∀ word ∈ decl.words, ' ' ∉ word := by
  have mark : ∀ word ∈ if decl.isConst then ["const".toList] else [], ' ' ∉ word := by
    split <;> simp
  have name := h.named.not_mem (c := ' ') (by decide)
  simp only [words, List.mem_append, or_imp, forall_and, List.mem_singleton, forall_eq]
  exact ⟨⟨mark, h.typed.not_mem_words⟩, name⟩

theorem Proper.feed_not_mem_label {decl : Declaration} (h : decl.Proper) : '\n' ∉ decl.label.toList := by
  have base := h.typed.named.not_mem (c := '\n') (by decide)
  have name := h.named.not_mem (c := '\n') (by decide)
  obtain ⟨⟨_, size, _⟩, _, isConst, _⟩ := decl
  cases size with
  | none => cases isConst <;> simp [label_eq, TypeName.label, base, name]
  | some n =>
    have digits := not_mem_digits (c := '\n') (by decide) n
    cases isConst <;> simp [label_eq, TypeName.label_array, base, name, digits]

/-- The name is the last word, and a first word `const` is not part of the type. -/
theorem words_inj {decl decl' : Declaration} (h : decl.Proper) (h' : decl'.Proper)
    (same : decl.words = decl'.words) : decl.placeless = decl'.placeless := by
  obtain ⟨front, name⟩ := List.append_inj' same rfl
  obtain ⟨type, _, isConst, _⟩ := decl
  obtain ⟨type', _, isConst', _⟩ := decl'
  have named := String.toList_inj.1 (List.cons.inj name).1
  have marked : isConst = isConst' ∧ type.words = type'.words := by
    cases isConst <;> cases isConst'
    · exact ⟨rfl, front⟩
    · exact absurd front (type.words_ne_const type')
    · exact absurd front.symm (type'.words_ne_const type)
    · exact ⟨rfl, (List.cons.inj front).2⟩
  have typed := TypeName.words_inj h.typed h'.typed marked.2
  simp only [placeless, relocate, mk.injEq, and_true]
  exact ⟨typed, named, marked.1⟩

/-- **A declaration is known from its label**, but for its locations. -/
theorem label_inj {decl decl' : Declaration} (h : decl.Proper) (h' : decl'.Proper)
    (same : decl.label = decl'.label) : decl.placeless = decl'.placeless := by
  have chars := congrArg String.toList same
  rw [toList_label, toList_label] at chars
  refine words_inj h h' ?_
  have some (decl : Declaration) : decl.words ≠ [] :=
    List.append_ne_nil_of_right_ne_nil _ (List.cons_ne_nil _ _)
  rw [← List.splitOn_intercalate ' ' h.not_mem_words (some decl), List.append_cancel_left chars,
    List.splitOn_intercalate ' ' h'.not_mem_words (some decl')]

/-- Parameters, of which none is constant. -/
theorem map_paramLabel_inj {params params' : List Declaration}
    (h : ∀ p ∈ params, p.Proper ∧ p.isConst = false) (h' : ∀ p ∈ params', p.Proper ∧ p.isConst = false)
    (same : params.map paramLabel = params'.map paramLabel) :
    params.map placeless = params'.map placeless := by
  induction params generalizing params' with
  | nil =>
    cases params' with
    | nil => rfl
    | cons => cases same
  | cons p params ih =>
    cases params' with
    | nil => cases same
    | cons p' params' =>
      simp only [List.mem_cons, forall_eq_or_imp] at h h'
      obtain ⟨first, rest⟩ := List.cons.inj same
      rw [paramLabel_eq h.1.2, paramLabel_eq h'.1.2] at first
      rw [List.map_cons, List.map_cons, label_inj h.1.1 h'.1.1 first, ih h.2 h'.2 rest]

end Declaration

namespace Node

/-! ## Sketches -/

/-- The label of a node itself: that of the first entry of its outline. -/
def label (node : Node) : String :=
  ((node.outline 0).head?.map (·.label)).getD ""

theorem label_function (returns name : String) (params : List Declaration) (body : List Node)
    (location : Location) :
    label (.function returns name params body location) = "Function " ++ returns ++ " " ++ name := by
  rw [label, outline]
  rfl

theorem label_binary (op : Operator) (left right : Node) (location : Location) :
    label (.binary op left right location) = "BinaryOp '" ++ op.symbol ++ "'" := by
  rw [label, outline]
  rfl

mutual

/-- What lies below the label of a node. -/
def sections : Node → List Sketch
  | .declarations items _ | .input items _ | .output items _ | .sequence items _ => sketchAll items
  | .function _ _ params body _ =>
    [.mk "FormalParams" (params.map fun p => .mk p.paramLabel []), .mk "Block" (sketchAll body)]
  | .assignment first second _ | .binary _ first second _ | .index first second _ =>
    [.mk first.label first.sections, .mk second.label second.sections]
  | .conditional condition body _ | .loop condition body _ =>
    [.mk condition.label condition.sections, .mk "Block" (sketchAll body)]
  | .alternative body _ => [.mk "Block" (sketchAll body)]
  | .call _ args _ => [.mk "ActualParams" (sketchAll args)]
  | .result inner _ | .negation inner _ | .complement inner _ => [.mk inner.label inner.sections]
  | .declaration _ | .comment .. | .var .. | .reference .. | .stringLiteral .. | .intLiteral ..
  | .floatLiteral .. => []

/-- Nodes that stand side by side. -/
def sketchAll : List Node → List Sketch
  | [] => []
  | node :: rest => .mk node.label node.sections :: sketchAll rest

end

theorem entriesAll_params (depth : Nat) (params : List Declaration) :
    Sketch.entriesAll depth (params.map fun p => .mk p.paramLabel []) =
      params.map fun p => ⟨depth, p.paramLabel⟩ := by
  induction params with
  | nil => rfl
  | cons p rest ih => simp [Sketch.entriesAll, Sketch.entries, ih]

mutual

/-- The outline of a node is its sketch, line by line. -/
theorem entries_sketch (depth : Nat) : (node : Node) →
    Sketch.entries depth (.mk node.label node.sections) = node.outline depth
  | .declarations items _ | .input items _ | .output items _ | .sequence items _ => by
    simp [sections, Sketch.entries, outline, entriesAll_sketchAll _ items, label]
  | .function _ _ params body _ => by
    simp only [sections, Sketch.entries, Sketch.entriesAll, outline, entriesAll_sketchAll _ body,
      entriesAll_params, label, List.append_nil, List.cons_append]
    rfl
  | .assignment first second _ | .binary _ first second _ | .index first second _ => by
    have left := entries_sketch (depth + 1) first
    have right := entries_sketch (depth + 1) second
    rw [Sketch.entries, outline, sections, Sketch.entriesAll, Sketch.entriesAll, left, right,
      Sketch.entriesAll, List.append_nil]
    rfl
  | .conditional condition body _ | .loop condition body _ => by
    have test := entries_sketch (depth + 1) condition
    rw [Sketch.entries, outline, sections, Sketch.entriesAll, Sketch.entriesAll, test]
    simp [Sketch.entries, Sketch.entriesAll, entriesAll_sketchAll _ body, label, outline]
  | .alternative items _ | .call _ items _ => by
    simp [sections, Sketch.entries, Sketch.entriesAll, outline, entriesAll_sketchAll _ items, label]
  | .result inner _ | .negation inner _ | .complement inner _ => by
    have below := entries_sketch (depth + 1) inner
    rw [Sketch.entries, outline, sections, Sketch.entriesAll, below]
    simp [Sketch.entriesAll, label, outline]
  | .declaration _ | .comment .. | .var .. | .reference .. | .stringLiteral .. | .intLiteral ..
  | .floatLiteral .. => by
    simp [sections, Sketch.entries, Sketch.entriesAll, outline, label]

theorem entriesAll_sketchAll (depth : Nat) : (nodes : List Node) →
    Sketch.entriesAll depth (sketchAll nodes) = outlineAll depth nodes
  | [] => rfl
  | node :: rest => by
    rw [sketchAll, Sketch.entriesAll, outlineAll, entries_sketch depth node,
      entriesAll_sketchAll depth rest]

end

/-! ## Labels -/

/-- The first words of labels, in the order of the kinds of nodes. -/
def kindNames : List String :=
  ["Declaration", "MultipleDeclarations", "Function", "Assignment", "If", "While", "ElseBlock",
   "Return", "Cin", "Cout", "Comment", "BinaryOp", "UnaryMinus", "Not", "Var", "IdRef",
   "FunctionCall", "IndexAccess", "Sequence", "StringLiteral", "IntLiteral", "FloatLiteral"]

theorem kindNames_nodup : kindNames.Nodup := by decide

/-- The first word of a label is the name of the kind. -/
theorem getElem?_kindNames (node : Node) :
    kindNames[node.ctorIdx]? = some (String.ofList (node.label.toList.takeWhile (· ≠ ' '))) := by
  cases node with
  | declaration decl => simp [label, outline, Declaration.toList_label, Node.ctorIdx, kindNames]
  | function => simp [label_function, Node.ctorIdx, kindNames]
  | binary => simp [label_binary, Node.ctorIdx, kindNames]
  | _ => simp [label, outline, Node.ctorIdx, kindNames]

/-- The first word of a label tells the kind of its node. -/
theorem ctorIdx_of_label {node node' : Node} (same : node.label = node'.label) :
    node.ctorIdx = node'.ctorIdx := by
  have first := getElem?_kindNames node
  obtain ⟨bound, -⟩ := List.getElem?_eq_some_iff.1 first
  rw [same, ← getElem?_kindNames node'] at first
  exact (List.getElem?_inj bound kindNames_nodup).1 first

/-- No parameter in the node is constant. -/
inductive Plain : Node → Prop where
  | function {returns name : String} {params : List Declaration} {body : List Node}
      {location : Location} (plain : ∀ p ∈ params, p.isConst = false) (each : ∀ s ∈ body, Plain s) :
      Plain (.function returns name params body location)
  | conditional {condition : Node} {body : List Node} {location : Location}
      (each : ∀ s ∈ body, Plain s) : Plain (.conditional condition body location)
  | loop {condition : Node} {body : List Node} {location : Location}
      (each : ∀ s ∈ body, Plain s) : Plain (.loop condition body location)
  | alternative {body : List Node} {location : Location} (each : ∀ s ∈ body, Plain s) :
      Plain (.alternative body location)
  | comment (text : String) (location : Location) : Plain (.comment text location)
  | simple {node : Node} (bare : node.isSelfTerminated = false) : Plain node

/-- A node as it stands in parsed trees. -/
inductive Legible (node : Node) : Prop where
  | statement (is : node.IsStatement) (plain : node.Plain)
  | written (is : node.IsWritten)

namespace Legible

variable {node : Node}

/-- Every name in a legible node is one. -/
theorem names_free (h : node.Legible) : ∀ name ∈ node.names, IsName name := by
  cases h with
  | statement is => exact is.names_free
  | written is =>
    cases is with
    | reference is => exact is.names_free
    | value is =>
      cases is with
      | expression is => exact is.names_free
      | sequence => simp [names]

/-- What stands in a legible node is legible. -/
theorem child (h : node.Legible) : ∀ x ∈ node.children, x.Legible := by
  cases h with
  | written is => exact fun x member => .written (is.child x member)
  | statement is plain =>
    intro x member
    cases is with
    | declarations _ first _ each =>
      obtain rfl | member := List.mem_cons.1 member
      · exact .statement (.declaration first) (.simple rfl)
      · have is := each x member
        refine .statement is.isStatement (.simple ?_)
        cases is <;> rfl
    | function _ _ _ _ statements =>
      cases plain with
      | function _ each => exact .statement (statements x member) (each x member)
      | simple bare => cases bare
    | alternative _ statements =>
      cases plain with
      | alternative each => exact .statement (statements x member) (each x member)
      | simple bare => cases bare
    | conditional _ test statements =>
      obtain rfl | member := List.mem_cons.1 member
      · exact .written test.written
      · cases plain with
        | conditional each => exact .statement (statements x member) (each x member)
        | simple bare => cases bare
    | loop _ test statements =>
      obtain rfl | member := List.mem_cons.1 member
      · exact .written test.written
      · cases plain with
        | loop each => exact .statement (statements x member) (each x member)
        | simple bare => cases bare
    | declaration | comment => cases member
    | assignment named location _ is =>
      simp only [children, List.mem_cons, List.not_mem_nil, or_false] at member
      obtain rfl | rfl := member
      · exact .written (IsExpression.var named location).written
      · exact .written (.value is)
    | call _ _ items => exact .written (items x member).written
    | result _ is =>
      obtain rfl := List.mem_singleton.1 member
      exact .written is.written
    | input _ _ each => exact .written (.reference (each x member))
    | output _ _ each =>
      obtain is | is := each x member
      · exact .written (.reference is)
      · exact .written (IsExpression.literal is).written

theorem declaration {decl : Declaration} (h : Legible (.declaration decl)) : decl.Proper := by
  cases h with
  | statement is =>
    cases is with
    | declaration proper => exact proper
  | written is => cases is.isExpression

theorem params {returns name : String} {params : List Declaration} {body : List Node}
    {location : Location} (h : Legible (.function returns name params body location)) :
    ∀ p ∈ params, p.Proper ∧ p.isConst = false := by
  cases h with
  | statement is plain =>
    cases is with
    | function _ _ _ proper _ =>
      cases plain with
      | function plain _ => exact fun p member => ⟨proper p member, plain p member⟩
      | simple bare => cases bare
  | written is => cases is.isExpression

theorem isLiteral (h : node.Legible) (literal : node.isLiteral = true) : node.IsLiteral := by
  cases h with
  | statement is => cases is <;> cases literal
  | written is =>
    cases is with
    | reference is =>
      cases is
      cases literal
    | value is =>
      cases is with
      | sequence => cases literal
      | expression is =>
        cases is with
        | literal is => exact is
        | _ => cases literal

end Legible

/-! ## Trees from their sketches -/

/-- The declarations that a node holds itself. -/
def decls : Node → List Declaration
  | .declaration decl => [decl]
  | .function _ _ params _ _ => params
  | _ => []

/-- The other texts that a node holds itself. -/
def texts : Node → List String
  | .function returns name _ _ _ => [returns, name]
  | .binary op _ _ _ => [op.symbol]
  | .comment text _ | .stringLiteral text _ | .intLiteral text _ | .floatLiteral text _
  | .var text _ | .reference text _ | .call text _ _ => [text]
  | _ => []

/-- Operators have symbols of their own. -/
theorem symbol_inj {op op' : Operator} (same : op.symbol = op'.symbol) : op = op' := by
  have apart : ([.add, .sub, .mul, .div, .mod, .eq, .ne, .lt, .le, .gt, .ge, .and, .or].map
    Operator.symbol).Nodup := by decide
  have all (op : Operator) :
      op ∈ [.add, .sub, .mul, .div, .mod, .eq, .ne, .lt, .le, .gt, .ge, .and, .or] := by
    cases op <;> decide
  exact List.inj_on_of_nodup_map apart (all op) (all op') same

/-- The kind of a node, what it holds itself and its parts are all of it. -/
theorem placeless_of_parts {e e' : Node} (kind : e.ctorIdx = e'.ctorIdx) (texts : e.texts = e'.texts)
    (declared : e.decls.map Declaration.placeless = e'.decls.map Declaration.placeless)
    (parts : e.children.map placeless = e'.children.map placeless) : e.placeless = e'.placeless := by
  cases e <;> cases e' <;> cases kind
  case declaration.declaration => exact congrArg Node.declaration (List.cons.inj declared).1
  case function.function =>
    obtain ⟨rfl, more⟩ := List.cons.inj texts
    obtain ⟨rfl, -⟩ := List.cons.inj more
    simp only [placeless, relocate, function.injEq, true_and, and_true]
    exact ⟨declared, relocateAll_of_placeless parts⟩
  case comment.comment | var.var | reference.reference | stringLiteral.stringLiteral
    | intLiteral.intLiteral | floatLiteral.floatLiteral =>
    obtain ⟨rfl, -⟩ := List.cons.inj texts
    rfl
  case declarations.declarations | alternative.alternative | input.input | output.output
    | sequence.sequence =>
    simp only [placeless, relocate, declarations.injEq, alternative.injEq, input.injEq, output.injEq,
      sequence.injEq, and_true]
    exact relocateAll_of_placeless parts
  case call.call =>
    obtain ⟨rfl, -⟩ := List.cons.inj texts
    simp only [placeless, relocate, call.injEq, true_and, and_true]
    exact relocateAll_of_placeless parts
  case result.result | negation.negation | complement.complement =>
    simp only [placeless, relocate, result.injEq, negation.injEq, complement.injEq, and_true]
    exact (List.cons.inj parts).1
  case conditional.conditional | loop.loop =>
    obtain ⟨condition, body⟩ := List.cons.inj parts
    simp only [placeless, relocate, conditional.injEq, loop.injEq, and_true]
    exact ⟨condition, relocateAll_of_placeless body⟩
  case assignment.assignment | index.index =>
    obtain ⟨first, rest⟩ := List.cons.inj parts
    simp only [placeless, relocate, assignment.injEq, index.injEq, and_true]
    exact ⟨first, (List.cons.inj rest).1⟩
  case binary.binary =>
    obtain rfl := symbol_inj (List.cons.inj texts).1
    obtain ⟨first, rest⟩ := List.cons.inj parts
    simp only [placeless, relocate, binary.injEq, true_and, and_true]
    exact ⟨first, (List.cons.inj rest).1⟩

/-- The texts that a node holds stand in its label after the first word. -/
theorem texts_of_label {e e' : Node} (h : e.Legible) (h' : e'.Legible) (same : e.label = e'.label) :
    e.texts = e'.texts := by
  have kind := ctorIdx_of_label same
  cases e <;> cases e' <;> cases kind
  case function.function =>
    have free := (h.names_free _ List.mem_cons_self).not_mem (c := ' ') (by decide)
    have free' := (h'.names_free _ List.mem_cons_self).not_mem (c := ' ') (by decide)
    rw [label_function, label_function, String.append_assoc, String.append_assoc, String.append_assoc,
      String.append_assoc, String.append_right_inj] at same
    have chars := congrArg String.toList same
    simp only [String.toList_append] at chars
    obtain ⟨returns, name⟩ := cut_unique free free' chars
    simp only [texts, List.cons.injEq, and_true]
    exact ⟨String.toList_inj.1 returns, String.toList_inj.1 name⟩
  case binary.binary =>
    rw [label_binary, label_binary, String.append_left_inj, String.append_right_inj] at same
    simp only [texts, same]
  case var.var | reference.reference | call.call | intLiteral.intLiteral | floatLiteral.floatLiteral =>
    simpa [label, outline, texts, String.append_right_inj] using same
  case comment.comment | stringLiteral.stringLiteral =>
    simp only [label, outline, List.head?_cons, Option.map_some, Option.getD_some,
      String.append_right_inj] at same
    simp only [texts, Text.quoted_inj same]
  all_goals rfl

/-- What a node declares is seen from its label, or from the parameters below it. -/
theorem declared_of_sketch {e e' : Node} (h : e.Legible) (h' : e'.Legible) (same : e.label = e'.label)
    (below : e.sections = e'.sections) :
    e.decls.map Declaration.placeless = e'.decls.map Declaration.placeless := by
  have kind := ctorIdx_of_label same
  cases e <;> cases e' <;> cases kind
  case declaration.declaration =>
    simp only [decls, List.map_cons, List.map_nil, List.cons.injEq, and_true]
    exact Declaration.label_inj h.declaration h'.declaration (by simpa [label, outline] using same)
  case function.function =>
    simp only [sections, List.cons.injEq, Sketch.mk.injEq, true_and] at below
    refine Declaration.map_paramLabel_inj h.params h'.params ?_
    simpa [decls, Function.comp_def, Sketch.label] using congrArg (List.map Sketch.label) below.1
  all_goals rfl

/-- What lies below a node shows its children, once its kind is known. -/
theorem children_of_sections {e e' : Node} (kind : e.ctorIdx = e'.ctorIdx)
    (below : e.sections = e'.sections) : sketchAll e.children = sketchAll e'.children := by
  cases e <;> cases e' <;> cases kind
  all_goals simp_all [sections, children, sketchAll]

theorem sizeOf_lt_of_mem_children {e x : Node} (member : x ∈ e.children) : sizeOf x < sizeOf e := by
  have inside (items : List Node) (member : x ∈ items) := List.sizeOf_lt_of_mem member
  cases e with
  | declaration | comment | var | reference | stringLiteral | intLiteral | floatLiteral => cases member
  | declarations items | input items | output items | call _ items | sequence items
  | function _ _ _ items | alternative items =>
    have smaller := inside items member
    simp
    omega
  | conditional condition body | loop condition body =>
    obtain rfl | member := List.mem_cons.1 member
    · simp
      omega
    · have smaller := inside body member
      simp
      omega
  | assignment | binary | index =>
    simp only [children, List.mem_cons, List.not_mem_nil, or_false] at member
    obtain rfl | rfl := member <;> simp <;> omega
  | result | negation | complement =>
    obtain rfl := List.mem_singleton.1 member
    simp
    omega

/-- Trees in a row are known from their sketches, if each is. -/
theorem map_placeless_of_sketchAll {nodes nodes' : List Node}
    (each : ∀ e ∈ nodes, ∀ e' : Node, e'.Legible → e.label = e'.label → e.sections = e'.sections →
      e.placeless = e'.placeless)
    (legible : ∀ e ∈ nodes', e.Legible) (same : sketchAll nodes = sketchAll nodes') :
    nodes.map placeless = nodes'.map placeless := by
  induction nodes generalizing nodes' with
  | nil =>
    cases nodes' with
    | nil => rfl
    | cons => simp [sketchAll] at same
  | cons e nodes ih =>
    cases nodes' with
    | nil => simp [sketchAll] at same
    | cons e' nodes' =>
      simp only [List.mem_cons, forall_eq_or_imp] at each legible
      simp only [sketchAll, List.cons.injEq, Sketch.mk.injEq] at same
      rw [List.map_cons, List.map_cons, each.1 e' legible.1 same.1.1 same.1.2,
        ih each.2 legible.2 same.2]

/-- A label and what lies below it are those of one tree only, up to locations. -/
theorem sketch_inj {e e' : Node} (h : e.Legible) (h' : e'.Legible) (same : e.label = e'.label)
    (below : e.sections = e'.sections) : e.placeless = e'.placeless := by
  have kind := ctorIdx_of_label same
  refine placeless_of_parts kind (texts_of_label h h' same) (declared_of_sketch h h' same below) ?_
  exact map_placeless_of_sketchAll (fun x member x' => sketch_inj (h.child x member)) h'.child
    (children_of_sections kind below)
termination_by sizeOf e
decreasing_by exact sizeOf_lt_of_mem_children member

mutual

/-- Every label of a parsed tree stays on its line. -/
theorem Legible.feed_not_mem_outline (depth : Nat) : (e : Node) → e.Legible →
    ∀ x ∈ e.outline depth, '\n' ∉ x.label.toList
  | .declarations items location, h | .input items location, h | .output items location, h
  | .sequence items location, h => by
    have each := Legible.feed_not_mem_outlineAll (depth + 1) items h.child
    simpa [outline] using each
  | .function returns name params body location, h => by
    have own : '\n' ∉ ("Function " ++ returns ++ " " ++ name).toList := by
      have typed := (h.names_free returns (by simp [names])).not_mem (c := '\n') (by decide)
      have named := (h.names_free name (by simp [names])).not_mem (c := '\n') (by decide)
      simp [typed, named]
    have formal : ∀ p ∈ params, '\n' ∉ p.paramLabel.toList := fun p member => by
      rw [Declaration.paramLabel_eq (h.params p member).2]
      exact (h.params p member).1.feed_not_mem_label
    have each := Legible.feed_not_mem_outlineAll (depth + 2) body h.child
    simp only [outline, List.mem_cons, List.mem_append, List.mem_map, or_imp, forall_and, forall_eq,
      forall_exists_index, and_imp, forall_apply_eq_imp_iff₂]
    exact ⟨own, by decide, formal, by decide, each⟩
  | .assignment first second location, h | .index first second location, h => by
    have left := Legible.feed_not_mem_outline (depth + 1) first (h.child _ (by simp [children]))
    have right := Legible.feed_not_mem_outline (depth + 1) second (h.child _ (by simp [children]))
    simpa [outline, or_imp, forall_and] using ⟨left, right⟩
  | .binary op first second location, h => by
    have left := Legible.feed_not_mem_outline (depth + 1) first (h.child _ (by simp [children]))
    have right := Legible.feed_not_mem_outline (depth + 1) second (h.child _ (by simp [children]))
    have own : '\n' ∉ ("BinaryOp '" ++ op.symbol ++ "'").toList := by
      cases op <;> simp [Operator.symbol]
    simp only [outline, List.mem_cons, List.mem_append, or_imp, forall_and, forall_eq]
    exact ⟨own, left, right⟩
  | .conditional condition body location, h | .loop condition body location, h => by
    have test := Legible.feed_not_mem_outline (depth + 1) condition (h.child _ List.mem_cons_self)
    have each := Legible.feed_not_mem_outlineAll (depth + 2) body fun x member =>
      h.child x (List.mem_cons_of_mem _ member)
    simpa [outline, or_imp, forall_and] using ⟨test, each⟩
  | .alternative items location, h => by
    have each := Legible.feed_not_mem_outlineAll (depth + 2) items h.child
    simpa [outline] using each
  | .call name items location, h => by
    have free := (h.names_free name (by simp [names])).not_mem (c := '\n') (by decide)
    have each := Legible.feed_not_mem_outlineAll (depth + 2) items h.child
    simpa [outline] using ⟨free, each⟩
  | .result inner location, h | .negation inner location, h | .complement inner location, h => by
    have below := Legible.feed_not_mem_outline (depth + 1) inner (h.child _ List.mem_cons_self)
    simpa [outline] using below
  | .var name location, h | .reference name location, h => by
    have free := (h.names_free name (by simp [names])).not_mem (c := '\n') (by decide)
    simpa [outline] using free
  | .comment text location, _ | .stringLiteral text location, _ => by
    simpa [outline] using Text.feed_not_mem_quoted text
  | .declaration decl, h => by
    simpa [outline] using h.declaration.feed_not_mem_label
  | .intLiteral text location, h => by
    cases h.isLiteral rfl with
    | integer digits => simpa [outline] using not_mem_of_digits digits.digits (by decide)
  | .floatLiteral text location, h => by
    cases h.isLiteral rfl with
    | fraction digits =>
      obtain ⟨whole, rest, same, front, back⟩ := digits
      have first := not_mem_of_digits front.digits (c := '\n') (by decide)
      have second := not_mem_of_digits back (c := '\n') (by decide)
      simp [outline, same, first, second]

theorem Legible.feed_not_mem_outlineAll (depth : Nat) : (nodes : List Node) →
    (∀ e ∈ nodes, e.Legible) → ∀ x ∈ outlineAll depth nodes, '\n' ∉ x.label.toList
  | [], _ => by simp [outlineAll]
  | node :: rest, each => by
    have first := Legible.feed_not_mem_outline depth node (each node List.mem_cons_self)
    have others := Legible.feed_not_mem_outlineAll depth rest fun e member =>
      each e (List.mem_cons_of_mem _ member)
    simpa [outlineAll, or_imp, forall_and] using ⟨first, others⟩

end

mutual

/-- Outlines do not show locations. -/
theorem outline_relocate (f : Location → Location) (depth : Nat) : (node : Node) →
    (node.relocate f).outline depth = node.outline depth
  | .declaration _ => by
    rw [relocate, outline, outline]
    rfl
  | .comment .. | .var .. | .reference .. | .stringLiteral .. | .intLiteral .. | .floatLiteral .. => by
    rw [relocate, outline, outline]
  | .declarations items _ | .input items _ | .output items _ | .sequence items _
  | .alternative items _ | .call _ items _ => by
    rw [relocate, outline, outline, outlineAll_relocateAll f _ items]
  | .function _ _ params body _ => by
    rw [relocate, outline, outline, outlineAll_relocateAll f _ body, List.map_map]
    rfl
  | .assignment first second _ | .binary _ first second _ | .index first second _ => by
    rw [relocate, outline, outline, outline_relocate f _ first, outline_relocate f _ second]
  | .conditional condition body _ | .loop condition body _ => by
    rw [relocate, outline, outline, outline_relocate f _ condition, outlineAll_relocateAll f _ body]
  | .result inner _ | .negation inner _ | .complement inner _ => by
    rw [relocate, outline, outline, outline_relocate f _ inner]

theorem outlineAll_relocateAll (f : Location → Location) (depth : Nat) : (nodes : List Node) →
    outlineAll depth (relocateAll f nodes) = outlineAll depth nodes
  | [] => rfl
  | node :: rest => by
    rw [relocateAll, outlineAll, outlineAll, outline_relocate f depth node,
      outlineAll_relocateAll f depth rest]

end

end Node

/-! ## Parsed programs -/

/-- No parameter is derived as a constant. -/
theorem Derives.Parameters.plain {w : List Token} {params : List Declaration}
    (h : Parameters w params) : ∀ p ∈ params, p.isConst = false := by
  cases h with
  | nil => simp
  | list _ each =>
    intro p member
    obtain ⟨⟨v, p⟩, within, rfl⟩ := List.mem_map.1 member
    cases each _ within
    rfl

theorem Derives.Statement.plain {w : List Token} {node : Node} (h : Statement w node) : node.Plain := by
  have row {body : List (List Token × Node)} (each : ∀ x ∈ body, x.2.Plain) :
      ∀ s ∈ body.map Prod.snd, s.Plain := List.forall_mem_map.2 each
  induction h with
  | simple bare _ => exact .simple bare.isSelfTerminated
  | function _ _ _ _ parameters _ _ _ _ ih => exact .function parameters.plain (row ih)
  | conditional _ _ _ _ _ ih => exact .conditional (row ih)
  | loop _ _ _ _ _ ih => exact .loop (row ih)
  | alternative _ _ _ _ ih => exact .alternative (row ih)
  | lineComment | blockComment => exact .comment _ _

namespace Program

/-- Parsed statements are legible. -/
theorem legible_of_parse {source : String} {program : Program}
    (parsed : Program.parse source = .ok program) : ∀ s ∈ program.statements, s.Legible := by
  have shapes := isStatement_of_parse parsed
  obtain ⟨c, c', -, run⟩ := Program.parse_eq_ok.1 parsed
  obtain ⟨-, -, -, w, -, items, -, same, each⟩ := Parser.program_eq_ok run
  intro s member
  refine .statement (shapes s member) ?_
  rw [same] at member
  obtain ⟨x, within, rfl⟩ := List.mem_map.1 member
  exact (each x within).plain

/-- Outlines show no locations. -/
theorem outline_placeless (program : Program) : program.placeless.outline = program.outline := by
  rw [outline, placeless, relocate, Node.outlineAll_relocateAll]
  rfl

/-- **An outline determines its program**, for programs that were parsed: two of them have one outline
exactly if they are the same up to locations. -/
theorem outline_eq_iff {source source' : String} {program program' : Program}
    (parsed : Program.parse source = .ok program) (parsed' : Program.parse source' = .ok program') :
    program.outline = program'.outline ↔ program.placeless = program'.placeless := by
  constructor
  · intro same
    have legible := legible_of_parse parsed
    have legible' := legible_of_parse parsed'
    have lines := OutlineEntry.texts_inj (Node.Legible.feed_not_mem_outlineAll 0 _ legible)
      (Node.Legible.feed_not_mem_outlineAll 0 _ legible') ((String.append_right_inj _).1 same)
    rw [← Node.entriesAll_sketchAll, ← Node.entriesAll_sketchAll] at lines
    have trees := Node.map_placeless_of_sketchAll (fun s member s' => Node.sketch_inj (legible s member))
      legible' (Sketch.entriesAll_inj lines)
    simp only [placeless, relocate, Node.relocateAll_of_placeless trees]
  · intro same
    rw [← outline_placeless program, same, outline_placeless]

/-- A text that looks like an entry does not pass for one. -/
theorem outline_ne_of_forged_line : ∃ program program',
    parse "f(\"a\n|  |  +- Var b\");" = .ok program ∧ parse "f(\"a\", b);" = .ok program' ∧
    program.outline ≠ program'.outline := by
  let program : Program := ⟨[.call "f" [.stringLiteral "a\n|  |  +- Var b" ⟨1, 3⟩] ⟨1, 1⟩], ⟨2, 18⟩⟩
  let program' : Program :=
    ⟨[.call "f" [.stringLiteral "a" ⟨1, 3⟩, .var "b" ⟨1, 8⟩] ⟨1, 1⟩], ⟨1, 11⟩⟩
  have parsed : parse "f(\"a\n|  |  +- Var b\");" = .ok program :=
    (parse_ofList _).trans (by decide +kernel)
  have parsed' : parse "f(\"a\", b);" = .ok program' :=
    (parse_ofList _).trans (by decide +kernel)
  refine ⟨program, program', parsed, parsed', fun same => ?_⟩
  have equal := (outline_eq_iff parsed parsed').1 same
  simp [program, program', placeless, relocate, Node.relocateAll, Node.relocate] at equal

end Program

end Pascalize
