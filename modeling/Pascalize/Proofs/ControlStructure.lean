import Pascalize.Pascal.Listing
import Pascalize.Proofs.LineReading
import Pascalize.Proofs.TreeShape

/-!
# Statements keep their control structure

In a tree an `else` block is a statement of its own, after the conditional it belongs to, and whether
a line ends with a semicolon is decided by the statements after it. `Node.treesAll` says what the
statements execute, each `else` with its conditional. As long as every `else` follows a conditional,
comments, declarations and functions aside (`Node.ElsesFollowIfs`), the lines written for statements
read as that and as nothing else (`Program.readsAs_iff_treesAll`).
-/

namespace Pascalize

open Pascal Phrases

namespace Node

/-! ## What statements execute -/

/-- The text of a statement that has no block. -/
def simpleText? : Node → Option String
  | .assignment target value _ => some (target.pascal ++ " := " ++ value.pascal)
  | .result value _ => some ("Exit(" ++ value.pascal ++ ")")
  | .input targets _ => some ("readln(" ++ pascalList targets ++ ")")
  | .output items _ => some ("writeln(" ++ pascalList items ++ ")")
  | node@(.call ..) => some node.pascal
  | _ => none

mutual

/-- What a statement executes, if the `else` that follows it executes `no`. An `else` block executes
nothing of its own. -/
def trees (no : Option (List Tree)) : Node → List Tree
  | .conditional condition body _ => [.conditional condition.pascal (treesAll body) no]
  | .loop condition body _ => [.loop condition.pascal (treesAll body)]
  | .declarations items _ => (items.filterMap simpleText?).map .simple
  | node => node.simpleText?.toList.map .simple

/-- What statements execute. -/
def treesAll : List Node → List Tree
  | [] => []
  | node :: rest => node.trees (alternativeOf rest) ++ treesAll rest

/-- What the `else` executes that comes next, inert statements aside, if one does. -/
def alternativeOf : List Node → Option (List Tree)
  | [] => none
  | .alternative body _ :: _ => some (treesAll body)
  | node :: rest => if node.isInert then alternativeOf rest else none

end

/-! ## Where `else` may stand -/

/-- The block of a control statement. -/
def block? : Node → Option (List Node)
  | .conditional _ body _ | .loop _ body _ | .alternative body _ => some body
  | _ => none

/-- Statements and, at every depth, the blocks of the control statements among them. -/
inductive Inside : List Node → List Node → Prop where
  | self (nodes : List Node) : Inside nodes nodes
  | under {block body nodes : List Node} {node : Node} (member : node ∈ nodes)
      (isBody : node.block? = some body) (inside : Inside block body) : Inside block nodes

/-- The nearest statement before, inert ones aside. -/
def latest? (before : List Node) : Option Node :=
  before.reverse.find? (!·.isInert)

def isConditional : Node → Bool
  | .conditional .. => true
  | _ => false

/-- At every depth, the nearest statement before an `else` is a conditional, inert ones aside. -/
def ElsesFollowIfs (nodes : List Node) : Prop :=
  ∀ block, Inside block nodes → ∀ before body location after,
    block = before ++ .alternative body location :: after → (latest? before).any isConditional = true

/-- Whether a conditional comes before what follows `node`. -/
def opens (opened : Bool) (node : Node) : Bool :=
  if node.isInert then opened else node.isConditional

mutual

/-- Whether `ElsesFollowIfs` holds in the block of a statement. -/
def placed : Node → Bool
  | .conditional _ body _ | .loop _ body _ | .alternative body _ => placedAll false body
  | _ => true

/-- Whether `ElsesFollowIfs` holds of statements, `opened` telling whether a conditional comes before
them. -/
def placedAll (opened : Bool) : List Node → Bool
  | [] => true
  | node :: rest => (opened || !node.isAlternative) && node.placed && placedAll (opens opened node) rest

end

/-- `ElsesFollowIfs` for the statements themselves, after a conditional or not. -/
def Follow (opened : Bool) (nodes : List Node) : Prop :=
  ∀ before body location after, nodes = before ++ .alternative body location :: after →
    ((latest? before).map isConditional).getD opened = true

/-- The latest statement that is not inert, found from the front. -/
theorem latest?_cons (opened : Bool) (node : Node) (before : List Node) :
    ((latest? (node :: before)).map isConditional).getD opened =
      ((latest? before).map isConditional).getD (opens opened node) := by
  simp only [latest?, List.reverse_cons, List.find?_append]
  cases before.reverse.find? (!·.isInert) with
  | some => simp
  | none => cases inert : node.isInert <;> simp [opens, inert]

/-- An `else` at the front needs an open conditional, and the rest goes on with what the front leaves
open. -/
theorem follow_cons {opened : Bool} {node : Node} {rest : List Node} :
    Follow opened (node :: rest) ↔
      (opened || !node.isAlternative) = true ∧ Follow (opens opened node) rest := by
  constructor
  · intro h
    constructor
    · cases node with
      | alternative body location => simpa [latest?, isAlternative] using h [] body location rest rfl
      | _ => simp [isAlternative]
    · rintro before body location after rfl
      rw [← latest?_cons]
      exact h (node :: before) body location after rfl
  · rintro ⟨first, others⟩ before body location after same
    cases before with
    | nil =>
      obtain ⟨rfl, rfl⟩ := List.cons.inj same
      simpa [latest?, isAlternative] using first
    | cons _ before =>
      obtain ⟨rfl, rfl⟩ := List.cons.inj same
      rw [latest?_cons]
      exact others before body location after rfl

/-- In statements and in each of their blocks. -/
theorem elsesFollowIfs_iff {nodes : List Node} :
    ElsesFollowIfs nodes ↔
      Follow false nodes ∧ ∀ node ∈ nodes, ∀ body ∈ node.block?, ElsesFollowIfs body := by
  have same (node : Option Node) : node.any isConditional = (node.map isConditional).getD false := by
    cases node <;> rfl
  constructor
  · intro h
    constructor
    · intro before body location after split
      rw [← same]
      exact h nodes (.self nodes) before body location after split
    · intro node member body isBody block inside
      exact h block (.under member isBody inside)
  · rintro ⟨here, below⟩ block inside before body location after split
    cases inside with
    | self =>
      rw [same]
      exact here before body location after split
    | under member isBody inside =>
      exact below _ member _ isBody block inside before body location after split

mutual

/-- The check of a statement looks at its block. -/
theorem placed_iff (node : Node) :
    node.placed = true ↔ ∀ body ∈ node.block?, ElsesFollowIfs body := by
  cases node with
  | conditional _ body _ | loop _ body _ | alternative body _ =>
    simp only [placed, block?, Option.mem_some_iff, forall_eq']
    rw [placedAll_iff false body, elsesFollowIfs_iff]
  | _ => simp [placed, block?]

/-- **The check of statements** says exactly that every `else` follows a conditional. -/
theorem placedAll_iff (opened : Bool) (nodes : List Node) :
    placedAll opened nodes = true ↔
      Follow opened nodes ∧ ∀ node ∈ nodes, ∀ body ∈ node.block?, ElsesFollowIfs body := by
  cases nodes with
  | nil => simp [placedAll, Follow]
  | cons node rest =>
    simp only [placedAll, Bool.and_eq_true, follow_cons, placed_iff node, List.forall_mem_cons]
    rw [placedAll_iff (opens opened node) rest]
    constructor
    · rintro ⟨⟨first, below⟩, others, belowOthers⟩
      exact ⟨⟨first, others⟩, below, belowOthers⟩
    · rintro ⟨⟨first, others⟩, below, belowOthers⟩
      exact ⟨⟨first, below⟩, others, belowOthers⟩

end

/-- Where `else` stands can be checked. -/
instance (nodes : List Node) : Decidable (ElsesFollowIfs nodes) :=
  decidable_of_iff (placedAll false nodes = true)
    ((placedAll_iff false nodes).trans elsesFollowIfs_iff.symm)

/-! ## The next `else` -/

/-- Inert statements are passed over in the search for an `else`. -/
theorem elseFollows_cons (node : Node) (rest : List Node) :
    elseFollows (node :: rest) = if node.isInert then elseFollows rest else node.isAlternative := by
  cases inert : node.isInert <;> simp [elseFollows, inert]

theorem not_alternative_of_inert {node : Node} (inert : node.isInert = true) :
    node.isAlternative = false := by
  cases node <;> first | rfl | nomatch inert

/-- The statements of the next `else` are found behind inert ones. -/
theorem alternativeOf_cons {node : Node} (h : node.isAlternative = false) (rest : List Node) :
    alternativeOf (node :: rest) = if node.isInert then alternativeOf rest else none := by
  cases node <;> first | rfl | nomatch h

/-- Without a conditional before, no `else` comes next. -/
theorem elseFollows_of_placedAll {nodes : List Node} (h : placedAll false nodes = true) :
    elseFollows nodes = false := by
  induction nodes with
  | nil => rfl
  | cons node rest ih =>
    simp only [placedAll, Bool.and_eq_true, Bool.false_or, Bool.not_eq_true', opens] at h
    obtain ⟨⟨noElse, -⟩, others⟩ := h
    rw [elseFollows_cons]
    split
    · next inert => exact ih (by simpa [inert] using others)
    · exact noElse

/-- If no `else` comes next, then it does not matter what came before. -/
theorem placedAll_of_not_elseFollows {nodes : List Node} (h : elseFollows nodes = false)
    (placed : placedAll true nodes = true) :
    placedAll false nodes = true ∧ alternativeOf nodes = none := by
  induction nodes with
  | nil => exact ⟨rfl, by rw [alternativeOf]⟩
  | cons node rest ih =>
    rw [elseFollows_cons] at h
    simp only [placedAll, Bool.and_eq_true, Bool.true_or, true_and, opens] at placed
    cases inert : node.isInert with
    | true =>
      have noElse := not_alternative_of_inert inert
      rw [inert, if_pos rfl] at h placed
      obtain ⟨others, none⟩ := ih h placed.2
      rw [alternativeOf_cons noElse, inert, if_pos rfl]
      simp [placedAll, noElse, placed.1, opens, inert, others, none]
    | false =>
      simp only [inert, Bool.false_eq_true, if_false] at h placed
      rw [alternativeOf_cons h, inert]
      simp [placedAll, h, placed.1, opens, inert, placed.2]

/-! ## Statements without a block -/

/-- Inert statements have no lines but comments, and execute nothing. -/
theorem silent_of_inert {node : Node} (inert : node.isInert = true) (semicolon : Bool) :
    Silent (node.lines semicolon) ∧ ∀ no, node.trees no = [] := by
  cases node with
  | comment remark =>
    exact ⟨⟨List.forall_mem_singleton.2 (Content.legible_comment remark), rfl⟩, fun _ => rfl⟩
  | declaration | function => exact ⟨⟨by simp [lines], rfl⟩, fun _ => rfl⟩
  | _ => nomatch inert

/-- A statement in one line assigns to a name or calls one. -/
theorem IsStatement.isAction {s : Node} (h : s.IsStatement) {text : String}
    (is : s.simpleText? = some text) : IsAction text.toList := by
  cases h with
  | @assignment name value named =>
    obtain rfl := Option.some.inj is
    simpa [pascal] using IsAction.assignment named.word (' ' :: value.pascal.toList)
  | call named =>
    obtain rfl := Option.some.inj is
    simpa [pascal] using IsAction.call named.word _
  | result =>
    obtain rfl := Option.some.inj is
    have word : IsWord "Exit".toList := ⟨'E', _, rfl, by decide, List.all_eq_true.1 rfl⟩
    simpa using IsAction.call word _
  | input =>
    obtain rfl := Option.some.inj is
    have word : IsWord "readln".toList := ⟨'r', _, rfl, by decide, List.all_eq_true.1 rfl⟩
    simpa using IsAction.call word _
  | output =>
    obtain rfl := Option.some.inj is
    have word : IsWord "writeln".toList := ⟨'w', _, rfl, by decide, List.all_eq_true.1 rfl⟩
    simpa using IsAction.call word _
  | _ => nomatch is

theorem IsStatement.simpleText {s : Node} (h : s.IsStatement) {text : String}
    (is : s.simpleText? = some text) : SimpleText text :=
  (h.isAction is).simpleText

/-- Of declared names only the initial values are statements. -/
theorem filterMap_assignmentText? {items : List Node} (h : ∀ x ∈ items, x.IsDeclared) :
    items.filterMap assignmentText? = items.filterMap simpleText? := by
  induction items with
  | nil => rfl
  | cons item items ih =>
    simp only [List.forall_mem_cons] at h
    have same : item.assignmentText? = item.simpleText? := by cases h.1 <;> rfl
    rw [List.filterMap_cons, List.filterMap_cons, same, ih h.2]

/-- The statement is one line for each of the texts. -/
structure Straight (node : Node) (texts : List String) : Prop where
  lines : ∀ semicolon, node.lines semicolon = statementLines semicolon texts
  trees : ∀ no, node.trees no = texts.map .simple
  each : ∀ text ∈ texts, SimpleText text

/-- Statements without a block are lines in a row. -/
theorem IsStatement.straight {s : Node} (h : s.IsStatement) (active : s.isInert = false)
    (noBlock : s.block? = none) : ∃ texts, s.Straight texts := by
  have single {text : String} (is : s.simpleText? = some text)
      (lines : ∀ semicolon, s.lines semicolon = statementLines semicolon [text])
      (trees : ∀ no, s.trees no = [.simple text]) : ∃ texts, s.Straight texts :=
    ⟨[text], lines, trees, List.forall_mem_singleton.2 (h.simpleText is)⟩
  cases h with
  | assignment | call | result | input | output => exact single rfl (fun _ => rfl) fun _ => rfl
  | @declarations decl items location first more each =>
    refine ⟨items.filterMap simpleText?, fun semicolon => ?_, fun no => rfl, ?_⟩
    · show statementLines semicolon (items.filterMap assignmentText?) = _
      rw [filterMap_assignmentText? each]
    · intro text member
      obtain ⟨item, inside, is⟩ := List.mem_filterMap.1 member
      exact (each item inside).isStatement.simpleText is
  | declaration | function | comment => nomatch active
  | conditional | loop | alternative => nomatch noBlock

/-- Lines in a row read as the statements that they were written for. -/
theorem Straight.written {node : Node} {texts : List String} (h : node.Straight texts)
    {more : List Line} {trees : List Tree} (rest : Written more trees) (no : Option (List Tree)) :
    Written (node.lines true ++ more) (node.trees no ++ trees) := by
  rw [h.lines, h.trees]
  have each := h.each
  clear h
  induction texts with
  | nil => exact rest
  | cons text texts ih =>
    simp only [List.forall_mem_cons] at each
    have isLine : statementLines true (text :: texts) =
        ⟨0, .statement text true⟩ :: statementLines true texts := by
      cases texts <;> rfl
    rw [isLine]
    exact .simple each.1 (ih each.2)

/-! ## Statements in turn -/

/-- What stands in the block of a statement are statements. -/
theorem IsStatement.of_block {s : Node} (h : s.IsStatement) {body : List Node}
    (isBody : s.block? = some body) : ∀ x ∈ body, x.IsStatement := by
  cases h with
  | conditional _ _ statements | loop _ _ statements | alternative _ statements =>
    obtain rfl := Option.some.inj isBody
    exact statements
  | _ => nomatch isBody

/-- The lines of statements are written; after a conditional that an `else` follows, they go on with
that `else`. -/
structure Kept (nodes : List Node) : Prop where
  plain : placedAll false nodes = true → Written (linesAll nodes) (treesAll nodes)
  afterIf : placedAll true nodes = true → elseFollows nodes = true →
    ∃ no, alternativeOf nodes = some no ∧ GoesOn no (treesAll nodes) (linesAll nodes)

/-- A conditional takes the `else` that follows it into its tree, and ends with a semicolon if there is
none. -/
theorem Kept.conditional {rest : List Node} (h : Kept rest) (condition : Node) {body : List Node}
    (location : Location) (inside : Written (linesAll body) (treesAll body))
    (placed : placedAll true rest = true) :
    Written (linesAll (.conditional condition body location :: rest))
      (treesAll (.conditional condition body location :: rest)) := by
  cases follows : elseFollows rest with
  | true =>
    obtain ⟨no, isNo, goesOn⟩ := h.afterIf placed follows
    rw [linesAll, treesAll, follows, isNo]
    exact .ifElse condition.pascal inside goesOn
  | false =>
    obtain ⟨placed, isNo⟩ := placedAll_of_not_elseFollows follows placed
    rw [linesAll, treesAll, follows, isNo]
    exact .ifThen condition.pascal inside (h.plain placed)

/-- One more statement in front, where no conditional is open. An `else` cannot be that statement. -/
theorem Kept.cons {node : Node} {rest : List Node} (h : Kept rest) (shape : node.IsStatement)
    (inside : ∀ body ∈ node.block?, Written (linesAll body) (treesAll body))
    (placed : placedAll false (node :: rest) = true) :
    Written (linesAll (node :: rest)) (treesAll (node :: rest)) := by
  simp only [placedAll, Bool.and_eq_true, Bool.false_or, Bool.not_eq_true', opens] at placed
  obtain ⟨⟨noElse, -⟩, placed⟩ := placed
  cases inert : node.isInert with
  | true =>
    obtain ⟨silent, none⟩ := silent_of_inert inert (!elseFollows rest)
    rw [linesAll, treesAll, none]
    rw [inert, if_pos rfl] at placed
    exact (h.plain placed).silent silent
  | false =>
    rw [inert, if_neg Bool.false_ne_true] at placed
    cases node with
    | conditional condition body location =>
      exact h.conditional condition location (inside body rfl) placed
    | loop condition body location =>
      rw [linesAll, treesAll, elseFollows_of_placedAll placed]
      exact .whileDo condition.pascal (inside body rfl) (h.plain placed)
    | alternative => nomatch noElse
    | _ =>
      obtain ⟨texts, straight⟩ := shape.straight inert rfl
      rw [linesAll, treesAll, elseFollows_of_placedAll placed]
      exact straight.written (h.plain placed) _

/-- One more statement in front, after a conditional that an `else` follows. It is that `else`, or inert.
-/
theorem Kept.afterIf_cons {node : Node} {rest : List Node} (h : Kept rest)
    (inside : ∀ body ∈ node.block?, Written (linesAll body) (treesAll body))
    (placed : placedAll true (node :: rest) = true) (follows : elseFollows (node :: rest) = true) :
    ∃ no, alternativeOf (node :: rest) = some no ∧
      GoesOn no (treesAll (node :: rest)) (linesAll (node :: rest)) := by
  simp only [placedAll, Bool.and_eq_true, Bool.true_or, true_and, opens] at placed
  rw [elseFollows_cons] at follows
  cases inert : node.isInert with
  | true =>
    rw [inert, if_pos rfl] at placed follows
    obtain ⟨no, isNo, goesOn⟩ := h.afterIf placed.2 follows
    obtain ⟨silent, none⟩ := silent_of_inert inert (!elseFollows rest)
    refine ⟨no, ?_, ?_⟩
    · rw [alternativeOf_cons (not_alternative_of_inert inert), inert, if_pos rfl, isNo]
    · rw [linesAll, treesAll, none]
      exact goesOn.silent silent
  | false =>
    rw [inert, if_neg Bool.false_ne_true] at placed follows
    cases node with
    | alternative body location =>
      refine ⟨treesAll body, by rw [alternativeOf], ?_⟩
      rw [linesAll, treesAll, elseFollows_of_placedAll placed.2]
      exact .mk .nil (inside body rfl) (h.plain placed.2)
    | _ => nomatch follows

/-- Statements are kept if what stands in their blocks is written. -/
theorem kept_of_blocks {nodes : List Node} (shapes : ∀ s ∈ nodes, s.IsStatement)
    (inside : ∀ s ∈ nodes, s.placed = true → ∀ body ∈ s.block?,
      Written (linesAll body) (treesAll body)) : Kept nodes := by
  induction nodes with
  | nil => exact ⟨fun _ => .nil, fun _ no => nomatch no⟩
  | cons node rest ih =>
    simp only [List.forall_mem_cons] at shapes inside
    have others := ih shapes.2 inside.2
    have own {opened : Bool} (placed : placedAll opened (node :: rest) = true) :
        ∀ body ∈ node.block?, Written (linesAll body) (treesAll body) := by
      simp only [placedAll, Bool.and_eq_true] at placed
      exact inside.1 placed.1.2
    exact ⟨fun placed => others.cons shapes.1 (own placed) placed,
      fun placed => others.afterIf_cons (own placed) placed⟩

/-- What stands in the block of a statement is written. -/
theorem IsStatement.written_block {s : Node} (h : s.IsStatement) (placed : s.placed = true) :
    ∀ body ∈ s.block?, Written (linesAll body) (treesAll body) := by
  induction h with
  | conditional _ _ statements ih | loop _ _ statements ih | alternative _ statements ih =>
    rintro _ ⟨⟩
    exact (kept_of_blocks statements ih).plain placed
  | _ => exact fun _ isBody => nomatch isBody

theorem written_linesAll {nodes : List Node} (shapes : ∀ s ∈ nodes, s.IsStatement)
    (h : ElsesFollowIfs nodes) : Written (linesAll nodes) (treesAll nodes) := by
  refine (kept_of_blocks shapes fun s member => (shapes s member).written_block).plain ?_
  exact (placedAll_iff false nodes).2 (elsesFollowIfs_iff.1 h)

/-! ## The lists of statements that are written -/

theorem mem_functionsAll {d : Definition} {nodes : List Node} :
    d ∈ functionsAll nodes ↔ ∃ s ∈ nodes, d ∈ s.functions := by
  induction nodes with
  | nil => simp [functionsAll]
  | cons node rest ih => simp [functionsAll, ih]

theorem IsStatement.of_functions {s : Node} (h : s.IsStatement) :
    ∀ d ∈ s.functions, ∀ x ∈ d.body, x.IsStatement := by
  induction h with
  | function _ _ _ _ statements =>
    rintro _ (⟨_⟩ | ⟨_, ⟨⟩⟩)
    exact statements
  | conditional _ _ _ ih | loop _ _ _ ih | alternative _ _ ih =>
    intro d member
    obtain ⟨x, inside, member⟩ := mem_functionsAll.1 member
    exact ih x inside d member
  | _ => exact fun _ member => nomatch member

end Node

theorem Pascal.Line.block_inj {lines lines' : List Line} {close close' : Content}
    (h : block lines close = block lines' close') : lines = lines' := by
  have inside := List.append_inj_left' (List.cons.inj h).2 rfl
  refine (List.map_inj_right fun l l' same => ?_).1 inside
  cases l
  cases l'
  simpa using same

namespace Program

/-- The statements of the body of the program: those at the top, then those of `main`. -/
def bodyStatements (program : Program) : List Node :=
  program.statements ++ (program.main?.map (·.body)).getD []

/-- The lines are written for statements that stand together: in the body of the program, in that of
a function, or in the block of a control statement. -/
inductive Emits (program : Program) : List Node → List Line → Prop where
  | body (f : Forest) (options : Options) :
      Emits program program.bodyStatements (program.pascal f options).body
  | routine {returns name : String} {params : List Declaration} {body : List Node}
      {location : Location} (has : program.Has (.function returns name params body location))
      (f : Forest) (optimize : Bool) (id : ScopeId) {heading : Heading} {vars : VarSection}
      {inner : List Routine} {spaced : Bool} {lines : List Line}
      (written : .mk heading vars inner spaced lines ∈
        Node.routines f optimize id (.function returns name params body location)) :
      Emits program body lines
  | block {node : Node} {body : List Node} (has : program.Has node)
      (isBody : node.block? = some body) (semicolon : Bool) {heading : Line} {lines : List Line}
      {close : Content} (written : node.lines semicolon = heading :: Line.block lines close) :
      Emits program body lines

/-- The lines of a list of statements depend on nothing else. -/
theorem Emits.linesAll {program : Program} {nodes : List Node} {lines : List Line}
    (h : program.Emits nodes lines) : lines = Node.linesAll nodes := by
  cases h with
  | body => rfl
  | routine has f optimize id written =>
    simp only [Node.routines] at written
    split at written
    all_goals
      cases List.mem_singleton.1 written
      rfl
  | @block node _ _ isBody _ _ _ _ written =>
    cases node with
    | conditional | loop | alternative =>
      obtain rfl := Option.some.inj isBody
      exact (Line.block_inj (List.cons.inj written).2).symm
    | _ => nomatch isBody

/-- What is emitted are statements of the source. -/
theorem Emits.isStatement {source : String} {program : Program} {nodes : List Node}
    {lines : List Line} (parsed : parse source = .ok program) (h : program.Emits nodes lines) :
    ∀ s ∈ nodes, s.IsStatement := by
  have shapes := isStatement_of_parse parsed
  cases h with
  | body =>
    refine List.forall_mem_append.2 ⟨shapes, ?_⟩
    cases isMain : program.main? with
    | none => simp
    | some main =>
      obtain ⟨s, member, defined⟩ := Node.mem_functionsAll.1 (List.mem_of_find?_eq_some isMain)
      exact (shapes s member).of_functions main defined
  | routine has =>
    cases has.isStatement parsed rfl with
    | function _ _ _ _ statements => exact statements
  | @block node _ has isBody =>
    have noValue : node.isExpression = false := by
      cases node <;> first | rfl | nomatch isBody
    exact (has.isStatement parsed noValue).of_block isBody

/-- The lines of statements, at any depth, read as what the statements execute and as nothing else. -/
theorem readsAs_iff_treesAll {source : String} {program : Program} {nodes : List Node}
    {lines : List Line} (parsed : parse source = .ok program) (emitted : program.Emits nodes lines)
    (placed : Node.ElsesFollowIfs nodes) (depth : Nat) (trees : List Tree) :
    ReadsAs (lines.map fun l => Line.text { l with depth := l.depth + depth }) trees ↔
      trees = Node.treesAll nodes := by
  have written := Node.written_linesAll (emitted.isStatement parsed) placed
  rw [← emitted.linesAll] at written
  constructor
  · intro reads
    exact reads.unique (written.readsAs depth)
  · rintro rfl
    exact written.readsAs depth

/-- A comment and the end of a line do not part an `else` from its conditional. -/
theorem readsAs_else_after_comment :
    parse "if (a) { b = 1; } // or\nelse { while (c) { f(); } }" = .ok ⟨[
      .conditional (.var "a" ⟨1, 5⟩)
        [.assignment (.var "b" ⟨1, 10⟩) (.intLiteral "1" ⟨1, 14⟩) ⟨1, 12⟩] ⟨1, 1⟩,
      .comment " or" ⟨1, 19⟩,
      .alternative [.loop (.var "c" ⟨2, 15⟩) [.call "f" [] ⟨2, 20⟩] ⟨2, 8⟩] ⟨2, 1⟩], ⟨2, 28⟩⟩ ∧
    ∀ trees, ReadsAs ["   if a then", "   begin", "      b := 1;", "   end", "   \x7b or \x7d",
        "   else", "   begin", "      while c do", "      begin", "         f();", "      end;",
        "   end;"] trees ↔
      trees = [.conditional "a" [.simple "b := 1"] (some [.loop "c" [.simple "f()"]])] := by
  have parsed : parse "if (a) { b = 1; } // or\nelse { while (c) { f(); } }" = .ok ⟨[
      .conditional (.var "a" ⟨1, 5⟩)
        [.assignment (.var "b" ⟨1, 10⟩) (.intLiteral "1" ⟨1, 14⟩) ⟨1, 12⟩] ⟨1, 1⟩,
      .comment " or" ⟨1, 19⟩,
      .alternative [.loop (.var "c" ⟨2, 15⟩) [.call "f" [] ⟨2, 20⟩] ⟨2, 8⟩] ⟨2, 1⟩], ⟨2, 28⟩⟩ :=
    (parse_ofList _).trans (by decide +kernel)
  exact ⟨parsed, readsAs_iff_treesAll parsed (.body default {}) (by decide) 1⟩

end Program

end Pascalize
