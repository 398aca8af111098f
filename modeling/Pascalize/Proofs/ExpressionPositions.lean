import Pascalize.Pascal.Listing
import Pascalize.Scope.Analysis
import Pascalize.Proofs.NodePositions

/-!
# Statements are never written as expressions

The writer of expressions is defined on every tree: a statement in the place of a value is written as
the empty text. Here it is followed with that case left open. `Node.pascalM` and the functions over it
write in any monad, and what they do with a node that is no expression is a parameter. With the empty
text for it they are the writer itself, and so they are wherever no statement stands in the place of a
value (`Program.pascalM_eq`), as in a parsed program.
-/

namespace Pascalize

open Pascal

section Writing

variable {m : Type → Type} [Monad m]

namespace Node

mutual

/-- An expression in Pascal, where `other` writes what is none. -/
def pascalM (other : Node → m String) : Node → m String
  | .binary op left right _ => do
    let first ← left.pascalM other
    let second ← right.pascalM other
    return parenthesized (!op.isArithmetic)
      (parenthesized (needsGroup op false left) first ++ " " ++ op.pascal ++ " " ++
        parenthesized (needsGroup op true right) second)
  | .negation operand _ => do
    let inner ← operand.pascalM other
    return "-" ++ parenthesized (needsUnaryGroup operand) inner
  | .complement operand _ => do
    let inner ← operand.pascalM other
    return "not " ++ parenthesized (needsUnaryGroup operand) inner
  | .var name _ | .reference name _ => return name
  | .call name args _ => do
    let texts ← pascalAllM other args
    return name ++ "(" ++ ", ".intercalate texts ++ ")"
  | .index target position _ => do
    let base ← target.pascalM other
    let offset ← position.pascalM other
    return base ++ "[" ++ offset ++ "]"
  | .sequence items _ => do
    let texts ← pascalAllM other items
    return "[" ++ ", ".intercalate texts ++ "]"
  | .stringLiteral text _ => return quoted text
  | .intLiteral text _ => return text
  | .floatLiteral text _ => return fraction text
  | node => other node

/-- Expressions in Pascal, one by one. -/
def pascalAllM (other : Node → m String) : List Node → m (List String)
  | [] => return []
  | node :: rest => do
    let text ← node.pascalM other
    let texts ← pascalAllM other rest
    return text :: texts

end

/-- The text of an assignment. -/
def assignmentM (other : Node → m String) (target value : Node) : m String := do
  let left ← target.pascalM other
  let right ← value.pascalM other
  return left ++ " := " ++ right

/-- The texts of the assignments among nodes. -/
def assignmentsM (other : Node → m String) : List Node → m (List String)
  | [] => return []
  | .assignment target value _ :: rest => do
    let text ← assignmentM other target value
    let texts ← assignmentsM other rest
    return text :: texts
  | _ :: rest => assignmentsM other rest

mutual

/-- The lines of a statement. -/
def linesM (other : Node → m String) (semicolon : Bool) : Node → m (List Line)
  | .declaration .. | .function .. => return []
  | .declarations items _ => do
    let texts ← assignmentsM other items
    return statementLines semicolon texts
  | .assignment target value _ => do
    let text ← assignmentM other target value
    return [⟨0, .statement text semicolon⟩]
  | .result value _ => do
    let text ← value.pascalM other
    return [⟨0, .statement ("Exit(" ++ text ++ ")") semicolon⟩]
  | .input targets _ => do
    let texts ← pascalAllM other targets
    return [⟨0, .statement ("readln(" ++ ", ".intercalate texts ++ ")") semicolon⟩]
  | .output items _ => do
    let texts ← pascalAllM other items
    return [⟨0, .statement ("writeln(" ++ ", ".intercalate texts ++ ")") semicolon⟩]
  | .comment text _ => return [⟨0, .comment text⟩]
  | .conditional condition body _ => do
    let text ← condition.pascalM other
    let inner ← linesAllM other body
    return ⟨0, .ifThen text⟩ :: Line.block inner (.blockEnd semicolon)
  | .loop condition body _ => do
    let text ← condition.pascalM other
    let inner ← linesAllM other body
    return ⟨0, .whileDo text⟩ :: Line.block inner (.blockEnd semicolon)
  | .alternative body _ => do
    let inner ← linesAllM other body
    return ⟨0, .otherwise⟩ :: Line.block inner (.blockEnd semicolon)
  | node => do
    let text ← node.pascalM other
    return [⟨0, .statement text semicolon⟩]

/-- The lines of statements in turn. -/
def linesAllM (other : Node → m String) : List Node → m (List Line)
  | [] => return []
  | node :: rest => do
    let lines ← node.linesM other (!elseFollows rest)
    let more ← linesAllM other rest
    return lines ++ more

end

mutual

/-- The routines for the functions of a statement in scope `id`. -/
def routinesM (other : Node → m String) (f : Forest) (optimize : Bool) (id : ScopeId) :
    Node → m (List Routine)
  | .function returns name params body _ => do
    let heading := headingOf returns name params
    let spaced := !(functionsAll body).isEmpty
    match f.child? id name with
    | some own =>
      let inner ← routinesAllM other f optimize own body
      let lines ← linesAllM other body
      return [.mk heading (f.varSection optimize own) inner spaced lines]
    | none =>
      let lines ← linesAllM other body
      return [.mk heading {} [] spaced lines]
  | .conditional _ body _ | .loop _ body _ | .alternative body _ =>
    routinesAllM other f optimize id body
  | _ => return []

/-- The routines for the functions of statements in scope `id`. -/
def routinesAllM (other : Node → m String) (f : Forest) (optimize : Bool) (id : ScopeId) :
    List Node → m (List Routine)
  | [] => return []
  | node :: rest => do
    let routines ← node.routinesM other f optimize id
    let more ← routinesAllM other f optimize id rest
    return routines ++ more

end

end Node

namespace Program

/-- The routines for the functions inside `main`. -/
def mainRoutinesM (other : Node → m String) (program : Program) (f : Forest) (optimize : Bool) :
    m (List Routine) :=
  match program.main?, program.mainScope? f with
  | some main, some id => Node.routinesAllM other f optimize id main.body
  | _, _ => return []

/-- A program in Pascal, where `other` writes what stands in the place of an expression and is none. -/
def pascalM (other : Node → m String) (program : Program) (f : Forest) (options : Options) :
    m Listing := do
  let globals := f.varSection options.optimize Forest.global
  let locals := match program.mainScope? f with
    | some id => f.varSection options.optimize id
    | none => {}
  let isShadowed (v : Variable) : Bool := locals.kept.any (·.name = v.name)
  let written ← Node.routinesAllM other f options.optimize Forest.global program.statements
  let inMain ← program.mainRoutinesM other f options.optimize
  let body ← Node.linesAllM other (program.statements ++ (program.main?.map (·.body)).getD [])
  let top := written.filter (·.name ≠ mainName)
  let isDuplicate (r : Routine) : Bool := top.any (·.name = r.name)
  let routines := top ++ inMain.filter (!isDuplicate ·)
  return {
    name := options.programName
    vars := globals.kept.filter (!isShadowed ·) ++ locals.kept
    routines := routines
    body := body
    removed := globals.removed ++ locals.removed ++ Routine.removedAll routines
    warnings := (globals.kept.filter isShadowed).map (fun v => .shadowedGlobal v.name) ++
      (inMain.filter isDuplicate).map (fun r => .duplicateFunction r.name) }

end Program

/-! ## Where the parameter is run -/

/-- Wherever a node that is no expression stands in the place of a value, `other` gives the empty
text. -/
def Node.Spares (other : Node → m String) (here : Position) (node : Node) : Prop :=
  ∀ there e, Reaches here node there e → there.isValue = true → e.isExpression = false →
    other e = pure ""

namespace Node

variable {other : Node → m String}

/-- What holds of a node holds of its parts, each in its position. -/
theorem Spares.part {here : Position} {node child : Node} (h : node.Spares other here)
    (there : Position) (member : (there, child) ∈ node.parts here) : child.Spares other there :=
  fun place e reached => h place e (.part member reached)

/-- Nodes in a row, all in one position. -/
theorem Spares.each {here : Position} {node : Node} {items : List Node} (h : node.Spares other here)
    (there : Position) (row : ∀ e ∈ items, (there, e) ∈ node.parts here) :
    ∀ e ∈ items, e.Spares other there :=
  fun e member => h.part there (row e member)

variable [LawfulMonad m]

mutual

/-- **An expression is written as by the writer itself**, by induction on the expression. -/
theorem Spares.pascalM {here : Position} : (node : Node) → node.Spares other here →
    here.isValue = true ∨ node.isExpression = true → node.pascalM other = pure node.pascal
  | .binary op left right location, h, _ => by
    have first := Spares.pascalM left (h.part .operand (by simp [parts])) (.inl rfl)
    have second := Spares.pascalM right (h.part .operand (by simp [parts])) (.inl rfl)
    simp [Node.pascalM, pascal, first, second]
  | .negation operand location, h, _ | .complement operand location, h, _ => by
    have inner := Spares.pascalM operand (h.part .operand (by simp [parts])) (.inl rfl)
    simp [Node.pascalM, pascal, inner]
  | .call name args location, h, _ => by
    have items := Spares.pascalAllM args rfl (h.each .argument (by simp [parts]))
    simp [Node.pascalM, pascal, items]
  | .index target position location, h, _ => by
    have base := Spares.pascalM target (h.part .indexed (by simp [parts])) (.inl rfl)
    have offset := Spares.pascalM position (h.part .offset (by simp [parts])) (.inl rfl)
    simp [Node.pascalM, pascal, base, offset]
  | .sequence items location, h, _ => by
    have texts := Spares.pascalAllM items rfl (h.each .element (by simp [parts]))
    simp [Node.pascalM, pascal, texts]
  | .var .., _, _ | .reference .., _, _ | .stringLiteral .., _, _ | .intLiteral .., _, _
  | .floatLiteral .., _, _ => by simp [Node.pascalM, pascal]
  | .declaration _, h, value | .declarations .., h, value | .function .., h, value
  | .assignment .., h, value | .conditional .., h, value | .loop .., h, value
  | .alternative .., h, value | .result .., h, value | .input .., h, value
  | .output .., h, value | .comment .., h, value => by
    have isValue := value.resolve_right (by simp [isExpression])
    have spared := h _ _ (.self here _) isValue rfl
    simpa [Node.pascalM, pascal] using spared

theorem Spares.pascalAllM {there : Position} : (nodes : List Node) → there.isValue = true →
    (∀ e ∈ nodes, e.Spares other there) → pascalAllM other nodes = pure (pascalAll nodes)
  | [], _, _ => by simp [Node.pascalAllM, pascalAll]
  | node :: rest, value, each => by
    have first := Spares.pascalM node (each node List.mem_cons_self) (.inl value)
    have others := Spares.pascalAllM rest value fun e member => each e (List.mem_cons_of_mem _ member)
    simp [Node.pascalAllM, pascalAll, first, others]

end

/-- An assignment, as a statement or among declarations. -/
theorem Spares.assignmentM {here : Position} {target value : Node} {location : Location}
    (h : Spares other here (.assignment target value location)) :
    assignmentM other target value = pure (target.pascal ++ " := " ++ value.pascal) := by
  have left := Spares.pascalM target (h.part .assigned (by simp [parts])) (.inl rfl)
  have right : value.pascalM other = pure value.pascal := by
    by_cases statement : here = .statement
    · exact Spares.pascalM value (h.part .value (by simp [parts, statement])) (.inl rfl)
    · exact Spares.pascalM value (h.part .initial (by simp [parts, statement])) (.inl rfl)
  simp [Node.assignmentM, left, right]

theorem Spares.assignmentsM {nodes : List Node} (each : ∀ e ∈ nodes, ∃ here, e.Spares other here) :
    assignmentsM other nodes = pure (nodes.filterMap assignmentText?) := by
  induction nodes with
  | nil => simp [Node.assignmentsM]
  | cons node rest ih =>
    have others := ih fun e member => each e (List.mem_cons_of_mem _ member)
    obtain ⟨here, h⟩ := each node List.mem_cons_self
    cases node with
    | assignment => simp [Node.assignmentsM, assignmentText?, others, h.assignmentM]
    | _ => exact others

mutual

/-- So is a statement. -/
theorem Spares.linesM (semicolon : Bool) : (node : Node) → node.Spares other .statement →
    node.linesM other semicolon = pure (node.lines semicolon)
  | .declaration .., _ | .function .., _ | .comment .., _ => by simp [Node.linesM, lines]
  | .declarations items location, h => by
    have texts : Node.assignmentsM other items = pure (items.filterMap assignmentText?) := by
      refine Spares.assignmentsM fun e member => ?_
      rw [show items = (Node.declarations items location).children from rfl,
        ← map_parts .statement] at member
      obtain ⟨⟨there, _⟩, part, rfl⟩ := List.mem_map.1 member
      exact ⟨there, h.part there part⟩
    simp [Node.linesM, lines, texts]
  | .assignment target value location, h => by simp [Node.linesM, lines, h.assignmentM]
  | .result value location, h => by
    have text := Spares.pascalM value (h.part .returned (by simp [parts])) (.inl rfl)
    simp [Node.linesM, lines, text]
  | .input targets location, h => by
    have texts := Spares.pascalAllM targets rfl (h.each .readInto (by simp [parts]))
    simp [Node.linesM, lines, pascalList, texts]
  | .output items location, h => by
    have texts := Spares.pascalAllM items rfl (h.each .writtenOut (by simp [parts]))
    simp [Node.linesM, lines, pascalList, texts]
  | .conditional condition body location, h | .loop condition body location, h => by
    have text := Spares.pascalM condition (h.part .condition (by simp [parts])) (.inl rfl)
    have inner := Spares.linesAllM body (h.each .statement (by simp [parts]))
    simp [Node.linesM, lines, text, inner]
  | .alternative body location, h => by
    have inner := Spares.linesAllM body (h.each .statement (by simp [parts]))
    simp [Node.linesM, lines, inner]
  | .binary .., h | .negation .., h | .complement .., h | .var .., h | .reference .., h
  | .call .., h | .index .., h | .sequence .., h | .stringLiteral .., h | .intLiteral .., h
  | .floatLiteral .., h => by
    have text := Spares.pascalM _ h (.inr rfl)
    simp [Node.linesM, lines, text]

theorem Spares.linesAllM : (nodes : List Node) → (∀ s ∈ nodes, s.Spares other .statement) →
    linesAllM other nodes = pure (linesAll nodes)
  | [], _ => by simp [Node.linesAllM, linesAll]
  | node :: rest, each => by
    have first := Spares.linesM (!elseFollows rest) node (each node List.mem_cons_self)
    have others := Spares.linesAllM rest fun s member => each s (List.mem_cons_of_mem _ member)
    simp [Node.linesAllM, linesAll, first, others]

end

mutual

/-- So is a function. -/
theorem Spares.routinesM (f : Forest) (optimize : Bool) (id : ScopeId) : (node : Node) →
    node.Spares other .statement →
    node.routinesM other f optimize id = pure (node.routines f optimize id)
  | .function returns name params body location, h => by
    have each : ∀ s ∈ body, s.Spares other .statement := h.each .statement (by simp [parts])
    have lines := Spares.linesAllM body each
    have inner := fun own => Spares.routinesAllM f optimize own body each
    cases found : f.child? id name with
    | none => simp [Node.routinesM, routines, found, lines]
    | some own => simp [Node.routinesM, routines, found, lines, inner own]
  | .conditional condition body location, h | .loop condition body location, h
  | .alternative body location, h => by
    have inner := Spares.routinesAllM f optimize id body (h.each .statement (by simp [parts]))
    simpa [Node.routinesM, routines] using inner
  | .declaration .., _ | .declarations .., _ | .assignment .., _ | .result .., _ | .input .., _
  | .output .., _ | .comment .., _ | .binary .., _ | .negation .., _ | .complement .., _
  | .var .., _ | .reference .., _ | .call .., _ | .index .., _ | .sequence .., _
  | .stringLiteral .., _ | .intLiteral .., _ | .floatLiteral .., _ => by
    simp [Node.routinesM, routines]

theorem Spares.routinesAllM (f : Forest) (optimize : Bool) (id : ScopeId) : (nodes : List Node) →
    (∀ s ∈ nodes, s.Spares other .statement) →
    routinesAllM other f optimize id nodes = pure (routinesAll f optimize id nodes)
  | [], _ => by simp [Node.routinesAllM, routinesAll]
  | node :: rest, each => by
    have first := Spares.routinesM f optimize id node (each node List.mem_cons_self)
    have others := Spares.routinesAllM f optimize id rest fun s member =>
      each s (List.mem_cons_of_mem _ member)
    simp [Node.routinesAllM, routinesAll, first, others]

end

omit [LawfulMonad m]

mutual

/-- The bodies of the functions in a statement are spared with it. -/
theorem Spares.functions : (node : Node) → node.Spares other .statement →
    ∀ d ∈ node.functions, ∀ s ∈ d.body, s.Spares other .statement
  | .function returns name params body location, h => by
    have each : ∀ s ∈ body, s.Spares other .statement := h.each .statement (by simp [parts])
    simpa [Node.functions] using each
  | .conditional condition body location, h | .loop condition body location, h
  | .alternative body location, h =>
    Spares.functionsAll body (h.each .statement (by simp [parts]))
  | .declaration .., _ | .declarations .., _ | .assignment .., _ | .result .., _ | .input .., _
  | .output .., _ | .comment .., _ | .binary .., _ | .negation .., _ | .complement .., _
  | .var .., _ | .reference .., _ | .call .., _ | .index .., _ | .sequence .., _
  | .stringLiteral .., _ | .intLiteral .., _ | .floatLiteral .., _ => by
    simp [Node.functions]

/-- What holds of statements holds of those in the bodies of their functions. -/
theorem Spares.functionsAll : (nodes : List Node) → (∀ s ∈ nodes, s.Spares other .statement) →
    ∀ d ∈ functionsAll nodes, ∀ s ∈ d.body, s.Spares other .statement
  | [], _ => by simp [Node.functionsAll]
  | node :: rest, each => by
    intro d member
    simp only [Node.functionsAll, List.mem_append] at member
    obtain member | member := member
    · exact Spares.functions node (each node List.mem_cons_self) d member
    · exact Spares.functionsAll rest (fun s within => each s (List.mem_cons_of_mem _ within)) d member

end

end Node

/-- The writer differs from the one with a parameter at most where a node that is no expression stands
in the place of a value. -/
theorem Program.pascalM_eq [LawfulMonad m] {other : Node → m String} {program : Program}
    (each : ∀ s ∈ program.statements, s.Spares other .statement) (f : Forest) (options : Options) :
    program.pascalM other f options = pure (program.pascal f options) := by
  have ofMain : ∀ d ∈ program.main?, ∀ s ∈ d.body, s.Spares other .statement := fun d isMain =>
    Node.Spares.functionsAll _ each d (List.mem_of_find?_eq_some isMain)
  have written := Node.Spares.routinesAllM f options.optimize Forest.global program.statements each
  have inMain : program.mainRoutinesM other f options.optimize =
      pure (program.mainRoutines f options.optimize) := by
    cases isMain : program.main? with
    | none => simp [mainRoutinesM, mainRoutines, isMain]
    | some main =>
      cases isScope : program.mainScope? f with
      | none => simp [mainRoutinesM, mainRoutines, isMain, isScope]
      | some id =>
        have inner := Node.Spares.routinesAllM f options.optimize id main.body (ofMain main isMain)
        simpa [mainRoutinesM, mainRoutines, isMain, isScope] using inner
  have body := Node.Spares.linesAllM (program.statements ++ (program.main?.map (·.body)).getD []) <| by
    intro s member
    obtain member | member := List.mem_append.1 member
    · exact each s member
    · cases found : program.main? with
      | none => simp [found] at member
      | some main => exact ofMain main found s (by simpa [found] using member)
  simp only [pascalM, written, inMain, body, pure_bind]
  rfl

end Writing

/-! ## Parsed programs -/

/-- In the place of a value there are only expressions. -/
theorem Position.Fits.isExpression {here : Position} {e : Node} (h : here.Fits e)
    (value : here.isValue = true) : e.isExpression = true := by
  cases here with
  | statement | firstDeclared | laterDeclared => cases value
  | assigned | indexed =>
    obtain ⟨name, location, -, rfl⟩ := h
    rfl
  | value => exact (Node.IsWritten.value h).isExpression
  | readInto => exact (Node.IsWritten.reference h).isExpression
  | writtenOut =>
    obtain is | is := h
    · exact (Node.IsWritten.reference is).isExpression
    · exact (Node.IsExpression.literal is).written.isExpression
  | initial | condition | operand | argument | offset | element | returned =>
    exact (Node.IsExpression.written h).isExpression

theorem IsName.ne_empty {name : String} (h : IsName name) : name ≠ "" := by
  obtain ⟨c, rest, same, -⟩ := h.word
  rintro rfl
  simp at same

theorem Node.IsLiteral.pascal_ne_empty {e : Node} (h : e.IsLiteral) : e.pascal ≠ "" := by
  cases h with
  | string => simp [pascal, quoted]
  | integer digits =>
    rintro rfl
    exact digits.nonempty rfl
  | fraction digits =>
    obtain ⟨whole, rest, same, -⟩ := digits
    rw [pascal, Pascal.fraction]
    split
    · simp
    · rintro rfl
      simp at same

/-- An expression is written with at least one character. -/
theorem Node.IsWritten.pascal_ne_empty {e : Node} (h : e.IsWritten) : e.pascal ≠ "" := by
  cases h with
  | reference is =>
    obtain ⟨named, _⟩ := is
    exact named.ne_empty
  | value is =>
    cases is with
    | sequence => simp [pascal]
    | expression is =>
      cases is with
      | binary =>
        rw [pascal, parenthesized]
        split <;> simp
      | var named => exact named.ne_empty
      | literal is => exact is.pascal_ne_empty
      | negation | complement | call | index => simp [pascal]

namespace Program

/-- **Which node stands where.** In a parsed program every node stands in a position that admits it, its
names are words other than the keywords, and several declarations are two nodes or more; lists stand only
as values of assignments that are statements, and functions only as statements. So the writer meets no
statement in the place of an expression: whatever it would do there, in whichever monad, it gives the
program's listing, and it writes no expression as the empty text. -/
theorem writes_only_expressions {source : String} {program : Program}
    (parsed : Program.parse source = .ok program) :
    (∀ e, program.Has e ↔ ∃ here, program.HasAt here e) ∧
    (∀ here e, program.HasAt here e → here.admits e = true ∧
      (∀ name ∈ e.names, IsWord name.toList ∧ name ∉ Kind.keywords.map Prod.fst) ∧
      ∀ items location, e = .declarations items location → 2 ≤ items.length) ∧
    (∀ here items location, program.HasAt here (.sequence items location) → here = .value) ∧
    (∀ here returns name params body location,
      program.HasAt here (.function returns name params body location) → here = .statement) ∧
    (∀ (m : Type → Type) [Monad m] [LawfulMonad m] (other : Node → m String) (f : Forest)
      (options : Options), program.pascalM other f options = pure (program.pascal f options)) ∧
    (∀ (tree : Program) (f : Forest) (options : Options),
      tree.pascalM (m := Id) (fun _ => pure "") f options = pure (tree.pascal f options)) ∧
    ∀ e, program.Has e → e.isExpression = true → e.pascal ≠ "" := by
  refine ⟨fun e => has_iff_hasAt, fun here e has => ?_, fun here items location has => ?_,
    fun here returns name params body location has => ?_, fun m _ _ other f options => ?_,
    fun tree f options => ?_, fun e has value => (has.isWritten parsed value).pascal_ne_empty⟩
  · have fits := has.fits parsed
    refine ⟨fits.admits, fun name member => ?_, ?_⟩
    · have named := fits.names_free name member
      exact ⟨named.word, named.not_mem_keywords⟩
    · rintro items location rfl
      exact fits.two_le_length
  · have allowed := (has.fits parsed).admits
    cases here with
    | value => rfl
    | _ => cases allowed
  · have allowed := (has.fits parsed).admits
    cases here with
    | statement => rfl
    | _ => cases allowed
  · refine pascalM_eq (fun s member there e reached value noValue => ?_) f options
    have has : program.HasAt there e := ⟨s, member, reached⟩
    rw [(has.fits parsed).isExpression value] at noValue
    cases noValue
  · exact pascalM_eq (fun s member there e reached value noValue => rfl) f options

/-- A list, an index and a point without digits after it, and a writer that fails on every statement. -/
theorem writes_only_expressions_of_list : ∃ program,
    parse "a = [b[0], 1.]; int c = -a, d; cin >> d;" = .ok program ∧
    program.pascalM (m := Option) (fun _ => none) program.analyze.forest {} =
      some (program.pascal program.analyze.forest {}) ∧
    (program.pascal program.analyze.forest {}).body.map (·.content.text) =
      ["a := [b[0], 1.0];", "c := -a;", "readln(d);"] := by
  let int : TypeName := ⟨"int", none, ⟨1, 17⟩⟩
  let program : Program := ⟨[
    .assignment (.var "a" ⟨1, 1⟩) (.sequence [
      .index (.var "b" ⟨1, 6⟩) (.intLiteral "0" ⟨1, 8⟩) ⟨1, 7⟩, .floatLiteral "1." ⟨1, 12⟩] ⟨1, 5⟩) ⟨1, 3⟩,
    .declarations [.declaration ⟨int, "c", false, ⟨1, 21⟩⟩,
      .assignment (.var "c" ⟨1, 21⟩) (.negation (.var "a" ⟨1, 26⟩) ⟨1, 25⟩) ⟨1, 23⟩,
      .declaration ⟨int, "d", false, ⟨1, 29⟩⟩] ⟨1, 21⟩,
    .input [.reference "d" ⟨1, 39⟩] ⟨1, 32⟩], ⟨1, 41⟩⟩
  have parsed : parse "a = [b[0], 1.]; int c = -a, d; cin >> d;" = .ok program :=
    (parse_ofList _).trans (by decide +kernel)
  have same := (writes_only_expressions parsed).2.2.2.2.1 Option (fun _ => none)
  exact ⟨program, parsed, same _ _, by decide⟩

end Program

end Pascalize
