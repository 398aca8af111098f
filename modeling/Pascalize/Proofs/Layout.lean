import Pascalize.Pipeline
import Pascalize.Proofs.Lookahead

/-!
# Layout does not matter

Where tokens stand is carried along for messages and never asked for. A relocated tree has the events
of the tree, relocated; playing them gives the same scopes, and the same complaints at other places
(`Program.analyze_relocate`). It is written as the same Pascal (`Program.pascal_relocate`). The grammar
decides by kinds and texts alone (`Parser.local_program`), so two texts with the same wording, read
without their line feeds, are the same program but for its locations, or are refused in the same
words (`Program.parse_of_wording`).
-/

namespace Pascalize

variable (f : Location → Location)

/-! ## The events of a relocated tree -/

/-- The same event at another place. -/
def Event.relocate : Event → Event
  | .refer name location => .refer name (f location)
  | .declare decl => .declare (decl.relocate f)
  | .enter returns name params location =>
    .enter returns name (params.map (·.relocate f)) (f location)
  | .leave => .leave

mutual

/-- The events of a tree carry its locations along, and nothing else of it depends on them. -/
theorem Node.events_relocate : (node : Node) →
    (node.relocate f).events = node.events.map (Event.relocate f)
  | .declaration decl => by
    rw [relocate, events, events, List.map_singleton, Event.relocate]
  | .function returns name params body location => by
    rw [relocate, events, events, eventsAll_relocate body]
    simp only [List.map_cons, List.map_append, List.map_nil, Event.relocate]
  | .assignment first second _ | .binary _ first second _ | .index first second _ => by
    rw [relocate, events, events, events_relocate first, events_relocate second, List.map_append]
  | .conditional condition body _ | .loop condition body _ => by
    rw [relocate, events, events, events_relocate condition, eventsAll_relocate body, List.map_append]
  | .declarations items _ | .alternative items _ | .input items _ | .output items _
  | .sequence items _ => by
    rw [relocate, events, events, eventsAll_relocate items]
  | .result inner _ | .negation inner _ | .complement inner _ => by
    rw [relocate, events, events, events_relocate inner]
  | .var name location | .reference name location => by
    rw [relocate, events, events, List.map_singleton, Event.relocate]
  | .call name args location => by
    rw [relocate, events, events, eventsAll_relocate args, List.map_cons, Event.relocate]
  | .comment .. | .stringLiteral .. | .intLiteral .. | .floatLiteral .. => by
    rw [relocate, events, events, List.map_nil]

theorem Node.eventsAll_relocate : (nodes : List Node) →
    eventsAll (relocateAll f nodes) = (eventsAll nodes).map (Event.relocate f)
  | [] => rfl
  | node :: rest => by
    rw [relocateAll, eventsAll, eventsAll, events_relocate node, eventsAll_relocate rest,
      List.map_append]

end

/-! ## Their analysis -/

@[simp] theorem TypeName.base_relocate (type : TypeName) : (type.relocate f).base = type.base := rfl

/-- The same complaint about another place. -/
def Diagnostic.relocate (d : Diagnostic) : Diagnostic :=
  { d with location := f d.location }

namespace Analysis

/-- The same analysis of a text that stands elsewhere. -/
def relocate (a : Analysis) : Analysis :=
  { a with diagnostics := a.diagnostics.map (·.relocate f) }

variable (a : Analysis)

@[simp] theorem forest_relocate : (a.relocate f).forest = a.forest := rfl

@[simp] theorem active_relocate : (a.relocate f).active = a.active := rfl

/-- Complaints about moved names stand at the moved places. -/
theorem report_relocate (complaint : Complaint) (location : Location) :
    (a.relocate f).report complaint (f location) = (a.report complaint location).relocate f := by
  simp only [report, relocate, List.map_append, List.map_singleton, Diagnostic.relocate]

/-- A name is looked up by its text. -/
theorem refer_relocate (name : String) (location : Location) :
    (a.relocate f).refer name (f location) = (a.refer name location).relocate f := by
  unfold refer
  rw [forest_relocate, active_relocate]
  rcases a.forest.resolve a.active name with ⟨_ | ref, forest⟩
  · apply report_relocate
  · rfl

theorem useType_relocate (type : TypeName) :
    (a.relocate f).useType (type.relocate f) =
      ((a.useType type).1, (a.useType type).2.relocate f) := by
  unfold useType
  rw [forest_relocate, active_relocate, TypeName.base_relocate]
  rcases a.forest.resolve a.active type.base with ⟨found, forest⟩
  simp only
  cases found.filter fun ref => (forest.symbol? ref).any Symbol.isType with
  | some ref => rfl
  | none => exact congrArg (none, ·) (report_relocate f { a with forest } _ _)

/-- A name is taken or free wherever it stands. -/
theorem insert_relocate (symbol : Symbol) (location : Location) :
    (a.relocate f).insert symbol (f location) =
      ((a.insert symbol location).1, (a.insert symbol location).2.relocate f) := by
  unfold insert
  rw [forest_relocate, active_relocate]
  rcases a.forest.insert a.active symbol with ⟨ref | existing, forest⟩
  · rfl
  · exact congrArg (Forest.Insertion.clash existing, ·) (a.report_relocate f _ _)

theorem declare_relocate (role : Role) (decl : Declaration) :
    (a.relocate f).declare role (decl.relocate f) =
      ((a.declare role decl).1, (a.declare role decl).2.relocate f) := by
  unfold declare
  simp only [Declaration.relocate, TypeName.base_relocate, useType_relocate, insert_relocate]
  rcases (a.useType decl.type).2.insert ⟨decl.name, role, _, _, 0⟩ decl.location
    with ⟨ref | existing, a'⟩
  · rfl
  · rfl

theorem declareParams_relocate (params : List Declaration) :
    (a.relocate f).declareParams (params.map (·.relocate f)) =
      ((a.declareParams params).1, (a.declareParams params).2.relocate f) := by
  induction params generalizing a with
  | nil => rfl
  | cons decl rest ih => simp only [List.map_cons, declareParams, declare_relocate, ih]

theorem openScope_relocate (name : String) :
    (a.relocate f).openScope name = (a.openScope name).relocate f := rfl

/-- A function opens its scope with its name and its parameters, and its location serves complaints
alone. -/
theorem enter_relocate (returns name : String) (params : List Declaration) (location : Location) :
    (a.relocate f).enter returns name (params.map (·.relocate f)) (f location) =
      (a.enter returns name params location).relocate f := by
  unfold enter
  simp only [insert_relocate, openScope_relocate, declareParams_relocate]
  cases (a.insert (.ofFunction name returns) location).1 with
  | inserted ref => rfl
  | clash existing => rfl

theorem hasMain_relocate : (a.relocate f).hasMain = a.hasMain := rfl

/-- One event elsewhere does the same, elsewhere. -/
theorem step_relocate (event : Event) :
    (a.relocate f).step (event.relocate f) = (a.step event).relocate f := by
  cases event with
  | refer name location => exact a.refer_relocate f name location
  | declare decl => exact congrArg Prod.snd (a.declare_relocate f .var decl)
  | enter returns name params location => exact a.enter_relocate f returns name params location
  | leave => rfl

/-- **Moved events** lead to the same scopes and to the moved complaints, by induction on the events. -/
theorem play_relocate (events : List Event) :
    (a.relocate f).play (events.map (Event.relocate f)) = (a.play events).relocate f := by
  induction events generalizing a with
  | nil => rfl
  | cons event rest ih =>
    show ((a.relocate f).step (event.relocate f)).play _ = ((a.step event).play rest).relocate f
    rw [step_relocate, ih]

end Analysis

/-- **The analysis** of a relocated program has the same scopes, and its complaints relocated. -/
theorem Program.analyze_relocate (program : Program) :
    (program.relocate f).analyze = program.analyze.relocate f := by
  have played : ({} : Analysis).play (Node.eventsAll (program.relocate f).statements) =
      (({} : Analysis).play (Node.eventsAll program.statements)).relocate f := by
    rw [relocate, Node.eventsAll_relocate]
    exact Analysis.play_relocate f {} _
  simp only [analyze, played, Analysis.hasMain_relocate]
  split
  · rfl
  · exact Analysis.report_relocate f _ .missingMain program.finish

/-! ## Their Pascal -/

open Pascal

/-- Parentheses are put by operators alone. -/
theorem Pascal.needsGroup_relocate (parent : Operator) (isRight : Bool) (node : Node) :
    needsGroup parent isRight (node.relocate f) = needsGroup parent isRight node := by
  cases node <;> rfl

theorem Pascal.needsUnaryGroup_relocate (node : Node) :
    needsUnaryGroup (node.relocate f) = needsUnaryGroup node := by
  cases node <;> rfl

mutual

/-- An expression is written without locations. -/
theorem Node.pascal_relocate : (node : Node) → (node.relocate f).pascal = node.pascal
  | .binary op left right _ => by
    rw [relocate, pascal, pascal, needsGroup_relocate, needsGroup_relocate, pascal_relocate left,
      pascal_relocate right]
  | .negation operand _ | .complement operand _ => by
    rw [relocate, pascal, pascal, needsUnaryGroup_relocate, pascal_relocate operand]
  | .call _ items _ | .sequence items _ => by
    rw [relocate, pascal, pascal, pascalAll_relocate items]
  | .index target position _ => by
    rw [relocate, pascal, pascal, pascal_relocate target, pascal_relocate position]
  | .var .. | .reference .. | .stringLiteral .. | .intLiteral .. | .floatLiteral ..
  | .declaration .. | .declarations .. | .function .. | .assignment .. | .conditional ..
  | .loop .. | .alternative .. | .result .. | .input .. | .output .. | .comment .. => by
    rw [relocate, pascal, pascal]

theorem Node.pascalAll_relocate : (nodes : List Node) →
    pascalAll (relocateAll f nodes) = pascalAll nodes
  | [] => rfl
  | node :: rest => by
    rw [relocateAll, pascalAll, pascalAll, pascal_relocate node, pascalAll_relocate rest]

end

theorem Node.isInert_relocate (node : Node) : (node.relocate f).isInert = node.isInert := by
  cases node <;> rfl

theorem Node.isAlternative_relocate (node : Node) :
    (node.relocate f).isAlternative = node.isAlternative := by
  cases node <;> rfl

/-- Whether an `else` follows is seen from the kinds of the statements. -/
theorem Node.elseFollows_relocate (nodes : List Node) :
    elseFollows (relocateAll f nodes) = elseFollows nodes := by
  unfold elseFollows
  rw [relocateAll_eq_map, List.find?_map, Option.any_map]
  simp only [Function.comp_def, isInert_relocate, isAlternative_relocate]

theorem Node.assignmentText?_relocate (node : Node) :
    (node.relocate f).assignmentText? = node.assignmentText? := by
  cases node <;> simp only [relocate, assignmentText?, pascal_relocate]

mutual

/-- A statement is written without locations. -/
theorem Node.lines_relocate (semicolon : Bool) : (node : Node) →
    (node.relocate f).lines semicolon = node.lines semicolon
  | .declaration .. | .function .. | .comment .. => by
    rw [relocate, lines, lines]
  | .declarations items _ => by
    rw [relocate, lines, lines, relocateAll_eq_map, List.filterMap_map]
    simp only [Function.comp_def, assignmentText?_relocate]
  | .assignment target value _ => by
    rw [relocate, lines, lines, pascal_relocate, pascal_relocate]
  | .result value _ => by
    rw [relocate, lines, lines, pascal_relocate]
  | .input items _ | .output items _ => by
    rw [relocate, lines, lines, pascalList, pascalList, pascalAll_relocate]
  | .conditional condition body _ | .loop condition body _ => by
    rw [relocate, lines, lines, pascal_relocate, linesAll_relocate body]
  | .alternative body _ => by
    rw [relocate, lines, lines, linesAll_relocate body]
  | .binary .. | .negation .. | .complement .. | .var .. | .reference .. | .call .. | .index ..
  | .sequence .. | .stringLiteral .. | .intLiteral .. | .floatLiteral .. => by
    simp only [relocate, lines, pascal, pascal_relocate, pascalAll_relocate, needsGroup_relocate,
      needsUnaryGroup_relocate]

theorem Node.linesAll_relocate : (nodes : List Node) →
    linesAll (relocateAll f nodes) = linesAll nodes
  | [] => rfl
  | node :: rest => by
    rw [relocateAll, linesAll, linesAll, elseFollows_relocate, lines_relocate _ node,
      linesAll_relocate rest]

end

/-! A function is looked at for its names, parameters and body. -/

/-- The same function at other places. -/
def Definition.relocate (d : Definition) : Definition :=
  { d with params := d.params.map (·.relocate f), body := Node.relocateAll f d.body }

mutual

/-- The functions of a moved tree are the moved functions. -/
theorem Node.functions_relocate : (node : Node) →
    (node.relocate f).functions = node.functions.map (·.relocate f)
  | .function .. => by
    rw [relocate, functions, functions, List.map_singleton, Definition.relocate]
  | .conditional _ body _ | .loop _ body _ | .alternative body _ => by
    rw [relocate, functions, functions, functionsAll_relocate body]
  | .declaration .. | .declarations .. | .assignment .. | .result .. | .input .. | .output ..
  | .comment .. | .binary .. | .negation .. | .complement .. | .var .. | .reference .. | .call ..
  | .index .. | .sequence .. | .stringLiteral .. | .intLiteral .. | .floatLiteral .. => rfl

theorem Node.functionsAll_relocate : (nodes : List Node) →
    functionsAll (relocateAll f nodes) = (functionsAll nodes).map (·.relocate f)
  | [] => rfl
  | node :: rest => by
    rw [relocateAll, functionsAll, functionsAll, functions_relocate node, functionsAll_relocate rest,
      List.map_append]

end

theorem Pascal.headingOf_relocate (returns name : String) (params : List Declaration) :
    headingOf returns name (params.map (·.relocate f)) = headingOf returns name params := by
  unfold headingOf
  rw [List.map_map]
  rfl

mutual

/-- A routine is written from the names and the scopes of a function. -/
theorem Node.routines_relocate (forest : Forest) (optimize : Bool) (id : ScopeId) : (node : Node) →
    (node.relocate f).routines forest optimize id = node.routines forest optimize id
  | .function returns name params body _ => by
    rw [relocate, routines, routines, headingOf_relocate, functionsAll_relocate, List.isEmpty_map,
      linesAll_relocate]
    cases forest.child? id name with
    | none => rfl
    | some own => simp only [routinesAll_relocate forest optimize own body]
  | .conditional _ body _ | .loop _ body _ | .alternative body _ => by
    rw [relocate, routines, routines, routinesAll_relocate forest optimize id body]
  | .declaration .. | .declarations .. | .assignment .. | .result .. | .input .. | .output ..
  | .comment .. | .binary .. | .negation .. | .complement .. | .var .. | .reference .. | .call ..
  | .index .. | .sequence .. | .stringLiteral .. | .intLiteral .. | .floatLiteral .. => rfl

theorem Node.routinesAll_relocate (forest : Forest) (optimize : Bool) (id : ScopeId) :
    (nodes : List Node) →
    routinesAll forest optimize id (relocateAll f nodes) = routinesAll forest optimize id nodes
  | [] => rfl
  | node :: rest => by
    rw [relocateAll, routinesAll, routinesAll, routines_relocate forest optimize id node,
      routinesAll_relocate forest optimize id rest]

end

namespace Program

variable (program : Program)

theorem main?_relocate : (program.relocate f).main? = program.main?.map (·.relocate f) := by
  unfold main?
  rw [relocate, Node.functionsAll_relocate, List.find?_map]
  rfl

/-- The scope of `main` is found by its name. -/
theorem mainScope?_relocate (forest : Forest) :
    (program.relocate f).mainScope? forest = program.mainScope? forest := by
  unfold mainScope?
  rw [main?_relocate]
  cases program.main? with
  | none => rfl
  | some main => rfl

theorem mainRoutines_relocate (forest : Forest) (optimize : Bool) :
    (program.relocate f).mainRoutines forest optimize = program.mainRoutines forest optimize := by
  unfold mainRoutines
  rw [main?_relocate, mainScope?_relocate]
  cases program.main? with
  | none => rfl
  | some main =>
    cases program.mainScope? forest with
    | none => rfl
    | some id => exact Node.routinesAll_relocate f forest optimize id main.body

/-- **The Pascal** of a relocated program is that of the program. -/
theorem pascal_relocate (forest : Forest) (options : Options) :
    (program.relocate f).pascal forest options = program.pascal forest options := by
  have body : (program.relocate f).statements ++ (((program.relocate f).main?).map (·.body)).getD [] =
      Node.relocateAll f (program.statements ++ (program.main?.map (·.body)).getD []) := by
    rw [main?_relocate, Node.relocateAll_eq_map, List.map_append, relocate, Node.relocateAll_eq_map]
    cases program.main? with
    | none => rfl
    | some main => exact congrArg (_ ++ ·) (Node.relocateAll_eq_map f main.body)
  have top := Node.routinesAll_relocate f forest options.optimize Forest.global program.statements
  unfold pascal
  simp only [mainScope?_relocate, mainRoutines_relocate, body, Node.linesAll_relocate]
  rw [relocate, top]

end Program

/-! ## Texts that read the same -/

namespace Fault

theorem detail_unexpected (c : Char) :
    (unexpected c).detail = "Unexpected character: '" ++ c.toString ++ "'" := rfl

theorem detail_incomplete (c : Char) (operator : String) : (incomplete c operator).detail =
    "Unexpected character: '" ++ c.toString ++ "', expected operator " ++ operator := rfl

theorem detail_unterminated (quote : Char) (body : String) : (unterminated quote body).detail =
    "Unterminated string literal: " ++ quote.toString ++ body := rfl

theorem detail_malformedNumber (text : String) : (malformedNumber text).detail =
    "Malformed numeric literal: '" ++ text ++ "'" := rfl

/-- Faults are told apart by their wording. -/
theorem detail_injective {x y : Fault} (same : x.detail = y.detail) : x = y := by
  have same := congrArg String.toList same
  cases x <;> cases y <;>
    simp only [detail_unexpected, detail_incomplete, detail_unterminated, detail_malformedNumber]
      at same <;>
    simp [String.toList_inj] at same ⊢ <;> exact same

end Fault

/-- A reading as it is worded: a token by its kind and text, an error by its detail. -/
def Lexer.wording : Except LexError Token → Except String (Kind × String)
  | .ok t => .ok t.content
  | .error e => .error e.fault.detail

/-- The wording of a text: that of its readings, but for the line feeds. -/
def Lexer.wordings (l : Lexer) : List (Except String (Kind × String)) :=
  l.significantItems.map wording

/-- The wording of an error tells its fault. -/
theorem Lexer.content_of_wording {x y : Except LexError Token} (same : wording x = wording y) :
    content x = content y := by
  cases x with
  | ok t =>
    cases y with
    | ok t' => exact congrArg Except.ok (Except.ok.inj same)
    | error e => nomatch same
  | error e =>
    cases y with
    | ok t' => nomatch same
    | error e' => exact congrArg Except.error (Fault.detail_injective (Except.error.inj same))

theorem Lexer.map_content_of_wording {xs ys : List (Except LexError Token)}
    (same : xs.map wording = ys.map wording) : xs.map content = ys.map content := by
  induction xs generalizing ys with
  | nil => rw [List.map_eq_nil_iff.1 same.symm]
  | cons x xs ih =>
    obtain ⟨y, ys, rfl, first, rest⟩ := List.map_eq_cons_iff.1 same.symm
    rw [List.map_cons, List.map_cons, content_of_wording first, ih rest.symm]

/-! ## Reading them -/

/-- A text has a first reading that counts, a lexical error or a token. -/
theorem Cursor.ofString_cases (source : String) :
    (∃ e, Cursor.ofString source = .error (.lexical e) ∧
      (Lexer.ofString source).significantItems = [.error e]) ∨
    ∃ c, Cursor.ofString source = .ok c ∧ c.ahead = (Lexer.ofString source).significantItems := by
  cases start : Cursor.ofString source with
  | ok c => exact .inr ⟨c, rfl, Cursor.ahead_ofString start⟩
  | error x =>
    left
    unfold Cursor.ofString at start
    split at start
    next => nomatch start
    next e l first =>
      refine ⟨e, by rw [← Except.error.inj start], ?_⟩
      rw [Lexer.significantItems_eq, first]
      rfl

/-- Both succeed, with what `same` relates, or both fail with errors of one sort and wording. -/
inductive Alike {α : Type} (same : α → α → Prop) : Except ParseError α → Except ParseError α → Prop
  | ok {a b : α} (values : same a b) : Alike same (.ok a) (.ok b)
  | lexical {e e' : LexError} (detail : e.fault.detail = e'.fault.detail) :
    Alike same (.error (.lexical e)) (.error (.lexical e'))
  | grammatical {e e' : SyntaxError} (detail : e.detail = e'.detail) :
    Alike same (.error (.grammatical e)) (.error (.grammatical e'))

/-- The value or error of a run. -/
def Parser.answer {α : Type} : EStateM.Result ParseError Cursor α → Except ParseError α
  | .ok a _ => .ok a
  | .error e _ => .error e

/-- Once the first token is read, the answer is that of the grammar. -/
theorem Program.parse_of_cursor {source : String} {c : Cursor} (start : Cursor.ofString source = .ok c) :
    Program.parse source = Parser.answer (Parser.program c) := by
  rw [Program.parse, start]
  show c.parse.1 = _
  rw [Cursor.parse, EStateM.run]
  cases Parser.program c <;> rfl

/-- A text is never refused because a bound was used up. -/
theorem Program.not_spent {source : String} {c : Cursor} (start : Cursor.ofString source = .ok c) :
    ¬ Parser.Spent (Parser.program c) := by
  rintro ⟨t, c', run⟩
  have refused : Program.parse source = .error (.grammatical (.exhausted t)) := by
    rw [Program.parse_of_cursor start, run]
    rfl
  exact (Program.stops_of_parse refused).1 t rfl

/-- A run that follows another to its end comes to the same. -/
theorem Parser.Follows.alike {α γ : Type} {g : α → γ} {n : Nat} {c d : Cursor}
    {x y : EStateM.Result ParseError Cursor α} (h : Follows g n c d x y) (whole : c.ahead.length < n)
    (ends : ¬ Spent x) (ends' : ¬ Spent y) : Alike (fun a b => g a = g b) (answer x) (answer y) := by
  match x, h with
  | .ok a c', h =>
    obtain ⟨w, took, follows⟩ := h
    have inside := took.length
    obtain spent | ⟨b, d', v, rfl, same, -⟩ := follows (by omega)
    · exact absurd spent ends'
    · exact .ok same
  | .error (.lexical e) c', h =>
    obtain ⟨w, ahead, follows⟩ := h
    have inside : w.length < c.ahead.length := by simp [ahead]
    obtain spent | ⟨e', d', rfl, same⟩ := follows (by omega)
    · exact absurd spent ends'
    · exact .lexical (congrArg Fault.detail same.symm)
  | .error (.grammatical e) c', h =>
    obtain ⟨t, rfl⟩ | ⟨w, r, ahead, follows⟩ := h
    · exact absurd ⟨t, c', rfl⟩ ends
    · have inside : w.length + 1 ≤ c.ahead.length := by
        rw [ahead, List.length_append, List.length_map, List.length_cons]
        omega
      obtain ⟨x', d', rfl, detail⟩ := follows (by omega)
      obtain spent | ⟨e', rfl, same⟩ := detail fun _ => by omega
      · exact absurd spent ends'
      · exact .grammatical same.symm

/-- Texts with one wording are the same program but for its locations, or refused alike. -/
theorem Program.parse_of_wording {source source' : String}
    (same : (Lexer.ofString source).wordings = (Lexer.ofString source').wordings) :
    Alike (fun p q => p.placeless = q.placeless) (Program.parse source) (Program.parse source') := by
  have contents := Lexer.map_content_of_wording same
  obtain ⟨e, start, stream⟩ | ⟨c, start, ahead⟩ := Cursor.ofString_cases source
  · obtain ⟨e', start', stream'⟩ | ⟨d, start', ahead'⟩ := Cursor.ofString_cases source'
    · rw [stream, stream'] at contents
      have fault : e.fault = e'.fault := by simpa using contents
      rw [Program.parse, Program.parse, start, start']
      exact .lexical (congrArg Fault.detail fault)
    · rw [stream, ← ahead'] at contents
      simp [Cursor.ahead] at contents
  · obtain ⟨e', start', stream'⟩ | ⟨d, start', ahead'⟩ := Cursor.ofString_cases source'
    · rw [stream', ← ahead] at contents
      simp [Cursor.ahead] at contents
    · have agree : Agree (c.ahead.length + 1) c d := by
        rw [Agree, List.map_take, List.map_take, ahead, ahead', contents]
      have follows := Parser.local_program _ c d agree
      rw [Program.parse_of_cursor start, Program.parse_of_cursor start']
      exact follows.alike (by omega) (Program.not_spent start) (Program.not_spent start')

/-! ## Layout -/

/-- Answers that are alike stay so under maps that keep what is the same. -/
theorem Alike.map {α β : Type} {same : α → α → Prop} {same' : β → β → Prop} {g : α → β}
    (keeps : ∀ a b, same a b → same' (g a) (g b)) {x y : Except ParseError α} (h : Alike same x y) :
    Alike same' (x.map g) (y.map g) := by
  cases h with
  | ok values => exact .ok (keeps _ _ values)
  | lexical detail => exact .lexical detail
  | grammatical detail => exact .grammatical detail

/-- Programs that differ in their locations only are compiled alike. -/
theorem Program.compile_of_placeless {p q : Program} (same : p.placeless = q.placeless)
    (options : Options) : (p.compile options).listing = (q.compile options).listing ∧
      (p.compile options).diagnostics.map (·.complaint) =
        (q.compile options).diagnostics.map (·.complaint) := by
  have analyses : p.analyze.relocate (fun _ => .start) = q.analyze.relocate (fun _ => .start) := by
    rw [← analyze_relocate, ← analyze_relocate]
    exact congrArg analyze same
  have forests : p.analyze.forest = q.analyze.forest := by
    simpa only [Analysis.forest_relocate] using congrArg Analysis.forest analyses
  constructor
  · show p.pascal p.analyze.forest options = q.pascal q.analyze.forest options
    rw [← pascal_relocate (fun _ => .start) p, ← pascal_relocate (fun _ => .start) q, forests]
    exact congrArg (pascal · q.analyze.forest options) same
  · show p.analyze.diagnostics.map _ = q.analyze.diagnostics.map _
    have complaints := congrArg (fun a => a.diagnostics.map (·.complaint)) analyses
    simpa [Analysis.relocate, Function.comp_def, Diagnostic.relocate] using complaints

/-- **Layout does not matter.** Two texts with the same wording, however it is laid out, both compile
or are both refused. If they compile, the listings are equal, with their texts, the variables left out
and the warnings, and the same complaints are made in the same order. If they are refused, it is for
errors of the same sort and in the same words. -/
theorem compile_of_wording {source source' : String}
    (same : (Lexer.ofString source).wordings = (Lexer.ofString source').wordings)
    (options : Options) :
    Alike (fun o o' => o.listing = o'.listing ∧
        o.diagnostics.map (·.complaint) = o'.diagnostics.map (·.complaint))
      (compile source options) (compile source' options) := by
  have compiled (text : String) : compile text options =
      (Program.parse text).map (·.compile options) := by
    unfold compile
    cases Program.parse text <;> rfl
  rw [compiled, compiled]
  exact (Program.parse_of_wording same).map fun p q h => Program.compile_of_placeless h options

/-- The same words on one line and on three, with other quotes and other blanks. The name that is not
declared and the end of the text are complained of at other places. -/
theorem compile_of_three_lines :
    let one := "x='a';"
    let three := "x\n\t= \"a\"\r\n;"
    (Lexer.ofString one).wordings = (Lexer.ofString three).wordings ∧
    Alike (fun o o' => o.listing = o'.listing ∧
        o.diagnostics.map (·.complaint) = o'.diagnostics.map (·.complaint))
      (compile one {}) (compile three {}) := by
  intro one three
  have same : (Lexer.ofString one).wordings = (Lexer.ofString three).wordings := by decide +kernel
  exact ⟨same, compile_of_wording same {}⟩

end Pascalize
