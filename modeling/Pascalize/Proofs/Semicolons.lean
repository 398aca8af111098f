import Pascalize.Proofs.KeptDeclarations
import Pascalize.Proofs.NextLines

/-!
# Semicolons and `else`

Whether a statement gets a semicolon is decided on the tree: an `else` that comes next, inert statements
aside, takes it away. What comes next in the lines is another matter, as there comments alone are passed
over. The two agree but for declarations without any initial value, which have no lines and are not inert.
So every statement that no `else` follows ends with a semicolon, and no line before an `else` does, exactly
if no such declarations part an `else` from the statement before it (`Node.Undivided`).
`Program.semicolons_pascal` says so of whole programs.
-/

namespace Pascalize

open Pascal

/-! ## Texts without a semicolon -/

namespace Pascal

/-- Texts put together end as the second does, or as the first if the second is empty. -/
theorem Unclosed.append {text text' : String} (first : Unclosed text) (second : Unclosed text') :
    Unclosed (text ++ text') := by
  unfold Unclosed at *
  rw [String.toList_append, List.getLast?_append]
  cases last : text'.toList.getLast? with
  | none => exact first
  | some c =>
    rw [last] at second
    exact second

/-- What stands before the last mark is no matter. -/
theorem Unclosed.mark (text : String) {mark : String} (some : mark.toList ≠ []) (h : Unclosed mark) :
    Unclosed (text ++ mark) := by
  unfold Unclosed at *
  rw [String.toList_append, List.getLast?_append, Option.or_of_isSome (List.getLast?_isSome.2 some)]
  exact h

theorem Unclosed.of_forall {text : String} (h : ∀ c ∈ text.toList, c ≠ ';') : Unclosed text := by
  intro last
  exact h ';' (List.mem_of_getLast? last) rfl

/-- Names and numbers hold no semicolon. -/
theorem unclosed_of_isName {text : String} (h : IsName text) : Unclosed text := by
  obtain ⟨c, rest, same, start, others⟩ := h.word
  refine .of_forall fun d member => ?_
  rw [same] at member
  rintro rfl
  obtain rfl | later := List.mem_cons.1 member
  · revert start
    decide
  · have := others ';' later
    revert this
    decide

theorem unclosed_of_isDigits {text : String} (h : ∀ d ∈ text.toList, d.isDigit = true ∨ d = '.') :
    Unclosed text := by
  refine .of_forall fun d member => ?_
  rintro rfl
  rcases h ';' member with digit | point
  · revert digit
    decide
  · nomatch point

/-- A group ends with its parenthesis. -/
theorem unclosed_parenthesized {text : String} (wanted : Bool) (h : Unclosed text) :
    Unclosed (parenthesized wanted text) := by
  cases wanted with
  | false => exact h
  | true => exact .mark _ (by decide) (by decide)

end Pascal

namespace Node

theorem IsLiteral.unclosed {e : Node} (h : e.IsLiteral) : Unclosed e.pascal := by
  cases h with
  | string text =>
    rw [pascal, quoted]
    exact .mark _ (by decide) (by decide)
  | integer digits => exact unclosed_of_isDigits fun d member => .inl (digits.digits d member)
  | @fraction text digits =>
    obtain ⟨whole, rest, same, isWhole, isRest⟩ := digits
    have own : Unclosed text := by
      refine unclosed_of_isDigits fun d member => ?_
      rw [same, List.mem_append, List.mem_cons] at member
      rcases member with inWhole | point | inRest
      · exact .inl (isWhole.digits d inWhole)
      · exact .inr point
      · exact .inl (isRest d inRest)
    rw [pascal, Pascal.fraction]
    split
    · exact own.append (by decide)
    · exact own

/-- No expression ends with a semicolon, by induction on the expression. A string ends with its quote. -/
theorem IsExpression.unclosed {e : Node} (h : e.IsExpression) : Unclosed e.pascal := by
  induction h with
  | @binary e e' op _ _ _ first second =>
    have symbol : Unclosed op.pascal := by cases op <;> decide
    have space : Unclosed " " := by decide
    have left := unclosed_parenthesized (needsGroup op false e) first
    have right := unclosed_parenthesized (needsGroup op true e') second
    rw [pascal]
    exact unclosed_parenthesized _ ((((left.append space).append symbol).append space).append right)
  | negation _ _ ih =>
    rw [pascal]
    exact .append (by decide) (unclosed_parenthesized _ ih)
  | complement _ _ ih =>
    rw [pascal]
    exact .append (by decide) (unclosed_parenthesized _ ih)
  | var named => exact unclosed_of_isName named
  | call =>
    rw [pascal]
    exact .mark _ (by decide) (by decide)
  | index =>
    rw [pascal]
    exact .mark _ (by decide) (by decide)
  | literal is => exact is.unclosed

theorem IsValue.unclosed {e : Node} (h : e.IsValue) : Unclosed e.pascal := by
  cases h with
  | expression is => exact is.unclosed
  | sequence =>
    rw [pascal]
    exact .mark _ (by decide) (by decide)

/-- A statement in one line ends as its value or its parenthesis does. -/
theorem IsStatement.unclosed_simpleText {s : Node} (h : s.IsStatement) {text : String}
    (is : s.simpleText? = some text) : Unclosed text := by
  cases h with
  | assignment named _ _ value =>
    obtain rfl := Option.some.inj is
    exact ((unclosed_of_isName named).append (by decide)).append value.unclosed
  | call | result | input | output =>
    obtain rfl := Option.some.inj is
    exact .mark _ (by decide) (by decide)
  | _ => nomatch is

/-! ## Lines of a statement -/

/-- Statements that have no lines, comments aside. -/
def isQuiet (node : Node) : Bool :=
  (node.lines true).all (·.content.isComment)

/-- The line that a statement ends with, comments aside. -/
def close? (semicolon : Bool) (node : Node) : Option Content :=
  ((node.lines semicolon).getLast?.map (·.content)).filter (!·.isComment)

/-- How a statement is written: as a comment or not at all, as lines in a row, or as a block. -/
inductive Form (s : Node) : Prop where
  | inert (is : s.isInert = true) (noBlock : s.block? = none) (comments : List String)
      (lines : ∀ semicolon, s.lines semicolon = comments.map fun text => ⟨0, .comment text⟩)
  | row (active : s.isInert = false) (noBlock : s.block? = none) (texts : List String)
      (lines : ∀ semicolon, s.lines semicolon = statementLines semicolon texts)
      (each : ∀ text ∈ texts, Unclosed text)
  | block (body : List Node) (isBody : s.block? = some body) (first : Content)
      (plain : first.isClose = false) (visible : first.isComment = false)
      (isElse : first = .otherwise ↔ s.isAlternative = true)
      (lines : ∀ semicolon, s.lines semicolon =
        ⟨0, first⟩ :: Line.block (linesAll body) (.blockEnd semicolon))

/-- **Every statement has one of the three forms.** -/
theorem IsStatement.form {s : Node} (h : s.IsStatement) : s.Form := by
  have single {text : String} (active : s.isInert = false) (noBlock : s.block? = none)
      (is : s.simpleText? = some text)
      (lines : ∀ semicolon, s.lines semicolon = statementLines semicolon [text]) : s.Form :=
    .row active noBlock [text] lines (List.forall_mem_singleton.2 (h.unclosed_simpleText is))
  cases h with
  | assignment | call | result | input | output => exact single rfl rfl rfl fun _ => rfl
  | declaration | function => exact .inert rfl rfl [] fun _ => rfl
  | comment text => exact .inert rfl rfl [text] fun _ => rfl
  | @declarations decl items location first more each =>
    refine .row rfl rfl (items.filterMap simpleText?) (fun semicolon => ?_) fun text member => ?_
    · show statementLines semicolon (items.filterMap assignmentText?) = _
      rw [filterMap_assignmentText? each]
    · obtain ⟨item, inside, is⟩ := List.mem_filterMap.1 member
      exact (each item inside).isStatement.unclosed_simpleText is
  | conditional | loop => exact .block _ rfl _ rfl rfl (by simp [isAlternative]) fun _ => rfl
  | alternative => exact .block _ rfl _ rfl rfl (by simp [isAlternative]) fun _ => rfl

/-- Only the last of statements in a row may lack its semicolon. -/
theorem getLast?_statementLines (semicolon : Bool) (texts : List String) :
    (statementLines semicolon texts).getLast? =
      texts.getLast?.map fun text => ⟨0, .statement text semicolon⟩ := by
  induction texts with
  | nil => rfl
  | cons text texts ih =>
    cases texts with
    | nil => rfl
    | cons text' texts =>
      rw [statementLines, List.getLast?_cons_cons, ← ih]
      · cases texts <;> simp [statementLines]
      · simp

/-! What a statement ends with, for each of the three forms. -/

/-- A comment ends nothing. -/
theorem close?_of_comments {s : Node} {semicolon : Bool} {comments : List String}
    (lines : s.lines semicolon = comments.map fun text => ⟨0, .comment text⟩) :
    s.close? semicolon = none := by
  rw [close?, lines, List.getLast?_map]
  cases comments.getLast? <;> rfl

theorem close?_of_row {s : Node} {semicolon : Bool} {texts : List String}
    (lines : s.lines semicolon = statementLines semicolon texts) :
    s.close? semicolon = texts.getLast?.map (.statement · semicolon) := by
  rw [close?, lines, getLast?_statementLines]
  cases texts.getLast? <;> rfl

theorem close?_of_block {s : Node} {semicolon : Bool} {first : Content} {inside : List Line}
    (lines : s.lines semicolon = ⟨0, first⟩ :: Line.block inside (.blockEnd semicolon)) :
    s.close? semicolon = some (.blockEnd semicolon) := by
  rw [close?, lines, Line.block, ← List.cons_append, ← List.cons_append, List.getLast?_concat]
  rfl

theorem isAlternative_of_block? {s : Node} (noBlock : s.block? = none) : s.isAlternative = false := by
  cases s <;> first | rfl | nomatch noBlock

/-- The semicolon that is added is the one that ends the text. -/
theorem unclosed_terminator {text : String} (h : Unclosed text) (semicolon : Bool) :
    Unclosed (text ++ terminator semicolon) ↔ semicolon = false := by
  cases semicolon with
  | false => exact iff_of_true (h.append (by decide)) rfl
  | true =>
    refine iff_of_false (fun unclosed => unclosed ?_) nofun
    simp [terminator]

namespace Form

variable {Q : Content → Bool → Prop} {s : Node}

/-- A statement ends with a line that ends as asked for. -/
theorem close (form : s.Form) {semicolon : Bool} {c : Content} (is : s.close? semicolon = some c) :
    c.isComment = false ∧ c.isClose = true ∧ (Unclosed c.text ↔ semicolon = false) := by
  cases form with
  | inert _ _ comments lines =>
    rw [close?_of_comments (lines semicolon)] at is
    nomatch is
  | row _ _ texts lines each =>
    rw [close?_of_row (lines semicolon), Option.map_eq_some_iff] at is
    obtain ⟨text, last, rfl⟩ := is
    exact ⟨rfl, rfl, unclosed_terminator (each text (List.mem_of_getLast? last)) semicolon⟩
  | block body _ first _ _ _ lines =>
    rw [close?_of_block (lines semicolon)] at is
    obtain rfl := Option.some.inj is
    exact ⟨rfl, rfl, unclosed_terminator (by decide) semicolon⟩

/-- The lines of a statement before others: its last line with what comes next, its block, and the
others. -/
theorem each (form : s.Form) (h : Lenient Q) (semicolon : Bool) (more : List Line) :
    Each Q (s.lines semicolon ++ more) ↔ (∀ c ∈ s.close? semicolon, Q c (elseNext 0 more)) ∧
      (∀ body ∈ s.block?, Each Q (linesAll body)) ∧ Each Q more := by
  cases form with
  | inert _ noBlock comments lines =>
    rw [close?_of_comments (lines semicolon), noBlock, lines, h.each_comments]
    simp
  | row _ noBlock texts lines =>
    rw [close?_of_row (lines semicolon), noBlock, lines, h.each_statementLines]
    simp
  | block body isBody first plain visible _ lines =>
    have alone : elseNext 0 (Line.block (linesAll body) (.blockEnd semicolon) ++ more) = false := rfl
    rw [close?_of_block (lines semicolon), isBody, lines, List.cons_append, each_cons, alone,
      h.each_block rfl (by simp), and_iff_right (h.plain first plain)]
    simp only [Option.mem_some_iff, forall_eq']
    exact and_left_comm

/-- The first line of a statement, comments aside, is `else` if the statement is an `else` block. -/
theorem elseNext (form : s.Form) (semicolon : Bool) (more : List Line) :
    Pascal.elseNext 0 (s.lines semicolon ++ more) =
      if s.isQuiet then Pascal.elseNext 0 more else s.isAlternative := by
  cases form with
  | inert _ _ comments lines =>
    have quiet : s.isQuiet = true := by
      rw [isQuiet, lines]
      simp [Content.isComment]
    rw [lines, elseNext_comments, quiet, if_pos rfl]
  | row _ noBlock texts lines =>
    rw [isQuiet, lines, lines, isAlternative_of_block? noBlock]
    rcases texts with _ | ⟨text, _ | ⟨text', texts⟩⟩
    · rfl
    · rfl
    · rfl
  | block body _ first _ visible isElse lines =>
    have loud : s.isQuiet = false := by
      rw [isQuiet, lines, List.all_cons, visible, Bool.false_and]
    have found : Pascal.elseNext 0 (s.lines semicolon ++ more) = decide (first = .otherwise) := by
      rw [lines, List.cons_append, Pascal.elseNext, List.find?_cons_of_pos (by simp [visible])]
      simp
    rw [found, loud, if_neg Bool.false_ne_true]
    simp [isElse]

/-- A statement ends with a line exactly if it is not quiet. -/
theorem isSome_close? (form : s.Form) (semicolon : Bool) : (s.close? semicolon).isSome = !s.isQuiet := by
  cases form with
  | inert _ _ comments lines =>
    rw [close?_of_comments (lines semicolon), isQuiet, lines]
    simp [Content.isComment]
  | row _ _ texts lines =>
    rw [close?_of_row (lines semicolon), isQuiet, lines]
    rcases texts with _ | ⟨text, _ | ⟨text', texts⟩⟩
    · rfl
    · rfl
    · simp [statementLines, Content.isComment]
  | block _ _ first _ visible _ lines =>
    rw [close?_of_block (lines semicolon), isQuiet, lines, List.all_cons, visible]
    rfl

end Form

/-! ## Statements in turn -/

/-- Whether the first line of statements, comments aside, is `else`. -/
def elseLeads (nodes : List Node) : Bool :=
  (nodes.find? (!·.isQuiet)).any isAlternative

/-- What leads the lines of statements is what leads the statements. -/
theorem elseNext_linesAll {nodes : List Node} (shapes : ∀ s ∈ nodes, s.IsStatement) :
    elseNext 0 (linesAll nodes) = elseLeads nodes := by
  induction nodes with
  | nil => rfl
  | cons s rest ih =>
    rw [List.forall_mem_cons] at shapes
    rw [linesAll, shapes.1.form.elseNext, ih shapes.2]
    cases quiet : s.isQuiet with
    | true => simp [elseLeads, quiet]
    | false => simp [elseLeads, quiet]

section

variable {Q : Content → Bool → Prop}

/-- The lines that statements end with are as `Q` asks. -/
def Settled (Q : Content → Bool → Prop) (nodes : List Node) : Prop :=
  ∀ s rest, s :: rest <:+ nodes → ∀ c ∈ s.close? (!elseFollows rest), Q c (elseLeads rest)

/-- The first statement with what follows it, and the others. -/
theorem settled_cons {s : Node} {rest : List Node} : Settled Q (s :: rest) ↔
    (∀ c ∈ s.close? (!elseFollows rest), Q c (elseLeads rest)) ∧ Settled Q rest := by
  constructor
  · intro h
    refine ⟨h s rest List.suffix_rfl, fun s' rest' suffix => ?_⟩
    exact h s' rest' (suffix.trans (List.suffix_cons s rest))
  · rintro ⟨first, others⟩ s' rest' suffix
    rcases List.suffix_cons_iff.1 suffix with same | later
    · obtain ⟨rfl, rfl⟩ := List.cons.inj same
      exact first
    · exact others s' rest' later

/-- Statements in turn: how each ends, and what is in their blocks. -/
theorem each_linesAll (h : Lenient Q) {nodes : List Node} (shapes : ∀ s ∈ nodes, s.IsStatement) :
    Each Q (linesAll nodes) ↔
      Settled Q nodes ∧ ∀ s ∈ nodes, ∀ body ∈ s.block?, Each Q (linesAll body) := by
  induction nodes with
  | nil =>
    refine iff_of_true each_nil ⟨fun s rest suffix => ?_, fun _ no => nomatch no⟩
    nomatch List.suffix_nil.1 suffix
  | cons s rest ih =>
    rw [List.forall_mem_cons] at shapes
    rw [linesAll, shapes.1.form.each h, ih shapes.2, elseNext_linesAll shapes.2, settled_cons,
      List.forall_mem_cons]
    constructor
    · rintro ⟨first, inside, others, insides⟩
      exact ⟨⟨first, others⟩, inside, insides⟩
    · rintro ⟨⟨first, others⟩, inside, insides⟩
      exact ⟨first, inside, others, insides⟩

/-- What holds at every depth holds of the statements and at every depth of their blocks. -/
theorem forall_inside_iff {P : List Node → Prop} {nodes : List Node} :
    (∀ block, Inside block nodes → P block) ↔
      P nodes ∧ ∀ s ∈ nodes, ∀ body ∈ s.block?, ∀ block, Inside block body → P block := by
  constructor
  · intro h
    exact ⟨h nodes (.self nodes), fun s member body isBody block inside => h block (.under member isBody inside)⟩
  · rintro ⟨here, below⟩ block inside
    cases inside with
    | self => exact here
    | under member isBody inside => exact below _ member _ isBody block inside

/-- The lines at every depth, if those in the blocks are known. -/
theorem each_linesAll_of_blocks (h : Lenient Q) {nodes : List Node} (shapes : ∀ s ∈ nodes, s.IsStatement)
    (below : ∀ s ∈ nodes, ∀ body ∈ s.block?,
      (Each Q (linesAll body) ↔ ∀ block, Inside block body → Settled Q block)) :
    Each Q (linesAll nodes) ↔ ∀ block, Inside block nodes → Settled Q block := by
  rw [each_linesAll h shapes, forall_inside_iff]
  refine and_congr_right fun _ => forall₂_congr fun s member => forall₂_congr fun body isBody => ?_
  exact below s member body isBody

/-- The lines in a block, at every depth, by induction on the statement. -/
theorem IsStatement.each_block (h : Lenient Q) {s : Node} (shape : s.IsStatement) :
    ∀ body ∈ s.block?, (Each Q (linesAll body) ↔ ∀ block, Inside block body → Settled Q block) := by
  induction shape with
  | conditional _ _ statements ih | loop _ _ statements ih | alternative _ statements ih =>
    rintro _ ⟨⟩
    exact each_linesAll_of_blocks h statements ih
  | _ => exact fun _ isBody => nomatch isBody

/-- **The lines of statements** are as asked exactly if those that statements end with are, at every
depth. -/
theorem each_linesAll_iff (h : Lenient Q) {nodes : List Node} (shapes : ∀ s ∈ nodes, s.IsStatement) :
    Each Q (linesAll nodes) ↔ ∀ block, Inside block nodes → Settled Q block :=
  each_linesAll_of_blocks h shapes fun s member => (shapes s member).each_block h

/-- What stands in blocks at any depth are statements. -/
theorem IsStatement.of_inside {block nodes : List Node} (inside : Inside block nodes)
    (shapes : ∀ s ∈ nodes, s.IsStatement) : ∀ s ∈ block, s.IsStatement := by
  induction inside with
  | self => exact shapes
  | under member isBody _ ih => exact ih ((shapes _ member).of_block isBody)

end

/-! ## Statements that have no lines -/

/-- At every depth, the statements without lines that stand between an `else` and the latest statement
with lines are inert. -/
def Undivided (nodes : List Node) : Prop :=
  ∀ block, Inside block nodes → ∀ s between body location after,
    s :: (between ++ .alternative body location :: after) <:+ block → s.isQuiet = false →
    (∀ x ∈ between, x.isQuiet = true) → ∀ x ∈ between, x.isInert = true

/-- Statements without lines that are not inert are declarations without initial values. -/
theorem IsStatement.idle {s : Node} (h : s.IsStatement) (quiet : s.isQuiet = true)
    (active : s.isInert = false) :
    ∃ items location, s = .declarations items location ∧ items.filterMap assignmentText? = [] := by
  cases h with
  | @declarations decl items location =>
    refine ⟨_, location, rfl, ?_⟩
    show items.filterMap assignmentText? = []
    cases texts : items.filterMap assignmentText? with
    | nil => rfl
    | cons text more =>
      have row : lines true (.declarations (.declaration decl :: items) location) =
          statementLines true (text :: more) := congrArg (statementLines true) texts
      rw [isQuiet, row] at quiet
      cases more <;> nomatch quiet
  | declaration | function | comment => nomatch active
  | _ => nomatch quiet

theorem isAlternative_of_isQuiet {node : Node} (quiet : node.isQuiet = true) : node.isAlternative = false := by
  cases node <;> first | rfl | nomatch quiet

/-- Inert statements have no lines but comments. -/
theorem isQuiet_of_isInert {node : Node} (inert : node.isInert = true) : node.isQuiet = true := by
  cases node <;> first | rfl | nomatch inert

/-- An `else` behind quiet statements is seen from before them exactly if all of them are inert. -/
theorem elseFollows_append {between : List Node} (quiet : ∀ x ∈ between, x.isQuiet = true)
    (body : List Node) (location : Location) (after : List Node) :
    elseFollows (between ++ .alternative body location :: after) = between.all isInert := by
  induction between with
  | nil => rfl
  | cons x between ih =>
    rw [List.forall_mem_cons] at quiet
    rw [List.cons_append, elseFollows_cons, ih quiet.2, isAlternative_of_isQuiet quiet.1, List.all_cons]
    cases x.isInert <;> rfl

/-- An `else` leads statements if only quiet ones stand before it. -/
theorem elseLeads_iff {nodes : List Node} : elseLeads nodes = true ↔ ∃ between body location after,
    nodes = between ++ Node.alternative body location :: after ∧ ∀ x ∈ between, x.isQuiet = true := by
  rw [elseLeads, Option.any_eq_true]
  constructor
  · rintro ⟨node, found, isElse⟩
    obtain ⟨-, between, after, same, quiet⟩ := List.find?_eq_some_iff_append.1 found
    cases node with
    | alternative body location => exact ⟨between, body, location, after, same, by simpa using quiet⟩
    | _ => nomatch isElse
  · rintro ⟨between, body, location, after, rfl, quiet⟩
    refine ⟨.alternative body location, List.find?_eq_some_iff_append.2 ⟨rfl, between, after, rfl, ?_⟩, rfl⟩
    simpa using quiet

/-- If an `else` follows inert statements, it follows comments. -/
theorem elseLeads_of_elseFollows {nodes : List Node} (h : elseFollows nodes = true) :
    elseLeads nodes = true := by
  induction nodes with
  | nil => nomatch h
  | cons node rest ih =>
    rw [elseFollows_cons] at h
    split at h
    next inert =>
      have quiet := isQuiet_of_isInert inert
      simpa [elseLeads, quiet] using ih h
    next =>
      have loud : node.isQuiet = false := by
        rw [← Bool.not_eq_true]
        intro quiet
        rw [isAlternative_of_isQuiet quiet] at h
        nomatch h
      simp [elseLeads, loud, h]

/-- A statement lacks its semicolon only if an `else` follows on the tree, and that one leads the lines
after it. -/
theorem statementsClosed_linesAll {nodes : List Node} (shapes : ∀ s ∈ nodes, s.IsStatement) :
    StatementsClosed (linesAll nodes) := by
  rw [statementsClosed_iff, each_linesAll_iff lenient_closedElsewhere shapes]
  intro block inside s rest suffix c isClose _ noElse unclosed
  have shape := IsStatement.of_inside inside shapes s (suffix.subset List.mem_cons_self)
  have follows : elseFollows rest = true := by
    simpa using (shape.form.close isClose).2.2.1 unclosed
  rw [elseLeads_of_elseFollows follows] at noElse
  nomatch noElse

/-- An `else` that leads the lines follows on the tree exactly if nothing parts it from the statement
before it. -/
theorem elsesOpen_linesAll {nodes : List Node} (shapes : ∀ s ∈ nodes, s.IsStatement) :
    ElsesOpen (linesAll nodes) ↔ Undivided nodes := by
  rw [elsesOpen_iff, each_linesAll_iff lenient_openBeforeElse shapes]
  refine forall₂_congr fun block inside => ⟨fun settled => ?_, fun whole => ?_⟩
  · intro s between body location after suffix loud quiet
    have form := (IsStatement.of_inside inside shapes s (suffix.subset List.mem_cons_self)).form
    obtain ⟨c, isClose⟩ := Option.isSome_iff_exists.1
      ((form.isSome_close? (!elseFollows (between ++ .alternative body location :: after))).trans (by rw [loud]; rfl))
    obtain ⟨visible, -, unclosed⟩ := form.close isClose
    have leads := elseLeads_iff.2 ⟨between, body, location, after, rfl, quiet⟩
    have follows := unclosed.1 (settled s _ suffix c isClose visible leads)
    rw [elseFollows_append quiet] at follows
    simpa using follows
  · intro s rest suffix c isClose _ leads
    have form := (IsStatement.of_inside inside shapes s (suffix.subset List.mem_cons_self)).form
    have loud : s.isQuiet = false := by
      have some := form.isSome_close? (!elseFollows rest)
      rw [isClose] at some
      simpa using some.symm
    obtain ⟨between, body, location, after, rfl, quiet⟩ := elseLeads_iff.1 leads
    have inert := whole s between body location after suffix loud quiet
    rw [(form.close isClose).2.2, elseFollows_append quiet]
    simpa using inert

end Node

/-! ## Whole programs -/

namespace Scoping

variable {Q : Content → Bool → Prop} {f : Forest} {optimize : Bool}

mutual

/-- The lines of a routine are those of the functions in it, at any depth. -/
theorem each_routine (h : Lenient Q) (s : Scoping) : Each Q (s.routine f optimize).lines ↔
    ∀ t ∈ s.all, Each Q (Node.linesAll t.definition.body) := by
  obtain ⟨d, outside, own, inner⟩ := s
  rw [routine, h.each_routine, each_routines h inner, all, List.forall_mem_cons, and_comm]
  rfl

theorem each_routines (h : Lenient Q) (l : List Scoping) : (∀ r ∈ routines f optimize l, Each Q r.lines) ↔
    ∀ t ∈ allOf l, Each Q (Node.linesAll t.definition.body) := by
  cases l with
  | nil => exact iff_of_true (fun _ no => nomatch no) (fun _ no => nomatch no)
  | cons s rest =>
    rw [routines, List.forall_mem_cons, each_routine h s, each_routines h rest, allOf, List.forall_mem_append]

end

mutual

/-- To every function inside another one leads a path. -/
theorem nested_of_mem_all {l : List Scoping} {t : Scoping} (s : Scoping) {outer : List Scoping}
    (around : Nested inner l (s :: outer)) (member : t ∈ s.all) : ∃ outer', Nested inner l (t :: outer') := by
  obtain ⟨d, outside, own, functions⟩ := s
  rw [all, List.mem_cons] at member
  obtain rfl | inside := member
  · exact ⟨outer, around⟩
  · exact nested_of_mem_allOf functions (fun x there => ⟨_, .inside around there⟩) inside

theorem nested_of_mem_allOf {l : List Scoping} {t : Scoping} (functions : List Scoping)
    (around : ∀ x ∈ functions, ∃ outer, Nested inner l (x :: outer)) (member : t ∈ allOf functions) :
    ∃ outer, Nested inner l (t :: outer) := by
  cases functions with
  | nil => nomatch member
  | cons s rest =>
    rw [List.forall_mem_cons] at around
    rw [allOf, List.mem_append] at member
    obtain here | later := member
    · obtain ⟨outer, nested⟩ := around.1
      exact nested_of_mem_all s nested here
    · exact nested_of_mem_allOf rest around.2 later

end

/-- All functions, at any depth, are those that paths lead to. -/
theorem mem_allOf_iff {l : List Scoping} {t : Scoping} :
    t ∈ allOf l ↔ ∃ outer, Nested inner l (t :: outer) := by
  constructor
  · exact nested_of_mem_allOf l fun x there => ⟨[], .top there⟩
  · rintro ⟨outer, nested⟩
    generalize same : t :: outer = path at nested
    induction nested generalizing t outer with
    | top member =>
      obtain ⟨rfl, -⟩ := List.cons.inj same
      exact mem_allOf member
    | inside _ member ih =>
      obtain ⟨rfl, -⟩ := List.cons.inj same
      exact mem_allOf_of_inner l (ih _ rfl) member

end Scoping

namespace Program

variable {source : String} {program : Program}

/-- The lines of a program are those of the statements that stand together. -/
theorem each_pascal {Q : Content → Bool → Prop} (h : Lenient Q) (f : Forest) (options : Options) :
    Each Q (program.pascal f options).lines ↔ ∀ nodes lines scopes path,
      program.Stands f options nodes lines scopes path → Each Q lines := by
  rw [h.each_listing, routines_pascal, ← Scoping.routines_eq_map, Scoping.each_routines h]
  constructor
  · rintro ⟨functions, body⟩ nodes lines scopes path stands
    have is := stands.linesAll
    cases stands with
    | program => exact body
    | @function s outer _ _ _ _ _ nested =>
      rw [is]
      exact functions s (Scoping.mem_allOf_iff.2 ⟨outer, nested⟩)
  · intro all
    refine ⟨fun s member => ?_, all _ _ _ _ .program⟩
    obtain ⟨outer, nested⟩ := Scoping.mem_allOf_iff.1 member
    obtain ⟨d, outside, own, inner⟩ := s
    exact all _ _ _ _ (.function nested rfl)

/-- **Semicolons around `else`**: every statement that no `else` follows ends with a semicolon. No line
before an `else` does exactly if no statements without lines part an `else` from the statement before it,
inert ones aside, and these are declarations without any initial value. -/
theorem semicolons_pascal (parsed : parse source = .ok program) (f : Forest) (options : Options) :
    StatementsClosed (program.pascal f options).lines ∧
      (ElsesOpen (program.pascal f options).lines ↔ ∀ nodes lines scopes path,
        program.Stands f options nodes lines scopes path → Node.Undivided nodes) ∧
      ∀ nodes lines scopes path, program.Stands f options nodes lines scopes path →
        ∀ block, Node.Inside block nodes → ∀ s ∈ block, s.isQuiet = true → s.isInert = false →
          ∃ items location, s = .declarations items location ∧
            items.filterMap Node.assignmentText? = [] := by
  refine ⟨?_, ?_, ?_⟩
  · rw [statementsClosed_iff, each_pascal lenient_closedElsewhere]
    intro nodes lines scopes path stands
    rw [stands.linesAll, ← statementsClosed_iff]
    exact Node.statementsClosed_linesAll (stands.isStatement parsed)
  · rw [elsesOpen_iff, each_pascal lenient_openBeforeElse]
    refine forall₄_congr fun nodes lines scopes path => forall_congr' fun stands => ?_
    rw [stands.linesAll, ← elsesOpen_iff]
    exact Node.elsesOpen_linesAll (stands.isStatement parsed)
  · intro nodes lines scopes path stands block inside s member quiet active
    exact (Node.IsStatement.of_inside inside (stands.isStatement parsed) s member).idle quiet active

/-- A declaration and a comment do not part an `else` from its conditional. -/
theorem semicolons_around_declaration : ∃ program,
    parse "if (a) { } int b; // or\nelse { }" = .ok program ∧
    StatementsClosed (program.pascal program.analyze.forest {}).lines ∧
    (ElsesOpen (program.pascal program.analyze.forest {}).lines ↔ ∀ nodes lines scopes path,
      program.Stands program.analyze.forest {} nodes lines scopes path → Node.Undivided nodes) ∧
    (program.pascal program.analyze.forest {}).body.map (·.content.text) =
      ["if a then", "begin", "end", "\x7b or \x7d", "else", "begin", "end;"] := by
  let program : Program := ⟨[.conditional (.var "a" ⟨1, 5⟩) [] ⟨1, 1⟩,
    .declaration ⟨⟨"int", none, ⟨1, 12⟩⟩, "b", false, ⟨1, 16⟩⟩, .comment " or" ⟨1, 19⟩,
    .alternative [] ⟨2, 1⟩], ⟨2, 9⟩⟩
  have parsed : parse "if (a) { } int b; // or\nelse { }" = .ok program :=
    (parse_ofList _).trans (by decide +kernel)
  obtain ⟨closed, open', -⟩ := semicolons_pascal parsed program.analyze.forest {}
  exact ⟨program, parsed, closed, open', by decide⟩

/-- Declarations without initial values do. -/
theorem not_elsesOpen_declarations : ∃ program,
    parse "int main() { int x; if (x) { } int a, b; else { } }" = .ok program ∧
    program.analyze.diagnostics = [] ∧ ¬ ElsesOpen (program.pascal program.analyze.forest {}).lines := by
  let program : Program := ⟨[.function "int" "main" [] [
    .declaration ⟨⟨"int", none, ⟨1, 14⟩⟩, "x", false, ⟨1, 18⟩⟩,
    .conditional (.var "x" ⟨1, 25⟩) [] ⟨1, 21⟩,
    .declarations [.declaration ⟨⟨"int", none, ⟨1, 32⟩⟩, "a", false, ⟨1, 36⟩⟩,
      .declaration ⟨⟨"int", none, ⟨1, 32⟩⟩, "b", false, ⟨1, 39⟩⟩] ⟨1, 36⟩,
    .alternative [] ⟨1, 42⟩] ⟨1, 5⟩], ⟨1, 52⟩⟩
  have parsed : parse "int main() { int x; if (x) { } int a, b; else { } }" = .ok program :=
    (parse_ofList _).trans (by decide +kernel)
  refine ⟨program, parsed, by decide, fun elsesOpen => ?_⟩
  have suffix : [⟨1, .blockEnd true⟩, ⟨1, .otherwise⟩, ⟨1, .begin⟩, ⟨1, .blockEnd true⟩,
      ⟨0, .programEnd "translated"⟩] <:+ (program.pascal program.analyze.forest {}).lines :=
    List.isSuffixOf_iff_suffix.1 (by decide)
  exact elsesOpen _ _ suffix rfl rfl rfl

end Program

end Pascalize
