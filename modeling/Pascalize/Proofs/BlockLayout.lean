import Pascalize.Proofs.ClosedComments
import Pascalize.Proofs.Indentation
import Pascalize.Proofs.SectionReading

/-!
# The layout of a program

The lines of a program, one after the other, are enough to see how it nests. Each kind of line either
stands loose, closes a block or heads a function, and its text tells which (`Content.loose_statement`
and those beside it): that no statement of a parsed program reads as `begin`, as an end or as a heading
is where names such as `begin` and `procedure` matter. From there the lines of statements, of routines
and of the program are in order, whatever scopes the variables come from (`Program.layout_pascal`).
-/

namespace Pascalize

namespace Pascal

open Lexeme

/-! ## Single lines -/

/-- What ends a block is the word `end` with nothing, a semicolon or a point behind it. -/
theorem EndText.cut {text : String} (h : EndText text) :
    ∃ rest, text.toList = "end".toList ++ rest ∧ ∀ c ∈ rest.head?, c = ';' ∨ c = '.' := by
  cases h with
  | plain => exact ⟨[], rfl, by simp⟩
  | statement => exact ⟨[';'], rfl, by simp⟩
  | routine name => exact ⟨';' :: (endRemark name).toList, by simp, by simp⟩
  | program name => exact ⟨'.' :: (endRemark name).toList, by simp, by simp⟩

/-- What follows the word at the start of an end. -/
theorem EndText.follow {text : String} (h : EndText text) :
    ∀ c ∈ (text.toList.dropWhile isWordRest).head?, c = ';' ∨ c = '.' := by
  obtain ⟨rest, isText, first⟩ := h.cut
  have stop : ∀ c ∈ rest.head?, isWordRest c = false := by
    intro c member
    obtain rfl | rfl := first c member <;> decide
  have word : ∀ d ∈ "end".toList, isWordRest d = true := List.all_eq_true.1 rfl
  have follow := (takeWhile_of_stop rest word stop).2
  rwa [isText, follow]

/-- A line that starts with a word, or with none, and then has neither a semicolon nor a point. -/
theorem unblocked_of_follow {text : String} {word : List Char} {c : Char} {rest : List Char}
    (isText : text.toList = word ++ c :: rest) (isWord : ∀ d ∈ word, isWordRest d = true)
    (stop : isWordRest c = false) (starts : ∀ d ∈ text.toList.head?, d ≠ ' ')
    (other : c ≠ ';' ∧ c ≠ '.') : indentation text = 0 ∧ Unblocked text := by
  obtain ⟨same, flush⟩ := unindented_of_head starts
  have follow := (takeWhile_of_stop (c :: rest) isWord (by simpa using stop)).2
  rw [← isText] at follow
  refine ⟨flush, ?_⟩
  rw [Unblocked, same]
  constructor
  · intro begins
    have none : "begin".toList.dropWhile isWordRest = [] := by decide
    rw [begins, none] at follow
    cases follow
  · intro ends
    have first := ends.follow c (by rw [follow]; rfl)
    exact first.elim other.1 other.2

/-- A line with a word in front is neither `begin` nor an end if something else follows the word than
after `end`. -/
theorem unblocked_of_word {text key : String} {c : Char} {rest : List Char}
    (isText : text.toList = key.toList ++ c :: rest) (word : IsWord key.toList)
    (stop : isWordRest c = false) (other : c ≠ ';' ∧ c ≠ '.') :
    indentation text = 0 ∧ Unblocked text := by
  refine unblocked_of_follow isText (Wordlike.of_isWord word) stop ?_ other
  obtain ⟨d, more, same, start, -⟩ := word
  rw [isText, same]
  rintro _ ⟨rfl⟩ rfl
  exact absurd start (by decide)

namespace Content

/-- A line that heads nothing by what it says stands loose. -/
theorem loose_of_says {content : Content} {notice : Notice}
    (h : indentation content.text = 0 ∧ Unblocked content.text) (told : content.Says notice)
    (heads : ∀ heading, notice ≠ .heading heading) : Loose content.text := by
  have told := told 0
  rw [Line.text_zero] at told
  exact ⟨h.1, h.2, by rwa [told]⟩

theorem loose_program (name : String) : Loose (program name).text := by
  have isText : (program name).text.toList = "program".toList ++ ' ' :: (name.toList ++ [';']) := by
    simp [text]
  have word : IsWord "program".toList := ⟨'p', _, rfl, by decide, List.all_eq_true.1 rfl⟩
  have told := says_of_word isText word (by decide)
  exact loose_of_says (unblocked_of_word isText word (by decide) (by decide)) told (by simp [noticeOf])

theorem loose_var (v : Variable) : Loose (var v).text := by
  have isText : (var v).text.toList = "var".toList ++ ' ' :: (v.chars ++ [';']) := by
    simp [text, Variable.chars]
  have word : IsWord "var".toList := ⟨'v', _, rfl, by decide, List.all_eq_true.1 rfl⟩
  have told := says_of_word isText word (by decide)
  refine loose_of_says (unblocked_of_word isText word (by decide) (by decide)) told fun heading => ?_
  rw [noticeOf, if_pos rfl]
  cases (between? [] ";".toList (v.chars ++ [';'])).bind readVariable? <;> simp

/-- A condition is written after the word and a blank, so the word is no `begin`. -/
theorem loose_ifThen (condition : String) : Loose (ifThen condition).text := by
  have isText : (ifThen condition).text.toList =
      "if".toList ++ ' ' :: (condition.toList ++ " then".toList) := by simp [text]
  have word : IsWord "if".toList := ⟨'i', _, rfl, by decide, List.all_eq_true.1 rfl⟩
  exact loose_of_says (unblocked_of_word isText word (by decide) (by decide)) (says_ifThen condition)
    (by simp)

theorem loose_whileDo (condition : String) : Loose (whileDo condition).text := by
  have isText : (whileDo condition).text.toList =
      "while".toList ++ ' ' :: (condition.toList ++ " do".toList) := by simp [text]
  have word : IsWord "while".toList := ⟨'w', _, rfl, by decide, List.all_eq_true.1 rfl⟩
  exact loose_of_says (unblocked_of_word isText word (by decide) (by decide)) (says_whileDo condition)
    (by simp)

theorem loose_otherwise : Loose otherwise.text where
  flush := by decide
  unblocked := ⟨by decide, fun ends => absurd ends.starts (by decide)⟩
  heads := by simp [show readNotice otherwise.text = .other by decide]

theorem loose_blank : Loose blank.text where
  flush := by decide
  unblocked := ⟨by decide, fun ends => absurd ends.starts (by decide)⟩
  heads := by simp [show readNotice blank.text = .other by decide]

/-- A comment starts with a brace or a parenthesis. -/
theorem loose_comment (remark : String) : Loose (comment remark).text := by
  have loose {c : Char} {rest : List Char} (isText : (comment remark).text.toList = c :: rest)
      (opens : c = '(' ∨ c = '\x7b') : Loose (comment remark).text := by
    have none : ∀ d ∈ ([] : List Char), isWordRest d = true := by simp
    have told := says_comment remark
    obtain rfl | rfl := opens <;>
      exact loose_of_says (unblocked_of_follow isText none (by decide) (by simp [isText]) (by decide))
        told (by simp)
  by_cases closes : '\x7d' ∈ (Text.trim remark).toList
  · exact loose (commentText_of_mem closes) (.inl rfl)
  · exact loose (commentText_of_not_mem closes) (.inr rfl)

/-- **A statement stands loose** also if it assigns to a name such as `begin` or calls one such as `end`.
-/
theorem loose_statement {text : String} (h : IsAction text.toList) (semicolon : Bool) :
    Loose (statement text semicolon).text := by
  have told := says_statement h semicolon
  have isText : (statement text semicolon).text.toList = text.toList ++ (terminator semicolon).toList := by
    simp [Content.text]
  have acts := h.append (terminator semicolon).toList
  rw [← isText] at acts
  generalize same : (statement text semicolon).text.toList = cs at acts
  cases acts with
  | @assignment word is rest | @call word is rest =>
    rw [← String.toList_ofList (l := word)] at same is
    exact loose_of_says (unblocked_of_word same is (by decide) (by decide)) told (by simp)

/-- A heading is no part of a block. -/
theorem unblocked_heading (h : Heading) : indentation h.text = 0 ∧ Unblocked h.text := by
  cases returns : h.returns with
  | none =>
    have isText : h.text.toList = "procedure".toList ++ ' ' :: h.text.toList.drop 10 := by
      simp [Heading.text, returns]
    have word : IsWord "procedure".toList := ⟨'p', _, rfl, by decide, List.all_eq_true.1 rfl⟩
    exact unblocked_of_word isText word (by decide) (by decide)
  | some type =>
    have isText : h.text.toList = "function".toList ++ ' ' :: h.text.toList.drop 9 := by
      simp [Heading.text, returns]
    have word : IsWord "function".toList := ⟨'f', _, rfl, by decide, List.all_eq_true.1 rfl⟩
    exact unblocked_of_word isText word (by decide) (by decide)

/-- A line with the text of an end closes a block. -/
theorem closing_of_endText {content : Content} {notice : Notice} (is : EndText content.text)
    (told : content.Says notice) (heads : ∀ heading, notice ≠ .heading heading) :
    Closing content.text := by
  obtain ⟨rest, isText, -⟩ := is.cut
  have starts : ∀ c ∈ content.text.toList.head?, c ≠ ' ' := by simp [isText]
  obtain ⟨same, flush⟩ := unindented_of_head starts
  have told := told 0
  rw [Line.text_zero] at told
  exact ⟨flush, by rwa [same], by rwa [told]⟩

theorem closing_blockEnd (semicolon : Bool) : Closing (blockEnd semicolon).text := by
  have is : EndText (blockEnd semicolon).text := by
    cases semicolon
    · exact .plain
    · exact .statement
  exact closing_of_endText is (says_blockEnd semicolon) (by simp)

theorem closing_routineEnd (name : String) : Closing (routineEnd name).text :=
  closing_of_endText (.routine name) (says_routineEnd name) (by simp)

theorem closing_programEnd (name : String) : Closing (programEnd name).text := by
  have isText : (programEnd name).text.toList = "end".toList ++ '.' :: (endRemark name).toList := by
    simp [text]
  have word : IsWord "end".toList := ⟨'e', _, rfl, by decide, List.all_eq_true.1 rfl⟩
  exact closing_of_endText (.program name) (says_of_word isText word (by decide)) (by simp [noticeOf])

end Content

/-! ## Lines inside a program -/

/-- The line is not the end of a program. -/
def Unended (text : String) : Prop :=
  ∀ name, unindented text ≠ "end." ++ endRemark name

theorem Unblocked.unended {text : String} (h : Unblocked text) : Unended text :=
  fun name same => h.2 (same ▸ .program name)

/-- The last line of a program starts with `end` and a point. -/
theorem unended_of_start {text : String}
    (h : ¬ "end.".toList <+: text.toList.dropWhile (· = ' ')) : Unended text := by
  intro name same
  rw [unindented, ← String.toList_inj, String.toList_ofList, String.toList_append] at same
  exact h ⟨_, same.symm⟩

theorem unended_routineEnd (name : String) : Unended (Content.routineEnd name).text :=
  unended_of_start (by simp [Content.text])

theorem unended_blockEnd (semicolon : Bool) : Unended (Content.blockEnd semicolon).text := by
  cases semicolon <;> exact unended_of_start (by decide)

/-- Lines in order, none of which ends a program. -/
structure Inner (texts : List String) : Prop extends Tidy texts where
  unended : ∀ text ∈ texts, Unended text

namespace Inner

variable {texts more : List String}

/-- Lines inside a program may be put in a row. -/
theorem append (h : Inner texts) (h' : Inner more) : Inner (texts ++ more) :=
  ⟨h.toTidy.append h'.toTidy, List.forall_mem_append.2 ⟨h.unended, h'.unended⟩⟩

theorem deeper (h : Inner texts) : Inner (texts.map deeper) := by
  refine ⟨h.toTidy.deeper, fun text member name => ?_⟩
  obtain ⟨text, inside, rfl⟩ := List.mem_map.1 member
  rw [unindented_deeper]
  exact h.unended text inside name

theorem of_loose (h : ∀ text ∈ texts, Loose text) : Inner texts :=
  ⟨.of_loose h, fun text member => (h text member).unblocked.unended⟩

/-- The text of an empty line. -/
theorem empty : Inner [""] :=
  of_loose (List.forall_mem_singleton.2 Content.loose_blank)

/-- A block of lines inside a program is inside it as well, as its end is not that of the program. -/
theorem block (h : Inner texts) (filled : "" ∉ texts) {close : String} (closing : Closing close)
    (goesOn : Unended close) : Inner ("begin" :: (texts.map Pascal.deeper ++ [close])) := by
  refine ⟨h.toTidy.block filled closing, ?_⟩
  have begins : Unended "begin" := unended_of_start (by decide)
  have all := List.forall_mem_append.2 ⟨h.deeper.unended, List.forall_mem_singleton.2 goesOn⟩
  exact List.forall_mem_cons.2 ⟨begins, all⟩

end Inner

theorem inner_vars (vars : List Variable) : Inner (vars.map fun v => (Content.var v).text) := by
  refine .of_loose fun text member => ?_
  obtain ⟨v, -, rfl⟩ := List.mem_map.1 member
  exact Content.loose_var v

/-- The lines of a block are indented between `begin` and its end. -/
theorem map_text_block (inside : List Line) (close : Content) :
    (Line.block inside close).map Line.text =
      "begin" :: ((inside.map Line.text).map deeper ++ [close.text]) := by
  rw [Line.block, List.map_cons, List.map_append, Line.map_text_indent, List.map_singleton,
    Line.text_zero, Line.text_zero]
  rfl

/-- The texts of statements: in order, and none of them empty. -/
structure Filled (texts : List String) : Prop extends Inner texts where
  some : "" ∉ texts

namespace Filled

variable {texts more : List String}

theorem nil : Filled [] :=
  ⟨.of_loose (by simp), by simp⟩

theorem append (h : Filled texts) (h' : Filled more) : Filled (texts ++ more) :=
  ⟨h.toInner.append h'.toInner, by simp [h.some, h'.some]⟩

/-- A loose line with text. -/
theorem line {content : Content} (h : Loose content.text) (some : content.text ≠ "") :
    Filled ([⟨0, content⟩].map Line.text) := by
  rw [List.map_singleton, Line.text_zero]
  exact ⟨.of_loose (by simpa using h), by simpa using some.symm⟩

theorem action {text : String} (h : IsAction text.toList) (semicolon : Bool) :
    Filled ([⟨0, .statement text semicolon⟩].map Line.text) := by
  have visible : text ≠ "" := by
    rintro rfl
    obtain ⟨c, first, -⟩ := h.simpleText.starts
    cases first
  exact .line (Content.loose_statement h semicolon) (by simp [Content.text, visible])

/-- A block is filled if the lines inside are. -/
theorem block {lines : List Line} (h : Filled (lines.map Line.text)) (semicolon : Bool) :
    Filled ((Line.block lines (.blockEnd semicolon)).map Line.text) := by
  have close := Content.closing_blockEnd semicolon
  have visible : (Content.blockEnd semicolon).text ≠ "" := by simp [Content.text]
  rw [map_text_block]
  refine ⟨h.toInner.block h.some close (unended_blockEnd semicolon), ?_⟩
  have deep : "" ∉ (lines.map Line.text).map Pascal.deeper :=
    fun member => (deep_of_filled h.some "" member).1 rfl
  simp only [List.mem_cons, List.mem_append, List.mem_nil_iff, or_false, not_or]
  exact ⟨by decide, deep, visible.symm⟩

/-- The line in front of a block, and the block. -/
theorem control {content : Content} {lines : List Line} (h : Loose content.text)
    (some : content.text ≠ "") (inside : Filled (lines.map Line.text)) (semicolon : Bool) :
    Filled ((⟨0, content⟩ :: Line.block lines (.blockEnd semicolon)).map Line.text) :=
  (line h some).append (inside.block semicolon)

/-- Statements in a row, each a loose line. -/
theorem statementLines {texts : List String} (h : ∀ text ∈ texts, IsAction text.toList)
    (semicolon : Bool) : Filled ((statementLines semicolon texts).map Line.text) := by
  fun_induction Pascal.statementLines semicolon texts with
  | case1 => exact nil
  | case2 text => exact action (h text List.mem_cons_self) semicolon
  | case3 text rest _ ih =>
    rw [List.forall_mem_cons] at h
    exact (action h.1 true).append (ih h.2)

end Filled

end Pascal

open Pascal

namespace Node

/-- Statements in turn are filled if each is. -/
theorem filled_linesAll {nodes : List Node}
    (h : ∀ s ∈ nodes, ∀ semicolon, Filled ((s.lines semicolon).map Line.text)) :
    Filled ((linesAll nodes).map Line.text) := by
  induction nodes with
  | nil => exact .nil
  | cons node rest ih =>
    rw [List.forall_mem_cons] at h
    rw [linesAll, List.map_append]
    exact (h.1 _).append (ih h.2)

theorem IsStatement.filled_action {s : Node} (h : s.IsStatement) {text : String}
    (is : s.simpleText? = some text) (semicolon : Bool) :
    Filled ([(⟨0, .statement text semicolon⟩ : Line)].map Line.text) :=
  .action (h.isAction is) semicolon

/-- The lines of a statement are in order. -/
theorem IsStatement.filled_lines {s : Node} (h : s.IsStatement) :
    ∀ semicolon, Filled ((s.lines semicolon).map Line.text) := by
  induction h with
  | declaration | function => exact fun _ => .nil
  | @declarations decl items location first more each =>
    intro semicolon
    show Filled ((statementLines semicolon (items.filterMap assignmentText?)).map Line.text)
    rw [filterMap_assignmentText? each]
    refine .statementLines (fun text member => ?_) semicolon
    obtain ⟨item, inside, is⟩ := List.mem_filterMap.1 member
    exact (each item inside).isStatement.isAction is
  | assignment named location place is => exact (assignment named location place is).filled_action rfl
  | call named location items => exact (call named location items).filled_action rfl
  | result location is => exact (result location is).filled_action rfl
  | input location some each => exact (input location some each).filled_action rfl
  | output location some each => exact (output location some each).filled_action rfl
  | comment text =>
    have visible : (Content.comment text).text ≠ "" := by
      simp only [Content.text, commentText]
      split <;> simp
    exact fun _ => .line (Content.loose_comment text) visible
  | conditional _ _ _ ih =>
    exact .control (Content.loose_ifThen _) (by simp [Content.text]) (filled_linesAll ih)
  | loop _ _ _ ih =>
    exact .control (Content.loose_whileDo _) (by simp [Content.text]) (filled_linesAll ih)
  | alternative _ _ ih => exact .control Content.loose_otherwise (by decide) (filled_linesAll ih)

end Node

/-! ## Routines -/

namespace Pascal.Routine

/-- The lines of a routine are in order and those of a function. -/
structure LaidOut (r : Routine) : Prop where
  inner : Inner (r.lines.map Line.text)
  shape : FunctionText r.heading 0 (r.lines.map Line.text)

/-- Parts of a program, each after an empty line. -/
theorem inner_flatMap {rs : List Routine} {texts : Routine → List String}
    (h : ∀ r ∈ rs, Inner (texts r)) : Inner (rs.flatMap fun r => "" :: texts r) := by
  induction rs with
  | nil => exact .of_loose (by simp)
  | cons r rest ih =>
    rw [List.forall_mem_cons] at h
    exact (Inner.empty.append h.1).append (ih h.2)

/-- Inner routines are indented and parted by lines without text. -/
theorem map_text_innerLines (rs : List Routine) :
    (innerLines rs).map Line.text = rs.flatMap fun r => "" :: (r.lines.map Line.text).map deeper := by
  simp only [innerLines_eq_flatMap, List.map_flatMap, List.map_cons, Line.map_text_indent,
    Line.text_zero]
  rfl

theorem map_text_vars (vars : List Variable) :
    (vars.map fun v => (⟨0, .var v⟩ : Line)).map Line.text = vars.map fun v => (Content.var v).text := by
  rw [List.map_map]
  exact List.map_congr_left fun v _ => Line.text_zero (.var v)

section

variable {heading : Heading} {vars : VarSection} {inner : List Routine} {spaced : Bool} {body : List Line}

/-- **The lines of a routine**: the heading, the variables, the inner routines, and the body as a block
whose end has the name of the routine. -/
theorem map_text_lines :
    (Routine.mk heading vars inner spaced body).lines.map Line.text = heading.text ::
      (vars.kept.map (fun v => (Content.var v).text) ++
        inner.flatMap (fun r => "" :: (r.lines.map Line.text).map deeper) ++
        (if spaced then [""] else []) ++ "begin" ::
          ((body.map Line.text).map deeper ++ ["end;" ++ endRemark heading.name])) := by
  cases spaced <;>
    simp [Routine.lines, VarSection.lines, map_text_innerLines, map_text_block, Line.text_zero,
      Content.text]

/-- The routines inside a routine are functions one level deeper. -/
theorem functionText_lines (routines : ∀ r ∈ inner, r.LaidOut) (statements : Filled (body.map Line.text)) :
    FunctionText heading 0 ((Routine.mk heading vars inner spaced body).lines.map Line.text) := by
  have nested : ∀ f ∈ inner.map fun r => (r.heading, (r.lines.map Line.text).map deeper),
      FunctionText f.1 (0 + 3) f.2 := by
    intro f member
    obtain ⟨r, inside, rfl⟩ := List.mem_map.1 member
    exact (routines r inside).shape.deeper
  have whole : FunctionText heading 0 _ := .mk vars.kept nested spaced (deep_of_filled statements.some)
  rw [map_text_lines]
  simpa [List.flatMap_map] using whole

/-- A routine is in order if its heading can be read and all inside it is in order. -/
theorem LaidOut.mk' (headed : heading.Legible) (routines : ∀ r ∈ inner, r.LaidOut)
    (statements : Filled (body.map Line.text)) :
    (Routine.mk heading vars inner spaced body).LaidOut := by
  have shape : FunctionText heading 0 ((Routine.mk heading vars inner spaced body).lines.map Line.text) :=
    functionText_lines routines statements
  have rest : Inner (vars.kept.map (fun v => (Content.var v).text) ++
      inner.flatMap (fun r => "" :: (r.lines.map Line.text).map deeper) ++
      (if spaced then [""] else []) ++ "begin" ::
        ((body.map Line.text).map deeper ++ ["end;" ++ endRemark heading.name])) := by
    have blank : Inner (if spaced then [""] else []) := by
      cases spaced
      · exact .of_loose (by simp)
      · exact .empty
    refine (((inner_vars vars.kept).append ?_).append blank).append ?_
    · exact inner_flatMap fun r member => (routines r member).inner.deeper
    · exact statements.toInner.block statements.some (Content.closing_routineEnd heading.name)
        (unended_routineEnd heading.name)
  have told : readNotice heading.text = .heading heading := by
    have told := Content.says_heading headed 0
    rwa [Line.text_zero] at told
  obtain ⟨flush, unblocked⟩ := Content.unblocked_heading heading
  refine ⟨?_, shape⟩
  rw [map_text_lines] at shape ⊢
  have first : Bracketed [heading.text] := .of_unblocked (by simpa using unblocked)
  refine ⟨⟨?_, first.append rest.bracketed, ?_⟩, ?_⟩
  · exact List.forall_mem_cons.2 ⟨fun _ => by simp [flush], rest.steps⟩
  · exact .function rest.headed told (by rwa [flush])
  · exact List.forall_mem_cons.2 ⟨unblocked.unended, rest.unended⟩

end

end Pascal.Routine

namespace Node

/-- What holds of the routines of each statement holds of all routines. -/
theorem forall_mem_routinesAll {P : Routine → Prop} {f : Forest} {optimize : Bool} {id : ScopeId}
    {nodes : List Node} (h : ∀ s ∈ nodes, ∀ r ∈ s.routines f optimize id, P r) :
    ∀ r ∈ routinesAll f optimize id nodes, P r := by
  induction nodes with
  | nil => simp [routinesAll]
  | cons node rest ih =>
    rw [List.forall_mem_cons] at h
    rw [routinesAll, List.forall_mem_append]
    exact ⟨h.1, ih h.2⟩

/-- The routines of a statement are in order, whatever the scopes. -/
theorem IsStatement.laidOut {s : Node} (h : s.IsStatement) (f : Forest) (optimize : Bool) :
    ∀ id, ∀ r ∈ s.routines f optimize id, r.LaidOut := by
  induction h with
  | @function returns name params body location typed named parameters statements ih =>
    intro id r member
    have headed := legible_headingOf typed named parameters
    have written := filled_linesAll fun s inside => (statements s inside).filled_lines
    simp only [routines] at member
    split at member
    · next own _ =>
      rw [List.mem_singleton.1 member]
      exact .mk' headed (forall_mem_routinesAll fun s inside => ih s inside own) written
    · rw [List.mem_singleton.1 member]
      exact .mk' headed (by simp) written
  | conditional _ _ _ ih | loop _ _ _ ih | alternative _ _ ih =>
    exact fun id => forall_mem_routinesAll fun s member => ih s member id
  | _ => simp [routines]

end Node

/-! ## Programs -/

/-- If no line before the last ends a program, only the last can. -/
theorem Pascal.eq_last_of_unended {texts : List String} {close : String}
    (h : ∀ text ∈ texts, Unended text) (k : Nat) (text name : String)
    (is : (texts ++ [close])[k]? = some text) (ends : unindented text = "end." ++ endRemark name) :
    k + 1 = (texts ++ [close]).length := by
  obtain inside | ⟨i, rfl, inside⟩ := of_getElem?_append is
  · exact absurd ends (h text (List.mem_of_getElem? inside) name)
  · obtain rfl : i = 0 := by simpa using (List.getElem?_eq_some_iff.1 inside).1
    rw [List.length_append, List.length_singleton, Nat.add_zero]

namespace Program

variable {source : String} {program : Program}

theorem isStatement_bodyStatements (parsed : parse source = .ok program) :
    ∀ s ∈ program.bodyStatements, s.IsStatement :=
  (Emits.body program.analyze.forest {}).isStatement parsed

/-- Every routine of a program is laid out, those that were inside `main` included. -/
theorem laidOut_pascal (parsed : parse source = .ok program) (f : Forest) (options : Options) :
    ∀ r ∈ (program.pascal f options).routines, r.LaidOut := by
  have shapes := isStatement_of_parse parsed
  have top := Node.forall_mem_routinesAll fun s member =>
    (shapes s member).laidOut f options.optimize Forest.global
  have inMain : ∀ r ∈ program.mainRoutines f options.optimize, r.LaidOut := by
    cases isMain : program.main? with
    | none => simp [mainRoutines, isMain]
    | some main =>
      cases isScope : program.mainScope? f with
      | none => simp [mainRoutines, isMain, isScope]
      | some id =>
        have body : ∀ s ∈ main.body, s.IsStatement := fun s member =>
          isStatement_bodyStatements parsed s (List.mem_append_right _ (by simpa [isMain] using member))
        have laid := Node.forall_mem_routinesAll fun s member =>
          (body s member).laidOut f options.optimize id
        simpa [mainRoutines, isMain, isScope] using laid
  intro r member
  obtain member | member := List.mem_append.1 member
  · exact top r (List.mem_filter.1 member).1
  · exact inMain r (List.mem_filter.1 member).1

/-- **The indentation of a program shows how it nests.** Non-empty lines are indented in steps of
three. A block is closed by the first line behind its `begin` that is not deeper, and every end closes
one block. The lines from a heading on are those of a function. The end of the program is the last
line, and no other. -/
theorem layout_pascal (parsed : parse source = .ok program) (f : Forest) (options : Options) :
    let texts := (program.pascal f options).lines.map Line.text
    (∀ text ∈ texts, text ≠ "" → 3 ∣ indentation text) ∧
    (∀ k text, texts[k]? = some text → unindented text = "begin" → ∃ m, Spans texts k m) ∧
    (∀ m text, texts[m]? = some text → EndText (unindented text) → ∃! k, Spans texts k m) ∧
    (∀ k text heading, texts[k]? = some text → readNotice text = .heading heading →
      ∃ lines rest, texts.drop k = lines ++ rest ∧ FunctionText heading (indentation text) lines) ∧
    texts.getLast? = some ("end." ++ endRemark options.programName) ∧
    ∀ k text name, texts[k]? = some text → unindented text = "end." ++ endRemark name →
      k + 1 = texts.length := by
  intro texts
  let p := program.pascal f options
  let front := (Content.program p.name).text :: (p.vars.map (fun v => (Content.var v).text) ++
    p.routines.flatMap (fun r => "" :: r.lines.map Line.text) ++ [""])
  let inside := (p.body.map Line.text).map deeper
  let close := "end." ++ endRemark options.programName
  have same : texts = front ++ "begin" :: (inside ++ [close]) := by
    show p.lines.map Line.text = _
    have blank : Line.text ⟨0, .blank⟩ = "" := Line.text_zero .blank
    simp only [Listing.lines, List.map_cons, List.map_append, List.map_flatMap, map_text_block,
      Routine.map_text_vars, Line.text_zero, blank]
    simp [front, inside, close, Content.text, p, pascal]
  have before : Inner front := by
    have titled : Inner [(Content.program p.name).text] :=
      .of_loose (List.forall_mem_singleton.2 (Content.loose_program p.name))
    have parts := Routine.inner_flatMap fun r member => (laidOut_pascal parsed f options r member).inner
    exact titled.append (((inner_vars p.vars).append parts).append .empty)
  have body : Filled (p.body.map Line.text) :=
    Node.filled_linesAll fun s member => (isStatement_bodyStatements parsed s member).filled_lines
  have tidy : Tidy texts := by
    rw [same]
    exact before.toTidy.append (body.toTidy.block body.some (Content.closing_programEnd _))
  have last : texts = (front ++ "begin" :: inside) ++ [close] := by simp [same]
  refine ⟨tidy.steps, tidy.bracketed.opened, fun m text is ends => ?_, tidy.headed, ?_, ?_⟩
  · obtain ⟨k, spans⟩ := tidy.bracketed.closed m text is ends
    exact ⟨k, spans, fun l spans' => spans'.unique spans⟩
  · rw [last, List.getLast?_concat]
  · rw [last]
    refine eq_last_of_unended (List.forall_mem_append.2 ⟨before.unended, ?_⟩)
    exact List.forall_mem_cons.2 ⟨unended_of_start (by decide), body.toInner.deeper.unended⟩

/-- A function in a function, whose ends are at two indentations. -/
theorem layout_of_nested : ∃ program : Program,
    parse "void f() { void g() { } begin = 1; } int main() { }" = .ok program ∧
    let texts := (program.pascal program.analyze.forest {}).lines.map Line.text
    texts.take 11 = ["program translated;", "", "procedure f;", "", "   procedure g;", "   begin",
      "   end; \x7bEND OF g\x7d", "", "begin", "   begin := 1;", "end; \x7bEND OF f\x7d"] ∧
    (∃! k, Spans texts k 6) ∧ (∃! k, Spans texts k 10) ∧
    ∃ lines rest, texts.drop 4 = lines ++ rest ∧ FunctionText ⟨"g", [], none⟩ 3 lines := by
  let program : Program := ⟨[
    .function "void" "f" [] [.function "void" "g" [] [] ⟨1, 17⟩,
      .assignment (.var "begin" ⟨1, 25⟩) (.intLiteral "1" ⟨1, 33⟩) ⟨1, 31⟩] ⟨1, 6⟩,
    .function "int" "main" [] [] ⟨1, 42⟩], ⟨1, 52⟩⟩
  have parsed : parse "void f() { void g() { } begin = 1; } int main() { }" = .ok program :=
    (parse_ofList _).trans (by decide +kernel)
  obtain ⟨-, -, closed, headed, -⟩ := layout_pascal parsed program.analyze.forest {}
  refine ⟨program, parsed, by decide +kernel, ?_, ?_, ?_⟩
  · exact closed 6 "   end; \x7bEND OF g\x7d" (by decide +kernel) (.routine "g")
  · exact closed 10 "end; \x7bEND OF f\x7d" (by decide +kernel) (.routine "f")
  · exact headed 4 "   procedure g;" ⟨"g", [], none⟩ (by decide +kernel) (by decide +kernel)

end Program

end Pascalize
