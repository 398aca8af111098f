import Pascalize.Proofs.StatementReading
import Pascalize.Proofs.TokenText

/-!
# Lines of statements are legible

What a line of statements says can be read from its text: the text starts with no blank, so it is
found again behind any indentation, and reads as the marks of the line. A comment is one whatever
stands in it (`Content.legible_comment`), and a statement that a semicolon ends is taken for nothing
else as long as it is no bare word (`Content.legible_statement`).
-/

namespace Pascalize.Pascal

open Lexeme Phrases

/-- The mark of a semicolon, if there is one. -/
def ending (semicolon : Bool) : List Mark :=
  if semicolon then [.semicolon] else []

/-- What a line of statements says. -/
def Content.marks : Content → List Mark
  | .begin => [.begin]
  | .blockEnd semicolon => .finish :: ending semicolon
  | .ifThen condition => [.ifThen condition]
  | .whileDo condition => [.whileDo condition]
  | .otherwise => [.otherwise]
  | .statement text semicolon => .simple text :: ending semicolon
  | _ => []

/-- What lines of statements say. -/
def marksOf (lines : List Line) : List Mark :=
  lines.flatMap (·.content.marks)

@[simp] theorem marksOf_nil : marksOf [] = [] := rfl

@[simp] theorem marksOf_cons (l : Line) (lines : List Line) :
    marksOf (l :: lines) = l.content.marks ++ marksOf lines := rfl

@[simp] theorem marksOf_append (before after : List Line) :
    marksOf (before ++ after) = marksOf before ++ marksOf after := by
  simp [marksOf]

@[simp] theorem marksOf_indent (lines : List Line) : marksOf (Line.indent lines) = marksOf lines := by
  simp [marksOf, Line.indent, List.flatMap_map]

/-- The text starts with no blank and says what the line says. -/
structure Content.Legible (content : Content) : Prop where
  starts : ∃ c ∈ content.text.toList.head?, c ≠ ' '
  reads : readContent content.text.toList = some content.marks

/-- Each level indents by three spaces. -/
theorem toList_indentation (depth : Nat) :
    (String.join (List.replicate depth "   ")).toList = List.replicate (3 * depth) ' ' := by
  induction depth with
  | zero => rfl
  | succ depth ih => simp [List.replicate_succ, ih, Nat.mul_succ]

/-- A line at the margin is its content. -/
theorem Line.text_zero (content : Content) : Line.text ⟨0, content⟩ = content.text := by
  simp only [Line.text]
  split
  · next empty => exact (String.isEmpty_iff.1 empty).symm
  · simp

/-- The text of a line stands behind its indentation. -/
theorem dropWhile_text {content : Content} (starts : ∀ c ∈ content.text.toList.head?, c ≠ ' ')
    (depth : Nat) :
    (Line.text ⟨depth, content⟩).toList.dropWhile (· = ' ') = content.text.toList := by
  cases same : content.text.toList with
  | nil =>
    have empty : content.text.isEmpty := by rw [String.isEmpty_iff, ← String.toList_eq_nil_iff, same]
    simp only [Line.text, if_pos empty]
    rfl
  | cons c rest =>
    have visible : ¬ content.text.isEmpty := by
      intro empty
      rw [String.isEmpty_iff.1 empty] at same
      nomatch same
    have plain : c ≠ ' ' := starts c (by rw [same]; rfl)
    simp only [Line.text, if_neg visible, String.toList_append, toList_indentation, same]
    rw [List.dropWhile_append_of_pos (by simp)]
    simp [plain]

/-- Leading spaces are dropped before a line is read, so the depth of a legible line is no matter. -/
theorem readLine_of_legible {content : Content} (h : content.Legible) (depth : Nat) :
    readLine (Line.text ⟨depth, content⟩) = some content.marks := by
  have starts : ∀ c ∈ content.text.toList.head?, c ≠ ' ' := by
    obtain ⟨c, first, plain⟩ := h.starts
    intro d first'
    rwa [Option.mem_unique first' first]
  rw [readLine, dropWhile_text starts, h.reads]

theorem readLines_of_legible {lines : List Line} (h : ∀ l ∈ lines, l.content.Legible) (depth : Nat) :
    readLines (lines.map fun l => Line.text { l with depth := l.depth + depth }) =
      some (marksOf lines) := by
  induction lines with
  | nil => rfl
  | cons l lines ih =>
    simp only [List.mem_cons, forall_eq_or_imp] at h
    simp [readLines, readLine_of_legible h.1, ih h.2]

/-! ## Headings of blocks -/

/-- What stands between a front and a back is found exactly if the text is made of the three. -/
theorem between?_eq_some {front back cs inside : List Char} :
    between? front back cs = some inside ↔ cs = front ++ inside ++ back := by
  constructor
  · intro h
    simp only [between?] at h
    split at h
    · next starts =>
      split at h
      · next ends =>
        obtain ⟨rest, rfl⟩ := List.isPrefixOf_iff_prefix.1 starts
        rw [List.drop_left] at ends h
        obtain ⟨between, rfl⟩ := List.isSuffixOf_iff_suffix.1 ends
        simpa using h
      · nomatch h
    · nomatch h
  · rintro rfl
    have ends : back.isSuffixOf (inside ++ back) = true := by
      simp [List.isSuffixOf_iff_suffix]
    simp [between?, ends]

/-- A line that opens no comment is read as it stands. -/
theorem readContent_of_ne {c : Char} {cs : List Char} (noBrace : c ≠ '\x7b') (noParen : c ≠ '(') :
    readContent (c :: cs) = some (readPlain (c :: cs)) := by
  unfold readContent
  split
  · next same => exact absurd (List.cons.inj same).1 noBrace
  · next same => exact absurd (List.cons.inj same).1 noParen
  · rfl

namespace Content

theorem legible_begin : begin.Legible :=
  ⟨⟨'b', rfl, by decide⟩, by decide⟩

theorem legible_otherwise : otherwise.Legible :=
  ⟨⟨'e', rfl, by decide⟩, by decide⟩

theorem legible_blockEnd (semicolon : Bool) : (blockEnd semicolon).Legible := by
  cases semicolon with
  | false => exact ⟨⟨'e', rfl, by decide⟩, by decide⟩
  | true => exact ⟨⟨'e', rfl, by decide⟩, by decide⟩

/-- Whatever the condition is, it stands between the two words. -/
theorem legible_ifThen (condition : String) : (ifThen condition).Legible := by
  have isText : (ifThen condition).text.toList =
      'i' :: 'f' :: ' ' :: (condition.toList ++ " then".toList) := by
    simp [text]
  have found : between? "if ".toList " then".toList (ifThen condition).text.toList =
      some condition.toList :=
    between?_eq_some.2 (by simp [text])
  rw [isText] at found
  refine ⟨⟨'i', by rw [isText]; rfl, by decide⟩, ?_⟩
  rw [isText, readContent_of_ne (by decide) (by decide), readPlain, found]
  simp [marks]

theorem legible_whileDo (condition : String) : (whileDo condition).Legible := by
  have isText : (whileDo condition).text.toList =
      'w' :: 'h' :: 'i' :: 'l' :: 'e' :: ' ' :: (condition.toList ++ " do".toList) := by
    simp [text]
  have found : between? "while ".toList " do".toList (whileDo condition).text.toList =
      some condition.toList :=
    between?_eq_some.2 (by simp [text])
  rw [isText] at found
  refine ⟨⟨'w', by rw [isText]; rfl, by decide⟩, ?_⟩
  rw [isText, readContent_of_ne (by decide) (by decide), readPlain, found]
  simp [marks, between?]

end Content

/-! ## Comments -/

/-- A comment in braces ends with its first closing brace. -/
theorem afterBrace_append {cs : List Char} (h : '\x7d' ∉ cs) (rest : List Char) :
    afterBrace (cs ++ '\x7d' :: rest) = some rest := by
  induction cs with
  | nil => rfl
  | cons c cs ih =>
    simp only [List.mem_cons, not_or] at h
    rw [List.cons_append, afterBrace, if_neg (Ne.symm h.1), ih h.2]

/-- Breaking the ends of a comment up leaves the first character in its place. -/
theorem head?_breakCommentEnds (cs : List Char) : (breakCommentEnds cs).head? = cs.head? := by
  fun_cases breakCommentEnds cs <;> rfl

/-- A comment in starred parentheses ends where it is closed. -/
theorem afterStar_breakCommentEnds (cs rest : List Char) :
    afterStar (breakCommentEnds cs ++ (" *)".toList ++ rest)) = some rest := by
  fun_induction breakCommentEnds cs with
  | case1 inside ih => simpa [afterStar] using ih
  | case2 c inside notEnd ih =>
    rw [List.cons_append, afterStar]
    · exact ih
    -- a text starts as it did before its ends were broken up, so no new end arises
    · intro more isStar same
      cases inside with
      | nil => simp [breakCommentEnds] at same
      | cons d inside =>
        obtain ⟨broken, isBroken⟩ := List.head?_eq_some_iff.1 (head?_breakCommentEnds (d :: inside))
        rw [isBroken, List.cons_append] at same
        exact notEnd inside isStar (by rw [(List.cons.inj same).1])
  | case3 => rfl

namespace Content

theorem legible_comment (remark : String) : (comment remark).Legible := by
  have isText : (comment remark).text = commentText (Text.trim remark) := rfl
  generalize Text.trim remark = inside at isText
  by_cases closes : '\x7d' ∈ inside.toList
  · have isStarred : (comment remark).text.toList =
        '(' :: '*' :: ' ' :: (breakCommentEnds inside.toList ++ (" *)".toList ++ [])) := by
      simp [isText, commentText, closes]
    refine ⟨⟨'(', by rw [isStarred]; rfl, by decide⟩, ?_⟩
    rw [isStarred, readContent, afterStar, if_pos (afterStar_breakCommentEnds ..)]
    · rfl
    · simp
  · have isBraced : (comment remark).text.toList =
        '\x7b' :: ((' ' :: (inside.toList ++ [' '])) ++ ['\x7d']) := by
      simp [isText, commentText, closes]
    refine ⟨⟨'\x7b', by rw [isBraced]; rfl, by decide⟩, ?_⟩
    rw [isBraced, readContent, afterBrace_append (by simp [closes])]
    rfl

end Content

/-! ## Simple statements -/

/-- A text that starts with a word and does not end with it. -/
structure SimpleText (text : String) : Prop where
  starts : ∃ c ∈ text.toList.head?, isWordStart c = true
  goesOn : '(' ∈ text.toList ∨ ' ' ∈ text.toList

/-- A word, and then a value that is assigned to it or its arguments. -/
inductive IsAction : List Char → Prop where
  | assignment {word : List Char} (is : IsWord word) (rest : List Char) :
      IsAction (word ++ ' ' :: ':' :: '=' :: rest)
  | call {word : List Char} (is : IsWord word) (rest : List Char) : IsAction (word ++ '(' :: rest)

/-- A statement is known by how it starts. -/
theorem IsAction.append {cs : List Char} (h : IsAction cs) (more : List Char) :
    IsAction (cs ++ more) := by
  cases h with
  | assignment is rest => simpa using assignment is (rest ++ more)
  | call is rest => simpa using call is (rest ++ more)

/-- The sign of assignment stands after a space and the arguments after a parenthesis, so the text goes
on after its first word. -/
theorem IsAction.simpleText {text : String} (h : IsAction text.toList) : SimpleText text := by
  generalize same : text.toList = cs at h
  cases h with
  | assignment is rest | call is rest =>
    obtain ⟨c, more, rfl, start, -⟩ := is
    exact ⟨⟨c, by rw [same]; rfl, start⟩, by simp [same]⟩

/-- A text with a semicolon is a statement, unless it is the end of a block. -/
theorem readPlain_semicolon {cs : List Char} (h : cs ≠ "end".toList) :
    readPlain (cs ++ [';']) = [.simple (String.ofList cs), .semicolon] := by
  have last : ∀ {ds : List Char}, ds.getLast? ≠ some ';' → cs ++ [';'] ≠ ds := by
    rintro _ differs rfl
    simp at differs
  have noHeading (front back : List Char) (d : Char) (differs : ';' ≠ d) :
      between? front (back ++ [d]) (cs ++ [';']) = none := by
    refine Option.eq_none_iff_forall_ne_some.2 fun inside found => ?_
    have same := between?_eq_some.1 found
    rw [← List.append_assoc] at same
    exact differs (List.cons.inj (List.append_inj_right' same rfl)).1
  have noIf : between? "if ".toList " then".toList (cs ++ [';']) = none :=
    noHeading _ " the".toList 'n' (by decide)
  have noWhile : between? "while ".toList " do".toList (cs ++ [';']) = none :=
    noHeading _ " d".toList 'o' (by decide)
  have found : between? [] ";".toList (cs ++ [';']) = some cs := between?_eq_some.2 rfl
  have noEnd : cs ++ [';'] ≠ "end;".toList := fun same => h (List.append_inj_left' same rfl)
  rw [readPlain, if_neg (last (by decide)), if_neg (last (by decide)), if_neg (last (by decide)),
    if_neg noEnd, if_neg (last (by decide)), noIf, noWhile, found]

/-- **A statement with a semicolon** reads as one: a text that goes on after its first word is not `end`.
-/
theorem Content.legible_statement {text : String} (h : SimpleText text) :
    (Content.statement text true).Legible := by
  obtain ⟨c, first, start⟩ := h.starts
  obtain ⟨cs, same⟩ := List.head?_eq_some_iff.1 first
  have isText : (Content.statement text true).text.toList = text.toList ++ [';'] := by
    simp [Content.text, terminator]
  have noEnd : text.toList ≠ "end".toList := by
    intro isEnd
    have goesOn := h.goesOn
    rw [isEnd] at goesOn
    revert goesOn
    decide
  have other : ∀ d, isWordStart d = false → c ≠ d := by
    rintro d notStart rfl
    simp [start] at notStart
  constructor
  · refine ⟨c, ?_, other ' ' (by decide)⟩
    rw [isText, same]
    rfl
  · have cut : text.toList ++ [';'] = c :: (cs ++ [';']) := by rw [same]; rfl
    rw [isText, cut, readContent_of_ne (other _ (by decide)) (other _ (by decide)), ← cut,
      readPlain_semicolon noEnd]
    simp [Content.marks, ending]

/-! ## Statements in a row -/

/-- The lines can be read and are statements with a semicolon after each. -/
structure Written (lines : List Line) (trees : List Tree) : Prop where
  legible : ∀ l ∈ lines, l.content.Legible
  cut : ∃ items : List (List Mark × List Tree), marksOf lines = terminated .semicolon items ∧
    trees = treesOf items ∧ ∀ x ∈ items, Command x.1 x.2

/-- The lines can be read and say nothing. -/
structure Silent (lines : List Line) : Prop where
  legible : ∀ l ∈ lines, l.content.Legible
  marks : marksOf lines = []

theorem Silent.nil : Silent [] :=
  ⟨by simp, rfl⟩

/-- Lines that say nothing may be put in a row. -/
theorem Silent.append {lines more : List Line} (h : Silent lines) (h' : Silent more) :
    Silent (lines ++ more) where
  legible := List.forall_mem_append.2 ⟨h.legible, h'.legible⟩
  marks := by rw [marksOf_append, h.marks, h'.marks, List.nil_append]

/-- A block with its heading is legible if the lines inside are. -/
theorem legible_headed {heading : Content} (head : heading.Legible) {lines : List Line}
    (h : ∀ l ∈ lines, l.content.Legible) (semicolon : Bool) :
    ∀ l ∈ ⟨0, heading⟩ :: Line.block lines (.blockEnd semicolon), l.content.Legible := by
  simp only [Line.block, Line.indent, List.mem_cons, List.mem_append, List.mem_map,
    List.not_mem_nil, or_false]
  rintro _ (rfl | rfl | ⟨l, member, rfl⟩ | rfl)
  · exact head
  · exact Content.legible_begin
  · exact h l member
  · exact Content.legible_blockEnd semicolon

/-- The depth of the lines inside is no part of their marks. -/
@[simp] theorem marksOf_block (lines : List Line) (close : Content) :
    marksOf (Line.block lines close) = .begin :: (marksOf lines ++ close.marks) := by
  simp [Line.block, Content.marks]

namespace Written

theorem nil : Written [] [] where
  legible := by simp
  cut := ⟨[], rfl, rfl, by simp⟩

/-- Lines that say nothing may stand before statements. -/
theorem silent {lines more : List Line} {trees : List Tree} (h : Silent lines)
    (rest : Written more trees) : Written (lines ++ more) trees where
  legible := List.forall_mem_append.2 ⟨h.legible, rest.legible⟩
  cut := by
    rw [marksOf_append, h.marks, List.nil_append]
    exact rest.cut

/-- One statement more, before the others. -/
theorem cons {lines more : List Line} {trees : List Tree} {w : List Mark} {t : Tree}
    (legible : ∀ l ∈ lines, l.content.Legible) (marks : marksOf lines = w ++ [Mark.semicolon])
    (command : Command w [t]) (rest : Written more trees) : Written (lines ++ more) (t :: trees) where
  legible := List.forall_mem_append.2 ⟨legible, rest.legible⟩
  cut := by
    obtain ⟨items, isMarks, rfl, each⟩ := rest.cut
    refine ⟨(w, [t]) :: items, ?_, rfl, ?_⟩
    · rw [marksOf_append, marks, isMarks]
      rfl
    · exact List.forall_mem_cons.2 ⟨command, each⟩

/-- In a block the last semicolon stands before an empty statement. -/
theorem block {lines : List Line} {trees : List Tree} (h : Written lines trees) :
    ∃ items : List (List Mark × List Tree), items ≠ [] ∧ (∀ x ∈ items, Command x.1 x.2) ∧
      treesOf items = trees ∧ marksOf lines = joined .semicolon items := by
  obtain ⟨items, isMarks, rfl, each⟩ := h.cut
  refine ⟨items ++ [([], [])], by simp, ?_, ?_, ?_⟩
  · exact List.forall_mem_append.2 ⟨each, List.forall_mem_singleton.2 .empty⟩
  · simp [treesOf]
  · rw [joined_concat_nil, isMarks]

/-- At any depth the lines read as what they are. -/
theorem readsAs {lines : List Line} {trees : List Tree} (h : Written lines trees) (depth : Nat) :
    ReadsAs (lines.map fun l => Line.text { l with depth := l.depth + depth }) trees := by
  obtain ⟨items, any, each, isTrees, isMarks⟩ := h.block
  exact ⟨marksOf lines, readLines_of_legible h.legible depth, items, any, isMarks, isTrees.symm, each⟩

/-- One more statement, with its semicolon. -/
theorem simple {text : String} (h : SimpleText text) {more : List Line} {trees : List Tree}
    (rest : Written more trees) :
    Written (⟨0, .statement text true⟩ :: more) (.simple text :: trees) := by
  have legible : ∀ l ∈ [(⟨0, .statement text true⟩ : Line)], l.content.Legible :=
    List.forall_mem_singleton.2 (Content.legible_statement h)
  exact cons legible rfl (.simple text) rest

theorem ifThen (condition : String) {inside more : List Line} {yes trees : List Tree}
    (body : Written inside yes) (rest : Written more trees) :
    Written (⟨0, .ifThen condition⟩ :: Line.block inside (.blockEnd true) ++ more)
      (.conditional condition yes none :: trees) := by
  obtain ⟨items, any, each, rfl, isMarks⟩ := body.block
  refine cons ?_ ?_ (.ifThen condition any each) rest
  · exact legible_headed (Content.legible_ifThen condition) body.legible true
  · simp [isMarks, Content.marks, ending, blockMarks]

/-- A loop is one command with its body. -/
theorem whileDo (condition : String) {inside more : List Line} {inner trees : List Tree}
    (body : Written inside inner) (rest : Written more trees) :
    Written (⟨0, .whileDo condition⟩ :: Line.block inside (.blockEnd true) ++ more)
      (.loop condition inner :: trees) := by
  obtain ⟨items, any, each, rfl, isMarks⟩ := body.block
  refine cons ?_ ?_ (.whileDo condition any each) rest
  · exact legible_headed (Content.legible_whileDo condition) body.legible true
  · simp [isMarks, Content.marks, ending, blockMarks]

end Written

/-- The lines go on from a conditional: silent lines, an `else` that executes `no`, and the
statements after it. -/
inductive GoesOn (no trees : List Tree) : List Line → Prop where
  | mk {between inside more : List Line} (silent : Silent between) (body : Written inside no)
      (rest : Written more trees) :
      GoesOn no trees (between ++ (⟨0, .otherwise⟩ :: Line.block inside (.blockEnd true) ++ more))

theorem GoesOn.silent {no trees : List Tree} {lines more : List Line} (h : Silent lines)
    (rest : GoesOn no trees more) : GoesOn no trees (lines ++ more) := by
  obtain ⟨silent, body, rest⟩ := rest
  rw [← List.append_assoc]
  exact ⟨h.append silent, body, rest⟩

/-- The `else` belongs to the conditional before it. -/
theorem Written.ifElse (condition : String) {inside more : List Line} {yes no trees : List Tree}
    (body : Written inside yes) (rest : GoesOn no trees more) :
    Written (⟨0, .ifThen condition⟩ :: Line.block inside (.blockEnd false) ++ more)
      (.conditional condition yes (some no) :: trees) := by
  obtain ⟨silent, other, rest⟩ := rest
  obtain ⟨items, any, each, rfl, isMarks⟩ := body.block
  obtain ⟨others, anyOther, eachOther, rfl, isOther⟩ := other.block
  rw [← List.append_assoc, ← List.append_assoc]
  refine cons ?_ ?_ (.ifElse condition any each anyOther eachOther) rest
  · refine List.forall_mem_append.2 ⟨List.forall_mem_append.2 ⟨?_, silent.legible⟩, ?_⟩
    · exact legible_headed (Content.legible_ifThen condition) body.legible false
    · exact legible_headed Content.legible_otherwise other.legible true
  · simp [isMarks, isOther, silent.marks, Content.marks, ending, blockMarks]

end Pascalize.Pascal
