import Pascalize.Proofs.ControlStructure

/-!
# Reading Pascal declarations

What a line of Pascal says about the sections of a program is read from its text: it declares a variable,
heads a routine, ends one, or does nothing of this kind (`readNotice`). The first word of a line alone does
not tell, since a variable of the source may be called `var` or `procedure`. What follows the word does.

`Content.Says` relates what stands on a line to what its text says. Names and types that are words read as
themselves, and the lines of statements of a parsed program say nothing about sections
(`Node.says_linesAll`).
-/

namespace Pascalize

namespace Pascal

open Lexeme

/-- What a line says about the sections of a program. -/
inductive Notice where
  | var (v : Variable)
  | heading (h : Heading)
  | routineEnd (name : String)
  | other
deriving DecidableEq, Repr, Inhabited

/-- The word that a text starts with, and what follows it. -/
def cutWord (cs : List Char) : String × List Char :=
  (String.ofList (cs.takeWhile isWordRest), cs.dropWhile isWordRest)

/-- A name and a type with a colon between them. -/
def readVariable? (cs : List Char) : Option Variable :=
  match cutWord cs with
  | (name, ':' :: ' ' :: type) => some ⟨name, String.ofList type⟩
  | _ => none

/-- Parameters in parentheses, if there are any, and what follows them. -/
def cutParams? : List Char → Option (List Variable × List Char)
  | '(' :: cs => do
    let pieces := (cs.takeWhile (· ≠ ')')).splitOn ';'
    let params ← pieces.mapM fun piece => readVariable? (piece.dropWhile (· = ' '))
    return (params, (cs.dropWhile (· ≠ ')')).tail)
  | cs => some ([], cs)

/-- The heading of a routine after its first word. `result?` reads what follows the parameters. -/
def readHeading? (result? : List Char → Option (Option String)) (cs : List Char) : Option Heading := do
  let (name, rest) := cutWord cs
  let (params, rest) ← cutParams? rest
  let returns ← result? rest
  return ⟨name, params, returns⟩

/-- A procedure has no type. -/
def noResult? (cs : List Char) : Option (Option String) :=
  if cs = ";".toList then some none else none

/-- A function has a type. -/
def result? (cs : List Char) : Option (Option String) :=
  (between? ": ".toList ";".toList cs).map fun type => some (String.ofList type)

/-- What the first word of a line and what follows it say. -/
def noticeOf (key : String) : List Char → Notice
  | ' ' :: rest =>
    if key = "var" then ((between? [] ";".toList rest).bind readVariable?).elim .other .var
    else if key = "procedure" then (readHeading? noResult? rest).elim .other .heading
    else if key = "function" then (readHeading? result? rest).elim .other .heading
    else .other
  | ';' :: rest =>
    if key = "end" then
      (between? " \x7bEND OF ".toList "\x7d".toList rest).elim .other (.routineEnd <| String.ofList ·)
    else .other
  | _ => .other

/-- What a line says. -/
def readNotice (text : String) : Notice :=
  let (key, rest) := cutWord (text.toList.dropWhile (· = ' '))
  noticeOf key rest

/-! ## Words -/

/-- Letters, digits and underscores alone. -/
def Wordlike (s : String) : Prop :=
  ∀ c ∈ s.toList, isWordRest c = true

/-- A word ends where a character comes that no word holds. -/
theorem cutWord_append {s : String} (h : Wordlike s) {c : Char} (stop : isWordRest c = false)
    (rest : List Char) : cutWord (s.toList ++ c :: rest) = (s, c :: rest) := by
  obtain ⟨taken, left⟩ := takeWhile_of_stop (c :: rest) h (by simpa using stop)
  rw [cutWord, taken, left, String.ofList_toList]

theorem cutWord_of_stop {c : Char} (stop : isWordRest c = false) (rest : List Char) :
    cutWord (c :: rest) = ("", c :: rest) :=
  cutWord_append (s := "") (by simp [Wordlike]) stop rest

theorem Wordlike.not_mem {s : String} (h : Wordlike s) {c : Char} (no : isWordRest c = false) :
    c ∉ s.toList := by
  intro member
  rw [h c member] at no
  nomatch no

/-- A variable whose name and type are words. -/
structure Variable.Legible (v : Variable) : Prop where
  name : Wordlike v.name
  type : Wordlike v.type

/-- A heading in which all names and types are words. -/
structure Heading.Legible (h : Heading) : Prop where
  name : Wordlike h.name
  params : ∀ p ∈ h.params, p.Legible
  returns : ∀ type ∈ h.returns, Wordlike type

/-! ## Variables and headings -/

namespace Variable

/-- A variable as it is written. -/
def chars (v : Variable) : List Char :=
  v.name.toList ++ ':' :: ' ' :: v.type.toList

variable {v : Variable}

theorem Legible.not_mem_chars (h : v.Legible) {c : Char} (no : isWordRest c = false)
    (other : c ∉ [':', ' ']) : c ∉ v.chars := by
  simp only [List.mem_cons, not_or] at other
  simp [chars, h.name.not_mem no, h.type.not_mem no, other]

/-- A variable with a word for its name and one for its type is read back from its text. -/
theorem readVariable?_chars (h : v.Legible) : readVariable? v.chars = some v := by
  rw [readVariable?, chars, cutWord_append h.name (by decide)]
  simp

theorem dropWhile_chars (h : v.Legible) : v.chars.dropWhile (· = ' ') = v.chars := by
  have noBlank : ' ' ∉ v.name.toList := h.name.not_mem (by decide)
  rw [chars]
  cases same : v.name.toList with
  | nil => rfl
  | cons c cs =>
    have other : c ≠ ' ' := by
      rintro rfl
      exact noBlank (by simp [same])
    simp [other]

end Variable

/-- Parameters as they are written, without the parentheses around them. -/
def paramChars (params : List Variable) : List Char :=
  ("; ".intercalate (params.map fun p => p.name ++ ": " ++ p.type)).toList

/-- The parameters of a heading with their parentheses, as they are written. -/
def listChars (params : List Variable) : List Char :=
  if params.isEmpty then [] else '(' :: (paramChars params ++ [')'])

theorem paramChars_cons_cons (p q : Variable) (params : List Variable) :
    paramChars (p :: q :: params) = p.chars ++ ';' :: ' ' :: paramChars (q :: params) := by
  simp [paramChars, String.intercalate_cons_cons, Variable.chars]

theorem paramChars_singleton (p : Variable) : paramChars [p] = p.chars := by
  simp [paramChars, Variable.chars]

/-- Neither names nor types hold a semicolon, so cutting at semicolons parts the parameters. -/
theorem splitOn_paramChars {params : List Variable} (h : ∀ p ∈ params, p.Legible) :
    ∀ p : Variable, p.Legible →
      (paramChars (p :: params)).splitOn ';' = p.chars :: params.map (' ' :: ·.chars) := by
  have joined (p : Variable) : paramChars (p :: params) =
      [';'].intercalate (p.chars :: params.map (' ' :: ·.chars)) := by
    clear h
    induction params generalizing p with
    | nil => simp [paramChars_singleton]
    | cons q params ih =>
      have blank (cs : List Char) (rest : List (List Char)) :
          [';'].intercalate ((' ' :: cs) :: rest) = ' ' :: [';'].intercalate (cs :: rest) := by
        cases rest <;> simp [List.intercalate_cons_cons]
      rw [paramChars_cons_cons, ih q, List.map_cons, List.intercalate_cons_cons, blank]
      simp
  intro p legible
  have free (q : Variable) (legible : q.Legible) : ';' ∉ q.chars :=
    legible.not_mem_chars (by decide) (by decide)
  rw [joined, List.splitOn_intercalate _ ?_ (by simp)]
  simp only [List.mem_cons, List.mem_map]
  rintro _ (rfl | ⟨q, member, rfl⟩)
  · exact free p legible
  · simpa using free q (h q member)

theorem not_mem_paramChars {params : List Variable} (h : ∀ p ∈ params, p.Legible) :
    ')' ∉ paramChars params := by
  match params, h with
  | [], _ => decide
  | [p], h =>
    rw [paramChars_singleton]
    exact (h p List.mem_cons_self).not_mem_chars (by decide) (by decide)
  | p :: q :: params, h =>
    rw [List.forall_mem_cons] at h
    have first : ')' ∉ p.chars := h.1.not_mem_chars (by decide) (by decide)
    have others := not_mem_paramChars h.2
    rw [paramChars_cons_cons]
    simp [first, others]

/-- The pieces between semicolons are read back as the parameters, with or without a space in front. -/
theorem mapM_readVariable? {params : List Variable} (h : ∀ p ∈ params, p.Legible) (front : List Char)
    (blank : ∀ c ∈ front, c = ' ') : (params.map (front ++ ·.chars)).mapM
      (fun piece => readVariable? (piece.dropWhile (· = ' '))) = some params := by
  induction params with
  | nil => rfl
  | cons p params ih =>
    rw [List.forall_mem_cons] at h
    have first : readVariable? ((front ++ p.chars).dropWhile (· = ' ')) = some p := by
      rw [List.dropWhile_append_of_pos (by simpa using blank), Variable.dropWhile_chars h.1,
        Variable.readVariable?_chars h.1]
    simp [first, ih h.2]

/-- No parameters are written without parentheses, and others in them. Both are read back. -/
theorem cutParams?_append {params : List Variable} (h : ∀ p ∈ params, p.Legible) {c : Char}
    (other : c ≠ '(') (rest : List Char) :
    cutParams? (listChars params ++ c :: rest) = some (params, c :: rest) := by
  cases params with
  | nil =>
    rw [listChars, List.isEmpty_nil, if_pos rfl, List.nil_append, cutParams?]
    simpa using other
  | cons p params =>
    have ends : ∀ d ∈ paramChars (p :: params), decide (d ≠ ')') = true := by
      intro d member
      apply decide_eq_true
      rintro rfl
      exact not_mem_paramChars h member
    obtain ⟨taken, left⟩ := takeWhile_of_stop (')' :: c :: rest) ends (by simp)
    have cut : listChars (p :: params) ++ c :: rest =
        '(' :: (paramChars (p :: params) ++ ')' :: c :: rest) := by simp [listChars]
    rw [List.forall_mem_cons] at h
    have first : readVariable? (p.chars.dropWhile (· = ' ')) = some p := by
      rw [Variable.dropWhile_chars h.1, Variable.readVariable?_chars h.1]
    have others := mapM_readVariable? h.2 [' '] (by simp)
    rw [cut, cutParams?, taken, left, splitOn_paramChars h.2 p h.1]
    simp only [List.singleton_append] at others
    simp [first, others]

/-- A heading is read back: its name, its parameters and what `result?` makes of the rest. -/
theorem readHeading?_append {name : String} {params : List Variable} (named : Wordlike name)
    (h : ∀ p ∈ params, p.Legible) {c : Char} (stop : isWordRest c = false) (other : c ≠ '(')
    {rest : List Char} {result? : List Char → Option (Option String)} {returns : Option String}
    (reads : result? (c :: rest) = some returns) :
    readHeading? result? (name.toList ++ (listChars params ++ c :: rest)) =
      some ⟨name, params, returns⟩ := by
  have word : cutWord (name.toList ++ (listChars params ++ c :: rest)) =
      (name, listChars params ++ c :: rest) := by
    cases params with
    | nil => exact cutWord_append named stop rest
    | cons p params => exact cutWord_append named (by decide) _
  simp [readHeading?, word, cutParams?_append h other, reads]

/-! ## What lines say -/

/-- At any depth the text of the line says that. -/
def Content.Says (content : Content) (notice : Notice) : Prop :=
  ∀ depth, readNotice (Line.text ⟨depth, content⟩) = notice

theorem Wordlike.of_isWord {s : String} (h : IsWord s.toList) : Wordlike s := by
  obtain ⟨c, rest, same, start, goesOn⟩ := h
  rw [Wordlike, same, List.forall_mem_cons]
  exact ⟨isWordRest_of_start start, goesOn⟩

namespace Content

/-- A line whose text starts with no space says what its first word and the rest come to. -/
theorem says_of_head {content : Content} {c : Char} (first : content.text.toList.head? = some c)
    (visible : c ≠ ' ') : content.Says
      (noticeOf (cutWord content.text.toList).1 (cutWord content.text.toList).2) := by
  have starts : ∀ d ∈ content.text.toList.head?, d ≠ ' ' := by
    rw [first]
    rintro _ ⟨rfl⟩
    exact visible
  intro depth
  rw [readNotice, dropWhile_text starts]

/-- The first word of a line is `key` if that is a word and no word goes on after it. -/
theorem says_of_word {content : Content} {key : String} {c : Char} {rest : List Char}
    (isText : content.text.toList = key.toList ++ c :: rest) (word : IsWord key.toList)
    (stop : isWordRest c = false) : content.Says (noticeOf key (c :: rest)) := by
  have ⟨d, more, same, start, _⟩ := word
  have first : content.text.toList.head? = some d := by rw [isText, same]; rfl
  have visible : d ≠ ' ' := by
    rintro rfl
    nomatch start
  have told := says_of_head first visible
  rwa [isText, cutWord_append (.of_isWord word) stop] at told

/-- A line that starts with a mark declares nothing. -/
theorem says_of_mark {content : Content} {c : Char} (first : content.text.toList.head? = some c)
    (stop : isWordRest c = false) (other : c ≠ ' ' ∧ c ≠ ';') : content.Says .other := by
  obtain ⟨rest, isText⟩ := List.head?_eq_some_iff.1 first
  have told := says_of_head first other.1
  rw [isText, cutWord_of_stop stop] at told
  simpa [noticeOf, other.1, other.2] using told

theorem says_var {v : Variable} (h : v.Legible) : (var v).Says (.var v) := by
  have isText : (var v).text.toList = "var".toList ++ ' ' :: (v.chars ++ [';']) := by
    simp [text, Variable.chars]
  have inside : between? [] [';'] (v.chars ++ [';']) = some v.chars := between?_eq_some.2 rfl
  have told := says_of_word isText ⟨'v', _, rfl, by decide, List.all_eq_true.1 rfl⟩ (by decide)
  simpa [noticeOf, inside, Variable.readVariable?_chars h] using told

theorem says_heading {h : Heading} (legible : h.Legible) : (heading h).Says (.heading h) := by
  have list : (if (h.params.map fun p => p.name ++ ": " ++ p.type).isEmpty then "" else
      "(" ++ "; ".intercalate (h.params.map fun p => p.name ++ ": " ++ p.type) ++ ")").toList =
        listChars h.params := by
    cases none : h.params.isEmpty with
    | true => simp [listChars, none]
    | false => simp [listChars, paramChars, none]
  obtain ⟨name, params, returns⟩ := h
  cases returns with
  | none =>
    have isText : (heading ⟨name, params, none⟩).text.toList =
        "procedure".toList ++ ' ' :: (name.toList ++ (listChars params ++ [';'])) := by
      simp [text, Heading.text, ← list]
    have reads : readHeading? noResult? (name.toList ++ (listChars params ++ [';'])) =
        some ⟨name, params, none⟩ :=
      readHeading?_append legible.name legible.params (by decide) (by decide) rfl
    have told := says_of_word isText ⟨'p', _, rfl, by decide, List.all_eq_true.1 rfl⟩ (by decide)
    simpa [noticeOf, reads] using told
  | some type =>
    have isText : (heading ⟨name, params, some type⟩).text.toList =
        "function".toList ++ ' ' :: (name.toList ++
          (listChars params ++ ':' :: ' ' :: (type.toList ++ [';']))) := by
      simp [text, Heading.text, ← list]
    have typed : result? (':' :: ' ' :: (type.toList ++ [';'])) = some (some type) := by
      have inside : between? ": ".toList ";".toList (':' :: ' ' :: (type.toList ++ [';'])) =
        some type.toList := between?_eq_some.2 rfl
      rw [result?, inside]
      simp
    have reads := readHeading?_append legible.name legible.params (by decide) (by decide) typed
    have told := says_of_word isText ⟨'f', _, rfl, by decide, List.all_eq_true.1 rfl⟩ (by decide)
    simpa [noticeOf, reads] using told

theorem says_routineEnd (name : String) : (routineEnd name).Says (.routineEnd name) := by
  have isText : (routineEnd name).text.toList =
      "end".toList ++ ';' :: (" \x7bEND OF ".toList ++ name.toList ++ "\x7d".toList) := by
    simp [text, endRemark]
  have inside : between? " \x7bEND OF ".toList "\x7d".toList
      (" \x7bEND OF ".toList ++ name.toList ++ "\x7d".toList) = some name.toList :=
    between?_eq_some.2 rfl
  have told := says_of_word isText ⟨'e', _, rfl, by decide, List.all_eq_true.1 rfl⟩ (by decide)
  rw [noticeOf, if_pos rfl, inside] at told
  simpa using told

theorem says_blank : blank.Says .other :=
  fun _ => rfl

theorem says_begin : begin.Says .other :=
  says_of_head (c := 'b') rfl (by decide)

theorem says_otherwise : otherwise.Says .other :=
  says_of_head (c := 'e') rfl (by decide)

theorem says_blockEnd : (semicolon : Bool) → (blockEnd semicolon).Says .other
  | false => says_of_head (c := 'e') rfl (by decide)
  | true => says_of_head (c := 'e') rfl (by decide)

theorem says_ifThen (condition : String) : (ifThen condition).Says .other := by
  have isText : (ifThen condition).text.toList =
      "if".toList ++ ' ' :: (condition.toList ++ " then".toList) := by simp [text]
  exact says_of_word isText ⟨'i', _, rfl, by decide, List.all_eq_true.1 rfl⟩ (by decide)

theorem says_whileDo (condition : String) : (whileDo condition).Says .other := by
  have isText : (whileDo condition).text.toList =
      "while".toList ++ ' ' :: (condition.toList ++ " do".toList) := by simp [text]
  exact says_of_word isText ⟨'w', _, rfl, by decide, List.all_eq_true.1 rfl⟩ (by decide)

/-- A comment starts with a brace or a parenthesis, whatever it says. -/
theorem says_comment (remark : String) : (comment remark).Says .other := by
  by_cases closes : '\x7d' ∈ (Text.trim remark).toList
  · exact says_of_mark (c := '(') (by simp [text, commentText, closes]) (by decide) (by decide)
  · exact says_of_mark (c := '\x7b') (by simp [text, commentText, closes]) (by decide) (by decide)

/-- An assignment makes no declaration, whatever it assigns to. -/
theorem noticeOf_assignment (key : String) (rest : List Char) :
    noticeOf key (' ' :: ':' :: '=' :: rest) = .other := by
  have word := cutWord_of_stop (c := ':') (by decide)
  have noVariable : (between? [] ";".toList (':' :: '=' :: rest)).bind readVariable? = none := by
    rw [Option.bind_eq_none_iff]
    intro inside found
    have same := between?_eq_some.1 found
    match inside with
    | [] | [_] => simp at same
    | c :: d :: inside =>
      simp only [List.nil_append, List.cons_append, List.cons.injEq] at same
      obtain ⟨rfl, rfl, -⟩ := same
      rw [readVariable?, word]
      rfl
  have noProcedure : readHeading? noResult? (':' :: '=' :: rest) = none := by
    simp [readHeading?, word, cutParams?, noResult?]
  have noFunction : readHeading? result? (':' :: '=' :: rest) = none := by
    simp [readHeading?, word, cutParams?, result?, between?]
  rw [noticeOf, noVariable, noProcedure, noFunction]
  simp

/-- A word that is assigned to or called declares nothing, also if it is called `var` or `procedure`. -/
theorem says_statement {text : String} (h : IsAction text.toList) (semicolon : Bool) :
    (statement text semicolon).Says .other := by
  have isText : (statement text semicolon).text.toList = text.toList ++ (terminator semicolon).toList := by
    simp [Content.text]
  have acts := h.append (terminator semicolon).toList
  rw [← isText] at acts
  generalize same : (statement text semicolon).text.toList = cs at acts
  cases acts with
  | @assignment word is rest =>
    rw [← String.toList_ofList (l := word)] at same is
    rw [← noticeOf_assignment (String.ofList word) rest]
    exact says_of_word same is (by decide)
  | @call word is rest =>
    rw [← String.toList_ofList (l := word)] at same is
    exact says_of_word same is (by decide)

end Content

/-! ## Lines of statements -/

/-- Statements in a row say nothing about sections. -/
theorem says_statementLines (semicolon : Bool) {texts : List String}
    (h : ∀ text ∈ texts, IsAction text.toList) :
    ∀ l ∈ statementLines semicolon texts, l.content.Says .other := by
  fun_induction statementLines semicolon texts with
  | case1 => simp
  | case2 text => simpa using Content.says_statement (h text List.mem_cons_self) semicolon
  | case3 text rest _ ih =>
    rw [List.forall_mem_cons] at h ⊢
    exact ⟨Content.says_statement h.1 true, ih h.2⟩

/-- A block says nothing about sections if nothing in it does. -/
theorem says_block {lines : List Line} (h : ∀ l ∈ lines, l.content.Says .other) (semicolon : Bool) :
    ∀ l ∈ Line.block lines (.blockEnd semicolon), l.content.Says .other := by
  rw [Line.block, List.forall_mem_cons, List.forall_mem_append, List.forall_mem_singleton]
  refine ⟨Content.says_begin, ?_, Content.says_blockEnd semicolon⟩
  intro l member
  obtain ⟨l, inside, rfl⟩ := List.mem_map.1 member
  exact h l inside

end Pascal

open Pascal

namespace Node

/-- What holds of all lines of each statement holds of the lines of statements in turn. -/
theorem forall_mem_linesAll {P : Line → Prop} {nodes : List Node}
    (h : ∀ s ∈ nodes, ∀ semicolon, ∀ l ∈ s.lines semicolon, P l) : ∀ l ∈ linesAll nodes, P l := by
  induction nodes with
  | nil => simp [linesAll]
  | cons node rest ih =>
    rw [List.forall_mem_cons] at h
    rw [linesAll, List.forall_mem_append]
    exact ⟨h.1 _, ih h.2⟩

theorem IsStatement.says_action {s : Node} (h : s.IsStatement) {text : String}
    (is : s.simpleText? = some text) (semicolon : Bool) :
    ∀ l ∈ [(⟨0, .statement text semicolon⟩ : Line)], l.content.Says .other :=
  List.forall_mem_singleton.2 (Content.says_statement (h.isAction is) semicolon)

/-- **The lines of a statement** say nothing about sections, by induction on the statement. -/
theorem IsStatement.says_lines {s : Node} (h : s.IsStatement) :
    ∀ semicolon, ∀ l ∈ s.lines semicolon, l.content.Says .other := by
  induction h with
  | declaration | function => simp [lines]
  | @declarations decl items location first more each =>
    intro semicolon
    show ∀ l ∈ statementLines semicolon (items.filterMap assignmentText?), l.content.Says .other
    rw [filterMap_assignmentText? each]
    refine says_statementLines semicolon fun text member => ?_
    obtain ⟨item, inside, is⟩ := List.mem_filterMap.1 member
    exact (each item inside).isStatement.isAction is
  | assignment named location place is => exact (assignment named location place is).says_action rfl
  | call named location items => exact (call named location items).says_action rfl
  | result location is => exact (result location is).says_action rfl
  | input location some each => exact (input location some each).says_action rfl
  | output location some each => exact (output location some each).says_action rfl
  | comment text => exact fun _ => List.forall_mem_singleton.2 (Content.says_comment text)
  | conditional _ _ _ ih =>
    intro semicolon
    rw [lines, List.forall_mem_cons]
    exact ⟨Content.says_ifThen _, says_block (forall_mem_linesAll ih) semicolon⟩
  | loop _ _ _ ih =>
    intro semicolon
    rw [lines, List.forall_mem_cons]
    exact ⟨Content.says_whileDo _, says_block (forall_mem_linesAll ih) semicolon⟩
  | alternative _ _ ih =>
    intro semicolon
    rw [lines, List.forall_mem_cons]
    exact ⟨Content.says_otherwise, says_block (forall_mem_linesAll ih) semicolon⟩

/-- The lines of statements say nothing about sections. -/
theorem says_linesAll {nodes : List Node} (h : ∀ s ∈ nodes, s.IsStatement) :
    ∀ l ∈ linesAll nodes, l.content.Says .other :=
  forall_mem_linesAll fun s member => (h s member).says_lines

end Node

/-! ## Declarations of a parsed program -/

/-- Names of the source are words of Pascal. -/
theorem IsName.wordlike {name : String} (h : IsName name) : Wordlike name :=
  .of_isWord h.word

/-- A known type has a word for its name, and any other keeps its own. -/
theorem Pascal.wordlike_typeName {name : String} (h : Wordlike name) : Wordlike (typeName name) := by
  unfold typeName
  split
  · exact List.all_eq_true.1 rfl
  · exact List.all_eq_true.1 rfl
  · exact List.all_eq_true.1 rfl
  · exact h

/-- The Pascal declaration of a variable. -/
def Declaration.pascal (decl : Declaration) : Variable :=
  ⟨decl.name, typeName decl.type.base⟩

/-- A declaration with names for its type and itself can be read back. -/
theorem Declaration.Proper.legible {decl : Declaration} (h : decl.Proper) : decl.pascal.Legible :=
  ⟨h.named.wordlike, wordlike_typeName h.typed.named.wordlike⟩

theorem Pascal.legible_headingOf {returns name : String} {params : List Declaration}
    (typed : IsName returns) (named : IsName name) (parameters : ∀ p ∈ params, p.Proper) :
    (headingOf returns name params).Legible where
  name := named.wordlike
  params := List.forall_mem_map.2 fun p member => (parameters p member).legible
  returns := by
    simp only [headingOf]
    split
    · simp
    · rintro _ ⟨rfl⟩
      exact wordlike_typeName typed.wordlike

end Pascalize
