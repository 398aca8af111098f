import Pascalize.Proofs.DeclarationReading
import Pascalize.Proofs.ExpressionReading

/-!
# Names in the text of statements

Which names a text of Pascal statements mentions is said without any writer: the lines are read as
marks, the marks hold expressions (`Mark.phrases`), and the expressions are read as terms, whose names
are listed from left to right (`Mentions`). No text mentions two lists of names.

`Node.mentions` lists, from left to right, what a statement of the source mentions itself, leaving out
the functions that are defined in it, and the routines that Pascal adds (`Mention`). The lines written
for the statements of a parsed program mention just that (`Node.mentions_linesAll`).
-/

namespace Pascalize

namespace Pascal

open Lexeme

mutual

/-- The names in a term, from left to right. -/
def Term.names : Term → List String
  | .name s => [s]
  | .integer _ | .real _ | .text _ => []
  | .call s args => s :: namesAll args
  | .index target position => target.names ++ position.names
  | .sequence items => namesAll items
  | .negative operand | .positive operand | .complement operand => operand.names
  | .binary _ left right => left.names ++ right.names

def Term.namesAll : List Term → List String
  | [] => []
  | t :: rest => t.names ++ namesAll rest

end

/-- The expressions that a mark holds: a condition, the two sides of an assignment, or a call. -/
def Mark.phrases : Mark → List String
  | .ifThen condition | .whileDo condition => [condition]
  | .simple text =>
    match cutWord text.toList with
    | (name, ' ' :: ':' :: '=' :: ' ' :: value) => [name, String.ofList value]
    | _ => [text]
  | _ => []

/-- The expressions read as terms with these names, from left to right. -/
def PhrasesName (phrases names : List String) : Prop :=
  ∃ items : List (String × Term), phrases = items.map Prod.fst ∧ (∀ x ∈ items, Reads x.1 x.2) ∧
    names = items.flatMap (·.2.names)

/-- The lines, read as statements, mention these names from left to right. -/
def Mentions (texts names : List String) : Prop :=
  ∃ marks, readLines texts = some marks ∧ PhrasesName (marks.flatMap Mark.phrases) names

namespace PhrasesName

variable {phrases phrases' names names' : List String}

theorem nil : PhrasesName [] [] :=
  ⟨[], rfl, nofun, rfl⟩

theorem single {text : String} {t : Term} (h : Reads text t) : PhrasesName [text] t.names :=
  ⟨[(text, t)], rfl, List.forall_mem_singleton.2 h, by simp⟩

/-- Phrases in a row mention the names of both in turn. -/
theorem append (h : PhrasesName phrases names) (h' : PhrasesName phrases' names') :
    PhrasesName (phrases ++ phrases') (names ++ names') := by
  obtain ⟨items, rfl, reads, rfl⟩ := h
  obtain ⟨items', rfl, reads', rfl⟩ := h'
  exact ⟨items ++ items', by simp, List.forall_mem_append.2 ⟨reads, reads'⟩, by simp⟩

/-- An expression reads as one term, so phrases mention one list of names. -/
theorem unique (h : PhrasesName phrases names) (h' : PhrasesName phrases names') : names = names' := by
  obtain ⟨items, rfl, reads, rfl⟩ := h
  obtain ⟨items', same, reads', rfl⟩ := h'
  induction items generalizing items' with
  | nil =>
    obtain rfl : items' = [] := by simpa using same.symm
    rfl
  | cons x items ih =>
    obtain _ | ⟨x', items'⟩ := items'
    · nomatch same
    · rw [List.forall_mem_cons] at reads reads'
      obtain ⟨first, rest⟩ := List.cons.inj same
      have sameTerm : x.2 = x'.2 := reads.1.unique (first ▸ reads'.1)
      rw [List.flatMap_cons, List.flatMap_cons, sameTerm, ih reads.2 items' rest reads'.2]

end PhrasesName

/-- Lines mention one list of names. -/
theorem Mentions.unique {texts names names' : List String} (h : Mentions texts names)
    (h' : Mentions texts names') : names = names' := by
  obtain ⟨marks, read, phrases⟩ := h
  obtain ⟨marks', read', phrases'⟩ := h'
  obtain rfl := Option.some.inj (read.symm.trans read')
  exact phrases.unique phrases'

/-! ## No expression ends with a semicolon -/

/-- A string ends with a quote. -/
theorem scanText_cut {cs chars rest : List Char} (h : scanText cs = some (chars, rest)) :
    ∃ front, cs = front ++ '\x27' :: rest := by
  fun_induction scanText cs generalizing chars rest with
  | case1 more ih =>
    obtain ⟨⟨chars', rest'⟩, scanned, same⟩ := Option.map_eq_some_iff.1 h
    obtain ⟨-, rfl⟩ := Prod.mk.inj same
    obtain ⟨front, rfl⟩ := ih scanned
    exact ⟨'\x27' :: '\x27' :: front, rfl⟩
  | case2 more =>
    obtain ⟨-, rfl⟩ := Prod.mk.inj (Option.some.inj h)
    exact ⟨[], rfl⟩
  | case3 c more _ _ ih =>
    obtain ⟨⟨chars', rest'⟩, scanned, same⟩ := Option.map_eq_some_iff.1 h
    obtain ⟨-, rfl⟩ := Prod.mk.inj same
    obtain ⟨front, rfl⟩ := ih scanned
    exact ⟨c :: front, rfl⟩
  | case4 => nomatch h

theorem scanNumber_cut (cs : List Char) :
    ∃ used, cs = used ++ (scanNumber cs).2 ∧ ∀ c ∈ used, c.isDigit = true ∨ c = '.' := by
  have cut := (List.takeWhile_append_dropWhile (p := Char.isDigit) (l := cs)).symm
  have digits (ds : List Char) : ∀ c ∈ ds.takeWhile Char.isDigit, c.isDigit = true ∨ c = '.' :=
    fun c member => .inl (List.all_eq_true.1 List.all_takeWhile c member)
  unfold scanNumber
  split
  next d rest ends =>
    rw [ends] at cut
    split
    · have more := (List.takeWhile_append_dropWhile (p := Char.isDigit) (l := d :: rest)).symm
      refine ⟨cs.takeWhile Char.isDigit ++ '.' :: (d :: rest).takeWhile Char.isDigit, ?_, ?_⟩
      · rw [List.append_assoc, List.cons_append, ← more]
        exact cut
      · exact List.forall_mem_append.2 ⟨digits cs, List.forall_mem_cons.2 ⟨.inr rfl, digits _⟩⟩
    · exact ⟨_, cut, digits cs⟩
  · exact ⟨_, cut, digits cs⟩

/-- No symbol holds a semicolon. -/
theorem scanSymbol_cut {cs left : List Char} {w : Word} (h : scanSymbol cs = some (w, left)) :
    ∃ used, cs = used ++ left ∧ ';' ∉ used := by
  unfold scanSymbol at h
  split at h
  · cases h
    exact ⟨['<', '>'], rfl, by decide⟩
  · cases h
    exact ⟨['<', '='], rfl, by decide⟩
  · cases h
    exact ⟨['>', '='], rfl, by decide⟩
  next c rest _ _ _ =>
    split at h
    next isSymbol =>
      cases h
      refine ⟨[c], rfl, fun member => ?_⟩
      rw [← List.mem_singleton.1 member] at isSymbol
      revert isSymbol
      decide
    · nomatch h
  · nomatch h

/-- No word ends with a semicolon: a string may hold one, but not at its end. -/
theorem scanWord_cut {c : Char} {cs left : List Char} {w : Word} (h : scanWord c cs = some (w, left)) :
    ∃ used, c :: cs = used ++ left ∧ used.getLast? ≠ some ';' := by
  have without {used : List Char} (no : ';' ∉ used) : used.getLast? ≠ some ';' :=
    fun last => no (List.mem_of_getLast? last)
  unfold scanWord at h
  split at h
  · obtain ⟨⟨chars, rest⟩, scanned, same⟩ := Option.map_eq_some_iff.1 h
    obtain ⟨-, rfl⟩ := Prod.mk.inj same
    obtain ⟨front, rfl⟩ := scanText_cut scanned
    exact ⟨c :: (front ++ ['\x27']), by simp, by simp [List.getLast?_cons]⟩
  · split at h
    · obtain ⟨used, same, each⟩ := scanNumber_cut (c :: cs)
      rw [Option.some.inj h] at same
      refine ⟨used, same, without fun member => ?_⟩
      obtain no | no := each ';' member <;> nomatch no
    · split at h
      · obtain ⟨-, rfl⟩ := Prod.mk.inj (Option.some.inj h)
        refine ⟨_, List.takeWhile_append_dropWhile.symm, without fun member => ?_⟩
        nomatch List.all_eq_true.1 List.all_takeWhile ';' member
      · obtain ⟨used, same, no⟩ := scanSymbol_cut h
        exact ⟨used, same, without no⟩

/-- What is spelled by words does not end with a semicolon. -/
theorem Spells.getLast? {cs : List Char} {ws : List Word} (h : Spells cs ws) :
    cs.getLast? ≠ some ';' := by
  induction h with
  | nil => nofun
  | @blank c cs ws is _ ih =>
    intro last
    rw [List.getLast?_cons] at last
    cases rest : cs.getLast? with
    | none =>
      rw [rest] at last
      obtain rfl := Option.some.inj last
      nomatch is
    | some d =>
      rw [rest] at last ih
      exact ih last
  | @word c cs left w ws no scan _ ih =>
    obtain ⟨used, same, ends⟩ := scanWord_cut scan
    rw [same, List.getLast?_append]
    cases rest : left.getLast? with
    | none => exact ends
    | some d =>
      rw [rest] at ih
      exact ih

/-! ## Simple statements -/

/-- A simple statement that is taken for nothing else, with a semicolon after it or without one. -/
structure Plain (text : String) : Prop extends SimpleText text where
  free : (cutWord text.toList).1 ∉ ["if", "while"]
  last : text.toList.getLast? ≠ some ';'

/-- A plain text is not taken for a heading, as its first word is another one. -/
theorem Plain.between?_eq_none {text : String} (h : Plain text) {word : String}
    (is : word ∈ ["if", "while"]) (wordlike : Wordlike word) (back : List Char) :
    between? (word.toList ++ [' ']) back text.toList = none := by
  refine Option.eq_none_iff_forall_ne_some.2 fun inside found => h.free ?_
  rw [between?_eq_some.1 found, List.append_assoc, List.append_assoc, List.singleton_append,
    cutWord_append wordlike (by decide)]
  exact is

/-- With or without its semicolon. -/
theorem Plain.legible {text : String} (h : Plain text) (semicolon : Bool) :
    (Content.statement text semicolon).Legible := by
  cases semicolon with
  | true => exact Content.legible_statement h.toSimpleText
  | false =>
    obtain ⟨c, first, start⟩ := h.starts
    obtain ⟨cs, same⟩ := List.head?_eq_some_iff.1 first
    have isText : (Content.statement text false).text.toList = text.toList := by
      simp [Content.text, terminator]
    have other : ∀ d, isWordStart d = false → c ≠ d := by
      rintro d notStart rfl
      simp [start] at notStart
    have noWord {word : List Char} (no : ¬ ('(' ∈ word ∨ ' ' ∈ word)) : text.toList ≠ word :=
      fun is => no (is ▸ h.goesOn)
    have isIf : "if" ∈ ["if", "while"] := by decide
    have isWhile : "while" ∈ ["if", "while"] := by decide
    have noIf : between? "if ".toList " then".toList text.toList = none :=
      h.between?_eq_none isIf (List.all_eq_true.1 rfl) _
    have noWhile : between? "while ".toList " do".toList text.toList = none :=
      h.between?_eq_none isWhile (List.all_eq_true.1 rfl) _
    have noEnd : between? [] ";".toList text.toList = none := by
      refine Option.eq_none_iff_forall_ne_some.2 fun inside found => ?_
      apply h.last
      rw [between?_eq_some.1 found]
      simp
    constructor
    · exact ⟨c, by rw [isText]; exact first, other ' ' (by decide)⟩
    · rw [isText, same, readContent_of_ne (other _ (by decide)) (other _ (by decide)), ← same, readPlain,
        if_neg (noWord (by decide)), if_neg (noWord (by decide)), if_neg (noWord (by decide)),
        if_neg (noWord (by decide)), if_neg (noWord (by decide)), noIf, noWhile, noEnd]
      simp [Content.marks, ending]

/-- The words of headings are keywords of the source. -/
theorem ne_heading_of_isName {name : String} (named : IsName name) : name ∉ ["if", "while"] := by
  intro is
  simp only [List.mem_cons, List.not_mem_nil, or_false] at is
  obtain rfl | rfl := is <;> exact absurd named.free (by decide)

/-- An assignment mentions its name and those of its value. -/
theorem plain_assignment {name value : String} {t : Term} (named : IsName name) (reads : Reads value t) :
    Plain (name ++ " := " ++ value) ∧
      PhrasesName (Mark.simple (name ++ " := " ++ value)).phrases (name :: t.names) := by
  have cut : cutWord (name ++ " := " ++ value).toList = (name, ' ' :: ':' :: '=' :: ' ' :: value.toList) := by
    simpa using cutWord_append named.wordlike (c := ' ') (by decide) (':' :: '=' :: ' ' :: value.toList)
  refine ⟨⟨?_, ?_, ?_⟩, ?_⟩
  · exact IsAction.simpleText (by simpa using IsAction.assignment named.word (' ' :: value.toList))
  · rw [cut]
    exact ne_heading_of_isName named
  · obtain ⟨words, spells, -⟩ := reads
    have last := spells.getLast?
    rw [String.toList_append, List.getLast?_append]
    cases ends : value.toList.getLast? with
    | none => simp
    | some d =>
      rw [ends] at last
      exact last
  · have named' := PhrasesName.single (Renders.name named |>.loosen (by decide) (by decide)).reads
    have both := named'.append (.single reads)
    simp only [Mark.phrases, cut]
    simpa [Term.names] using both

/-- A call mentions what it reads as. -/
theorem plain_call {name inside : String} {t : Term} (named : IsName name)
    (reads : Reads (name ++ "(" ++ inside ++ ")") t) :
    Plain (name ++ "(" ++ inside ++ ")") ∧
      PhrasesName (Mark.simple (name ++ "(" ++ inside ++ ")")).phrases t.names := by
  have cut : cutWord (name ++ "(" ++ inside ++ ")").toList = (name, '(' :: (inside.toList ++ [')'])) := by
    simpa using cutWord_append named.wordlike (c := '(') (by decide) (inside.toList ++ [')'])
  refine ⟨⟨?_, ?_, ?_⟩, ?_⟩
  · exact IsAction.simpleText (by simpa using IsAction.call named.word (inside.toList ++ [')']))
  · rw [cut]
    exact ne_heading_of_isName named
  · obtain ⟨words, spells, -⟩ := reads
    exact spells.getLast?
  · simp only [Mark.phrases, cut]
    exact .single reads

/-! ## Lines -/

/-- The lines can be read as statements that mention these names. -/
structure Tells (lines : List Line) (names : List String) : Prop where
  legible : ∀ l ∈ lines, l.content.Legible
  phrases : PhrasesName ((marksOf lines).flatMap Mark.phrases) names

namespace Tells

variable {lines lines' : List Line} {names names' : List String}

theorem nil : Tells [] [] :=
  ⟨nofun, .nil⟩

/-- Lines in a row tell the names of both in turn. -/
theorem append (h : Tells lines names) (h' : Tells lines' names') :
    Tells (lines ++ lines') (names ++ names') where
  legible := List.forall_mem_append.2 ⟨h.legible, h'.legible⟩
  phrases := by
    rw [marksOf_append, List.flatMap_append]
    exact h.phrases.append h'.phrases

/-- At any depth the lines mention what they tell. -/
theorem mentions (h : Tells lines names) (depth : Nat) :
    Mentions (lines.map fun l => Line.text { l with depth := l.depth + depth }) names :=
  ⟨_, readLines_of_legible h.legible depth, h.phrases⟩

theorem comment (text : String) : Tells [⟨0, .comment text⟩] [] where
  legible := List.forall_mem_singleton.2 (Content.legible_comment text)
  phrases := .nil

theorem statement {text : String} (h : Plain text ∧ PhrasesName (Mark.simple text).phrases names)
    (semicolon : Bool) : Tells [⟨0, .statement text semicolon⟩] names where
  legible := List.forall_mem_singleton.2 (h.1.legible semicolon)
  phrases := by
    have same : (marksOf [⟨0, .statement text semicolon⟩]).flatMap Mark.phrases =
        (Mark.simple text).phrases := by
      cases semicolon <;> simp [Content.marks, ending, Mark.phrases]
    rw [same]
    exact h.2

/-- One statement more before statements in a row. -/
theorem cons {semicolon : Bool} {text : String} {texts : List String}
    (h : Plain text ∧ PhrasesName (Mark.simple text).phrases names)
    (rest : Tells (statementLines semicolon texts) names') :
    Tells (statementLines semicolon (text :: texts)) (names ++ names') := by
  cases texts with
  | nil => exact (statement h semicolon).append rest
  | cons => exact (statement h true).append rest

/-- A heading with its block. -/
theorem headed {heading : Content} (legible : heading.Legible)
    (first : PhrasesName (heading.marks.flatMap Mark.phrases) names) (h : Tells lines names')
    (semicolon : Bool) :
    Tells (⟨0, heading⟩ :: Line.block lines (.blockEnd semicolon)) (names ++ names') where
  legible := legible_headed legible h.legible semicolon
  phrases := by
    have same : (marksOf (⟨0, heading⟩ :: Line.block lines (.blockEnd semicolon))).flatMap Mark.phrases =
        heading.marks.flatMap Mark.phrases ++ (marksOf lines).flatMap Mark.phrases := by
      cases semicolon <;> simp [Content.marks, ending, Mark.phrases]
    rw [same]
    exact first.append h.phrases

end Tells

end Pascal

open Pascal

/-! ## What statements mention -/

/-- A name in the text of a statement: one that the source refers to, or a routine that Pascal has. -/
inductive Mention where
  | reference (name : String) (location : Location)
  | routine (name : String)
deriving DecidableEq, Repr

def Mention.name : Mention → String
  | reference name _ | routine name => name

mutual

/-- What a node mentions itself, from left to right. Functions that are defined in it are left out. -/
def Node.mentions : Node → List Mention
  | .var name location | .reference name location => [.reference name location]
  | .call name args location => .reference name location :: mentionsAll args
  | .binary _ first second _ | .index first second _ | .assignment first second _ =>
    first.mentions ++ second.mentions
  | .negation operand _ | .complement operand _ => operand.mentions
  | .sequence items _ | .declarations items _ | .alternative items _ => mentionsAll items
  | .conditional condition body _ | .loop condition body _ => condition.mentions ++ mentionsAll body
  | .result value _ => .routine "Exit" :: value.mentions
  | .input targets _ => .routine "readln" :: mentionsAll targets
  | .output items _ => .routine "writeln" :: mentionsAll items
  | .declaration _ | .function .. | .comment .. | .stringLiteral .. | .intLiteral .. | .floatLiteral .. => []

/-- What nodes mention in turn. -/
def Node.mentionsAll : List Node → List Mention
  | [] => []
  | node :: rest => node.mentions ++ mentionsAll rest

end

namespace Node

/-- The names that nodes mention. -/
def namesAll (nodes : List Node) : List String :=
  (mentionsAll nodes).map Mention.name

theorem namesAll_cons (node : Node) (rest : List Node) :
    namesAll (node :: rest) = node.mentions.map Mention.name ++ namesAll rest := by
  simp [namesAll, mentionsAll]

/-- The names in the terms of expressions are what the expressions mention. -/
theorem namesAll_termAll {nodes : List Node}
    (h : ∀ e ∈ nodes, e.term.names = e.mentions.map Mention.name) :
    Term.namesAll (termAll nodes) = namesAll nodes := by
  induction nodes with
  | nil => rfl
  | cons node rest ih =>
    rw [List.forall_mem_cons] at h
    rw [termAll, Term.namesAll, h.1, ih h.2, namesAll_cons]

/-- What an expression mentions are the names of its term, by induction on the expression. -/
theorem IsExpression.names_term {e : Node} (h : e.IsExpression) :
    e.term.names = e.mentions.map Mention.name := by
  induction h with
  | binary _ _ _ _ first second =>
    rw [term, Term.names, first, second, mentions, List.map_append]
  | negation _ _ ih | complement _ _ ih => rw [term, Term.names, ih, mentions]
  | var => rfl
  | call _ _ _ ih =>
    rw [term, Term.names, namesAll_termAll ih, mentions]
    rfl
  | index _ _ _ _ ih =>
    rw [term, Term.names, ih, mentions, List.map_append]
    rfl
  | literal is => cases is <;> rfl

theorem IsWritten.names_term {e : Node} (h : e.IsWritten) :
    e.term.names = e.mentions.map Mention.name := by
  cases h with
  | value is =>
    cases is with
    | expression is => exact is.names_term
    | sequence _ each =>
      rw [term, Term.names, namesAll_termAll fun e member => (each e member).names_term, mentions]
      rfl
  | reference is =>
    cases is
    rfl

/-- The routines that are called for statements of the source have names as the source has them. -/
theorem isName_routine : ∀ name ∈ ["Exit", "readln", "writeln"], IsName name := by
  simp only [List.forall_mem_cons]
  exact ⟨⟨⟨'E', _, rfl, by decide, List.all_eq_true.1 rfl⟩, by decide⟩,
    ⟨⟨'r', _, rfl, by decide, List.all_eq_true.1 rfl⟩, by decide⟩,
    ⟨⟨'w', _, rfl, by decide, List.all_eq_true.1 rfl⟩, by decide⟩, by simp⟩

/-- A call with the arguments written in parentheses. -/
theorem plain_arguments {name : String} {items : List Node} (named : IsName name)
    (each : ∀ e ∈ items, e.IsWritten) : Plain (name ++ "(" ++ pascalList items ++ ")") ∧
      PhrasesName (Mark.simple (name ++ "(" ++ pascalList items ++ ")")).phrases (name :: namesAll items) := by
  have inside : ∀ x ∈ items.map phrase, Renders 1 x.1 x.2 :=
    List.forall_mem_map.2 fun e member => (each e member).renders
  have renders := Renders.call named inside
  rw [← termAll_eq, ← pascalAll_eq] at renders
  have told := plain_call named (renders.loosen (by decide) (by decide)).reads
  rw [Term.names, namesAll_termAll fun e member => (each e member).names_term] at told
  exact told

/-- A statement without a block says what it mentions. -/
theorem IsStatement.plain {s : Node} (h : s.IsStatement) {text : String} (is : s.simpleText? = some text) :
    Plain text ∧ PhrasesName (Mark.simple text).phrases (s.mentions.map Mention.name) := by
  cases h with
  | assignment named _ _ value =>
    obtain rfl := Option.some.inj is
    have told := plain_assignment named (IsWritten.value value).renders.reads
    rw [(IsWritten.value value).names_term] at told
    exact told
  | call named _ items =>
    obtain rfl := Option.some.inj is
    exact plain_arguments named fun e member => (items e member).written
  | @result value _ expression =>
    obtain rfl := Option.some.inj is
    have told := plain_arguments (isName_routine "Exit" (by decide))
      (List.forall_mem_singleton.2 expression.written)
    simpa [pascalList, pascalAll, namesAll, mentionsAll, mentions, Mention.name] using told
  | input _ _ each =>
    obtain rfl := Option.some.inj is
    exact plain_arguments (isName_routine "readln" (by decide)) fun e member => .reference (each e member)
  | output _ _ each =>
    obtain rfl := Option.some.inj is
    exact plain_arguments (isName_routine "writeln" (by decide)) fun e member =>
      (each e member).elim .reference fun is => (IsExpression.literal is).written
  | _ => cases is

end Node

end Pascalize
