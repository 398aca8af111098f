import Pascalize.Pascal.Expression
import Pascalize.Proofs.PascalReading
import Pascalize.Proofs.TreeShape

/-!
# Written expressions read back

`Node.term` is what an expression means to Pascal. `Renders` says of a text that it is spelled by
words with a reading at some level, whatever follows it. Each way to write an expression has a rule
for `Renders`, and the parentheses that are written are the ones that the rules need. Every
expression of a parsed program reads back as itself and as nothing else.
-/

namespace Pascalize

/-- As `not` is a keyword of the source as well, no name is spelled like it. -/
theorem IsName.ne_not {s : String} (h : IsName s) : s ≠ "not" := by
  rintro rfl
  exact absurd h.free (by decide)

namespace Pascal

open Lexeme Phrases

/-! ## Spelling -/

/-- A text before which every word ends. -/
def Stops : List Char → Prop
  | [] => True
  | c :: _ => isWordRest c = false ∧ c ≠ '.' ∧ c ≠ '\x27'

/-- Words and numbers end before these marks. -/
theorem stops_mark {c : Char} (is : c ∈ [' ', '(', ')', '[', ']', ',']) (rest : List Char) :
    Stops (c :: rest) := by
  simp only [List.mem_cons, List.not_mem_nil, or_false] at is
  rcases is with rfl | rfl | rfl | rfl | rfl | rfl <;> exact ⟨by decide, by decide, by decide⟩

theorem Stops.word {rest : List Char} (h : Stops rest) : ∀ c ∈ rest.head?, isWordRest c = false := by
  cases rest with
  | nil => simp
  | cons c rest => simpa using h.1

theorem isWordRest_of_isDigit {c : Char} (h : c.isDigit = true) : isWordRest c = true := by
  simp [isWordRest, Char.isAlphanum, h]

theorem Stops.digit {rest : List Char} (h : Stops rest) : ∀ c ∈ rest.head?, c.isDigit = false := by
  intro c first
  apply Bool.eq_false_iff.2
  intro digit
  exact absurd (isWordRest_of_isDigit digit) (by simp [h.word c first])

/-- Words and digits start with no blank and no quote. -/
theorem plain_of_isWordRest {c : Char} (h : isWordRest c = true) :
    isBlank c = false ∧ c ≠ '\x27' := by
  constructor
  · apply Bool.eq_false_iff.2
    intro blank
    simp only [isBlank, Bool.or_eq_true, decide_eq_true_eq] at blank
    rcases blank with ((rfl | rfl) | rfl) | rfl <;> exact absurd h (by decide)
  · rintro rfl
    exact absurd h (by decide)

theorem not_isDigit_of_isWordStart {c : Char} (h : isWordStart c = true) : c.isDigit = false := by
  simp only [isWordStart, Bool.or_eq_true, decide_eq_true_eq] at h
  obtain letter | rfl := h
  · simp only [Char.isAlpha, Char.isUpper, Char.isLower, Char.isDigit] at letter ⊢
    grind
  · rfl

/-- A name is spelled by its characters, if no word goes on behind it. -/
theorem spells_name {s : String} {rest : List Char} {ws : List Word} (word : IsWord s.toList)
    (stops : Stops rest) (spells : Spells rest ws) : Spells (s.toList ++ rest) (.name s :: ws) := by
  obtain ⟨c, cs, same, start, goesOn⟩ := word
  have isRest := isWordRest_of_start start
  have all : ∀ d ∈ c :: cs, isWordRest d = true := by simpa using ⟨isRest, goesOn⟩
  obtain ⟨taken, left⟩ := takeWhile_of_stop rest all stops.word
  obtain ⟨noBlank, noQuote⟩ := plain_of_isWordRest isRest
  rw [same, List.cons_append]
  refine .word noBlank ?_ spells
  rw [scanWord, if_neg noQuote, if_neg (by simp [not_isDigit_of_isWordStart start]), if_pos start,
    ← List.cons_append, taken, left, ← same, String.ofList_toList]

theorem spells_integer {s : String} {rest : List Char} {ws : List Word} (digits : IsDigits s.toList)
    (stops : Stops rest) (spells : Spells rest ws) :
    Spells (s.toList ++ rest) (.integer s :: ws) := by
  obtain ⟨c, cs, same⟩ := List.exists_cons_of_ne_nil digits.nonempty
  have digit : c.isDigit = true := digits.digits c (by simp [same])
  obtain ⟨taken, left⟩ := takeWhile_of_stop rest digits.digits stops.digit
  obtain ⟨noBlank, noQuote⟩ := plain_of_isWordRest (isWordRest_of_isDigit digit)
  have number : scanNumber (s.toList ++ rest) = (.integer s, rest) := by
    simp only [scanNumber, taken, left, String.ofList_toList]
    split
    next => exact absurd rfl stops.2.1
    next => rfl
  rw [same, List.cons_append] at number ⊢
  refine .word noBlank ?_ spells
  rw [scanWord, if_neg noQuote, if_pos digit, number]

/-- A fraction has digits on both sides of its point. -/
theorem spells_real {s : String} {whole frac rest : List Char} {ws : List Word}
    (same : s.toList = whole ++ '.' :: frac) (digits : IsDigits whole) (more : IsDigits frac)
    (stops : Stops rest) (spells : Spells rest ws) :
    Spells (s.toList ++ rest) (.real s :: ws) := by
  obtain ⟨c, cs, rfl⟩ := List.exists_cons_of_ne_nil digits.nonempty
  obtain ⟨d, ds, rfl⟩ := List.exists_cons_of_ne_nil more.nonempty
  have digit : c.isDigit = true := digits.digits c List.mem_cons_self
  have digit' : d.isDigit = true := more.digits d List.mem_cons_self
  obtain ⟨noBlank, noQuote⟩ := plain_of_isWordRest (isWordRest_of_isDigit digit)
  obtain ⟨taken, left⟩ := takeWhile_of_stop ('.' :: d :: (ds ++ rest)) digits.digits (by simp)
  obtain ⟨taken', left'⟩ := takeWhile_of_stop rest more.digits stops.digit
  rw [List.cons_append] at taken left taken' left'
  have first : s.toList ++ rest = c :: (cs ++ '.' :: d :: (ds ++ rest)) := by simp [same]
  have number : scanNumber (c :: (cs ++ '.' :: d :: (ds ++ rest))) = (.real s, rest) := by
    simp only [scanNumber, taken, left, digit', if_true, taken', left', ← same, String.ofList_toList]
  rw [first]
  refine .word noBlank ?_ spells
  rw [scanWord, if_neg noQuote, if_pos digit, number]

/-- The text of a literal with a fraction has digits on both sides of its point. -/
theorem fraction_toList {s : String} (h : IsFraction s.toList) : ∃ whole frac,
    (fraction s).toList = whole ++ '.' :: frac ∧ IsDigits whole ∧ IsDigits frac := by
  obtain ⟨whole, frac, same, digits, more⟩ := h
  unfold fraction
  cases last : frac.getLast? with
  | none =>
    obtain rfl := List.getLast?_eq_none_iff.1 last
    refine ⟨whole, ['0'], ?_, digits, by simp, by simp⟩
    rw [if_pos (by simp [same]), String.toList_append, same]
    simp
  | some d =>
    have member := List.mem_of_getLast? last
    refine ⟨whole, frac, ?_, digits, List.ne_nil_of_mem member, more⟩
    rw [if_neg, same]
    rw [same, List.getLast?_append, List.getLast?_cons, last]
    rintro ⟨⟩
    exact absurd (more _ member) (by decide)

/-- The quotes that are doubled in writing are read as one. -/
theorem scanText_doubled (cs rest : List Char) (stops : rest.head? ≠ some '\x27') :
    scanText ((cs.flatMap fun c => if c = '\x27' then [c, c] else [c]) ++ '\x27' :: rest) =
      some (cs, rest) := by
  induction cs with
  | nil =>
    cases rest with
    | nil => rfl
    | cons d rest =>
      have : d ≠ '\x27' := by simpa using stops
      simp [scanText, this]
  | cons c cs ih =>
    by_cases quote : c = '\x27'
    · subst quote
      simp only [List.flatMap_cons, if_true, List.cons_append, List.nil_append, scanText, ih,
        Option.map_some]
    · simp only [List.flatMap_cons, quote, if_false, List.cons_append, List.nil_append]
      rw [scanText, ih]
      · rfl
      · exact fun _ same => absurd same quote
      · exact quote

/-- A string is spelled by its quoted text, in which quotes are doubled. -/
theorem spells_text {s : String} {rest : List Char} {ws : List Word} (stops : Stops rest)
    (spells : Spells rest ws) : Spells ((quoted s).toList ++ rest) (.text s :: ws) := by
  have noQuote : rest.head? ≠ some '\x27' := by
    cases rest with
    | nil => simp
    | cons c rest => simpa using stops.2.2
  have scanned := scanText_doubled s.toList rest noQuote
  have opened : (quoted s).toList ++ rest = '\x27' ::
      ((s.toList.flatMap fun c => if c = '\x27' then [c, c] else [c]) ++ '\x27' :: rest) := by
    simp [quoted]
  rw [opened]
  refine .word (by decide) ?_ spells
  rw [scanWord, if_pos rfl, scanned]
  simp

/-- A symbol that is no half of another. -/
theorem spells_symbol {c : Char} {rest : List Char} {ws : List Word}
    (is : c ∈ ['+', '-', '*', '/', '=', '(', ')', '[', ']', ',']) (spells : Spells rest ws) :
    Spells (c :: rest) (.symbol (String.singleton c) :: ws) := by
  simp only [List.mem_cons, List.not_mem_nil, or_false] at is
  rcases is with rfl | rfl | rfl | rfl | rfl | rfl | rfl | rfl | rfl | rfl <;>
    exact .word (by decide) rfl spells

/-- An operator with blanks around it is one word. -/
theorem spells_operator (op : Operator) {rest : List Char} {ws : List Word}
    (spells : Spells rest ws) :
    Spells (' ' :: (op.pascal.toList ++ ' ' :: rest)) (operatorWord op :: ws) := by
  cases op <;> exact .blank rfl (.word (by decide) rfl (.blank rfl spells))

/-! ## Rendering -/

/-- The text is spelled by words that stand for the term, whatever ends them. -/
def Renders (p : Nat) (text : String) (t : Term) : Prop :=
  ∃ words, Reading p words t ∧ ∀ rest ws, Stops rest → Spells rest ws →
    Spells (text.toList ++ rest) (words ++ ws)

namespace Renders

/-- What renders at the lowest level reads as a whole expression. -/
theorem reads {text : String} {t : Term} (h : Renders 1 text t) : Reads text t := by
  obtain ⟨words, reading, spelled⟩ := h
  refine ⟨words, ?_, reading⟩
  simpa using spelled [] [] trivial .nil

/-- A tight expression may stand where a loose one may. -/
theorem loosen {p q : Nat} {text : String} {t : Term} (h : Renders q text t) (le : p ≤ q)
    (low : q ≤ 4) : Renders p text t := by
  obtain ⟨words, reading, spelled⟩ := h
  exact ⟨words, reading.loosen le low, spelled⟩

theorem name {s : String} (named : IsName s) : Renders 4 s (.name s) :=
  ⟨_, .name named.ne_not, fun _ _ => spells_name named.word⟩

/-- Parentheses make any expression tight. -/
theorem group {text : String} {t : Term} (h : Renders 1 text t) :
    Renders 4 ("(" ++ text ++ ")") t := by
  obtain ⟨words, reading, spelled⟩ := h
  refine ⟨_, .group reading, fun rest ws stops spells => ?_⟩
  have closed : Spells (')' :: rest) (.symbol ")" :: ws) := spells_symbol (by decide) spells
  have inner := spelled _ _ (stops_mark (by decide) rest) closed
  simpa using spells_symbol (c := '(') (by decide) inner

/-- Operators group to the left: the right operand has to be tighter. -/
theorem binary {op : Operator} {left right : String} {l r : Term} (first : Renders (row op) left l)
    (second : Renders (row op + 1) right r) :
    Renders (row op) (left ++ " " ++ op.pascal ++ " " ++ right) (.binary op l r) := by
  obtain ⟨v, reading, spelled⟩ := first
  obtain ⟨w, reading', spelled'⟩ := second
  refine ⟨_, reading.binary reading', fun rest ws stops spells => ?_⟩
  have inner := spells_operator op (spelled' rest ws stops spells)
  simpa using spelled _ _ (stops_mark (by decide) _) inner

/-- A sign binds tighter than all operators. -/
theorem negative {text : String} {t : Term} (h : Renders 4 text t) :
    Renders 4 ("-" ++ text) (.negative t) := by
  obtain ⟨words, reading, spelled⟩ := h
  refine ⟨_, .negative reading, fun rest ws stops spells => ?_⟩
  simpa using spells_symbol (c := '-') (by decide) (spelled rest ws stops spells)

theorem complement {text : String} {t : Term} (h : Renders 4 text t) :
    Renders 4 ("not " ++ text) (.complement t) := by
  obtain ⟨words, reading, spelled⟩ := h
  refine ⟨_, .complement reading, fun rest ws stops spells => ?_⟩
  have inner := Spells.blank (c := ' ') rfl (spelled rest ws stops spells)
  have word : IsWord "not".toList := ⟨'n', ['o', 't'], rfl, by decide, List.all_eq_true.1 rfl⟩
  simpa using spells_name word (stops_mark (by decide) _) inner

theorem index {s text : String} {t : Term} (named : IsName s) (h : Renders 1 text t) :
    Renders 4 (s ++ "[" ++ text ++ "]") (.index (.name s) t) := by
  obtain ⟨words, reading, spelled⟩ := h
  refine ⟨_, .index named.ne_not reading, fun rest ws stops spells => ?_⟩
  have closed : Spells (']' :: rest) (.symbol "]" :: ws) := spells_symbol (by decide) spells
  have inner := spelled _ _ (stops_mark (by decide) rest) closed
  have opened := spells_symbol (c := '[') (by decide) inner
  simpa using spells_name named.word (stops_mark (by decide) _) opened

/-- Texts with commas between them, in the order of their terms. -/
theorem list {phrases : List (String × Term)} (each : ∀ x ∈ phrases, Renders 1 x.1 x.2) :
    ∃ items : List (List Word × Term), items.map Prod.snd = phrases.map Prod.snd ∧
      (∀ x ∈ items, Reading 1 x.1 x.2) ∧ ∀ rest ws, Stops rest → Spells rest ws →
        Spells ((", ".intercalate (phrases.map Prod.fst)).toList ++ rest) (joined (.symbol ",") items ++ ws) := by
  induction phrases with
  | nil => exact ⟨[], rfl, by simp, fun rest ws _ spells => by simpa [joined] using spells⟩
  | cons x phrases ih =>
    simp only [List.mem_cons, forall_eq_or_imp] at each
    obtain ⟨words, reading, spelled⟩ := each.1
    obtain ⟨items, terms, readings, spelledRest⟩ := ih each.2
    refine ⟨(words, x.2) :: items, by simp [terms], by simpa using ⟨reading, fun v t => readings (v, t)⟩,
      fun rest ws stops spells => ?_⟩
    cases phrases with
    | nil =>
      obtain rfl : items = [] := by simpa using terms
      simpa [joined] using spelled rest ws stops spells
    | cons y phrases =>
      obtain ⟨item, items, rfl⟩ : ∃ item rest, items = item :: rest :=
        List.exists_cons_of_ne_nil (by rintro rfl; simp at terms)
      have inner := spelledRest rest ws stops spells
      have separated := spells_symbol (c := ',') (by decide) (Spells.blank (c := ' ') rfl inner)
      have first := spelled _ _ (stops_mark (by decide) _) separated
      simpa [joined, String.intercalate_cons_cons, List.intercalate_cons_cons] using first

/-- Arguments are whole expressions, with commas between them. -/
theorem call {s : String} {phrases : List (String × Term)} (named : IsName s)
    (each : ∀ x ∈ phrases, Renders 1 x.1 x.2) :
    Renders 4 (s ++ "(" ++ ", ".intercalate (phrases.map Prod.fst) ++ ")")
      (.call s (phrases.map Prod.snd)) := by
  obtain ⟨items, terms, readings, spelled⟩ := list each
  rw [← terms]
  refine ⟨_, .call named.ne_not readings, fun rest ws stops spells => ?_⟩
  have closed : Spells (')' :: rest) (.symbol ")" :: ws) := spells_symbol (by decide) spells
  have inner := spelled _ _ (stops_mark (by decide) rest) closed
  have opened := spells_symbol (c := '(') (by decide) inner
  simpa using spells_name named.word (stops_mark (by decide) _) opened

theorem sequence {phrases : List (String × Term)} (each : ∀ x ∈ phrases, Renders 1 x.1 x.2) :
    Renders 4 ("[" ++ ", ".intercalate (phrases.map Prod.fst) ++ "]")
      (.sequence (phrases.map Prod.snd)) := by
  obtain ⟨items, terms, readings, spelled⟩ := list each
  rw [← terms]
  refine ⟨_, .sequence readings, fun rest ws stops spells => ?_⟩
  have closed : Spells (']' :: rest) (.symbol "]" :: ws) := spells_symbol (by decide) spells
  have inner := spelled _ _ (stops_mark (by decide) rest) closed
  simpa using spells_symbol (c := '[') (by decide) inner

end Renders

end Pascal

open Pascal

mutual

/-- What an expression stands for in Pascal: its tree without locations, with every name alike and
fractions as they are written. Nodes that are no expressions stand for the empty list. -/
def Node.term : Node → Term
  | .binary op left right _ => .binary op left.term right.term
  | .negation operand _ => .negative operand.term
  | .complement operand _ => .complement operand.term
  | .var name _ | .reference name _ => .name name
  | .call name args _ => .call name (termAll args)
  | .index target position _ => .index target.term position.term
  | .sequence items _ => .sequence (termAll items)
  | .stringLiteral text _ => .text text
  | .intLiteral text _ => .integer text
  | .floatLiteral text _ => .real (fraction text)
  | .declaration .. | .declarations .. | .function .. | .assignment .. | .conditional ..
  | .loop .. | .alternative .. | .result .. | .input .. | .output .. | .comment .. => .sequence []

/-- What expressions stand for, one by one. -/
def Node.termAll : List Node → List Term
  | [] => []
  | node :: rest => node.term :: termAll rest

end

namespace Node

/-- The text of an expression with its term. -/
def phrase (e : Node) : String × Term :=
  (e.pascal, e.term)

theorem pascalAll_eq (nodes : List Node) :
    pascalAll nodes = (nodes.map phrase).map Prod.fst := by
  induction nodes with
  | nil => simp [pascalAll]
  | cons node nodes ih => simp [pascalAll, ih, phrase]

theorem termAll_eq (nodes : List Node) : termAll nodes = (nodes.map phrase).map Prod.snd := by
  induction nodes with
  | nil => simp [termAll]
  | cons node nodes ih => simp [termAll, ih, phrase]

/-- The level at which the text of an expression can be read. -/
def level : Node → Nat
  | .binary op _ _ _ => if op.isArithmetic then row op else 4
  | _ => 4

theorem level_bounds (e : Node) : 1 ≤ e.level ∧ e.level ≤ 4 := by
  unfold level
  split
  next op _ _ _ =>
    have := row_bounds op
    split <;> omega
  · omega

/-- Arithmetic operators are ranked alike in both languages. -/
theorem row_of_isArithmetic {op : Operator} (h : op.isArithmetic = true) :
    row op + 2 = op.precedence := by
  cases op <;> first | rfl | nomatch h

/-- Arithmetic that is written bare under an operator binds tighter than it or, on the left, as
tight. -/
theorem row_le_of_groupsUnder {parent op : Operator} {isRight : Bool}
    (arithmetic : op.isArithmetic = true) (bare : groupsUnder parent op isRight = false) :
    row parent + isRight.toNat ≤ row op := by
  have inner := row_of_isArithmetic arithmetic
  by_cases outer : parent.isArithmetic = true
  · have strength := row_of_isArithmetic outer
    unfold groupsUnder at bare
    split at bare
    next => nomatch bare
    next => nomatch bare
    next =>
      rw [outer] at bare
      cases isRight <;> simp at bare <;> simp only [Bool.toNat_true, Bool.toNat_false] <;> omega
  · -- What is left are the comparisons, which bind looser than all arithmetic.
    have loose : row parent = 1 := by
      cases parent <;> simp_all [groupsUnder, Operator.isArithmetic, row]
    have tight : 4 ≤ op.precedence := by
      cases op <;> first | decide | nomatch arithmetic
    have := isRight.toNat_le
    omega

/-- An operand without parentheses is tight enough for the place where it stands. -/
theorem row_le_level {parent : Operator} {isRight : Bool} {e : Node}
    (bare : needsGroup parent isRight e = false) : row parent + isRight.toNat ≤ e.level := by
  have low := row_bounds parent
  have := isRight.toNat_le
  unfold level
  split
  next op _ _ _ =>
    by_cases arithmetic : op.isArithmetic = true
    · rw [if_pos arithmetic]
      exact row_le_of_groupsUnder arithmetic (by simpa [needsGroup, arithmetic] using bare)
    · rw [if_neg arithmetic]
      omega
  · omega

theorem level_of_unary {e : Node} (bare : needsUnaryGroup e = false) : e.level = 4 := by
  cases e with
  | binary op => simp_all [needsUnaryGroup, level]
  | _ => rfl

/-- An operand is written so that it can be read next to its operator. -/
theorem renders_operand (parent : Operator) (isRight : Bool) {e : Node}
    (h : Renders e.level e.pascal e.term) :
    Renders (row parent + isRight.toNat) (parenthesized (needsGroup parent isRight e) e.pascal)
      e.term := by
  have low := row_bounds parent
  have := isRight.toNat_le
  cases group : needsGroup parent isRight e with
  | true => exact (h.loosen e.level_bounds.1 e.level_bounds.2).group.loosen (by omega) (Nat.le_refl 4)
  | false => exact h.loosen (row_le_level group) e.level_bounds.2

/-- An operand of a sign is tight, with its parentheses if it has any. -/
theorem renders_unary {e : Node} (h : Renders e.level e.pascal e.term) :
    Renders 4 (parenthesized (needsUnaryGroup e) e.pascal) e.term := by
  cases group : needsUnaryGroup e with
  | true => exact (h.loosen e.level_bounds.1 e.level_bounds.2).group
  | false =>
    rw [level_of_unary group] at h
    exact h

theorem whole {e : Node} (h : Renders e.level e.pascal e.term) :
    Renders 1 e.phrase.1 e.phrase.2 :=
  h.loosen e.level_bounds.1 e.level_bounds.2

/-- **An expression renders at its level**, by induction on the expression. -/
theorem IsExpression.renders {e : Node} (h : e.IsExpression) : Renders e.level e.pascal e.term := by
  induction h with
  | @binary left right op location _ _ first second =>
    have bare := (renders_operand op false first).binary (renders_operand op true second)
    have low := row_bounds op
    cases arithmetic : op.isArithmetic with
    | true => simpa [level, pascal, term, arithmetic, parenthesized] using bare
    | false =>
      have grouped := (bare.loosen low.1 (by omega)).group
      simpa [level, pascal, term, arithmetic, parenthesized] using grouped
  | negation _ _ ih =>
    rw [pascal, term]
    exact (renders_unary ih).negative
  | complement _ _ ih =>
    rw [pascal, term]
    exact (renders_unary ih).complement
  | var named =>
    rw [pascal, term]
    exact .name named
  | call named _ _ ih =>
    rw [pascal, term, pascalAll_eq, termAll_eq]
    exact .call named (List.forall_mem_map.2 fun e member => whole (ih e member))
  | index named _ _ _ ih =>
    rw [pascal, term, pascal, term]
    exact .index named (whole ih)
  | literal is =>
    cases is with
    | string text =>
      rw [pascal, term]
      exact ⟨_, .text _, fun _ _ => spells_text⟩
    | integer digits =>
      rw [pascal, term]
      exact ⟨_, .integer _, fun _ _ => spells_integer digits⟩
    | fraction digits =>
      rw [pascal, term]
      obtain ⟨whole, frac, same, wholeDigits, fracDigits⟩ := fraction_toList digits
      exact ⟨_, .real _, fun _ _ => spells_real same wholeDigits fracDigits⟩

theorem IsWritten.renders {e : Node} (h : e.IsWritten) : Renders 1 e.pascal e.term := by
  cases h with
  | value is =>
    cases is with
    | expression is => exact whole is.renders
    | sequence _ each =>
      rw [pascal, term, pascalAll_eq, termAll_eq]
      have list := Renders.sequence
        (List.forall_mem_map.2 fun e member => whole (each e member).renders)
      exact list.loosen (by decide) (by decide)
  | reference is =>
    obtain ⟨named, _⟩ := is
    rw [pascal, term]
    exact (Renders.name named).loosen (by decide) (by decide)

end Node

/-- **Writing keeps the grouping**: the text of an expression in a parsed program has one reading in
Pascal, and this is the expression itself. So expressions with the same text are the same. -/
theorem Program.reads_pascal_iff {source : String} {program : Program} {e : Node}
    (parsed : Program.parse source = .ok program) (inside : program.Has e)
    (value : e.isExpression = true) :
    (∀ t, Reads e.pascal t ↔ t = e.term) ∧
    ∀ source' program' e', Program.parse source' = .ok program' → program'.Has e' →
      e'.isExpression = true → e'.pascal = e.pascal → e'.term = e.term := by
  have reads := (inside.isWritten parsed value).renders.reads
  refine ⟨fun t => ⟨fun other => other.unique reads, ?_⟩, ?_⟩
  · rintro rfl
    exact reads
  · intro source' program' e' parsed' inside' value' same
    have reads' := (inside'.isWritten parsed' value').renders.reads
    rw [same] at reads'
    exact reads'.unique reads

/-- A sum that needs its parentheses, a sign that needs none, and a point that gets its digit. -/
theorem Program.reads_pascal_of_product :
    Program.parse "x = (a + 1.) * -b;" = .ok ⟨[.assignment (.var "x" ⟨1, 1⟩)
      (.binary .mul (.binary .add (.var "a" ⟨1, 6⟩) (.floatLiteral "1." ⟨1, 10⟩) ⟨1, 8⟩)
        (.negation (.var "b" ⟨1, 17⟩) ⟨1, 16⟩) ⟨1, 14⟩) ⟨1, 3⟩], ⟨1, 19⟩⟩ ∧
    ∀ t, Reads "(a + 1.0) * -b" t ↔
      t = .binary .mul (.binary .add (.name "a") (.real "1.0")) (.negative (.name "b")) := by
  have parsed : Program.parse "x = (a + 1.) * -b;" = .ok ⟨[.assignment (.var "x" ⟨1, 1⟩)
      (.binary .mul (.binary .add (.var "a" ⟨1, 6⟩) (.floatLiteral "1." ⟨1, 10⟩) ⟨1, 8⟩)
        (.negation (.var "b" ⟨1, 17⟩) ⟨1, 16⟩) ⟨1, 14⟩) ⟨1, 3⟩], ⟨1, 19⟩⟩ :=
    (Program.parse_ofList _).trans (by decide +kernel)
  have reads := Program.reads_pascal_iff parsed
    ⟨_, List.mem_cons_self, .under (List.mem_cons_of_mem _ List.mem_cons_self) .self⟩ rfl
  exact ⟨parsed, reads.1⟩

end Pascalize
