import Pascalize.Proofs.BlockComments
import Pascalize.Proofs.LexemeGrammar

/-!
# Printing tokens and reading them again

`Token.print` writes tokens in a row: strings in quotes that they do not hold, a space between two
tokens, and none after a comment, which goes to the end of its line. A lexeme before a space or a line
feed is read as it stands (`Lexeme.read_of_lexical`), and the tokens of a text are such that all of
them stand like this (`Token.Printable`). So tokens that were read are read again
(`Lexer.tokenize_print`).
-/

namespace Pascalize

/-- The characters that a token of a kind is printed with. -/
def Kind.printed (text : List Char) : Kind → List Char
  | .stringLiteral =>
    if '\x22' ∈ text then '\x27' :: (text ++ ['\x27']) else '\x22' :: (text ++ ['\x22'])
  | .lineComment => '/' :: '/' :: text
  | .newline => ['\n']
  | _ => text

/-- The characters that a token is printed with. -/
def Token.printed (t : Token) : List Char :=
  t.kind.printed t.text.toList

/-- What is printed between a token and the next. -/
def Token.gap (t : Token) : List Char :=
  if t.kind = .lineComment then [] else [' ']

/-- The characters that tokens are printed with. -/
def Token.row : List Token → List Char
  | [] => []
  | [t] => t.printed
  | t :: s :: rest => t.printed ++ t.gap ++ row (s :: rest)

/-- The text that tokens are printed as. -/
def Token.print (tokens : List Token) : String :=
  String.ofList (row tokens)

namespace Lexeme

/-- What may stand right after a printed token. -/
def Apart (kind : Kind) (after : List Char) : Prop :=
  ∀ d ∈ after.head?, d = '\n' ∨ d = ' ' ∧ kind ≠ .lineComment

variable {c : Char} {w after : List Char} {kind : Kind} {text : String}

/-- What keeps lexemes apart begins with a blank or a line feed, which are part of neither. -/
theorem Apart.stop {p : Char → Bool} (h : Apart kind after) (feed : p '\n' = false)
    (space : p ' ' = false) : ∀ d ∈ after.head?, p d = false := by
  intro d first
  obtain rfl | ⟨rfl, -⟩ := h d first
  · exact feed
  · exact space

/-- A word stops before what keeps it apart. -/
theorem readWord_of_word (word : IsWord w) (apart : Apart kind after) :
    readWord (w ++ after) = ⟨.ok (.ofWord (String.ofList w), String.ofList w), w, after⟩ := by
  have all : ∀ d ∈ w, isWordRest d = true := by
    obtain ⟨c, rest, rfl, start, more⟩ := word
    exact List.forall_mem_cons.2 ⟨isWordRest_of_start start, more⟩
  obtain ⟨taken, left⟩ := takeWhile_of_stop after all (apart.stop (by decide) (by decide))
  simp only [readWord, taken, left]

/-- A string ends with its second quote, whatever follows. -/
theorem readString_of_body (inside : c ∉ w) (after : List Char) :
    readString c (w ++ [c] ++ after) =
      ⟨.ok (.stringLiteral, String.ofList w), c :: (w ++ [c]), after⟩ := by
  obtain ⟨taken, left⟩ := takeWhile_of_stop (c :: after) (all_ne_of_not_mem inside) (by simp)
  rw [List.append_assoc, List.singleton_append, readString_of_closed left, taken]

theorem numeral_of_digits (digits : IsDigits w) (apart : Apart kind after) :
    numeral (w ++ after) = (.intLiteral, w, after) := by
  obtain ⟨taken, left⟩ := takeWhile_of_stop after digits.digits (apart.stop (by decide) (by decide))
  have noPoint : '.' ∉ after.head? := by
    intro first
    obtain feed | ⟨space, -⟩ := apart _ first
    · exact absurd feed (by decide)
    · exact absurd space (by decide)
  rw [numeral_of_other (by rw [left]; exact noPoint), taken, left]

theorem numeral_of_fraction (fraction : IsFraction w) (apart : Apart kind after) :
    numeral (w ++ after) = (.floatLiteral, w, after) := by
  obtain ⟨whole, rest, rfl, digits, more⟩ := fraction
  obtain ⟨taken, left⟩ := takeWhile_of_stop ('.' :: (rest ++ after)) digits.digits (by simp)
  obtain ⟨taken', left'⟩ := takeWhile_of_stop after more (apart.stop (by decide) (by decide))
  rw [List.append_assoc, List.cons_append, numeral_of_point left, taken, taken', left']

/-- A number stops before what keeps it apart, as no letter touches it. -/
theorem readNumber_of_numeral {number : Kind} (same : numeral (w ++ after) = (number, w, after))
    (apart : Apart kind after) :
    readNumber (w ++ after) = ⟨.ok (number, String.ofList w), w, after⟩ := by
  have free : ∀ d ∈ (numeral (w ++ after)).2.2.head?, isWordStart d = false := by
    rw [same]
    exact apart.stop (by decide) (by decide)
  rw [readNumber_of_free free, same]

theorem pair?_space (c : Char) : pair? c ' ' = none := by
  unfold pair?
  split <;> simp_all

/-- A mark of one character is not taken for one of two, as no such mark holds a blank. -/
theorem readSymbol_of_single (single : single? c = some kind) (apart : Apart kind after) :
    readSymbol c after = ⟨.ok (kind, String.ofList [c]), [c], after⟩ := by
  have alone : readSymbol c after = readSingle c after := by
    cases after with
    | nil => rfl
    | cons d after =>
      obtain rfl | ⟨rfl, -⟩ := apart d rfl
      · rw [readSymbol, pair?_feed, if_neg (by simp)]
      · rw [readSymbol, pair?_space, if_neg (by simp)]
  rw [alone, readSingle, single]
  rfl

theorem readSymbol_of_pair {d : Char} (pair : pair? c d = some kind) :
    readSymbol c (d :: after) = ⟨.ok (kind, String.ofList [c, d]), [c, d], after⟩ := by
  have noComment : ¬ (c = '/' ∧ d = '/') := by
    rintro ⟨rfl, rfl⟩
    cases pair
  simp only [readSymbol, if_neg noComment, pair]

/-- A comment stops before the line feed that follows it. -/
theorem readLineComment_of_line (line : '\n' ∉ w) (apart : Apart .lineComment after) :
    readLineComment (w ++ after) =
      ⟨.ok (.lineComment, String.ofList w), '/' :: '/' :: w, after⟩ := by
  have stop : ∀ d ∈ after.head?, decide (d ≠ '\n') = false := by
    intro d first
    obtain rfl | ⟨-, no⟩ := apart d first
    · decide
    · exact absurd rfl no
  obtain ⟨taken, left⟩ := takeWhile_of_stop after (all_ne_of_not_mem line) stop
  simp only [readLineComment, taken, left]

/-- **A lexeme that stands apart** is read as it stands. -/
theorem read_of_lexical (lexeme : Lexical (c :: w) kind text) (apart : Apart kind after) :
    read c (w ++ after) = ⟨.ok (kind, text), c :: w, after⟩ := by
  have opens := lexical_iff_opens.1 lexeme
  rw [read_eq_reader]
  cases is : Class.of c <;> simp only [Opens, is] at opens
  case feed =>
    obtain ⟨rfl, rfl, rfl⟩ := opens
    have has := Class.has_of c
    rw [is] at has
    obtain rfl : c = '\n' := has
    rfl
  case quote =>
    obtain ⟨body, inside, rfl, rfl, rfl⟩ := opens
    exact readString_of_body inside after
  case digit =>
    obtain ⟨⟨digits, rfl⟩ | ⟨fraction, rfl⟩, rfl⟩ := opens
    · exact readNumber_of_numeral (numeral_of_digits digits apart) apart
    · exact readNumber_of_numeral (numeral_of_fraction fraction apart) apart
  case letter =>
    obtain ⟨word, rfl, rfl⟩ := opens
    exact readWord_of_word word apart
  case symbol =>
    obtain ⟨rfl, single, rfl⟩ | ⟨d, rfl, pair, rfl⟩ | ⟨rfl, line, inside, rfl, rfl, rfl⟩ := opens
    · exact readSymbol_of_single single apart
    · exact readSymbol_of_pair pair
    · exact readLineComment_of_line inside apart

/-- No lexeme starts with a blank. -/
theorem Lexical.not_blank (h : Lexical (c :: w) kind text) : isBlank c = false := by
  rw [← Bool.not_eq_true, isBlank_iff]
  have opens := lexical_iff_opens.1 h
  rintro (rfl | rfl | rfl) <;>
    obtain ⟨-, single, -⟩ | ⟨d, -, pair, -⟩ | ⟨slash, -⟩ := opens <;>
    first | cases single | cases slash | exact absurd pair (by simp [pair?])

theorem printed_of_spelled (h : kind.spelling? = some text) (w : List Char) : kind.printed w = w := by
  unfold Kind.printed
  split
  · cases h
  · cases h
  · cases h
  · rfl

/-- What was read is printed as a lexeme of its kind with its text. -/
theorem Lexical.printed (h : Lexical w kind text) : Lexical (kind.printed text.toList) kind text := by
  cases h with
  | spelled is =>
    rw [printed_of_spelled is, String.toList_ofList]
    exact .spelled is
  | name word free =>
    rw [String.toList_ofList]
    exact .name word free
  | integer digits =>
    rw [String.toList_ofList]
    exact .integer digits
  | fraction digits =>
    rw [String.toList_ofList]
    exact .fraction digits
  | @quoted quote body isQuote inside =>
    rw [String.toList_ofList, Kind.printed]
    split
    next double =>
      have single : quote = '\x27' := isQuote.resolve_left fun same => inside (same ▸ double)
      exact .quoted (.inr rfl) (single ▸ inside)
    next single => exact .quoted (.inl rfl) single
  | comment line =>
    rw [String.toList_ofList]
    exact .comment line
  | feed => exact .feed

end Lexeme

open Lexeme

namespace Token

/-- Tokens that can be printed in a row: each is a lexeme, and a line feed ends every comment. -/
def Printable : List Token → Prop
  | [] => True
  | t :: rest => (∃ w, Lexical w t.kind t.text) ∧
      (t.kind = .lineComment → ∀ s ∈ rest.head?, s.kind = .newline) ∧ Printable rest

/-- A token, a gap if another one follows, and the others. -/
theorem row_eq (t : Token) (rest : List Token) :
    row (t :: rest) = t.printed ++ ((if rest = [] then [] else t.gap) ++ row rest) := by
  cases rest with
  | nil => simp [row]
  | cons s rest => simp [row]

/-- What follows a printed token keeps it apart. -/
theorem apart_row {t : Token} {rest : List Token}
    (comment : t.kind = .lineComment → ∀ s ∈ rest.head?, s.kind = .newline) :
    Apart t.kind ((if rest = [] then [] else t.gap) ++ row rest) := by
  cases rest with
  | nil => simp [Apart, row]
  | cons s rest =>
    intro d first
    rw [if_neg (List.cons_ne_nil s rest), gap] at first
    split at first
    next is =>
      rw [List.nil_append, row_eq, printed, comment is s rfl] at first
      exact .inl (Option.some.inj first).symm
    next other => exact .inr ⟨(Option.some.inj first).symm, other⟩

theorem blank_gap (t : Token) (rest : List Token) :
    ∀ d ∈ (if rest = [] then [] else t.gap), isBlank d = true := by
  unfold gap
  split
  · simp
  · split <;> simp [isBlank]

end Token

namespace Lexer

/-- **Printed tokens** are read again, with the end of input after them. -/
theorem items_row {tokens : List Token} (printable : Token.Printable tokens) {l : Lexer}
    {gap : List Char} (unread : l.unread = gap ++ Token.row tokens)
    (blank : ∀ d ∈ gap, isBlank d = true) :
    ∃ tokens' : List Token, l.items = tokens'.map .ok ∧
      tokens'.map Token.content = tokens.map Token.content ++ [(.endOfInput, "")] := by
  -- The space after a token is skipped with the next one, so the texts here may start with blanks.
  induction tokens generalizing l gap with
  | nil =>
    rw [Token.row, List.append_nil] at unread
    exact ⟨[⟨.endOfInput, "", l.skipBlanks.location⟩], items_of_blank (unread ▸ blank), rfl⟩
  | cons t rest ih =>
    obtain ⟨⟨w, lexeme⟩, comment, printable'⟩ := printable
    have printed : Lexical t.printed t.kind t.text := lexeme.printed
    obtain ⟨c, v, same⟩ := List.exists_cons_of_ne_nil printed.ne_nil
    rw [same] at printed
    rw [Token.row_eq, same, List.cons_append] at unread
    have reading := read_of_lexical printed (Token.apart_row comment)
    have now := next_of_lexeme unread blank printed.not_blank (by rw [reading])
    rw [reading] at now
    have more : t.kind ≠ .endOfInput := kind_ne_end (by rw [reading])
    obtain ⟨tokens', stream, contents⟩ := ih printable' (l := l.next.2) (by rw [now]) (Token.blank_gap t rest)
    have token : l.next.1 = .ok ⟨t.kind, t.text, l.location.after gap⟩ := by rw [now]
    refine ⟨⟨t.kind, t.text, l.location.after gap⟩ :: tokens', ?_, ?_⟩
    · rw [items_of_token token more, stream]
      rfl
    · rw [List.map_cons, contents]
      rfl

/-- A line feed that stands next is read next. -/
theorem newline_of_feed {l : Lexer} {t : Token} (reading : l.next.1 = .ok t)
    (more : t.kind ≠ .endOfInput) (feed : ∀ d ∈ l.unread.head?, d = '\n') : t.kind = .newline := by
  obtain ⟨gap, c, cs, unread, blank, start, ok, -⟩ := lexeme_of_next reading more
  rw [unread] at feed
  cases gap with
  | nil =>
    obtain rfl := feed c rfl
    exact (congrArg Prod.fst (Except.ok.inj ok)).symm
  | cons d gap =>
    obtain rfl := feed d rfl
    exact absurd (blank '\n' (by simp)) (by decide)

/-- The tokens of a text can be printed. -/
theorem printable_of_items {l : Lexer} {front : List Token} {last : Token}
    (stream : l.items = front.map .ok ++ [Except.ok last]) : Token.Printable front := by
  induction front generalizing l with
  | nil => trivial
  | cons t front ih =>
    obtain ⟨reading, more, later⟩ := token_of_items stream (by simp)
    refine ⟨?_, fun comment s first => ?_, ih later⟩
    · obtain ⟨gap, c, cs, -, -, -, ok, -⟩ := lexeme_of_next reading more
      exact ⟨_, (munches_read c cs).lexical ok⟩
    · -- A comment stops only before a line feed, and that is the next token.
      obtain ⟨rest, rfl⟩ := List.head?_eq_some_iff.1 first
      obtain ⟨gap, lexeme, -, left, -, -, ending⟩ := ending_next reading more
      obtain ⟨reading', more', -⟩ := token_of_items later (by simp)
      apply newline_of_feed reading' more'
      rw [← left]
      exact ending.feed comment

end Lexer

/-- **Tokens survive printing**: the tokens of a text, printed in a row without the end of input, are the
tokens of the printed text, but for their places. -/
theorem Lexer.tokenize_print {source : String} {tokens : List Token}
    (lexed : (Lexer.ofString source).tokenize.1 = .ok tokens) : ∃ tokens',
      (Lexer.ofString (Token.print (tokens.filter (·.kind ≠ .endOfInput)))).tokenize.1 = .ok tokens' ∧
      tokens'.map (fun t => (t.kind, t.text)) = tokens.map (fun t => (t.kind, t.text)) := by
  obtain ⟨stream, front, last, rfl, ends, inner⟩ := items_of_tokenize (Prod.ext lexed rfl)
  have kept : (front ++ [last]).filter (·.kind ≠ .endOfInput) = front := by
    rw [List.filter_append, List.filter_eq_self.2 (by simpa using inner)]
    simp [ends]
  rw [List.map_append, List.map_singleton] at stream
  have unread : (Lexer.ofString (Token.print front)).unread = [] ++ Token.row front :=
    String.toList_ofList
  obtain ⟨tokens', stream', contents⟩ := items_row (printable_of_items stream) unread (by simp)
  have member : .ok last ∈ (Lexer.ofString source).items := by simp [stream]
  have content : last.content = (.endOfInput, "") := Prod.ext ends (text_of_ends member ends)
  rw [← content, ← List.map_singleton, ← List.map_append] at contents
  rw [kept]
  exact ⟨tokens', tokenize_eq_ok_iff.2 stream', contents⟩

/-- A string that holds a double quote, a comment with the closing mark in it, and a fraction without
digits after its point. -/
theorem Lexer.tokenize_print_comment :
    let tokens : List Token := [⟨.stringLiteral, "\x22", ⟨1, 1⟩⟩, ⟨.lineComment, "*/", ⟨1, 4⟩⟩,
      ⟨.newline, "\\n", ⟨1, 8⟩⟩, ⟨.floatLiteral, "1.", ⟨2, 1⟩⟩, ⟨.notEqual, "!=", ⟨2, 3⟩⟩,
      ⟨.endOfInput, "", ⟨2, 5⟩⟩]
    (Lexer.ofString "'\x22'//*/\n1.!=").tokenize.1 = .ok tokens ∧
    Token.print (tokens.filter (·.kind ≠ .endOfInput)) = "'\x22' //*/\n 1. !=" ∧
    ∃ tokens', (Lexer.ofString (Token.print (tokens.filter (·.kind ≠ .endOfInput)))).tokenize.1 =
        .ok tokens' ∧
      tokens'.map (fun t => (t.kind, t.text)) = tokens.map (fun t => (t.kind, t.text)) := by
  intro tokens
  have lexed : (Lexer.ofString "'\x22'//*/\n1.!=").tokenize.1 = .ok tokens := by decide +kernel
  exact ⟨lexed, by decide +kernel, tokenize_print lexed⟩

end Pascalize
