import Pascalize.Proofs.Concatenation
import Pascalize.Proofs.LookaheadLaws

/-!
# Block comments

What stands in a block comment is read as tokens like everything else, and the comment ends with the next
token that closes one. So a text can stand in a block comment exactly if it reads as tokens and leaves the
closing mark to itself: it must not end within a line comment, which would take the mark in, nor with a
slash, which would open a comment with the star (`Lexer.Closable`). Then, and for no other text without the
mark in it, programs around the comment stay as they are (`Program.parse_around_comment_iff`).
-/

namespace Pascalize

namespace Lexeme

/-- A text may be cut off anywhere. -/
theorem Seam.of_append (before after : List Char) : Seam (before ++ after) before := by
  intro d first
  rw [List.head?_append, Option.mem_def.1 first]
  exact .inr rfl

/-! ## Lexemes before a star -/

theorem numeral_star {cs : List Char} (all : (numeral cs).2.2 = []) (more : List Char) :
    numeral (cs ++ '*' :: more) = ((numeral cs).1, (numeral cs).2.1, '*' :: more) := by
  have whole := numeral_append cs
  rw [all, List.append_nil] at whole
  by_cases point : '.' ∈ (cs.dropWhile Char.isDigit).head?
  · obtain ⟨r, ends⟩ := List.head?_eq_some_iff.1 point
    simp only [numeral_of_point ends] at whole ⊢
    obtain ⟨taken, left⟩ := takeWhile_of_stop (p := Char.isDigit)
      ('.' :: (r.takeWhile Char.isDigit ++ '*' :: more))
      (List.all_eq_true.1 (List.all_takeWhile (l := cs))) (by simp)
    obtain ⟨fraction, rest⟩ := takeWhile_of_stop (p := Char.isDigit) ('*' :: more)
      (List.all_eq_true.1 (List.all_takeWhile (l := r))) (by simp)
    have split : cs ++ '*' :: more =
        cs.takeWhile Char.isDigit ++ '.' :: (r.takeWhile Char.isDigit ++ '*' :: more) := by
      rw [← List.cons_append, ← List.append_assoc, whole]
    rw [split, numeral_of_point left, taken, fraction, rest]
  · simp only [numeral_of_other point] at whole ⊢
    obtain ⟨taken, rest⟩ := takeWhile_of_stop (p := Char.isDigit) ('*' :: more)
      (List.all_eq_true.1 (List.all_takeWhile (l := cs))) (by simp)
    rw [whole] at taken rest ⊢
    rw [numeral_of_other (by rw [rest]; simp), taken, rest]

theorem readNumber_star {cs : List Char} (all : (readNumber cs).rest = []) (more : List Char) :
    readNumber (cs ++ '*' :: more) = ⟨(readNumber cs).outcome, (readNumber cs).taken, '*' :: more⟩ := by
  have none : (numeral cs).2.2 = [] := by
    simp only [readNumber] at all
    split at all
    next is => exact is
    next =>
      split at all
      · exact all
      · exact all
  have number : readNumber cs =
      ⟨.ok ((numeral cs).1, String.ofList (numeral cs).2.1), (numeral cs).2.1, []⟩ := by
    simp only [readNumber, none]
  rw [number]
  simp only [readNumber, numeral_star none]
  rfl

theorem readWord_star {cs : List Char} (all : (readWord cs).rest = []) (more : List Char) :
    readWord (cs ++ '*' :: more) = ⟨(readWord cs).outcome, (readWord cs).taken, '*' :: more⟩ := by
  have whole := List.takeWhile_append_dropWhile (p := isWordRest) (l := cs)
  have none : cs.dropWhile isWordRest = [] := all
  rw [none, List.append_nil] at whole
  obtain ⟨taken, rest⟩ := takeWhile_of_stop (p := isWordRest) ('*' :: more)
    (List.all_eq_true.1 (List.all_takeWhile (l := cs))) (by simp; decide)
  rw [whole] at taken rest
  simp only [readWord, taken, rest, whole]

theorem pair?_star {c : Char} (other : c ≠ '/') : pair? c '*' = none := by
  unfold pair?
  split <;> simp_all

theorem readSymbol_star {c : Char} {cs : List Char} {kind : Kind} {text : String}
    (ok : (readSymbol c cs).outcome = .ok (kind, text)) (all : (readSymbol c cs).rest = [])
    (noComment : kind ≠ .lineComment) (noSlash : (c :: cs).getLast? ≠ some '/') (more : List Char) :
    readSymbol c (cs ++ '*' :: more) =
      ⟨(readSymbol c cs).outcome, (readSymbol c cs).taken, '*' :: more⟩ := by
  cases cs with
  | nil =>
    have other : c ≠ '/' := fun same => noSlash (congrArg some same)
    have alone : readSymbol c ('*' :: more) = readSingle c ('*' :: more) := by
      simp only [readSymbol, pair?_star other, if_neg (fun both : c = '/' ∧ _ => other both.1)]
    rw [List.nil_append, alone]
    exact readSingle_seam c [] _
  | cons d cs =>
    by_cases comment : c = '/' ∧ d = '/'
    · simp only [readSymbol, if_pos comment, readLineComment] at ok
      exact absurd (Prod.mk.inj (Except.ok.inj ok)).1.symm noComment
    · cases pair : pair? c d with
      | some kind =>
        simp only [readSymbol, if_neg comment, pair] at all ⊢
        subst all
        simp only [List.cons_append, if_neg comment, pair, List.nil_append]
      | none =>
        simp only [readSymbol, if_neg comment, pair, readSingle] at all
        split at all <;> cases all

/-- A lexeme at the end of a text is read the same before a star, if it is no line comment and does not
end with a slash. -/
theorem read_star {c : Char} {cs : List Char} {kind : Kind} {text : String}
    (ok : (read c cs).outcome = .ok (kind, text)) (all : (read c cs).rest = [])
    (noComment : kind ≠ .lineComment) (noSlash : (c :: cs).getLast? ≠ some '/') (more : List Char) :
    read c (cs ++ '*' :: more) = ⟨(read c cs).outcome, (read c cs).taken, '*' :: more⟩ := by
  have whole := taken_append_rest c cs
  rw [all, List.append_nil] at whole
  by_cases feed : c = '\n'
  · simp only [read, if_pos feed, readNewline] at all ⊢
    rw [all]
    rfl
  · by_cases quoted : isQuote c = true
    · simp only [read, if_neg feed, if_pos quoted] at ok whole ⊢
      have same := readString_seam ('*' :: more) ok
      rw [whole] at same
      rw [whole]
      exact same
    · by_cases digit : c.isDigit = true
      · simp only [read, if_neg feed, if_neg quoted, if_pos digit] at all ⊢
        exact readNumber_star all more
      · by_cases start : isWordStart c = true
        · simp only [read, if_neg feed, if_neg quoted, if_neg digit, if_pos start] at all ⊢
          exact readWord_star all more
        · simp only [read, if_neg feed, if_neg quoted, if_neg digit, if_neg start] at ok all ⊢
          exact readSymbol_star ok all noComment noSlash more

/-! ## How lexemes end -/

/-- A line comment goes to the end of its line, the closing mark is its two characters, and nothing else
ends with a slash before a star. -/
structure Ending (kind : Kind) (l : Lexeme) : Prop where
  feed : kind = .lineComment → ∀ d ∈ l.rest.head?, d = '\n'
  mark : kind = .closeComment → l.taken = ['*', '/']
  noOpening : kind ≠ .closeComment → '/' ∈ l.taken.getLast? → '*' ∉ l.rest.head?

/-- A lexeme without a slash at its end. -/
theorem Ending.plain {kind : Kind} {l : Lexeme} (noComment : kind ≠ .lineComment)
    (noMark : kind ≠ .closeComment) (noSlash : '/' ∉ l.taken.getLast?) : l.Ending kind where
  feed is := absurd is noComment
  mark is := absurd is noMark
  noOpening _ slash := absurd slash noSlash

theorem ending_readString {quote : Char} {cs : List Char} {kind : Kind} {text : String}
    (quoted : isQuote quote = true) (ok : (readString quote cs).outcome = .ok (kind, text)) :
    (readString quote cs).Ending kind := by
  cases ends : cs.dropWhile (· ≠ quote) with
  | nil =>
    unfold readString at ok
    rw [ends] at ok
    nomatch ok
  | cons q rest =>
    rw [readString_of_closed ends] at ok ⊢
    obtain ⟨rfl, -⟩ := Prod.mk.inj (Except.ok.inj ok)
    have closing := dropWhile_stop (· ≠ quote) cs
    rw [ends] at closing
    have closes : q = quote := by simpa using closing q rfl
    refine .plain (by decide) (by decide) ?_
    rw [← List.cons_append, List.getLast?_concat, closes]
    rintro ⟨⟩
    revert quoted
    decide

theorem numeral_plain (cs : List Char) : ((numeral cs).1 = .intLiteral ∨ (numeral cs).1 = .floatLiteral) ∧
    ∀ d ∈ (numeral cs).2.1, d.isDigit = true ∨ d = '.' := by
  have digits (cs : List Char) : ∀ d ∈ cs.takeWhile Char.isDigit, d.isDigit = true :=
    List.all_eq_true.1 List.all_takeWhile
  unfold numeral
  split
  next rest _ =>
    refine ⟨.inr rfl, fun d member => ?_⟩
    rcases List.mem_append.1 member with whole | fraction
    · exact .inl (digits cs d whole)
    · rcases List.mem_cons.1 fraction with point | fraction
      · exact .inr point
      · exact .inl (digits rest d fraction)
  next => exact ⟨.inl rfl, fun d member => .inl (digits cs d member)⟩

theorem ending_readNumber {cs : List Char} {kind : Kind} {text : String}
    (ok : (readNumber cs).outcome = .ok (kind, text)) : (readNumber cs).Ending kind := by
  obtain ⟨number, digits⟩ := numeral_plain cs
  have fields : kind = (numeral cs).1 ∧ (readNumber cs).taken = (numeral cs).2.1 := by
    simp only [readNumber] at ok ⊢
    split at ok
    next => exact ⟨(Prod.mk.inj (Except.ok.inj ok)).1.symm, rfl⟩
    next =>
      split at ok
      · cases ok
      next free => exact ⟨(Prod.mk.inj (Except.ok.inj ok)).1.symm, by rw [if_neg free]⟩
  have noSlash : '/' ∉ (readNumber cs).taken.getLast? := by
    intro last
    rw [fields.2] at last
    rcases digits '/' (List.mem_of_getLast? last) with digit | point
    · revert digit
      decide
    · cases point
  rw [fields.1]
  rcases number with is | is
  · exact .plain (by rw [is]; decide) (by rw [is]; decide) noSlash
  · exact .plain (by rw [is]; decide) (by rw [is]; decide) noSlash

theorem ending_readWord {cs : List Char} {kind : Kind} {text : String}
    (ok : (readWord cs).outcome = .ok (kind, text)) : (readWord cs).Ending kind := by
  obtain ⟨rfl, -⟩ := Prod.mk.inj (Except.ok.inj ok)
  have kinds : ∀ entry ∈ Kind.keywords, entry.2 ≠ .lineComment ∧ entry.2 ≠ .closeComment := by decide
  have plain := Kind.ofWord_cases (String.ofList (cs.takeWhile isWordRest))
  have noSlash : '/' ∉ (cs.takeWhile isWordRest).getLast? := by
    intro last
    have word := List.all_eq_true.1 (List.all_takeWhile (p := isWordRest)) '/' (List.mem_of_getLast? last)
    revert word
    decide
  rcases plain with is | keyword
  · exact .plain (by rw [is]; decide) (by rw [is]; decide) noSlash
  · exact .plain (kinds _ keyword).1 (kinds _ keyword).2 noSlash

theorem ending_readSingle {c : Char} {cs : List Char} {kind : Kind} {text : String}
    (ok : (readSingle c cs).outcome = .ok (kind, text)) (alone : c = '/' → '*' ∉ cs.head?) :
    (readSingle c cs).Ending kind := by
  cases single : single? c with
  | none =>
    simp only [readSingle, single] at ok
    cases ok
  | some kind' =>
    have plain : kind' ≠ .lineComment ∧ kind' ≠ .closeComment := by
      unfold single? at single
      split at single <;> cases single <;> decide
    simp only [readSingle, single] at ok ⊢
    obtain ⟨rfl, -⟩ := Prod.mk.inj (Except.ok.inj ok)
    refine ⟨fun is => absurd is plain.1, fun is => absurd is plain.2, fun _ slash => alone ?_⟩
    simpa using slash

theorem ending_readSymbol {c : Char} {cs : List Char} {kind : Kind} {text : String}
    (ok : (readSymbol c cs).outcome = .ok (kind, text)) : (readSymbol c cs).Ending kind := by
  cases cs with
  | nil => exact ending_readSingle ok fun _ => by simp
  | cons d cs =>
    by_cases comment : c = '/' ∧ d = '/'
    · simp only [readSymbol, if_pos comment] at ok ⊢
      obtain ⟨rfl, -⟩ := Prod.mk.inj (Except.ok.inj ok)
      have feed : ∀ e ∈ (readLineComment cs).rest.head?, e = '\n' := by
        intro e first
        simpa using dropWhile_stop (· ≠ '\n') cs e first
      exact ⟨fun _ => feed, fun other => absurd other (by decide), fun _ _ star =>
        absurd (feed '*' star) (by decide)⟩
    · cases pair : pair? c d with
      | none =>
        simp only [readSymbol, if_neg comment, pair] at ok ⊢
        refine ending_readSingle ok fun slash star => ?_
        obtain rfl := Option.some.inj star
        rw [slash] at pair
        cases pair
      | some kind' =>
        simp only [readSymbol, if_neg comment, pair] at ok ⊢
        obtain ⟨rfl, -⟩ := Prod.mk.inj (Except.ok.inj ok)
        unfold pair? at pair
        split at pair
        case h_2 =>
          cases pair
          exact ⟨fun other => absurd other (by decide), fun _ => rfl, fun other => absurd rfl other⟩
        all_goals cases pair
        all_goals exact .plain (by decide) (by decide) (by simp)

theorem ending_read {c : Char} {cs : List Char} {kind : Kind} {text : String}
    (ok : (read c cs).outcome = .ok (kind, text)) : (read c cs).Ending kind := by
  by_cases feed : c = '\n'
  · simp only [read, if_pos feed] at ok ⊢
    obtain ⟨rfl, -⟩ := Prod.mk.inj (Except.ok.inj ok)
    exact .plain (by decide) (by decide) (by simp [readNewline])
  · by_cases quoted : isQuote c = true
    · simp only [read, if_neg feed, if_pos quoted] at ok ⊢
      exact ending_readString quoted ok
    · by_cases digit : c.isDigit = true
      · simp only [read, if_neg feed, if_neg quoted, if_pos digit] at ok ⊢
        exact ending_readNumber ok
      · by_cases start : isWordStart c = true
        · simp only [read, if_neg feed, if_neg quoted, if_neg digit, if_pos start] at ok ⊢
          exact ending_readWord ok
        · simp only [read, if_neg feed, if_neg quoted, if_neg digit, if_neg start] at ok ⊢
          exact ending_readSymbol ok

end Lexeme

namespace Lexer

/-! ## The stream up to a closing mark -/

/-- A text that can stand in a block comment: it is read without an error, not to its end within a line
comment, and its last character is no slash. -/
structure Closable (l : Lexer) : Prop where
  reads : ∃ (front : List Token) (last : Token), l.items = front.map .ok ++ [.ok last] ∧
    last.kind = .endOfInput ∧ ∀ t ∈ front.getLast?, t.kind ≠ .lineComment
  noSlash : '/' ∉ l.unread.getLast?

theorem getLast?_append_of_ne_nil {α : Type} {before after : List α} (h : after ≠ []) :
    (before ++ after).getLast? = after.getLast? := by
  rw [List.getLast?_append, Option.or_of_isSome (List.getLast?_isSome.2 h)]

/-- A reading that others follow is a token, and they are the stream after it. -/
theorem token_of_items {l : Lexer} {t : Token} {rest : List (Except LexError Token)}
    (h : l.items = .ok t :: rest) (more : rest ≠ []) :
    l.next.1 = .ok t ∧ t.kind ≠ .endOfInput ∧ l.next.2.items = rest := by
  have reading := next_of_items h
  have inside : t.kind ≠ .endOfInput := by
    intro ends
    rw [items_of_last (by rw [reading]; simp [ends])] at h
    exact more (List.cons.inj h).2.symm
  rw [items_of_token reading inside] at h
  exact ⟨reading, inside, (List.cons.inj h).2⟩

/-- Where nothing is left to read there is no token but the end of input. -/
theorem front_of_nil {l : Lexer} {front : List Token} {last : Except LexError Token}
    (stream : l.items = front.map .ok ++ [last]) (none : l.unread = []) : front = [] := by
  have blank : l.skipBlanks.unread = [] := by
    simp [skipBlanks, advance, none]
  rw [items_of_last (isLast_next_of_blank blank)] at stream
  cases front with
  | nil => rfl
  | cons t front => simp at stream

/-- The last token of a text is read the same before a star, if it is no line comment and does not end with
a slash. -/
theorem next_star {l : Lexer} {t : Token} (reading : l.next.1 = .ok t) (more : t.kind ≠ .endOfInput)
    (all : l.next.2.unread = []) (noComment : t.kind ≠ .lineComment) (noSlash : '/' ∉ l.unread.getLast?)
    (text : List Char) : { l with unread := l.unread ++ '*' :: text }.next =
      (.ok t, { l.next.2 with unread := '*' :: text }) := by
  obtain ⟨gap, c, cs, unread, blank, start, ok, place⟩ := lexeme_of_next reading more
  have now := next_of_lexeme unread blank start ok
  rw [now] at all ⊢
  rw [unread, getLast?_append_of_ne_nil (by simp)] at noSlash
  have again := Lexeme.read_star ok all noComment noSlash text
  have unread' : l.unread ++ '*' :: text = gap ++ c :: (cs ++ '*' :: text) := by
    rw [unread, List.append_assoc, List.cons_append]
  rw [next_of_lexeme (l := { l with unread := l.unread ++ '*' :: text }) unread' blank start
    (by rw [again]; exact ok), again, ← place]

/-- **A token** of a text is read the same if the text goes on with a star. -/
theorem next_before_star {l : Lexer} {t : Token} (reading : l.next.1 = .ok t)
    (more : t.kind ≠ .endOfInput) (last : l.next.2.unread = [] → t.kind ≠ .lineComment)
    (noSlash : '/' ∉ l.unread.getLast?) (text : List Char) :
    { l with unread := l.unread ++ '*' :: text }.next =
      (.ok t, { l.next.2 with unread := l.next.2.unread ++ '*' :: text }) := by
  cases rest : l.next.2.unread with
  | nil => exact next_star reading more rest (last rest) noSlash text
  | cons d ds =>
    obtain ⟨taken, unread, -, swap⟩ := next_seam reading more
    have now := swap (d :: ds ++ '*' :: text) (by rw [rest]; exact fun e first => .inr first)
    rw [unread, rest, List.append_assoc]
    exact now

/-- **The closing mark** after a text that can stand in a comment: its tokens are read as before, then the
mark, and then what follows. -/
theorem Closable.items_close {l : Lexer} (h : l.Closable) :
    ∃ (front : List Token) (last : Token), l.items = front.map .ok ++ [Except.ok last] ∧
      last.kind = .endOfInput ∧ ∀ more : List Char,
        { l with unread := l.unread ++ '*' :: '/' :: more }.items =
          front.map .ok ++ .ok ⟨.closeComment, "*/", last.location⟩ ::
            { l with unread := more, location := (last.location.step '*').step '/' }.items := by
  obtain ⟨⟨front, last, stream, ends, noComment⟩, noSlash⟩ := h
  refine ⟨front, last, stream, ends, fun more => ?_⟩
  induction front generalizing l with
  | nil =>
    obtain ⟨gap, after, unread, blank, place, none⟩ := gap_of_next (next_of_items stream)
    have unread' : l.unread ++ '*' :: '/' :: more = gap ++ '*' :: '/' :: more := by
      rw [unread, none ends, List.append_nil]
    have now := next_of_lexeme (l := { l with unread := l.unread ++ '*' :: '/' :: more }) unread' blank
      (by decide) rfl
    rw [Location.after_append, ← place] at now
    have inside : Kind.closeComment ≠ .endOfInput := by decide
    rw [items_of_token (by rw [now]) inside, now]
    rfl
  | cons s front ih =>
    obtain ⟨reading, inside, rest⟩ := token_of_items stream (by simp)
    obtain ⟨taken, unread, -, -⟩ := next_seam reading inside
    have only : l.next.2.unread = [] → s.kind ≠ .lineComment := by
      intro none
      rw [front_of_nil rest none] at noComment
      exact noComment s rfl
    have noComment' : ∀ t ∈ front.getLast?, t.kind ≠ .lineComment := by
      intro t last
      apply noComment t
      rw [← List.singleton_append, List.getLast?_append, Option.mem_def.1 last]
      rfl
    have noSlash' : '/' ∉ l.next.2.unread.getLast? := by
      intro last
      rw [unread, List.getLast?_append, Option.mem_def.1 last] at noSlash
      exact noSlash rfl
    have now := next_before_star reading inside only noSlash ('/' :: more)
    rw [items_of_token (by rw [now]) inside, now, ih noSlash' rest noComment', ended_next]
    rfl

/-- The text of a token, after blanks. -/
theorem ending_next {l : Lexer} {t : Token} (reading : l.next.1 = .ok t) (more : t.kind ≠ .endOfInput) :
    ∃ (gap : List Char) (lexeme : Lexeme), l.unread = gap ++ lexeme.taken ++ l.next.2.unread ∧
      lexeme.rest = l.next.2.unread ∧ lexeme.taken ≠ [] ∧ (∀ d ∈ gap, Lexeme.isBlank d = true) ∧
      lexeme.Ending t.kind := by
  obtain ⟨gap, c, cs, unread, blank, start, ok, -⟩ := lexeme_of_next reading more
  rw [next_of_lexeme unread blank start ok]
  refine ⟨gap, Lexeme.read c cs, ?_, rfl, Lexeme.taken_ne_nil c cs, blank, Lexeme.ending_read ok⟩
  rw [unread, List.append_assoc, Lexeme.taken_append_rest]

/-- A token that closes a comment is the closing mark of the text. -/
theorem infix_of_close {l : Lexer} {t : Token} (member : .ok t ∈ l.items)
    (closes : t.kind = .closeComment) : ['*', '/'] <:+: l.unread := by
  induction l using induction_next with
  | last l ends =>
    rw [items_of_last ends, List.mem_singleton] at member
    rw [← member, isLast_ok, closes] at ends
    nomatch ends
  | token l s reading more ih =>
    rw [items_of_token reading more] at member
    obtain ⟨gap, lexeme, unread, -, -, -, ending⟩ := ending_next reading more
    rw [unread]
    rcases List.mem_cons.1 member with same | later
    · obtain rfl := Except.ok.inj same
      exact ⟨gap, _, by rw [ending.mark closes]⟩
    · exact (ih later).trans (List.suffix_append _ _).isInfix

/-- A token in front of a text that can stand in a comment. -/
theorem Closable.cons {l : Lexer} {t : Token} (h : l.next.2.Closable) (reading : l.next.1 = .ok t)
    (more : t.kind ≠ .endOfInput)
    (noComment : t.kind = .lineComment → '\n' ∈ l.next.2.unread.head?)
    (noSlash : l.next.2.unread = [] → '/' ∉ l.unread.getLast?) : l.Closable := by
  obtain ⟨⟨front, last, stream, ends, inner⟩, noSlash'⟩ := h
  refine ⟨⟨t :: front, last, ?_, ends, ?_⟩, ?_⟩
  · rw [items_of_token reading more, stream]
    rfl
  · cases front with
    | nil =>
      intro s is comment
      obtain rfl := Option.some.inj is
      obtain ⟨gap, after, unread, blank, -, none⟩ := gap_of_next (next_of_items stream)
      have feed := noComment comment
      rw [unread, none ends, List.append_nil] at feed
      exact absurd (blank '\n' (List.mem_of_head? feed)) (by decide)
    | cons s front =>
      intro x is
      exact inner x (by rwa [← List.singleton_append, getLast?_append_of_ne_nil (by simp)] at is)
  · by_cases none : l.next.2.unread = []
    · exact noSlash none
    · obtain ⟨taken, unread, -, -⟩ := next_seam reading more
      rw [unread, getLast?_append_of_ne_nil none]
      exact noSlash'

/-- Blanks alone are read as the end of input. -/
theorem items_of_blank {l : Lexer} (blank : ∀ d ∈ l.unread, Lexeme.isBlank d = true) :
    l.items = [.ok ⟨.endOfInput, "", l.skipBlanks.location⟩] := by
  have none : l.skipBlanks.unread = [] := by
    have stop := (Lexeme.takeWhile_of_stop [] blank (by simp)).2
    rwa [List.append_nil] at stop
  rw [items_of_last (isLast_next_of_blank none)]
  simp only [next, none]

/-- Blanks can stand in a comment. -/
theorem closable_of_blank {l : Lexer} (blank : ∀ d ∈ l.unread, Lexeme.isBlank d = true) : l.Closable := by
  refine ⟨⟨[], _, items_of_blank blank, rfl, by simp⟩, fun slash => ?_⟩
  exact absurd (blank '/' (List.mem_of_getLast? slash)) (by decide)

/-- What a character cuts into two parts is cut elsewhere before it or behind it. -/
theorem append_cases {before after u v : List Char} {c : Char} (h : before ++ after = u ++ c :: v) :
    (∃ u', u = before ++ u' ∧ after = u' ++ c :: v) ∨ ∃ w, before = u ++ c :: w ∧ v = w ++ after := by
  rcases List.append_eq_append_iff.1 h with ⟨u', split, rest⟩ | ⟨w, split, rest⟩
  · exact .inl ⟨u', split, rest⟩
  · cases w with
    | nil => exact .inl ⟨[], by simpa using split.symm, by simpa using rest.symm⟩
    | cons d w =>
      obtain ⟨rfl, tail⟩ := List.cons.inj rest
      exact .inr ⟨w, split, tail⟩

/-- The mark after blanks is found where it starts. -/
theorem eq_of_append_mark {gap u w : List Char} (blank : ∀ d ∈ gap, Lexeme.isBlank d = true)
    (h : gap ++ ['*', '/'] = u ++ '*' :: w) : u = gap := by
  rcases append_cases h with ⟨v, rfl, ends⟩ | ⟨v, rfl, -⟩
  · match v, ends with
    | [], _ => exact List.append_nil gap
    | [_], ends => simp at ends
    | _ :: _ :: _, ends => simp at ends
  · exact absurd (blank '*' (by simp)) (by decide)

/-- The closing mark after a text without one is read as a token only if the text can stand in a comment. -/
theorem closable_of_close {l : Lexer} {u more : List Char} {front : List Token} {last : Token} {x : Token}
    (unread : l.unread = u ++ '*' :: '/' :: more) (noStar : '*' ∉ more) (noMark : ¬ ['*', '/'] <:+: u)
    (stream : l.items = front.map .ok ++ [Except.ok last]) (member : x ∈ front)
    (closes : x.kind = .closeComment) : { l with unread := u }.Closable := by
  induction front generalizing l u with
  | nil => nomatch member
  | cons s front ih =>
    obtain ⟨reading, inside, rest⟩ := token_of_items stream (by simp)
    obtain ⟨gap, lexeme, split, left, nonempty, blank, ending⟩ := ending_next reading inside
    obtain ⟨taken, split', -, swap⟩ := next_seam reading inside
    have same : taken = gap ++ lexeme.taken :=
      List.append_cancel_right (split'.symm.trans split)
    rw [unread] at split
    rcases append_cases split.symm with ⟨u', rfl, after⟩ | ⟨w, start, after⟩
    · -- the token stands in the text before the mark, and the rest of that text before what is left
      have noClose : s.kind ≠ .closeComment := fun is =>
        noMark ⟨gap, u', by rw [ending.mark is]⟩
      have member : x ∈ front := (List.mem_cons.1 member).resolve_left fun is => noClose (is ▸ closes)
      have tail := ih after (fun inner => noMark (inner.trans (List.suffix_append _ _).isInfix)) rest member
      have now := swap u' (by rw [after]; exact .of_append u' _)
      rw [same] at now
      apply Closable.cons (t := s)
      · rw [now]
        exact tail
      · rw [now]
      · exact inside
      · rw [now]
        intro comment
        have feed := ending.feed comment
        rw [left, after] at feed
        cases u' with
        | nil => nomatch feed '*' rfl
        | cons d u' => exact congrArg some (feed d rfl)
      · rw [now]
        rintro rfl slash
        have star := ending.noOpening noClose
        rw [left, after] at star
        rw [List.append_nil, getLast?_append_of_ne_nil nonempty] at slash
        exact star slash rfl
    · -- the token reaches into the mark: it is the mark, or no mark comes after it
      by_cases is : s.kind = .closeComment
      · rw [ending.mark is] at start
        exact closable_of_blank (by rwa [eq_of_append_mark blank start])
      · have member : x ∈ front := (List.mem_cons.1 member).resolve_left fun same => is (same ▸ closes)
        have mark := infix_of_close (l := l.next.2) (t := x) (by rw [rest]; simp [member]) closes
        have star : '*' ∈ '/' :: more := by
          rw [after]
          exact List.mem_append_right w (mark.subset (by simp))
        exact absurd star (by simpa using noStar)

/-! ## The words of a comment -/

theorem next_content {l l' : Lexer} (same : l.unread = l'.unread) :
    content l.next.1 = content l'.next.1 ∧ l.next.2.unread = l'.next.2.unread := by
  simp only [next, skipBlanks, advance, same]
  cases l'.unread.dropWhile Lexeme.isBlank with
  | nil => exact ⟨rfl, rfl⟩
  | cons c cs =>
    dsimp only
    cases (Lexeme.read c cs).outcome <;> exact ⟨rfl, rfl⟩

/-- Readings of one content are both tokens or both errors. -/
theorem content_cases {r r' : Except LexError Token} (same : content r = content r') :
    (∃ t t', r = .ok t ∧ r' = .ok t' ∧ t.content = t'.content) ∨ ∃ e e', r = .error e ∧ r' = .error e' := by
  match r, r', same with
  | .ok t, .ok t', same => exact .inl ⟨t, t', rfl, rfl, Except.ok.inj same⟩
  | .error e, .error e', _ => exact .inr ⟨e, e', rfl, rfl⟩

theorem isLast_of_content {r r' : Except LexError Token} (same : content r = content r') :
    isLast r = isLast r' := by
  obtain ⟨t, t', rfl, rfl, contents⟩ | ⟨e, e', rfl, rfl⟩ := content_cases same
  · rw [isLast_ok, isLast_ok, Token.kind_eq contents]
  · rfl

/-- The stream of a text is the same everywhere, but for the locations. -/
theorem items_content {l l' : Lexer} (same : l.unread = l'.unread) :
    l.items.map content = l'.items.map content := by
  have within (n : Nat) (l l' : Lexer) (same : l.unread = l'.unread) :
      (l.itemsWithin n).map content = (l'.itemsWithin n).map content := by
    induction n generalizing l l' with
    | zero => rfl
    | succ n ih =>
      obtain ⟨first, rest⟩ := next_content same
      simp only [itemsWithin, isLast_of_content first]
      split
      · rw [List.map_singleton, List.map_singleton, first]
      · rw [List.map_cons, List.map_cons, first, ih _ _ rest]
  rw [items, items, same]
  exact within _ l l' same

theorem stream_elsewhere {l l' : Lexer} {front : List Token} {last : Token}
    (same : l.unread = l'.unread) (stream : l.items = front.map .ok ++ [Except.ok last]) :
    ∃ (front' : List Token) (last' : Token), l'.items = front'.map .ok ++ [Except.ok last'] ∧
      front.map Token.content = front'.map Token.content ∧ last.content = last'.content := by
  obtain ⟨front', last', stream', -, -⟩ := l'.items_cases
  have contents := items_content same
  rw [stream, stream', List.map_append, List.map_append] at contents
  obtain ⟨fronts, lasts⟩ := List.append_inj' contents rfl
  obtain ⟨t, t', is, rfl, sameLast⟩ | ⟨e, e', is, -⟩ := content_cases (List.cons.inj lasts).1
  · obtain rfl := Except.ok.inj is
    refine ⟨front', t', stream', ?_, sameLast⟩
    rw [List.map_map, List.map_map] at fronts
    rw [← List.map_inj_right (f := Except.ok) fun _ _ => Except.ok.inj, List.map_map, List.map_map]
    exact fronts
  · nomatch is

/-- Whether a text can stand in a comment does not depend on where it stands. -/
theorem Closable.elsewhere {l l' : Lexer} (h : l.Closable) (same : l.unread = l'.unread) :
    l'.Closable := by
  obtain ⟨⟨front, last, stream, ends, noComment⟩, noSlash⟩ := h
  obtain ⟨front', last', stream', fronts, lasts⟩ := stream_elsewhere same stream
  refine ⟨⟨front', last', stream', (Token.kind_eq lasts).symm.trans ends, fun s final => ?_⟩, ?_⟩
  · have final' := congrArg List.getLast? fronts
    rw [List.getLast?_map, List.getLast?_map, Option.mem_def.1 final] at final'
    obtain ⟨t, final, contents⟩ := Option.map_eq_some_iff.1 final'
    rw [← Token.kind_eq contents]
    exact noComment t final
  · rwa [← same]

/-- The words of a comment: the tokens of its text but for line feeds. -/
def words (l : Lexer) : List String :=
  (Token.significant (l.items.filterMap Except.toOption)).map Parser.commentWord

theorem words_of_content {front front' : List Token}
    (same : front.map Token.content = front'.map Token.content) :
    (Token.significant front).map Parser.commentWord =
      (Token.significant front').map Parser.commentWord := by
  have through (tokens : List Token) : (Token.significant tokens).map Parser.commentWord =
      ((tokens.map Token.content).filter fun x => x.1 ≠ .newline && x.1 ≠ .endOfInput).map
        fun x => Parser.commentWord ⟨x.1, x.2, .start⟩ := by
    rw [List.filter_map, List.map_map]
    rfl
  rw [through, through, same]

/-- The words of a text, from its tokens elsewhere. -/
theorem words_of_stream {l l' : Lexer} {front : List Token} {last : Token} (same : l.unread = l'.unread)
    (stream : l.items = front.map .ok ++ [Except.ok last]) (ends : last.kind = .endOfInput) :
    l'.words = (Token.significant front).map Parser.commentWord := by
  obtain ⟨front', last', stream', fronts, lasts⟩ := stream_elsewhere same stream
  have tokens : l'.items.filterMap Except.toOption = front' ++ [last'] := by
    rw [stream', List.filterMap_append, List.filterMap_map]
    exact congrArg (· ++ [last']) List.filterMap_some
  rw [words, tokens, Token.significant_append,
    Token.significant_end ((Token.kind_eq lasts).symm.trans ends), List.append_nil, words_of_content fronts]

/-- The opening mark is a token, and reading goes on behind it. -/
theorem items_opening {l : Lexer} {text : List Char} (unread : l.unread = '/' :: '*' :: text) :
    l.items = .ok ⟨.openComment, "/*", l.location⟩ ::
      { l with unread := text, location := (l.location.step '/').step '*' }.items := by
  have here : l.unread = [] ++ '/' :: '*' :: text := unread
  have now := next_of_lexeme here nofun (by decide) rfl
  have inside : Kind.openComment ≠ .endOfInput := by decide
  rw [items_of_token (by rw [now]) inside, now]
  rfl

/-- A line comment without a text and the line feed behind it are tokens, and reading goes on below. -/
theorem items_empty_line {l : Lexer} {text : List Char} (unread : l.unread = '/' :: '/' :: '\n' :: text) :
    l.items = .ok ⟨.lineComment, "", l.location⟩ ::
      .ok ⟨.newline, "\\n", (l.location.step '/').step '/'⟩ ::
        { l with unread := text, location := ((l.location.step '/').step '/').step '\n' }.items := by
  have here : l.unread = [] ++ '/' :: '/' :: '\n' :: text := unread
  have now := next_of_lexeme here nofun (by decide) rfl
  have inside : Kind.lineComment ≠ .endOfInput := by decide
  have left : l.next.2.unread = [] ++ '\n' :: text := by
    rw [now]
    rfl
  rw [items_of_token (by rw [now]) inside, items_feed left nofun, now]
  rfl

end Lexer

/-! ## Programs around a comment -/

/-- Locations that are left out may be any. -/
theorem Node.map_placeless_relocateAll (f : Location → Location) (nodes : List Node) :
    (relocateAll f nodes).map placeless = nodes.map placeless := by
  rw [relocateAll_eq_map, List.map_map]
  exact List.map_congr_left fun node _ => node.relocate_relocate _ f

theorem Derives.Statement.alone {w : List Token} {node : Node} (h : Statement w node) :
    Statements w [node] :=
  ⟨[(w, node)], by simp [concat], rfl, by simpa using h⟩

/-- A text that can stand in a block comment does. -/
theorem Program.parse_comment {t : String} (closable : (Lexer.ofString t).Closable)
    (noMark : ¬ ['*', '/'] <:+: t.toList) : ∃ finish, Program.parse ("/*" ++ t ++ "*/") =
      .ok ⟨[.comment (" ".intercalate (Lexer.ofString t).words) .start], finish⟩ := by
  let inside : Lexer := { unread := t.toList, location := ⟨1, 3⟩ }
  have here : inside.Closable := closable.elsewhere rfl
  obtain ⟨front, last, stream, ends, close⟩ := here.items_close
  let opening : Token := ⟨.openComment, "/*", .start⟩
  let closing : Token := ⟨.closeComment, "*/", last.location⟩
  let final : Token := ⟨.endOfInput, "", (last.location.step '*').step '/'⟩
  have whole : (Lexer.ofString ("/*" ++ t ++ "*/")).items =
      (opening :: (front ++ [closing])).map .ok ++ [Except.ok final] := by
    have unread : (Lexer.ofString ("/*" ++ t ++ "*/")).unread = '/' :: '*' :: (t.toList ++ ['*', '/']) := by
      simp [Lexer.ofString]
    have nothing (p : Location) : ({ unread := [], location := p } : Lexer).items =
        [.ok ⟨.endOfInput, "", p⟩] := rfl
    have rest := close []
    rw [nothing] at rest
    rw [Lexer.items_opening unread, List.map_cons, List.map_append, List.cons_append, List.append_assoc]
    exact congrArg _ rest
  have counts : Token.significant (opening :: (front ++ [closing])) =
      opening :: (Token.significant front ++ [closing]) := by
    rw [← List.singleton_append, Token.significant_append, Token.significant_append]
    rfl
  have outside : ∀ s ∈ Token.significant front, s.kind ≠ .closeComment := by
    intro s member closes
    exact noMark (Lexer.infix_of_close (l := inside) (t := s)
      (by rw [stream]; simp [(List.mem_filter.1 member).1]) closes)
  have derived : Derives.Statements (Token.significant (opening :: (front ++ [closing])))
      [.comment (" ".intercalate (Lexer.ofString t).words) .start] := by
    have words : (Lexer.ofString t).words = (Token.significant front).map Parser.commentWord :=
      Lexer.words_of_stream (l := inside) rfl stream ends
    have comment : Derives.Statement (opening :: (Token.significant front ++ [closing])) _ :=
      .blockComment rfl outside rfl
    rw [counts, words]
    exact comment.alone
  exact ⟨_, Program.parse_of_stream whole rfl (by simp [counts]) derived⟩

/-- A text in a comment between two programs. -/
theorem Program.parse_around_comment {t a b : String} {p q : Program}
    (closable : (Lexer.ofString t).Closable) (noMark : ¬ ['*', '/'] <:+: t.toList)
    (first : Program.parse a = .ok p) (second : Program.parse b = .ok q) :
    ∃ r, Program.parse (a ++ "\n" ++ ("/*" ++ t ++ "*/") ++ "\n" ++ b) = .ok r ∧
      r.statements.map Node.placeless = p.statements.map Node.placeless ++
        .comment (" ".intercalate (Lexer.ofString t).words) .start ::
          q.statements.map Node.placeless := by
  obtain ⟨finish, comment⟩ := Program.parse_comment closable noMark
  have upper := Program.parse_append first comment
  have whole := Program.parse_append upper second
  refine ⟨_, whole, ?_⟩
  simp only [Program.relocate, List.map_append, Node.map_placeless_relocateAll]
  rw [List.append_assoc]
  rfl

namespace Derives

/-- A statement that begins as a comment is one. -/
theorem Statement.comment_cases {t : Token} {v : List Token} {node : Node} (h : Statement (t :: v) node) :
    (t.kind = .lineComment ∧ v = []) ∨ (t.kind = .openComment ∧ ∃ x ∈ v, x.kind = .closeComment) ∨
      (t.kind ≠ .lineComment ∧ t.kind ≠ .openComment) := by
  have other {s : Token} {u : List Token} {kind : Kind} (same : t :: v = s :: u) (is : s.kind = kind)
      (no : kind ≠ .lineComment ∧ kind ≠ .openComment) : t.kind ≠ .lineComment ∧ t.kind ≠ .openComment := by
    rwa [(List.cons.inj same).1, is]
  generalize same : t :: v = w at h
  cases h with
  | simple bare _ =>
    have none : ∀ kind ∈ [Kind.ident, .kwConst, .kwReturn, .kwCin, .kwCout],
        kind ≠ .lineComment ∧ kind ≠ .openComment := by decide
    obtain ⟨s, u, rfl, starts⟩ := bare.starts
    exact .inr (.inr (other same rfl (none _ starts)))
  | function constness isType =>
    obtain ⟨s, u, split, is | is⟩ := constness.begins isType _
    · exact .inr (.inr (other (same.trans split) is (by decide)))
    · exact .inr (.inr (other (same.trans split) is (by decide)))
  | conditional is => exact .inr (.inr (other same is (by decide)))
  | loop is => exact .inr (.inr (other same is (by decide)))
  | alternative is => exact .inr (.inr (other same is (by decide)))
  | lineComment is =>
    obtain ⟨rfl, rfl⟩ := List.cons.inj same
    exact .inl ⟨is, rfl⟩
  | blockComment opens _ closes =>
    obtain ⟨rfl, rfl⟩ := List.cons.inj same
    exact .inr (.inl ⟨opens, _, by simp, closes⟩)

/-- Statements in a row are the first of them and the others. -/
theorem Statements.uncons {t : Token} {w : List Token} {nodes : List Node}
    (h : Statements (t :: w) nodes) : ∃ v u node rest, w = v ++ u ∧ Statement (t :: v) node ∧
      Statements u rest := by
  obtain ⟨items, same, -, each⟩ := h
  cases items with
  | nil => nomatch same
  | cons x items =>
    obtain ⟨tokens, node⟩ := x
    have first := each _ List.mem_cons_self
    obtain ⟨s, v, rfl, -⟩ := first.begins
    obtain ⟨rfl, rest⟩ := List.cons.inj same
    exact ⟨v, concat items, node, _, rest, first, items, rfl, rfl, fun y member =>
      each y (List.mem_cons_of_mem _ member)⟩

/-- A line comment is all of its statement, and statements follow it. -/
theorem Statements.after_line {t : Token} {w : List Token} {nodes : List Node}
    (h : Statements (t :: w) nodes) (line : t.kind = .lineComment) : ∃ rest, Statements w rest := by
  obtain ⟨v, u, node, rest, rfl, first, later⟩ := h.uncons
  obtain ⟨-, rfl⟩ | ⟨opens, -⟩ | ⟨no, -⟩ := first.comment_cases
  · exact ⟨rest, later⟩
  · exact absurd (line.symm.trans opens) (by decide)
  · exact absurd line no

/-- A block comment is closed. -/
theorem Statements.close_of_open {t : Token} {w : List Token} {nodes : List Node}
    (h : Statements (t :: w) nodes) (opens : t.kind = .openComment) : ∃ x ∈ w, x.kind = .closeComment := by
  obtain ⟨v, u, node, rest, rfl, first, -⟩ := h.uncons
  obtain ⟨line, -⟩ | ⟨-, x, member, closes⟩ | ⟨-, no⟩ := first.comment_cases
  · exact absurd (opens.symm.trans line) (by decide)
  · exact ⟨x, List.mem_append_left u member, closes⟩
  · exact absurd opens no

end Derives

/-- What two line comments show of a text in a comment between them. -/
theorem Lexer.closable_of_parse {t : String} {r : Program} (noMark : ¬ ['*', '/'] <:+: t.toList)
    (parsed : Program.parse ("//" ++ "\n" ++ ("/*" ++ t ++ "*/") ++ "\n" ++ "//") = .ok r) :
    (Lexer.ofString t).Closable := by
  obtain ⟨front, last, stream, ends, -, derived, -⟩ := Program.stream_of_parse parsed
  let inside : Lexer :=
    { unread := t.toList ++ '*' :: '/' :: ['\n', '/', '/'], location := ⟨2, 3⟩ }
  obtain ⟨inner, final, stream', -, -⟩ := inside.items_cases
  let line : Token := ⟨.lineComment, "", ⟨1, 1⟩⟩
  let feed : Token := ⟨.newline, "\\n", ⟨1, 3⟩⟩
  let opening : Token := ⟨.openComment, "/*", ⟨2, 1⟩⟩
  have whole : (Lexer.ofString ("//" ++ "\n" ++ ("/*" ++ t ++ "*/") ++ "\n" ++ "//")).items =
      (line :: feed :: opening :: inner).map .ok ++ [final] := by
    have unread : (Lexer.ofString ("//" ++ "\n" ++ ("/*" ++ t ++ "*/") ++ "\n" ++ "//")).unread =
        '/' :: '/' :: '\n' :: '/' :: '*' :: inside.unread := by
      simp [Lexer.ofString, inside]
    rw [Lexer.items_empty_line unread, Lexer.items_opening rfl]
    exact congrArg (.ok line :: .ok feed :: .ok opening :: ·) stream'
  rw [stream] at whole
  obtain ⟨fronts, lasts⟩ := List.append_inj' whole rfl
  obtain rfl := (List.map_inj_right fun _ _ => Except.ok.inj).1 fronts
  obtain ⟨rest, after⟩ := Derives.Statements.after_line derived rfl
  obtain ⟨x, member, closes⟩ := after.close_of_open rfl
  rw [← (List.cons.inj lasts).1] at stream'
  have closable := Lexer.closable_of_close (l := inside) rfl (by decide) noMark stream'
    (List.mem_filter.1 member).1 closes
  exact closable.elsewhere rfl

/-- **Programs around a block comment**: for a text without the closing mark, all programs may stand before
and after a comment with it, and the comment is one statement between theirs, exactly if the text can stand
in a comment. -/
theorem Program.parse_around_comment_iff {t : String} (noMark : ¬ ['*', '/'] <:+: t.toList) :
    (∀ a b p q, Program.parse a = .ok p → Program.parse b = .ok q →
      ∃ r, Program.parse (a ++ "\n" ++ ("/*" ++ t ++ "*/") ++ "\n" ++ b) = .ok r ∧
        r.statements.map Node.placeless = p.statements.map Node.placeless ++
          .comment (" ".intercalate (Lexer.ofString t).words) .start ::
            q.statements.map Node.placeless) ↔ (Lexer.ofString t).Closable := by
  constructor
  · intro h
    have line : Program.parse "//" = .ok ⟨[.comment "" ⟨1, 1⟩], ⟨1, 3⟩⟩ := by cbv
    obtain ⟨r, parsed, -⟩ := h "//" "//" _ _ line line
    exact Lexer.closable_of_parse noMark parsed
  · intro closable a b p q first second
    exact Program.parse_around_comment closable noMark first second

/-- A text of two lines, with a quote that a line comment hides and a star before the mark. -/
theorem Program.parse_around_two_lines :
    ¬ ['*', '/'] <:+: "it // isn't\n a 'b' *".toList ∧
      (Lexer.ofString "it // isn't\n a 'b' *").Closable ∧
      ∃ r, Program.parse ("f();" ++ "\n" ++ ("/*" ++ "it // isn't\n a 'b' *" ++ "*/") ++ "\n" ++ "g();") =
          .ok r ∧
        r.statements.map Node.placeless =
          [.call "f" [] .start, .comment "it // isn't a \"b\" *" .start, .call "g" [] .start] := by
  have noMark : ¬ ['*', '/'] <:+: "it // isn't\n a 'b' *".toList := by simp [List.infix_cons_iff]
  have closable : (Lexer.ofString "it // isn't\n a 'b' *").Closable := by
    constructor
    · refine ⟨[⟨.ident, "it", ⟨1, 1⟩⟩, ⟨.lineComment, " isn't", ⟨1, 4⟩⟩, ⟨.newline, "\\n", ⟨1, 12⟩⟩,
        ⟨.ident, "a", ⟨2, 2⟩⟩, ⟨.stringLiteral, "b", ⟨2, 4⟩⟩, ⟨.star, "*", ⟨2, 8⟩⟩],
        ⟨.endOfInput, "", ⟨2, 9⟩⟩, by decide +kernel, rfl, by simp⟩
    · simp [Lexer.ofString]
  have first : Program.parse "f();" = .ok ⟨[.call "f" [] ⟨1, 1⟩], ⟨1, 5⟩⟩ := by decide +kernel
  have second : Program.parse "g();" = .ok ⟨[.call "g" [] ⟨1, 1⟩], ⟨1, 5⟩⟩ := by decide +kernel
  have text : " ".intercalate (Lexer.ofString "it // isn't\n a 'b' *").words = "it // isn't a \"b\" *" := by
    decide +kernel
  have around := (Program.parse_around_comment_iff noMark).2 closable "f();" "g();" _ _ first second
  rw [text] at around
  exact ⟨noMark, closable, around⟩

/-- Not every text without the closing mark can stand in a comment: the apostrophe opens a string. -/
theorem Program.not_parse_around_apostrophe :
    ¬ ['*', '/'] <:+: "it's".toList ∧
      Program.parse "int x;" = .ok ⟨[.declaration ⟨⟨"int", none, ⟨1, 1⟩⟩, "x", false, ⟨1, 5⟩⟩], ⟨1, 7⟩⟩ ∧
      Program.parse "int y;" = .ok ⟨[.declaration ⟨⟨"int", none, ⟨1, 1⟩⟩, "y", false, ⟨1, 5⟩⟩], ⟨1, 7⟩⟩ ∧
      (Program.parse ("int x;" ++ "\n" ++ ("/*" ++ "it's" ++ "*/") ++ "\n" ++ "int y;")).toOption = none := by
  refine ⟨by simp [List.infix_cons_iff], ?_, ?_, ?_⟩
  · decide +kernel
  · decide +kernel
  · decide +kernel

/-- A slash before the mark and a line comment in the last line take the mark in. -/
example : (Program.parse "/*and/*/\nf();").toOption = none ∧
    (Program.parse "/*see // there*/\nf();").toOption = none := by
  constructor
  · decide +kernel
  · decide +kernel

end Pascalize
