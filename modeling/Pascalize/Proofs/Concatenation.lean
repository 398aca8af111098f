import Pascalize.Proofs.Relocation
import Pascalize.Proofs.StreamEnds

/-!
# Programs one after the other

A lexeme is read with one character of lookahead, and a line feed extends none. So a text may be cut
off before any of its tokens and go on with a line feed instead: the tokens before the cut are read
as before (`Lexer.items_cut`). Cut at its end, this is a text that another one follows on the next
line. Statements in a row followed by statements in a row are statements in a row, so programs can
be put one after the other (`Program.parse_append`).
-/

namespace Pascalize

namespace Lexeme

/-- `rest'` may follow a lexeme in the place of `rest`: it is empty, starts with a line feed, or
starts as `rest` does. -/
def Seam (rest rest' : List Char) : Prop :=
  ∀ d ∈ rest'.head?, d = '\n' ∨ d ∈ rest.head?

theorem Seam.of_cut (before after more : List Char) :
    Seam (before ++ after) (before ++ '\n' :: more) := by
  intro d first
  cases before with
  | nil => exact .inl (Option.some.inj first).symm
  | cons c before => exact .inr first

/-- A seam keeps the head from satisfying what neither a line feed nor the old head satisfies. -/
theorem Seam.stop {p : Char → Bool} {rest rest' : List Char} (seam : Seam rest rest')
    (feed : p '\n' = false) (stop : ∀ d ∈ rest.head?, p d = false) :
    ∀ d ∈ rest'.head?, p d = false := by
  intro d first
  obtain rfl | old := seam d first
  · exact feed
  · exact stop d old

theorem dropWhile_stop (p : Char → Bool) (cs : List Char) :
    ∀ d ∈ (cs.dropWhile p).head?, p d = false := by
  intro d first
  have stops := List.head?_dropWhile_not p cs
  rw [Option.mem_def.1 first] at stops
  exact stops

/-- A run of characters ends where it did. -/
theorem takeWhile_seam {p : Char → Bool} {cs rest' : List Char} (feed : p '\n' = false)
    (seam : Seam (cs.dropWhile p) rest') :
    (cs.takeWhile p ++ rest').takeWhile p = cs.takeWhile p ∧
      (cs.takeWhile p ++ rest').dropWhile p = rest' :=
  takeWhile_of_stop rest' (List.all_eq_true.1 List.all_takeWhile)
    (seam.stop feed (dropWhile_stop p cs))

theorem readWord_seam {cs rest' : List Char} (seam : Seam (readWord cs).rest rest') :
    readWord ((readWord cs).taken ++ rest') =
      ⟨(readWord cs).outcome, (readWord cs).taken, rest'⟩ := by
  obtain ⟨taken, rest⟩ := takeWhile_seam (p := isWordRest) (by decide) seam
  simp only [readWord, taken, rest]

theorem readString_of_closed {quote q : Char} {cs rest : List Char}
    (ends : cs.dropWhile (· ≠ quote) = q :: rest) : readString quote cs =
      ⟨.ok (.stringLiteral, String.ofList (cs.takeWhile (· ≠ quote))),
        quote :: (cs.takeWhile (· ≠ quote) ++ [q]), rest⟩ := by
  unfold readString
  rw [ends]

theorem readString_seam {quote : Char} {cs : List Char} {token : Kind × String}
    (rest' : List Char) (ok : (readString quote cs).outcome = .ok token) :
    readString quote ((readString quote cs).taken.tail ++ rest') =
      ⟨(readString quote cs).outcome, (readString quote cs).taken, rest'⟩ := by
  cases ends : cs.dropWhile (· ≠ quote) with
  | nil =>
    unfold readString at ok
    rw [ends] at ok
    nomatch ok
  | cons q rest =>
    have closing := dropWhile_stop (· ≠ quote) cs
    rw [ends] at closing
    have closes : q = quote := by simpa using closing q rfl
    obtain ⟨taken, left⟩ := takeWhile_of_stop (p := (· ≠ quote)) (q :: rest')
      (List.all_eq_true.1 (List.all_takeWhile (l := cs))) (by simp [closes])
    rw [readString_of_closed ends, List.tail_cons, List.append_assoc, List.singleton_append,
      readString_of_closed left, taken]

theorem numeral_of_point {cs r : List Char} (ends : cs.dropWhile Char.isDigit = '.' :: r) :
    numeral cs = (.floatLiteral, cs.takeWhile Char.isDigit ++ '.' :: r.takeWhile Char.isDigit,
      r.dropWhile Char.isDigit) := by
  unfold numeral
  rw [ends]
  rfl

theorem numeral_of_other {cs : List Char} (other : '.' ∉ (cs.dropWhile Char.isDigit).head?) :
    numeral cs = (.intLiteral, cs.takeWhile Char.isDigit, cs.dropWhile Char.isDigit) := by
  unfold numeral
  split
  next point => exact absurd (by simp [point]) other
  next => rfl

theorem numeral_seam {cs rest' : List Char} (seam : Seam (numeral cs).2.2 rest') :
    numeral ((numeral cs).2.1 ++ rest') = ((numeral cs).1, (numeral cs).2.1, rest') := by
  by_cases point : '.' ∈ (cs.dropWhile Char.isDigit).head?
  · obtain ⟨r, ends⟩ := List.head?_eq_some_iff.1 point
    rw [numeral_of_point ends] at seam ⊢
    obtain ⟨fraction, rest⟩ := takeWhile_seam (by decide) seam
    obtain ⟨taken, left⟩ := takeWhile_of_stop (p := Char.isDigit)
      ('.' :: (r.takeWhile Char.isDigit ++ rest'))
      (List.all_eq_true.1 (List.all_takeWhile (l := cs))) (by simp)
    rw [List.append_assoc, List.cons_append, numeral_of_point left, taken, fraction, rest]
  · rw [numeral_of_other point] at seam ⊢
    obtain ⟨taken, rest⟩ := takeWhile_seam (by decide) seam
    have still : '.' ∉ rest'.head? := by
      intro first
      obtain feed | old := seam '.' first
      · exact absurd feed (by decide)
      · exact point old
    rw [numeral_of_other (by rw [rest]; exact still), taken, rest]

theorem readNumber_seam {cs rest' : List Char} {token : Kind × String}
    (ok : (readNumber cs).outcome = .ok token) (seam : Seam (readNumber cs).rest rest') :
    readNumber ((readNumber cs).taken ++ rest') =
      ⟨(readNumber cs).outcome, (readNumber cs).taken, rest'⟩ := by
  have fields : readNumber cs = ⟨.ok ((numeral cs).1, String.ofList (numeral cs).2.1),
      (numeral cs).2.1, (numeral cs).2.2⟩ ∧ ∀ d ∈ (numeral cs).2.2.head?, isWordStart d = false := by
    simp only [readNumber] at ok ⊢
    split at ok
    next none => simp [none]
    next c r some =>
      split at ok
      next => cases ok
      next free => simp [some, free]
  rw [fields.1] at seam ⊢
  have stop := Seam.stop (p := isWordStart) seam (by decide) fields.2
  simp only [readNumber, numeral_seam seam]
  cases rest' with
  | nil => rfl
  | cons d r => simp [stop d rfl]

theorem readSingle_seam (c : Char) (cs rest' : List Char) :
    readSingle c rest' = ⟨(readSingle c cs).outcome, (readSingle c cs).taken, rest'⟩ := by
  unfold readSingle
  split <;> rfl

theorem pair?_feed (c : Char) : pair? c '\n' = none := by
  unfold pair?
  split <;> simp_all

theorem readLineComment_seam {cs rest' : List Char} (seam : Seam (readLineComment cs).rest rest') :
    readLineComment (cs.takeWhile (· ≠ '\n') ++ rest') =
      ⟨(readLineComment cs).outcome, (readLineComment cs).taken, rest'⟩ := by
  obtain ⟨taken, rest⟩ := takeWhile_seam (by decide) seam
  simp only [readLineComment, taken, rest]

/-- A character that stands alone still does before a line feed or nothing. -/
theorem readSymbol_alone {c : Char} {rest : List Char} (h : ∀ d ∈ rest.head?, d = '\n') :
    readSymbol c rest = readSingle c rest := by
  cases rest with
  | nil => rfl
  | cons d r =>
    obtain rfl := h d rfl
    rw [readSymbol, pair?_feed, if_neg (by simp)]

theorem readSymbol_seam {c : Char} {cs rest' : List Char} (seam : Seam (readSymbol c cs).rest rest') :
    readSymbol c ((readSymbol c cs).taken.tail ++ rest') =
      ⟨(readSymbol c cs).outcome, (readSymbol c cs).taken, rest'⟩ := by
  have alone (text : List Char) (same : readSymbol c text = readSingle c text) :
      (readSymbol c text).taken.tail = [] ∧ (readSymbol c text).rest = text := by
    rw [same]
    unfold readSingle
    split <;> exact ⟨rfl, rfl⟩
  cases cs with
  | nil =>
    obtain ⟨taken, rest⟩ := alone [] rfl
    rw [rest] at seam
    rw [taken, List.nil_append, readSymbol_alone fun d first => by simpa using seam d first]
    exact readSingle_seam c [] rest'
  | cons d cs =>
    by_cases comment : c = '/' ∧ d = '/'
    · obtain ⟨rfl, rfl⟩ := comment
      exact readLineComment_seam seam
    · cases pair : pair? c d with
      | some kind =>
        simp only [readSymbol, if_neg comment, pair, List.tail_cons, List.singleton_append]
      | none =>
        have same : readSymbol c (d :: cs) = readSingle c (d :: cs) := by
          simp only [readSymbol, if_neg comment, pair]
        obtain ⟨taken, rest⟩ := alone (d :: cs) same
        rw [rest] at seam
        rw [taken, List.nil_append, same]
        cases rest' with
        | nil => exact readSingle_seam c (d :: cs) []
        | cons d' r =>
          obtain feed | old := seam d' rfl
          · rw [readSymbol_alone (by simpa using feed)]
            exact readSingle_seam c (d :: cs) _
          · obtain rfl := Option.some.inj old
            simp only [readSymbol, if_neg comment, pair]
            exact readSingle_seam c (d :: cs) _

theorem taken_eq_cons (c : Char) (cs : List Char) :
    (read c cs).taken = c :: (read c cs).taken.tail := by
  have whole := taken_append_rest c cs
  obtain ⟨d, taken, same⟩ := List.exists_cons_of_ne_nil (taken_ne_nil c cs)
  rw [same] at whole ⊢
  simp only [List.cons_append, List.cons.injEq] at whole
  rw [whole.1]
  rfl

/-- **One character of lookahead**: a lexeme is read the same before anything that starts as what
followed it, before a line feed, and at the end. -/
theorem read_seam {c : Char} {cs rest' : List Char} {token : Kind × String}
    (ok : (read c cs).outcome = .ok token) (seam : Seam (read c cs).rest rest') :
    read c ((read c cs).taken.tail ++ rest') = ⟨(read c cs).outcome, (read c cs).taken, rest'⟩ := by
  have head := taken_eq_cons c cs
  by_cases feed : c = '\n'
  · simp only [read, if_pos feed, readNewline]
    rfl
  · by_cases quoted : isQuote c = true
    · simp only [read, if_neg feed, if_pos quoted] at ok ⊢
      exact readString_seam rest' ok
    · by_cases digit : c.isDigit = true
      · simp only [read, if_neg feed, if_neg quoted, if_pos digit] at ok seam head ⊢
        rw [← List.cons_append, ← head]
        exact readNumber_seam ok seam
      · by_cases start : isWordStart c = true
        · simp only [read, if_neg feed, if_neg quoted, if_neg digit, if_pos start] at seam head ⊢
          rw [← List.cons_append, ← head]
          exact readWord_seam seam
        · simp only [read, if_neg feed, if_neg quoted, if_neg digit, if_neg start] at seam ⊢
          exact readSymbol_seam seam

/-- No lexeme is the end of input. -/
theorem kind_ne_end {c : Char} {cs : List Char} {kind : Kind} {text : String}
    (ok : (read c cs).outcome = .ok (kind, text)) : kind ≠ .endOfInput := by
  rintro rfl
  have faithful := faithful_read c cs
  simp only [Faithful, ok] at faithful
  exact taken_ne_nil c cs faithful.eq_nil.2

end Lexeme

namespace Lexer

/-- The reading of a lexeme after blanks. -/
theorem next_of_lexeme {l : Lexer} {gap cs : List Char} {c : Char} {kind : Kind} {text : String}
    (unread : l.unread = gap ++ c :: cs) (blank : ∀ d ∈ gap, Lexeme.isBlank d = true)
    (start : Lexeme.isBlank c = false) (ok : (Lexeme.read c cs).outcome = .ok (kind, text)) :
    l.next = (.ok ⟨kind, text, l.location.after gap⟩,
      { l with
        unread := (Lexeme.read c cs).rest
        location := l.location.after (gap ++ (Lexeme.read c cs).taken) }) := by
  obtain ⟨taken, rest⟩ := Lexeme.takeWhile_of_stop (c :: cs) blank (by simpa using start)
  rw [← unread] at taken rest
  simp only [next, skipBlanks, advance, taken, rest, ok, Location.after_append]

/-- A token that is not the end of input is the reading of a lexeme. -/
theorem lexeme_of_next {l : Lexer} {t : Token} (h : l.next.1 = .ok t) (more : t.kind ≠ .endOfInput) :
    ∃ gap c cs, l.unread = gap ++ c :: cs ∧ (∀ d ∈ gap, Lexeme.isBlank d = true) ∧
      Lexeme.isBlank c = false ∧ (Lexeme.read c cs).outcome = .ok (t.kind, t.text) ∧
      t.location = l.location.after gap := by
  have blank : ∀ d ∈ l.unread.takeWhile Lexeme.isBlank, Lexeme.isBlank d = true :=
    List.all_eq_true.1 List.all_takeWhile
  have whole := List.takeWhile_append_dropWhile (p := Lexeme.isBlank) (l := l.unread)
  have stop := Lexeme.dropWhile_stop Lexeme.isBlank l.unread
  cases starts : l.unread.dropWhile Lexeme.isBlank with
  | nil =>
    simp only [next, skipBlanks, advance, starts, Except.ok.injEq] at h
    exact absurd (congrArg Token.kind h).symm more
  | cons c cs =>
    rw [starts] at whole stop
    refine ⟨_, c, cs, whole.symm, blank, stop c rfl, ?_⟩
    simp only [next, skipBlanks, advance, starts] at h
    cases outcome : (Lexeme.read c cs).outcome with
    | error fault => simp [outcome] at h
    | ok token =>
      simp only [outcome, Except.ok.injEq] at h
      subst h
      exact ⟨rfl, rfl⟩

/-- Where the end of input is read, only blanks are left. -/
theorem dropWhile_of_ends {l : Lexer} {t : Token} (h : l.next.1 = .ok t)
    (ends : t.kind = .endOfInput) : l.unread.dropWhile Lexeme.isBlank = [] := by
  cases starts : l.unread.dropWhile Lexeme.isBlank with
  | nil => rfl
  | cons c cs =>
    simp only [next, skipBlanks, advance, starts] at h
    cases outcome : (Lexeme.read c cs).outcome with
    | error fault => simp [outcome] at h
    | ok token =>
      simp only [outcome, Except.ok.injEq] at h
      subst h
      exact absurd ends (Lexeme.kind_ne_end outcome)

/-- The end of input has no text. -/
theorem text_of_ends {l : Lexer} {t : Token} (member : .ok t ∈ l.items)
    (ends : t.kind = .endOfInput) : t.text = "" := by
  induction l using induction_next with
  | last l _ =>
    rw [items_of_last ‹_›, List.mem_singleton] at member
    have blank := dropWhile_of_ends member.symm ends
    simp only [next, skipBlanks, advance, blank, Except.ok.injEq] at member
    rw [member]
  | token l s reading more ih =>
    rw [items_of_token reading more] at member
    obtain same | member := List.mem_cons.1 member
    · obtain rfl := Except.ok.inj same
      exact absurd ends more
    · exact ih member

/-- **A token** is read the same before anything that may follow it. -/
theorem next_seam {l : Lexer} {t : Token} (h : l.next.1 = .ok t) (more : t.kind ≠ .endOfInput) :
    ∃ taken, l.unread = taken ++ l.next.2.unread ∧ l.next.2.location = l.location.after taken ∧
      ∀ rest', Lexeme.Seam l.next.2.unread rest' →
        { l with unread := taken ++ rest' }.next = (.ok t, { l.next.2 with unread := rest' }) := by
  obtain ⟨gap, c, cs, unread, blank, start, ok, place⟩ := lexeme_of_next h more
  have now := next_of_lexeme unread blank start ok
  have head := Lexeme.taken_eq_cons c cs
  rw [now]
  refine ⟨gap ++ (Lexeme.read c cs).taken, ?_, rfl, fun rest' seam => ?_⟩
  · rw [unread, List.append_assoc, Lexeme.taken_append_rest]
  · have again := Lexeme.read_seam ok seam
    have unread' : gap ++ (Lexeme.read c cs).taken ++ rest' =
        gap ++ c :: ((Lexeme.read c cs).taken.tail ++ rest') := by
      rw [List.append_assoc, ← List.cons_append, ← head]
    rw [next_of_lexeme (l := { l with unread := gap ++ (Lexeme.read c cs).taken ++ rest' })
      unread' blank start (by rw [again]; exact ok), again, ← place]

theorem ended_next (l : Lexer) : l.next.2.ended = l.ended := by
  simp only [next]
  split <;> rfl

/-- A line feed after blanks is a token of its own, and reading goes on after it. -/
theorem items_feed {l : Lexer} {gap more : List Char} (unread : l.unread = gap ++ '\n' :: more)
    (blank : ∀ d ∈ gap, Lexeme.isBlank d = true) :
    l.items = .ok ⟨.newline, "\\n", l.location.after gap⟩ ::
      { l with unread := more, location := (l.location.after gap).step '\n' }.items := by
  have now := next_of_lexeme unread blank (by decide) rfl
  rw [Location.after_append] at now
  have inside : Kind.newline ≠ .endOfInput := by decide
  rw [items_of_token (by rw [now]) inside, now]
  rfl

/-- The text before the next token is blank. -/
theorem gap_of_next {l : Lexer} {t : Token} (h : l.next.1 = .ok t) :
    ∃ gap after, l.unread = gap ++ after ∧ (∀ d ∈ gap, Lexeme.isBlank d = true) ∧
      t.location = l.location.after gap ∧ (t.kind = .endOfInput → after = []) := by
  have place := l.place_next
  rw [h] at place
  exact ⟨_, _, List.takeWhile_append_dropWhile.symm, List.all_eq_true.1 List.all_takeWhile, place,
    dropWhile_of_ends h⟩

theorem next_of_items {l : Lexer} {r : Except LexError Token} {rest : List (Except LexError Token)}
    (h : l.items = r :: rest) : l.next.1 = r := by
  rw [items_eq] at h
  split at h <;> exact (List.cons.inj h).1

/-- **A cut** before a token `t`: in a text that goes on with a line feed there, the tokens before
`t` are read as before, then the line feed, and then the rest of that text. -/
theorem items_cut {l : Lexer} {front : List Token} {t : Token} {rest : List (Except LexError Token)}
    (h : l.items = front.map .ok ++ .ok t :: rest) :
    ∃ before after, l.unread = before ++ after ∧ (t.kind = .endOfInput → after = []) ∧
      t.location = l.location.after before ∧ ∀ more : List Char,
        { l with unread := before ++ '\n' :: more }.items =
          front.map .ok ++ .ok ⟨.newline, "\\n", t.location⟩ ::
            { l with unread := more, location := t.location.step '\n' }.items := by
  induction front generalizing l with
  | nil =>
    obtain ⟨gap, after, unread, blank, place, ends⟩ := gap_of_next (next_of_items h)
    refine ⟨gap, after, unread, ends, place, fun more => ?_⟩
    rw [items_feed rfl blank, ← place]
    rfl
  | cons s front ih =>
    have reading := next_of_items h
    have more : s.kind ≠ .endOfInput := by
      intro ends
      rw [items_of_last (by rw [reading]; simp [ends])] at h
      simp at h
    obtain ⟨taken, unread, location, swap⟩ := next_seam reading more
    rw [items_of_token reading more] at h
    obtain ⟨before, after, split, ends, place, cut⟩ := ih (List.cons.inj h).2
    refine ⟨taken ++ before, after, ?_, ends, ?_, fun text => ?_⟩
    · rw [unread, split, List.append_assoc]
    · rw [place, location, Location.after_append]
    · have now := swap (before ++ '\n' :: text) (by rw [split]; exact .of_cut before after text)
      rw [List.append_assoc, items_of_token (by rw [now]) more, now, cut text, ended_next]
      rfl

end Lexer

/-- The program that a text is, from the derivation of its tokens. -/
theorem Program.parse_of_stream {source : String} {front : List Token} {last : Token}
    {nodes : List Node} (stream : (Lexer.ofString source).items = front.map .ok ++ [Except.ok last])
    (ends : last.kind = .endOfInput) (nonempty : Token.significant front ≠ [])
    (derived : Derives.Statements (Token.significant front) nodes) :
    Program.parse source = .ok ⟨nodes, last.location⟩ := by
  have same : Token.significant (front ++ [last]) = Token.significant front := by
    rw [Token.significant_append, Token.significant_end ends, List.append_nil]
  have tokens : (Lexer.ofString source).tokenize.1 = .ok (front ++ [last]) :=
    Lexer.tokenize_fst stream
  have lexed : (Lexer.ofString source).tokenize =
      (.ok (front ++ [last]), (Lexer.ofString source).tokenize.2) := by
    rw [← tokens]
  rw [← same] at nonempty derived
  obtain ⟨finish, parsed⟩ := Program.parse_of_statements lexed nonempty derived
  obtain ⟨-, -, place⟩ := Program.statements_of_parse lexed parsed
  rw [parsed]
  simpa using place.symm

theorem Token.significant_relocate (f : Location → Location) (tokens : List Token) :
    significant (tokens.map (·.relocate f)) = (significant tokens).map (·.relocate f) := by
  rw [significant, List.filter_map]
  rfl

/-- The place right after a text and a line feed is the start of the line below it. -/
theorem Location.start_after_feed (cs : List Char) :
    (start.after cs).step '\n' = start.down (1 + cs.count '\n') := by
  rw [start_after]
  simp only [following, step, if_true, down, start, Location.mk.injEq, and_true]
  omega

/-- The stream of a text and another on the lines below it. -/
theorem Lexer.items_append {a b : String} {front : List Token} {last : Token}
    (stream : (Lexer.ofString a).items = front.map .ok ++ [Except.ok last])
    (ends : last.kind = .endOfInput) :
    (Lexer.ofString (a ++ "\n" ++ b)).items = front.map .ok ++ .ok ⟨.newline, "\\n", last.location⟩ ::
      (Lexer.ofString b).items.map (Lexer.relocate (.down (1 + a.toList.count '\n'))) := by
  obtain ⟨before, after, split, none, place, cut⟩ := Lexer.items_cut stream
  have whole : before = a.toList := by
    rw [none ends, List.append_nil] at split
    exact split.symm
  subst whole
  have text : Lexer.ofString (a ++ "\n" ++ b) =
      { Lexer.ofString a with unread := a.toList ++ '\n' :: b.toList } := by
    simp [Lexer.ofString]
  rw [text, cut, ← Lexer.items_down]
  have below : last.location.step '\n' = Location.start.down (1 + a.toList.count '\n') := by
    rw [place]
    exact Location.start_after_feed a.toList
  rw [below]
  rfl

/-- **Programs one after the other** are a program: the statements of the first, then those of the
second, which stand as many lines further down as the first has, and so does the end. -/
theorem Program.parse_append {a b : String} {p q : Program} (first : Program.parse a = .ok p)
    (second : Program.parse b = .ok q) :
    let below := q.relocate (.down (1 + a.toList.count '\n'))
    Program.parse (a ++ "\n" ++ b) = .ok ⟨p.statements ++ below.statements, below.finish⟩ := by
  intro below
  obtain ⟨front, last, stream, ends, nonempty, derived, -⟩ := Program.stream_of_parse first
  obtain ⟨front', last', stream', ends', -, derived', finish⟩ := Program.stream_of_parse second
  let f := Location.down (1 + a.toList.count '\n')
  let feed : Token := ⟨.newline, "\\n", last.location⟩
  have joint : (Lexer.ofString (a ++ "\n" ++ b)).items =
      (front ++ feed :: front'.map (·.relocate f)).map .ok ++ [.ok (last'.relocate f)] := by
    rw [Lexer.items_append stream ends, stream']
    simp [Lexer.relocate, f, feed]
  have counts : Token.significant (front ++ feed :: front'.map (·.relocate f)) =
      Token.significant front ++ (Token.significant front').map (·.relocate f) := by
    rw [Token.significant_append, ← Token.significant_relocate]
    rfl
  have both : Derives.Statements (Token.significant (front ++ feed :: front'.map (·.relocate f)))
      (p.statements ++ below.statements) := by
    rw [counts]
    exact derived.append derived'.relocate
  have moved : below.finish = (last'.relocate f).location := congrArg f finish.symm
  rw [Program.parse_of_stream joint ends' (by simp [counts, nonempty]) both, moved]

/-- A comment at the end of the first text does not reach into the second, which has a string over
two lines. -/
theorem Program.parse_append_comment :
    Program.parse ("f(1); // g" ++ "\n" ++ "h('a\nb');") =
      .ok ⟨[.call "f" [.intLiteral "1" ⟨1, 3⟩] ⟨1, 1⟩, .comment " g" ⟨1, 7⟩,
        .call "h" [.stringLiteral "a\nb" ⟨2, 3⟩] ⟨2, 1⟩], ⟨3, 5⟩⟩ := by
  have first : Program.parse "f(1); // g" =
      .ok ⟨[.call "f" [.intLiteral "1" ⟨1, 3⟩] ⟨1, 1⟩, .comment " g" ⟨1, 7⟩], ⟨1, 11⟩⟩ := by decide +kernel
  have second : Program.parse "h('a\nb');" =
      .ok ⟨[.call "h" [.stringLiteral "a\nb" ⟨1, 3⟩] ⟨1, 1⟩], ⟨2, 5⟩⟩ := by decide +kernel
  exact Program.parse_append first second

end Pascalize
