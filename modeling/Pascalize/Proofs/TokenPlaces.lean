import Mathlib
import Pascalize.Proofs.TokenText

/-!
# Tokens and the places they stand at

A lexer has consumed a part of its source, and its location is the place right after that part:
the lines ended in it, and the characters since the last of them (`Location.following`). That is
what `Lexer.At` says, and each way to read on keeps it (`At.next`, `At.next?`, `At.tokenize`), so
it holds after every list of calls, errors among them.

A reading is about some characters of the source (`Lexer.Written`): a line feed, a comment with its
slashes, a string with its quotes, or the text itself. `Starts` says that they are next after blanks,
at the reading's location. The tokens of a whole text are its lexemes with blanks between them
(`Tiles`), and where an error comes first, lexemes stand before it (`Stops`).
-/

namespace Pascalize

/-- The place right after `cs`, where `cs` is the beginning of a text. -/
def Location.following (cs : List Char) : Location where
  line := 1 + cs.count '\n'
  column := 1 + (cs.reverse.takeWhile (· ≠ '\n')).length

/-- Each character moves the place by its own rule. -/
theorem Location.following_concat (cs : List Char) (c : Char) :
    following (cs ++ [c]) = (following cs).step c := by
  by_cases feed : c = '\n'
  · simp [following, step, feed, Nat.add_assoc]
  · have other : ¬ ('\n' = c) := fun h => feed h.symm
    simp [following, step, feed]
    omega

/-- Walking over a text character by character leads to the place right after it. -/
theorem Location.start_after (cs : List Char) : start.after cs = following cs := by
  have walk (back : List Char) : start.after back.reverse = following back.reverse := by
    induction back with
    | nil => rfl
    | cons c back ih =>
      rw [List.reverse_cons, following_concat, after_append, ih]
      rfl
  simpa using walk cs.reverse

/-- The characters that a token is written with. -/
inductive Kind.Written : Kind → String → List Char → Prop
  | newline (text : String) : Written .newline text ['\n']
  | lineComment (text : String) : Written .lineComment text ('/' :: '/' :: text.toList)
  | stringLiteral (text : String) {quote : Char} (isQuote : Lexeme.isQuote quote = true)
      (inside : quote ∉ text.toList) :
      Written .stringLiteral text (quote :: (text.toList ++ [quote]))
  | endOfInput : Written .endOfInput "" []
  | plain {kind : Kind} (text : String)
      (other : kind ∉ [.newline, .lineComment, .stringLiteral, .endOfInput]) :
      Written kind text text.toList

/-- The characters that a fault is about. -/
def Fault.Written : Fault → List Char → Prop
  | unexpected c, cs => cs = [c]
  | incomplete c _, cs => cs = [c]
  | unterminated quote body, cs => cs = quote :: body.toList
  | malformedNumber text, cs => cs = text.toList

theorem Kind.Written.eq_nil {text : String} {cs : List Char}
    (h : Kind.endOfInput.Written text cs) : text = "" ∧ cs = [] := by
  cases h with
  | endOfInput => exact ⟨rfl, rfl⟩
  | plain _ other => simp at other

/-- A word is written as it reads. -/
theorem Kind.written_ofWord (word : String) : (ofWord word).Written word word.toList := by
  apply Written.plain
  obtain is | keyword := ofWord_cases word
  · rw [is]
    decide
  · have plain : ∀ entry ∈ keywords,
        entry.2 ∉ [newline, lineComment, stringLiteral, endOfInput] := by decide
    exact plain _ keyword

namespace Lexeme

/-- A lexeme takes what its token is written with. A fault may be about one character more, which
is left unread. -/
def Faithful (l : Lexeme) : Prop :=
  match l.outcome with
  | .ok (kind, text) => kind.Written text l.taken
  | .error fault => ∃ more, more <+: l.rest ∧ fault.Written (l.taken ++ more)

/-- Most lexemes are written as their texts. -/
theorem faithful_plain {kind : Kind} (written rest : List Char)
    (other : kind ∉ [.newline, .lineComment, .stringLiteral, .endOfInput]) :
    Faithful ⟨.ok (kind, String.ofList written), written, rest⟩ := by
  simpa [Faithful] using Kind.Written.plain (String.ofList written) other

theorem faithful_fault {fault : Fault} {taken rest : List Char} (h : fault.Written taken) :
    Faithful ⟨.error fault, taken, rest⟩ :=
  ⟨[], List.nil_prefix, by simpa using h⟩

/-- A string stands between its quotes, and an unterminated one behind its first. -/
theorem faithful_readString {quote : Char} (cs : List Char) (quoted : isQuote quote = true) :
    (readString quote cs).Faithful := by
  have inside : quote ∉ cs.takeWhile (· ≠ quote) := by
    intro mem
    have ne := List.all_eq_true.1 List.all_takeWhile quote mem
    simp at ne
  unfold readString
  split
  · exact faithful_fault (by simp [Fault.Written])
  next q rest ends =>
    have same : q = quote := by
      have stops := List.head?_dropWhile_not (fun d => decide (d ≠ quote)) cs
      rw [ends] at stops
      simpa using stops
    subst same
    simpa [Faithful] using
      Kind.Written.stringLiteral (String.ofList (cs.takeWhile (· ≠ q))) quoted
        (by simpa using inside)

/-- A number and a malformed one are written as they are told. -/
theorem faithful_readNumber (cs : List Char) : (readNumber cs).Faithful := by
  have number : (numeral cs).1 ∉ [.newline, .lineComment, .stringLiteral, .endOfInput] := by
    unfold numeral
    split <;> simp
  simp only [readNumber]
  split
  · exact faithful_plain _ _ number
  next c rest ends =>
    split
    · rw [ends]
      exact ⟨[c], by simp, by simp [Fault.Written]⟩
    · exact faithful_plain _ _ number

theorem faithful_readWord (cs : List Char) : (readWord cs).Faithful := by
  simpa [Faithful, readWord] using
    Kind.written_ofWord (String.ofList (cs.takeWhile isWordRest))

theorem faithful_readSingle (c : Char) (cs : List Char) : (readSingle c cs).Faithful := by
  unfold readSingle
  split
  next kind symbol =>
    apply faithful_plain
    unfold single? at symbol
    split at symbol <;> cases symbol <;> decide
  · apply faithful_fault
    unfold refuse
    split <;> rfl

/-- A comment to the end of the line has its slashes before its text. -/
theorem faithful_readSymbol (c : Char) (cs : List Char) : (readSymbol c cs).Faithful := by
  unfold readSymbol
  split
  · exact faithful_readSingle c []
  next d rest =>
    split
    · simpa [Faithful, readLineComment] using
        Kind.Written.lineComment (String.ofList (rest.takeWhile (· ≠ '\n')))
    · split
      next kind pair =>
        apply faithful_plain
        unfold pair? at pair
        split at pair <;> cases pair <;> decide
      · exact faithful_readSingle c (d :: rest)

/-- **What is read is told as it is written**, whatever class it is of. -/
theorem faithful_read (c : Char) (cs : List Char) : (read c cs).Faithful := by
  unfold read
  split
  · exact Kind.Written.newline "\\n"
  · split
    next quoted => exact faithful_readString cs quoted
    · split
      · exact faithful_readNumber (c :: cs)
      · split
        · exact faithful_readWord (c :: cs)
        · exact faithful_readSymbol c cs

end Lexeme

namespace Lexer

/-- The characters that a reading is about. -/
def Written : Except LexError Token → List Char → Prop
  | .ok t, cs => t.kind.Written t.text cs
  | .error e, cs => e.fault.Written cs

/-- The location that a reading carries. -/
def place : Except LexError Token → Location
  | .ok t => t.location
  | .error e => e.location

/-- The lexeme of a reading is the next in `text`, after blanks, and the reading is placed where the
lexeme starts. `text` follows `before` in a source. -/
def Starts (before text : List Char) (r : Except LexError Token) : Prop :=
  ∃ gap written after, text = gap ++ written ++ after ∧ (∀ c ∈ gap, Lexeme.isBlank c = true) ∧
    place r = .following (before ++ gap) ∧ Written r written

/-- `text` is the lexemes of `tokens` with blanks before each of them, the last token being the end
of input. Each token is placed where its lexeme starts. `text` follows `before` in a source. -/
inductive Tiles : List Char → List Token → List Char → Prop
  | finish {before gap : List Char} {t : Token} (blank : ∀ c ∈ gap, Lexeme.isBlank c = true)
      (ends : t.kind = .endOfInput) (empty : t.text = "")
      (place : t.location = .following (before ++ gap)) : Tiles before [t] gap
  | lexeme {before gap written text : List Char} {t : Token} {tokens : List Token}
      (blank : ∀ c ∈ gap, Lexeme.isBlank c = true) (inside : t.kind ≠ .endOfInput)
      (place : t.location = .following (before ++ gap)) (spells : t.kind.Written t.text written)
      (rest : Tiles (before ++ gap ++ written) tokens text) :
      Tiles before (t :: tokens) (gap ++ written ++ text)

/-- `text` begins with lexemes, and what comes next after them is an error at its place. `text`
follows `before` in a source. -/
inductive Stops (e : LexError) : List Char → List Char → Prop
  | here {before text : List Char} (starts : Starts before text (.error e)) : Stops e before text
  | lexeme {before gap written text : List Char} {t : Token}
      (blank : ∀ c ∈ gap, Lexeme.isBlank c = true) (inside : t.kind ≠ .endOfInput)
      (spells : t.kind.Written t.text written)
      (rest : Stops e (before ++ gap ++ written) text) : Stops e before (gap ++ written ++ text)

/-- What reading all tokens that are left gives. -/
def Answers (before text : List Char) : Except LexError (List Token) → Prop
  | .ok tokens => Tiles before tokens text
  | .error e => Stops e before text

/-- A lexer has consumed the beginning of the source and is placed right after it. -/
structure At (source consumed : List Char) (l : Lexer) : Prop where
  split : source = consumed ++ l.unread
  place : l.location = .following consumed

variable {source consumed : List Char} {l : Lexer}

theorem At.ofString (source : String) : (ofString source).At source.toList [] where
  split := rfl
  place := rfl

/-- Consuming more of the text moves the place along. -/
theorem At.advance {taken rest : List Char} (h : l.At source consumed)
    (split : l.unread = taken ++ rest) : (l.advance taken rest).At source (consumed ++ taken) where
  split := by rw [h.split, split, List.append_assoc]; rfl
  place := by
    rw [← Location.start_after, Location.after_append, Location.start_after, ← h.place]
    rfl

theorem At.ended (h : l.At source consumed) (ended : Bool) :
    { l with ended := ended }.At source consumed :=
  ⟨h.split, h.place⟩

/-- What was passed stood at the front of what was unread. -/
theorem At.unread_eq {l' : Lexer} {passed : List Char} (h : l.At source consumed)
    (after : l'.At source (consumed ++ passed)) : l.unread = passed ++ l'.unread := by
  have whole : consumed ++ l.unread = consumed ++ (passed ++ l'.unread) := by
    rw [← h.split, after.split, List.append_assoc]
  exact List.append_cancel_left whole

/-- **One reading** skips blanks and is about the characters that follow them. The lexer then stands
after these, or inside them where the reading is an error. -/
theorem At.next (h : l.At source consumed) :
    ∃ gap taken more, (∀ c ∈ gap, Lexeme.isBlank c = true) ∧
      Lexer.place l.next.1 = .following (consumed ++ gap) ∧
      l.next.2.At source (consumed ++ (gap ++ taken)) ∧ more <+: l.next.2.unread ∧
      Written l.next.1 (taken ++ more) ∧ ∀ t, l.next.1 = .ok t → more = [] := by
  have blank : ∀ c ∈ l.unread.takeWhile Lexeme.isBlank, Lexeme.isBlank c = true :=
    List.all_eq_true.1 List.all_takeWhile
  have skipped : l.skipBlanks.At source (consumed ++ l.unread.takeWhile Lexeme.isBlank) :=
    h.advance List.takeWhile_append_dropWhile.symm
  cases starts : l.skipBlanks.unread with
  | nil =>
    simp only [Lexer.next, starts]
    exact ⟨_, [], [], blank, skipped.place, by simpa using skipped, List.nil_prefix, .endOfInput,
      fun _ _ => rfl⟩
  | cons c cs =>
    have faithful := Lexeme.faithful_read c cs
    have after := skipped.advance (starts.trans (Lexeme.taken_append_rest c cs).symm)
    rw [List.append_assoc] at after
    cases outcome : (Lexeme.read c cs).outcome with
    | ok token =>
      simp only [Lexeme.Faithful, outcome] at faithful
      simp only [Lexer.next, starts, outcome]
      rw [← List.append_nil (Lexeme.read c cs).taken] at faithful
      exact ⟨_, _, [], blank, skipped.place, after, List.nil_prefix, faithful, fun _ _ => rfl⟩
    | error fault =>
      simp only [Lexeme.Faithful, outcome] at faithful
      obtain ⟨more, unread, about⟩ := faithful
      simp only [Lexer.next, starts, outcome]
      exact ⟨_, _, more, blank, skipped.place, after, unread, about, by simp⟩

/-- The next reading stands behind the blanks at the front. -/
theorem At.starts (h : l.At source consumed) : Starts consumed l.unread l.next.1 := by
  obtain ⟨gap, taken, more, blank, place, after, ⟨rest, split⟩, written, -⟩ := h.next
  refine ⟨gap, taken ++ more, rest, ?_, blank, place, written⟩
  rw [h.unread_eq after, ← split]
  simp

/-- The end of input is read only where nothing is left. -/
theorem unread_of_ends {t : Token} (h : l.next.1 = .ok t) (ends : t.kind = .endOfInput) :
    l.next.2.unread = [] := by
  cases starts : l.skipBlanks.unread with
  | nil => simp only [Lexer.next, starts]
  | cons c cs =>
    have faithful := Lexeme.faithful_read c cs
    simp only [Lexer.next, starts] at h
    cases outcome : (Lexeme.read c cs).outcome with
    | error fault => simp [outcome] at h
    | ok token =>
      simp only [outcome, Except.ok.injEq] at h
      subst h
      simp only [Lexeme.Faithful, outcome, show token.1 = .endOfInput from ends] at faithful
      exact absurd faithful.eq_nil.2 (Lexeme.taken_ne_nil c cs)

/-- Reading all tokens, by induction on the bound, which the unread characters stay below. -/
theorem At.tokenizeWithin {n : Nat} (h : l.At source consumed) (hn : l.unread.length < n) :
    (∃ consumed', (l.tokenizeWithin n).2.At source consumed') ∧
      Answers consumed l.unread (l.tokenizeWithin n).1 := by
  induction n generalizing l consumed with
  | zero => omega
  | succ n ih =>
    have starts := h.starts
    obtain ⟨gap, taken, more, blank, place, after, -, spells, whole⟩ := h.next
    have last := next_unread_lt_of_not_last (l := l)
    have finished {t : Token} := unread_of_ends (l := l) (t := t)
    rw [Lexer.tokenizeWithin]
    cases reading : l.next with
    | mk r l' =>
    simp only [reading] at starts place after spells whole last finished ⊢
    cases r with
    | error e => exact ⟨⟨_, after⟩, .here starts⟩
    | ok t =>
      obtain rfl := whole t rfl
      rw [List.append_nil, Written] at spells
      by_cases ends : t.kind = .endOfInput
      · have nothing := finished rfl ends
        obtain ⟨empty, none⟩ := Kind.Written.eq_nil (ends ▸ spells)
        simp only [ends, if_true]
        refine ⟨⟨_, after⟩, ?_⟩
        rw [h.unread_eq after, none, nothing, List.append_nil, List.append_nil]
        exact .finish blank ends empty place
      · have less := last (by simp [ends])
        obtain ⟨at', answers⟩ := ih after (by omega)
        simp only [ends, if_false]
        refine ⟨at', ?_⟩
        rw [h.unread_eq after]
        rw [← List.append_assoc] at answers
        cases rest : (l'.tokenizeWithin n).1 with
        | ok tokens =>
          rw [rest] at answers
          exact .lexeme blank ends place spells answers
        | error e =>
          rw [rest] at answers
          exact .lexeme blank ends spells answers

theorem At.tokenize (h : l.At source consumed) :
    (∃ consumed', l.tokenize.2.At source consumed') ∧ Answers consumed l.unread l.tokenize.1 :=
  h.tokenizeWithin (Nat.lt_succ_self _)

/-- The three ways to read on. -/
inductive Call where
  | next
  | next?
  | tokenize
deriving DecidableEq, Repr

/-- The lexer after a call. -/
def Call.perform : Call → Lexer → Lexer
  | next, l => l.next.2
  | next?, l => l.next?.2
  | tokenize, l => l.tokenize.2

/-- The lexer after some calls. -/
def afterCalls (l : Lexer) (calls : List Call) : Lexer :=
  calls.foldl (fun l call => call.perform l) l

/-- What each call keeps, a run of calls keeps. -/
theorem afterCalls_keeps {P : Lexer → Prop} (step : ∀ l call, P l → P (Call.perform call l))
    (holds : P l) (calls : List Call) : P (l.afterCalls calls) := by
  induction calls generalizing l with
  | nil => exact holds
  | cons call calls ih => exact ih (step l call holds)

/-- **A call** keeps the lexer right after what it has consumed. -/
theorem At.perform (h : l.At source consumed) (call : Call) :
    ∃ consumed', (call.perform l).At source consumed' := by
  obtain ⟨gap, taken, more, -, -, after, -⟩ := h.next
  cases call with
  | next => exact ⟨_, after⟩
  | next? =>
    rw [Call.perform, Lexer.next?]
    split
    · exact ⟨_, h⟩
    · exact ⟨_, after.ended _⟩
  | tokenize => exact h.tokenize.1

/-- **A run** of calls keeps the lexer right after what it has consumed. -/
theorem At.afterCalls (h : l.At source consumed) (calls : List Call) :
    ∃ consumed', (l.afterCalls calls).At source consumed' := by
  apply afterCalls_keeps (P := fun l => ∃ consumed', l.At source consumed') _ ⟨consumed, h⟩
  rintro l call ⟨consumed', stands⟩
  exact stands.perform call

/-- What the stream yields is the next reading. -/
theorem next_of_next? {r : Except LexError Token} (h : l.next?.1 = some r) : l.next.1 = r := by
  unfold next? at h
  split at h
  · nomatch h
  · exact Option.some.inj h

/-- **Positions and lexemes.** After any calls, in any order and with errors among them, the
lexer's location is the place right after what it has consumed. What it returns next is about the
text that is left: each token and each error is placed where its lexeme starts, with blanks before
it. The tokens of a whole source are its lexemes, with nothing but blanks between them. -/
theorem tokens_stand (source : String) :
    (∀ calls, let l := (ofString source).afterCalls calls
      ∃ consumed, l.At source.toList consumed ∧ Starts consumed l.unread l.next.1 ∧
        (∀ r, l.next?.1 = some r → Starts consumed l.unread r) ∧
        Answers consumed l.unread l.tokenize.1) ∧
    ∀ tokens, (ofString source).tokenize.1 = .ok tokens → Tiles [] tokens source.toList := by
  constructor
  · intro calls
    obtain ⟨consumed, stands⟩ := (At.ofString source).afterCalls calls
    exact ⟨consumed, stands, stands.starts, fun r is => next_of_next? is ▸ stands.starts,
      stands.tokenize.2⟩
  · intro tokens all
    have answers := (At.ofString source).tokenize.2
    rw [all] at answers
    exact answers

/-- A source with a string over two lines and a comment. -/
theorem tokens_stand_of_lines :
    Tiles [] [⟨.ident, "x", ⟨1, 2⟩⟩, ⟨.stringLiteral, "a\nb", ⟨1, 4⟩⟩, ⟨.semicolon, ";", ⟨2, 3⟩⟩,
      ⟨.lineComment, " c", ⟨2, 5⟩⟩, ⟨.newline, "\\n", ⟨2, 9⟩⟩, ⟨.endOfInput, "", ⟨3, 2⟩⟩]
      " x 'a\nb'; // c\n\t".toList :=
  (tokens_stand " x 'a\nb'; // c\n\t").2 _ (by decide +kernel)

end Lexer

end Pascalize
