import Pascalize.Proofs.BlockComments
import Pascalize.Proofs.ViablePrefix

/-!
# What a lexical error may hide

A rule looks at a token before it takes it, and to take it the reading behind it has to be there. So
a lexical error is met only after all tokens before it went well. Two rules are late: the item that is
written out and the size of an array are taken first and judged then. A lexical error right behind
such a token is met instead of its refusal, and it is the only thing that a lexical error hides
(`Program.lexical_error_hides`). The text up to the error tells which of the two it is.
-/

namespace Pascalize

/-- **A cut** before the last reading of a stream: the tokens before it are read as before, and the
end of input stands in its place. -/
theorem Lexer.items_before_last {l : Lexer} {front : List Token} {last : Except LexError Token}
    (h : l.items = front.map .ok ++ [last]) :
    ∃ before after, l.unread = before ++ after ∧ place last = l.location.after before ∧
      { l with unread := before }.items =
        front.map .ok ++ [Except.ok ⟨.endOfInput, "", place last⟩] := by
  induction front generalizing l with
  | nil =>
    have reading := next_of_items h
    have blank : ∀ d ∈ l.unread.takeWhile Lexeme.isBlank, Lexeme.isBlank d = true :=
      List.all_eq_true.1 List.all_takeWhile
    have gap : (l.unread.takeWhile Lexeme.isBlank).takeWhile Lexeme.isBlank =
        l.unread.takeWhile Lexeme.isBlank := List.takeWhile_eq_self_iff.2 blank
    have stands : place last = l.location.after (l.unread.takeWhile Lexeme.isBlank) := by
      rw [← reading, place_next]
      rfl
    refine ⟨_, _, List.takeWhile_append_dropWhile.symm, stands, ?_⟩
    rw [items_of_blank blank, stands]
    simp only [skipBlanks, advance, gap, List.map_nil, List.nil_append]
  | cons s front ih =>
    have reading := next_of_items h
    have more : s.kind ≠ .endOfInput := by
      intro ends
      rw [items_of_last (by rw [reading]; simp [ends])] at h
      simp at h
    obtain ⟨taken, unread, location, swap⟩ := next_seam reading more
    rw [items_of_token reading more] at h
    obtain ⟨before, after, split, stands, cut⟩ := ih (List.cons.inj h).2
    refine ⟨taken ++ before, after, by rw [unread, split, List.append_assoc], ?_, ?_⟩
    · rw [stands, location, Location.after_append]
    · have seam : Lexeme.Seam l.next.2.unread before := by
        intro d first
        rw [split, List.head?_append, Option.mem_def.1 first]
        exact .inr rfl
      have now := swap before seam
      rw [items_of_token (by rw [now]) more, now, cut]
      rfl

/-- The tokens in front of a lexical error are those before its place. -/
theorem Lexer.tokensBefore_error {l : Lexer} {w : List Token} {e : LexError}
    (h : l.significantItems = w.map .ok ++ [Except.error e]) : l.tokensBefore e.location = w := by
  have ordered := l.significantItems_ordered
  rw [h, List.pairwise_append] at ordered
  have before : w.filter (·.location < e.location) = w := by
    refine List.filter_eq_self.2 fun s member => decide_eq_true ?_
    exact ordered.2.2 (.ok s) (List.mem_map_of_mem member) (.error e) List.mem_cons_self
  have tokens : (w.map (.ok : Token → Except LexError Token)).filterMap Except.toOption = w := by
    rw [List.filterMap_map]
    exact List.filterMap_some
  rw [tokensBefore, h, List.filterMap_append, tokens]
  exact (congrArg (List.filter _) (List.append_nil w)).trans before

/-- The grammar sees the tokens that count and the last reading. -/
theorem Lexer.significantItems_of_items {l : Lexer} {front : List Token}
    {last : Except LexError Token} (h : l.items = front.map .ok ++ [last])
    (ends : isLast last = true) (inside : ∀ t ∈ front, t.kind ≠ .endOfInput) :
    l.significantItems = (Token.significant front).map .ok ++ [last] := by
  have kept : isNewline last = false := by
    cases last with
    | error e => rfl
    | ok t =>
      have isEnd : t.kind = .endOfInput := by simpa using ends
      simp [isEnd]
  have counts : front.filter (fun t => t.kind ≠ .newline && t.kind ≠ .endOfInput) =
      front.filter fun t => t.kind ≠ .newline := by
    refine List.filter_congr fun t member => ?_
    simp [inside t member]
  rw [significantItems, h, Token.significant, counts, List.filter_append, List.filter_map]
  simp [kept, Function.comp_def]

/-- The text up to the lexical error that a text is refused for has the same tokens. -/
theorem Program.text_before_error {source : String} {e : LexError}
    (refused : Program.parse source = .error (.lexical e)) :
    ∃ before after w last, source.toList = before ++ after ∧ e.location = .after .start before ∧
      (Lexer.ofString source).significantItems = w.map .ok ++ [Except.error e] ∧
      (Lexer.ofString (String.ofList before)).significantItems = w.map .ok ++ [Except.ok last] ∧
      ∀ program, Program.parse (String.ofList before) = .ok program → Program.Accepted w := by
  obtain ⟨front, reading, items, ends, inside⟩ := (Lexer.ofString source).items_cases
  obtain rfl : reading = .error e := by
    have last := Program.getLast?_of_parse refused
    rw [items] at last
    simpa using last
  obtain ⟨before, after, split, stands, cut⟩ := Lexer.items_before_last items
  have text : Lexer.ofString (String.ofList before) =
      { Lexer.ofString source with unread := before } := by
    simp [Lexer.ofString]
  rw [← text] at cut
  refine ⟨before, after, Token.significant front, ⟨.endOfInput, "", e.location⟩, split, stands,
    Lexer.significantItems_of_items items ends inside,
    Lexer.significantItems_of_items cut rfl inside, fun program parsed => ?_⟩
  refine ⟨_, _, program, Lexer.tokenize_fst cut, parsed, ?_⟩
  rw [Token.significant_append, Token.significant_end rfl, List.append_nil]

/-- No program begins with tokens up to one that a text is refused for. -/
theorem Program.not_accepted_of_refused {source : String} {e : SyntaxError} {w v : List Token}
    {r : List (Except LexError Token)}
    (refused : Program.parse source = .error (.grammatical e))
    (stream : (Lexer.ofString source).significantItems = w.map .ok ++ .ok e.token :: r)
    (accepted : Program.Accepted v) :
    ¬ (w ++ [e.token]).map Token.content <+: v.map Token.content := by
  rintro ⟨more, begins⟩
  obtain ⟨front, rest, rfl, contents, -⟩ := List.append_eq_map_iff.1 begins
  obtain ⟨other, program, last, parsed, -, stream'⟩ := accepted.stream
  rw [List.map_append, List.append_assoc] at stream'
  exact Program.refused_again refused stream stream' contents.symm program parsed

/-- Tokens in front of a reading, where all readings but the last are tokens, are all of these or fewer. -/
theorem eq_or_length_lt {w v : List Token} {x y : Except LexError Token}
    {r : List (Except LexError Token)} (h : v.map .ok ++ x :: r = w.map .ok ++ [y]) :
    v = w ∨ v.length < w.length := by
  have len := congrArg List.length h
  simp only [List.length_append, List.length_map, List.length_cons, List.length_nil] at len
  by_cases short : v.length < w.length
  · exact .inr short
  · have same := (List.append_inj h (by simp; omega)).1
    exact .inl ((List.map_inj_right fun _ _ => Except.ok.inj).1 same)

/-- One text stops at a lexical error and the other, with the same tokens and no error, is refused
inside them. Then the refusal is late, and for the last of the tokens. -/
theorem Program.late_of_lexical {source source' : String} {e : LexError} {s : SyntaxError}
    {w v : List Token} {last : Token} {r : List (Except LexError Token)}
    (lexical : Program.parse source = .error (.lexical e))
    (refused : Program.parse source' = .error (.grammatical s))
    (stream : (Lexer.ofString source).significantItems = w.map .ok ++ [Except.error e])
    (stream' : (Lexer.ofString source').significantItems = w.map .ok ++ [Except.ok last])
    (inside : (Lexer.ofString source').significantItems = v.map .ok ++ .ok s.token :: r)
    (short : v.length < w.length) : s.Late ∧ w = v ++ [s.token] := by
  obtain ⟨e', -, alone⟩ | ⟨d, d', start', run'⟩ := Program.parse_eq_error lexical
  · have len := congrArg List.length (stream.symm.trans alone)
    simp only [List.length_append, List.length_map, List.length_singleton] at len
    omega
  obtain ⟨e', impossible, -⟩ | ⟨c, c', start, run⟩ := Program.parse_eq_error refused
  · cases impossible
  have agree : Agree w.length c d := by
    rw [← Cursor.ahead_ofString start] at stream'
    rw [← Cursor.ahead_ofString start'] at stream
    exact .of_ahead stream' stream rfl
  have follows := Parser.local_program _ c d agree
  rw [run, run'] at follows
  obtain ⟨t, spent⟩ | ⟨u, q, ahead, other⟩ := follows
  · exact absurd spent ((Program.stops_of_parse refused).1 t)
  obtain rfl : u = v := by
    rw [Cursor.ahead_ofString start] at ahead
    rw [← Lexer.tokensBefore_eq ahead, ← Lexer.tokensBefore_eq inside]
  obtain ⟨x, d'', same, detail⟩ := other short
  obtain rfl : .lexical e = x := (EStateM.Result.error.inj same).1
  -- a refusal that is not late, or comes earlier, is met before the reading that differs
  have late : ¬ (s.Late → u.length + 1 < w.length) := by
    intro early
    obtain ⟨t, d₁, spent⟩ | ⟨s', impossible, -⟩ := detail early
    · cases (EStateM.Result.error.inj spent).1
    · cases impossible
  obtain ⟨late, notShort⟩ := Classical.not_imp.1 late
  refine ⟨late, ?_⟩
  have whole : (u ++ [s.token]).map .ok ++ r = w.map .ok ++ [Except.ok last] := by
    rw [← stream', inside]
    simp
  have same := (List.append_inj whole (by simp; omega)).1
  exact ((List.map_inj_right fun _ _ => Except.ok.inj).1 same).symm

/-- **What a lexical error hides.** A text is refused for a lexical error. Then the tokens before it
begin a program; or no program begins with them, the text up to the error is refused for the last of
them, as an item that cannot be written out or as a size that is too large, and the tokens before
that one do begin a program. -/
theorem Program.lexical_error_hides {source : String} {e : LexError}
    (refused : Program.parse source = .error (.lexical e)) :
    let before := (Lexer.ofString source).tokensBefore e.location
    ∃ text rest, source.toList = text ++ rest ∧ e.location = .after .start text ∧
      ((∃ w, Program.Accepted w ∧ before <+: w) ∨
        ∃ front t s, before = front ++ [t] ∧
          Program.parse (String.ofList text) = .error (.grammatical s) ∧
          (s = .expected .outputItem t ∨ s = .arraySize t) ∧
          (∃ w, Program.Accepted w ∧ front <+: w) ∧
          ¬ ∃ w, Program.Accepted w ∧ before.map Token.content <+: w.map Token.content) := by
  intro before
  obtain ⟨text, rest, w, last, split, stands, stream, stream', accepted⟩ :=
    Program.text_before_error refused
  have same : before = w := Lexer.tokensBefore_error stream
  refine ⟨text, rest, split, stands, ?_⟩
  rw [same]
  cases cut : Program.parse (String.ofList text) with
  | ok program => exact .inl ⟨w, accepted program cut, List.prefix_refl w⟩
  | error x =>
    have stops := Program.stops_of_parse cut
    cases x with
    | lexical e' =>
      obtain ⟨w', stream'', -⟩ := stops
      have ends := congrArg List.getLast? (stream'.symm.trans stream'')
      simp at ends
    | grammatical s =>
      obtain ⟨-, v, r, inside, viable⟩ := stops
      obtain rfl | short := eq_or_length_lt (inside.symm.trans stream')
      · exact .inl (Program.accepted_of_viable inside viable)
      · obtain ⟨late, rfl⟩ := Program.late_of_lexical refused cut stream stream' inside short
        refine .inr ⟨v, s.token, s, rfl, rfl, late, Program.accepted_of_viable inside viable, ?_⟩
        rintro ⟨u, accepted, begins⟩
        exact Program.not_accepted_of_refused cut inside accepted begins

/-- The size of an array is too large, and the lexical error behind it hides that. -/
theorem Program.lexical_error_hides_size :
    let source := "int[18446744073709551616 @"
    let e : LexError := ⟨.unexpected '@', ⟨1, 26⟩⟩
    let size : Token := ⟨.intLiteral, "18446744073709551616", ⟨1, 5⟩⟩
    Program.parse source = .error (.lexical e) ∧
    ∃ text rest s, source.toList = text ++ rest ∧ e.location = .after .start text ∧
      Program.parse (String.ofList text) = .error (.grammatical s) ∧ s.token = size := by
  intro source e size
  let front : List Token := [⟨.ident, "int", ⟨1, 1⟩⟩, ⟨.openBracket, "[", ⟨1, 4⟩⟩]
  have refused : Program.parse source = .error (.lexical e) :=
    (Program.parse_ofList _).trans (by decide +kernel)
  have before : (Lexer.ofString source).tokensBefore e.location = front ++ [size] := by
    decide +kernel
  have cut : Program.parse "int[18446744073709551616" = .error (.grammatical (.arraySize size)) :=
    (Program.parse_ofList _).trans (by decide +kernel)
  have stream : (Lexer.ofString "int[18446744073709551616").significantItems =
      front.map .ok ++ .ok size :: [.ok ⟨.endOfInput, "", ⟨1, 25⟩⟩] := by
    decide +kernel
  refine ⟨refused, ?_⟩
  obtain ⟨text, rest, split, stands, ⟨w, accepted, begins⟩ | ⟨front', t, s, last, refusal, late, -⟩⟩ :=
    Program.lexical_error_hides refused
  · rw [before] at begins
    exact absurd (begins.map Token.content) (Program.not_accepted_of_refused cut stream accepted)
  · rw [before] at last
    obtain rfl : size = t := by simpa using (List.append_inj' last rfl).2
    refine ⟨text, rest, s, split, stands, refusal, ?_⟩
    obtain rfl | rfl := late <;> rfl

/-- A semicolon is no item that can be written out, and the lexical error behind it hides that: the
tokens before the error, whatever their places, begin no program. -/
theorem Program.lexical_error_hides_item :
    let source := "cout << ; @"
    let e : LexError := ⟨.unexpected '@', ⟨1, 11⟩⟩
    Program.parse source = .error (.lexical e) ∧
    ¬ ∃ w, Program.Accepted w ∧
      ((Lexer.ofString source).tokensBefore e.location).map Token.content <+: w.map Token.content := by
  intro source e
  let item : Token := ⟨.semicolon, ";", ⟨1, 9⟩⟩
  let front : List Token := [⟨.kwCout, "cout", ⟨1, 1⟩⟩, ⟨.shiftLeft, "<<", ⟨1, 6⟩⟩]
  have before : (Lexer.ofString source).tokensBefore e.location = front ++ [item] := by
    decide +kernel
  have cut : Program.parse "cout << ;" = .error (.grammatical (.expected .outputItem item)) :=
    (Program.parse_ofList _).trans (by decide +kernel)
  have stream : (Lexer.ofString "cout << ;").significantItems =
      front.map .ok ++ .ok item :: [.ok ⟨.endOfInput, "", ⟨1, 10⟩⟩] := by
    decide +kernel
  refine ⟨(Program.parse_ofList _).trans (by decide +kernel), ?_⟩
  rintro ⟨w, accepted, begins⟩
  rw [before] at begins
  exact Program.not_accepted_of_refused cut stream accepted begins

end Pascalize
