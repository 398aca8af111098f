import Mathlib
import Pascalize.Proofs.NodeEquality
import Pascalize.Proofs.StatementParsing

/-!
# A text is a program iff its tokens are statements

The tokens that count are those that are no line feed and not the end of input. A text whose tokens
can all be read is a program exactly if these are statements in a row, at least one, and the
statements that are read are the only ones they stand for.

What a closed text is parsed as can be evaluated, best from the list of its characters
(`Program.parse_ofList`).
-/

namespace Pascalize

open Derives

/-- The tokens that the grammar is about. -/
def Token.significant (tokens : List Token) : List Token :=
  tokens.filter fun t => t.kind ≠ .newline && t.kind ≠ .endOfInput

/-- Reading starts with all significant readings ahead. -/
theorem Cursor.ahead_ofString {source : String} {c : Cursor} (h : Cursor.ofString source = .ok c) :
    c.ahead = (Lexer.ofString source).significantItems := by
  rw [Cursor.ofString] at h
  rw [Lexer.significantItems_eq]
  split at h
  next t l first =>
    obtain rfl := Except.ok.inj h
    simp [Cursor.ahead, first]
  next => cases h

theorem Lexer.significantItems_of_tokenize {l l' : Lexer} {tokens : List Token}
    (h : l.tokenize = (.ok tokens, l')) : ∃ last, tokens.getLast? = some last ∧
      last.kind = .endOfInput ∧
      l.significantItems = (Token.significant tokens).map .ok ++ [Except.ok last] := by
  obtain ⟨stream, front, last, rfl, ends, inner⟩ := Lexer.items_of_tokenize h
  refine ⟨last, by simp, ends, ?_⟩
  have kept : front.filter (fun t => t.kind ≠ .newline && t.kind ≠ .endOfInput) =
      front.filter fun t => t.kind ≠ .newline := by
    apply List.filter_congr
    intro t member
    simp [inner t member]
  rw [Lexer.significantItems, stream, Token.significant, List.filter_append, kept, List.filter_map]
  simp [ends, Function.comp_def]

/-- A text whose tokens can all be read has a first token that counts, or the end of input. -/
theorem Cursor.ofString_of_tokenize {source : String} {tokens : List Token} {l : Lexer}
    (h : (Lexer.ofString source).tokenize = (.ok tokens, l)) : ∃ c last,
      Cursor.ofString source = .ok c ∧ tokens.getLast? = some last ∧ last.kind = .endOfInput ∧
        c.ahead = (Token.significant tokens).map .ok ++ [Except.ok last] := by
  obtain ⟨last, isLast, ends, stream⟩ := Lexer.significantItems_of_tokenize h
  obtain ⟨c, start⟩ : ∃ c, Cursor.ofString source = .ok c := by
    have first := (Lexer.ofString source).significantItems_eq
    rw [stream] at first
    rw [Cursor.ofString]
    rcases hs : (Lexer.ofString source).significant with ⟨e | t, l'⟩
    · rw [hs] at first
      cases hw : Token.significant tokens <;> rw [hw] at first <;> simp at first
    · exact ⟨_, rfl⟩
  exact ⟨c, last, start, isLast, ends, by rw [Cursor.ahead_ofString start, stream]⟩

theorem Program.parse_eq_ok {source : String} {program : Program} :
    Program.parse source = .ok program ↔
      ∃ c c', Cursor.ofString source = .ok c ∧ Parser.program c = .ok program c' := by
  rw [Program.parse]
  cases Cursor.ofString source with
  | error e => simp [bind, Except.bind]
  | ok c =>
    cases run : Parser.program c with
    | ok p c' => simp [bind, Except.bind, Cursor.parse, EStateM.run, run]
    | error e c' => simp [bind, Except.bind, Cursor.parse, EStateM.run, run]

/-- A text that is given by its characters is parsed from these. -/
theorem Program.parse_ofList (cs : List Char) : Program.parse (String.ofList cs) =
    match Lexer.significant { unread := cs } with
    | (.ok t, lexer) => (Cursor.parse ⟨lexer, t⟩).1
    | (.error e, _) => .error (.lexical e) := by
  rw [Program.parse, Cursor.ofString, Lexer.ofString, String.toList_ofList]
  rcases Lexer.significant { unread := cs } with ⟨e | t, lexer⟩ <;> rfl

/-- The program that a text is, if its tokens are derived. -/
theorem Program.parse_of_statements {source : String} {tokens : List Token} {l : Lexer}
    {nodes : List Node} (lexed : (Lexer.ofString source).tokenize = (.ok tokens, l))
    (nonempty : Token.significant tokens ≠ []) (derived : Statements (Token.significant tokens) nodes) :
    ∃ finish, Program.parse source = .ok ⟨nodes, finish⟩ := by
  obtain ⟨c, last, start, -, ends, ahead⟩ := Cursor.ofString_of_tokenize lexed
  obtain ⟨items, same, rfl, each⟩ := derived
  rw [same] at nonempty ahead
  obtain ⟨c', run⟩ := Parser.takes_program each nonempty ends ahead
  exact ⟨last.location, Program.parse_eq_ok.2 ⟨c, c', start, run⟩⟩

/-- The tokens of a text that is a program are derived. -/
theorem Program.statements_of_parse {source : String} {tokens : List Token} {l : Lexer}
    {program : Program} (lexed : (Lexer.ofString source).tokenize = (.ok tokens, l))
    (parsed : Program.parse source = .ok program) : Token.significant tokens ≠ [] ∧
      Statements (Token.significant tokens) program.statements ∧
      tokens.getLast?.map (·.location) = some program.finish := by
  obtain ⟨c, last, start, isLast, -, ahead⟩ := Cursor.ofString_of_tokenize lexed
  obtain ⟨c₁, c', start', run⟩ := Program.parse_eq_ok.1 parsed
  obtain rfl : c = c₁ := Except.ok.inj (start.symm.trans start')
  obtain ⟨more, ends, finish, w, took, derived⟩ := Parser.program_eq_ok run
  rw [Cursor.Took, Cursor.ahead_of_end ends, ahead] at took
  obtain ⟨same, rfl⟩ : Token.significant tokens = w ∧ last = c'.current := by
    simpa [List.map_inj_right] using List.append_inj' took rfl
  obtain rfl := same
  refine ⟨fun none => ?_, derived, by rw [isLast, finish]; rfl⟩
  rw [none] at ahead
  rw [Cursor.current_of_ahead ahead] at more
  exact more ends

/-- **Parsing is deriving**: a text whose tokens can be read is a program iff its significant tokens
are statements in a row, at least one. The statements read are then their one derivation, and the
program ends where the last token, the end of input, stands. -/
theorem Program.parse_iff_derivation {source : String} {tokens : List Token} {l : Lexer}
    (lexed : (Lexer.ofString source).tokenize = (.ok tokens, l)) :
    ((∃ program, Program.parse source = .ok program) ↔
      Token.significant tokens ≠ [] ∧ ∃ nodes, Statements (Token.significant tokens) nodes) ∧
    ∀ program, Program.parse source = .ok program →
      Statements (Token.significant tokens) program.statements ∧
      (∀ nodes, Statements (Token.significant tokens) nodes → nodes = program.statements) ∧
      tokens.getLast?.map (·.location) = some program.finish := by
  refine ⟨⟨?_, ?_⟩, ?_⟩
  · rintro ⟨program, parsed⟩
    obtain ⟨nonempty, derived, -⟩ := Program.statements_of_parse lexed parsed
    exact ⟨nonempty, _, derived⟩
  · rintro ⟨nonempty, nodes, derived⟩
    obtain ⟨finish, parsed⟩ := Program.parse_of_statements lexed nonempty derived
    exact ⟨_, parsed⟩
  · intro program parsed
    obtain ⟨nonempty, derived, finish⟩ := Program.statements_of_parse lexed parsed
    refine ⟨derived, fun nodes other => ?_, finish⟩
    obtain ⟨finish', parsed'⟩ := Program.parse_of_statements lexed nonempty other
    rw [parsed, Except.ok.injEq] at parsed'
    rw [parsed']

/-- A call with a sign in it, and a line feed that does not count. -/
theorem Program.derivation_of_call :
    Program.parse "f(-x);\n" =
      .ok ⟨[.call "f" [.negation (.var "x" ⟨1, 4⟩) ⟨1, 3⟩] ⟨1, 1⟩], ⟨2, 1⟩⟩ ∧
    Statements [⟨.ident, "f", ⟨1, 1⟩⟩, ⟨.openParen, "(", ⟨1, 2⟩⟩, ⟨.minus, "-", ⟨1, 3⟩⟩,
        ⟨.ident, "x", ⟨1, 4⟩⟩, ⟨.closeParen, ")", ⟨1, 5⟩⟩, ⟨.semicolon, ";", ⟨1, 6⟩⟩]
      [.call "f" [.negation (.var "x" ⟨1, 4⟩) ⟨1, 3⟩] ⟨1, 1⟩] := by
  have lexed : (Lexer.ofString "f(-x);\n").tokenize =
      (.ok [⟨.ident, "f", ⟨1, 1⟩⟩, ⟨.openParen, "(", ⟨1, 2⟩⟩, ⟨.minus, "-", ⟨1, 3⟩⟩,
        ⟨.ident, "x", ⟨1, 4⟩⟩, ⟨.closeParen, ")", ⟨1, 5⟩⟩, ⟨.semicolon, ";", ⟨1, 6⟩⟩,
        ⟨.newline, "\\n", ⟨1, 7⟩⟩, ⟨.endOfInput, "", ⟨2, 1⟩⟩], ⟨[], ⟨2, 1⟩, false⟩) := by
    decide +kernel
  have parsed : Program.parse "f(-x);\n" =
      .ok ⟨[.call "f" [.negation (.var "x" ⟨1, 4⟩) ⟨1, 3⟩] ⟨1, 1⟩], ⟨2, 1⟩⟩ :=
    (Program.parse_ofList _).trans (by decide +kernel)
  exact ⟨parsed, ((Program.parse_iff_derivation lexed).2 _ parsed).1⟩

end Pascalize
