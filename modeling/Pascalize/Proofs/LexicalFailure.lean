import Pascalize.Proofs.StreamEnds
import Pascalize.Proofs.StatementRefusals

/-!
# The stream and the grammar agree on lexical errors

The grammar pulls readings one by one, always one ahead of what it has judged, and may stop early.
A program is read up to the end of input, so its stream has no error. A lexical error that stops the
grammar is the last reading of the stream. If the stream ends with an error, the grammar gets there
or refuses a token before it, and the readings of a stream stand in the order of their locations.
-/

namespace Pascalize

/-- The token that a text is refused for stands in its stream. -/
theorem Program.token_of_parse {source : String} {s : SyntaxError}
    (h : Program.parse source = .error (.grammatical s)) :
    ∃ (w : List Token) (r : List (Except LexError Token)),
      (Lexer.ofString source).significantItems = w.map .ok ++ .ok s.token :: r := by
  obtain ⟨-, w, r, stream, -⟩ := Program.stops_of_parse h
  exact ⟨w, r, stream⟩

/-- A lexical error that stops the grammar is the last reading. -/
theorem Program.getLast?_of_parse {source : String} {e : LexError}
    (h : Program.parse source = .error (.lexical e)) :
    (Lexer.ofString source).items.getLast? = some (.error e) := by
  obtain ⟨w, stream, -⟩ := Program.stops_of_parse h
  rw [← Lexer.getLast?_significantItems, stream]
  simp

/-- A token before the last reading stands before it in the text. -/
theorem Lexer.location_lt_of_getLast? {l : Lexer} {t : Token} {e : LexError} {w : List Token}
    {r : List (Except LexError Token)} (stream : l.significantItems = w.map .ok ++ .ok t :: r)
    (last : l.items.getLast? = some (.error e)) : t.location < e.location := by
  have ordered := l.significantItems_ordered
  rw [← Lexer.getLast?_significantItems, stream] at last
  rw [stream] at ordered
  have behind := List.pairwise_cons.1 (List.pairwise_append.1 ordered).2.1
  have member : .error e ∈ r := by
    cases r with
    | nil => simp at last
    | cons x r =>
      rw [List.getLast?_append, List.getLast?_cons_cons] at last
      apply List.mem_of_getLast?
      simpa using last
  exact behind.1 _ member

/-- The tokens read at once are the stream, and the error met is its last reading. -/
theorem Lexer.tokenize_of_getLast? {l : Lexer} {e : LexError}
    (last : l.items.getLast? = some (.error e)) : l.tokenize.1 = .error e := by
  obtain ⟨front, reading, stream, -, -⟩ := l.items_cases
  obtain rfl : reading = .error e := by
    rw [stream] at last
    simpa using last
  exact Lexer.tokenize_fst stream

/-- **The stream and the grammar agree on lexical errors.** A program has a stream without errors. A
lexical error that stops the grammar is the one at which the stream ends, read one by one or at
once. A text whose stream ends with an error is refused for that error or for a token before it. -/
theorem Program.parse_lexical_agreement (source : String) :
    (∀ program, Program.parse source = .ok program → ∃ tokens,
      (Lexer.ofString source).tokenize.1 = .ok tokens ∧
        (Lexer.ofString source).items = tokens.map .ok) ∧
    (∀ e, Program.parse source = .error (.lexical e) →
      (Lexer.ofString source).tokenize.1 = .error e ∧
        (Lexer.ofString source).items.getLast? = some (.error e)) ∧
    (∀ e, (Lexer.ofString source).items.getLast? = some (.error e) →
      Program.parse source = .error (.lexical e) ∨
        ∃ s, Program.parse source = .error (.grammatical s) ∧ s.token.location < e.location) := by
  refine ⟨fun program parsed => ?_, fun e failed => ?_, fun e last => ?_⟩
  · obtain ⟨tokens, lexed⟩ := Program.tokenize_of_parse parsed
    exact ⟨tokens, lexed, Lexer.tokenize_eq_ok_iff.1 lexed⟩
  · have last := Program.getLast?_of_parse failed
    exact ⟨Lexer.tokenize_of_getLast? last, last⟩
  · cases outcome : Program.parse source with
    | ok program =>
      obtain ⟨tokens, lexed⟩ := Program.tokenize_of_parse outcome
      rw [Lexer.tokenize_of_getLast? last] at lexed
      nomatch lexed
    | error x =>
      cases x with
      | lexical e' =>
        have last' := Program.getLast?_of_parse outcome
        rw [last] at last'
        left
        rw [Except.error.inj (Option.some.inj last')]
      | grammatical s =>
        obtain ⟨w, r, stream⟩ := Program.token_of_parse outcome
        exact .inr ⟨s, rfl, Lexer.location_lt_of_getLast? stream last⟩

/-- A stream that ends with an error, behind a token that is refused. -/
theorem Program.lexical_agreement_of_early_refusal :
    (Lexer.ofString "x + 1; @").items.getLast? = some (.error ⟨.unexpected '@', ⟨1, 8⟩⟩) ∧
    (Program.parse "x + 1; @" = .error (.lexical ⟨.unexpected '@', ⟨1, 8⟩⟩) ∨
      ∃ s, Program.parse "x + 1; @" = .error (.grammatical s) ∧
        s.token.location < (⟨1, 8⟩ : Location)) := by
  have last : (Lexer.ofString "x + 1; @").items.getLast? =
      some (.error ⟨.unexpected '@', ⟨1, 8⟩⟩) := by
    decide +kernel
  exact ⟨last, (Program.parse_lexical_agreement _).2.2 _ last⟩

end Pascalize
