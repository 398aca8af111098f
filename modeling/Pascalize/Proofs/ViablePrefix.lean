import Pascalize.Proofs.Concatenation
import Pascalize.Proofs.LexicalFailure
import Pascalize.Proofs.Lookahead

/-!
# Refusals come as early as possible and no earlier

The token that a text is refused for is the first that cannot go on. The tokens before it do begin
some program: the text is cut there, and the kinds that would complete it are written on the lines
below. And no program begins with those tokens and the refused one, since reading it would refuse
the same token.
-/

namespace Pascalize

/-- The tokens are those that count of a program. -/
def Program.Accepted (w : List Token) : Prop :=
  ∃ source tokens program, (Lexer.ofString source).tokenize.1 = .ok tokens ∧
    Program.parse source = .ok program ∧ Token.significant tokens = w

/-! Texts that complete a program. -/

/-- The kinds as words, one on each line. -/
def sampleText : List Kind → String
  | [] => ""
  | k :: ks => k.sample?.getD "" ++ "\n" ++ sampleText ks

/-- A sample is read as the one token that it is a sample of. -/
theorem Lexer.items_sample {k : Kind} {text : String} (h : k.sample? = some text) :
    (Lexer.ofString text).items =
      [.ok ⟨k, text, .start⟩, .ok ⟨.endOfInput, "", .after .start text.toList⟩] := by
  cases k <;> cases h <;> decide +kernel

theorem Spells.relocate {ks : List Kind} {u : List Token} (h : Spells ks u)
    (f : Location → Location) : Spells ks (u.map (·.relocate f)) := by
  rw [Spells, List.map_map]
  exact h

/-- The words are read as tokens of the kinds. -/
theorem Lexer.items_sampleText {ks : List Kind} (isPlain : plain ks = true) :
    ∃ (front : List Token) (last : Token),
      (Lexer.ofString (sampleText ks)).items = front.map .ok ++ [Except.ok last] ∧
      last.kind = .endOfInput ∧ Spells ks (Token.significant front) := by
  induction ks with
  | nil => exact ⟨[], ⟨.endOfInput, "", .start⟩, rfl, rfl, rfl⟩
  | cons k ks ih =>
    simp only [plain, List.all_cons, Bool.and_eq_true] at isPlain
    obtain ⟨text, sample⟩ := Option.isSome_iff_exists.1 isPlain.1
    obtain ⟨front, last, stream, ends, spells⟩ := ih isPlain.2
    let f := Location.down (1 + text.toList.count '\n')
    let word : Token := ⟨k, text, .start⟩
    let feed : Token := ⟨.newline, "\\n", .after .start text.toList⟩
    have first : (Lexer.ofString text).items =
        [word].map .ok ++ [Except.ok ⟨.endOfInput, "", .after .start text.toList⟩] :=
      Lexer.items_sample sample
    refine ⟨[word] ++ feed :: front.map (·.relocate f), last.relocate f, ?_, ends, ?_⟩
    · rw [sampleText, sample, Option.getD_some, Lexer.items_append first rfl, stream]
      simp [Lexer.relocate, f, feed]
    · have counts : Token.significant [word] = [word] := by
        cases k <;> cases sample <;> rfl
      have rest : Token.significant (feed :: front.map (·.relocate f)) =
          (Token.significant front).map (·.relocate f) := Token.significant_relocate f front
      have again := spells.relocate f
      rw [Spells] at again ⊢
      rw [Token.significant_append, counts, rest, List.map_append, again]
      simp [word, sample]

/-! The tokens before a place. -/

/-- The tokens that the grammar reads before a place. -/
def Lexer.tokensBefore (l : Lexer) (p : Location) : List Token :=
  (l.significantItems.filterMap Except.toOption).filter (·.location < p)

theorem Location.lt_asymm {p q : Location} (h : p < q) : ¬ q < p :=
  fun h' => Location.lt_irrefl p (Location.lt_trans h h')

/-- The tokens in front of a token are those before its place. -/
theorem Lexer.tokensBefore_eq {l : Lexer} {w : List Token} {t : Token}
    {r : List (Except LexError Token)} (h : l.significantItems = w.map .ok ++ .ok t :: r) :
    l.tokensBefore t.location = w := by
  have ordered := l.significantItems_ordered
  rw [h, List.pairwise_append, List.pairwise_cons] at ordered
  obtain ⟨-, ⟨behind, -⟩, front⟩ := ordered
  have before : w.filter (·.location < t.location) = w := by
    refine List.filter_eq_self.2 fun s member => decide_eq_true ?_
    exact front (.ok s) (List.mem_map_of_mem member) (.ok t) List.mem_cons_self
  have after : (t :: r.filterMap Except.toOption).filter (·.location < t.location) = [] := by
    refine List.filter_eq_nil_iff.2 fun s member => ?_
    rw [decide_eq_true_iff]
    obtain rfl | member := List.mem_cons.1 member
    · exact Location.lt_irrefl s.location
    · obtain ⟨x, inside, is⟩ := List.mem_filterMap.1 member
      cases x with
      | error e => nomatch is
      | ok s' =>
        obtain rfl : s' = s := Option.some.inj is
        exact Location.lt_asymm (behind _ inside)
  have tokens : (w.map (.ok : Token → Except LexError Token)).filterMap Except.toOption = w := by
    rw [List.filterMap_map]
    exact List.filterMap_some
  rw [tokensBefore, h, List.filterMap_append, tokens, List.filter_append, before]
  exact (congrArg (w ++ ·) after).trans (List.append_nil w)

/-- The stream up to a token that the grammar reads. -/
theorem Lexer.items_split {l : Lexer} {w : List Token} {t : Token}
    {r : List (Except LexError Token)} (h : l.significantItems = w.map .ok ++ .ok t :: r) :
    ∃ (front : List Token) (rest : List (Except LexError Token)),
      l.items = front.map .ok ++ .ok t :: rest ∧ Token.significant front = w := by
  induction l using Lexer.induction_next generalizing w with
  | last l ends =>
    rw [significantItems, items_of_last ends] at h
    have short := congrArg List.length h
    have le := List.length_filter_le (!isNewline ·) [l.next.1]
    simp only [List.length_append, List.length_map, List.length_cons, List.length_nil] at short le
    obtain rfl : w = [] := List.length_eq_zero_iff.1 (by omega)
    have member : .ok t ∈ [l.next.1] := by
      have member : .ok t ∈ [l.next.1].filter (!isNewline ·) := by
        rw [h]
        exact List.mem_cons_self
      exact (List.mem_filter.1 member).1
    refine ⟨[], [], ?_, rfl⟩
    rw [items_of_last ends, ← List.mem_singleton.1 member]
    rfl
  | token l s reading more ih =>
    rw [significantItems, items_of_token reading more] at h
    rw [items_of_token reading more]
    by_cases feed : s.kind = .newline
    · have h : l.next.2.significantItems = w.map .ok ++ .ok t :: r := by
        simpa [feed, significantItems] using h
      obtain ⟨front, rest, split, counts⟩ := ih h
      refine ⟨s :: front, rest, by rw [split]; rfl, ?_⟩
      rw [← counts]
      simp [Token.significant, feed]
    · have h : .ok s :: l.next.2.significantItems = w.map .ok ++ .ok t :: r := by
        simpa [feed, significantItems] using h
      cases w with
      | nil =>
        obtain rfl : s = t := Except.ok.inj (List.cons.inj h).1
        exact ⟨[], _, rfl, rfl⟩
      | cons s' w =>
        obtain rfl : s = s' := Except.ok.inj (List.cons.inj h).1
        obtain ⟨front, rest, split, counts⟩ := ih (List.cons.inj h).2
        refine ⟨s :: front, rest, by rw [split]; rfl, ?_⟩
        rw [← counts]
        simp [Token.significant, feed, more]

/-! Completing a text. -/

/-- Tokens that can be completed to a program and stand at the front of a text are accepted, with
more tokens behind them. -/
theorem Program.accepted_of_viable {source : String} {w : List Token} {t : Token}
    {r : List (Except LexError Token)}
    (stream : (Lexer.ofString source).significantItems = w.map .ok ++ .ok t :: r)
    (viable : Viable Parser.IsProgram w) : ∃ v, Program.Accepted v ∧ w <+: v := by
  obtain ⟨ks, isPlain, complete⟩ := viable
  obtain ⟨front, rest, split, counts⟩ := Lexer.items_split stream
  obtain ⟨before, -, -, -, -, cut⟩ := Lexer.items_cut split
  obtain ⟨front', last, stream', ends, spells⟩ := Lexer.items_sampleText isPlain
  let f := Location.down t.location.line
  let feed : Token := ⟨.newline, "\\n", t.location⟩
  let tokens := front ++ feed :: front'.map (·.relocate f)
  have whole : (Lexer.ofString (String.ofList (before ++ '\n' :: (sampleText ks).toList))).items =
      tokens.map .ok ++ [Except.ok (last.relocate f)] := by
    have below : ({ Lexer.ofString source with
        unread := (sampleText ks).toList, location := t.location.step '\n' } : Lexer) =
        (Lexer.ofString (sampleText ks)).down t.location.line := by
      simp [Lexer.ofString, Lexer.down, Location.down, Location.step, Location.start, Nat.add_comm]
    have text : Lexer.ofString (String.ofList (before ++ '\n' :: (sampleText ks).toList)) =
        { Lexer.ofString source with unread := before ++ '\n' :: (sampleText ks).toList } := by
      simp [Lexer.ofString]
    rw [text, cut, below, Lexer.items_down, stream']
    simp [tokens, feed, f, Lexer.relocate]
  have counted : Token.significant tokens = w ++ (Token.significant front').map (·.relocate f) := by
    rw [Token.significant_append, counts, ← Token.significant_relocate]
    rfl
  obtain ⟨nonempty, nodes, derived⟩ := complete _ (spells.relocate f)
  rw [← counted] at nonempty derived
  refine ⟨_, ⟨_, tokens ++ [last.relocate f], _, Lexer.tokenize_fst whole,
    Program.parse_of_stream whole ends nonempty derived, rfl⟩, ?_⟩
  rw [Token.significant_append, counted, List.append_assoc]
  exact List.prefix_append _ _

/-! Reading the same tokens again. -/

/-- Cursors with the same tokens ahead but for their locations. -/
theorem Agree.of_ahead {c d : Cursor} {w w' : List Token} {r r' : List (Except LexError Token)}
    (ahead : c.ahead = w.map .ok ++ r) (ahead' : d.ahead = w'.map .ok ++ r')
    (same : w.map Token.content = w'.map Token.content) : Agree w.length c d := by
  have len : w.length = w'.length := by simpa using congrArg List.length same
  rw [Agree, ahead, ahead', List.take_left' (by simp), List.take_left' (by simp [len])]
  have lifted := congrArg (List.map (.ok : Kind × String → Except Fault (Kind × String))) same
  rw [List.map_map, List.map_map] at lifted ⊢
  exact lifted

/-- A text with the tokens of a refused one, up to the token it is refused for, is refused as well:
the grammar looks at no more. -/
theorem Program.refused_again {source source' : String} {e : SyntaxError} {w w' : List Token}
    {r r' : List (Except LexError Token)}
    (refused : Program.parse source = .error (.grammatical e))
    (stream : (Lexer.ofString source).significantItems = w.map .ok ++ .ok e.token :: r)
    (stream' : (Lexer.ofString source').significantItems = w'.map .ok ++ r')
    (same : (w ++ [e.token]).map Token.content = w'.map Token.content) (program : Program) :
    Program.parse source' ≠ .ok program := by
  intro parsed
  obtain ⟨e', impossible, -⟩ | ⟨c, c', start, run⟩ := Program.parse_eq_error refused
  · nomatch impossible
  obtain ⟨d, d', start', run'⟩ := Program.parse_eq_ok.1 parsed
  have agree : Agree (w ++ [e.token]).length c d := by
    rw [← Cursor.ahead_ofString start] at stream
    rw [← Cursor.ahead_ofString start'] at stream'
    exact .of_ahead (by simpa using stream) stream' same
  have follows := Parser.local_program _ c d agree
  rw [run, run'] at follows
  obtain ⟨t, spent⟩ | ⟨v, s, ahead, other⟩ := follows
  · exact (Program.stops_of_parse refused).1 t spent
  · -- The token of the error stands at one place, so it is met after the same tokens.
    obtain rfl : v = w := by
      rw [Cursor.ahead_ofString start] at ahead
      rw [← Lexer.tokensBefore_eq ahead, ← Lexer.tokensBefore_eq stream]
    obtain ⟨x', d'', impossible, -⟩ := other (by simp)
    nomatch impossible

/-! The refused token. -/

/-- The token of an error is the one at its place. -/
theorem Program.token_at_refusal {source : String} {e : SyntaxError}
    (refused : Program.parse source = .error (.grammatical e)) (t : Token) :
    .ok t ∈ (Lexer.ofString source).significantItems ∧
      t.location = (ParseError.grammatical e).location ↔ t = e.token := by
  obtain ⟨w, r, stream⟩ := Program.token_of_parse refused
  have ordered := (Lexer.ofString source).significantItems_ordered
  rw [stream, List.pairwise_append, List.pairwise_cons] at ordered
  obtain ⟨-, ⟨behind, -⟩, front⟩ := ordered
  rw [stream]
  constructor
  · rintro ⟨member, place⟩
    have place : t.location = e.token.location := place
    obtain member | member := List.mem_append.1 member
    · have before : t.location < e.token.location := front _ member _ List.mem_cons_self
      exact absurd (place ▸ before) (Location.lt_irrefl _)
    · obtain same | member := List.mem_cons.1 member
      · exact Except.ok.inj same
      · have after : e.token.location < t.location := behind _ member
        exact absurd (place ▸ after) (Location.lt_irrefl _)
  · rintro rfl
    exact ⟨List.mem_append_right _ List.mem_cons_self, rfl⟩

/-- Accepted tokens are the stream of a text, up to its end of input. -/
theorem Program.Accepted.stream {w : List Token} (h : Program.Accepted w) :
    ∃ source program last, Program.parse source = .ok program ∧ last.content = (.endOfInput, "") ∧
      (Lexer.ofString source).significantItems = w.map .ok ++ [Except.ok last] := by
  obtain ⟨source, tokens, program, lexed, parsed, rfl⟩ := h
  obtain ⟨last, -, ends, stream⟩ := Lexer.significantItems_of_tokenize (Prod.ext lexed rfl)
  have member : .ok last ∈ (Lexer.ofString source).items := by
    have member : .ok last ∈ (Lexer.ofString source).significantItems := by simp [stream]
    exact (List.mem_filter.1 member).1
  exact ⟨source, program, last, parsed, Prod.ext ends (Lexer.text_of_ends member ends), stream⟩

/-- **A text is refused at the first token that cannot continue a program.** The tokens before the
place of the error begin a program. No program begins with them and the token at that place; or, if
that is the end of input, they are no program themselves. -/
theorem Program.refusal_is_first {source : String} {e : SyntaxError}
    (refused : Program.parse source = .error (.grammatical e)) :
    let place := (ParseError.grammatical e).location
    let before := (Lexer.ofString source).tokensBefore place
    (∀ t, .ok t ∈ (Lexer.ofString source).significantItems ∧ t.location = place ↔ t = e.token) ∧
    (∃ w, Program.Accepted w ∧ before <+: w) ∧
    (e.token.kind ≠ .endOfInput → ∀ w, Program.Accepted w →
      ¬ (before ++ [e.token]).map Token.content <+: w.map Token.content) ∧
    (e.token.kind = .endOfInput → ∀ w, Program.Accepted w →
      w.map Token.content ≠ before.map Token.content) := by
  intro place before
  obtain ⟨-, w, r, stream, viable⟩ := Program.stops_of_parse refused
  have same : before = w := Lexer.tokensBefore_eq stream
  refine ⟨Program.token_at_refusal refused, ?_, fun inside v accepted => ?_, fun ends v accepted => ?_⟩
  · rw [same]
    exact Program.accepted_of_viable stream viable
  · rintro ⟨more, begins⟩
    obtain ⟨front, rest, rfl, contents, -⟩ := List.append_eq_map_iff.1 begins
    obtain ⟨other, program, last, parsed, -, stream'⟩ := accepted.stream
    rw [List.map_append, List.append_assoc] at stream'
    rw [same] at contents
    exact Program.refused_again refused stream stream' contents.symm program parsed
  · intro whole
    obtain ⟨other, program, last, parsed, content, stream'⟩ := accepted.stream
    have text : e.token.text = "" := by
      have member := ((Program.token_at_refusal refused e.token).2 rfl).1
      exact Lexer.text_of_ends (List.mem_filter.1 member).1 ends
    have same : (w ++ [e.token]).map Token.content = (v ++ [last]).map Token.content := by
      rw [List.map_append, List.map_append, whole, same, List.map_singleton, List.map_singleton,
        content, Token.content, ends, text]
    have stream' : (Lexer.ofString other).significantItems = (v ++ [last]).map .ok ++ [] := by
      simpa using stream'
    exact Program.refused_again refused stream stream' same program parsed

/-- The size of an array that is too large: what stands before it begins a program, and nothing that
follows makes it one. -/
theorem Program.first_refusal_of_size :
    let source := "int[18446744073709551616] a;"
    let before : List Token := [⟨.ident, "int", ⟨1, 1⟩⟩, ⟨.openBracket, "[", ⟨1, 4⟩⟩]
    let size : Token := ⟨.intLiteral, "18446744073709551616", ⟨1, 5⟩⟩
    Program.parse source = .error (.grammatical (.arraySize size)) ∧
    (∃ w, Program.Accepted w ∧ before <+: w) ∧
    ∀ w, Program.Accepted w → ¬ (before ++ [size]).map Token.content <+: w.map Token.content := by
  intro source before size
  have refused : Program.parse source = .error (.grammatical (.arraySize size)) :=
    (Program.parse_ofList _).trans (by decide +kernel)
  have same : (Lexer.ofString source).tokensBefore size.location = before := by decide +kernel
  obtain ⟨-, begins, never, -⟩ := Program.refusal_is_first refused
  refine ⟨refused, ?_, ?_⟩
  · rwa [ParseError.location, SyntaxError.token, same] at begins
  · have never := never (by decide)
    rwa [ParseError.location, SyntaxError.token, same] at never

end Pascalize
