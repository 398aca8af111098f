import Pascalize.Proofs.ProgramParsing
import Pascalize.Proofs.TokenPlaces

/-!
# How streams go and how they end

A stream is tokens and, as its last reading, the end of input or an error (`Lexer.items_cases`).
Reading all tokens at once gives the stream's tokens, or its error (`Lexer.tokenize_fst`). The
readings of a stream stand at places that come strictly one after the other
(`Lexer.items_ordered`), lines before columns.

A text that is a program has a stream without error (`Program.tokenize_of_parse`).
-/

namespace Pascalize

namespace Location

/-- A place comes before another if it is on an earlier line, or on the same line further left. -/
instance : LT Location :=
  ⟨fun p q => p.line < q.line ∨ p.line = q.line ∧ p.column < q.column⟩

theorem lt_def {p q : Location} :
    p < q ↔ p.line < q.line ∨ p.line = q.line ∧ p.column < q.column :=
  Iff.rfl

instance (p q : Location) : Decidable (p < q) :=
  inferInstanceAs (Decidable (p.line < q.line ∨ p.line = q.line ∧ p.column < q.column))

theorem lt_irrefl (p : Location) : ¬ p < p := by
  rw [lt_def]
  omega

theorem lt_trans {p q r : Location} (h : p < q) (h' : q < r) : p < r := by
  rw [lt_def] at *
  omega

theorem lt_step (p : Location) (c : Char) : p < p.step c := by
  rw [lt_def]
  unfold step
  split
  · exact .inl (Nat.lt_succ_self _)
  · exact .inr ⟨rfl, Nat.lt_succ_self _⟩

theorem eq_or_lt_after (p : Location) (cs : List Char) : p.after cs = p ∨ p < p.after cs := by
  induction cs generalizing p with
  | nil => exact .inl rfl
  | cons c cs ih =>
    right
    obtain same | later := ih (p.step c)
    · rw [after_cons, same]
      exact p.lt_step c
    · exact lt_trans (p.lt_step c) later

/-- What follows some characters comes after what follows none. -/
theorem lt_after {cs : List Char} (p : Location) (some : cs ≠ []) : p < p.after cs := by
  obtain ⟨c, cs, rfl⟩ := List.exists_cons_of_ne_nil some
  obtain same | later := eq_or_lt_after (p.step c) cs
  · rw [after_cons, same]
    exact p.lt_step c
  · exact lt_trans (p.lt_step c) later

end Location

namespace Lexer

theorem items_of_last {l : Lexer} (h : isLast l.next.1 = true) : l.items = [l.next.1] := by
  rw [items_eq, if_pos h]

theorem items_of_token {l : Lexer} {t : Token} (h : l.next.1 = .ok t) (more : t.kind ≠ .endOfInput) :
    l.items = .ok t :: l.next.2.items := by
  rw [items_eq, h, isLast_ok, decide_eq_false more]
  rfl

/-- What holds where a stream ends, and before a token if it holds after it, holds of every lexer. -/
theorem induction_next {P : Lexer → Prop} (last : ∀ l, isLast l.next.1 = true → P l)
    (token : ∀ l t, l.next.1 = .ok t → t.kind ≠ .endOfInput → P l.next.2 → P l) (l : Lexer) :
    P l := by
  generalize size : l.unread.length = n
  induction n using Nat.strongRecOn generalizing l with
  | ind n ih =>
    by_cases ends : isLast l.next.1 = true
    · exact last l ends
    · have less := next_unread_lt_of_not_last (Bool.eq_false_iff.2 ends)
      cases reading : l.next.1 with
      | error e => simp [reading] at ends
      | ok t =>
        apply token l t reading
        · simpa [reading] using ends
        · exact ih _ (by omega) l.next.2 rfl

/-- Tokens come first, and the end of input or an error last. -/
theorem items_cases (l : Lexer) : ∃ (front : List Token) (last : Except LexError Token),
    l.items = front.map .ok ++ [last] ∧ isLast last = true ∧
      ∀ t ∈ front, t.kind ≠ .endOfInput := by
  induction l using induction_next with
  | last l ends => exact ⟨[], l.next.1, items_of_last ends, ends, by simp⟩
  | token l t reading more ih =>
    obtain ⟨front, last, stream, ends, inner⟩ := ih
    refine ⟨t :: front, last, ?_, ends, by simpa [more] using inner⟩
    rw [items_of_token reading more, stream]
    rfl

theorem tokenizeWithin_fst (n : Nat) (l : Lexer) :
    (l.tokenizeWithin n).1 = (l.itemsWithin n).mapM id := by
  induction n generalizing l with
  | zero => rfl
  | succ n ih =>
    rw [tokenizeWithin, itemsWithin]
    rcases reading : l.next with ⟨e | t, l'⟩
    · rfl
    · by_cases ends : t.kind = .endOfInput
      · simp only [ends, isLast_ok, decide_true, if_true]
        rfl
      · simp only [ends, isLast_ok, decide_false, if_false, Bool.false_eq_true, ih,
          List.mapM_cons, id_eq]
        rfl

/-- All tokens read at once are the stream's, unless its last reading is an error. -/
theorem tokenize_fst {l : Lexer} {front : List Token} {last : Except LexError Token}
    (h : l.items = front.map .ok ++ [last]) : l.tokenize.1 = last.map fun t => front ++ [t] := by
  have all : l.tokenize.1 = l.items.mapM id := tokenizeWithin_fst _ l
  rw [all, h]
  clear all h
  induction front with
  | nil => cases last <;> rfl
  | cons t front ih =>
    rw [List.map_cons, List.cons_append, List.mapM_cons, ih]
    cases last <;> rfl

theorem tokenize_eq_ok_iff {l : Lexer} {tokens : List Token} :
    l.tokenize.1 = .ok tokens ↔ l.items = tokens.map .ok := by
  obtain ⟨front, last, stream, -, -⟩ := l.items_cases
  rw [tokenize_fst stream, stream]
  cases last with
  | error e =>
    refine ⟨nofun, fun same => ?_⟩
    have member : .error e ∈ tokens.map Except.ok := by rw [← same]; simp
    simp at member
  | ok t =>
    have whole : front.map Except.ok ++ [Except.ok t] =
        (front ++ [t]).map (.ok : Token → Except LexError Token) := by
      simp
    rw [whole, List.map_inj_right fun _ _ => Except.ok.inj]
    exact ⟨Except.ok.inj, congrArg _⟩

/-- A reading stands where the lexer is after the blanks. -/
theorem place_next (l : Lexer) : place l.next.1 = l.skipBlanks.location := by
  simp only [next]
  split
  · rfl
  · cases (Lexeme.read _ _).outcome <;> rfl

theorem eq_or_lt_place_next (l : Lexer) :
    place l.next.1 = l.location ∨ l.location < place l.next.1 := by
  rw [place_next]
  exact Location.eq_or_lt_after l.location _

/-- A token that is not the last has characters, and the lexer has moved past them. -/
theorem location_lt_next {l : Lexer} {t : Token} (h : l.next.1 = .ok t)
    (more : t.kind ≠ .endOfInput) : t.location < l.next.2.location := by
  cases starts : l.skipBlanks.unread with
  | nil =>
    simp only [next, starts, Except.ok.injEq] at h
    exact absurd (congrArg Token.kind h).symm more
  | cons c cs =>
    simp only [next, starts] at h ⊢
    cases outcome : (Lexeme.read c cs).outcome with
    | error fault => simp [outcome] at h
    | ok token =>
      simp only [outcome, Except.ok.injEq] at h
      subst h
      exact Location.lt_after _ (Lexeme.taken_ne_nil c cs)

/-- The readings from here on stand where the lexer is or later, each strictly after the one before. -/
theorem items_ordered (l : Lexer) :
    (∀ r ∈ l.items, place r = l.location ∨ l.location < place r) ∧
      l.items.Pairwise fun r s => place r < place s := by
  induction l using induction_next with
  | last l ends =>
    rw [items_of_last ends]
    exact ⟨by simpa using l.eq_or_lt_place_next, List.pairwise_singleton _ _⟩
  | token l t reading more ih =>
    obtain ⟨later, ordered⟩ := ih
    have first := l.eq_or_lt_place_next
    have moved := location_lt_next reading more
    rw [reading] at first
    rw [items_of_token reading more]
    have after : ∀ r ∈ l.next.2.items, t.location < place r := by
      intro r member
      obtain same | beyond := later r member
      · exact same ▸ moved
      · exact Location.lt_trans moved beyond
    refine ⟨fun r member => ?_, List.pairwise_cons.2 ⟨after, ordered⟩⟩
    obtain rfl | member := List.mem_cons.1 member
    · exact first
    · right
      obtain same | beyond := first
      · exact same ▸ after r member
      · exact Location.lt_trans beyond (after r member)

theorem significantItems_ordered (l : Lexer) :
    l.significantItems.Pairwise fun r s => place r < place s :=
  l.items_ordered.2.filter _

/-- The last reading is no line feed, so the grammar sees it. -/
theorem getLast?_significantItems (l : Lexer) : l.significantItems.getLast? = l.items.getLast? := by
  obtain ⟨front, last, stream, ends, -⟩ := l.items_cases
  have kept : isNewline last = false := by
    cases last with
    | error e => rfl
    | ok t =>
      have finish : t.kind = .endOfInput := by simpa using ends
      simp [finish]
  rw [significantItems, stream, List.filter_append]
  simp [kept]

end Lexer

/-- The stream of a program has no error. -/
theorem Program.tokenize_of_parse {source : String} {program : Program}
    (parsed : Program.parse source = .ok program) :
    ∃ tokens, (Lexer.ofString source).tokenize.1 = .ok tokens := by
  obtain ⟨c, c', start, run⟩ := Program.parse_eq_ok.1 parsed
  obtain ⟨-, ends, -, w, took, -⟩ := Parser.program_eq_ok run
  obtain ⟨front, last, stream, -, -⟩ := (Lexer.ofString source).items_cases
  have final := (Lexer.ofString source).getLast?_significantItems
  rw [← Cursor.ahead_ofString start, took, Cursor.ahead_of_end ends, stream] at final
  simp only [List.getLast?_append, List.getLast?_singleton, Option.some_or, Option.some.injEq]
    at final
  exact ⟨front ++ [c'.current], by rw [Lexer.tokenize_fst stream, ← final]; rfl⟩

theorem Token.significant_append (before after : List Token) :
    significant (before ++ after) = significant before ++ significant after :=
  List.filter_append ..

theorem Token.significant_end {t : Token} (h : t.kind = .endOfInput) : significant [t] = [] := by
  simp [significant, h]

/-- The stream of a program: tokens of which those that count are its statements, and the end of
input where the program ends. -/
theorem Program.stream_of_parse {source : String} {program : Program}
    (parsed : Program.parse source = .ok program) : ∃ (front : List Token) (last : Token),
      (Lexer.ofString source).items = front.map .ok ++ [Except.ok last] ∧ last.kind = .endOfInput ∧
      Token.significant front ≠ [] ∧
      Derives.Statements (Token.significant front) program.statements ∧
      last.location = program.finish := by
  obtain ⟨tokens, lexed⟩ := Program.tokenize_of_parse parsed
  have whole : (Lexer.ofString source).tokenize =
      (.ok tokens, (Lexer.ofString source).tokenize.2) := by
    rw [← lexed]
  obtain ⟨stream, front, last, rfl, ends, -⟩ := Lexer.items_of_tokenize whole
  obtain ⟨nonempty, derived, finish⟩ := Program.statements_of_parse whole parsed
  rw [Token.significant_append, Token.significant_end ends, List.append_nil] at nonempty derived
  refine ⟨front, last, by simpa using stream, ends, nonempty, derived, ?_⟩
  simpa using finish

end Pascalize
