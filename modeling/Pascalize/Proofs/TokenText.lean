import Pascalize.Proofs.TokenStream

/-!
# The texts of tokens

The text of an identifier is a word and no keyword, that of a number its digits. Every token that a
lexer reads has a text that its kind allows (`Lexer.proper_of_mem_items`), so whatever is built from
tokens is built from such texts.
-/

namespace Pascalize

open Lexeme

/-- A letter or an underscore, then letters, digits and underscores. -/
def IsWord (cs : List Char) : Prop :=
  ∃ c rest, cs = c :: rest ∧ isWordStart c = true ∧ ∀ d ∈ rest, isWordRest d = true

/-- The text of an identifier. -/
structure IsName (text : String) : Prop where
  word : IsWord text.toList
  free : Kind.ofWord text = .ident

/-- One digit or more. -/
structure IsDigits (cs : List Char) : Prop where
  nonempty : cs ≠ []
  digits : ∀ d ∈ cs, d.isDigit = true

/-- Digits, a point, and perhaps more digits. -/
def IsFraction (cs : List Char) : Prop :=
  ∃ whole rest, cs = whole ++ '.' :: rest ∧ IsDigits whole ∧ ∀ d ∈ rest, d.isDigit = true

/-- The texts that tokens of a kind may have. -/
def Kind.Allows : Kind → String → Prop
  | .ident, text => IsName text
  | .intLiteral, text => IsDigits text.toList
  | .floatLiteral, text => IsFraction text.toList
  | _, _ => True

/-- A token whose text its kind allows. -/
def Token.Proper (t : Token) : Prop :=
  t.kind.Allows t.text

namespace Kind

/-- A word is an identifier or one of the keywords. -/
theorem ofWord_cases (word : String) : ofWord word = .ident ∨ (word, ofWord word) ∈ keywords := by
  rw [ofWord]
  cases found : keywords.lookup word with
  | none => exact .inl rfl
  | some kind =>
    obtain ⟨before, after, same, -⟩ := List.lookup_eq_some_iff.1 found
    rw [same]
    exact .inr (by simp)

/-- Keywords are no identifiers, so nothing is asked of their texts. -/
theorem allows_of_mem_keywords {word : String} {kind : Kind} (h : (word, kind) ∈ keywords) :
    kind.Allows word := by
  simp only [keywords, List.mem_cons, Prod.mk.injEq, List.not_mem_nil, or_false] at h
  rcases h with ⟨-, rfl⟩ | ⟨-, rfl⟩ | ⟨-, rfl⟩ | ⟨-, rfl⟩ | ⟨-, rfl⟩ | ⟨-, rfl⟩ | ⟨-, rfl⟩ |
    ⟨-, rfl⟩ | ⟨-, rfl⟩ | ⟨-, rfl⟩ <;> trivial

end Kind

theorem Token.Proper.name {t : Token} (h : t.Proper) (is : t.kind = .ident) : IsName t.text := by
  rw [Proper, is] at h
  exact h

theorem Token.Proper.digits {t : Token} (h : t.Proper) (is : t.kind = .intLiteral) :
    IsDigits t.text.toList := by
  rw [Proper, is] at h
  exact h

theorem Token.Proper.fraction {t : Token} (h : t.Proper) (is : t.kind = .floatLiteral) :
    IsFraction t.text.toList := by
  rw [Proper, is] at h
  exact h

namespace Lexeme

/-- What may begin a word may go on in it. -/
theorem isWordRest_of_start {c : Char} (h : isWordStart c = true) : isWordRest c = true := by
  simp only [isWordStart, isWordRest, Char.isAlphanum] at *
  grind

/-- Reading while `p` holds stops where a character comes that `p` does not hold of. -/
theorem takeWhile_of_stop {p : Char → Bool} {cs : List Char} (rest : List Char)
    (all : ∀ c ∈ cs, p c = true) (stop : ∀ c ∈ rest.head?, p c = false) :
    (cs ++ rest).takeWhile p = cs ∧ (cs ++ rest).dropWhile p = rest := by
  rw [List.takeWhile_append_of_pos all, List.dropWhile_append_of_pos all]
  cases rest with
  | nil => simp
  | cons c rest =>
    have no := stop c rfl
    simp [no]

theorem isDigits_takeWhile {c : Char} (cs : List Char) (h : c.isDigit = true) :
    IsDigits ((c :: cs).takeWhile Char.isDigit) :=
  ⟨by simp [h], List.all_eq_true.1 List.all_takeWhile⟩

/-- A number is digits, or digits with a point among them. -/
theorem allows_numeral {c : Char} (cs : List Char) (h : c.isDigit = true) :
    (numeral (c :: cs)).1.Allows (String.ofList (numeral (c :: cs)).2.1) := by
  have whole := isDigits_takeWhile cs h
  unfold numeral
  split
  · exact ⟨_, _, String.toList_ofList, whole, List.all_eq_true.1 List.all_takeWhile⟩
  · simpa only [Kind.Allows, String.toList_ofList] using whole

theorem allows_readNumber {c : Char} {cs : List Char} {kind : Kind} {text : String}
    (h : c.isDigit = true) (ok : (readNumber (c :: cs)).outcome = .ok (kind, text)) :
    kind.Allows text := by
  have numeral := allows_numeral cs h
  simp only [readNumber] at ok
  split at ok
  · cases ok
    exact numeral
  · split at ok
    · cases ok
    · cases ok
      exact numeral

/-- A word that is no keyword is a name. -/
theorem allows_readWord {c : Char} {cs : List Char} {kind : Kind} {text : String}
    (h : isWordStart c = true) (ok : (readWord (c :: cs)).outcome = .ok (kind, text)) :
    kind.Allows text := by
  cases ok
  obtain is | keyword := Kind.ofWord_cases (String.ofList ((c :: cs).takeWhile isWordRest))
  · rw [is]
    refine ⟨⟨c, cs.takeWhile isWordRest, ?_, h, List.all_eq_true.1 List.all_takeWhile⟩, is⟩
    simp [isWordRest_of_start h]
  · exact Kind.allows_of_mem_keywords keyword

theorem allows_readSingle {c : Char} {cs : List Char} {kind : Kind} {text : String}
    (ok : (readSingle c cs).outcome = .ok (kind, text)) : kind.Allows text := by
  unfold readSingle single? at ok
  split at ok
  next symbol =>
    cases ok
    split at symbol <;> cases symbol <;> trivial
  · nomatch ok

/-- Nothing is asked of the texts of marks, strings and comments. -/
theorem allows_readSymbol {c : Char} {cs : List Char} {kind : Kind} {text : String}
    (ok : (readSymbol c cs).outcome = .ok (kind, text)) : kind.Allows text := by
  unfold readSymbol at ok
  split at ok
  · exact allows_readSingle ok
  · split at ok
    · cases ok
      trivial
    · split at ok
      next pair =>
        cases ok
        unfold pair? at pair
        split at pair <;> cases pair <;> trivial
      · exact allows_readSingle ok

/-- What is read has a text that its kind allows. -/
theorem allows_read {c : Char} {cs : List Char} {kind : Kind} {text : String}
    (ok : (read c cs).outcome = .ok (kind, text)) : kind.Allows text := by
  unfold read at ok
  split at ok
  · cases ok
    trivial
  · split at ok
    · unfold readString at ok
      split at ok <;> cases ok
      trivial
    · split at ok
      next digit => exact allows_readNumber digit ok
      · split at ok
        next start => exact allows_readWord start ok
        · exact allows_readSymbol ok

end Lexeme

namespace Lexer

/-- A token that is read next has a text that its kind allows. -/
theorem proper_next {l : Lexer} {t : Token} (h : l.next.1 = .ok t) : t.Proper := by
  simp only [next] at h
  split at h
  · cases h
    trivial
  · split at h
    next ok =>
      cases h
      exact Lexeme.allows_read ok
    · cases h

/-- The tokens of a stream are proper. -/
theorem proper_of_mem_items {l : Lexer} {t : Token} (h : .ok t ∈ l.items) : t.Proper := by
  rw [items] at h
  generalize l.unread.length + 1 = n at h
  induction n generalizing l with
  | zero => cases h
  | succ n ih =>
    simp only [itemsWithin] at h
    split at h
    · exact proper_next (List.mem_singleton.1 h).symm
    · obtain first | later := List.mem_cons.1 h
      · exact proper_next first.symm
      · exact ih later

theorem proper_of_mem_significantItems {l : Lexer} {t : Token} (h : .ok t ∈ l.significantItems) :
    t.Proper :=
  proper_of_mem_items (List.mem_filter.1 h).1

end Lexer

end Pascalize
