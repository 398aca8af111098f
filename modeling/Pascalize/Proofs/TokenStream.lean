import Pascalize.Grammar.Cursor

/-!
# What a cursor has ahead

The stream of a lexer is a list of readings, all of them tokens but perhaps the last. Leaving the
line feeds out gives what the grammar reads. `Cursor.ahead` is that list from the current token on;
`advance` takes its head off, or fails with the error that stands next. Everything the grammar does
is stated in these terms and never in terms of the text.
-/

namespace Pascalize

namespace Lexer

/-- Whether a reading is a line feed. -/
def isNewline : Except LexError Token → Bool
  | .ok t => t.kind = .newline
  | .error _ => false

/-- The readings of a stream that the grammar sees. -/
def significantItems (l : Lexer) : List (Except LexError Token) :=
  l.items.filter (!isNewline ·)

@[simp] theorem isNewline_ok (t : Token) : isNewline (.ok t) = decide (t.kind = .newline) := rfl

@[simp] theorem isNewline_error (e : LexError) : isNewline (.error e) = false := rfl

@[simp] theorem isLast_ok (t : Token) : isLast (.ok t) = decide (t.kind = .endOfInput) := rfl

@[simp] theorem isLast_error (e : LexError) : isLast (.error e) = true := rfl

/-- At the end of the text the reading is the last of its stream. -/
theorem isLast_next_of_blank {l : Lexer} (h : l.skipBlanks.unread = []) : isLast l.next.1 = true := by
  simp [next, h]

/-- A token that is not the last has characters. -/
theorem next_unread_lt_of_not_last {l : Lexer} (h : isLast l.next.1 = false) :
    l.next.2.unread.length < l.unread.length := by
  apply l.next_unread_lt
  intro blank
  rw [isLast_next_of_blank blank] at h
  exact absurd h (by decide)

/-- A bound beyond the length of the text changes nothing. -/
theorem itemsWithin_eq {n m : Nat} {l : Lexer} (hn : l.unread.length < n) (hm : l.unread.length < m) :
    l.itemsWithin n = l.itemsWithin m := by
  induction n generalizing m l with
  | zero => omega
  | succ n ih =>
    obtain _ | m := m
    · omega
    · simp only [itemsWithin]
      split
      · rfl
      next more =>
        have lt := next_unread_lt_of_not_last (Bool.eq_false_iff.2 more)
        rw [ih (m := m) (by omega) (by omega)]

/-- The stream is the next reading and, unless that is the last, the stream after it. -/
theorem items_eq (l : Lexer) :
    l.items = if isLast l.next.1 then [l.next.1] else l.next.1 :: l.next.2.items := by
  rw [items]
  simp only [itemsWithin]
  split
  · rfl
  next more =>
    have lt := next_unread_lt_of_not_last (Bool.eq_false_iff.2 more)
    rw [items, itemsWithin_eq (m := l.next.2.unread.length + 1) (by omega) (by omega)]

/-- Streams are no longer than the text and its end. -/
theorem length_itemsWithin_le (n : Nat) (l : Lexer) :
    (l.itemsWithin n).length ≤ l.unread.length + 1 := by
  induction n generalizing l with
  | zero => simp [itemsWithin]
  | succ n ih =>
    simp only [itemsWithin]
    split
    · simp
    next more =>
      have lt := next_unread_lt_of_not_last (Bool.eq_false_iff.2 more)
      have le := ih l.next.2
      simp only [List.length_cons]
      omega

theorem length_significantItems_le (l : Lexer) :
    l.significantItems.length ≤ l.unread.length + 1 :=
  Nat.le_trans (List.length_filter_le _ _) (length_itemsWithin_le _ l)

/-- The significant readings are the first one and, unless that is the last, those after it. -/
theorem significantItems_eq_within {n : Nat} {l : Lexer} (hn : l.unread.length ≤ n) :
    l.significantItems = (l.significantWithin n).1 ::
      if isLast (l.significantWithin n).1 then []
      else (l.significantWithin n).2.significantItems := by
  induction n generalizing l with
  | zero =>
    have blank : l.skipBlanks.unread = [] := by
      have := l.skipBlanks_unread_le
      exact List.length_eq_zero_iff.1 (by omega)
    have last := isLast_next_of_blank blank
    have kept : isNewline l.next.1 = false := by simp [next, blank]
    rw [significantItems, items_eq]
    simp [significantWithin, last, kept]
  | succ n ih =>
    rw [significantItems, items_eq, significantWithin]
    rcases hr : l.next with ⟨r | t, l'⟩
    · simp
    · by_cases hk : t.kind = .newline
      · have more : isLast l.next.1 = false := by simp [hr, hk]
        have lt := next_unread_lt_of_not_last more
        rw [hr] at lt
        have rest := ih (l := l') (by simp only at lt; omega)
        simpa [hk, significantItems] using rest
      · by_cases he : t.kind = .endOfInput
        · simp [he]
        · simp [hk, he, significantItems]

/-- Line feeds are passed over, and the rest is read from where the lexer stands then. -/
theorem significantItems_eq (l : Lexer) :
    l.significantItems = l.significant.1 ::
      if isLast l.significant.1 then [] else l.significant.2.significantItems :=
  significantItems_eq_within (Nat.le_refl _)

/-- Tokens that are read without an error are the stream. -/
theorem items_of_tokenizeWithin {n : Nat} {l l' : Lexer} {tokens : List Token}
    (hn : l.unread.length < n) (h : l.tokenizeWithin n = (.ok tokens, l')) :
    l.items = tokens.map .ok ∧ ∃ (front : List Token) (last : Token), tokens = front ++ [last] ∧
      last.kind = .endOfInput ∧ ∀ t ∈ front, t.kind ≠ .endOfInput := by
  induction n generalizing l l' tokens with
  | zero => omega
  | succ n ih =>
    rw [tokenizeWithin] at h
    rw [items_eq]
    rcases hr : l.next with ⟨r | t, l₁⟩
    · simp [hr] at h
    · by_cases he : t.kind = .endOfInput
      · simp only [hr, he, if_true, Prod.mk.injEq, Except.ok.injEq] at h
        obtain ⟨rfl, -⟩ := h
        exact ⟨by simp [he], [], t, rfl, he, by simp⟩
      · have lt := next_unread_lt_of_not_last (l := l) (by simp [hr, he])
        rw [hr] at lt
        rcases hs : l₁.tokenizeWithin n with ⟨r | rest, l₂⟩
        · simp [hr, he, hs, Except.map] at h
        · simp only [hr, he, if_false, hs, Except.map, Prod.mk.injEq, Except.ok.injEq] at h
          obtain ⟨rfl, -⟩ := h
          obtain ⟨stream, front, last, rfl, ends, inner⟩ := ih (by simp only at lt; omega) hs
          refine ⟨by simp [he, stream], t :: front, last, rfl, ends, ?_⟩
          simpa [he] using inner

/-- The end of input comes last and only once. -/
theorem items_of_tokenize {l l' : Lexer} {tokens : List Token}
    (h : l.tokenize = (.ok tokens, l')) :
    l.items = tokens.map .ok ∧ ∃ (front : List Token) (last : Token), tokens = front ++ [last] ∧
      last.kind = .endOfInput ∧ ∀ t ∈ front, t.kind ≠ .endOfInput :=
  items_of_tokenizeWithin (Nat.lt_succ_self _) h

end Lexer

namespace Cursor

/-- The readings from the current token on. The end of input is the last of them. -/
def ahead (c : Cursor) : List (Except LexError Token) :=
  .ok c.current :: if c.current.kind = .endOfInput then [] else c.lexer.significantItems

/-- From `c` to `c'` the tokens `w` were taken. -/
def Took (c : Cursor) (w : List Token) (c' : Cursor) : Prop :=
  c.ahead = w.map .ok ++ c'.ahead

theorem Took.refl (c : Cursor) : c.Took [] c := rfl

/-- What is taken in turn is taken together. -/
theorem Took.trans {c c₁ c₂ : Cursor} {v w : List Token} (h : c.Took v c₁) (h' : c₁.Took w c₂) :
    c.Took (v ++ w) c₂ := by
  rw [Took, h, h', List.map_append, List.append_assoc]

/-- The bound of a cursor exceeds four times what it has ahead. -/
theorem length_ahead_lt_bound (c : Cursor) : 4 * c.ahead.length < c.bound := by
  have := c.lexer.length_significantItems_le
  simp only [ahead, bound]
  split <;> simp only [List.length_cons, List.length_nil] <;> omega

/-- Nothing comes after the end of input. -/
theorem ahead_of_end {c : Cursor} (h : c.current.kind = .endOfInput) : c.ahead = [.ok c.current] := by
  simp [ahead, h]

theorem current_of_ahead {c : Cursor} {t : Token} {s : List (Except LexError Token)}
    (h : c.ahead = .ok t :: s) : c.current = t := by
  simp only [ahead, List.cons.injEq, Except.ok.injEq] at h
  exact h.1

/-- A token with something after it is not the end of input. -/
theorem kind_ne_end_of_ahead {c : Cursor} {t : Token} {x : Except LexError Token}
    {s : List (Except LexError Token)} (h : c.ahead = .ok t :: x :: s) : t.kind ≠ .endOfInput := by
  intro ends
  rw [← current_of_ahead h] at ends
  rw [ahead_of_end ends] at h
  simp at h

end Cursor

end Pascalize
