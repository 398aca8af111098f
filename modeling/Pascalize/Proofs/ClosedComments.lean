import Pascalize.Proofs.LineReading

/-!
# Comments end where they are closed

A comment does not nest: it goes up to the first mark that closes it. `skipComment?` is what a
reader of Pascal does with one. The comment that is made of a text is skipped as a whole and nothing
behind it is, whatever stands in the text: its first closing mark is at its end, and all visible
characters of the text are inside (`commentText_closed`).
-/

namespace Pascalize.Pascal

/-- What is left of a text behind the comment that it starts with. -/
def skipComment? : List Char → Option (List Char)
  | '\x7b' :: rest => afterBrace rest
  | '(' :: '*' :: rest => afterStar rest
  | _ => none

/-- The first `mark` of a text is at its end. -/
def EndsAtFirst (mark cs : List Char) : Prop :=
  mark <:+ cs ∧ ∀ before after, cs = before ++ mark ++ after → after = []

/-- The comment opens with `opening`, and the first `closing` behind it is at its end. -/
def Encloses (opening closing inside : List Char) (comment : String) : Prop :=
  comment.toList = opening ++ (inside ++ closing) ∧ EndsAtFirst closing (inside ++ closing)

/-- The characters that are no blanks. -/
def visible (cs : List Char) : List Char :=
  cs.filter (· ≠ ' ')

/-! ## The first closing mark -/

/-- No brace closes before the one that ends a comment in braces. -/
theorem suffix_of_afterBrace {before after rest : List Char}
    (h : afterBrace (before ++ '\x7d' :: after) = some rest) : after <:+ rest := by
  induction before with
  | nil =>
    rw [List.nil_append, afterBrace, if_pos rfl, Option.some.injEq] at h
    exact h ▸ List.suffix_refl after
  | cons c before ih =>
    rw [List.cons_append, afterBrace] at h
    by_cases closes : c = '\x7d'
    · rw [if_pos closes, Option.some.injEq] at h
      exact h ▸ (List.suffix_cons _ _).trans (List.suffix_append before _)
    · rw [if_neg closes] at h
      exact ih h

/-- No star with a parenthesis stands before the one that ends a comment in starred parentheses. -/
theorem suffix_of_afterStar {before after rest : List Char}
    (h : afterStar (before ++ '*' :: ')' :: after) = some rest) : after <:+ rest := by
  generalize same : before ++ '*' :: ')' :: after = cs at h
  fun_induction afterStar cs generalizing before with
  | case1 rest' =>
    obtain rfl : rest' = rest := Option.some.inj h
    rcases before with - | ⟨c, - | ⟨d, before⟩⟩
    · simp only [List.nil_append, List.cons.injEq, true_and] at same
      exact same ▸ List.suffix_refl after
    · simp at same
    · simp only [List.cons_append, List.cons.injEq] at same
      exact same.2.2 ▸ ((List.suffix_cons _ _).trans (List.suffix_cons _ _)).trans
        (List.suffix_append before _)
  | case2 c rest' notEnd ih =>
    cases before with
    | nil =>
      simp only [List.nil_append, List.cons.injEq] at same
      exact (notEnd after same.1.symm same.2.symm).elim
    | cons d before =>
      simp only [List.cons_append, List.cons.injEq] at same
      exact ih same.2 h
  | case3 => cases h

/-! ## The comment of a text -/

theorem commentText_of_mem {text : String} (h : '\x7d' ∈ text.toList) :
    (commentText text).toList =
      ['(', '*'] ++ (' ' :: (breakCommentEnds text.toList ++ [' ']) ++ ['*', ')']) := by
  simp [commentText, h]

theorem commentText_of_not_mem {text : String} (h : '\x7d' ∉ text.toList) :
    (commentText text).toList = ['\x7b'] ++ (' ' :: (text.toList ++ [' ']) ++ ['\x7d']) := by
  simp [commentText, h]

theorem visible_breakCommentEnds (cs : List Char) :
    visible (breakCommentEnds cs) = visible cs := by
  fun_induction breakCommentEnds cs with
  | case1 rest ih => simpa [visible] using ih
  | case2 c rest _ ih =>
    simp only [visible] at ih
    simp only [visible, List.filter_cons, ih]
  | case3 => rfl

/-- A comment is skipped up to what stands behind it. -/
theorem skipComment?_commentText (text : String) (rest : List Char) :
    skipComment? ((commentText text).toList ++ rest) = some rest := by
  by_cases closes : '\x7d' ∈ text.toList
  · have skipped := afterStar_breakCommentEnds text.toList rest
    simpa [commentText_of_mem closes, skipComment?, afterStar] using skipped
  · have skipped : afterBrace ((' ' :: (text.toList ++ [' '])) ++ '\x7d' :: rest) = some rest :=
      afterBrace_append (by simp [closes]) rest
    simpa [commentText_of_not_mem closes, skipComment?] using skipped

/-- The comment of any text closes exactly at its end: it opens with a brace and its first closing
brace is its last character, or with a parenthesis and a star and the first star with a parenthesis
behind them is its last two characters. It holds the text, blanks aside, and a reader skips all of it
and no more. -/
theorem commentText_closed (text : String) :
    (∃ inside,
      (Encloses ['\x7b'] ['\x7d'] inside (commentText text) ∨
        Encloses ['(', '*'] ['*', ')'] inside (commentText text)) ∧
      visible inside = visible text.toList) ∧
    ∀ rest, skipComment? ((commentText text).toList ++ rest) = some rest := by
  refine ⟨?_, skipComment?_commentText text⟩
  have skipped : skipComment? (commentText text).toList = some [] := by
    simpa using skipComment?_commentText text []
  by_cases closes : '\x7d' ∈ text.toList
  · have isText := commentText_of_mem closes
    refine ⟨_, .inr ⟨isText, List.suffix_append _ _, ?_⟩, ?_⟩
    · intro before after same
      rw [isText, same, List.append_assoc] at skipped
      exact List.suffix_nil.1 (suffix_of_afterStar skipped)
    · simpa [visible] using visible_breakCommentEnds text.toList
  · have isText := commentText_of_not_mem closes
    refine ⟨_, .inl ⟨isText, List.suffix_append _ _, ?_⟩, ?_⟩
    · intro before after same
      rw [isText, same, List.append_assoc] at skipped
      exact List.suffix_nil.1 (suffix_of_afterBrace skipped)
    · simp [visible]

end Pascalize.Pascal
