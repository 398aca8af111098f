import Pascalize.Proofs.Concatenation

/-!
# The longest lexeme

`Lexical` is the grammar of lexemes: what is spelled in one way, words, numbers, strings, comments to
the end of the line and the line feed. A lexeme is of the class of its first character
(`lexical_iff_opens`), and each class has a reader. `Munches` says of a reading what the grammar asks
for: it is a lexeme, no longer one stands there, and it fails only where the grammar says so
(`Stuck`). One lemma for each reader gives `munches_read`, and the next token of a text follows
(`Lexer.next_longest`).
-/

namespace Pascalize

open Lexeme

/-- A whole number or a fraction. -/
def IsNumber (w : List Char) : Prop :=
  IsDigits w ∨ IsFraction w

theorem IsWord.start {c : Char} {w : List Char} (h : IsWord (c :: w)) : isWordStart c = true := by
  obtain ⟨d, rest, same, start, -⟩ := h
  obtain ⟨rfl, -⟩ := List.cons.inj same
  exact start

theorem IsNumber.digit {c : Char} {w : List Char} (h : IsNumber (c :: w)) : c.isDigit = true := by
  obtain digits | ⟨whole, rest, same, digits, -⟩ := h
  · exact digits.digits c (by simp)
  · cases whole with
    | nil => exact absurd rfl digits.nonempty
    | cons d whole =>
      obtain ⟨rfl, -⟩ := List.cons.inj same
      exact digits.digits c (by simp)

/-- Digits alone hold no point. -/
theorem IsDigits.not_fraction {w : List Char} (h : IsDigits w) : ¬ IsFraction w := by
  rintro ⟨whole, rest, rfl, -⟩
  exact absurd (h.digits '.' (by simp)) (by decide)

namespace Lexeme

/-- The characters are a lexeme of the kind, and its token has the text. -/
inductive Lexical : List Char → Kind → String → Prop where
  | spelled {w : List Char} {kind : Kind} (is : kind.spelling? = some (String.ofList w)) :
      Lexical w kind (String.ofList w)
  | name {w : List Char} (word : IsWord w) (free : ∀ kind : Kind, kind.spelling? ≠ some (String.ofList w)) :
      Lexical w .ident (String.ofList w)
  | integer {w : List Char} (digits : IsDigits w) : Lexical w .intLiteral (String.ofList w)
  | fraction {w : List Char} (digits : IsFraction w) : Lexical w .floatLiteral (String.ofList w)
  | quoted {quote : Char} {body : List Char} (isQuote : quote = '\x22' ∨ quote = '\x27')
      (inside : quote ∉ body) :
      Lexical (quote :: (body ++ [quote])) .stringLiteral (String.ofList body)
  | comment {text : List Char} (line : '\n' ∉ text) :
      Lexical ('/' :: '/' :: text) .lineComment (String.ofList text)
  | feed : Lexical ['\n'] .newline "\\n"

/-- The longest number at the front of a text. -/
structure LongestNumber (w text : List Char) : Prop where
  front : w <+: text
  number : IsNumber w
  most : ∀ v, v <+: text → IsNumber v → v.length ≤ w.length

/-- A letter or an underscore stands right after the longest number. -/
def Touched (text : List Char) : Prop :=
  ∃ number d rest, text = number ++ d :: rest ∧ LongestNumber number text ∧
    (d.isAlpha = true ∨ d = '_')

/-- Where no token can be read: nothing starts with the character, it is half an operator, a string
does not end, or a number is touched. -/
def Stuck (c : Char) (cs : List Char) : Prop :=
  (∀ w kind text, ¬ Lexical (c :: w) kind text) ∨
  (c = '!' ∧ '=' ∉ cs.head?) ∨
  (c = '|' ∧ '|' ∉ cs.head?) ∨
  ((c = '\x22' ∨ c = '\x27') ∧ c ∉ cs) ∨
  Touched (c :: cs)

theorem Touched.digit {c : Char} {cs : List Char} (h : Touched (c :: cs)) : c.isDigit = true := by
  obtain ⟨number, d, rest, same, longest, -⟩ := h
  cases number with
  | nil =>
    obtain digits | ⟨whole, rest, same, -⟩ := longest.number
    · exact absurd rfl digits.nonempty
    · simp at same
  | cons e number =>
    obtain ⟨rfl, -⟩ := List.cons.inj same
    exact longest.number.digit

/-! ## Spellings -/

/-- What is spelled in one way is a keyword or a symbol of one or two characters. -/
theorem spelled_cases {kind : Kind} {text : String} (h : kind.spelling? = some text) :
    (text, kind) ∈ Kind.keywords ∨ (∃ c, text = String.ofList [c] ∧ single? c = some kind) ∨
      ∃ c d, text = String.ofList [c, d] ∧ pair? c d = some kind := by
  cases kind <;> cases h <;> first
    | exact .inl (by decide)
    | exact .inr (.inl ⟨_, rfl, rfl⟩)
    | exact .inr (.inr ⟨_, _, rfl, rfl⟩)

/-- A mark of one character is spelled by it. -/
theorem spelling_of_single {c : Char} {kind : Kind} (h : single? c = some kind) :
    kind.spelling? = some (String.ofList [c]) := by
  unfold single? at h
  split at h <;> cases h <;> rfl

theorem spelling_of_pair {c d : Char} {kind : Kind} (h : pair? c d = some kind) :
    kind.spelling? = some (String.ofList [c, d]) := by
  unfold pair? at h
  split at h <;> cases h <;> rfl

theorem spelling_of_keyword {word : String} {kind : Kind} (h : (word, kind) ∈ Kind.keywords) :
    kind.spelling? = some word := by
  have table : ∀ entry ∈ Kind.keywords, entry.2.spelling? = some entry.1 := by decide
  exact table _ h

/-- A keyword is found in the table under its own name only. -/
theorem ofWord_of_keyword {word : String} {kind : Kind} (h : (word, kind) ∈ Kind.keywords) :
    Kind.ofWord word = kind := by
  have table : ∀ entry ∈ Kind.keywords, Kind.ofWord entry.1 = entry.2 := by decide
  exact table _ h

/-! ## Lexemes by their first character -/

/-- What the first character of a text says about the lexeme there. -/
inductive Class where
  | feed | quote | digit | letter | symbol
deriving DecidableEq, Repr

def Class.of (c : Char) : Class :=
  if c = '\n' then .feed
  else if isQuote c then .quote
  else if c.isDigit then .digit
  else if isWordStart c then .letter
  else .symbol

/-- The characters of a class. The symbols are all the others. -/
def Class.Has (c : Char) : Class → Prop
  | .feed => c = '\n'
  | .quote => c = '\x22' ∨ c = '\x27'
  | .digit => c.isDigit = true
  | .letter => isWordStart c = true
  | .symbol => True

/-- The reader of a class. -/
def Class.reader : Class → Char → List Char → Lexeme
  | .feed, _, cs => readNewline cs
  | .quote, c, cs => readString c cs
  | .digit, c, cs => readNumber (c :: cs)
  | .letter, c, cs => readWord (c :: cs)
  | .symbol, c, cs => readSymbol c cs

/-- The reader is chosen by the class of the first character. -/
theorem read_eq_reader (c : Char) (cs : List Char) : read c cs = (Class.of c).reader c cs := by
  unfold read Class.of
  split
  · rfl
  · split
    · rfl
    · split
      · rfl
      · split <;> rfl

theorem isQuote_iff {c : Char} : isQuote c = true ↔ c = '\x22' ∨ c = '\x27' := by
  simp [isQuote]

/-- Every character is of its class. -/
theorem Class.has_of (c : Char) : (Class.of c).Has c := by
  unfold Class.of
  split
  next feed => exact feed
  next =>
    split
    next quote => exact isQuote_iff.1 quote
    next =>
      split
      next digit => exact digit
      next =>
        split
        next letter => exact letter
        next => trivial

theorem Class.of_quote {c : Char} (h : c = '\x22' ∨ c = '\x27') : Class.of c = .quote := by
  obtain rfl | rfl := h <;> decide

/-- A character of a class that has neither the line feed nor the quotes is none of them. -/
theorem ne_feed_quote {p : Char → Bool} {c : Char} (h : p c = true) (feed : p '\n' = false)
    (double : p '\x22' = false) (single : p '\x27' = false) : c ≠ '\n' ∧ ¬ isQuote c = true := by
  rw [isQuote_iff]
  refine ⟨?_, ?_⟩
  · rintro rfl
    simp [feed] at h
  · rintro (rfl | rfl)
    · simp [double] at h
    · simp [single] at h

theorem Class.of_digit {c : Char} (h : c.isDigit = true) : Class.of c = .digit := by
  obtain ⟨feed, quote⟩ := ne_feed_quote h (by decide) (by decide) (by decide)
  simp only [Class.of, if_neg feed, if_neg quote, if_pos h]

theorem Class.of_letter {c : Char} (h : isWordStart c = true) : Class.of c = .letter := by
  obtain ⟨feed, quote⟩ := ne_feed_quote h (by decide) (by decide) (by decide)
  have digit : ¬ c.isDigit = true := by
    simp only [isWordStart, Bool.or_eq_true, decide_eq_true_eq] at h
    obtain alpha | rfl := h
    · simp only [Char.isAlpha, Char.isUpper, Char.isLower, Char.isDigit] at alpha ⊢
      grind
    · decide
  simp only [Class.of, if_neg feed, if_neg quote, if_neg digit, if_pos h]

/-- No quote, digit or letter is a mark of its own. -/
theorem Class.of_single {c : Char} {kind : Kind} (h : single? c = some kind) :
    Class.of c = .symbol := by
  unfold single? at h
  split at h <;> first | decide | cases h

theorem Class.of_pair {c d : Char} {kind : Kind} (h : pair? c d = some kind) :
    Class.of c = .symbol := by
  unfold pair? at h
  split at h <;> first | decide | cases h

/-- The lexemes `c :: w` by the class of `c`. -/
def Opens (c : Char) (w : List Char) (kind : Kind) (text : String) : Prop :=
  match Class.of c with
  | .feed => w = [] ∧ kind = .newline ∧ text = "\\n"
  | .quote => ∃ body, c ∉ body ∧ w = body ++ [c] ∧ kind = .stringLiteral ∧ text = String.ofList body
  | .digit =>
    (IsDigits (c :: w) ∧ kind = .intLiteral ∨ IsFraction (c :: w) ∧ kind = .floatLiteral) ∧
      text = String.ofList (c :: w)
  | .letter =>
    IsWord (c :: w) ∧ kind = .ofWord (String.ofList (c :: w)) ∧ text = String.ofList (c :: w)
  | .symbol =>
    (w = [] ∧ single? c = some kind ∧ text = String.ofList [c]) ∨
    (∃ d, w = [d] ∧ pair? c d = some kind ∧ text = String.ofList [c, d]) ∨
    c = '/' ∧ ∃ line, '\n' ∉ line ∧ w = '/' :: line ∧ kind = .lineComment ∧ text = String.ofList line

/-- Keywords are words. -/
theorem isWord_of_keyword {word : String} {kind : Kind} (h : (word, kind) ∈ Kind.keywords) :
    IsWord word.toList := by
  have table : ∀ entry ∈ Kind.keywords, ∃ c rest, entry.1 = String.ofList (c :: rest) ∧
      isWordStart c = true ∧ rest.all isWordRest = true := by
    simp only [Kind.keywords, List.forall_mem_cons]
    refine ⟨?_, ?_, ?_, ?_, ?_, ?_, ?_, ?_, ?_, ?_, by simp⟩ <;> exact ⟨_, _, rfl, by decide, by decide⟩
  obtain ⟨c, rest, same, start, more⟩ := table _ h
  refine ⟨c, rest, ?_, start, List.all_eq_true.1 more⟩
  rw [show word = _ from same, String.toList_ofList]

/-- A word is spelled in one way iff it is a keyword. -/
theorem spelling_iff_keyword {c : Char} {w : List Char} {kind : Kind} (start : isWordStart c = true) :
    kind.spelling? = some (String.ofList (c :: w)) ↔ (String.ofList (c :: w), kind) ∈ Kind.keywords := by
  refine ⟨fun is => ?_, spelling_of_keyword⟩
  have letter := Class.of_letter start
  obtain keyword | ⟨d, same, single⟩ | ⟨d, d', same, pair⟩ := spelled_cases is
  · exact keyword
  · obtain ⟨rfl, -⟩ := List.cons.inj (String.ofList_injective same)
    rw [Class.of_single single] at letter
    cases letter
  · obtain ⟨rfl, -⟩ := List.cons.inj (String.ofList_injective same)
    rw [Class.of_pair pair] at letter
    cases letter

/-- A word is a keyword or an identifier, as the table says. -/
theorem opens_of_word {c : Char} {w : List Char} (h : IsWord (c :: w)) :
    Opens c w (.ofWord (String.ofList (c :: w))) (String.ofList (c :: w)) := by
  rw [Opens, Class.of_letter h.start]
  exact ⟨h, rfl, rfl⟩

/-- **The first character** tells what a lexeme can be. -/
theorem lexical_iff_opens {c : Char} {w : List Char} {kind : Kind} {text : String} :
    Lexical (c :: w) kind text ↔ Opens c w kind text := by
  constructor
  · intro h
    cases h with
    | spelled is =>
      -- Keywords are words by their first character, and the other spellings are symbols.
      obtain keyword | ⟨d, same, single⟩ | ⟨d, d', same, pair⟩ := spelled_cases is
      · have word := isWord_of_keyword keyword
        rw [String.toList_ofList] at word
        rw [← ofWord_of_keyword keyword]
        exact opens_of_word word
      · obtain ⟨rfl, rfl⟩ := List.cons.inj (String.ofList_injective same)
        rw [Opens, Class.of_single single]
        exact .inl ⟨rfl, single, rfl⟩
      · obtain ⟨rfl, rfl⟩ := List.cons.inj (String.ofList_injective same)
        rw [Opens, Class.of_pair pair]
        exact .inr (.inl ⟨d', rfl, pair, rfl⟩)
    | name word free =>
      obtain is | keyword := Kind.ofWord_cases (String.ofList (c :: w))
      · rw [← is]
        exact opens_of_word word
      · exact absurd (spelling_of_keyword keyword) (free _)
    | integer digits =>
      rw [Opens, Class.of_digit (IsNumber.digit (.inl digits))]
      exact ⟨.inl ⟨digits, rfl⟩, rfl⟩
    | fraction digits =>
      rw [Opens, Class.of_digit (IsNumber.digit (.inr digits))]
      exact ⟨.inr ⟨digits, rfl⟩, rfl⟩
    | quoted isQuote inside =>
      rw [Opens, Class.of_quote isQuote]
      exact ⟨_, inside, rfl, rfl, rfl⟩
    | comment line => exact .inr (.inr ⟨rfl, _, line, rfl, rfl, rfl⟩)
    | feed => exact ⟨rfl, rfl, rfl⟩
  · intro h
    have has := Class.has_of c
    cases is : Class.of c <;> simp only [Opens, is] at h has
    case feed =>
      obtain ⟨rfl, rfl, rfl⟩ := h
      obtain rfl : c = '\n' := has
      exact .feed
    case quote =>
      obtain ⟨body, inside, rfl, rfl, rfl⟩ := h
      exact .quoted has inside
    case digit =>
      obtain ⟨⟨digits, rfl⟩ | ⟨digits, rfl⟩, rfl⟩ := h
      · exact .integer digits
      · exact .fraction digits
    case letter =>
      obtain ⟨word, rfl, rfl⟩ := h
      obtain free | keyword := Kind.ofWord_cases (String.ofList (c :: w))
      · rw [free]
        refine .name word fun kind spelled => ?_
        have same := ofWord_of_keyword ((spelling_iff_keyword has).1 spelled)
        rw [free] at same
        subst same
        cases spelled
      · exact .spelled (spelling_of_keyword keyword)
    case symbol =>
      obtain ⟨rfl, single, rfl⟩ | ⟨d, rfl, pair, rfl⟩ | ⟨rfl, line, inside, rfl, rfl, rfl⟩ := h
      · exact .spelled (spelling_of_single single)
      · exact .spelled (spelling_of_pair pair)
      · exact .comment inside

/-- No lexeme is empty. -/
theorem Lexical.ne_nil {w : List Char} {kind : Kind} {text : String} (h : Lexical w kind text) :
    w ≠ [] := by
  rintro rfl
  cases h with
  | spelled is =>
    obtain keyword | ⟨c, same, -⟩ | ⟨c, d, same, -⟩ := spelled_cases is
    · obtain ⟨c, rest, same, -⟩ := isWord_of_keyword keyword
      simp at same
    · cases String.ofList_injective same
    · cases String.ofList_injective same
  | name word _ =>
    obtain ⟨c, rest, same, -⟩ := word
    cases same
  | integer digits => exact digits.nonempty rfl
  | fraction digits =>
    obtain ⟨whole, rest, same, -⟩ := digits
    simp at same

/-- A lexeme at the front of a text is of the class of the first character. -/
theorem opens_of_front {c : Char} {cs v : List Char} {kind : Kind} {text : String}
    (front : v <+: c :: cs) (h : Lexical v kind text) :
    ∃ w, v = c :: w ∧ w <+: cs ∧ Opens c w kind text := by
  obtain ⟨d, w, rfl⟩ := List.exists_cons_of_ne_nil h.ne_nil
  obtain ⟨rfl, inside⟩ := List.cons_prefix_cons.1 front
  exact ⟨w, rfl, inside, lexical_iff_opens.1 h⟩

/-- A lexeme is of one kind, with one text. -/
theorem Lexical.unique {w : List Char} {kind kind' : Kind} {text text' : String}
    (h : Lexical w kind text) (h' : Lexical w kind' text') : kind = kind' ∧ text = text' := by
  obtain ⟨c, w, rfl⟩ := List.exists_cons_of_ne_nil h.ne_nil
  have opens := lexical_iff_opens.1 h
  have opens' := lexical_iff_opens.1 h'
  cases is : Class.of c <;> simp only [Opens, is] at opens opens'
  case feed =>
    obtain ⟨-, rfl, rfl⟩ := opens
    obtain ⟨-, rfl, rfl⟩ := opens'
    exact ⟨rfl, rfl⟩
  case quote =>
    obtain ⟨body, -, rfl, rfl, rfl⟩ := opens
    obtain ⟨body', -, same, rfl, rfl⟩ := opens'
    rw [List.append_cancel_right same]
    exact ⟨rfl, rfl⟩
  case digit =>
    obtain ⟨number, rfl⟩ := opens
    obtain ⟨number', rfl⟩ := opens'
    obtain ⟨digits, rfl⟩ | ⟨fraction, rfl⟩ := number <;>
      obtain ⟨digits', rfl⟩ | ⟨fraction', rfl⟩ := number'
    · exact ⟨rfl, rfl⟩
    · exact absurd fraction' digits.not_fraction
    · exact absurd fraction digits'.not_fraction
    · exact ⟨rfl, rfl⟩
  case letter =>
    obtain ⟨-, rfl, rfl⟩ := opens
    obtain ⟨-, rfl, rfl⟩ := opens'
    exact ⟨rfl, rfl⟩
  case symbol =>
    obtain ⟨rfl, single, rfl⟩ | ⟨d, rfl, pair, rfl⟩ | ⟨rfl, line, -, rfl, rfl, rfl⟩ := opens <;>
      obtain ⟨same, single', rfl⟩ | ⟨d', same, pair', rfl⟩ | ⟨slash, line', -, same, rfl, rfl⟩ :=
        opens' <;>
      cases same
    · exact ⟨Option.some.inj (single.symm.trans single'), rfl⟩
    · exact ⟨Option.some.inj (pair.symm.trans pair'), rfl⟩
    · subst slash
      cases pair
    · cases pair'
    · exact ⟨rfl, rfl⟩

/-! ## Where reading fails -/

/-- Where reading fails, by the class of the first character. -/
def Halts (c : Char) (cs : List Char) : Prop :=
  match Class.of c with
  | .feed | .letter => False
  | .quote => c ∉ cs
  | .digit => Touched (c :: cs)
  | .symbol => single? c = none ∧ ∀ d ∈ cs.head?, pair? c d = none

theorem pair?_bang {d : Char} {kind : Kind} (h : pair? '!' d = some kind) : d = '=' := by
  unfold pair? at h
  split at h <;> simp_all

theorem pair?_bar {d : Char} {kind : Kind} (h : pair? '|' d = some kind) : d = '|' := by
  unfold pair? at h
  split at h <;> simp_all

/-- Only `!` and `|` are halves that are nothing alone. -/
theorem half_of_pair {c d : Char} {kind : Kind} (pair : pair? c d = some kind)
    (alone : single? c = none) : c = '!' ∨ c = '|' := by
  unfold pair? at pair
  split at pair <;> first | decide | cases alone | cases pair

/-- A character that begins no lexeme stops the reading. -/
theorem halts_of_stray {c : Char} {cs : List Char} (none : ∀ w kind text, ¬ Lexical (c :: w) kind text) :
    Halts c cs := by
  have has := Class.has_of c
  cases is : Class.of c <;> simp only [Halts, is] at has ⊢
  case feed =>
    obtain rfl : c = '\n' := has
    exact none _ _ _ .feed
  case quote => exact absurd (.quoted has List.not_mem_nil) (none _ _ _)
  case digit =>
    have digits : IsDigits [c] := ⟨List.cons_ne_nil c [], List.forall_mem_singleton.2 has⟩
    exact absurd (.integer digits) (none _ _ _)
  case letter =>
    exact none [] _ _ (lexical_iff_opens.2 (opens_of_word ⟨c, [], rfl, has, by simp⟩))
  case symbol =>
    constructor
    · cases single : single? c with
      | none => rfl
      | some kind => exact absurd (.spelled (spelling_of_single single)) (none _ _ _)
    · intro d _
      cases pair : pair? c d with
      | none => rfl
      | some kind => exact absurd (.spelled (spelling_of_pair pair)) (none _ _ _)

/-- **Where the grammar has no lexeme**, by the class of the first character. -/
theorem stuck_iff_halts {c : Char} {cs : List Char} : Stuck c cs ↔ Halts c cs := by
  constructor
  · rintro (none | ⟨rfl, other⟩ | ⟨rfl, other⟩ | ⟨quote, never⟩ | touched)
    · exact halts_of_stray none
    · refine ⟨rfl, fun d first => Option.eq_none_iff_forall_ne_some.2 fun kind pair => ?_⟩
      exact other (pair?_bang pair ▸ first)
    · refine ⟨rfl, fun d first => Option.eq_none_iff_forall_ne_some.2 fun kind pair => ?_⟩
      exact other (pair?_bar pair ▸ first)
    · rw [Halts, Class.of_quote quote]
      exact never
    · rw [Halts, Class.of_digit touched.digit]
      exact touched
  · intro h
    have has := Class.has_of c
    cases is : Class.of c <;> simp only [Halts, is] at h has
    case quote => exact .inr (.inr (.inr (.inl ⟨has, h⟩)))
    case digit => exact .inr (.inr (.inr (.inr h)))
    case symbol =>
      obtain ⟨alone, pairs⟩ := h
      by_cases bang : c = '!'
      · subst bang
        exact .inr (.inl ⟨rfl, fun first => absurd (pairs _ first) (by decide)⟩)
      · by_cases bar : c = '|'
        · subst bar
          exact .inr (.inr (.inl ⟨rfl, fun first => absurd (pairs _ first) (by decide)⟩))
        · refine .inl fun w kind text lexeme => ?_
          have opens := lexical_iff_opens.1 lexeme
          simp only [Opens, is] at opens
          obtain ⟨-, single, -⟩ | ⟨d, -, pair, -⟩ | ⟨rfl, -⟩ := opens
          · rw [alone] at single
            cases single
          · obtain rfl | rfl := half_of_pair pair alone
            · exact bang rfl
            · exact bar rfl
          · cases alone

/-! ## The readers -/

theorem not_mem_takeWhile_ne (c : Char) (cs : List Char) : c ∉ cs.takeWhile (· ≠ c) := by
  intro member
  have other := List.all_eq_true.1 List.all_takeWhile c member
  simp at other

theorem all_ne_of_not_mem {c : Char} {cs : List Char} (h : c ∉ cs) :
    ∀ d ∈ cs, decide (d ≠ c) = true := by
  intro d member
  rw [decide_eq_true_eq]
  rintro rfl
  exact h member

/-- What the grammar asks of a reading of `c :: cs`. -/
structure Munches (c : Char) (cs : List Char) (l : Lexeme) : Prop where
  lexical : ∀ {kind text}, l.outcome = .ok (kind, text) → Lexical l.taken kind text
  most : ∀ {token}, l.outcome = .ok token → ∀ v kind text, v <+: c :: cs → Lexical v kind text →
    v.length ≤ l.taken.length
  stuck : (∃ fault, l.outcome = .error fault) ↔ Stuck c cs

/-- A reading that fails where nothing can be read. -/
theorem Munches.of_error {c : Char} {cs : List Char} {l : Lexeme} {fault : Fault}
    (failed : l.outcome = .error fault) (halts : Halts c cs) : Munches c cs l where
  lexical ok := by
    rw [failed] at ok
    cases ok
  most ok := by
    rw [failed] at ok
    cases ok
  stuck := ⟨fun _ => stuck_iff_halts.2 halts, fun _ => ⟨fault, failed⟩⟩

/-- A reading of a lexeme that no other one at the place exceeds. -/
theorem Munches.of_ok {c : Char} {cs : List Char} {l : Lexeme} {kind : Kind} {text : String}
    (ok : l.outcome = .ok (kind, text)) (lexical : Lexical l.taken kind text)
    (most : ∀ w kind text, w <+: cs → Opens c w kind text → (c :: w).length ≤ l.taken.length)
    (runs : ¬ Halts c cs) : Munches c cs l where
  lexical ok' := by
    rw [ok] at ok'
    cases ok'
    exact lexical
  most _ v kind text front lexeme := by
    obtain ⟨w, rfl, inside, opens⟩ := opens_of_front front lexeme
    exact most w kind text inside opens
  stuck := by
    rw [stuck_iff_halts, ok]
    refine ⟨?_, fun halts => absurd halts runs⟩
    rintro ⟨_, failed⟩
    cases failed

theorem munches_readNewline (cs : List Char) : Munches '\n' cs (readNewline cs) := by
  refine .of_ok rfl .feed ?_ id
  rintro w kind text - ⟨rfl, -⟩
  exact le_rfl

/-- A string ends with the first quote like its own, so no longer one begins there. -/
theorem munches_readString {c : Char} (cs : List Char) (quote : c = '\x22' ∨ c = '\x27') :
    Munches c cs (readString c cs) := by
  have opening := Class.of_quote quote
  cases ends : cs.dropWhile (· ≠ c) with
  | nil =>
    have never : c ∉ cs := by
      intro member
      simpa using List.dropWhile_eq_nil_iff.1 ends c member
    have failed : (readString c cs).outcome =
        .error (.unterminated c (String.ofList (cs.takeWhile (· ≠ c)))) := by
      unfold readString
      rw [ends]
    apply Munches.of_error failed
    rw [Halts, opening]
    exact never
  | cons q rest =>
    have closing := dropWhile_stop (· ≠ c) cs
    rw [ends] at closing
    obtain rfl : q = c := by simpa using closing q rfl
    rw [readString_of_closed ends]
    refine .of_ok rfl (.quoted quote (not_mem_takeWhile_ne q cs)) ?_ ?_
    · intro w kind text front opens
      simp only [Opens, opening] at opens
      obtain ⟨body, inside, rfl, -⟩ := opens
      obtain ⟨more, rfl⟩ := front
      obtain ⟨same, -⟩ := takeWhile_of_stop ([q] ++ more) (all_ne_of_not_mem inside) (by simp)
      rw [List.append_assoc, same]
    · rw [Halts, opening, not_not]
      have whole := List.takeWhile_append_dropWhile (p := (· ≠ q)) (l := cs)
      rw [← whole, ends]
      simp

/-- A word goes on while its characters do. -/
theorem munches_readWord {c : Char} (cs : List Char) (start : isWordStart c = true) :
    Munches c cs (readWord (c :: cs)) := by
  have opening := Class.of_letter start
  have front : (c :: cs).takeWhile isWordRest = c :: cs.takeWhile isWordRest := by
    simp [isWordRest_of_start start]
  have word : IsWord (c :: cs.takeWhile isWordRest) :=
    ⟨c, _, rfl, start, List.all_eq_true.1 List.all_takeWhile⟩
  simp only [readWord, front]
  refine .of_ok rfl (lexical_iff_opens.2 (opens_of_word word)) ?_ ?_
  · intro w kind text inside opens
    simp only [Opens, opening] at opens
    obtain ⟨⟨d, rest, same, -, more⟩, -⟩ := opens
    obtain ⟨rfl, rfl⟩ := List.cons.inj same
    obtain ⟨after, rfl⟩ := inside
    rw [List.takeWhile_append_of_pos more]
    simp
  · rw [Halts, opening]
    exact id

/-- The numeral at the front of a text that starts with a digit is a number of its kind. -/
theorem lexical_numeral {c : Char} (cs : List Char) (digit : c.isDigit = true) :
    Lexical (numeral (c :: cs)).2.1 (numeral (c :: cs)).1 (String.ofList (numeral (c :: cs)).2.1) ∧
      IsNumber (numeral (c :: cs)).2.1 := by
  have whole := isDigits_takeWhile cs digit
  by_cases point : '.' ∈ ((c :: cs).dropWhile Char.isDigit).head?
  · obtain ⟨r, ends⟩ := List.head?_eq_some_iff.1 point
    have fraction : IsFraction ((c :: cs).takeWhile Char.isDigit ++ '.' :: r.takeWhile Char.isDigit) :=
      ⟨_, _, rfl, whole, List.all_eq_true.1 List.all_takeWhile⟩
    rw [numeral_of_point ends]
    exact ⟨.fraction fraction, .inr fraction⟩
  · rw [numeral_of_other point]
    exact ⟨.integer whole, .inl whole⟩

/-- No longer number stands there. -/
theorem length_le_numeral {cs v : List Char} (front : v <+: cs) (number : IsNumber v) :
    v.length ≤ (numeral cs).2.1.length := by
  obtain ⟨more, rfl⟩ := front
  obtain digits | ⟨whole, rest, rfl, digits, more'⟩ := number
  · have whole : v.length ≤ ((v ++ more).takeWhile Char.isDigit).length := by
      rw [List.takeWhile_append_of_pos digits.digits]
      simp
    unfold numeral
    split
    · simp only [List.length_append]
      omega
    · exact whole
  · have point : '.' :: rest ++ more = '.' :: (rest ++ more) := rfl
    obtain ⟨same, ends⟩ := takeWhile_of_stop (p := Char.isDigit) ('.' :: (rest ++ more)) digits.digits
      (by simp)
    rw [List.append_assoc, point, numeral_of_point ends, same, List.takeWhile_append_of_pos more']
    simp only [List.length_append, List.length_cons]
    omega

/-- A number takes its digits, a point and the digits behind it. -/
theorem longest_numeral {c : Char} (cs : List Char) (digit : c.isDigit = true) :
    LongestNumber (numeral (c :: cs)).2.1 (c :: cs) where
  front := ⟨_, numeral_append (c :: cs)⟩
  number := (lexical_numeral cs digit).2
  most _ := length_le_numeral

/-- Two longest numbers are prefixes of each other. -/
theorem LongestNumber.unique {v w text : List Char} (h : LongestNumber v text)
    (h' : LongestNumber w text) : v = w := by
  have same : v.length = w.length := le_antisymm (h'.most v h.front h.number) (h.most w h'.front h'.number)
  exact (List.prefix_of_prefix_length_le h.front h'.front same.le).eq_of_length same

/-- A number is touched iff what its numeral leaves starts with a letter or an underscore. -/
theorem touched_iff {c : Char} {cs : List Char} (digit : c.isDigit = true) :
    Touched (c :: cs) ↔ ∃ d ∈ (numeral (c :: cs)).2.2.head?, isWordStart d = true := by
  have longest := longest_numeral cs digit
  have whole := numeral_append (c :: cs)
  constructor
  · rintro ⟨number, d, rest, same, longest', start⟩
    obtain rfl := longest'.unique longest
    refine ⟨d, ?_, by simpa [isWordStart] using start⟩
    rw [List.append_cancel_left (whole.trans same)]
    rfl
  · rintro ⟨d, first, start⟩
    obtain ⟨rest, left⟩ := List.head?_eq_some_iff.1 first
    rw [left] at whole
    exact ⟨_, d, rest, whole.symm, longest, by simpa [isWordStart] using start⟩

/-- A letter right behind a number is part of the message. -/
theorem readNumber_of_touched {cs : List Char} {d : Char}
    (first : d ∈ (numeral cs).2.2.head?) (start : isWordStart d = true) :
    (readNumber cs).outcome =
      .error (.malformedNumber (String.ofList ((numeral cs).2.1 ++ [d]))) := by
  obtain ⟨rest, left⟩ := List.head?_eq_some_iff.1 first
  simp only [readNumber, left, if_pos start]

/-- A number that no letter touches is read as it stands. -/
theorem readNumber_of_free {cs : List Char}
    (free : ∀ d ∈ (numeral cs).2.2.head?, isWordStart d = false) :
    readNumber cs =
      ⟨.ok ((numeral cs).1, String.ofList (numeral cs).2.1), (numeral cs).2.1, (numeral cs).2.2⟩ := by
  simp only [readNumber]
  split
  next left => rw [left]
  next d rest left =>
    rw [left] at free
    rw [if_neg (by rw [free d rfl]; decide), left]

/-- A number is refused exactly if a letter touches it. -/
theorem munches_readNumber {c : Char} (cs : List Char) (digit : c.isDigit = true) :
    Munches c cs (readNumber (c :: cs)) := by
  have opening := Class.of_digit digit
  have halts : Halts c cs ↔ ∃ d ∈ (numeral (c :: cs)).2.2.head?, isWordStart d = true := by
    rw [Halts, opening]
    exact touched_iff digit
  by_cases touched : ∃ d ∈ (numeral (c :: cs)).2.2.head?, isWordStart d = true
  · obtain ⟨d, first, start⟩ := touched
    exact .of_error (readNumber_of_touched first start) (halts.2 ⟨d, first, start⟩)
  · have free : ∀ d ∈ (numeral (c :: cs)).2.2.head?, isWordStart d = false := by
      intro d first
      rw [← Bool.not_eq_true]
      exact fun start => touched ⟨d, first, start⟩
    rw [readNumber_of_free free]
    refine .of_ok rfl (lexical_numeral cs digit).1 ?_ (fun stops => touched (halts.1 stops))
    intro w kind text front opens
    simp only [Opens, opening] at opens
    apply length_le_numeral (List.cons_prefix_cons.2 ⟨rfl, front⟩)
    obtain ⟨⟨digits, -⟩ | ⟨digits, -⟩, -⟩ := opens
    · exact .inl digits
    · exact .inr digits

/-- A character that no second one makes into more. -/
theorem munches_readSingle {c : Char} {cs : List Char} (symbol : Class.of c = .symbol)
    (pairs : ∀ d ∈ cs.head?, pair? c d = none) (comment : ¬ (c = '/' ∧ '/' ∈ cs.head?)) :
    Munches c cs (readSingle c cs) := by
  unfold readSingle
  split
  next kind single =>
    refine .of_ok rfl (.spelled (spelling_of_single single)) ?_ ?_
    · intro w kind text front opens
      simp only [Opens, symbol] at opens
      obtain ⟨rfl, -⟩ | ⟨d, rfl, pair, -⟩ | ⟨rfl, line, -, rfl, -⟩ := opens
      · exact le_rfl
      · obtain ⟨more, rfl⟩ := front
        rw [pairs d rfl] at pair
        cases pair
      · obtain ⟨more, rfl⟩ := front
        exact absurd ⟨rfl, rfl⟩ comment
    · rw [Halts, symbol, single]
      rintro ⟨none, -⟩
      cases none
  next single =>
    apply Munches.of_error rfl
    rw [Halts, symbol]
    exact ⟨single, pairs⟩

/-- A comment takes the rest of its line. -/
theorem munches_readLineComment (cs : List Char) : Munches '/' ('/' :: cs) (readLineComment cs) := by
  refine .of_ok rfl (.comment (not_mem_takeWhile_ne '\n' cs)) ?_ ?_
  · rintro w kind text front (⟨rfl, -⟩ | ⟨d, rfl, -⟩ | ⟨-, line, inside, rfl, -⟩)
    · simp [readLineComment]
    · simp [readLineComment]
    · obtain ⟨more, same⟩ := front
      obtain rfl : line ++ more = cs := (List.cons.inj same).2
      simp only [readLineComment, List.takeWhile_append_of_pos (all_ne_of_not_mem inside)]
      simp
  · rintro ⟨none, -⟩
    cases none

/-- Two characters are tried before one, and two slashes before both. -/
theorem munches_readSymbol {c : Char} (cs : List Char) (symbol : Class.of c = .symbol) :
    Munches c cs (readSymbol c cs) := by
  cases cs with
  | nil => exact munches_readSingle symbol (by simp) (by simp)
  | cons d cs =>
    by_cases comment : c = '/' ∧ d = '/'
    · obtain ⟨rfl, rfl⟩ := comment
      exact munches_readLineComment cs
    · have other : ¬ (c = '/' ∧ '/' ∈ (d :: cs).head?) := by simpa using comment
      rw [readSymbol, if_neg comment]
      split
      next kind pair =>
        refine .of_ok rfl (.spelled (spelling_of_pair pair)) ?_ ?_
        · intro w kind text front opens
          simp only [Opens, symbol] at opens
          obtain ⟨rfl, -⟩ | ⟨d', rfl, -⟩ | ⟨rfl, line, -, rfl, -⟩ := opens
          · simp
          · simp
          · obtain ⟨rfl, -⟩ := List.cons_prefix_cons.1 front
            exact absurd ⟨rfl, rfl⟩ comment
        · rw [Halts, symbol]
          rintro ⟨-, none⟩
          rw [none d rfl] at pair
          cases pair
      next pair => exact munches_readSingle symbol (by simpa using pair) other

/-- **Every reading** is the longest lexeme, or fails where the grammar says so. -/
theorem munches_read (c : Char) (cs : List Char) : Munches c cs (read c cs) := by
  have has := Class.has_of c
  rw [read_eq_reader]
  cases is : Class.of c <;> rw [is] at has
  case feed =>
    obtain rfl : c = '\n' := has
    exact munches_readNewline cs
  case quote => exact munches_readString cs has
  case digit => exact munches_readNumber cs has
  case letter => exact munches_readWord cs has
  case symbol => exact munches_readSymbol cs is

/-- What is no keyword is an identifier. -/
theorem ofWord_eq_ident_iff {word : String} :
    Kind.ofWord word = .ident ↔ word ∉ Kind.keywords.map Prod.fst := by
  constructor
  · intro is member
    obtain ⟨⟨word, kind⟩, keyword, rfl⟩ := List.mem_map.1 member
    have named : ∀ entry ∈ Kind.keywords, entry.2 ≠ .ident := by decide
    exact named _ keyword ((ofWord_of_keyword keyword).symm.trans is)
  · intro free
    obtain is | keyword := Kind.ofWord_cases word
    · exact is
    · exact absurd (List.mem_map_of_mem keyword) free

/-- A word is a name iff it is no keyword. -/
theorem Lexical.ident_iff {w : List Char} {kind : Kind} {text : String} (h : Lexical w kind text)
    (word : IsWord w) : kind = .ident ↔ text ∉ Kind.keywords.map Prod.fst := by
  obtain ⟨c, w, rfl⟩ := List.exists_cons_of_ne_nil h.ne_nil
  have opens := lexical_iff_opens.1 h
  simp only [Opens, Class.of_letter word.start] at opens
  obtain ⟨-, rfl, rfl⟩ := opens
  exact ofWord_eq_ident_iff

end Lexeme

theorem Lexeme.isBlank_iff {c : Char} : isBlank c = true ↔ c = ' ' ∨ c = '\t' ∨ c = '\r' := by
  simp [isBlank, or_assoc]

/-- **Maximal munch**: the blanks before the next token are skipped. At the end of the text comes the
end of input. Otherwise reading fails iff the grammar is stuck there, and a token that is read is the
longest lexeme, with its kind and text, at its place. A word is a name iff it is none of the ten
keywords. -/
theorem Lexer.next_longest (l : Lexer) : ∃ gap rest, l.unread = gap ++ rest ∧
    (∀ c ∈ gap, c = ' ' ∨ c = '\t' ∨ c = '\r') ∧
    (∀ c ∈ rest.head?, ¬ (c = ' ' ∨ c = '\t' ∨ c = '\r')) ∧
    (rest = [] → l.next = (.ok ⟨.endOfInput, "", l.location.after gap⟩, l.advance gap [])) ∧
    ∀ c cs, rest = c :: cs → ((∃ e, l.next.1 = .error e) ↔ Stuck c cs) ∧
      ∀ t, l.next.1 = .ok t → ∃ w left, rest = w ++ left ∧
        (∀ kind text, Lexical w kind text ↔ kind = t.kind ∧ text = t.text) ∧
        (∀ v kind text, v <+: rest → Lexical v kind text → v.length ≤ w.length) ∧
        (IsWord w → (t.kind = .ident ↔ t.text ∉ ["for", "while", "return", "function", "if", "else",
          "not", "cout", "cin", "const"])) ∧
        t.location = l.location.after gap ∧ l.next.2 = l.advance (gap ++ w) left := by
  have whole := List.takeWhile_append_dropWhile (p := isBlank) (l := l.unread)
  have blank : ∀ c ∈ l.unread.takeWhile isBlank, isBlank c = true :=
    List.all_eq_true.1 List.all_takeWhile
  have stop := Lexeme.dropWhile_stop isBlank l.unread
  refine ⟨_, _, whole.symm, fun c member => isBlank_iff.1 (blank c member), ?_, ?_, ?_⟩
  · intro c first
    rw [← isBlank_iff, stop c first]
    decide
  · intro ends
    simp only [next, skipBlanks, ends, advance]
  · intro c cs starts
    have munches := munches_read c cs
    rw [starts] at whole stop ⊢
    cases outcome : (read c cs).outcome with
    | error fault =>
      have failed : l.next.1 = .error ⟨fault, l.location.after (l.unread.takeWhile isBlank)⟩ := by
        simp only [next, skipBlanks, starts, advance, outcome]
      rw [failed]
      refine ⟨⟨fun _ => munches.stuck.1 ⟨fault, outcome⟩, fun _ => ⟨_, rfl⟩⟩, fun t ok => ?_⟩
      cases ok
    | ok token =>
      have lexeme := munches.lexical outcome
      rw [next_of_lexeme whole.symm blank (stop c rfl) outcome]
      constructor
      · rw [← munches.stuck, outcome]
        constructor
        · rintro ⟨e, failed⟩
          cases failed
        · rintro ⟨fault, failed⟩
          cases failed
      · intro t ok
        cases ok
        refine ⟨_, _, (taken_append_rest c cs).symm, fun kind text => ⟨fun other => ?_, ?_⟩,
          munches.most outcome, lexeme.ident_iff, rfl, rfl⟩
        · exact other.unique lexeme
        · rintro ⟨rfl, rfl⟩
          exact lexeme

end Pascalize
