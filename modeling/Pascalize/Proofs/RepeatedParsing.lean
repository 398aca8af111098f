import Pascalize.Proofs.Lookahead
import Pascalize.Proofs.ReadingOn

/-!
# Parsing again and again

A cursor can be asked for a program again, whatever came of the last time. A rule moves its cursor in
one way only, by taking tokens (`Parser.Advances`), so where it stops is where the cursor leads
(`Cursor.Leads`). Taking a token leaves the cursor as it is or makes it lighter: there are fewer
characters to read, or the end of input is reached (`Cursor.weight`). A call that leaves the cursor as it
is will do so for ever, hence there are at most as many others as the text has characters
(`Cursor.parse_settles`).
-/

namespace Pascalize

namespace Lexer

/-- The next reading that counts is the next one after some line feeds. -/
theorem exists_significantWithin (n : Nat) (l : Lexer) :
    ∃ k, l.significantWithin n = (l.afterCalls (.replicate k .next)).next := by
  induction n generalizing l with
  | zero => exact ⟨0, rfl⟩
  | succ n ih =>
    rw [significantWithin]
    rcases reading : l.next with ⟨e | t, l'⟩
    · exact ⟨0, reading.symm⟩
    · by_cases feed : t.kind = .newline
      · obtain ⟨k, same⟩ := ih l'
        have call : l.afterCalls (.replicate (k + 1) .next) = l'.afterCalls (.replicate k .next) := by
          obtain rfl : l.next.2 = l' := congrArg Prod.snd reading
          rfl
        refine ⟨k + 1, ?_⟩
        rw [call, ← same]
        simp only [feed, if_true]
      · refine ⟨0, ?_⟩
        simp only [feed, if_false]
        exact reading.symm

/-- Reading a token leaves no more characters than before. -/
theorem next_unread_le (l : Lexer) : l.next.2.unread.length ≤ l.unread.length := by
  by_cases blank : l.skipBlanks.unread = []
  · simp [next, blank]
  · exact Nat.le_of_lt (l.next_unread_lt blank)

theorem unread_afterCalls_le (k : Nat) (l : Lexer) :
    (l.afterCalls (.replicate k .next)).unread.length ≤ l.unread.length := by
  induction k generalizing l with
  | zero => exact Nat.le_refl _
  | succ k ih => exact Nat.le_trans (ih l.next.2) l.next_unread_le

/-- The next reading that counts: the end of input, which leaves nothing, or a token or error that
leaves less than there was. -/
theorem significant_unread (l : Lexer) :
    (∃ t, l.significant.1 = .ok t ∧ t.kind = .endOfInput ∧ l.significant.2.unread = []) ∨
      (∀ t, l.significant.1 = .ok t → t.kind ≠ .endOfInput) ∧
        l.significant.2.unread.length < l.unread.length := by
  obtain ⟨k, same⟩ := exists_significantWithin l.unread.length l
  have before := unread_afterCalls_le k l
  rw [significant, same]
  generalize l.afterCalls (.replicate k .next) = l' at before
  cases ends : isEnd l'.next.1 with
  | true =>
    obtain ⟨t, reading, finish⟩ := isEnd_eq_true_iff.1 ends
    exact .inl ⟨t, reading, finish, unread_next_of_blank (isEnd_next_iff.1 ends)⟩
  | false =>
    have less := next_unread_lt_of_not_end ends
    exact .inr ⟨isEnd_eq_false_iff.1 ends, by omega⟩

/-- The lexer stays right after what it has consumed, and the end of input stands after the source. -/
theorem At.significant {source consumed : List Char} {l : Lexer} (h : l.At source consumed) :
    (∃ consumed', l.significant.2.At source consumed') ∧ ∀ t, l.significant.1 = .ok t →
      t.kind = .endOfInput → t = ⟨.endOfInput, "", .following source⟩ := by
  obtain ⟨k, same⟩ := exists_significantWithin l.unread.length l
  obtain ⟨consumed', stands⟩ := h.afterCalls (.replicate k .next)
  rw [Lexer.significant, same]
  obtain ⟨taken, after, -⟩ := stands.next_progress
  refine ⟨⟨_, after⟩, fun t reading ends => ?_⟩
  have blank := isEnd_next_iff.1 (isEnd_eq_true_iff.2 ⟨t, reading, ends⟩)
  exact Except.ok.inj (reading.symm.trans (stands.next_of_blank blank))

end Lexer

/-! ## Where a cursor leads -/

/-- Where a run stopped, with a value or with an error. -/
def Parser.stop {α : Type} : EStateM.Result ParseError Cursor α → Cursor
  | .ok _ c | .error _ c => c

namespace Cursor

/-- The cursor after its token was taken, or after the attempt. -/
def moved (c : Cursor) : Cursor :=
  Parser.stop (Parser.advance c)

/-- Taking tokens leads from one cursor to the other. -/
def Leads : Cursor → Cursor → Prop :=
  Relation.ReflTransGen fun c c' => c' = c.moved

/-- The characters left to read, and one more before the end of input. -/
def weight (c : Cursor) : Nat :=
  c.lexer.unread.length + if c.current.kind = .endOfInput then 0 else 1

/-- A cursor at the end of input stays there. Elsewhere it goes on to the next token, and at a lexical
error the lexer alone moves. -/
theorem moved_eq (c : Cursor) : c.moved = if c.current.kind = .endOfInput then c else
    match c.lexer.significant with
    | (.ok t, lexer) => ⟨lexer, t⟩
    | (.error _, lexer) => { c with lexer } := by
  rw [moved, Parser.advance, Parser.get_bind]
  split
  · rfl
  · rcases c.lexer.significant with ⟨e | t, l⟩ <;> rfl

theorem moved_of_end {c : Cursor} (ends : c.current.kind = .endOfInput) : c.moved = c := by
  rw [moved_eq, if_pos ends]

/-- **One token**: the cursor stays as it is or becomes lighter. -/
theorem moved_lighter (c : Cursor) : c.moved = c ∨
    c.moved.weight < c.weight ∧ c.moved.lexer.unread.length ≤ c.lexer.unread.length := by
  by_cases ends : c.current.kind = .endOfInput
  · exact .inl (moved_of_end ends)
  · right
    rw [moved_eq, if_neg ends]
    have reads := c.lexer.significant_unread
    rcases reading : c.lexer.significant with ⟨e | t, l⟩
    · simp only [reading, reduceCtorEq, false_and, exists_false, false_or] at reads
      simp only [weight]
      omega
    · simp only [reading, Except.ok.injEq] at reads
      simp only [weight, ends, if_false]
      obtain ⟨_, rfl, last, none⟩ | ⟨more, less⟩ := reads
      · simp [last, none]
      · simp only [more t rfl, if_false]
        omega

/-- **Tokens in turn**: the cursor stays as it is or becomes lighter. -/
theorem Leads.lighter {c c' : Cursor} (h : c.Leads c') : c' = c ∨
    c'.weight < c.weight ∧ c'.lexer.unread.length ≤ c.lexer.unread.length := by
  induction h with
  | refl => exact .inl rfl
  | @tail b c' _ step ih =>
    subst step
    obtain same | ⟨lighter, less⟩ := b.moved_lighter
    · rw [same]
      exact ih
    · right
      obtain rfl | ⟨lighter', less'⟩ := ih
      · exact ⟨lighter, less⟩
      · omega

/-- The cursor reads the source, and if it has come to the end of input then at the source's end. -/
structure Reads (source : List Char) (c : Cursor) : Prop where
  stands : ∃ consumed, c.lexer.At source consumed
  finish : c.current.kind = .endOfInput → c.current = ⟨.endOfInput, "", .following source⟩

/-- After another token the cursor still reads the source. -/
theorem Reads.moved {source : List Char} {c : Cursor} (h : c.Reads source) : c.moved.Reads source := by
  by_cases ends : c.current.kind = .endOfInput
  · rw [moved_of_end ends]
    exact h
  · rw [moved_eq, if_neg ends]
    obtain ⟨consumed, stands⟩ := h.stands
    obtain ⟨after, finish⟩ := stands.significant
    rcases reading : c.lexer.significant with ⟨e | t, l⟩
    · rw [reading] at after
      exact ⟨after, h.finish⟩
    · rw [reading] at after finish
      exact ⟨after, finish t rfl⟩

/-- It does so wherever it leads, by induction on the tokens taken. -/
theorem Reads.leads {source : List Char} {c c' : Cursor} (h : c.Reads source) (leads : c.Leads c') :
    c'.Reads source := by
  induction leads with
  | refl => exact h
  | tail _ step ih =>
    subst step
    exact ih.moved

end Cursor

/-! ## Rules take tokens and do nothing else to their cursor -/

namespace Parser

variable {α β : Type} {p : Parser α} {f : α → Parser β} {item : Parser α}

/-- Wherever it starts, `p` stops where taking tokens leads to. -/
def Advances (p : Parser α) : Prop :=
  ∀ c : Cursor, c.Leads (stop (p c))

theorem advances_pure (a : α) : Advances (pure a) :=
  fun _ => .refl

theorem advances_throw (e : ParseError) : Advances (throw e : Parser α) :=
  fun _ => .refl

theorem advances_fail (what : Expectation) : Advances (fail what : Parser α) :=
  fun _ => .refl

theorem advances_exhausted : Advances (exhausted : Parser α) :=
  fun _ => .refl

/-- Taking a token is the one move there is. -/
theorem advances_advance : Advances advance :=
  fun _ => .single rfl

/-- Rules in turn move as each of them does. -/
theorem Advances.bind (first : Advances p) (second : ∀ a, Advances (f a)) : Advances (p >>= f) := by
  intro c
  have leads := first c
  cases run : p c with
  | ok a c₁ =>
    rw [run] at leads
    rw [bind_of_ok run]
    exact leads.trans (second a c₁)
  | error e c₁ =>
    have same : (p >>= f) c = .error e c₁ := bind_eq_error.2 (.inl run)
    rw [run] at leads
    rw [same]
    exact leads

theorem Advances.map {g : α → β} (first : Advances p) : Advances (p >>= fun a => pure (g a)) :=
  first.bind fun _ => advances_pure _

/-- To look at the cursor moves nothing. -/
theorem Advances.get_bind {f : Cursor → Parser β} (h : ∀ c, Advances (f c)) : Advances (get >>= f) :=
  fun c => h c c

theorem Advances.peek_bind {f : Kind → Parser β} (h : ∀ k, Advances (f k)) : Advances (peek >>= f) :=
  fun c => h c.current.kind c

/-- A token that is not the expected one is left where it is. -/
theorem advances_expect (kind : Kind) (place : Place) : Advances (expect kind place) := by
  refine .peek_bind fun k => ?_
  split
  · exact advances_advance
  · exact advances_fail _

theorem advances_accept (kind : Kind) : Advances (accept kind) := by
  refine .peek_bind fun k => ?_
  split
  · exact advances_advance.map
  · exact advances_pure _

/-- Loops move as their items do, by induction on the bound. -/
theorem advances_separatedWithin (sep : Kind) (each : Advances item) (n : Nat) :
    Advances (separatedWithin sep item n) := by
  induction n with
  | zero => exact advances_exhausted
  | succ n ih =>
    refine each.bind fun _ => (advances_accept sep).bind fun taken => ?_
    split
    · exact ih.map
    · exact advances_pure _

theorem advances_listedWithin (stop : Kind) (each : Advances item) (n : Nat) :
    Advances (listedWithin stop item n) := by
  induction n with
  | zero => exact advances_exhausted
  | succ n ih =>
    refine .peek_bind fun k => ?_
    split
    · exact advances_pure _
    · refine each.bind fun _ => (advances_accept .comma).bind fun taken => ?_
      split
      · exact ih.map
      · exact advances_pure _

theorem advances_manyWithin (stop : Kind → Bool) (each : Advances item) (n : Nat) :
    Advances (manyWithin stop item n) := by
  induction n with
  | zero => exact advances_exhausted
  | succ n ih =>
    refine .peek_bind fun k => ?_
    split
    · exact advances_pure _
    · exact each.bind fun _ => ih.map

theorem advances_separated (sep : Kind) (each : Advances item) : Advances (separated sep item) :=
  .get_bind fun c => advances_separatedWithin sep each c.bound

theorem advances_listed (stop : Kind) (each : Advances item) : Advances (listed stop item) :=
  .get_bind fun c => advances_listedWithin stop each c.bound

theorem advances_many (stop : Kind → Bool) (each : Advances item) : Advances (many stop item) :=
  .get_bind fun c => advances_manyWithin stop each c.bound

/-! Expressions. -/

theorem advances_arguments {item : Parser Node} (each : Advances item) : Advances (arguments item) :=
  (advances_expect _ _).bind fun _ => (advances_listed _ each).bind fun _ => (advances_expect _ _).map

/-- The four rules of expressions with bound `n`. -/
structure Moves (n : Nat) : Prop where
  operation : ∀ least, Advances (operationWithin n least)
  tail : ∀ least left, Advances (operationTailWithin n least left)
  unary : Advances (unaryWithin n)
  primary : Advances (primaryWithin n)

namespace Moves

variable {n : Nat}

/-- An operator is taken, and then its right operand. -/
theorem tail_step (ih : Moves n) (least : Nat) (left : Node) :
    Advances (operationTailWithin (n + 1) least left) := by
  refine .peek_bind fun k => ?_
  split
  · exact advances_pure _
  · split
    · exact advances_pure _
    · exact advances_advance.bind fun _ => (ih.operation _).bind fun _ => ih.tail _ _

theorem unary_step (ih : Moves n) : Advances (unaryWithin (n + 1)) := by
  refine .peek_bind fun k => ?_
  split
  · exact advances_advance.bind fun _ => ih.unary.map
  · exact advances_advance.bind fun _ => ih.unary.map
  · exact ih.primary

/-- A literal, a name with what follows it, or an expression in parentheses. -/
theorem primary_step (ih : Moves n) : Advances (primaryWithin (n + 1)) := by
  refine .get_bind fun c => ?_
  simp only
  split
  · exact advances_advance.map
  · split
    · refine advances_advance.bind fun _ => .peek_bind fun k => ?_
      split
      · exact (advances_arguments (ih.operation 1)).map
      · exact advances_advance.bind fun _ => (ih.operation 1).bind fun _ => (advances_expect _ _).map
      · exact advances_pure _
    · exact advances_advance.bind fun _ => (ih.operation 1).bind fun _ => (advances_expect _ _).map
    · exact advances_fail _

end Moves

/-- The four rules for expressions take tokens only, by induction on the bound. -/
theorem moves (n : Nat) : Moves n := by
  induction n with
  | zero =>
    exact ⟨fun _ => advances_exhausted, fun _ _ => advances_exhausted, advances_exhausted,
      advances_exhausted⟩
  | succ n ih =>
    exact ⟨fun least => ih.unary.bind (ih.tail least), ih.tail_step, ih.unary_step, ih.primary_step⟩

theorem advances_expression : Advances expression :=
  .get_bind fun c => (moves c.bound).operation 1

/-! Types and declarations. -/

/-- A size that is too large is refused behind its token. -/
theorem advances_arrayType (element : Token) : Advances (arrayType element) := by
  refine (advances_expect _ _).bind fun _ => (advances_expect _ _).bind fun size => ?_
  split
  · exact advances_throw _
  · exact (advances_expect _ _).map

theorem advances_typeName : Advances typeName := by
  refine (advances_expect _ _).bind fun name => .peek_bind fun k => ?_
  split
  · exact advances_arrayType name
  · exact advances_pure _

theorem advances_parameters : Advances parameters := by
  have each : Advances parameter := advances_typeName.bind fun _ => (advances_expect _ _).map
  refine .peek_bind fun k => ?_
  split
  · exact advances_pure _
  · exact advances_separated _ each

/-- Names and values are taken in turn. -/
theorem advances_declarationTailWithin (type : TypeName) (isConst : Bool) (n : Nat) (latest : Token) :
    Advances (declarationTailWithin type isConst n latest) := by
  induction n generalizing latest with
  | zero => exact advances_exhausted
  | succ n ih =>
    refine .peek_bind fun k => ?_
    split
    · exact advances_pure _
    · exact advances_advance.bind fun _ => (advances_expect _ _).bind fun name => (ih name).map
    · exact advances_advance.bind fun _ => advances_expression.bind fun _ => (ih latest).map
    · exact advances_fail _

theorem advances_declarations (type : TypeName) (isConst : Bool) (name : Token) :
    Advances (declarations type isConst name) :=
  .get_bind fun c => (advances_declarationTailWithin type isConst c.bound name).map

section Statements

variable {body : Parser (List Node)}

theorem advances_function (inside : Advances body) (returns name : Token) :
    Advances (function body returns name) :=
  (advances_expect _ _).bind fun _ => advances_parameters.bind fun _ =>
    (advances_expect _ _).bind fun _ => (advances_expect _ _).bind fun _ =>
      inside.bind fun _ => (advances_expect _ _).map

theorem advances_typedName (inside : Advances body) (isConst : Bool) (type : Token) :
    Advances (typedName body isConst type) := by
  refine advances_advance.bind fun name => .peek_bind fun k => ?_
  split
  · exact advances_function inside type name
  · exact advances_declarations _ isConst name
  · exact advances_declarations _ isConst name
  · exact advances_pure _

theorem advances_assignment (target : Token) : Advances (assignment target) := by
  refine advances_advance.bind fun _ => .peek_bind fun k => ?_
  split
  · exact ((advances_expect _ _).bind fun _ => (advances_listed _ advances_expression).bind fun _ =>
      (advances_expect _ _).map).map
  · exact advances_expression.map

/-- Each of the statements that begin with a name. -/
theorem advances_nameStatement (inside : Advances body) : Advances (nameStatement body) := by
  refine (advances_accept _).bind fun isConst => (advances_expect _ _).bind fun first => ?_
  refine .peek_bind fun k => ?_
  split
  · exact advances_typedName inside isConst first
  · exact (advances_arrayType first).bind fun _ => (advances_expect _ _).map
  · split
    · exact advances_fail _
    · split
      · exact advances_assignment first
      · exact (advances_arguments advances_expression).map
      · exact advances_fail _

/-! Other statements. -/

theorem advances_control (inside : Advances body) : Advances (control body) := by
  have block (keyword : Token) : Advances (control.block body keyword) :=
    (advances_expect _ _).bind fun _ => inside.bind fun _ => (advances_expect _ _).map
  refine advances_advance.bind fun keyword => ?_
  split
  · exact (block keyword).map
  · exact advances_expression.bind fun _ => (block keyword).map
  · exact advances_expression.bind fun _ => (block keyword).map

theorem advances_input : Advances input := by
  have each : Advances inputTarget := (advances_expect _ _).map
  exact advances_advance.bind fun _ => (advances_expect _ _).bind fun _ =>
    (advances_separated _ each).map

theorem advances_output : Advances output := by
  have each : Advances outputItem := by
    refine advances_advance.bind fun t => ?_
    split
    · exact advances_pure _
    · split
      · exact advances_pure _
      · exact advances_throw _
  exact advances_advance.bind fun _ => (advances_expect _ _).bind fun _ =>
    (advances_separated _ each).map

theorem advances_blockComment : Advances blockComment := by
  have each : Advances commentItem := by
    refine .peek_bind fun k => ?_
    split
    · exact advances_fail _
    · exact advances_advance.map
  exact advances_advance.bind fun _ => (advances_many _ each).bind fun _ => advances_advance.map

/-- Each of the statements, by its first token. -/
theorem advances_bareStatement (inside : Advances body) : Advances (bareStatement body) := by
  refine .peek_bind fun k => ?_
  split
  · exact advances_nameStatement inside
  · exact advances_nameStatement inside
  · exact advances_control inside
  · exact advances_control inside
  · exact advances_control inside
  · exact advances_advance.bind fun _ => advances_expression.map
  · exact advances_input
  · exact advances_output
  · exact advances_advance.map
  · exact advances_blockComment
  · exact advances_fail _

end Statements

/-- Blocks are read by statements of a smaller bound. -/
theorem advances_statementWithin (n : Nat) : Advances (statementWithin n) := by
  induction n with
  | zero => exact advances_exhausted
  | succ n ih =>
    refine (advances_bareStatement (advances_many _ ih)).bind fun node => ?_
    split
    · exact advances_pure _
    · exact (advances_expect _ _).map

/-- **A program is read by taking tokens**, whether or not that succeeds. -/
theorem advances_program : Advances program := by
  have each : Advances statement := .get_bind fun c => advances_statementWithin c.bound
  refine .peek_bind fun k => ?_
  split
  · exact advances_fail _
  · exact (advances_many _ each).bind fun _ => .get_bind fun _ => advances_pure _

end Parser

/-! ## Calls in turn -/

namespace Cursor

/-- A call gives what the grammar gives, with the cursor where that stopped. -/
theorem parse_eq_ok {c c' : Cursor} {program : Program} :
    c.parse = (.ok program, c') ↔ Parser.program c = .ok program c' := by
  rw [parse, EStateM.run]
  cases Parser.program c <;> simp

theorem parse_eq_error {c c' : Cursor} {e : ParseError} :
    c.parse = (.error e, c') ↔ Parser.program c = .error e c' := by
  rw [parse, EStateM.run]
  cases Parser.program c <;> simp

/-- A call stops where taking tokens leads to. -/
theorem leads_parse (c : Cursor) : c.Leads c.parse.2 := by
  have leads := Parser.advances_program c
  rw [parse, EStateM.run]
  cases run : Parser.program c <;> simpa [run, Parser.stop] using leads

/-- No call uses its bound up. -/
theorem parse_ne_exhausted (c : Cursor) (t : Token) :
    c.parse.1 ≠ .error (.grammatical (.exhausted t)) := by
  intro spent
  have run := Parser.refuses_program _ _ (parse_eq_error.1 (Prod.ext spent rfl))
  exact run.1 t rfl

/-- At the end of input there is no program. -/
theorem parse_of_end {c : Cursor} (ends : c.current.kind = .endOfInput) :
    c.parse = (.error (.grammatical (.expected .program c.current)), c) := by
  rw [parse_eq_error, Parser.program, Parser.peek_bind, if_pos ends]
  rfl

/-- A call that leaves the cursor as it is gives an error. -/
theorem error_of_parse_eq {c : Cursor} (same : c.parse.2 = c) : ∃ e, c.parse = (.error e, c) := by
  rcases answer : c.parse with ⟨e | program, c'⟩
  · rw [answer] at same
    exact ⟨e, by rw [← same]⟩
  · obtain ⟨more, ends, -⟩ := Parser.program_eq_ok (parse_eq_ok.1 answer)
    rw [answer] at same
    rw [← same] at more
    exact absurd ends more

/-- The cursor after `n` calls. -/
def afterCalls (c : Cursor) : Nat → Cursor
  | 0 => c
  | n + 1 => (c.afterCalls n).parse.2

/-- **A run** of calls leads on. -/
theorem leads_afterCalls (c : Cursor) {n m : Nat} (le : n ≤ m) :
    (c.afterCalls n).Leads (c.afterCalls m) := by
  induction le with
  | refl => exact .refl
  | step _ ih => exact ih.trans (leads_parse _)

/-- A run of calls leaves its cursor as it is at last, or has made it lighter by each call. -/
theorem afterCalls_lighter (c : Cursor) (n : Nat) :
    (c.afterCalls n).parse.2 = c.afterCalls n ∨ (c.afterCalls n).weight + n ≤ c.weight := by
  induction n with
  | zero => exact .inr (Nat.le_refl _)
  | succ n ih =>
    obtain same | ⟨lighter, -⟩ := (leads_parse (c.afterCalls n)).lighter
    · left
      rw [afterCalls, same, same]
    · obtain same | bound := ih
      · rw [same] at lighter
        exact absurd lighter (Nat.lt_irrefl _)
      · right
        rw [afterCalls]
        omega

/-- As many calls as the cursor weighs leave nothing for the next to change. -/
theorem parse_afterCalls {c : Cursor} {n : Nat} (enough : c.weight ≤ n) :
    (c.afterCalls n).parse.2 = c.afterCalls n := by
  obtain same | bound := c.afterCalls_lighter n
  · exact same
  · obtain same | ⟨lighter, -⟩ := (leads_parse (c.afterCalls n)).lighter
    · exact same
    · omega

/-- Once nothing changes, nothing will. -/
theorem afterCalls_of_settled {c : Cursor} {n m : Nat} (le : n ≤ m)
    (settled : (c.afterCalls n).parse.2 = c.afterCalls n) : c.afterCalls m = c.afterCalls n := by
  induction le with
  | refl => rfl
  | step _ ih => rw [afterCalls, ih, settled]

/-- A text weighs no more than its characters. -/
theorem weight_ofString {source : String} {c : Cursor} (start : ofString source = .ok c) :
    c.weight ≤ source.length := by
  have reads := (Lexer.ofString source).significant_unread
  have unread : (Lexer.ofString source).unread.length = source.length := String.length_toList
  rw [ofString] at start
  split at start
  next t l reading =>
    obtain rfl := Except.ok.inj start
    rw [reading, unread] at reads
    obtain ⟨_, same, ends, none⟩ | ⟨more, less⟩ := reads
    · obtain rfl := Except.ok.inj same
      simp [weight, ends, show l.unread = [] from none]
    · have less : l.unread.length < source.length := less
      simp only [weight, more t rfl, if_false]
      omega
  next => cases start

/-- A cursor for a text reads that text. -/
theorem reads_ofString {source : String} {c : Cursor} (start : ofString source = .ok c) :
    c.Reads source.toList := by
  obtain ⟨after, finish⟩ := (Lexer.At.ofString source).significant
  rw [ofString] at start
  split at start
  next t l reading =>
    obtain rfl := Except.ok.inj start
    rw [reading] at after finish
    exact ⟨after, finish t rfl⟩
  next => cases start

/-- **Parsing again and again**: no call uses its bound up or has more left to read afterwards. From the
call on whose number is that of the source's characters, counted from 0, all calls give one error and
leave the cursor as it is. A call that gives a program has come to the end of input, at the source's end,
so all later ones find the source empty there. -/
theorem parse_settles {source : String} {c : Cursor} (start : ofString source = .ok c) :
    (∀ n t, (c.afterCalls n).parse.1 ≠ .error (.grammatical (.exhausted t))) ∧
    (∀ n, (c.afterCalls n).parse.2.lexer.unread.length ≤ (c.afterCalls n).lexer.unread.length) ∧
    (∃ e, ∀ n, source.length ≤ n → (c.afterCalls n).parse = (.error e, c.afterCalls n)) ∧
    ∀ n program, (c.afterCalls n).parse.1 = .ok program →
      program.finish = .following source.toList ∧ ∀ m, n < m → ∃ e, (c.afterCalls m).parse.1 = .error e ∧
        e = .grammatical (.expected .program ⟨.endOfInput, "", program.finish⟩) ∧
        e.detail = "Empty source, expected at least one statement, found end of file" := by
  refine ⟨fun n => parse_ne_exhausted _, fun n => ?_, ?_, fun n program parsed => ?_⟩
  · obtain same | ⟨-, less⟩ := (leads_parse (c.afterCalls n)).lighter
    · rw [same]
    · exact less
  · have settled := parse_afterCalls (weight_ofString start)
    obtain ⟨e, answer⟩ := error_of_parse_eq settled
    refine ⟨e, fun n enough => ?_⟩
    rw [afterCalls_of_settled enough settled]
    exact answer
  · have run : Parser.program (c.afterCalls n) = .ok program (c.afterCalls (n + 1)) :=
      parse_eq_ok.1 (Prod.ext parsed rfl)
    obtain ⟨-, ends, finish, -⟩ := Parser.program_eq_ok run
    have current := ((reads_ofString start).leads (c.leads_afterCalls (Nat.zero_le _))).finish ends
    have empty := parse_of_end ends
    have settled : (c.afterCalls (n + 1)).parse.2 = c.afterCalls (n + 1) := by rw [empty]
    have place : program.finish = .following source.toList := by rw [finish, current]
    have text : "Empty source, expected at least one statement" ++ ", found " ++ "end of file" =
        "Empty source, expected at least one statement, found end of file" := by decide
    refine ⟨place, fun m later => ⟨_, ?_, rfl, text⟩⟩
    rw [afterCalls_of_settled later settled, empty, current, place]

/-- The first call stumbles over the digit, the next goes on behind it and finds a declaration. -/
theorem parse_settles_of_digit :
    ofString "f 7x;" = .ok ⟨⟨[' ', '7', 'x', ';'], ⟨1, 2⟩, false⟩, ⟨.ident, "f", ⟨1, 1⟩⟩⟩ ∧
    (afterCalls ⟨⟨[' ', '7', 'x', ';'], ⟨1, 2⟩, false⟩, ⟨.ident, "f", ⟨1, 1⟩⟩⟩ 9).parse.1 =
      .error (.grammatical (.expected .program ⟨.endOfInput, "", ⟨1, 6⟩⟩)) := by
  have start : ofString "f 7x;" = .ok ⟨⟨[' ', '7', 'x', ';'], ⟨1, 2⟩, false⟩, ⟨.ident, "f", ⟨1, 1⟩⟩⟩ := by
    decide +kernel
  have parsed : (afterCalls ⟨⟨[' ', '7', 'x', ';'], ⟨1, 2⟩, false⟩, ⟨.ident, "f", ⟨1, 1⟩⟩⟩ 1).parse.1 =
      .ok ⟨[.declaration ⟨⟨"f", none, ⟨1, 1⟩⟩, "x", false, ⟨1, 4⟩⟩], ⟨1, 6⟩⟩ := by
    decide +kernel
  obtain ⟨e, answer, rfl, -⟩ := ((parse_settles start).2.2.2 1 _ parsed).2 9 (by decide)
  exact ⟨start, answer⟩

end Cursor

end Pascalize
