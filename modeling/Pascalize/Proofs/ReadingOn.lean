import Pascalize.Proofs.Concatenation
import Pascalize.Proofs.LexicalFailure

/-!
# Reading on to the end of the text

A call of `Lexer.next` takes characters, or it reads the end of input and nothing is left
(`Lexer.At.next_progress`). A fault is no exception, so a lexer comes to the end of input within one
call more than it has characters, whatever stands on the way (`Lexer.exists_end`). From there on only
blanks are left, which no call changes, and the end of input is read again at the same place
(`Lexer.At.next_of_blank`, `Lexer.afterCalls_of_blank`).

The stream remembers that it has ended, and no call makes it forget (`Lexer.ended_afterCalls`). What
it yields call by call is the list `Lexer.items` (`Lexer.yields_items`), which is what `Lexer.next`
gives up to the end of input or the first error (`Lexer.items_eq_readings`).
-/

namespace Pascalize

namespace Lexer

/-- Whether a reading is the end of input. -/
def isEnd : Except LexError Token → Bool
  | .ok t => t.kind = .endOfInput
  | .error _ => false

/-- What the call number `n` of `next` gives, counted from 0. -/
def readingAt (l : Lexer) (n : Nat) : Except LexError Token :=
  (l.afterCalls (.replicate n .next)).next.1

/-- Asked again and again, the stream yields `items` one by one and then nothing. -/
def Yields (l : Lexer) (items : List (Except LexError Token)) : Prop :=
  ∀ n, (l.afterCalls (.replicate n .next?)).next?.1 = items[n]?

variable {source consumed : List Char} {l : Lexer} {items items' : List (Except LexError Token)}

/-! ## Progress -/

theorem isEnd_eq_true_iff {r : Except LexError Token} :
    isEnd r = true ↔ ∃ t, r = .ok t ∧ t.kind = .endOfInput := by
  cases r <;> simp [isEnd]

theorem isEnd_eq_false_iff {r : Except LexError Token} :
    isEnd r = false ↔ ∀ t, r = .ok t → t.kind ≠ .endOfInput := by
  cases r <;> simp [isEnd]

theorem skipBlanks_of_blank (blank : ∀ c ∈ l.unread, Lexeme.isBlank c = true) :
    l.skipBlanks.unread = [] :=
  List.dropWhile_eq_nil_iff.2 blank

/-- The end of input is read where only blanks are left. -/
theorem isEnd_next_iff : isEnd l.next.1 = true ↔ ∀ c ∈ l.unread, Lexeme.isBlank c = true := by
  constructor
  · intro ends
    obtain ⟨t, reading, finish⟩ := isEnd_eq_true_iff.1 ends
    exact List.dropWhile_eq_nil_iff.1 (dropWhile_of_ends reading finish)
  · intro blank
    simp [next, skipBlanks_of_blank blank, isEnd]

theorem unread_next_of_blank (blank : ∀ c ∈ l.unread, Lexeme.isBlank c = true) :
    l.next.2.unread = [] := by
  have none := skipBlanks_of_blank blank
  simp only [next, none]

/-- A token or an error takes a character. -/
theorem next_unread_lt_of_not_end (more : isEnd l.next.1 = false) :
    l.next.2.unread.length < l.unread.length := by
  apply l.next_unread_lt
  intro none
  have ends := isEnd_next_iff.2 (List.dropWhile_eq_nil_iff.1 none)
  rw [more] at ends
  exact absurd ends (by decide)

/-- **One call** takes all that is left, which is blank, and reads the end of input, or it reads a
token or an error and takes some characters. -/
theorem At.next_progress (h : l.At source consumed) :
    ∃ taken, l.next.2.At source (consumed ++ taken) ∧
      (isEnd l.next.1 = true ∧ l.next.2.unread = [] ∧ (∀ c ∈ taken, Lexeme.isBlank c = true) ∨
        isEnd l.next.1 = false ∧ taken ≠ []) := by
  obtain ⟨gap, taken, -, -, -, after, -⟩ := h.next
  have split := h.unread_eq after
  refine ⟨gap ++ taken, after, ?_⟩
  cases ends : isEnd l.next.1 with
  | true =>
    have blank := isEnd_next_iff.1 ends
    have none := unread_next_of_blank blank
    rw [split, none, List.append_nil] at blank
    exact .inl ⟨rfl, none, blank⟩
  | false =>
    have less := next_unread_lt_of_not_end ends
    refine .inr ⟨rfl, fun nothing => ?_⟩
    rw [split, nothing, List.nil_append] at less
    exact absurd less (Nat.lt_irrefl _)

/-- What holds where the end of input is read, and before any other reading if it holds after it,
holds of every lexer. -/
theorem induction_reading {P : Lexer → Prop} (finish : ∀ l, isEnd l.next.1 = true → P l)
    (more : ∀ l, isEnd l.next.1 = false → P l.next.2 → P l) (l : Lexer) : P l := by
  -- By the number of characters left, which errors lessen too.
  generalize size : l.unread.length = n
  induction n using Nat.strongRecOn generalizing l with
  | ind n ih =>
    cases ends : isEnd l.next.1 with
    | true => exact finish l ends
    | false =>
      have less := next_unread_lt_of_not_end ends
      exact more l ends (ih _ (by omega) l.next.2 rfl)

/-- **A run of calls** comes to the end of input, with at most one call more than there are
characters. -/
theorem exists_end (l : Lexer) : ∃ n ≤ l.unread.length,
    (∀ m < n, isEnd (l.readingAt m) = false) ∧ isEnd (l.readingAt n) = true := by
  induction l using induction_reading with
  | finish l ends => exact ⟨0, Nat.zero_le _, by simp, ends⟩
  | more l more ih =>
    obtain ⟨n, bound, before, ends⟩ := ih
    have less := next_unread_lt_of_not_end more
    refine ⟨n + 1, by omega, fun m lt => ?_, ends⟩
    cases m with
    | zero => exact more
    | succ m => exact before m (Nat.lt_of_succ_lt_succ lt)

/-! ## The end of input is read for ever -/

/-- The end of input stands after the source. -/
theorem At.next_of_blank (h : l.At source consumed)
    (blank : ∀ c ∈ l.unread, Lexeme.isBlank c = true) :
    l.next.1 = .ok ⟨.endOfInput, "", .following source⟩ := by
  have none := skipBlanks_of_blank blank
  have skipped : l.skipBlanks.At source (consumed ++ l.unread.takeWhile Lexeme.isBlank) :=
    h.advance List.takeWhile_append_dropWhile.symm
  have place := skipped.place
  rw [List.takeWhile_eq_self_iff.2 blank, ← h.split] at place
  simp only [Lexer.next, none, place]

/-- Where the end of input is next, reading all tokens is reading it. -/
theorem tokenize_snd_of_end (ends : isEnd l.next.1 = true) : l.tokenize.2 = l.next.2 := by
  obtain ⟨t, reading, finish⟩ := isEnd_eq_true_iff.1 ends
  have now : l.next = (.ok t, l.next.2) := Prod.ext reading rfl
  rw [tokenize, tokenizeWithin, now]
  simp only [finish, if_true]

/-- **A call** leaves blanks where there are only blanks. -/
theorem perform_of_blank (blank : ∀ c ∈ l.unread, Lexeme.isBlank c = true) (call : Call) :
    ∀ c ∈ (call.perform l).unread, Lexeme.isBlank c = true := by
  have none : ∀ c ∈ l.next.2.unread, Lexeme.isBlank c = true := by
    simp [unread_next_of_blank blank]
  cases call with
  | next => exact none
  | next? =>
    rw [Call.perform, Lexer.next?]
    split
    · exact blank
    · exact none
  | tokenize =>
    rw [Call.perform, tokenize_snd_of_end (isEnd_next_iff.2 blank)]
    exact none

/-- **A run of calls** leaves blanks where there are only blanks. -/
theorem afterCalls_of_blank (blank : ∀ c ∈ l.unread, Lexeme.isBlank c = true) (calls : List Call) :
    ∀ c ∈ (l.afterCalls calls).unread, Lexeme.isBlank c = true :=
  afterCalls_keeps (P := fun l => ∀ c ∈ l.unread, Lexeme.isBlank c = true)
    (fun _ call kept => perform_of_blank kept call) blank calls

/-- Once the end of input is read, it is read again at the same place, whatever is called. -/
theorem At.next_of_end (h : l.At source consumed) (ends : isEnd l.next.1 = true)
    (calls : List Call) :
    (l.afterCalls calls).next.1 = .ok ⟨.endOfInput, "", .following source⟩ := by
  obtain ⟨consumed', after⟩ := h.afterCalls calls
  exact after.next_of_blank (afterCalls_of_blank (isEnd_next_iff.1 ends) calls)

/-! ## What the stream yields -/

theorem next?_eq_none_iff : l.next?.1 = none ↔ l.ended = true := by
  unfold next?
  split <;> simp_all

theorem ended_tokenizeWithin (n : Nat) (l : Lexer) : (l.tokenizeWithin n).2.ended = l.ended := by
  induction n generalizing l with
  | zero => rfl
  | succ n ih =>
    have same := l.ended_next
    rw [tokenizeWithin]
    rcases reading : l.next with ⟨e | t, l'⟩ <;> rw [reading] at same
    · exact same
    · by_cases ends : t.kind = .endOfInput
      · simp only [ends, if_true]
        exact same
      · simp only [ends, if_false]
        rw [ih, same]

/-- **A call** does not start the stream again. -/
theorem ended_perform (ended : l.ended = true) (call : Call) : (call.perform l).ended = true := by
  cases call with
  | next => rw [Call.perform, ended_next, ended]
  | next? => simp [Call.perform, Lexer.next?, ended]
  | tokenize => rw [Call.perform, tokenize, ended_tokenizeWithin, ended]

/-- **A run of calls** does not start the stream again. -/
theorem ended_afterCalls (ended : l.ended = true) (calls : List Call) :
    (l.afterCalls calls).ended = true :=
  afterCalls_keeps (P := fun l => l.ended = true) (fun _ call kept => ended_perform kept call) ended
    calls

theorem yields_nil (ended : l.ended = true) : l.Yields [] :=
  fun _ => next?_eq_none_iff.2 (ended_afterCalls ended _)

theorem Yields.cons (goes : l.ended = false) (rest : l.next?.2.Yields items) :
    l.Yields (l.next.1 :: items) := by
  intro n
  cases n with
  | zero => simp [afterCalls, next?, goes]
  | succ n => exact rest n

/-- **The stream** yields its list of readings. -/
theorem yields_items (l : Lexer) (goes : l.ended = false) : l.Yields l.items := by
  induction l using induction_next with
  | last l last =>
    rw [items_of_last last]
    apply Yields.cons goes
    apply yields_nil
    simp [next?, goes, last]
  | token l t reading more ih =>
    -- A token does not end the stream, so `next?` leaves the lexer that `next` leaves.
    have still : l.next.2.ended = false := by rw [ended_next, goes]
    have after : l.next?.2 = l.next.2 := by
      simp only [next?, goes, reading, isLast_ok, more, decide_false, Bool.false_eq_true, if_false]
      rw [← still]
    rw [items_of_token reading more, ← reading]
    apply Yields.cons goes
    rw [after]
    exact ih still

/-- A stream yields one list. -/
theorem Yields.unique (h : l.Yields items) (h' : l.Yields items') : items = items' :=
  List.ext_getElem? fun n => (h n).symm.trans (h' n)

/-- After its last item a stream yields nothing, whatever is called. -/
theorem Yields.next?_after (h : l.Yields items) (calls : List Call) :
    ((l.afterCalls (.replicate items.length .next?)).afterCalls calls).next?.1 = none := by
  have ended := next?_eq_none_iff.1 ((h items.length).trans (List.getElem?_eq_none (Nat.le_refl _)))
  exact next?_eq_none_iff.2 (ended_afterCalls ended calls)

/-- The stream's readings are what `next` gives, call by call. -/
theorem items_eq_readings (l : Lexer) : l.items = (List.range l.items.length).map l.readingAt := by
  induction l using induction_next with
  | last l last =>
    rw [items_of_last last]
    rfl
  | token l t reading more ih =>
    rw [items_of_token reading more, List.length_cons, List.range_succ_eq_map, List.map_cons,
      List.map_map, ← reading]
    exact congrArg _ ih

theorem tokenize_eq_error_iff {e : LexError} :
    l.tokenize.1 = .error e ↔ l.items.getLast? = some (.error e) := by
  refine ⟨fun failed => ?_, tokenize_of_getLast?⟩
  obtain ⟨front, last, stream, -, -⟩ := l.items_cases
  rw [tokenize_fst stream] at failed
  rw [stream, List.getLast?_concat]
  cases last with
  | error e' => exact congrArg _ (congrArg _ (Except.error.inj failed))
  | ok t => cases failed

/-- **Reading comes to the end, and the three ways to read agree.** After any calls, in any order and
with errors among them, the next reading is the end of input and nothing is left, or it is a token or
an error and at least one character was taken. So the end of input is read after at most as many
other readings as there are characters left, and from then on always, at the place after the source.

The tokens of a whole source are what its stream yields, and the error that stops them is the last
that its stream yields. The stream yields what `next` gives call by call, at most one more than there
are characters, and then nothing, whatever is called. -/
theorem reading_settles (source : String) :
    (∀ calls, let l := (ofString source).afterCalls calls
      (∃ consumed taken, l.At source.toList consumed ∧ l.next.2.At source.toList (consumed ++ taken) ∧
        (isEnd l.next.1 = true ∧ l.next.2.unread = [] ∧ (∀ c ∈ taken, Lexeme.isBlank c = true) ∨
          isEnd l.next.1 = false ∧ taken ≠ [])) ∧
      ∃ n ≤ l.unread.length, (∀ m < n, isEnd (l.readingAt m) = false) ∧
        ∀ later, ((l.afterCalls (.replicate n .next)).afterCalls later).next.1 =
          .ok ⟨.endOfInput, "", .following source.toList⟩) ∧
    let l := ofString source
    (∀ tokens, l.tokenize.1 = .ok tokens ↔ l.Yields (tokens.map .ok)) ∧
    (∀ e, l.tokenize.1 = .error e ↔ ∃ items, l.Yields items ∧ items.getLast? = some (.error e)) ∧
    ∃ items, l.Yields items ∧ items = (List.range items.length).map l.readingAt ∧
      items.length ≤ source.length + 1 ∧
      ∀ later, ((l.afterCalls (.replicate items.length .next?)).afterCalls later).next?.1 = none := by
  have yields : (ofString source).Yields (ofString source).items := yields_items _ rfl
  refine ⟨fun calls => ⟨?_, ?_⟩, fun tokens => ?_, fun e => ?_, ?_⟩
  · obtain ⟨consumed, stands⟩ := (At.ofString source).afterCalls calls
    obtain ⟨taken, after, progress⟩ := stands.next_progress
    exact ⟨consumed, taken, stands, after, progress⟩
  · obtain ⟨n, bound, before, ends⟩ := ((ofString source).afterCalls calls).exists_end
    obtain ⟨consumed, stands⟩ := (At.ofString source).afterCalls calls
    obtain ⟨consumed', after⟩ := stands.afterCalls (.replicate n .next)
    exact ⟨n, bound, before, after.next_of_end ends⟩
  · rw [tokenize_eq_ok_iff]
    exact ⟨fun same => same ▸ yields, yields.unique⟩
  · rw [tokenize_eq_error_iff]
    refine ⟨fun last => ⟨_, yields, last⟩, ?_⟩
    rintro ⟨items, others, last⟩
    rwa [yields.unique others]
  · have bound := length_itemsWithin_le (source.toList.length + 1) (ofString source)
    have length : (ofString source).unread.length = source.length := String.length_toList
    rw [length] at bound
    exact ⟨_, yields, items_eq_readings _, bound, yields.next?_after⟩

/-- Three faults with a word among them: the stream stops at the first, but calls of `next` go on and
are at the end with the fifth. -/
theorem reading_settles_of_faults :
    (∃ items, (ofString "7a!'b ").Yields items ∧
      items.getLast? = some (.error ⟨.malformedNumber "7a", ⟨1, 1⟩⟩)) ∧
    ∃ n ≤ 6, ((ofString "7a!'b ").afterCalls (.replicate n .next)).next.1 =
      .ok ⟨.endOfInput, "", ⟨1, 7⟩⟩ := by
  obtain ⟨ends, -, fails, -⟩ := reading_settles "7a!'b "
  obtain ⟨-, n, bound, -, finish⟩ := ends []
  exact ⟨(fails _).1 (by decide +kernel), n, bound, finish []⟩

end Lexer

end Pascalize
