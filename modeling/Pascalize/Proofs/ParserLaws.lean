import Pascalize.Proofs.Derivation
import Pascalize.Proofs.TokenStream

/-!
# Laws of parsers

Two judgments describe what a parser does to the readings ahead. `Gives p P` is the direction to the
grammar: a run of `p` that gives `a` took some tokens `w` with `P w a`. `Takes p F w a` is the
direction from the grammar: before any token whose kind `F` allows, `p` takes exactly the tokens `w`
and gives `a`. The combinators for lists are settled here once, in both directions.
-/

namespace Pascalize

/-- The readings start with a token whose kind is allowed. -/
def Starts (F : Kind → Prop) (r : List (Except LexError Token)) : Prop :=
  ∃ t s, r = .ok t :: s ∧ F t.kind

/-- Any kind of token. -/
def anyKind (_ : Kind) : Prop := True

theorem Starts.mono {F G : Kind → Prop} {r : List (Except LexError Token)} (h : Starts F r)
    (le : ∀ k, F k → G k) : Starts G r := by
  obtain ⟨t, s, rfl, allowed⟩ := h
  exact ⟨t, s, rfl, le _ allowed⟩

theorem Starts.any {F : Kind → Prop} {r : List (Except LexError Token)} (h : Starts F r) :
    Starts anyKind r :=
  h.mono fun _ _ => trivial

/-- Tokens before a start make a start. -/
theorem Starts.any_append {F : Kind → Prop} {r : List (Except LexError Token)} (h : Starts F r)
    (w : List Token) : Starts anyKind (w.map .ok ++ r) := by
  cases w with
  | nil => exact h.any
  | cons t w => exact ⟨t, w.map .ok ++ r, rfl, trivial⟩

namespace Parser

variable {α β : Type} {F G : Kind → Prop} {v w : List Token} {a : α} {b : β} {c c' : Cursor}

/-- Two parsers in turn succeed if each does, the second from where the first has stopped. -/
theorem bind_eq_ok {p : Parser α} {f : α → Parser β} :
    (p >>= f) c = .ok b c' ↔ ∃ a c₁, p c = .ok a c₁ ∧ f a c₁ = .ok b c' := by
  change EStateM.bind p f c = .ok b c' ↔ _
  cases run : p c with
  | ok a c₁ => simp [EStateM.bind, run, and_assoc]
  | error e c₁ => simp [EStateM.bind, run]

theorem bind_of_ok {p : Parser α} {f : α → Parser β} {c₁ : Cursor} (h : p c = .ok a c₁) :
    (p >>= f) c = f a c₁ := by
  change EStateM.bind p f c = _
  simp [EStateM.bind, h]

/-- Names the parser that is run, so that it can be told apart by its cases. -/
theorem exists_rule {p : Parser α} {x : EStateM.Result ParseError Cursor α} (h : p c = x) :
    ∃ q, p = q ∧ q c = x :=
  ⟨p, rfl, h⟩

@[simp] theorem pure_eq_ok {a a' : α} : (pure a : Parser α) c = .ok a' c' ↔ a = a' ∧ c = c' := by
  change EStateM.Result.ok a c = .ok a' c' ↔ _
  simp

@[simp] theorem peek_bind (f : Kind → Parser β) : (peek >>= f) c = f c.current.kind c := rfl

@[simp] theorem get_bind (f : Cursor → Parser β) : (get >>= f) c = f c c := rfl

@[simp] theorem refuse_ne_ok (what : Expectation) (t : Token) :
    (refuse what t : Parser α) c ≠ .ok a c' := nofun

@[simp] theorem fail_ne_ok (what : Expectation) : (fail what : Parser α) c ≠ .ok a c' := nofun

@[simp] theorem exhausted_ne_ok : (exhausted : Parser α) c ≠ .ok a c' := nofun

@[simp] theorem throw_ne_ok (e : ParseError) : (throw e : Parser α) c ≠ .ok a c' := nofun

/-- Every run of `p` took tokens that stand for what it gave. -/
def Gives (p : Parser α) (P : List Token → α → Prop) : Prop :=
  ∀ c a c', p c = .ok a c' → ∃ w, c.Took w c' ∧ P w a

/-! What single steps took. -/

/-- Taking a token moves past it, except at the end of input. -/
theorem advance_eq_ok {t : Token} (h : advance c = .ok t c') :
    t = c.current ∧ (t.kind ≠ .endOfInput → c.Took [t] c') := by
  rw [advance, get_bind] at h
  split at h
  next ends =>
    obtain ⟨rfl, rfl⟩ := pure_eq_ok.1 h
    exact ⟨rfl, fun more => absurd ends more⟩
  next more =>
    have stream := c.lexer.significantItems_eq
    rcases hs : c.lexer.significant with ⟨e | t', l⟩
    · rw [hs] at h
      obtain ⟨_, _, _, h⟩ := bind_eq_ok.1 h
      exact absurd h (throw_ne_ok _)
    · rw [hs] at h stream
      obtain ⟨_, c₁, moved, h⟩ := bind_eq_ok.1 h
      obtain ⟨rfl, rfl⟩ := pure_eq_ok.1 h
      obtain rfl : (⟨l, t'⟩ : Cursor) = c₁ := by
        injection moved
      refine ⟨rfl, fun _ => ?_⟩
      simp only [Cursor.Took, Cursor.ahead, more, if_false, stream, Lexer.isLast_ok,
        decide_eq_true_eq]
      rfl

/-- The expected token was there and was taken. -/
theorem expect_eq_ok {kind : Kind} {place : Place} {t : Token} (h : expect kind place c = .ok t c')
    (more : kind ≠ .endOfInput) : t.kind = kind ∧ c.Took [t] c' := by
  rw [expect, peek_bind] at h
  split at h
  next due =>
    obtain ⟨rfl, took⟩ := advance_eq_ok h
    exact ⟨due, took (by rw [due]; exact more)⟩
  next => exact absurd h (fail_ne_ok _)

/-- Either the token was there and was taken, or it was not and nothing happened. -/
theorem accept_eq_ok {kind : Kind} {taken : Bool} (h : accept kind c = .ok taken c')
    (more : kind ≠ .endOfInput) :
    (taken = true ∧ ∃ t : Token, t.kind = kind ∧ c.Took [t] c') ∨
      (taken = false ∧ c = c' ∧ c.current.kind ≠ kind) := by
  rw [accept, peek_bind] at h
  split at h
  next due =>
    obtain ⟨t, c₁, run, h⟩ := bind_eq_ok.1 h
    obtain ⟨rfl, rfl⟩ := pure_eq_ok.1 h
    obtain ⟨rfl, took⟩ := advance_eq_ok run
    exact .inl ⟨rfl, _, due, took (by rw [due]; exact more)⟩
  next other =>
    obtain ⟨rfl, rfl⟩ := pure_eq_ok.1 h
    exact .inr ⟨rfl, rfl, other⟩

/-! What single steps take. -/

/-- Before any token that `F` allows, `p` takes exactly the tokens `w` and gives `a`. -/
def Takes (p : Parser α) (F : Kind → Prop) (w : List Token) (a : α) : Prop :=
  ∀ c r, c.ahead = w.map .ok ++ r → Starts F r → ∃ c', p c = .ok a c' ∧ c'.ahead = r

/-- It is no harder to stop before fewer kinds of tokens. -/
theorem Takes.mono {p : Parser α} (h : Takes p F w a) (le : ∀ k, G k → F k) : Takes p G w a :=
  fun c r ahead starts => h c r ahead (starts.mono le)

theorem takes_pure (a : α) : Takes (pure a) F [] a :=
  fun c _ ahead _ => ⟨c, rfl, ahead⟩

/-- A parser and then another, where the tokens of the second may follow those of the first. -/
theorem Takes.bind {p : Parser α} {f : α → Parser β} (first : Takes p F v a)
    (second : Takes (f a) G w b) (joint : ∀ r, Starts G r → Starts F (w.map .ok ++ r)) :
    Takes (p >>= f) G (v ++ w) b := by
  intro c r ahead starts
  rw [List.map_append, List.append_assoc] at ahead
  obtain ⟨c₁, run₁, ahead₁⟩ := first c _ ahead (joint r starts)
  obtain ⟨c₂, run₂, ahead₂⟩ := second c₁ r ahead₁ starts
  exact ⟨c₂, by rw [bind_of_ok run₁, run₂], ahead₂⟩

/-- A parser that does not look at what follows, and then another. -/
theorem Takes.bind_any {p : Parser α} {f : α → Parser β} (first : Takes p anyKind v a)
    (second : Takes (f a) G w b) : Takes (p >>= f) G (v ++ w) b :=
  first.bind second fun _ starts => starts.any_append w

/-- A parser and then one that takes at least the token `t`. -/
theorem Takes.bind_cons {p : Parser α} {f : α → Parser β} {t : Token} (first : Takes p F v a)
    (second : Takes (f a) G (t :: w) b) (allowed : F t.kind) :
    Takes (p >>= f) G (v ++ t :: w) b :=
  first.bind second fun _ _ => ⟨t, _, rfl, allowed⟩

/-- A parser and then one that takes nothing. -/
theorem Takes.bind_nil {p : Parser α} {f : α → Parser β} (first : Takes p F v a)
    (second : Takes (f a) F [] b) : Takes (p >>= f) F v b := by
  simpa using first.bind second fun _ starts => starts

/-- A parser of one token that does not look at what follows, and then another. -/
theorem Takes.cons_bind {p : Parser α} {f : α → Parser β} {t : Token}
    (first : Takes p anyKind [t] a) (second : Takes (f a) G w b) :
    Takes (p >>= f) G (t :: w) b :=
  first.bind_any second

/-- A rule may look at the first token that it takes. -/
theorem Takes.peek_bind {f : Kind → Parser β} {t : Token} (h : Takes (f t.kind) F (t :: w) b) :
    Takes (peek >>= f) F (t :: w) b := by
  intro c r ahead starts
  rw [Parser.peek_bind, Cursor.current_of_ahead ahead]
  exact h c r ahead starts

/-- Looking at what follows. -/
theorem Takes.peek_bind_nil {f : Kind → Parser β}
    (h : ∀ k, F k → Takes (f k) (· = k) [] b) : Takes (peek >>= f) F [] b := by
  intro c r ahead starts
  obtain ⟨t, s, rfl, allowed⟩ := starts
  rw [Parser.peek_bind, Cursor.current_of_ahead ahead]
  exact h _ allowed c _ ahead ⟨t, s, rfl, rfl⟩

/-- Looking at the current token. -/
theorem Takes.get_bind {f : Cursor → Parser β} {t : Token}
    (h : ∀ c : Cursor, c.current = t → Takes (f c) F (t :: w) b) :
    Takes (get >>= f) F (t :: w) b := by
  intro c r ahead starts
  rw [Parser.get_bind]
  exact h c (Cursor.current_of_ahead ahead) c r ahead starts

/-- The bound of a cursor exceeds four times the tokens that are taken. -/
theorem Takes.bound {f : Nat → Parser β} (h : ∀ n, 4 * (w.length + 1) < n → Takes (f n) F w b) :
    Takes (do f (← get).bound) F w b := by
  intro c r ahead starts
  have enough := c.length_ahead_lt_bound
  obtain ⟨t, s, rfl, -⟩ := id starts
  simp only [ahead, List.length_append, List.length_map, List.length_cons] at enough
  exact h c.bound (by omega) c _ ahead starts

theorem takes_advance (t : Token) : Takes advance anyKind [t] t := by
  intro c r ahead starts
  obtain ⟨t', s, rfl, -⟩ := starts
  have more := Cursor.kind_ne_end_of_ahead ahead
  obtain rfl := Cursor.current_of_ahead ahead
  have stream := c.lexer.significantItems_eq
  simp only [Cursor.ahead, more, if_false, List.map_cons, List.map_nil, List.cons_append,
    List.nil_append, List.cons.injEq, true_and] at ahead
  rcases hs : c.lexer.significant with ⟨e | t'', l⟩
  · rw [hs, ahead] at stream
    simp at stream
  · rw [hs, ahead, List.cons.injEq, Except.ok.injEq] at stream
    obtain ⟨rfl, rfl⟩ := stream
    refine ⟨⟨l, t'⟩, ?_, by simp [Cursor.ahead]⟩
    rw [advance, get_bind, if_neg more, hs]
    rfl

theorem takes_expect {t : Token} {kind : Kind} {place : Place} (h : t.kind = kind) :
    Takes (expect kind place) anyKind [t] t := by
  refine Takes.peek_bind ?_
  rw [if_pos h]
  exact takes_advance t

theorem takes_accept {t : Token} {kind : Kind} (h : t.kind = kind) :
    Takes (accept kind) anyKind [t] true := by
  refine Takes.peek_bind ?_
  rw [if_pos h]
  exact (takes_advance t).cons_bind (takes_pure true)

/-- An optional token that is not there is not taken. -/
theorem takes_accept_nil {kind : Kind} : Takes (accept kind) (· ≠ kind) [] false := by
  refine Takes.peek_bind_nil fun k other => ?_
  rw [if_neg other]
  exact takes_pure false

/-! Lists of items. -/

section Lists

open Derives

variable {item : Parser α} {P : List Token → α → Prop} {items : List (List Token × α)}

/-- A list with separators, by induction on the bound. -/
theorem gives_separatedWithin {sep : Kind} (each : Gives item P) (more : sep ≠ .endOfInput)
    (n : Nat) : Gives (separatedWithin sep item n) fun w as =>
      ∃ items : List (List Token × α), Separated sep (items.map Prod.fst) w ∧
        (∀ x ∈ items, P x.1 x.2) ∧ as = items.map Prod.snd := by
  induction n with
  | zero => exact fun c as c' h => absurd h exhausted_ne_ok
  | succ n ih =>
    intro c as c' h
    obtain ⟨a, c₁, run₁, h⟩ := bind_eq_ok.1 h
    obtain ⟨taken, c₂, run₂, h⟩ := bind_eq_ok.1 h
    obtain ⟨v, took₁, first⟩ := each c a c₁ run₁
    obtain ⟨rfl, t, isSep, took₂⟩ | ⟨rfl, rfl, -⟩ := accept_eq_ok run₂ more
    · obtain ⟨as', c₃, run₃, h⟩ := bind_eq_ok.1 h
      obtain ⟨rfl, rfl⟩ := pure_eq_ok.1 h
      obtain ⟨w, took₃, items, joined, rest, rfl⟩ := ih c₂ as' c₃ run₃
      refine ⟨v ++ t :: w, took₁.trans (took₂.trans took₃), (v, a) :: items, .cons isSep joined, ?_, rfl⟩
      simpa using ⟨first, fun x y => rest (x, y)⟩
    · obtain ⟨rfl, rfl⟩ := pure_eq_ok.1 h
      exact ⟨v, took₁, [(v, a)], .single v, by simpa using first, rfl⟩

/-- A list that may be empty and may end with a comma. -/
theorem gives_listedWithin {stop : Kind} (each : Gives item P) (n : Nat) :
    Gives (listedWithin stop item n) fun w as =>
      ∃ items : List (List Token × α), Listed (items.map Prod.fst) w ∧
        (∀ x ∈ items, P x.1 x.2) ∧ as = items.map Prod.snd := by
  induction n with
  | zero => exact fun c as c' h => absurd h exhausted_ne_ok
  | succ n ih =>
    intro c as c' h
    rw [listedWithin, Parser.peek_bind] at h
    split at h
    · obtain ⟨rfl, rfl⟩ := pure_eq_ok.1 h
      exact ⟨[], .refl c, [], .nil, by simp, rfl⟩
    · obtain ⟨a, c₁, run₁, h⟩ := bind_eq_ok.1 h
      obtain ⟨taken, c₂, run₂, h⟩ := bind_eq_ok.1 h
      obtain ⟨v, took₁, first⟩ := each c a c₁ run₁
      obtain ⟨rfl, t, isSep, took₂⟩ | ⟨rfl, rfl, -⟩ := accept_eq_ok run₂ (by decide)
      · obtain ⟨as', c₃, run₃, h⟩ := bind_eq_ok.1 h
        obtain ⟨rfl, rfl⟩ := pure_eq_ok.1 h
        obtain ⟨w, took₃, items, joined, rest, rfl⟩ := ih c₂ as' c₃ run₃
        refine ⟨v ++ t :: w, took₁.trans (took₂.trans took₃), (v, a) :: items, .cons isSep joined,
          ?_, rfl⟩
        simpa using ⟨first, fun x y => rest (x, y)⟩
      · obtain ⟨rfl, rfl⟩ := pure_eq_ok.1 h
        exact ⟨v, took₁, [(v, a)], .last v, by simpa using first, rfl⟩

/-- Each item is read before a token at which the list does not stop. -/
theorem gives_manyWithin {stop : Kind → Bool}
    (each : ∀ c a c', stop c.current.kind = false → item c = .ok a c' → ∃ w, c.Took w c' ∧ P w a)
    (n : Nat) : Gives (manyWithin stop item n) fun w as =>
      ∃ items, w = concat items ∧ (∀ x ∈ items, P x.1 x.2) ∧ as = items.map Prod.snd := by
  induction n with
  | zero => exact fun c as c' h => absurd h exhausted_ne_ok
  | succ n ih =>
    intro c as c' h
    rw [manyWithin, Parser.peek_bind] at h
    split at h
    · obtain ⟨rfl, rfl⟩ := pure_eq_ok.1 h
      exact ⟨[], .refl c, [], rfl, by simp, rfl⟩
    next go =>
      obtain ⟨a, c₁, run₁, h⟩ := bind_eq_ok.1 h
      obtain ⟨as', c₂, run₂, h⟩ := bind_eq_ok.1 h
      obtain ⟨rfl, rfl⟩ := pure_eq_ok.1 h
      obtain ⟨v, took₁, first⟩ := each c a c₁ (Bool.eq_false_iff.2 go) run₁
      obtain ⟨_, took₂, items, rfl, rest, rfl⟩ := ih c₁ as' c₂ run₂
      refine ⟨v ++ concat items, took₁.trans took₂, (v, a) :: items, rfl, ?_, rfl⟩
      simpa using ⟨first, fun x y => rest (x, y)⟩

/-- Where `manyWithin` stops. -/
theorem stop_of_manyWithin {stop : Kind → Bool} {as : List α} {n : Nat}
    (h : manyWithin stop item n c = .ok as c') : stop c'.current.kind = true := by
  induction n generalizing c as with
  | zero => exact absurd h exhausted_ne_ok
  | succ n ih =>
    rw [manyWithin, Parser.peek_bind] at h
    split at h
    next stops =>
      obtain ⟨rfl, rfl⟩ := pure_eq_ok.1 h
      exact stops
    next =>
      obtain ⟨a, c₁, run₁, h⟩ := bind_eq_ok.1 h
      obtain ⟨as', c₂, run₂, h⟩ := bind_eq_ok.1 h
      obtain ⟨rfl, rfl⟩ := pure_eq_ok.1 h
      exact ih run₂

/-- Each item stops before a separator or where the list does. A bound of the number of items is enough.
-/
theorem takes_separatedWithin {sep : Kind} {n : Nat}
    (joined : Separated sep (items.map Prod.fst) w) (each : ∀ x ∈ items, Takes item F x.1 x.2)
    (between : F sep) (after : ∀ k, G k → F k ∧ k ≠ sep) (enough : items.length ≤ n) :
    Takes (separatedWithin sep item n) G w (items.map Prod.snd) := by
  induction items generalizing w n with
  | nil => nomatch joined
  | cons x items ih =>
    obtain ⟨v, a⟩ := x
    obtain _ | n := n
    · simp at enough
    have first : Takes item F v a := each _ List.mem_cons_self
    rw [separatedWithin]
    obtain ⟨none, rfl⟩ | ⟨s, w, isSep, rest, rfl⟩ := joined.cons_inv
    · obtain rfl := List.map_eq_nil_iff.1 none
      have stays : Takes (accept sep) G [] false := takes_accept_nil.mono fun k h => (after k h).2
      exact (first.mono fun k h => (after k h).1).bind_nil (stays.bind_nil (takes_pure _))
    · have tail := ih rest (fun z hz => each z (by simp [hz])) (n := n) (by simp at enough; omega)
      refine first.bind_cons ?_ (by rw [isSep]; exact between)
      exact (takes_accept isSep).cons_bind (tail.bind_nil (takes_pure _))

/-- The bound is that of the readings ahead, so it is enough. -/
theorem takes_separated {sep : Kind} (joined : Separated sep (items.map Prod.fst) w)
    (each : ∀ x ∈ items, Takes item F x.1 x.2) (between : F sep)
    (after : ∀ k, G k → F k ∧ k ≠ sep) :
    Takes (separated sep item) G w (items.map Prod.snd) := by
  have few := joined.length_le
  rw [List.length_map] at few
  refine Takes.bound fun n enough => ?_
  exact takes_separatedWithin joined each between after (by omega)

/-- No item begins with what ends the list, so the list goes on as long as there are items. -/
theorem takes_listedWithin {stop : Kind} {n : Nat} (joined : Listed (items.map Prod.fst) w)
    (each : ∀ x ∈ items, Takes item F x.1 x.2)
    (begins : ∀ x ∈ items, ∃ t u, x.1 = t :: u ∧ t.kind ≠ stop)
    (between : F .comma) (after : F stop) (other : stop ≠ .comma) (enough : items.length < n) :
    Takes (listedWithin stop item n) (· = stop) w (items.map Prod.snd) := by
  induction items generalizing w n with
  | nil =>
    cases joined
    obtain _ | n := n
    · simp at enough
    rw [listedWithin]
    refine Takes.peek_bind_nil fun k stops => ?_
    rw [if_pos stops]
    exact takes_pure _
  | cons x items ih =>
    obtain ⟨v, a⟩ := x
    obtain _ | n := n
    · simp at enough
    have first : Takes item F v a := each _ List.mem_cons_self
    obtain ⟨t, u, rfl, starts⟩ := begins _ List.mem_cons_self
    rw [listedWithin]
    obtain ⟨none, rfl⟩ | ⟨s, w, isSep, rest, rfl⟩ := joined.cons_inv
    · obtain rfl := List.map_eq_nil_iff.1 none
      refine Takes.peek_bind ?_
      rw [if_neg starts]
      have stays : Takes (accept .comma) (· = stop) [] false :=
        takes_accept_nil.mono fun k h => by rw [h]; exact other
      exact (first.mono fun k h => by rw [h]; exact after).bind_nil (stays.bind_nil (takes_pure _))
    · have tail := ih rest (fun z hz => each z (by simp [hz])) (fun z hz => begins z (by simp [hz]))
        (n := n) (by simp at enough; omega)
      refine Takes.peek_bind (w := u ++ s :: w) ?_
      rw [if_neg starts]
      refine first.bind_cons ?_ (by rw [isSep]; exact between)
      exact (takes_accept isSep).cons_bind (tail.bind_nil (takes_pure _))

theorem takes_listed {stop : Kind} (joined : Listed (items.map Prod.fst) w)
    (each : ∀ x ∈ items, Takes item F x.1 x.2)
    (begins : ∀ x ∈ items, ∃ t u, x.1 = t :: u ∧ t.kind ≠ stop)
    (between : F .comma) (after : F stop) (other : stop ≠ .comma) :
    Takes (listed stop item) (· = stop) w (items.map Prod.snd) := by
  have few := joined.length_le.1
  rw [List.length_map] at few
  refine Takes.bound fun n enough => ?_
  exact takes_listedWithin joined each begins between after other (by omega)

/-- Items stand in a row with nothing between them, and none begins with what ends them. -/
theorem takes_manyWithin {stop : Kind → Bool} {n : Nat}
    (each : ∀ x ∈ items, Takes item anyKind x.1 x.2)
    (begins : ∀ x ∈ items, ∃ t u, x.1 = t :: u ∧ stop t.kind = false)
    (enough : items.length < n) :
    Takes (manyWithin stop item n) (stop · = true) (concat items) (items.map Prod.snd) := by
  induction items generalizing n with
  | nil =>
    obtain _ | n := n
    · simp at enough
    rw [manyWithin]
    refine Takes.peek_bind_nil fun k stops => ?_
    rw [if_pos stops]
    exact takes_pure _
  | cons x items ih =>
    obtain ⟨v, a⟩ := x
    obtain _ | n := n
    · simp at enough
    have first : Takes item anyKind v a := each _ List.mem_cons_self
    obtain ⟨t, u, rfl, goes⟩ := begins _ List.mem_cons_self
    have tail := ih (fun z hz => each z (by simp [hz])) (fun z hz => begins z (by simp [hz]))
      (n := n) (by simp at enough; omega)
    rw [manyWithin]
    refine Takes.peek_bind (w := u ++ concat items) ?_
    rw [if_neg (by simp [goes])]
    exact first.bind_any (tail.bind_nil (takes_pure _))

/-- Every item has a token, so there are no more items than tokens. -/
theorem length_le_concat (begins : ∀ x ∈ items, ∃ t u, x.1 = t :: u) :
    items.length ≤ (concat items).length := by
  induction items with
  | nil => simp
  | cons x items ih =>
    obtain ⟨t, u, same⟩ := begins x List.mem_cons_self
    have le := ih fun y member => begins y (by simp [member])
    simp only [concat, List.map_cons, List.flatten_cons, List.length_append, same,
      List.length_cons] at le ⊢
    omega

theorem takes_many {stop : Kind → Bool} (each : ∀ x ∈ items, Takes item anyKind x.1 x.2)
    (begins : ∀ x ∈ items, ∃ t u, x.1 = t :: u ∧ stop t.kind = false) :
    Takes (many stop item) (stop · = true) (concat items) (items.map Prod.snd) := by
  have few : items.length ≤ (concat items).length := by
    apply length_le_concat
    intro x member
    obtain ⟨t, u, same, -⟩ := begins x member
    exact ⟨t, u, same⟩
  refine Takes.bound fun n enough => ?_
  exact takes_manyWithin each begins (by omega)

end Lists

end Parser

end Pascalize
