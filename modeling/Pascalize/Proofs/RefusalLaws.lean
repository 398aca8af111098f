import Pascalize.Proofs.StatementParsing

/-!
# Laws of refusals

What a parser says of the readings ahead when it gives no value. `Refuses p P c` is the judgment: an
error of `p` at the cursor `c` is the lexical error that ends the stream, or a token that stands in
it, and the tokens before it can be completed to some that satisfy `P`. It also says that no bound
was used up.

A completion has to work wherever it stands in the text, so it is given by the kinds of its tokens
(`Spells`), for each of which there is one way to write it.
-/

namespace Pascalize

/-- One way to write a token of the kind, for the kinds that need no quotes, no point and no line of
their own. -/
def Kind.sample? : Kind → Option String
  | .ident => some "x"
  | .intLiteral => some "0"
  | kind => kind.spelling?

/-- The tokens are written as the kinds say, at any locations. -/
def Spells (ks : List Kind) (u : List Token) : Prop :=
  u.map (fun t => (t.kind, some t.text)) = ks.map fun k => (k, k.sample?)

namespace Spells

variable {k : Kind} {ks ls : List Kind} {u : List Token}

theorem eq_nil (h : Spells [] u) : u = [] :=
  List.map_eq_nil_iff.1 h

theorem cons_inv (h : Spells (k :: ks) u) :
    ∃ (t : Token) (v : List Token), u = t :: v ∧ t.kind = k ∧ k.sample? = some t.text ∧
      Spells ks v := by
  obtain ⟨t, v, rfl, same, rest⟩ := List.map_eq_cons_iff.1 h
  rw [Prod.mk.injEq] at same
  exact ⟨t, v, rfl, same.1, same.2.symm, rest⟩

theorem append_inv (h : Spells (ks ++ ls) u) :
    ∃ v w : List Token, u = v ++ w ∧ Spells ks v ∧ Spells ls w := by
  rw [Spells, List.map_append] at h
  obtain ⟨v, w, rfl, first, second⟩ := List.map_eq_append_iff.1 h
  exact ⟨v, w, rfl, first, second⟩

theorem singleton_inv (h : Spells [k] u) : ∃ t : Token, u = [t] ∧ t.kind = k := by
  obtain ⟨t, v, rfl, is, -, none⟩ := h.cons_inv
  obtain rfl := none.eq_nil
  exact ⟨t, rfl, is⟩

theorem pair_inv {j : Kind} (h : Spells [j, k] u) :
    ∃ s t : Token, u = [s, t] ∧ s.kind = j ∧ t.kind = k := by
  obtain ⟨s, v, rfl, first, -, rest⟩ := h.cons_inv
  obtain ⟨t, rfl, second⟩ := rest.singleton_inv
  exact ⟨s, t, rfl, first, second⟩

end Spells

/-- Whether every one of the kinds has a way to write it. -/
def plain (ks : List Kind) : Bool :=
  ks.all fun k => k.sample?.isSome

/-- The tokens can be completed to some that satisfy `P`. -/
def Viable (P : List Token → Prop) (w : List Token) : Prop :=
  ∃ ks, plain ks = true ∧ ∀ u, Spells ks u → P (w ++ u)

namespace Viable

variable {P Q : List Token → Prop} {v w : List Token}

/-- What is complete needs nothing more. -/
theorem of_complete (h : P w) : Viable P w := by
  refine ⟨[], rfl, fun u none => ?_⟩
  rw [none.eq_nil, List.append_nil]
  exact h

/-- A completion to `P` and then one from `P` to `Q`. -/
theorem extend (h : Viable P w) (ks : List Kind) (isPlain : plain ks = true)
    (finish : ∀ v u, P v → Spells ks u → Q (v ++ u)) : Viable Q w := by
  obtain ⟨ls, isPlain', complete⟩ := h
  refine ⟨ls ++ ks, ?_, fun u spells => ?_⟩
  · rw [plain, List.all_append, Bool.and_eq_true]
    exact ⟨isPlain', isPlain⟩
  · obtain ⟨u₁, u₂, rfl, first, second⟩ := spells.append_inv
    rw [← List.append_assoc]
    exact finish _ _ (complete u₁ first) second

theorem mono (h : Viable P w) (le : ∀ v, P v → Q v) : Viable Q w := by
  obtain ⟨ks, isPlain, complete⟩ := h
  exact ⟨ks, isPlain, fun u spells => le _ (complete u spells)⟩

/-- Tokens in front of a completion. -/
theorem after (h : Viable (fun u => Q (v ++ u)) w) : Viable Q (v ++ w) := by
  obtain ⟨ks, isPlain, complete⟩ := h
  refine ⟨ks, isPlain, fun u spells => ?_⟩
  rw [List.append_assoc]
  exact complete u spells

end Viable

/-- A token that is taken before it is judged and that the judgment refuses: one that cannot be
written out, or a size that fits no machine word. -/
def Token.Unfit (t : Token) : Prop :=
  (t.kind ≠ .ident ∧ Parser.literal? t = none) ∨ Parser.arraySize? t.text = none

/-- What an error says of the readings ahead, where tokens that satisfy `P` were due. -/
def Stops (ahead : List (Except LexError Token)) (P : List Token → Prop) : ParseError → Prop
  | .lexical e => ∃ w : List Token, ahead = w.map .ok ++ [.error e] ∧
      (Viable P w ∨ ∃ v t, w = v ++ [t] ∧ t.Unfit ∧ Viable P v)
  | .grammatical e => (∀ t, e ≠ .exhausted t) ∧ ∃ (w : List Token) (r : List (Except LexError Token)),
      ahead = w.map .ok ++ .ok e.token :: r ∧ Viable P w

/-- An error after the tokens `v`. -/
theorem Stops.after {c c₁ : Cursor} {P Q : List Token → Prop} {x : ParseError} {v : List Token}
    (h : Stops c₁.ahead P x) (took : c.Took v c₁) (carry : ∀ w, Viable P w → Viable Q (v ++ w)) :
    Stops c.ahead Q x := by
  cases x with
  | lexical e =>
    obtain ⟨w, ahead, state⟩ := h
    refine ⟨v ++ w, by rw [took, ahead, List.map_append, List.append_assoc], ?_⟩
    obtain viable | ⟨u, t, rfl, unfit, viable⟩ := state
    · exact .inl (carry w viable)
    · exact .inr ⟨v ++ u, t, (List.append_assoc ..).symm, unfit, carry u viable⟩
  | grammatical e =>
    obtain ⟨bounded, w, r, ahead, viable⟩ := h
    refine ⟨bounded, v ++ w, r, ?_, carry w viable⟩
    rw [took, ahead, List.map_append, List.append_assoc]

theorem Stops.mono {c : Cursor} {P Q : List Token → Prop} {x : ParseError} (h : Stops c.ahead P x)
    (carry : ∀ w, Viable P w → Viable Q w) : Stops c.ahead Q x :=
  h.after (.refl c) carry

/-- What a cursor has ahead after it took tokens. -/
theorem Cursor.Took.length {c c' : Cursor} {w : List Token} (h : c.Took w c') :
    c.ahead.length = w.length + c'.ahead.length := by
  rw [h, List.length_append, List.length_map]

theorem Cursor.Took.length_le {c c' : Cursor} {w : List Token} (h : c.Took w c') :
    c'.ahead.length ≤ c.ahead.length := by
  have := h.length
  omega

theorem Cursor.Took.length_lt {c c' : Cursor} {w : List Token} (h : c.Took w c') (some : w ≠ []) :
    c'.ahead.length < c.ahead.length := by
  have := h.length
  have := List.length_pos_iff.2 some
  omega

theorem Cursor.length_ahead_pos (c : Cursor) : 0 < c.ahead.length := by
  rw [Cursor.ahead]
  exact Nat.succ_pos _

/-- Some tree has the tokens. -/
def Derives.Any {α : Type} (P : List Token → α → Prop) (w : List Token) : Prop :=
  ∃ a, P w a

namespace Parser

open Derives

variable {α β : Type} {c c' : Cursor} {p : Parser α} {f : α → Parser β} {x : ParseError}
  {P Q : List Token → Prop}

/-- Errors of `p` at the cursor stop where tokens that satisfy `P` were due. -/
def Refuses (p : Parser α) (P : List Token → Prop) (c : Cursor) : Prop :=
  ∀ x c', p c = .error x c' → Stops c.ahead P x

theorem bind_eq_error : (p >>= f) c = .error x c' ↔
    p c = .error x c' ∨ ∃ a c₁, p c = .ok a c₁ ∧ f a c₁ = .error x c' := by
  change EStateM.bind p f c = .error x c' ↔ _
  cases run : p c with
  | ok a c₁ => simp [EStateM.bind, run, and_assoc]
  | error e c₁ => simp [EStateM.bind, run]

theorem Refuses.mono (h : Refuses p P c) (le : ∀ w, P w → Q w) : Refuses p Q c :=
  fun x c' run => (h x c' run).mono fun _ viable => viable.mono le

theorem refuses_pure (a : α) : Refuses (pure a) P c := by
  intro x c' run
  change EStateM.Result.ok a c = .error x c' at run
  nomatch run

/-- A token is refused where the kinds `ks` could stand. -/
theorem refuses_fail (what : Expectation) (ks : List Kind) (isPlain : plain ks = true)
    (finish : ∀ u, Spells ks u → P u) : Refuses (fail what : Parser α) P c := by
  intro x c' run
  obtain rfl : .grammatical (.expected what c.current) = x := by
    injection run
  exact ⟨nofun, [], _, rfl, ks, isPlain, finish⟩

/-- A value made of the one that is given. -/
theorem Refuses.map {g : α → β} (h : Refuses p P c) : Refuses (p >>= fun a => pure (g a)) P c := by
  intro x c' run
  obtain run | ⟨a, c₁, -, run⟩ := bind_eq_error.1 run
  · exact h x c' run
  · exact absurd run nofun

/-- A phrase that lacks one more token. -/
theorem Refuses.before (h : Refuses p P c) (kind : Kind) (isPlain : plain [kind] = true)
    (finish : ∀ v (t : Token), P v → t.kind = kind → Q (v ++ [t])) : Refuses p Q c := by
  refine fun x c' run => (h x c' run).mono fun _ viable => viable.extend [kind] isPlain ?_
  intro v u derived spells
  obtain ⟨t, rfl, is⟩ := spells.singleton_inv
  exact finish v t derived is

/-- One parser and then another. If the first stops, what it lacks and the kinds `ks` make the
phrase complete. -/
theorem Refuses.bind (first : Refuses p P c) (ks : List Kind) (isPlain : plain ks = true)
    (finish : ∀ v u, P v → Spells ks u → Q (v ++ u))
    (rest : ∀ a c₁, p c = .ok a c₁ → ∃ v, c.Took v c₁ ∧ Refuses (f a) (fun u => Q (v ++ u)) c₁) :
    Refuses (p >>= f) Q c := by
  intro x c' run
  obtain run₁ | ⟨a, c₁, run₁, run₂⟩ := bind_eq_error.1 run
  · exact (first x c' run₁).mono fun _ viable => viable.extend ks isPlain finish
  · obtain ⟨v, took, second⟩ := rest a c₁ run₁
    exact (second x c' run₂).after took fun _ viable => viable.after

/-- One parser and then another, where the first makes the phrase complete. -/
theorem Refuses.bind_complete (first : Refuses p P c) (finish : ∀ v, P v → Q v)
    (rest : ∀ a c₁, p c = .ok a c₁ → ∃ v, c.Took v c₁ ∧ Refuses (f a) (fun u => Q (v ++ u)) c₁) :
    Refuses (p >>= f) Q c := by
  refine first.bind [] rfl (fun v u derived none => ?_) rest
  rw [none.eq_nil, List.append_nil]
  exact finish v derived

/-- Taking a token fails only at a lexical error behind it. -/
theorem advance_eq_error (h : advance c = .error x c') :
    c.current.kind ≠ .endOfInput ∧ ∃ e, x = .lexical e ∧ c.ahead = [.ok c.current, .error e] := by
  rw [advance, get_bind] at h
  split at h
  next => cases h
  next more =>
    have stream := c.lexer.significantItems_eq
    rcases hs : c.lexer.significant with ⟨e | t, l⟩
    · rw [hs] at h stream
      obtain rfl : .lexical e = x := by
        injection h
      exact ⟨more, e, rfl, by simp [Cursor.ahead, more, stream]⟩
    · rw [hs] at h
      cases h

theorem refuses_advance : Refuses advance (· = [c.current]) c := by
  intro x c' run
  obtain ⟨-, e, rfl, ahead⟩ := advance_eq_error run
  exact ⟨[c.current], ahead, .inl (.of_complete rfl)⟩

theorem refuses_expect {kind : Kind} (place : Place) (isPlain : plain [kind] = true) :
    Refuses (expect kind place) (fun w => ∃ t : Token, w = [t] ∧ t.kind = kind) c := by
  intro x c' run
  rw [expect, peek_bind] at run
  split at run
  next due =>
    refine (refuses_advance.mono ?_) x c' run
    rintro _ rfl
    exact ⟨c.current, rfl, due⟩
  next => exact refuses_fail _ [kind] isPlain (fun _ => Spells.singleton_inv) x c' run

theorem refuses_accept {kind : Kind} :
    Refuses (accept kind) (fun w => ∃ t : Token, w = [t] ∧ t.kind = kind) c := by
  intro x c' run
  rw [accept, peek_bind] at run
  split at run
  next due =>
    refine (refuses_advance.map.mono ?_) x c' run
    rintro _ rfl
    exact ⟨c.current, rfl, due⟩
  next => exact refuses_pure false x c' run

/-- Taking the current token and then another parser. -/
theorem Refuses.advance_bind {f : Token → Parser β} (more : c.current.kind ≠ .endOfInput)
    (ks : List Kind) (isPlain : plain ks = true) (finish : ∀ u, Spells ks u → Q (c.current :: u))
    (rest : ∀ c₁, c.Took [c.current] c₁ →
      Refuses (f c.current) (fun u => Q (c.current :: u)) c₁) : Refuses (advance >>= f) Q c := by
  refine refuses_advance.bind ks isPlain ?_ fun t c₁ run => ?_
  · rintro _ u rfl spells
    exact finish u spells
  · obtain ⟨rfl, took⟩ := advance_eq_ok run
    exact ⟨[c.current], took more, rest c₁ (took more)⟩

/-- Taking the current token, which completes the phrase. -/
theorem Refuses.advance_pure {g : Token → β} (more : c.current.kind ≠ .endOfInput)
    (finish : Q [c.current]) : Refuses (advance >>= fun t => pure (g t)) Q c := by
  refine .advance_bind more [] rfl (fun u none => ?_) fun _ _ => refuses_pure _
  rw [none.eq_nil]
  exact finish

/-- Taking a token that is due and then another parser. -/
theorem Refuses.expect_bind {f : Token → Parser β} {kind : Kind} {place : Place}
    (isPlain : plain [kind] = true) (more : kind ≠ .endOfInput) (ks : List Kind)
    (isPlain' : plain ks = true)
    (finish : ∀ (t : Token) u, t.kind = kind → Spells ks u → Q (t :: u))
    (rest : ∀ (t : Token) c₁, t.kind = kind → c.Took [t] c₁ →
      Refuses (f t) (fun u => Q (t :: u)) c₁) : Refuses (expect kind place >>= f) Q c := by
  refine (refuses_expect place isPlain).bind ks isPlain' ?_ fun t c₁ run => ?_
  · rintro _ u ⟨t, rfl, due⟩ spells
    exact finish t u due spells
  · obtain ⟨due, took⟩ := expect_eq_ok run more
    exact ⟨[t], took, rest t c₁ due took⟩

/-- Taking a token that is due and completes the phrase. -/
theorem Refuses.expect_pure {g : Token → β} {kind : Kind} {place : Place}
    (isPlain : plain [kind] = true) (finish : ∀ t : Token, t.kind = kind → Q [t]) :
    Refuses (expect kind place >>= fun t => pure (g t)) Q c := by
  refine (refuses_expect place isPlain).map.mono ?_
  rintro _ ⟨t, rfl, due⟩
  exact finish t due

/-- A phrase and the token that closes it. -/
theorem Refuses.close {g : α → Token → β} {kind : Kind} {place : Place} (first : Refuses p P c)
    (gives : ∀ a c₁, p c = .ok a c₁ → ∃ v, c.Took v c₁ ∧ P v) (isPlain : plain [kind] = true)
    (finish : ∀ v (t : Token), P v → t.kind = kind → Q (v ++ [t])) :
    Refuses (p >>= fun a => expect kind place >>= fun t => pure (g a t)) Q c := by
  refine first.bind [kind] isPlain ?_ fun a c₁ run => ?_
  · intro v u derived spells
    obtain ⟨t, rfl, closes⟩ := spells.singleton_inv
    exact finish v t derived closes
  · obtain ⟨v, took, derived⟩ := gives a c₁ run
    exact ⟨v, took, .expect_pure isPlain fun t => finish v t derived⟩

/-- A value that is given stands for the tokens taken. -/
theorem Gives.any {R : List Token → α → Prop} (h : Gives p R) (c : Cursor) (a : α) (c₁ : Cursor)
    (run : p c = .ok a c₁) : ∃ v, c.Took v c₁ ∧ Any R v := by
  obtain ⟨v, took, derived⟩ := h c a c₁ run
  exact ⟨v, took, a, derived⟩

/-- The bound of the cursor. -/
theorem Refuses.bound {f : Nat → Parser α} (h : Refuses (f c.bound) P c) :
    Refuses (get >>= fun c => f c.bound) P c := by
  intro x c' run
  rw [get_bind] at run
  exact h x c' run

/-! Lists of items. -/

section Lists

variable {item : Parser α} {R : List Token → α → Prop} {n : Nat}

theorem refuses_separatedWithin {sep : Kind} (ks : List Kind) (isPlain : plain ks = true)
    (sample : ∀ u, Spells ks u → Any R u) (more : sep ≠ .endOfInput) (gives : Gives item R)
    (each : ∀ c₁, c₁.ahead.length ≤ c.ahead.length → Refuses item (Any R) c₁)
    (enough : c.ahead.length ≤ n) :
    Refuses (separatedWithin sep item n) (fun w => ∃ items : List (List Token × α),
      Separated sep (items.map Prod.fst) w ∧ ∀ x ∈ items, R x.1 x.2) c := by
  induction n generalizing c with
  | zero =>
    have := c.length_ahead_pos
    omega
  | succ n ih =>
    rw [separatedWithin]
    refine (each c (Nat.le_refl _)).bind_complete ?_ fun a c₁ run₁ => ?_
    · rintro v ⟨a, first⟩
      exact ⟨[(v, a)], .single v, by simpa using first⟩
    obtain ⟨v, took₁, first⟩ := gives c a c₁ run₁
    refine ⟨v, took₁, refuses_accept.bind ks isPlain ?_ fun taken c₂ run₂ => ?_⟩
    · rintro _ u ⟨t, rfl, isSep⟩ spells
      obtain ⟨b, second⟩ := sample u spells
      exact ⟨[(v, a), (u, b)], .cons isSep (.single u), by simpa using ⟨first, second⟩⟩
    obtain ⟨rfl, t, isSep, took₂⟩ | ⟨rfl, rfl, -⟩ := accept_eq_ok run₂ more
    · have shorter := took₁.length_le
      have shorter' := took₂.length_lt (by simp)
      have tail := ih (c := c₂) (fun c₃ le => each c₃ (by omega)) (by omega)
      refine ⟨[t], took₂, tail.map.mono ?_⟩
      rintro w ⟨items, joined, rest⟩
      exact ⟨(v, a) :: items, .cons isSep joined, by simpa using ⟨first, fun x y => rest (x, y)⟩⟩
    · exact ⟨[], .refl c₁, refuses_pure _⟩

theorem refuses_separated (sep : Kind) (ks : List Kind) (isPlain : plain ks = true)
    (sample : ∀ u, Spells ks u → Any R u) (more : sep ≠ .endOfInput) (gives : Gives item R)
    (each : ∀ c₁, c₁.ahead.length ≤ c.ahead.length → Refuses item (Any R) c₁) :
    Refuses (separated sep item) (fun w => ∃ items : List (List Token × α),
      Separated sep (items.map Prod.fst) w ∧ ∀ x ∈ items, R x.1 x.2) c := by
  have enough := c.length_ahead_lt_bound
  exact .bound (refuses_separatedWithin ks isPlain sample more gives each (by omega))

theorem refuses_listedWithin {stop : Kind} (gives : Gives item R)
    (each : ∀ c₁, c₁.ahead.length ≤ c.ahead.length → Refuses item (Any R) c₁)
    (enough : c.ahead.length ≤ n) :
    Refuses (listedWithin stop item n) (fun w => ∃ items : List (List Token × α),
      Listed (items.map Prod.fst) w ∧ ∀ x ∈ items, R x.1 x.2) c := by
  induction n generalizing c with
  | zero =>
    have := c.length_ahead_pos
    omega
  | succ n ih =>
    intro x c' run
    rw [listedWithin, Parser.peek_bind] at run
    split at run
    next => exact refuses_pure [] x c' run
    next =>
      refine Refuses.bind_complete (each c (Nat.le_refl _)) ?_ ?_ x c' run
      · rintro v ⟨a, first⟩
        exact ⟨[(v, a)], .last v, by simpa using first⟩
      intro a c₁ run₁
      obtain ⟨v, took₁, first⟩ := gives c a c₁ run₁
      refine ⟨v, took₁, refuses_accept.bind_complete ?_ fun taken c₂ run₂ => ?_⟩
      · rintro _ ⟨t, rfl, isSep⟩
        exact ⟨[(v, a)], .cons isSep .nil, by simpa using first⟩
      obtain ⟨rfl, t, isSep, took₂⟩ | ⟨rfl, rfl, -⟩ := accept_eq_ok run₂ (by decide)
      · have shorter := took₁.length_le
        have shorter' := took₂.length_lt (by simp)
        have tail := ih (c := c₂) (fun c₃ le => each c₃ (by omega)) (by omega)
        refine ⟨[t], took₂, tail.map.mono ?_⟩
        rintro w ⟨items, joined, rest⟩
        exact ⟨(v, a) :: items, .cons isSep joined, by simpa using ⟨first, fun x y => rest (x, y)⟩⟩
      · exact ⟨[], .refl c₁, refuses_pure _⟩

theorem refuses_listed {stop : Kind} (gives : Gives item R)
    (each : ∀ c₁, c₁.ahead.length ≤ c.ahead.length → Refuses item (Any R) c₁) :
    Refuses (listed stop item) (fun w => ∃ items : List (List Token × α),
      Listed (items.map Prod.fst) w ∧ ∀ x ∈ items, R x.1 x.2) c := by
  have enough := c.length_ahead_lt_bound
  exact .bound (refuses_listedWithin gives each (by omega))

/-- Items that take a token each leave the bound large enough. -/
theorem refuses_manyWithin {stop : Kind → Bool}
    (gives : ∀ c a c', stop c.current.kind = false → item c = .ok a c' →
      ∃ w, c.Took w c' ∧ R w a) (nonempty : ∀ w a, R w a → w ≠ [])
    (each : ∀ c₁, c₁.ahead.length ≤ c.ahead.length → stop c₁.current.kind = false →
      Refuses item (Any R) c₁) (enough : c.ahead.length ≤ n) :
    Refuses (manyWithin stop item n) (fun w => ∃ items : List (List Token × α),
      w = concat items ∧ ∀ x ∈ items, R x.1 x.2) c := by
  induction n generalizing c with
  | zero =>
    have := c.length_ahead_pos
    omega
  | succ n ih =>
    intro x c' run
    rw [manyWithin, Parser.peek_bind] at run
    split at run
    next => exact refuses_pure [] x c' run
    next go =>
      have go := Bool.eq_false_iff.2 go
      refine Refuses.bind_complete (each c (Nat.le_refl _) go) ?_ ?_ x c' run
      · rintro v ⟨a, first⟩
        exact ⟨[(v, a)], by simp [concat], by simpa using first⟩
      intro a c₁ run₁
      obtain ⟨v, took₁, first⟩ := gives c a c₁ go run₁
      have shorter := took₁.length_lt (nonempty v a first)
      have tail := ih (c := c₁) (fun c₂ le => each c₂ (by omega)) (by omega)
      refine ⟨v, took₁, tail.map.mono ?_⟩
      rintro _ ⟨items, rfl, rest⟩
      exact ⟨(v, a) :: items, rfl, by simpa using ⟨first, fun x y => rest (x, y)⟩⟩

theorem refuses_many (stop : Kind → Bool)
    (gives : ∀ c a c', stop c.current.kind = false → item c = .ok a c' →
      ∃ w, c.Took w c' ∧ R w a) (nonempty : ∀ w a, R w a → w ≠ [])
    (each : ∀ c₁, c₁.ahead.length ≤ c.ahead.length → stop c₁.current.kind = false →
      Refuses item (Any R) c₁) :
    Refuses (many stop item) (fun w => ∃ items : List (List Token × α),
      w = concat items ∧ ∀ x ∈ items, R x.1 x.2) c := by
  have enough := c.length_ahead_lt_bound
  exact .bound (refuses_manyWithin gives nonempty each (by omega))

end Lists

end Parser

end Pascalize
