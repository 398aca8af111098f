import Pascalize.Proofs.Relocation
import Pascalize.Proofs.StatementRefusals

/-!
# What a rule reads decides what it does

Two runs of a rule, at cursors whose next readings agree but for their locations. `Local g p q` is
the judgment: as long as `p` stays within the readings that agree, `q` does the same, and the values
they give are the same under `g`. A rule that refuses a token has looked no further than that token,
or, where it is late (`SyntaxError.Late`), at the one reading behind it; so `q` fails as well,
whatever comes later.

The bounds of the two runs may differ. Where `q` uses its bound up, nothing is said.
-/

namespace Pascalize

/-- A token without its location. -/
def Token.content (t : Token) : Kind × String :=
  (t.kind, t.text)

/-- A reading without its location. -/
def Lexer.content : Except LexError Token → Except Fault (Kind × String)
  | .ok t => .ok t.content
  | .error e => .error e.fault

@[simp] theorem Lexer.content_ok (t : Token) : content (.ok t) = .ok t.content := rfl

@[simp] theorem Lexer.content_error (e : LexError) : content (.error e) = .error e.fault := rfl

theorem Token.kind_eq {t t' : Token} (h : t.content = t'.content) : t.kind = t'.kind :=
  congrArg Prod.fst h

theorem Token.text_eq {t t' : Token} (h : t.content = t'.content) : t.text = t'.text :=
  congrArg Prod.snd h

theorem Token.describe_eq {t t' : Token} (h : t.content = t'.content) : t.describe = t'.describe := by
  rw [describe, describe, kind_eq h, text_eq h]

/-- A tree without its locations. -/
def Node.placeless (node : Node) : Node :=
  node.relocate fun _ => .start

theorem Node.relocateAll_of_placeless {nodes nodes' : List Node}
    (h : nodes.map placeless = nodes'.map placeless) :
    relocateAll (fun _ => .start) nodes = relocateAll (fun _ => .start) nodes' := by
  rw [relocateAll_eq_map, relocateAll_eq_map]
  exact h

/-- A type without its location. -/
def TypeName.placeless (type : TypeName) : TypeName :=
  type.relocate fun _ => .start

/-- A declaration without its locations. -/
def Declaration.placeless (decl : Declaration) : Declaration :=
  decl.relocate fun _ => .start

/-- A program without its locations. -/
def Program.placeless (program : Program) : Program :=
  program.relocate fun _ => .start

/-- An error for a token that is taken before it is judged, so that the reading behind it has to be
there first. -/
def SyntaxError.Late (e : SyntaxError) : Prop :=
  e = .expected .outputItem e.token ∨ e = .arraySize e.token

/-- The next `n` readings of two cursors agree but for their locations. -/
def Agree (n : Nat) (c d : Cursor) : Prop :=
  (c.ahead.take n).map Lexer.content = (d.ahead.take n).map Lexer.content

namespace Agree

variable {n : Nat} {c d c₁ d₁ : Cursor}

theorem zero (c d : Cursor) : Agree 0 c d := by simp [Agree]

theorem current (h : Agree n c d) (pos : 0 < n) : c.current.content = d.current.content := by
  obtain ⟨n, rfl⟩ : ∃ k, n = k + 1 := ⟨n - 1, by omega⟩
  simp only [Agree, Cursor.ahead, List.take_succ_cons, List.map_cons, List.cons.injEq,
    Lexer.content_ok, Except.ok.injEq] at h
  exact h.1

/-- The readings behind as many tokens. -/
theorem after {v v' : List Token} (h : Agree n c d) (took : c.Took v c₁) (took' : d.Took v' d₁)
    (len : v'.length = v.length) : Agree (n - v.length) c₁ d₁ := by
  rw [Agree, took, took', List.take_append, List.take_append, List.map_append, List.map_append,
    List.length_map, List.length_map, len] at h
  exact (List.append_inj h (by simp [len])).2

/-- The reading behind the current token. -/
theorem second (h : Agree n c d) (lt : 1 < n) {x y : Except LexError Token}
    {r s : List (Except LexError Token)} (hc : c.ahead = .ok c.current :: x :: r)
    (hd : d.ahead = .ok d.current :: y :: s) : Lexer.content x = Lexer.content y := by
  obtain ⟨n, rfl⟩ : ∃ k, n = k + 2 := ⟨n - 2, by omega⟩
  rw [Agree, hc, hd] at h
  simp only [List.take_succ_cons, List.map_cons, List.cons.injEq] at h
  exact h.2.1

end Agree

namespace Parser

variable {α β γ δ : Type} {g : α → γ} {n : Nat} {c d c₁ d₁ : Cursor}

/-- A run that used its bound up. -/
def Spent (y : EStateM.Result ParseError Cursor α) : Prop :=
  ∃ t d', y = .error (.grammatical (.exhausted t)) d'

/-- The run `y` from `d` goes as the run `x` from `c`, as far as `x` stays within `n` readings. -/
def Follows (g : α → γ) (n : Nat) (c d : Cursor) (x y : EStateM.Result ParseError Cursor α) : Prop :=
  match x with
  | .ok a c' => ∃ w, c.Took w c' ∧ (w.length < n → Spent y ∨
      ∃ b d' v, y = .ok b d' ∧ g a = g b ∧ d.Took v d' ∧ v.length = w.length)
  | .error (.lexical e) _ => ∃ w : List Token, c.ahead = w.map .ok ++ [.error e] ∧
      (w.length < n → Spent y ∨ ∃ e' d', y = .error (.lexical e') d' ∧ e'.fault = e.fault)
  | .error (.grammatical e) _ => (∃ t, e = .exhausted t) ∨
      ∃ (w : List Token) (r : List (Except LexError Token)), c.ahead = w.map .ok ++ .ok e.token :: r ∧
        (w.length < n → ∃ x' d', y = .error x' d' ∧ ((e.Late → w.length + 1 < n) → Spent y ∨
          ∃ e', x' = .grammatical e' ∧ e'.detail = e.detail))

/-- What `p` does at one cursor, `q` does at a cursor that agrees. -/
def Local (g : α → γ) (p q : Parser α) : Prop :=
  ∀ n c d, Agree n c d → Follows g n c d (p c) (q d)

/-- Where nothing is known of the other run, or it used its bound up, there is nothing to follow. -/
theorem Follows.weaken {v : List Token} {x y y' : EStateM.Result ParseError Cursor α}
    (h : Follows g 0 c₁ d₁ x y') (took : c.Took v c₁) (why : n ≤ v.length ∨ Spent y) :
    Follows g n c d x y := by
  match x, h with
  | .ok a c', h =>
    obtain ⟨w, took₁, -⟩ := h
    refine ⟨v ++ w, took.trans took₁, fun lt => ?_⟩
    rw [List.length_append] at lt
    exact .inl (why.resolve_left (by omega))
  | .error (.lexical e) c', h =>
    obtain ⟨w, ahead, -⟩ := h
    refine ⟨v ++ w, by rw [took, ahead, List.map_append, List.append_assoc], fun lt => ?_⟩
    rw [List.length_append] at lt
    exact .inl (why.resolve_left (by omega))
  | .error (.grammatical e) c', h =>
    obtain spent | ⟨w, r, ahead, -⟩ := h
    · exact .inl spent
    · refine .inr ⟨v ++ w, r, by rw [took, ahead, List.map_append, List.append_assoc], fun lt => ?_⟩
      rw [List.length_append] at lt
      have spent := why.resolve_left (by omega)
      obtain ⟨t, d', same⟩ := id spent
      exact ⟨_, d', same, fun _ => .inl spent⟩

/-- Runs that follow after as many tokens on both sides. -/
theorem Follows.after {v v' : List Token} {x y : EStateM.Result ParseError Cursor α}
    (h : Follows g (n - v.length) c₁ d₁ x y) (took : c.Took v c₁) (took' : d.Took v' d₁)
    (len : v'.length = v.length) : Follows g n c d x y := by
  match x, h with
  | .ok a c', h =>
    obtain ⟨w, took₁, follows⟩ := h
    refine ⟨v ++ w, took.trans took₁, fun lt => ?_⟩
    rw [List.length_append] at lt
    obtain spent | ⟨b, d', u, run, same, took₁', len'⟩ := follows (by omega)
    · exact .inl spent
    · exact .inr ⟨b, d', v' ++ u, run, same, took'.trans took₁', by simp [len, len']⟩
  | .error (.lexical e) c', h =>
    obtain ⟨w, ahead, follows⟩ := h
    refine ⟨v ++ w, by rw [took, ahead, List.map_append, List.append_assoc], fun lt => ?_⟩
    rw [List.length_append] at lt
    exact follows (by omega)
  | .error (.grammatical e) c', h =>
    obtain spent | ⟨w, r, ahead, follows⟩ := h
    · exact .inl spent
    · refine .inr ⟨v ++ w, r, by rw [took, ahead, List.map_append, List.append_assoc], fun lt => ?_⟩
      rw [List.length_append] at lt ⊢
      obtain ⟨x', d', run, detail⟩ := follows (by omega)
      refine ⟨x', d', run, fun more => detail fun late => ?_⟩
      have := more late
      omega

theorem Spent.bind {q : Parser α} {f : α → Parser β} (h : Spent (q d)) : Spent ((q >>= f) d) := by
  obtain ⟨t, d', run⟩ := h
  exact ⟨t, d', bind_eq_error.2 (.inl run)⟩

/-- An error of the first rule is one of both. -/
theorem Follows.bind_error {g' : β → δ} {q : Parser α} {f' : α → Parser β} {x : ParseError}
    {c' : Cursor} (h : Follows g n c d (.error x c') (q d)) :
    Follows g' n c d (.error x c') ((q >>= f') d) := by
  cases x with
  | lexical e =>
    obtain ⟨w, ahead, other⟩ := h
    refine ⟨w, ahead, fun lt => ?_⟩
    obtain spent | ⟨e', d', run', same⟩ := other lt
    · exact .inl spent.bind
    · exact .inr ⟨e', d', bind_eq_error.2 (.inl run'), same⟩
  | grammatical e =>
    obtain spent | ⟨w, r, ahead, other⟩ := h
    · exact .inl spent
    · refine .inr ⟨w, r, ahead, fun lt => ?_⟩
      obtain ⟨x', d', run', detail⟩ := other lt
      exact ⟨x', d', bind_eq_error.2 (.inl run'), fun more => (detail more).imp_left Spent.bind⟩

/-- One rule and then another. -/
theorem Local.bind {g' : β → δ} {p q : Parser α} {f f' : α → Parser β} (first : Local g p q)
    (rest : ∀ a b, g a = g b → Local g' (f a) (f' b)) : Local g' (p >>= f) (q >>= f') := by
  intro n c d agree
  have follows := first n c d agree
  cases run : p c with
  | error x c' =>
    have whole : (p >>= f) c = .error x c' := bind_eq_error.2 (.inl run)
    rw [run] at follows
    rw [whole]
    exact follows.bind_error
  | ok a c₁ =>
    rw [run] at follows
    rw [bind_of_ok run]
    obtain ⟨v, took, other⟩ := follows
    -- the second rule against itself, which at least says where it stands
    have alone := rest a a rfl 0 c₁ c₁ (.zero c₁ c₁)
    by_cases short : v.length < n
    · obtain spent | ⟨b, d₁, v', run', same, took', len⟩ := other short
      · exact alone.weaken took (.inr spent.bind)
      · rw [bind_of_ok run']
        exact (rest a b same _ c₁ d₁ (agree.after took took' len)).after took took' len
    · exact alone.weaken took (.inl (by omega))

theorem local_pure {a b : α} (same : g a = g b) : Local g (pure a) (pure b) := by
  intro n c d _
  change Follows g n c d (.ok a c) (.ok b d)
  exact ⟨[], .refl c, fun _ => .inr ⟨b, d, [], rfl, same, .refl d, rfl⟩⟩

/-- Both refuse their current tokens, for the same reason. -/
theorem local_fail (what : Expectation) : Local g (fail what) (fail what) := by
  intro n c d agree
  change Follows g n c d (.error (.grammatical (.expected what c.current)) c)
    (.error (.grammatical (.expected what d.current)) d)
  have detail (pos : 0 < n) : (SyntaxError.expected what d.current).detail =
      (SyntaxError.expected what c.current).detail :=
    congrArg (fun found => what.text ++ ", found " ++ found)
      (Token.describe_eq (agree.current pos)).symm
  right
  exact ⟨[], _, rfl, fun pos => ⟨_, d, rfl, fun _ => .inr ⟨_, rfl, detail pos⟩⟩⟩

theorem local_exhausted {q : Parser α} : Local g exhausted q :=
  fun _ c _ _ => .inl ⟨c.current, rfl⟩

/-- A rule that goes as itself goes as one without any bound left. -/
theorem Local.exhausted {p : Parser α} (h : Local g p p) : Local g p exhausted :=
  fun _ c d _ => (h 0 c c (.zero c c)).weaken (.refl c) (.inr ⟨d.current, d, rfl⟩)

/-- Looking at the kind of the current token. -/
theorem Local.peek_bind {f f' : Kind → Parser α} (h : ∀ k, Local g (f k) (f' k)) :
    Local g (peek >>= f) (peek >>= f') := by
  intro n c d agree
  rw [Parser.peek_bind, Parser.peek_bind]
  by_cases pos : 0 < n
  · rw [← Token.kind_eq (agree.current pos)]
    exact h _ n c d agree
  · exact (h c.current.kind 0 c c (.zero c c)).weaken (.refl c) (.inl (by simpa using pos))

/-- Looking at the current token. -/
theorem Local.get_bind {f f' : Cursor → Parser α}
    (h : ∀ c d, c.current.content = d.current.content → Local g (f c) (f' d)) :
    Local g (get >>= f) (get >>= f') := by
  intro n c d agree
  rw [Parser.get_bind, Parser.get_bind]
  by_cases pos : 0 < n
  · exact h c d (agree.current pos) n c d agree
  · exact (h c c rfl 0 c c (.zero c c)).weaken (.refl c) (.inl (by simpa using pos))

/-- Taking the bound from the text. -/
theorem Local.bound {f f' : Nat → Parser α} (h : ∀ n m, Local g (f n) (f' m)) :
    Local g (get >>= fun c => f c.bound) (get >>= fun c => f' c.bound) := by
  intro n c d agree
  rw [Parser.get_bind, Parser.get_bind]
  exact h c.bound d.bound n c d agree

/-- Whether the next token can be taken is decided by the reading behind it. -/
theorem advance_cases (more : c.current.kind ≠ .endOfInput) :
    (∃ c', advance c = .ok c.current c' ∧ c.Took [c.current] c') ∨
      ∃ e c', advance c = .error (.lexical e) c' ∧ c.ahead = [.ok c.current, .error e] := by
  cases run : advance c with
  | ok t c' =>
    obtain ⟨rfl, took⟩ := advance_eq_ok run
    exact .inl ⟨c', rfl, took more⟩
  | error x c' =>
    obtain ⟨-, e, rfl, ahead⟩ := advance_eq_error run
    exact .inr ⟨e, c', rfl, ahead⟩

theorem advance_of_end (ends : c.current.kind = .endOfInput) : advance c = .ok c.current c := by
  rw [advance, Parser.get_bind, if_pos ends]
  rfl

theorem local_advance : Local Token.content advance advance := by
  intro n c d agree
  by_cases ends : c.current.kind = .endOfInput
  · rw [advance_of_end ends]
    refine ⟨[], .refl c, fun pos => .inr ⟨d.current, d, [], ?_, agree.current pos, .refl d, rfl⟩⟩
    exact advance_of_end (Token.kind_eq (agree.current pos) ▸ ends)
  · have more (pos : 0 < n) : d.current.kind ≠ .endOfInput :=
      Token.kind_eq (agree.current pos) ▸ ends
    obtain ⟨c', run, took⟩ | ⟨e, c', run, ahead⟩ := advance_cases ends
    · rw [run]
      refine ⟨[c.current], took, fun lt => .inr ?_⟩
      have lt : 1 < n := lt
      obtain ⟨d', run', took'⟩ | ⟨e, d', run', ahead'⟩ := advance_cases (more (by omega))
      · exact ⟨d.current, d', [d.current], run', agree.current (by omega), took', rfl⟩
      · nomatch agree.second lt took ahead'
    · rw [run]
      refine ⟨[c.current], ahead, fun lt => .inr ?_⟩
      have lt : 1 < n := lt
      obtain ⟨d', run', took'⟩ | ⟨e', d', run', ahead'⟩ := advance_cases (more (by omega))
      · nomatch agree.second lt ahead took'
      · exact ⟨e', d', run', (Except.error.inj (agree.second lt ahead ahead')).symm⟩

theorem local_expect (kind : Kind) (place : Place) :
    Local Token.content (expect kind place) (expect kind place) := by
  refine .peek_bind fun k => ?_
  split
  · exact local_advance
  · exact local_fail _

theorem local_accept (kind : Kind) : Local id (accept kind) (accept kind) := by
  refine .peek_bind fun k => ?_
  split
  · exact local_advance.bind fun _ _ _ => local_pure rfl
  · exact local_pure rfl

/-! A token that is taken before it is judged. -/

/-- What a verdict on a token comes to. -/
def judge : Except SyntaxError α → Parser α
  | .ok a => pure a
  | .error e => throw (.grammatical e)

/-- Tokens that differ in their locations only get the same verdict, and a verdict against a token
names it. -/
structure Judges (g : α → γ) (verdict : Token → Except SyntaxError α) : Prop where
  own : ∀ {t e}, verdict t = .error e → e.token = t
  accepted : ∀ {t t' a}, t.content = t'.content → verdict t = .ok a →
    ∃ b, verdict t' = .ok b ∧ g a = g b
  refused : ∀ {t t' e}, t.content = t'.content → verdict t = .error e →
    ∃ e', verdict t' = .error e' ∧ e'.detail = e.detail
  late : ∀ {t e}, verdict t = .error e → e.Late

/-- The reading behind the token may be a lexical error in one run and a token in the other. If the
verdict is against the token, both runs fail all the same. -/
theorem Judges.local_advance {verdict : Token → Except SyntaxError α} (h : Judges g verdict) :
    Local g (advance >>= fun t => judge (verdict t)) (advance >>= fun t => judge (verdict t)) := by
  intro n c d agree
  have follows := Parser.local_advance n c d agree
  cases run : advance c with
  | error x c' =>
    have whole : (advance >>= fun t => judge (verdict t)) c = .error x c' :=
      bind_eq_error.2 (.inl run)
    rw [run] at follows
    rw [whole]
    exact follows.bind_error
  | ok t c₁ =>
    obtain ⟨rfl, moved⟩ := advance_eq_ok run
    rw [run] at follows
    rw [bind_of_ok run]
    obtain ⟨w, took, other⟩ := follows
    have short : w.length ≤ 1 := by
      have length := took.length
      have pos := c₁.length_ahead_pos
      by_cases ends : c.current.kind = .endOfInput
      · rw [Cursor.ahead_of_end ends, List.length_singleton] at length
        omega
      · have length' := (moved ends).length
        rw [List.length_singleton] at length'
        omega
    cases judged : verdict c.current with
    | ok a =>
      refine ⟨w, took, fun lt => ?_⟩
      obtain spent | ⟨t', d', v, run', same, took', len⟩ := other lt
      · exact .inl spent.bind
      · obtain ⟨b, judged', values⟩ := h.accepted same judged
        exact .inr ⟨b, d', v, by rw [bind_of_ok run', judged']; rfl, values, took', len⟩
    | error e =>
      refine .inr ⟨[], _, by rw [h.own judged]; rfl, fun pos => ?_⟩
      obtain ⟨e', judged', detail⟩ := h.refused (agree.current pos) judged
      cases run' : advance d with
      | ok t' d₁ =>
        obtain ⟨rfl, -⟩ := advance_eq_ok run'
        exact ⟨_, d₁, by rw [bind_of_ok run', judged']; rfl, fun _ => .inr ⟨e', rfl, detail⟩⟩
      | error x d₁ =>
        refine ⟨x, d₁, bind_eq_error.2 (.inl run'), fun lt => ?_⟩
        have lt : 1 < n := lt (h.late judged)
        obtain spent | ⟨t', d', v, run'', -⟩ := other (by omega)
        · exact .inl spent.bind
        · nomatch run'.symm.trans run''

/-- Rules with a bound and an argument, if one call more on both sides goes on. -/
theorem local_within {ι κ : Type} (h : ι → κ) (p p' : Nat → ι → Parser α)
    (zero : ∀ i, p 0 i = exhausted) (zero' : ∀ i, p' 0 i = exhausted)
    (step : ∀ n m, (∀ i j, h i = h j → Local g (p n i) (p' m j)) →
      ∀ i j, h i = h j → Local g (p (n + 1) i) (p' (m + 1) j))
    (self : ∀ n, (∀ i j, h i = h j → Local g (p n i) (p n j)) →
      ∀ i j, h i = h j → Local g (p (n + 1) i) (p (n + 1) j))
    (n m : Nat) (i j : ι) (same : h i = h j) : Local g (p n i) (p' m j) := by
  have alone n : ∀ i j, h i = h j → Local g (p n i) (p n j) := by
    induction n with
    | zero =>
      intro i j _
      rw [zero]
      exact local_exhausted
    | succ n ih => exact self n ih
  induction n generalizing m i j with
  | zero =>
    rw [zero]
    exact local_exhausted
  | succ n ih =>
    cases m with
    | zero =>
      rw [zero']
      exact (alone (n + 1) i i rfl).exhausted
    | succ m => exact step n m (ih m) i j same

/-- Rules with a bound only. -/
theorem local_within_bound {p p' : Nat → Parser α} (zero : p 0 = exhausted)
    (zero' : p' 0 = exhausted)
    (step : ∀ n m, Local g (p n) (p' m) → Local g (p (n + 1)) (p' (m + 1)))
    (self : ∀ n, Local g (p n) (p n) → Local g (p (n + 1)) (p (n + 1))) (n m : Nat) :
    Local g (p n) (p' m) := by
  refine local_within id (fun n (_ : Unit) => p n) (fun n _ => p' n) (fun _ => zero) (fun _ => zero')
    ?_ ?_ n m () () rfl
  · exact fun n m rest _ _ _ => step n m (rest () () rfl)
  · exact fun n rest _ _ _ => self n (rest () () rfl)

/-! Lists of items. -/

section Lists

variable {item item' : Parser α}

/-- What comes after an item: a separator and more items, or nothing. -/
theorem local_more (sep : Kind) {a b : α} {q q' : Parser (List α)} (same : g a = g b)
    (rest : Local (List.map g) q q') : Local (List.map g)
      (accept sep >>= fun taken => if taken then q >>= fun as => pure (a :: as) else pure [a])
      (accept sep >>= fun taken => if taken then q' >>= fun as => pure (b :: as) else pure [b]) := by
  refine (local_accept sep).bind fun taken taken' both => ?_
  obtain rfl : taken = taken' := both
  split
  · exact rest.bind fun as bs all => local_pure (by simp [same, all])
  · exact local_pure (by simp [same])

theorem local_separated (sep : Kind) (each : Local g item item') (self : Local g item item) :
    Local (List.map g) (separated sep item) (separated sep item') := by
  refine .bound (local_within_bound rfl rfl ?_ ?_)
  · exact fun _ _ rest => each.bind fun _ _ same => local_more sep same rest
  · exact fun _ rest => self.bind fun _ _ same => local_more sep same rest

theorem local_listed (stop : Kind) (each : Local g item item') (self : Local g item item) :
    Local (List.map g) (listed stop item) (listed stop item') := by
  have step {p p' : Parser α} {q q' : Parser (List α)} (first : Local g p p')
      (rest : Local (List.map g) q q') : Local (List.map g)
        (peek >>= fun k => if k = stop then pure [] else p >>= fun a => accept .comma >>= fun taken =>
          if taken then q >>= fun as => pure (a :: as) else pure [a])
        (peek >>= fun k => if k = stop then pure [] else p' >>= fun a => accept .comma >>= fun taken =>
          if taken then q' >>= fun as => pure (a :: as) else pure [a]) := by
    refine .peek_bind fun k => ?_
    split
    · exact local_pure rfl
    · exact first.bind fun _ _ same => local_more .comma same rest
  exact .bound (local_within_bound rfl rfl (fun _ _ => step each) fun _ => step self)

theorem local_many (stop : Kind → Bool) (each : Local g item item') (self : Local g item item) :
    Local (List.map g) (many stop item) (many stop item') := by
  have step {p p' : Parser α} {q q' : Parser (List α)} (first : Local g p p')
      (rest : Local (List.map g) q q') : Local (List.map g)
        (peek >>= fun k => if stop k then pure [] else p >>= fun a => q >>= fun as => pure (a :: as))
        (peek >>= fun k => if stop k then pure [] else
          p' >>= fun a => q' >>= fun as => pure (a :: as)) := by
    refine .peek_bind fun k => ?_
    split
    · exact local_pure rfl
    · refine first.bind fun a b same => rest.bind fun as bs all => local_pure ?_
      simp [same, all]
  exact .bound (local_within_bound rfl rfl (fun _ _ => step each) fun _ => step self)

end Lists

end Parser

end Pascalize
