import Pascalize.Proofs.ParserLaws

/-!
# Reading expressions is deriving them

Precedence climbing against the layered grammar. In one direction (`Sound`) the loop over operators
keeps a left operand of a level that no operator ahead exceeds, so that the operator it meets always
fits on top. In the other (`Complete`) reading the tokens of an expression ends up in the middle of
the loop, with the expression as left operand: this is what an induction over left operands needs.
-/

namespace Pascalize

open Derives

theorem Operator.precedence_le (op : Operator) : op.precedence ≤ 5 := by
  cases op <;> decide

namespace Derives

/-- An expression of a level is one of every looser level. -/
theorem Operation.loosen {p q : Nat} {w : List Token} {e : Node} (h : Operation q w e)
    (le : p ≤ q) : Operation p w e := by
  induction le with
  | refl => exact h
  | step _ ih => exact ih (.lift h)

/-- The levels go from 1 to 7. -/
theorem Operation.level_le {p : Nat} {w : List Token} {e : Node} (h : Operation p w e) : p ≤ 7 := by
  induction h with
  | lift _ ih => omega
  | @binary _ _ _ _ _ _ op _ _ level _ _ _ =>
    have := op.precedence_le
    omega
  | _ => omega

/-- The kinds that an expression can start with. -/
def startsExpression : Kind → Bool
  | .minus | .kwNot | .stringLiteral | .intLiteral | .floatLiteral | .ident | .openParen => true
  | _ => false

theorem kind_of_literal {t : Token} {e : Node} (h : Parser.literal? t = some e) :
    t.kind = .stringLiteral ∨ t.kind = .intLiteral ∨ t.kind = .floatLiteral := by
  simp only [Parser.literal?] at h
  split at h
  next is => exact .inl is
  next is => exact .inr (.inl is)
  next is => exact .inr (.inr is)
  next => nomatch h

/-- What an expression begins with is a literal, a name, a sign or a parenthesis. -/
theorem Operation.begins {p : Nat} {w : List Token} {e : Node} (h : Operation p w e) :
    ∃ t u, w = t :: u ∧ startsExpression t.kind = true := by
  induction h with
  | lift _ ih => exact ih
  | binary _ _ _ _ ih _ =>
    obtain ⟨t, u, rfl, starts⟩ := ih
    exact ⟨t, _, rfl, starts⟩
  | negation is => exact ⟨_, _, rfl, by rw [is]; rfl⟩
  | complement is => exact ⟨_, _, rfl, by rw [is]; rfl⟩
  | literal is =>
    refine ⟨_, _, rfl, ?_⟩
    obtain is | is | is := kind_of_literal is <;> rw [is] <;> rfl
  | var is => exact ⟨_, _, rfl, by rw [is]; rfl⟩
  | call is => exact ⟨_, _, rfl, by rw [is]; rfl⟩
  | index is => exact ⟨_, _, rfl, by rw [is]; rfl⟩
  | group is => exact ⟨_, _, rfl, by rw [is]; rfl⟩

theorem Operation.ne_nil {p : Nat} {w : List Token} {e : Node} (h : Operation p w e) : w ≠ [] := by
  obtain ⟨t, u, rfl, -⟩ := h.begins
  simp

end Derives

namespace Parser

variable {c c' : Cursor} {e : Node} {v w : List Token} {p n : Nat}

/-- The kinds that may follow the tokens of an operand: a parenthesis or bracket would extend a name. -/
def endsOperand (w : List Token) (k : Kind) : Prop :=
  (∃ t ∈ w.getLast?, t.kind = .ident) → k ≠ .openParen ∧ k ≠ .openBracket

/-- The kinds that may follow the tokens of an expression of a level: no operator of that level or a
tighter. -/
def endsOperation (w : List Token) (p : Nat) (k : Kind) : Prop :=
  endsOperand w k ∧ ∀ op, Operator.ofKind? k = some op → op.precedence < p

/-- The kinds that may follow an expression. -/
def endsExpression (k : Kind) : Bool :=
  (Operator.ofKind? k).isNone && k ≠ .openParen && k ≠ .openBracket

/-- What ends an expression ends operations of any level. -/
theorem endsOperation_of_endsExpression {k : Kind} (h : endsExpression k = true) :
    endsOperation w p k := by
  simp only [endsExpression, Bool.and_eq_true, Option.isNone_iff_eq_none, decide_eq_true_eq] at h
  refine ⟨fun _ => ⟨h.1.2, h.2⟩, fun op is => ?_⟩
  rw [h.1.1] at is
  nomatch is

/-- An operator opens neither arguments nor an index. -/
theorem endsOperand_of_operator {k : Kind} {op : Operator} (h : Operator.ofKind? k = some op) :
    endsOperand w k := by
  intro _
  constructor <;> rintro rfl <;> nomatch h

/-- What may follow an operand is decided by its last token. -/
theorem endsOperand_append (v : List Token) (nonempty : w ≠ []) {k : Kind} :
    endsOperand (v ++ w) k ↔ endsOperand w k := by
  rw [endsOperand, List.getLast?_append, Option.or_of_isSome (List.getLast?_isSome.2 nonempty),
    ← endsOperand]

/-- Only a name can go on with arguments or an index. -/
theorem endsOperand_concat (v : List Token) {t : Token} (other : t.kind ≠ .ident) (k : Kind) :
    endsOperand (v ++ [t]) k := by
  rintro ⟨t', last, isName⟩
  rw [List.getLast?_concat, Option.mem_some_iff] at last
  exact absurd (last ▸ isName) other

/-! From runs to derivations. -/

theorem gives_arguments {item : Parser Node} (each : Gives item Expression) :
    ∀ c args c', arguments item c = .ok args c' → ∃ opening closing : Token, ∃ w,
      c.Took (opening :: (w ++ [closing])) c' ∧ opening.kind = .openParen ∧
        closing.kind = .closeParen ∧ Expressions w args := by
  intro c args c' h
  obtain ⟨opening, c₁, run₁, h⟩ := bind_eq_ok.1 h
  obtain ⟨args', c₂, run₂, h⟩ := bind_eq_ok.1 h
  obtain ⟨closing, c₃, run₃, h⟩ := bind_eq_ok.1 h
  obtain ⟨rfl, rfl⟩ := pure_eq_ok.1 h
  obtain ⟨opens, took₁⟩ := expect_eq_ok run₁ (by decide)
  obtain ⟨closes, took₃⟩ := expect_eq_ok run₃ (by decide)
  obtain ⟨w, took₂, items⟩ := gives_listedWithin each _ c₁ args' c₂ run₂
  exact ⟨opening, closing, w, took₁.trans (took₂.trans took₃), opens, closes, items⟩

/-- What runs of the four rules with bound `n` took, and what follows it. -/
structure Sound (n : Nat) : Prop where
  operation : ∀ {least c e c'}, least ≤ 6 → operationWithin n least c = .ok e c' →
    ∃ w, c.Took w c' ∧ Operation least w e ∧ endsOperation w least c'.current.kind
  tail : ∀ {least q c v left e c'}, least ≤ q → Operation q v left →
    endsOperation v (q + 1) c.current.kind → operationTailWithin n least left c = .ok e c' →
    ∃ w, c.Took w c' ∧ Operation least (v ++ w) e ∧ endsOperation (v ++ w) least c'.current.kind
  unary : ∀ {c e c'}, unaryWithin n c = .ok e c' →
    ∃ w, c.Took w c' ∧ Operation 6 w e ∧ endsOperand w c'.current.kind
  primary : ∀ {c e c'}, primaryWithin n c = .ok e c' →
    ∃ w, c.Took w c' ∧ Operation 7 w e ∧ endsOperand w c'.current.kind

namespace Sound

/-- An operation is a signed operand and what the loop makes of it. -/
theorem operation_step (ih : Sound n) {least : Nat} (le : least ≤ 6)
    (h : operationWithin (n + 1) least c = .ok e c') :
    ∃ w, c.Took w c' ∧ Operation least w e ∧ endsOperation w least c'.current.kind := by
  obtain ⟨left, c₁, run₁, h⟩ := bind_eq_ok.1 h
  obtain ⟨v, took₁, first, ends₁⟩ := ih.unary run₁
  have fits : endsOperation v 7 c₁.current.kind := by
    refine ⟨ends₁, fun op _ => ?_⟩
    have := op.precedence_le
    omega
  obtain ⟨w, took₂, whole, stops⟩ := ih.tail le first fits h
  exact ⟨v ++ w, took₁.trans took₂, whole, stops⟩

/-- One turn of the loop. The operator that comes next is no tighter than the left operand, so the
operand fits under it, and the right operand is of a higher level. -/
theorem tail_step (ih : Sound n) {least q : Nat} {left : Node} (le : least ≤ q)
    (first : Operation q v left) (fits : endsOperation v (q + 1) c.current.kind)
    (h : operationTailWithin (n + 1) least left c = .ok e c') :
    ∃ w, c.Took w c' ∧ Operation least (v ++ w) e ∧
      endsOperation (v ++ w) least c'.current.kind := by
  simp only [operationTailWithin, Parser.peek_bind] at h
  obtain ⟨_, rule, h⟩ := exists_rule h
  split at rule <;> subst rule
  next none =>
    obtain ⟨rfl, rfl⟩ := pure_eq_ok.1 h
    refine ⟨[], .refl c, by simpa using first.loosen le, by simpa using fits.1, fun op is => ?_⟩
    rw [none] at is
    nomatch is
  next op isOp =>
    split at h
    next loose =>
      obtain ⟨rfl, rfl⟩ := pure_eq_ok.1 h
      refine ⟨[], .refl c, by simpa using first.loosen le, by simpa using fits.1, fun op' is => ?_⟩
      rw [isOp] at is
      obtain rfl := Option.some.inj is
      exact loose
    next tight =>
      obtain ⟨sign, c₁, run₁, h⟩ := bind_eq_ok.1 h
      obtain ⟨right, c₂, run₂, h⟩ := bind_eq_ok.1 h
      obtain ⟨rfl, took₁⟩ := advance_eq_ok run₁
      have took₁ := took₁ fun ends => by rw [ends] at isOp; nomatch isOp
      have level := op.precedence_le
      obtain ⟨u, took₂, second, stops₂⟩ := ih.operation (by omega) run₂
      -- the next operator is no tighter than this one, so the operation takes it on top
      have whole : Operation op.precedence (v ++ c.current :: u) _ :=
        .binary (first.loosen (Nat.le_of_lt_succ (fits.2 op isOp))) isOp rfl second
      have stops : endsOperation (v ++ c.current :: u) (op.precedence + 1) c₂.current.kind := by
        rw [List.append_cons]
        exact ⟨(endsOperand_append _ second.ne_nil).2 stops₂.1, stops₂.2⟩
      obtain ⟨w, took₃, all, stops₃⟩ := ih.tail (by omega) whole stops h
      refine ⟨c.current :: (u ++ w), took₁.trans (took₂.trans took₃), ?_, ?_⟩
      · simpa using all
      · simpa using stops₃

/-- Signs nest, and an operand without one is of level 7. -/
theorem unary_step (ih : Sound n) (h : unaryWithin (n + 1) c = .ok e c') :
    ∃ w, c.Took w c' ∧ Operation 6 w e ∧ endsOperand w c'.current.kind := by
  simp only [unaryWithin, Parser.peek_bind] at h
  obtain ⟨_, rule, h⟩ := exists_rule h
  split at rule <;> subst rule
  next isMinus =>
    obtain ⟨sign, c₁, run₁, h⟩ := bind_eq_ok.1 h
    obtain ⟨operand, c₂, run₂, h⟩ := bind_eq_ok.1 h
    obtain ⟨rfl, rfl⟩ := pure_eq_ok.1 h
    obtain ⟨rfl, took₁⟩ := advance_eq_ok run₁
    obtain ⟨w, took₂, inner, ends⟩ := ih.unary run₂
    exact ⟨c.current :: w, (took₁ (by rw [isMinus]; decide)).trans took₂, .negation isMinus inner,
      (endsOperand_append [c.current] inner.ne_nil).2 ends⟩
  next isNot =>
    obtain ⟨sign, c₁, run₁, h⟩ := bind_eq_ok.1 h
    obtain ⟨operand, c₂, run₂, h⟩ := bind_eq_ok.1 h
    obtain ⟨rfl, rfl⟩ := pure_eq_ok.1 h
    obtain ⟨rfl, took₁⟩ := advance_eq_ok run₁
    obtain ⟨w, took₂, inner, ends⟩ := ih.unary run₂
    exact ⟨c.current :: w, (took₁ (by rw [isNot]; decide)).trans took₂, .complement isNot inner,
      (endsOperand_append [c.current] inner.ne_nil).2 ends⟩
  next =>
    obtain ⟨w, took, inner, ends⟩ := ih.primary h
    exact ⟨w, took, .lift inner, ends⟩

theorem gives_operation (ih : Sound n) : Gives (operationWithin n 1) Expression := by
  intro c e c' h
  obtain ⟨w, took, inner, -⟩ := ih.operation (by decide) h
  exact ⟨w, took, inner⟩

/-- An operand by its first token. A name that neither arguments nor an index follow is a variable. -/
theorem primary_step (ih : Sound n) (h : primaryWithin (n + 1) c = .ok e c') :
    ∃ w, c.Took w c' ∧ Operation 7 w e ∧ endsOperand w c'.current.kind := by
  simp only [primaryWithin, Parser.get_bind] at h
  obtain ⟨_, rule, h⟩ := exists_rule h
  split at rule <;> subst rule
  next node isLiteral =>
    obtain ⟨t, c₁, run₁, h⟩ := bind_eq_ok.1 h
    obtain ⟨rfl, rfl⟩ := pure_eq_ok.1 h
    obtain ⟨rfl, took₁⟩ := advance_eq_ok run₁
    refine ⟨[c.current], took₁ fun ends => ?_, .literal isLiteral, endsOperand_concat [] ?_ _⟩
    · simp [literal?, ends] at isLiteral
    · obtain is | is | is := kind_of_literal isLiteral <;> rw [is] <;> decide
  next =>
    obtain ⟨_, rule, h⟩ := exists_rule h
    split at rule <;> subst rule
    next isName =>
      obtain ⟨name, c₁, run₁, h⟩ := bind_eq_ok.1 h
      obtain ⟨rfl, took₁⟩ := advance_eq_ok run₁
      have took₁ := took₁ (by rw [isName]; decide)
      rw [Parser.peek_bind] at h
      obtain ⟨_, rule, h⟩ := exists_rule h
      split at rule <;> subst rule
      next =>
        obtain ⟨args, c₂, run₂, h⟩ := bind_eq_ok.1 h
        obtain ⟨rfl, rfl⟩ := pure_eq_ok.1 h
        obtain ⟨opening, closing, w, took₂, opens, closes, items, joined, each, rfl⟩ :=
          gives_arguments ih.gives_operation c₁ args c₂ run₂
        exact ⟨_, took₁.trans took₂, .call isName opens joined each closes,
          endsOperand_concat (c.current :: opening :: w) (by rw [closes]; decide) _⟩
      next opens =>
        obtain ⟨opening, c₂, run₂, h⟩ := bind_eq_ok.1 h
        obtain ⟨position, c₃, run₃, h⟩ := bind_eq_ok.1 h
        obtain ⟨closing, c₄, run₄, h⟩ := bind_eq_ok.1 h
        obtain ⟨rfl, rfl⟩ := pure_eq_ok.1 h
        obtain ⟨rfl, took₂⟩ := advance_eq_ok run₂
        obtain ⟨w, took₃, inner⟩ := ih.gives_operation c₂ position c₃ run₃
        obtain ⟨closes, took₄⟩ := expect_eq_ok run₄ (by decide)
        exact ⟨_, took₁.trans ((took₂ (by rw [opens]; decide)).trans (took₃.trans took₄)),
          .index isName opens inner closes,
          endsOperand_concat (c.current :: c₁.current :: w) (by rw [closes]; decide) _⟩
      next noCall noIndex =>
        obtain ⟨rfl, rfl⟩ := pure_eq_ok.1 h
        exact ⟨_, took₁, .var isName, fun _ => ⟨noCall, noIndex⟩⟩
    next opens =>
      obtain ⟨opening, c₁, run₁, h⟩ := bind_eq_ok.1 h
      obtain ⟨inner, c₂, run₂, h⟩ := bind_eq_ok.1 h
      obtain ⟨closing, c₃, run₃, h⟩ := bind_eq_ok.1 h
      obtain ⟨rfl, rfl⟩ := pure_eq_ok.1 h
      obtain ⟨rfl, took₁⟩ := advance_eq_ok run₁
      obtain ⟨w, took₂, derived⟩ := ih.gives_operation c₁ inner c₂ run₂
      obtain ⟨closes, took₃⟩ := expect_eq_ok run₃ (by decide)
      exact ⟨_, (took₁ (by rw [opens]; decide)).trans (took₂.trans took₃),
        .group opens derived closes,
        endsOperand_concat (c.current :: w) (by rw [closes]; decide) _⟩
    next => exact absurd h (fail_ne_ok _)

end Sound

/-- **An expression that is read is derived**, by induction on the bound. -/
theorem sound (n : Nat) : Sound n := by
  induction n with
  | zero =>
    exact ⟨fun _ h => absurd h exhausted_ne_ok, fun _ _ _ h => absurd h exhausted_ne_ok,
      fun h => absurd h exhausted_ne_ok, fun h => absurd h exhausted_ne_ok⟩
  | succ n ih => exact ⟨ih.operation_step, ih.tail_step, ih.unary_step, ih.primary_step⟩

/-- What is read as an expression is one, and what follows does not extend it. -/
theorem expression_eq_ok (h : expression c = .ok e c') :
    ∃ w, c.Took w c' ∧ Expression w e ∧ endsOperation w 1 c'.current.kind :=
  (sound c.bound).operation (by decide) h

theorem gives_expression : Gives expression Expression :=
  fun c e c' h => (sound c.bound).gives_operation c e c' h

/-! From derivations to runs. -/

/-- Reading `w` at the level `least` gets to the loop over operators with `e` as left operand, if no
operator tighter than `p` follows. The loop has used up some of the bound, at most one for each
token. -/
def Climbs (least p : Nat) (w : List Token) (e : Node) : Prop :=
  ∃ used, used < w.length + 1 ∧ ∀ n c r, 3 * w.length ≤ n → c.ahead = w.map .ok ++ r →
    Starts (endsOperation w (p + 1)) r →
    ∃ c', operationWithin n least c = operationTailWithin (n - used) least e c' ∧ c'.ahead = r

/-- The loop ends before a token that ends the operation. -/
theorem takes_tail (w : List Token) (least : Nat) (e : Node) (pos : 0 < n) :
    Takes (operationTailWithin n least e) (endsOperation w least) [] e := by
  obtain _ | n := n
  · omega
  rw [operationTailWithin]
  refine Takes.peek_bind_nil fun k ends => ?_
  cases isOp : Operator.ofKind? k with
  | none => exact takes_pure e
  | some op =>
    have loose := ends.2 op isOp
    simp only [loose, if_true]
    exact takes_pure e

/-- At the level of its own the loop stops behind the expression. -/
theorem Climbs.takes (h : Climbs p p w e) (nonempty : w ≠ []) (enough : 3 * w.length ≤ n) :
    Takes (operationWithin n p) (endsOperation w p) w e := by
  intro c r ahead starts
  have pos := List.length_pos_iff.2 nonempty
  obtain ⟨used, few, run⟩ := h
  obtain ⟨c₁, run₁, ahead₁⟩ := run n c r enough ahead
    (starts.mono fun k ends => ⟨ends.1, fun op is => Nat.lt_succ_of_lt (ends.2 op is)⟩)
  rw [run₁]
  exact takes_tail w p e (by omega) c₁ r ahead₁ starts

/-- A signed operand is where the loop starts. -/
theorem climbs_of_unary {least : Nat} (nonempty : w ≠ [])
    (h : ∀ n, 3 * w.length ≤ n + 1 → Takes (unaryWithin n) (endsOperand w) w e) :
    Climbs least p w e := by
  have pos := List.length_pos_iff.2 nonempty
  refine ⟨1, by omega, fun n c r enough ahead starts => ?_⟩
  obtain _ | n := n
  · omega
  obtain ⟨c₁, run₁, ahead₁⟩ := h n enough c r ahead (starts.mono fun k ends => ends.1)
  exact ⟨c₁, by rw [operationWithin, bind_of_ok run₁]; rfl, ahead₁⟩

/-- Without a sign in front the operand is taken as it is. -/
theorem takes_unary_of_primary {t : Token} {u : List Token}
    (h : ∀ n, 3 * (t :: u).length ≤ n + 2 → Takes (primaryWithin n) (endsOperand (t :: u)) (t :: u) e)
    (notMinus : t.kind ≠ .minus) (notNot : t.kind ≠ .kwNot)
    (enough : 3 * (t :: u).length ≤ n + 1) : Takes (unaryWithin n) (endsOperand (t :: u)) (t :: u) e := by
  obtain _ | n := n
  · simp only [List.length_cons] at enough
    omega
  rw [unaryWithin]
  refine Takes.peek_bind ?_
  split
  next isMinus => exact absurd isMinus notMinus
  next isNot => exact absurd isNot notNot
  next => exact h n (by omega)

/-- What the four rules take of an expression of a level. -/
structure Complete (p : Nat) (w : List Token) (e : Node) : Prop where
  primary : 7 ≤ p → ∀ n, 3 * w.length ≤ n + 2 → Takes (primaryWithin n) (endsOperand w) w e
  unary : 6 ≤ p → ∀ n, 3 * w.length ≤ n + 1 → Takes (unaryWithin n) (endsOperand w) w e
  climbs : ∀ least ≤ p, Climbs least p w e

namespace Complete

theorem of_unary (nonempty : w ≠ [])
    (h : ∀ n, 3 * w.length ≤ n + 1 → Takes (unaryWithin n) (endsOperand w) w e) : Complete 6 w e :=
  ⟨fun le => absurd le (by decide), fun _ => h, fun _ _ => climbs_of_unary nonempty h⟩

/-- A sign before an operand, if reading goes on to the operand after it. -/
theorem of_sign {sign : Token} {e' : Node} (h : Complete 6 w e)
    (step : ∀ n, Takes (unaryWithin n) (endsOperand w) w e →
      Takes (unaryWithin (n + 1)) (endsOperand (sign :: w)) (sign :: w) e') : Complete 6 (sign :: w) e' := by
  refine .of_unary (by simp) fun n enough => ?_
  simp only [List.length_cons] at enough
  obtain _ | n := n
  · omega
  · exact step n (h.unary (Nat.le_refl 6) n (by omega))

/-- An operand counts as an operation of every level. -/
theorem of_primary {t : Token} {u : List Token}
    (h : ∀ n, 3 * (t :: u).length ≤ n + 3 → Takes (primaryWithin (n + 1)) (endsOperand (t :: u)) (t :: u) e)
    (notMinus : t.kind ≠ .minus) (notNot : t.kind ≠ .kwNot) : Complete 7 (t :: u) e := by
  have primary : ∀ n, 3 * (t :: u).length ≤ n + 2 →
      Takes (primaryWithin n) (endsOperand (t :: u)) (t :: u) e := by
    intro n enough
    obtain _ | n := n
    · simp only [List.length_cons] at enough
      omega
    · exact h n enough
  have unary n (enough : 3 * (t :: u).length ≤ n + 1) :=
    takes_unary_of_primary primary notMinus notNot enough
  exact ⟨fun _ => primary, fun _ => unary, fun _ _ => climbs_of_unary (by simp) unary⟩

theorem takes (h : Complete p w e) (nonempty : w ≠ []) (enough : 3 * w.length ≤ n) :
    Takes (operationWithin n p) (endsOperation w p) w e :=
  (h.climbs p (Nat.le_refl p)).takes nonempty enough

/-- An operation on top of a left operand: the loop takes one more turn. -/
theorem binary {left right : Node} {sign : Token} {op : Operator} (nonempty : w ≠ [])
    (first : Complete p v left) (isOp : Operator.ofKind? sign.kind = some op)
    (level : op.precedence = p) (second : Complete (p + 1) w right) :
    Complete p (v ++ sign :: w) (.binary op left right sign.location) := by
  have top := op.precedence_le
  refine ⟨fun le => by omega, fun le => by omega, fun least le => ?_⟩
  obtain ⟨used, few, run⟩ := first.climbs least le
  refine ⟨used + 1, by simp; omega, fun n c r enough ahead starts => ?_⟩
  simp only [List.length_append, List.length_cons] at enough
  simp only [List.map_append, List.map_cons, List.append_assoc, List.cons_append] at ahead
  obtain ⟨c₁, run₁, ahead₁⟩ := run n c _ (by omega) ahead
    ⟨sign, _, rfl, endsOperand_of_operator isOp, fun op' is => by
      rw [isOp] at is
      obtain rfl := Option.some.inj is
      omega⟩
  obtain ⟨c₂, run₂, ahead₂⟩ := takes_advance sign c₁ _ ahead₁ (starts.any_append w)
  obtain ⟨m, hm⟩ : ∃ m, n - used = m + 1 := ⟨n - used - 1, by omega⟩
  have last : Starts (endsOperation w (p + 1)) r := starts.mono fun k ends =>
    ⟨(endsOperand_append (v ++ [sign]) nonempty).1 (by simpa using ends.1), ends.2⟩
  obtain ⟨c₃, run₃, ahead₃⟩ := second.takes (n := m) nonempty (by omega) c₂ r ahead₂ last
  refine ⟨c₃, ?_, ahead₃⟩
  have tight : ¬ op.precedence < least := by omega
  rw [run₁, hm, operationTailWithin, Parser.peek_bind, Cursor.current_of_ahead ahead₁]
  simp only [isOp, tight, if_false]
  rw [bind_of_ok run₂, level, bind_of_ok run₃, show n - (used + 1) = m by omega]

end Complete

/-- Arguments in parentheses, each before a comma or the closing one. -/
theorem takes_arguments {item : Parser Node} {F : Kind → Prop} {opening closing : Token}
    {items : List (List Token × Node)} (opens : opening.kind = .openParen)
    (joined : Listed (items.map Prod.fst) w) (derived : ∀ x ∈ items, Expression x.1 x.2)
    (each : ∀ x ∈ items, Takes item F x.1 x.2) (between : F .comma) (after : F .closeParen)
    (closes : closing.kind = .closeParen) :
    Takes (arguments item) anyKind (opening :: (w ++ [closing])) (items.map Prod.snd) := by
  have begins : ∀ x ∈ items, ∃ t u, x.1 = t :: u ∧ t.kind ≠ .closeParen := by
    intro x member
    obtain ⟨t, u, same, starts⟩ := (derived x member).begins
    exact ⟨t, u, same, fun is => by rw [is] at starts; nomatch starts⟩
  have inner := takes_listed joined each begins between after (by decide)
  refine (takes_expect opens).cons_bind (inner.bind_cons ?_ closes)
  exact (takes_expect closes).cons_bind (takes_pure _)

/-- **An expression that is derived is read**, by induction on the derivation. -/
theorem complete (h : Operation p w e) : Complete p w e := by
  induction h with
  | lift tighter ih =>
    have level := tighter.level_le
    refine ⟨fun le => by omega, fun le => ih.unary (by omega), fun least le => ?_⟩
    obtain ⟨used, few, run⟩ := ih.climbs least (by omega)
    exact ⟨used, few, fun n c r enough ahead starts => run n c r enough ahead
      (starts.mono fun k ends => ⟨ends.1, fun op is => Nat.lt_succ_of_lt (ends.2 op is)⟩)⟩
  | binary _ isOp level second ih₁ ih₂ => exact ih₁.binary second.ne_nil isOp level ih₂
  | @negation w e sign isSign operand ih | @complement w e sign isSign operand ih =>
    refine ih.of_sign fun n inner => ?_
    rw [unaryWithin]
    refine Takes.peek_bind ?_
    rw [isSign]
    have last : Takes (unaryWithin n) (endsOperand (sign :: w)) w e :=
      inner.mono fun _ => (endsOperand_append [sign] operand.ne_nil).1
    exact (takes_advance sign).cons_bind (last.bind_nil (takes_pure _))
  | @literal t e isLiteral =>
    refine .of_primary (fun n _ => ?_) ?_ ?_
    · rw [primaryWithin]
      refine Takes.get_bind fun c is => ?_
      simp only [is, isLiteral]
      exact (takes_advance t).cons_bind (takes_pure e)
    · obtain is | is | is := kind_of_literal isLiteral <;> rw [is] <;> decide
    · obtain is | is | is := kind_of_literal isLiteral <;> rw [is] <;> decide
  | @var t isName =>
    refine .of_primary (fun n _ => ?_) (by rw [isName]; decide) (by rw [isName]; decide)
    rw [primaryWithin]
    refine Takes.get_bind fun c is => ?_
    simp only [is, literal?, isName]
    refine (takes_advance t).cons_bind ?_
    refine Takes.peek_bind_nil fun k ends => ?_
    have free := ends ⟨t, rfl, isName⟩
    split
    next => exact absurd rfl free.1
    next => exact absurd rfl free.2
    next => exact takes_pure _
  | @call name opening closing w args isName opens joined derived closes ih =>
    refine .of_primary (fun n enough => ?_) (by rw [isName]; decide) (by rw [isName]; decide)
    rw [primaryWithin]
    refine Takes.get_bind fun c is => ?_
    simp only [is, literal?, isName]
    refine (takes_advance name).cons_bind ?_
    refine Takes.peek_bind ?_
    simp only [opens]
    simp only [List.length_cons, List.length_append] at enough
    have each : ∀ x ∈ args, Takes (operationWithin n 1) (endsExpression · = true) x.1 x.2 := by
      intro x member
      have short := joined.length_le.2 x.1 (List.mem_map_of_mem member)
      exact ((ih x member).takes (derived x member).ne_nil (by omega)).mono
        fun _ => endsOperation_of_endsExpression
    have inner := takes_arguments opens joined derived each (by decide) (by decide) closes
    refine Takes.mono (F := anyKind) ?_ fun _ _ => trivial
    exact inner.bind_nil (takes_pure _)
  | @index name opening closing w e isName opens position closes ih =>
    refine .of_primary (fun n enough => ?_) (by rw [isName]; decide) (by rw [isName]; decide)
    rw [primaryWithin]
    refine Takes.get_bind fun c is => ?_
    simp only [is, literal?, isName]
    refine (takes_advance name).cons_bind ?_
    refine Takes.peek_bind ?_
    simp only [opens]
    simp only [List.length_cons, List.length_append] at enough
    have inner := ih.takes (n := n) position.ne_nil (by omega)
    refine (takes_advance opening).cons_bind (inner.bind_cons ?_ ?_)
    · exact (takes_expect closes).cons_bind (takes_pure _)
    · rw [closes]
      exact endsOperation_of_endsExpression (by decide)
  | @group opening closing w e opens inner closes ih =>
    refine .of_primary (fun n enough => ?_) (by rw [opens]; decide) (by rw [opens]; decide)
    simp only [List.length_cons, List.length_append] at enough
    rw [primaryWithin]
    refine Takes.get_bind fun c is => ?_
    simp only [is, literal?, opens]
    have inner := ih.takes (n := n) inner.ne_nil (by omega)
    refine (takes_advance opening).cons_bind (inner.bind_cons ?_ ?_)
    · exact (takes_expect closes).cons_bind (takes_pure e)
    · rw [closes]
      exact endsOperation_of_endsExpression (by decide)

/-- An expression is taken before any token that does not extend it. -/
theorem takes_whole_expression (h : Expression w e) : Takes expression (endsOperation w 1) w e :=
  Takes.bound (f := fun n => operationWithin n 1) fun _ enough =>
    (complete h).takes h.ne_nil (by omega)

/-- What ends every expression ends this one. -/
theorem takes_expression (h : Expression w e) : Takes expression (endsExpression · = true) w e :=
  (takes_whole_expression h).mono fun _ => endsOperation_of_endsExpression

end Parser

end Pascalize
