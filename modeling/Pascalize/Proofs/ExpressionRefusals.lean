import Pascalize.Proofs.RefusalLaws

/-!
# Expressions refuse the first token that cannot go on

The judgment `Refuses` for the rules of expressions. The four rules share a bound, which is never
used up while it is at least three times the number of readings ahead.
-/

namespace Pascalize

open Derives

namespace Parser

variable {c c' : Cursor} {n : Nat} {v w : List Token} {e : Node}

/-! Expressions. -/

/-- A name completes an expression of any level. -/
theorem any_operation_of_name {p : Nat} (le : p ≤ 7) {u : List Token} (h : Spells [.ident] u) :
    Any (Operation p) u := by
  obtain ⟨t, rfl, isName⟩ := h.singleton_inv
  exact ⟨_, (Operation.var isName).loosen le⟩

/-- Expressions in parentheses. -/
def Arguments (w : List Token) : Prop :=
  ∃ (opening closing : Token) (v : List Token) (args : List (List Token × Node)),
    w = opening :: (v ++ [closing]) ∧ opening.kind = .openParen ∧ closing.kind = .closeParen ∧
      Listed (args.map Prod.fst) v ∧ ∀ x ∈ args, Expression x.1 x.2

/-- An argument, a comma or the closing parenthesis would go on. -/
theorem refuses_arguments {item : Parser Node} (gives : Gives item Expression)
    (each : ∀ c₁, c₁.ahead.length < c.ahead.length → Refuses item (Any Expression) c₁) :
    Refuses (arguments item) Arguments c := by
  refine .expect_bind rfl (by decide) [.closeParen] rfl ?_ fun opening c₁ opens took₁ => ?_
  · intro opening u opens spells
    obtain ⟨closing, rfl, closes⟩ := spells.singleton_inv
    exact ⟨opening, closing, [], [], rfl, opens, closes, .nil, by simp⟩
  have shorter := took₁.length_lt (by simp)
  refine (refuses_listed gives fun c₂ le => each c₂ (by omega)).close (fun args c₂ run₂ => ?_) rfl ?_
  · obtain ⟨v, took₂, items, joined, derived, -⟩ := gives_listedWithin gives _ c₁ args c₂ run₂
    exact ⟨v, took₂, items, joined, derived⟩
  · rintro v closing ⟨items, joined, derived⟩ closes
    exact ⟨opening, closing, v, items, rfl, opens, closes, joined, derived⟩

/-- Where the four rules with bound `n` stop, at a cursor with few enough readings ahead. -/
structure Stuck (n : Nat) : Prop where
  operation : ∀ {least c}, least ≤ 6 → 3 * c.ahead.length ≤ n →
    Refuses (operationWithin n least) (Any (Operation least)) c
  tail : ∀ {least q c v left}, Operation q v left →
    (∀ op, Operator.ofKind? c.current.kind = some op → op.precedence ≤ q) →
    3 * c.ahead.length ≤ n + 2 →
    Refuses (operationTailWithin n least left) (fun u => Any (Operation least) (v ++ u)) c
  unary : ∀ {c}, 3 * c.ahead.length ≤ n + 1 → Refuses (unaryWithin n) (Any (Operation 6)) c
  primary : ∀ {c}, 3 * c.ahead.length ≤ n + 2 → Refuses (primaryWithin n) (Any (Operation 7)) c

namespace Stuck

/-- The first operand is refused, or what follows it. -/
theorem operation_step (ih : Stuck n) {least : Nat} (le : least ≤ 6)
    (enough : 3 * c.ahead.length ≤ n + 1) :
    Refuses (operationWithin (n + 1) least) (Any (Operation least)) c := by
  rw [operationWithin]
  refine (ih.unary enough).bind_complete ?_ fun left c₁ run₁ => ?_
  · rintro v ⟨e, derived⟩
    exact ⟨e, derived.loosen le⟩
  · obtain ⟨v, took₁, first, -⟩ := (sound n).unary run₁
    have shorter := took₁.length_lt first.ne_nil
    refine ⟨v, took₁, ih.tail first (fun op _ => ?_) (by omega)⟩
    have := op.precedence_le
    omega

/-- An operator may always follow, and then its right operand is due. -/
theorem tail_step (ih : Stuck n) {least q : Nat} {left : Node}
    (first : Operation q v left)
    (fits : ∀ op, Operator.ofKind? c.current.kind = some op → op.precedence ≤ q)
    (enough : 3 * c.ahead.length ≤ n + 3) :
    Refuses (operationTailWithin (n + 1) least left) (fun u => Any (Operation least) (v ++ u)) c := by
  intro x c' run
  simp only [operationTailWithin, Parser.peek_bind] at run
  obtain ⟨_, rule, run⟩ := exists_rule run
  split at rule <;> subst rule
  next => exact refuses_pure left x c' run
  next op isOp =>
    split at run
    next => exact refuses_pure left x c' run
    next tight =>
      have level := op.precedence_le
      have left' := first.loosen (fits op isOp)
      have whole {u : List Token} {right : Node} (second : Operation (op.precedence + 1) u right) :
          Operation op.precedence (v ++ c.current :: u) (.binary op left right c.current.location) :=
        .binary left' isOp rfl second
      have more : c.current.kind ≠ .endOfInput := fun ends => by rw [ends] at isOp; cases isOp
      refine Refuses.advance_bind more [.ident] rfl ?_ ?_ x c' run
      · intro u spells
        obtain ⟨right, second⟩ : Any (Operation (op.precedence + 1)) u :=
          any_operation_of_name (by omega) spells
        exact ⟨_, (whole second).loosen (by omega)⟩
      intro c₁ took₁
      have shorter₁ := took₁.length_lt (by simp)
      refine (ih.operation (by omega) (by omega)).bind_complete ?_ fun right c₂ run₂ => ?_
      · rintro u ⟨right, second⟩
        exact ⟨_, (whole second).loosen (by omega)⟩
      obtain ⟨u, took₂, second, stops⟩ := (sound n).operation (by omega) run₂
      have shorter₂ := took₂.length_lt second.ne_nil
      have fits₂ : ∀ op', Operator.ofKind? c₂.current.kind = some op' →
          op'.precedence ≤ op.precedence := fun op' is => Nat.le_of_lt_succ (stops.2 op' is)
      refine ⟨u, took₂, (ih.tail (whole second) fits₂ (by omega)).mono fun w derived => ?_⟩
      simpa using derived

/-- A sign that is taken, and the operand after it. -/
theorem sign_step (ih : Stuck n) {g : Token → Node → Node} (enough : 3 * c.ahead.length ≤ n + 2)
    (more : c.current.kind ≠ .endOfInput)
    (signed : ∀ u e, Operation 6 u e → Any (Operation 6) (c.current :: u)) :
    Refuses (advance >>= fun sign => unaryWithin n >>= fun e => pure (g sign e))
      (Any (Operation 6)) c := by
  refine .advance_bind more [.ident] rfl ?_ fun c₁ took₁ => ?_
  · intro u spells
    obtain ⟨e, operand⟩ := any_operation_of_name (p := 6) (by decide) spells
    exact signed u e operand
  · have shorter := took₁.length_lt (by simp)
    refine (ih.unary (by omega)).map.mono ?_
    rintro u ⟨e, operand⟩
    exact signed u e operand

theorem unary_step (ih : Stuck n) (enough : 3 * c.ahead.length ≤ n + 2) :
    Refuses (unaryWithin (n + 1)) (Any (Operation 6)) c := by
  intro x c' run
  simp only [unaryWithin, Parser.peek_bind] at run
  obtain ⟨_, rule, run⟩ := exists_rule run
  split at rule <;> subst rule
  next isMinus =>
    have signed u e (operand : Operation 6 u e) : Any (Operation 6) (c.current :: u) :=
      ⟨_, .negation isMinus operand⟩
    exact ih.sign_step enough (by rw [isMinus]; decide) signed x c' run
  next isNot =>
    have signed u e (operand : Operation 6 u e) : Any (Operation 6) (c.current :: u) :=
      ⟨_, .complement isNot operand⟩
    exact ih.sign_step enough (by rw [isNot]; decide) signed x c' run
  next =>
    refine ((ih.primary enough).mono ?_) x c' run
    rintro u ⟨e, derived⟩
    exact ⟨e, .lift derived⟩

/-- An expression and the token that closes it, after some that opened it. -/
theorem operation_close (ih : Stuck n) {Q : List Token → Prop} {kind : Kind} {place : Place}
    {g : Node → Node} (isPlain : plain [kind] = true) (enough : 3 * c.ahead.length ≤ n)
    (finish : ∀ w e (t : Token), Expression w e → t.kind = kind → Q (w ++ [t])) :
    Refuses (operationWithin n 1 >>= fun e => expect kind place >>= fun _ => pure (g e)) Q c := by
  refine (ih.operation (by decide) enough).close ((sound n).gives_operation.any c) isPlain ?_
  rintro w t ⟨e, derived⟩ closes
  exact finish w e t derived closes

/-- An operand is due, or what goes on with a name or in parentheses. -/
theorem primary_step (ih : Stuck n) (enough : 3 * c.ahead.length ≤ n + 3) :
    Refuses (primaryWithin (n + 1)) (Any (Operation 7)) c := by
  intro x c' run
  simp only [primaryWithin, Parser.get_bind] at run
  obtain ⟨_, rule, run⟩ := exists_rule run
  split at rule <;> subst rule
  next node isLiteral =>
    have more : c.current.kind ≠ .endOfInput := by
      obtain is | is | is := kind_of_literal isLiteral <;> rw [is] <;> decide
    exact Refuses.advance_pure more ⟨node, .literal isLiteral⟩ x c' run
  next =>
    obtain ⟨_, rule, run⟩ := exists_rule run
    split at rule <;> subst rule
    next isName =>
      refine Refuses.advance_bind (by rw [isName]; decide) [] rfl ?_ ?_ x c' run
      · intro u none
        rw [none.eq_nil]
        exact ⟨_, .var isName⟩
      intro c₁ took₁ x c' run
      have shorter₁ := took₁.length_lt (by simp)
      rw [Parser.peek_bind] at run
      obtain ⟨_, rule, run⟩ := exists_rule run
      split at rule <;> subst rule
      next =>
        have args := refuses_arguments (c := c₁) (sound n).gives_operation fun c₂ le =>
          ih.operation (by decide) (by omega)
        refine (args.map.mono ?_) x c' run
        rintro _ ⟨opening, closing, v, items, rfl, opens, closes, joined, derived⟩
        exact ⟨_, .call isName opens joined derived closes⟩
      next opens =>
        refine Refuses.advance_bind (by rw [opens]; decide) [.ident, .closeBracket] rfl ?_ ?_ x c' run
        · intro u spells
          obtain ⟨t, closing, rfl, isVar, closes⟩ := spells.pair_inv
          exact ⟨_, .index isName opens ((Operation.var isVar).loosen (by decide)) closes⟩
        intro c₂ took₂
        have shorter₂ := took₂.length_lt (by simp)
        refine ih.operation_close rfl (by omega) fun w e closing position closes => ?_
        exact ⟨_, .index isName opens position closes⟩
      next => exact refuses_pure _ x c' run
    next opens =>
      refine Refuses.advance_bind (by rw [opens]; decide) [.ident, .closeParen] rfl ?_ ?_ x c' run
      · intro u spells
        obtain ⟨t, closing, rfl, isVar, closes⟩ := spells.pair_inv
        exact ⟨_, .group opens ((Operation.var isVar).loosen (by decide)) closes⟩
      intro c₁ took₁
      have shorter₁ := took₁.length_lt (by simp)
      refine ih.operation_close rfl (by omega) fun w e closing inner closes => ?_
      exact ⟨_, .group opens inner closes⟩
    next =>
      exact refuses_fail _ [.ident] rfl (fun _ => any_operation_of_name (by decide)) x c' run

end Stuck

/-- The four rules, by induction on the bound. -/
theorem stuck (n : Nat) : Stuck n := by
  induction n with
  | zero =>
    refine ⟨fun _ enough => ?_, fun _ _ enough => ?_, fun enough => ?_, fun enough => ?_⟩
    all_goals
      have := Cursor.length_ahead_pos ‹Cursor›
      omega
  | succ n ih => exact ⟨ih.operation_step, ih.tail_step, ih.unary_step, ih.primary_step⟩

theorem refuses_expression : Refuses expression (Any Expression) c := by
  have enough := c.length_ahead_lt_bound
  exact Refuses.bound (f := (operationWithin · 1)) ((stuck c.bound).operation (by decide) (by omega))

end Parser

end Pascalize
