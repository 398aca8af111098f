import Pascalize.Proofs.Phrases
import Pascalize.Proofs.ProgramParsing

/-!
# Expressions in layers

The grammar of expressions as a table of layers, each with its own operators: disjunctions,
conjunctions, comparisons, sums, products, signed operands and operands. `Layer.level` numbers them.
The levels of `Derives.Operation` are the layers (`layered_iff`), so what is proved of precedences
holds of layers.

No tokens stand for two expressions (`Derives.Operation.unique`). An expression of a level is a row of
operands of the next, cut in one way before any token that does not extend it, which is
`Phrases.Decides`.
-/

namespace Pascalize

open Derives Phrases

/-! ## One derivation -/

namespace Derives

/-- Before these tokens an expression of the level ends, whatever it is. -/
def Ends (p : Nat) (r : List Token) : Prop :=
  ∀ t ∈ r.head?, (t.kind ≠ .openParen ∧ t.kind ≠ .openBracket) ∧
    ∀ op, Operator.ofKind? t.kind = some op → op.precedence < p

theorem Ends.mono {p q : Nat} {r : List Token} (h : Ends p r) (le : p ≤ q) : Ends q r :=
  fun t first => ⟨(h t first).1, fun op is => Nat.lt_of_lt_of_le ((h t first).2 op is) le⟩

/-- A token between two operands of the level. -/
def IsSign (p : Nat) (t : Token) : Prop :=
  ∃ op, Operator.ofKind? t.kind = some op ∧ op.precedence = p

theorem IsSign.ends {p : Nat} {t : Token} (h : IsSign p t) (r : List Token) : Ends (p + 1) (t :: r) := by
  obtain ⟨op, is, rfl⟩ := h
  rintro _ ⟨⟩
  refine ⟨Parser.endsOperand_of_operator is (w := [⟨.ident, "", t.location⟩]) ⟨_, rfl, rfl⟩, ?_⟩
  intro op' is'
  obtain rfl := Option.some.inj (is.symm.trans is')
  exact Nat.lt_succ_self _

theorem ends_of_kind {t : Token} (h : Parser.endsExpression t.kind = true) (p : Nat) (r : List Token) :
    Ends p (t :: r) := by
  rintro _ ⟨⟩
  obtain ⟨free, loose⟩ := Parser.endsOperation_of_endsExpression (w := [⟨.ident, "", t.location⟩])
    (p := p) h
  exact ⟨free ⟨_, rfl, rfl⟩, loose⟩

/-- An operator with its right operand, put on top of what stands before it. -/
def onto (left : Node) (part : Token × List Token × Node) : Node :=
  .binary ((Operator.ofKind? part.1.kind).getD default) left part.2.2 part.1.location

theorem Operation.chain {p : Nat} {w : List Token} {e : Node} (h : Operation p w e) (low : p < 6) :
    ∃ (v : List Token) (first : Node) (parts : List (Token × List Token × Node)),
      Operation (p + 1) v first ∧ (∀ x ∈ parts, IsSign p x.1) ∧
      (∀ x ∈ parts, Operation (p + 1) x.2.1 x.2.2) ∧ w = v ++ partWords parts ∧
      e = parts.foldl onto first := by
  induction h with
  | lift tighter => exact ⟨_, _, [], tighter, by simp, by simp, by simp [partWords], rfl⟩
  | @binary p v w left right sign op _ isOp level second ih =>
    obtain ⟨u, first, parts, head, signs, operands, rfl, rfl⟩ := ih low
    refine ⟨u, first, parts ++ [(sign, w, right)], head, ?_, ?_, ?_, ?_⟩
    · exact List.forall_mem_append.2 ⟨signs, by simpa using ⟨op, isOp, level⟩⟩
    · exact List.forall_mem_append.2 ⟨operands, by simpa using second⟩
    · simp [partWords]
    · simp [onto, isOp]
  | _ => omega

/-- An expression of a level is cut in one way if those of the next level are. -/
theorem decides_chain {p : Nat} {v : List Token} {first : Node}
    {parts : List (Token × List Token × Node)} (low : p < 6)
    (head : Decides (Operation (p + 1)) (Ends (p + 1)) v first) (signs : ∀ x ∈ parts, IsSign p x.1)
    (operands : ∀ x ∈ parts, Decides (Operation (p + 1)) (Ends (p + 1)) x.2.1 x.2.2) :
    Decides (Operation p) (Ends p) (v ++ partWords parts) (parts.foldl onto first) := by
  intro w' e' r r' other same ends ends'
  obtain ⟨v', first', parts', head', signs', operands', rfl, rfl⟩ := other.chain low
  have endsHead {parts : List (Token × List Token × Node)} {r : List Token}
      (signs : ∀ x ∈ parts, IsSign p x.1) (ends : Ends p r) : Ends (p + 1) (partWords parts ++ r) := by
    cases parts with
    | nil => exact ends.mono (Nat.le_succ p)
    | cons x parts => exact (signs x List.mem_cons_self).ends _
  have stop {r : List Token} (ends : Ends p r) : ∀ t ∈ r.head?, ¬ IsSign p t := by
    rintro t is ⟨op, isOp, level⟩
    have := (ends t is).2 op isOp
    omega
  rw [List.append_assoc, List.append_assoc] at same
  obtain ⟨rfl, rfl, same⟩ := head _ _ _ _ head' same (endsHead signs ends) (endsHead signs' ends')
  obtain ⟨rfl, rfl⟩ := parts_unique (fun _ r sign => IsSign.ends sign r) operands signs operands'
    signs' same (ends.mono (Nat.le_succ p)) (ends'.mono (Nat.le_succ p)) (stop ends) (stop ends')
  exact ⟨rfl, rfl, rfl⟩

/-- Arguments are cut in one way before the parenthesis that closes them. -/
theorem listed_unique {items items' : List (List Token × Node)} {w w' r r' : List Token}
    {closing closing' : Token} (joined : Listed (items.map Prod.fst) w)
    (each : ∀ x ∈ items, Expression x.1 x.2)
    (decides : ∀ x ∈ items, Decides Expression (Ends 1) x.1 x.2)
    (joined' : Listed (items'.map Prod.fst) w') (each' : ∀ x ∈ items', Expression x.1 x.2)
    (closes : closing.kind = .closeParen) (closes' : closing'.kind = .closeParen)
    (same : w ++ closing :: r = w' ++ closing' :: r') :
    items = items' ∧ w = w' ∧ closing = closing' ∧ r = r' := by
  have begins {x : List Token × Node} {closing : Token} {r s : List Token}
      (derived : Expression x.1 x.2) (closes : closing.kind = .closeParen) :
      closing :: r ≠ x.1 ++ s := by
    obtain ⟨t, u, is, starts⟩ := derived.begins
    rw [is]
    rintro ⟨⟩
    rw [closes] at starts
    nomatch starts
  induction items generalizing items' w w' with
  | nil =>
    cases joined
    cases items' with
    | nil =>
      cases joined'
      exact ⟨rfl, rfl, List.cons.inj same⟩
    | cons x' items' =>
      have first := each' x' List.mem_cons_self
      obtain ⟨-, rfl⟩ | ⟨s', u', -, -, rfl⟩ := joined'.cons_inv
      · exact absurd same (begins first closes)
      · exact absurd (same.trans (List.append_assoc ..)) (begins first closes)
  | cons x items ih =>
    cases items' with
    | nil =>
      cases joined'
      have first := each x List.mem_cons_self
      obtain ⟨-, rfl⟩ | ⟨s, u, -, -, rfl⟩ := joined.cons_inv
      · exact absurd same.symm (begins first closes')
      · exact absurd (same.symm.trans (List.append_assoc ..)) (begins first closes')
    | cons x' items' =>
      have comma {t : Token} (is : t.kind = .comma) (r : List Token) : Ends 1 (t :: r) :=
        ends_of_kind (by rw [is]; rfl) 1 r
      have close {t : Token} (is : t.kind = .closeParen) (r : List Token) : Ends 1 (t :: r) :=
        ends_of_kind (by rw [is]; rfl) 1 r
      have other {t t' : Token} (is : t.kind = .comma) (is' : t'.kind = .closeParen) : t ≠ t' := by
        rintro rfl
        nomatch is.symm.trans is'
      obtain ⟨v, e⟩ := x
      obtain ⟨v', e'⟩ := x'
      simp only [List.mem_cons, forall_eq_or_imp] at each decides each'
      obtain ⟨none, rfl⟩ | ⟨s, u, isSep, rest, rfl⟩ := joined.cons_inv
      · obtain rfl := List.map_eq_nil_iff.1 none
        obtain ⟨none', rfl⟩ | ⟨s', u', isSep', rest', rfl⟩ := joined'.cons_inv
        · obtain rfl := List.map_eq_nil_iff.1 none'
          obtain ⟨rfl, rfl, same⟩ := decides.1 _ _ _ _ each'.1 same (close closes r) (close closes' r')
          exact ⟨rfl, rfl, List.cons.inj same⟩
        · rw [List.append_assoc, List.cons_append] at same
          obtain ⟨-, -, same⟩ := decides.1 _ _ _ _ each'.1 same (close closes r) (comma isSep' _)
          exact absurd (List.cons.inj same).1.symm (other isSep' closes)
      · rw [List.append_assoc, List.cons_append] at same
        obtain ⟨none', rfl⟩ | ⟨s', u', isSep', rest', rfl⟩ := joined'.cons_inv
        · obtain ⟨-, -, same⟩ := decides.1 _ _ _ _ each'.1 same (comma isSep _) (close closes' r')
          exact absurd (List.cons.inj same).1 (other isSep closes')
        · rw [List.append_assoc, List.cons_append] at same
          obtain ⟨rfl, rfl, after⟩ := decides.1 _ _ _ _ each'.1 same (comma isSep _) (comma isSep' _)
          obtain ⟨rfl, left⟩ := List.cons.inj after
          obtain ⟨rfl, rfl, rfl, rfl⟩ := ih rest each.2 decides.2 rest' each'.2 left
          exact ⟨rfl, rfl, rfl, rfl⟩

/-- What may follow a name in an operand: nothing, arguments or a position. -/
inductive Suffix (name : Token) : List Token → Node → Prop where
  | none : Suffix name [] (.var name.text name.location)
  | call {opening closing : Token} {w : List Token} {args : List (List Token × Node)}
      (opens : opening.kind = .openParen) (joined : Listed (args.map Prod.fst) w)
      (items : ∀ x ∈ args, Expression x.1 x.2) (closes : closing.kind = .closeParen) :
      Suffix name (opening :: (w ++ [closing])) (.call name.text (args.map Prod.snd) name.location)
  | index {opening closing : Token} {w : List Token} {e : Node} (opens : opening.kind = .openBracket)
      (position : Expression w e) (closes : closing.kind = .closeBracket) :
      Suffix name (opening :: (w ++ [closing]))
        (.index (.var name.text name.location) e opening.location)

/-- An operand by its first token. -/
inductive Operand : List Token → Node → Prop where
  | literal {t : Token} {e : Node} (isLiteral : Parser.literal? t = some e) : Operand [t] e
  | name {t : Token} {w : List Token} {e : Node} (isName : t.kind = .ident) (suffix : Suffix t w e) :
      Operand (t :: w) e
  | group {opening closing : Token} {w : List Token} {e : Node} (opens : opening.kind = .openParen)
      (inner : Expression w e) (closes : closing.kind = .closeParen) :
      Operand (opening :: (w ++ [closing])) e

theorem Operation.operand {w : List Token} {e : Node} (h : Operation 7 w e) : Operand w e := by
  cases h with
  | lift tighter => exact absurd tighter.level_le (by decide)
  | @binary _ _ _ _ _ _ op _ _ level => exact absurd op.precedence_le (by omega)
  | literal isLiteral => exact .literal isLiteral
  | var isName => exact .name isName .none
  | call isName opens joined items closes => exact .name isName (.call opens joined items closes)
  | index isName opens position closes => exact .name isName (.index opens position closes)
  | group opens inner closes => exact .group opens inner closes

/-- What follows a name is cut in one way if the expressions in it are. -/
theorem Suffix.decides {name : Token} {w : List Token} {e : Node} (h : Suffix name w e)
    (shorter : ∀ v e, v.length < w.length → Expression v e → Decides Expression (Ends 1) v e) :
    Decides (Suffix name) (Ends 7) w e := by
  intro w' e' r r' other same ends ends'
  cases h with
  | none =>
    cases other with
    | none => exact ⟨rfl, rfl, same⟩
    | call opens => exact absurd opens (ends _ (by rw [← List.nil_append r, same]; rfl)).1.1
    | index opens => exact absurd opens (ends _ (by rw [← List.nil_append r, same]; rfl)).1.2
  | @call opening closing v args opens joined items closes =>
    have inside : ∀ x ∈ args, Decides Expression (Ends 1) x.1 x.2 := by
      intro x member
      have short := joined.length_le.2 x.1 (List.mem_map_of_mem member)
      refine shorter _ _ ?_ (items x member)
      simp only [List.length_cons, List.length_append]
      omega
    cases other with
    | none => exact absurd opens (ends' _ (by rw [← List.nil_append r', ← same]; rfl)).1.1
    | call opens' joined' items' closes' =>
      simp only [List.cons_append, List.append_assoc, List.nil_append, List.cons.injEq] at same
      obtain ⟨rfl, rfl, rfl, rfl⟩ := listed_unique joined items inside joined' items' closes closes' same.2
      exact ⟨by rw [same.1], rfl, rfl⟩
    | index opens' =>
      rw [List.cons_append, List.cons_append, List.cons.injEq] at same
      rw [same.1, opens'] at opens
      cases opens
  | @index opening closing v position opens derived closes =>
    have inside := shorter _ _ (by simp only [List.length_cons, List.length_append]; omega) derived
    cases other with
    | none => exact absurd opens (ends' _ (by rw [← List.nil_append r', ← same]; rfl)).1.2
    | call opens' =>
      rw [List.cons_append, List.cons_append, List.cons.injEq] at same
      rw [same.1, opens'] at opens
      cases opens
    | index opens' derived' closes' =>
      simp only [List.cons_append, List.append_assoc, List.nil_append, List.cons.injEq] at same
      obtain ⟨rfl, rfl, after⟩ := inside _ _ _ _ derived' same.2
        (ends_of_kind (by rw [closes]; rfl) 1 r) (ends_of_kind (by rw [closes']; rfl) 1 r')
      obtain ⟨rfl, rfl⟩ := List.cons.inj after
      exact ⟨by rw [same.1], by rw [same.1], rfl⟩

theorem Operand.decides {w : List Token} {e : Node} (h : Operand w e)
    (shorter : ∀ v e, v.length < w.length → Expression v e → Decides Expression (Ends 1) v e) :
    Decides (Operation 7) (Ends 7) w e := by
  intro w' e' r r' other same ends ends'
  have literal {t : Token} {e : Node} (is : Parser.literal? t = some e) :
      t.kind ≠ .ident ∧ t.kind ≠ .openParen := by
    obtain is | is | is := kind_of_literal is <;> rw [is] <;> decide
  cases h with
  | literal isLiteral =>
    cases other.operand with
    | literal isLiteral' =>
      obtain ⟨rfl, rfl⟩ := List.cons.inj same
      exact ⟨rfl, Option.some.inj (isLiteral.symm.trans isLiteral'), rfl⟩
    | name isName => exact absurd ((List.cons.inj same).1 ▸ isName) (literal isLiteral).1
    | group opens => exact absurd ((List.cons.inj same).1 ▸ opens) (literal isLiteral).2
  | name isName suffix =>
    cases other.operand with
    | literal isLiteral => exact absurd ((List.cons.inj same).1 ▸ isName) (literal isLiteral).1
    | name isName' suffix' =>
      obtain ⟨rfl, after⟩ := List.cons.inj same
      obtain ⟨rfl, rfl, rfl⟩ := suffix.decides (fun v e lt => shorter v e (Nat.lt_succ_of_lt lt)) _ _ _ _
        suffix' after ends ends'
      exact ⟨rfl, rfl, rfl⟩
    | group opens =>
      rw [(List.cons.inj same).1, opens] at isName
      cases isName
  | group opens inner closes =>
    cases other.operand with
    | literal isLiteral => exact absurd ((List.cons.inj same).1 ▸ opens) (literal isLiteral).2
    | name isName =>
      rw [(List.cons.inj same).1, isName] at opens
      cases opens
    | group opens' inner' closes' =>
      simp only [List.cons_append, List.append_assoc, List.nil_append, List.cons.injEq] at same
      have inside := shorter _ _ (by simp only [List.length_cons, List.length_append]; omega) inner
      obtain ⟨rfl, rfl, after⟩ := inside _ _ _ _ inner' same.2
        (ends_of_kind (by rw [closes]; rfl) 1 r) (ends_of_kind (by rw [closes']; rfl) 1 r')
      obtain ⟨rfl, rfl⟩ := List.cons.inj after
      exact ⟨by rw [same.1], rfl, rfl⟩

/-- No operand starts with a sign. -/
theorem Operand.begins {w : List Token} {e : Node} (h : Operand w e) :
    ∃ t u, w = t :: u ∧ t.kind ≠ .minus ∧ t.kind ≠ .kwNot := by
  cases h with
  | literal isLiteral =>
    refine ⟨_, _, rfl, ?_⟩
    obtain is | is | is := kind_of_literal isLiteral <;> rw [is] <;> decide
  | name isName => exact ⟨_, _, rfl, by rw [isName]; decide⟩
  | group opens => exact ⟨_, _, rfl, by rw [opens]; decide⟩

/-- An operand with signs before it: the sign and what follows it, or the operand. -/
theorem Operation.signed {w : List Token} {e : Node} (h : Operation 6 w e) : Operation 7 w e ∨
    ∃ (sign : Token) (v : List Token) (e' : Node), w = sign :: v ∧ Operation 6 v e' ∧
      (sign.kind = .minus ∧ e = .negation e' sign.location ∨
        sign.kind = .kwNot ∧ e = .complement e' sign.location) := by
  cases h with
  | lift tighter => exact .inl tighter
  | @binary _ _ _ _ _ _ op _ _ level => exact absurd op.precedence_le (by omega)
  | negation is operand => exact .inr ⟨_, _, _, rfl, operand, .inl ⟨is, rfl⟩⟩
  | complement is operand => exact .inr ⟨_, _, _, rfl, operand, .inr ⟨is, rfl⟩⟩

theorem decides_signed {w : List Token} {e : Node} (h : Operation 6 w e)
    (operand : Operation 7 w e → Decides (Operation 7) (Ends 7) w e)
    (shorter : ∀ v e, v.length < w.length → Operation 6 v e → Decides (Operation 6) (Ends 6) v e) :
    Decides (Operation 6) (Ends 6) w e := by
  intro w' e' r r' other same ends ends'
  rcases h.signed with tight | ⟨sign, v, f, rfl, inner, is⟩
  · rcases other.signed with tight' | ⟨sign', v', f', rfl, -, is'⟩
    · exact operand tight _ _ _ _ tight' same (ends.mono (by decide)) (ends'.mono (by decide))
    · obtain ⟨t, u, rfl, noMinus, noNot⟩ := tight.operand.begins
      rw [(List.cons.inj same).1] at noMinus noNot
      rcases is' with ⟨is', -⟩ | ⟨is', -⟩
      · exact absurd is' noMinus
      · exact absurd is' noNot
  · rcases other.signed with tight' | ⟨sign', v', f', rfl, inner', is'⟩
    · obtain ⟨t, u, rfl, noMinus, noNot⟩ := tight'.operand.begins
      rw [← (List.cons.inj same).1] at noMinus noNot
      rcases is with ⟨is, -⟩ | ⟨is, -⟩
      · exact absurd is noMinus
      · exact absurd is noNot
    · obtain ⟨rfl, after⟩ := List.cons.inj same
      obtain ⟨rfl, rfl, rfl⟩ := shorter v f (Nat.lt_succ_self _) inner _ _ _ _ inner' after ends ends'
      refine ⟨rfl, ?_, rfl⟩
      rcases is with ⟨is, rfl⟩ | ⟨is, rfl⟩
      · rcases is' with ⟨-, rfl⟩ | ⟨is', -⟩
        · rfl
        · nomatch is.symm.trans is'
      · rcases is' with ⟨is', -⟩ | ⟨-, rfl⟩
        · nomatch is.symm.trans is'
        · rfl

/-- At every level the tokens that are derived, and what they stand for, are determined by the text. -/
theorem Operation.decides {p : Nat} {w : List Token} {e : Node} (h : Operation p w e) :
    Decides (Operation p) (Ends p) w e := by
  -- by the length of the text, and in texts of one length from tight levels to loose ones
  generalize size : 8 * w.length + (7 - p) = n
  induction n using Nat.strongRecOn generalizing p w e with
  | ind n ih =>
    have level := h.level_le
    by_cases low : p < 6
    · obtain ⟨v, first, parts, head, signs, operands, rfl, rfl⟩ := h.chain low
      simp only [List.length_append] at size
      refine decides_chain low (ih _ (by omega) head rfl) signs fun x member => ?_
      have short : x.2.1.length ≤ (partWords parts).length := by
        have inside : x.1 :: x.2.1 ∈ parts.map fun y => y.1 :: y.2.1 := List.mem_map_of_mem member
        rw [partWords, List.flatMap_def]
        exact Nat.le_of_succ_le (List.sublist_flatten_of_mem inside).length_le
      exact ih _ (by omega) (operands x member) rfl
    · by_cases signed : p = 6
      · subst signed
        exact decides_signed h (fun tight => ih _ (by omega) tight rfl)
          fun v e lt inner => ih _ (by omega) inner rfl
      · obtain rfl : p = 7 := by omega
        exact h.operand.decides fun v e lt inner => ih _ (by omega) inner rfl

/-- Tokens stand for one expression. -/
theorem Operation.unique {p : Nat} {w : List Token} {e e' : Node} (h : Operation p w e)
    (h' : Operation p w e') : e = e' :=
  (h.decides w e' [] [] h' rfl (by simp [Ends]) (by simp [Ends])).2.1

end Derives

/-! ## Layers -/

/-- The layers of expressions, from the loosest operators to the operands. -/
inductive Layer where
  | disjunction | conjunction | comparison | sum | product | signed | operand
deriving DecidableEq, Repr

namespace Layer

/-- The operators between the parts of a layer, each with the kind of its token. -/
def operators : Layer → List (Kind × Operator)
  | disjunction => [(.disj, .or)]
  | conjunction => [(.conj, .and)]
  | comparison => [(.equal, .eq), (.notEqual, .ne), (.less, .lt), (.lessEqual, .le), (.greater, .gt),
      (.greaterEqual, .ge)]
  | sum => [(.plus, .add), (.minus, .sub)]
  | product => [(.star, .mul), (.slash, .div), (.percent, .mod)]
  | signed | operand => []

/-- The next tighter layer. -/
def tighter? : Layer → Option Layer
  | disjunction => some conjunction
  | conjunction => some comparison
  | comparison => some sum
  | sum => some product
  | product => some signed
  | signed => some operand
  | operand => none

/-- The number of a layer, from one for the loosest. -/
def level : Layer → Nat
  | disjunction => 1
  | conjunction => 2
  | comparison => 3
  | sum => 4
  | product => 5
  | signed => 6
  | operand => 7

theorem level_of_tighter? {layer inner : Layer} (h : layer.tighter? = some inner) :
    inner.level = layer.level + 1 := by
  cases layer <;> cases h <;> rfl

theorem tighter?_of_level (layer : Layer) (h : layer.level < 7) :
    ∃ inner, layer.tighter? = some inner := by
  cases layer with
  | operand => exact absurd h (by decide)
  | _ => exact ⟨_, rfl⟩

theorem eq_of_level {layer : Layer} (layer' : Layer) (h : layer.level = layer'.level) :
    layer = layer' := by
  cases layer <;> cases layer' <;> first | rfl | cases h

/-- The operators of a layer are those of its precedence. -/
theorem mem_operators_iff {layer : Layer} {k : Kind} {op : Operator} :
    (k, op) ∈ layer.operators ↔ Operator.ofKind? k = some op ∧ op.precedence = layer.level := by
  have table : ∀ x ∈ layer.operators,
      Operator.ofKind? x.1 = some x.2 ∧ x.2.precedence = layer.level := by
    cases layer <;> decide
  refine ⟨table (k, op), ?_⟩
  rintro ⟨is, level⟩
  cases k <;> cases is <;> cases layer <;> first | exact absurd level (by decide) | decide

end Layer

/-- The tokens stand for an expression of the layer. The operators of a layer group to the left: the
left operand is of the same layer, the right one of the next. -/
inductive Layered : Layer → List Token → Node → Prop where
  | pass {layer inner : Layer} {w : List Token} {e : Node} (next : layer.tighter? = some inner)
      (tighter : Layered inner w e) : Layered layer w e
  | binary {layer inner : Layer} {v w : List Token} {left right : Node} {sign : Token} {op : Operator}
      (first : Layered layer v left) (isOp : (sign.kind, op) ∈ layer.operators)
      (next : layer.tighter? = some inner) (second : Layered inner w right) :
      Layered layer (v ++ sign :: w) (.binary op left right sign.location)
  | negation {w : List Token} {e : Node} {sign : Token} (isMinus : sign.kind = .minus)
      (inner : Layered .signed w e) : Layered .signed (sign :: w) (.negation e sign.location)
  | complement {w : List Token} {e : Node} {sign : Token} (isNot : sign.kind = .kwNot)
      (inner : Layered .signed w e) : Layered .signed (sign :: w) (.complement e sign.location)
  | text {t : Token} (isString : t.kind = .stringLiteral) :
      Layered .operand [t] (.stringLiteral t.text t.location)
  | integer {t : Token} (isInt : t.kind = .intLiteral) :
      Layered .operand [t] (.intLiteral t.text t.location)
  | fraction {t : Token} (isFloat : t.kind = .floatLiteral) :
      Layered .operand [t] (.floatLiteral t.text t.location)
  | name {t : Token} (isName : t.kind = .ident) : Layered .operand [t] (.var t.text t.location)
  | call {name opening closing : Token} {w : List Token} {args : List (List Token × Node)}
      (isName : name.kind = .ident) (opens : opening.kind = .openParen)
      (joined : Listed (args.map Prod.fst) w) (items : ∀ x ∈ args, Layered .disjunction x.1 x.2)
      (closes : closing.kind = .closeParen) :
      Layered .operand (name :: opening :: (w ++ [closing]))
        (.call name.text (args.map Prod.snd) name.location)
  | index {name opening closing : Token} {w : List Token} {e : Node} (isName : name.kind = .ident)
      (opens : opening.kind = .openBracket) (position : Layered .disjunction w e)
      (closes : closing.kind = .closeBracket) :
      Layered .operand (name :: opening :: (w ++ [closing]))
        (.index (.var name.text name.location) e opening.location)
  | group {opening closing : Token} {w : List Token} {e : Node} (opens : opening.kind = .openParen)
      (inner : Layered .disjunction w e) (closes : closing.kind = .closeParen) :
      Layered .operand (opening :: (w ++ [closing])) e

theorem Layered.operation {layer : Layer} {w : List Token} {e : Node} (h : Layered layer w e) :
    Operation layer.level w e := by
  induction h with
  | pass next _ ih =>
    rw [Layer.level_of_tighter? next] at ih
    exact .lift ih
  | binary _ isOp next _ first second =>
    rw [Layer.level_of_tighter? next] at second
    obtain ⟨is, level⟩ := Layer.mem_operators_iff.1 isOp
    exact .binary first is level second
  | negation isMinus _ ih => exact .negation isMinus ih
  | complement isNot _ ih => exact .complement isNot ih
  | text is | integer is | fraction is => exact .literal (by rw [Parser.literal?, is])
  | name isName => exact .var isName
  | call isName opens joined _ closes ih => exact .call isName opens joined ih closes
  | index isName opens _ closes ih => exact .index isName opens ih closes
  | group opens _ closes ih => exact .group opens ih closes

theorem layered_of_literal {t : Token} {e : Node} (h : Parser.literal? t = some e) :
    Layered .operand [t] e := by
  obtain is | is | is := kind_of_literal h <;> rw [Parser.literal?, is] at h <;> cases h
  · exact .text is
  · exact .integer is
  · exact .fraction is

/-- The layers are the levels. -/
theorem layered_iff {layer : Layer} {w : List Token} {e : Node} :
    Layered layer w e ↔ Operation layer.level w e := by
  refine ⟨Layered.operation, fun h => ?_⟩
  generalize level : layer.level = p at h
  induction h generalizing layer with
  | lift tighter ih =>
    have low := tighter.level_le
    obtain ⟨inner, next⟩ := layer.tighter?_of_level (by omega)
    exact .pass next (ih (by rw [Layer.level_of_tighter? next, level]))
  | @binary _ _ _ _ _ _ op _ isOp same _ first second =>
    have low := op.precedence_le
    obtain ⟨inner, next⟩ := layer.tighter?_of_level (by omega)
    exact .binary (first level) (Layer.mem_operators_iff.2 ⟨isOp, same.trans level.symm⟩) next
      (second (by rw [Layer.level_of_tighter? next, level]))
  | negation isMinus _ ih =>
    obtain rfl := Layer.eq_of_level .signed level
    exact .negation isMinus (ih rfl)
  | complement isNot _ ih =>
    obtain rfl := Layer.eq_of_level .signed level
    exact .complement isNot (ih rfl)
  | literal isLiteral =>
    obtain rfl := Layer.eq_of_level .operand level
    exact layered_of_literal isLiteral
  | var isName =>
    obtain rfl := Layer.eq_of_level .operand level
    exact .name isName
  | call isName opens joined _ closes ih =>
    obtain rfl := Layer.eq_of_level .operand level
    exact .call isName opens joined (fun x member => ih x member rfl) closes
  | index isName opens _ closes ih =>
    obtain rfl := Layer.eq_of_level .operand level
    exact .index isName opens (ih rfl) closes
  | group opens _ closes ih =>
    obtain rfl := Layer.eq_of_level .operand level
    exact .group opens (ih rfl) closes

/-! ## Reading is deriving -/

/-- What may follow an expression: no binary operator, and after a name neither a parenthesis nor a
bracket. -/
def Closes (w : List Token) (t : Token) : Prop :=
  (∀ layer op, (t.kind, op) ∉ Layer.operators layer) ∧
    ((∃ s ∈ w.getLast?, s.kind = .ident) → t.kind ≠ .openParen ∧ t.kind ≠ .openBracket)

theorem closes_iff {w : List Token} {t : Token} :
    Closes w t ↔ Parser.endsOperation w 1 t.kind := by
  rw [Closes, Parser.endsOperation, Parser.endsOperand, and_comm]
  refine and_congr_right fun _ => ⟨fun none op is => ?_, fun loose layer op member => ?_⟩
  · have layered : ∃ layer : Layer, op.precedence = layer.level := by
      cases op with
      | or => exact ⟨.disjunction, rfl⟩
      | and => exact ⟨.conjunction, rfl⟩
      | eq | ne | lt | le | gt | ge => exact ⟨.comparison, rfl⟩
      | add | sub => exact ⟨.sum, rfl⟩
      | mul | div | mod => exact ⟨.product, rfl⟩
    obtain ⟨layer, level⟩ := layered
    exact absurd (Layer.mem_operators_iff.2 ⟨is, level⟩) (none layer op)
  · obtain ⟨is, level⟩ := Layer.mem_operators_iff.1 member
    have low := loose op is
    cases layer <;> rw [level] at low <;> exact absurd low (by decide)

/-- **Precedence climbing is the layered grammar.** Before the tokens `w ++ r`, `r` not empty, an
expression is read as `e` with exactly `w` taken iff `w` is derived as `e` in the layers and the first
token of `r` does not extend it. And whatever the tokens, they are derived as one expression at most. -/
theorem Parser.expression_iff_layered {c : Cursor} {w r : List Token}
    (stream : c.ahead = (w ++ r).map .ok) (more : r ≠ []) :
    (∀ e, (∃ c', expression c = .ok e c' ∧ c'.ahead = r.map .ok) ↔
      Layered .disjunction w e ∧ ∀ t ∈ r.head?, Closes w t) ∧
    ∀ v e e', Layered .disjunction v e → Layered .disjunction v e' → e = e' := by
  refine ⟨fun e => ⟨?_, ?_⟩, fun v e e' h h' => h.operation.unique h'.operation⟩
  · rintro ⟨c', run, left⟩
    obtain ⟨v, took, derived, ends⟩ := expression_eq_ok run
    obtain rfl : w = v := by
      rw [Cursor.Took, stream, left, List.map_append] at took
      exact (List.map_inj_right fun _ _ => Except.ok.inj).1 (List.append_cancel_right took)
    refine ⟨layered_iff.2 derived, fun t first => closes_iff.2 ?_⟩
    obtain ⟨s, rfl⟩ := List.head?_eq_some_iff.1 first
    rwa [Cursor.current_of_ahead left] at ends
  · rintro ⟨derived, closes⟩
    obtain ⟨t, s, rfl⟩ := List.exists_cons_of_ne_nil more
    rw [List.map_append] at stream
    exact takes_whole_expression derived.operation c _ stream ⟨t, s.map .ok, rfl, closes_iff.1 (closes t rfl)⟩

/-- Differences group to the left, and a parenthesis after a call is left where it stands. -/
theorem Parser.layered_before_parenthesis :
    let c : Cursor := ⟨⟨" - b - f(c) (".toList, ⟨1, 2⟩, false⟩, ⟨.ident, "a", ⟨1, 1⟩⟩⟩
    let w : List Token := [⟨.ident, "a", ⟨1, 1⟩⟩, ⟨.minus, "-", ⟨1, 3⟩⟩, ⟨.ident, "b", ⟨1, 5⟩⟩,
      ⟨.minus, "-", ⟨1, 7⟩⟩, ⟨.ident, "f", ⟨1, 9⟩⟩, ⟨.openParen, "(", ⟨1, 10⟩⟩,
      ⟨.ident, "c", ⟨1, 11⟩⟩, ⟨.closeParen, ")", ⟨1, 12⟩⟩]
    let r : List Token := [⟨.openParen, "(", ⟨1, 14⟩⟩, ⟨.endOfInput, "", ⟨1, 15⟩⟩]
    let e : Node := .binary .sub
      (.binary .sub (.var "a" ⟨1, 1⟩) (.var "b" ⟨1, 5⟩) ⟨1, 3⟩)
      (.call "f" [.var "c" ⟨1, 11⟩] ⟨1, 9⟩) ⟨1, 7⟩
    c.ahead = (w ++ r).map .ok ∧ (∃ c', expression c = .ok e c' ∧ c'.ahead = r.map .ok) ∧
      Layered .disjunction w e := by
  intro c w r e
  have stream : c.ahead = (w ++ r).map .ok := by decide +kernel
  have run : ∃ c', expression c = .ok e c' ∧ c'.ahead = r.map .ok :=
    ⟨⟨⟨[], ⟨1, 15⟩, false⟩, ⟨.openParen, "(", ⟨1, 14⟩⟩⟩, by cbv, by decide +kernel⟩
  exact ⟨stream, run, (((expression_iff_layered stream (by simp [r])).1 e).1 run).1⟩

end Pascalize
