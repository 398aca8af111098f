import Pascalize.Proofs.ExpressionParsing

/-!
# Reading statements is deriving them

Each rule of the grammar for types, declarations and statements, in both directions, and from them
the rule for a whole program. Blocks are handled by a parser `body` whose laws are assumed in the
rules that use it; the bound on the depth of blocks supplies them.
-/

namespace Pascalize

open Derives

namespace Parser

variable {c c' : Cursor} {v w : List Token} {n : Nat} {body : Parser (List Node)}

/-! From runs to derivations. -/

/-- The name of the element type has been read before, and the bracket with the size follows it. A size
that does not fit is refused, so the derivation holds one that fits. -/
theorem gives_arrayType {element : Token} (isName : element.kind = .ident) :
    Gives (arrayType element) fun w type => ArrayType (element :: w) type := by
  intro c type c' h
  obtain ⟨opening, c₁, run₁, h⟩ := bind_eq_ok.1 h
  obtain ⟨size, c₂, run₂, h⟩ := bind_eq_ok.1 h
  obtain ⟨opens, took₁⟩ := expect_eq_ok run₁ (by decide)
  obtain ⟨isInt, took₂⟩ := expect_eq_ok run₂ (by decide)
  obtain ⟨_, rule, h⟩ := exists_rule h
  split at rule <;> subst rule
  next => exact absurd h (throw_ne_ok _)
  next k fits =>
    obtain ⟨closing, c₃, run₃, h⟩ := bind_eq_ok.1 h
    obtain ⟨rfl, rfl⟩ := pure_eq_ok.1 h
    obtain ⟨closes, took₃⟩ := expect_eq_ok run₃ (by decide)
    refine ⟨_, took₁.trans (took₂.trans took₃), ?_⟩
    simp only [arraySize?] at fits
    split at fits
    next small =>
      obtain rfl := Option.some.inj fits
      exact .mk isName opens isInt small closes
    next => nomatch fits

/-- A type is a name, with a bracket and a size or without. -/
theorem gives_typeName : Gives typeName TypeOf := by
  intro c type c' h
  obtain ⟨name, c₁, run₁, h⟩ := bind_eq_ok.1 h
  obtain ⟨isName, took₁⟩ := expect_eq_ok run₁ (by decide)
  rw [peek_bind] at h
  split at h
  next =>
    obtain ⟨w, took₂, suffixed⟩ := gives_arrayType isName c₁ type c' h
    exact ⟨_, took₁.trans took₂, .array suffixed⟩
  next =>
    obtain ⟨rfl, rfl⟩ := pure_eq_ok.1 h
    exact ⟨_, took₁, .plain isName⟩

theorem gives_parameter : Gives parameter Parameter := by
  intro c decl c' h
  obtain ⟨type, c₁, run₁, h⟩ := bind_eq_ok.1 h
  obtain ⟨name, c₂, run₂, h⟩ := bind_eq_ok.1 h
  obtain ⟨rfl, rfl⟩ := pure_eq_ok.1 h
  obtain ⟨v, took₁, typed⟩ := gives_typeName c type c₁ run₁
  obtain ⟨isName, took₂⟩ := expect_eq_ok run₂ (by decide)
  exact ⟨_, took₁.trans took₂, .mk typed isName⟩

/-- No parameters derive from no tokens, and others from a list with commas. -/
theorem gives_parameters : Gives parameters Parameters := by
  intro c params c' h
  rw [parameters, peek_bind] at h
  split at h
  next =>
    obtain ⟨rfl, rfl⟩ := pure_eq_ok.1 h
    exact ⟨[], .refl c, .nil⟩
  next =>
    obtain ⟨w, took, items, joined, each, rfl⟩ :=
      gives_separatedWithin gives_parameter (by decide) _ c params c' h
    exact ⟨w, took, .list joined each⟩

/-- A statement before its semicolon: one that takes a semicolon, or a whole statement that takes
none. -/
def Bare (w : List Token) (node : Node) : Prop :=
  Simple w node ∨ (Statement w node ∧ node.isSelfTerminated = true)

/-- The heading and the body of a function. The tokens `k` of a `const` before it, the type and the name
have been read before. -/
theorem gives_function {k : List Token} {isConst : Bool} {returns name : Token}
    (inside : Gives body Statements) (constness : Constness k isConst)
    (isType : returns.kind = .ident) (isName : name.kind = .ident) :
    Gives (function body returns name) fun w node => Bare (k ++ returns :: name :: w) node := by
  intro c node c' h
  obtain ⟨opening, c₁, run₁, h⟩ := bind_eq_ok.1 h
  obtain ⟨params, c₂, run₂, h⟩ := bind_eq_ok.1 h
  obtain ⟨closing, c₃, run₃, h⟩ := bind_eq_ok.1 h
  obtain ⟨openBody, c₄, run₄, h⟩ := bind_eq_ok.1 h
  obtain ⟨nodes, c₅, run₅, h⟩ := bind_eq_ok.1 h
  obtain ⟨closeBody, c₆, run₆, h⟩ := bind_eq_ok.1 h
  obtain ⟨rfl, rfl⟩ := pure_eq_ok.1 h
  obtain ⟨opens, took₁⟩ := expect_eq_ok run₁ (by decide)
  obtain ⟨v, took₂, parameters⟩ := gives_parameters c₁ params c₂ run₂
  obtain ⟨closes, took₃⟩ := expect_eq_ok run₃ (by decide)
  obtain ⟨opensBody, took₄⟩ := expect_eq_ok run₄ (by decide)
  obtain ⟨u, took₅, items, rfl, rfl, each⟩ := inside c₄ nodes c₅ run₅
  obtain ⟨closesBody, took₆⟩ := expect_eq_ok run₆ (by decide)
  refine ⟨_, took₁.trans (took₂.trans (took₃.trans (took₄.trans (took₅.trans took₆)))), .inr ⟨?_, rfl⟩⟩
  exact .function constness isType isName opens parameters closes opensBody each closesBody

/-- What follows the first name of declarations, by induction on the bound: a name after a comma, or a
value after a sign of assignment. -/
theorem gives_declarationTailWithin (type : TypeName) (isConst : Bool) (n : Nat) (latest : Token) :
    Gives (declarationTailWithin type isConst n latest) (Tail type isConst latest) := by
  induction n generalizing latest with
  | zero => exact fun c nodes c' h => absurd h exhausted_ne_ok
  | succ n ih =>
    intro c nodes c' h
    simp only [declarationTailWithin, peek_bind] at h
    obtain ⟨_, rule, h⟩ := exists_rule h
    split at rule <;> subst rule
    next =>
      obtain ⟨rfl, rfl⟩ := pure_eq_ok.1 h
      exact ⟨[], .refl c, .nil latest⟩
    next isComma =>
      obtain ⟨comma, c₁, run₁, h⟩ := bind_eq_ok.1 h
      obtain ⟨name, c₂, run₂, h⟩ := bind_eq_ok.1 h
      obtain ⟨rest, c₃, run₃, h⟩ := bind_eq_ok.1 h
      obtain ⟨rfl, rfl⟩ := pure_eq_ok.1 h
      obtain ⟨rfl, took₁⟩ := advance_eq_ok run₁
      obtain ⟨isName, took₂⟩ := expect_eq_ok run₂ (by decide)
      obtain ⟨w, took₃, tail⟩ := ih name c₂ rest c₃ run₃
      exact ⟨_, (took₁ (by rw [isComma]; decide)).trans (took₂.trans took₃),
        .name isComma isName tail⟩
    next isAssign =>
      obtain ⟨sign, c₁, run₁, h⟩ := bind_eq_ok.1 h
      obtain ⟨value, c₂, run₂, h⟩ := bind_eq_ok.1 h
      obtain ⟨rest, c₃, run₃, h⟩ := bind_eq_ok.1 h
      obtain ⟨rfl, rfl⟩ := pure_eq_ok.1 h
      obtain ⟨rfl, took₁⟩ := advance_eq_ok run₁
      obtain ⟨v, took₂, derived⟩ := gives_expression c₁ value c₂ run₂
      obtain ⟨w, took₃, tail⟩ := ih latest c₂ rest c₃ run₃
      exact ⟨c.current :: (v ++ w), (took₁ (by rw [isAssign]; decide)).trans (took₂.trans took₃),
        .value isAssign derived tail⟩
    next => exact absurd h (fail_ne_ok _)

/-- Declarations go on up to a semicolon. -/
theorem semicolon_of_declarationTailWithin {type : TypeName} {isConst : Bool} {latest : Token}
    {nodes : List Node} (h : declarationTailWithin type isConst n latest c = .ok nodes c') :
    c'.current.kind = .semicolon := by
  induction n generalizing latest c nodes with
  | zero => exact absurd h exhausted_ne_ok
  | succ n ih =>
    simp only [declarationTailWithin, peek_bind] at h
    obtain ⟨_, rule, h⟩ := exists_rule h
    split at rule <;> subst rule
    next ends =>
      obtain ⟨rfl, rfl⟩ := pure_eq_ok.1 h
      exact ends
    next =>
      obtain ⟨_, _, _, h⟩ := bind_eq_ok.1 h
      obtain ⟨_, _, _, h⟩ := bind_eq_ok.1 h
      obtain ⟨_, _, run, h⟩ := bind_eq_ok.1 h
      obtain ⟨rfl, rfl⟩ := pure_eq_ok.1 h
      exact ih run
    next =>
      obtain ⟨_, _, _, h⟩ := bind_eq_ok.1 h
      obtain ⟨_, _, _, h⟩ := bind_eq_ok.1 h
      obtain ⟨_, _, run, h⟩ := bind_eq_ok.1 h
      obtain ⟨rfl, rfl⟩ := pure_eq_ok.1 h
      exact ih run
    next => exact absurd h (fail_ne_ok _)

/-- Declarations in a row, of which the type and the first name have been read. As they end before a
semicolon and one does not come next, something was read. -/
theorem declarations_eq_ok {k : List Token} {isConst : Bool} {type name : Token} {node : Node}
    (constness : Constness k isConst) (isType : type.kind = .ident) (isName : name.kind = .ident)
    (more : c.current.kind ≠ .semicolon)
    (h : declarations (plainType type) isConst name c = .ok node c') :
    ∃ w, c.Took w c' ∧ Simple (k ++ type :: name :: w) node := by
  rw [declarations, get_bind] at h
  obtain ⟨rest, c₁, run, h⟩ := bind_eq_ok.1 h
  obtain ⟨rfl, rfl⟩ := pure_eq_ok.1 h
  obtain ⟨w, took, tail⟩ := gives_declarationTailWithin _ _ _ name c rest c₁ run
  refine ⟨w, took, .declarations constness isType isName tail ?_⟩
  rintro rfl
  have same : c.current = c₁.current := Cursor.current_of_ahead took
  rw [same, semicolon_of_declarationTailWithin run] at more
  exact more rfl

/-- After two names in a row: a function, declarations in a row or a single one. -/
theorem typedName_eq_ok {k : List Token} {isConst : Bool} {type : Token} {node : Node}
    (inside : Gives body Statements) (constness : Constness k isConst)
    (isType : type.kind = .ident) (isName : c.current.kind = .ident)
    (h : typedName body isConst type c = .ok node c') :
    ∃ w, c.Took w c' ∧ Bare (k ++ type :: w) node := by
  obtain ⟨name, c₁, run₁, h⟩ := bind_eq_ok.1 h
  obtain ⟨rfl, took₁⟩ := advance_eq_ok run₁
  have took₁ := took₁ (by rw [isName]; decide)
  simp only [peek_bind] at h
  obtain ⟨_, rule, h⟩ := exists_rule h
  split at rule <;> subst rule
  next =>
    obtain ⟨w, took₂, derived⟩ := gives_function inside constness isType isName c₁ node c' h
    exact ⟨_, took₁.trans took₂, derived⟩
  next isComma =>
    obtain ⟨w, took₂, derived⟩ :=
      declarations_eq_ok constness isType isName (by rw [isComma]; decide) h
    exact ⟨_, took₁.trans took₂, .inl derived⟩
  next isAssign =>
    obtain ⟨w, took₂, derived⟩ :=
      declarations_eq_ok constness isType isName (by rw [isAssign]; decide) h
    exact ⟨_, took₁.trans took₂, .inl derived⟩
  next =>
    obtain ⟨rfl, rfl⟩ := pure_eq_ok.1 h
    exact ⟨_, took₁, .inl (.declaration constness isType isName)⟩

/-- Elements in brackets. -/
theorem gives_sequence : Gives sequence fun w node => ∃ (opening closing : Token) (v : List Token)
    (es : List Node), w = opening :: (v ++ [closing]) ∧ opening.kind = .openBracket ∧
      Expressions v es ∧ closing.kind = .closeBracket ∧ node = .sequence es opening.location := by
  intro c node c' h
  obtain ⟨opening, c₁, run₁, h⟩ := bind_eq_ok.1 h
  obtain ⟨es, c₂, run₂, h⟩ := bind_eq_ok.1 h
  obtain ⟨closing, c₃, run₃, h⟩ := bind_eq_ok.1 h
  obtain ⟨rfl, rfl⟩ := pure_eq_ok.1 h
  obtain ⟨opens, took₁⟩ := expect_eq_ok run₁ (by decide)
  obtain ⟨v, took₂, items⟩ := gives_listedWithin gives_expression _ c₁ es c₂ run₂
  obtain ⟨closes, took₃⟩ := expect_eq_ok run₃ (by decide)
  exact ⟨_, took₁.trans (took₂.trans took₃), opening, closing, v, es, rfl, opens, items, closes, rfl⟩

/-- After the name that is assigned to, a sequence or an expression. -/
theorem assignment_eq_ok {target : Token} {node : Node} (isName : target.kind = .ident)
    (isAssign : c.current.kind = .assign) (h : assignment target c = .ok node c') :
    ∃ w, c.Took w c' ∧ Simple (target :: w) node := by
  obtain ⟨sign, c₁, run₁, h⟩ := bind_eq_ok.1 h
  obtain ⟨rfl, took₁⟩ := advance_eq_ok run₁
  have took₁ := took₁ (by rw [isAssign]; decide)
  rw [peek_bind] at h
  split at h
  next =>
    obtain ⟨value, c₂, run₂, h⟩ := bind_eq_ok.1 h
    obtain ⟨rfl, rfl⟩ := pure_eq_ok.1 h
    obtain ⟨_, took₂, opening, closing, v, es, rfl, opens, items, closes, rfl⟩ :=
      gives_sequence c₁ value c₂ run₂
    exact ⟨_, took₁.trans took₂, .sequence isName isAssign opens items closes⟩
  next =>
    obtain ⟨value, c₂, run₂, h⟩ := bind_eq_ok.1 h
    obtain ⟨rfl, rfl⟩ := pure_eq_ok.1 h
    obtain ⟨w, took₂, derived⟩ := gives_expression c₁ value c₂ run₂
    exact ⟨_, took₁.trans took₂, .assignment isName isAssign derived⟩

/-- A `const` is read or there is none. -/
theorem gives_constness : Gives (accept .kwConst) Constness := by
  intro c isConst c' h
  obtain ⟨rfl, t, is, took⟩ | ⟨rfl, rfl, -⟩ := accept_eq_ok h (by decide)
  · exact ⟨[t], took, .present is⟩
  · exact ⟨[], .refl c, .absent⟩

/-- A statement that begins with a name, or with `const` and a name. Without a second name or a bracket,
`const` is refused. -/
theorem gives_nameStatement (inside : Gives body Statements) : Gives (nameStatement body) Bare := by
  intro c node c' h
  obtain ⟨isConst, c₁, run₁, h⟩ := bind_eq_ok.1 h
  obtain ⟨first, c₂, run₂, h⟩ := bind_eq_ok.1 h
  obtain ⟨k, took₁, constness⟩ := gives_constness c isConst c₁ run₁
  obtain ⟨isName, took₂⟩ := expect_eq_ok run₂ (by decide)
  rw [peek_bind] at h
  obtain ⟨_, rule, h⟩ := exists_rule h
  split at rule <;> subst rule
  next isName' =>
    obtain ⟨w, took₃, derived⟩ := typedName_eq_ok inside constness isName isName' h
    exact ⟨k ++ first :: w, took₁.trans (took₂.trans took₃), derived⟩
  next =>
    obtain ⟨type, c₃, run₃, h⟩ := bind_eq_ok.1 h
    obtain ⟨name, c₄, run₄, h⟩ := bind_eq_ok.1 h
    obtain ⟨rfl, rfl⟩ := pure_eq_ok.1 h
    obtain ⟨v, took₃, suffixed⟩ := gives_arrayType isName c₂ type c₃ run₃
    obtain ⟨isName', took₄⟩ := expect_eq_ok run₄ (by decide)
    exact ⟨k ++ ((first :: v) ++ [name]), took₁.trans (took₂.trans (took₃.trans took₄)),
      .inl (.array constness suffixed isName')⟩
  next =>
    split at h
    next => exact absurd h (fail_ne_ok _)
    next notConst =>
      obtain rfl := constness.eq_nil notConst
      obtain ⟨_, rule, h⟩ := exists_rule h
      split at rule <;> subst rule
      next isAssign =>
        obtain ⟨w, took₃, derived⟩ := assignment_eq_ok isName isAssign h
        exact ⟨first :: w, took₁.trans (took₂.trans took₃), .inl derived⟩
      next =>
        obtain ⟨args, c₃, run₃, h⟩ := bind_eq_ok.1 h
        obtain ⟨rfl, rfl⟩ := pure_eq_ok.1 h
        obtain ⟨opening, closing, w, took₃, opens, closes, items⟩ :=
          gives_arguments gives_expression c₂ args c₃ run₃
        exact ⟨_, took₁.trans (took₂.trans took₃), .inl (.call isName opens items closes)⟩
      next => exact absurd h (fail_ne_ok _)

/-- Statements in braces. -/
theorem gives_block (inside : Gives body Statements) (keyword : Token) :
    Gives (control.block body keyword) fun w nodes => ∃ (opening closing : Token)
      (items : List (List Token × Node)), w = opening :: (concat items ++ [closing]) ∧
        opening.kind = .openBrace ∧ (∀ x ∈ items, Statement x.1 x.2) ∧
        closing.kind = .closeBrace ∧ nodes = items.map Prod.snd := by
  intro c nodes c' h
  obtain ⟨opening, c₁, run₁, h⟩ := bind_eq_ok.1 h
  obtain ⟨nodes', c₂, run₂, h⟩ := bind_eq_ok.1 h
  obtain ⟨closing, c₃, run₃, h⟩ := bind_eq_ok.1 h
  obtain ⟨rfl, rfl⟩ := pure_eq_ok.1 h
  obtain ⟨opens, took₁⟩ := expect_eq_ok run₁ (by decide)
  obtain ⟨_, took₂, items, rfl, rfl, each⟩ := inside c₁ nodes' c₂ run₂
  obtain ⟨closes, took₃⟩ := expect_eq_ok run₃ (by decide)
  exact ⟨_, took₁.trans (took₂.trans took₃), opening, closing, items, rfl, opens, each, closes, rfl⟩

/-- Loops, conditionals and `else` blocks end with a block, so no semicolon is due. -/
theorem control_eq_ok {node : Node} (inside : Gives body Statements)
    (starts : c.current.kind = .kwWhile ∨ c.current.kind = .kwIf ∨ c.current.kind = .kwElse)
    (h : control body c = .ok node c') : ∃ w, c.Took w c' ∧ Bare w node := by
  obtain ⟨keyword, c₁, run₁, h⟩ := bind_eq_ok.1 h
  obtain ⟨rfl, took₁⟩ := advance_eq_ok run₁
  have took₁ := took₁ (by obtain is | is | is := starts <;> rw [is] <;> decide)
  obtain ⟨_, rule, h⟩ := exists_rule h
  split at rule <;> subst rule
  next isElse =>
    obtain ⟨nodes, c₂, run₂, h⟩ := bind_eq_ok.1 h
    obtain ⟨rfl, rfl⟩ := pure_eq_ok.1 h
    obtain ⟨_, took₂, opening, closing, items, rfl, opens, each, closes, rfl⟩ :=
      gives_block inside _ c₁ nodes c₂ run₂
    exact ⟨_, took₁.trans took₂, .inr ⟨.alternative isElse opens each closes, rfl⟩⟩
  next isWhile =>
    obtain ⟨condition, c₂, run₂, h⟩ := bind_eq_ok.1 h
    obtain ⟨nodes, c₃, run₃, h⟩ := bind_eq_ok.1 h
    obtain ⟨rfl, rfl⟩ := pure_eq_ok.1 h
    obtain ⟨v, took₂, derived⟩ := gives_expression c₁ condition c₂ run₂
    obtain ⟨_, took₃, opening, closing, items, rfl, opens, each, closes, rfl⟩ :=
      gives_block inside _ c₂ nodes c₃ run₃
    exact ⟨_, took₁.trans (took₂.trans took₃),
      .inr ⟨.loop isWhile derived opens each closes, rfl⟩⟩
  next notElse notWhile =>
    have isIf : c.current.kind = .kwIf := by
      obtain is | is | is := starts
      · exact absurd is notWhile
      · exact is
      · exact absurd is notElse
    obtain ⟨condition, c₂, run₂, h⟩ := bind_eq_ok.1 h
    obtain ⟨nodes, c₃, run₃, h⟩ := bind_eq_ok.1 h
    obtain ⟨rfl, rfl⟩ := pure_eq_ok.1 h
    obtain ⟨v, took₂, derived⟩ := gives_expression c₁ condition c₂ run₂
    obtain ⟨_, took₃, opening, closing, items, rfl, opens, each, closes, rfl⟩ :=
      gives_block inside _ c₂ nodes c₃ run₃
    exact ⟨_, took₁.trans (took₂.trans took₃),
      .inr ⟨.conditional isIf derived opens each closes, rfl⟩⟩

/-- The first sign has been read before, and the items are parted by such signs. -/
theorem gives_stream {sign : Kind} {item : Parser Node} {Item : Token → Node → Prop} {s : Token}
    (each : Gives item fun w e => ∃ t, w = [t] ∧ Item t e) (isSign : s.kind = sign)
    (more : sign ≠ .endOfInput) :
    Gives (separated sign item) fun w es => Streamed sign Item (s :: w) es := by
  intro c es c' h
  obtain ⟨w, took, items, joined, derived, rfl⟩ := gives_separatedWithin each more _ c es c' h
  exact ⟨w, took, streamed_iff.2 ⟨s, w, items, rfl, isSign, joined, derived, rfl⟩⟩

theorem gives_inputTarget : Gives inputTarget fun w e => ∃ t, w = [t] ∧ InputItem t e := by
  intro c e c' h
  obtain ⟨name, c₁, run₁, h⟩ := bind_eq_ok.1 h
  obtain ⟨rfl, rfl⟩ := pure_eq_ok.1 h
  obtain ⟨isName, took⟩ := expect_eq_ok run₁ (by decide)
  exact ⟨[name], took, name, rfl, .name isName⟩

/-- At the end of input the token is judged and refused without having been taken. -/
theorem gives_outputItem : Gives outputItem fun w e => ∃ t, w = [t] ∧ OutputItem t e := by
  intro c e c' h
  obtain ⟨t, c₁, run₁, h⟩ := bind_eq_ok.1 h
  obtain ⟨-, took⟩ := advance_eq_ok run₁
  split at h
  next isName =>
    obtain ⟨rfl, rfl⟩ := pure_eq_ok.1 h
    exact ⟨[t], took (by rw [isName]; decide), t, rfl, .name isName⟩
  next =>
    obtain ⟨_, rule, h⟩ := exists_rule h
    split at rule <;> subst rule
    next isLiteral =>
      obtain ⟨rfl, rfl⟩ := pure_eq_ok.1 h
      refine ⟨[t], took ?_, t, rfl, .literal isLiteral⟩
      obtain is | is | is := kind_of_literal isLiteral <;> rw [is] <;> decide
    next => exact absurd h (refuse_ne_ok _ _)

/-- A result is the keyword and an expression. -/
theorem result_eq_ok {node : Node} (isReturn : c.current.kind = .kwReturn)
    (h : result c = .ok node c') : ∃ w, c.Took w c' ∧ Bare w node := by
  obtain ⟨keyword, c₁, run₁, h⟩ := bind_eq_ok.1 h
  obtain ⟨value, c₂, run₂, h⟩ := bind_eq_ok.1 h
  obtain ⟨rfl, rfl⟩ := pure_eq_ok.1 h
  obtain ⟨rfl, took₁⟩ := advance_eq_ok run₁
  obtain ⟨w, took₂, derived⟩ := gives_expression c₁ value c₂ run₂
  exact ⟨_, (took₁ (by rw [isReturn]; decide)).trans took₂, .inl (.result isReturn derived)⟩

theorem input_eq_ok {node : Node} (isCin : c.current.kind = .kwCin)
    (h : input c = .ok node c') : ∃ w, c.Took w c' ∧ Bare w node := by
  obtain ⟨keyword, c₁, run₁, h⟩ := bind_eq_ok.1 h
  obtain ⟨sign, c₂, run₂, h⟩ := bind_eq_ok.1 h
  obtain ⟨targets, c₃, run₃, h⟩ := bind_eq_ok.1 h
  obtain ⟨rfl, rfl⟩ := pure_eq_ok.1 h
  obtain ⟨rfl, took₁⟩ := advance_eq_ok run₁
  obtain ⟨isSign, took₂⟩ := expect_eq_ok run₂ (by decide)
  obtain ⟨w, took₃, stream⟩ :=
    gives_stream gives_inputTarget isSign (by decide) c₂ targets c₃ run₃
  exact ⟨_, (took₁ (by rw [isCin]; decide)).trans (took₂.trans took₃), .inl (.input isCin stream)⟩

theorem output_eq_ok {node : Node} (isCout : c.current.kind = .kwCout)
    (h : output c = .ok node c') : ∃ w, c.Took w c' ∧ Bare w node := by
  obtain ⟨keyword, c₁, run₁, h⟩ := bind_eq_ok.1 h
  obtain ⟨sign, c₂, run₂, h⟩ := bind_eq_ok.1 h
  obtain ⟨items, c₃, run₃, h⟩ := bind_eq_ok.1 h
  obtain ⟨rfl, rfl⟩ := pure_eq_ok.1 h
  obtain ⟨rfl, took₁⟩ := advance_eq_ok run₁
  obtain ⟨isSign, took₂⟩ := expect_eq_ok run₂ (by decide)
  obtain ⟨w, took₃, stream⟩ :=
    gives_stream gives_outputItem isSign (by decide) c₂ items c₃ run₃
  exact ⟨_, (took₁ (by rw [isCout]; decide)).trans (took₂.trans took₃),
    .inl (.output isCout stream)⟩

/-- One token inside a comment, for which its word stands. -/
theorem commentItem_eq_ok {word : String} (inside : (c.current.kind = .closeComment) = false)
    (h : commentItem c = .ok word c') :
    ∃ w, c.Took w c' ∧ ∃ t, w = [t] ∧ t.kind ≠ .closeComment ∧ word = commentWord t := by
  rw [commentItem, peek_bind] at h
  split at h
  next => exact absurd h (fail_ne_ok _)
  next more =>
    obtain ⟨t, c₁, run₁, h⟩ := bind_eq_ok.1 h
    obtain ⟨rfl, rfl⟩ := pure_eq_ok.1 h
    obtain ⟨rfl, took⟩ := advance_eq_ok run₁
    exact ⟨_, took more, _, rfl, by simpa using inside, rfl⟩

/-- The phrases inside a comment are single tokens. -/
theorem commentTokens {items : List (List Token × String)} (each : ∀ x ∈ items, ∃ t, x.1 = [t] ∧
      t.kind ≠ .closeComment ∧ x.2 = commentWord t) :
    ∃ inner : List Token, concat items = inner ∧ items.map Prod.snd = inner.map commentWord ∧
      ∀ t ∈ inner, t.kind ≠ .closeComment := by
  induction items with
  | nil => exact ⟨[], rfl, rfl, by simp⟩
  | cons x items ih =>
    obtain ⟨inner, tokens, same, outside⟩ := ih fun y member => each y (by simp [member])
    obtain ⟨t, single, other, word⟩ := each x List.mem_cons_self
    refine ⟨t :: inner, ?_, by simp [same, word], by simpa using ⟨other, outside⟩⟩
    simp only [concat, List.map_cons, List.flatten_cons, single] at tokens ⊢
    rw [tokens]
    rfl

/-- A comment between its marks. It stops before a closing mark only, so that mark is what is taken last.
-/
theorem blockComment_eq_ok {node : Node} (opens : c.current.kind = .openComment)
    (h : blockComment c = .ok node c') : ∃ w, c.Took w c' ∧ Bare w node := by
  obtain ⟨opening, c₁, run₁, h⟩ := bind_eq_ok.1 h
  obtain ⟨words, c₂, run₂, h⟩ := bind_eq_ok.1 h
  obtain ⟨closing, c₃, run₃, h⟩ := bind_eq_ok.1 h
  obtain ⟨rfl, rfl⟩ := pure_eq_ok.1 h
  obtain ⟨rfl, took₁⟩ := advance_eq_ok run₁
  obtain ⟨rfl, took₃⟩ := advance_eq_ok run₃
  have closes : c₂.current.kind = .closeComment := by
    simpa using stop_of_manyWithin run₂
  obtain ⟨_, took₂, items, rfl, each, rfl⟩ := gives_manyWithin
    (fun c a c' inside run => commentItem_eq_ok (by simpa using inside) run) _ c₁ words c₂ run₂
  obtain ⟨inner, tokens, same, outside⟩ := commentTokens each
  rw [same]
  refine ⟨_, (took₁ (by rw [opens]; decide)).trans (took₂.trans (took₃ (by rw [closes]; decide))), ?_⟩
  rw [tokens]
  exact .inr ⟨.blockComment opens outside closes, rfl⟩

/-- **A statement before its semicolon**, by the rule that its first token selects. -/
theorem gives_bareStatement (inside : Gives body Statements) : Gives (bareStatement body) Bare := by
  intro c node c' h
  rw [bareStatement, peek_bind] at h
  obtain ⟨_, rule, h⟩ := exists_rule h
  split at rule <;> subst rule
  next => exact gives_nameStatement inside c node c' h
  next => exact gives_nameStatement inside c node c' h
  next is => exact control_eq_ok inside (.inl is) h
  next is => exact control_eq_ok inside (.inr (.inl is)) h
  next is => exact control_eq_ok inside (.inr (.inr is)) h
  next is => exact result_eq_ok is h
  next is => exact input_eq_ok is h
  next is => exact output_eq_ok is h
  next isComment =>
    obtain ⟨t, c₁, run₁, h⟩ := bind_eq_ok.1 h
    obtain ⟨rfl, rfl⟩ := pure_eq_ok.1 h
    obtain ⟨rfl, took₁⟩ := advance_eq_ok run₁
    exact ⟨_, took₁ (by rw [isComment]; decide), .inr ⟨.lineComment isComment, rfl⟩⟩
  next is => exact blockComment_eq_ok is h
  next => exact absurd h (fail_ne_ok _)

/-- Statements in a row, up to where the block or the program ends. -/
theorem gives_many {stop : Kind → Bool} {item : Parser Node} (each : Gives item Statement) :
    Gives (many stop item) Statements := by
  intro c nodes c' h
  obtain ⟨w, took, items, same, derived, rfl⟩ :=
    gives_manyWithin (fun c a c' _ run => each c a c' run) _ c nodes c' h
  exact ⟨w, took, items, same, rfl, derived⟩

/-- **A statement that is read is derived**, by induction on the bound for the depth of its blocks. -/
theorem gives_statementWithin (n : Nat) : Gives (statementWithin n) Statement := by
  induction n with
  | zero => exact fun c node c' h => absurd h exhausted_ne_ok
  | succ n ih =>
    intro c node c' h
    obtain ⟨node', c₁, run₁, h⟩ := bind_eq_ok.1 h
    obtain ⟨w, took₁, bare⟩ := gives_bareStatement (gives_many ih) c node' c₁ run₁
    split at h
    next terminated =>
      obtain ⟨rfl, rfl⟩ := pure_eq_ok.1 h
      obtain simple | ⟨derived, -⟩ := bare
      · exact absurd terminated (by simp [simple.isSelfTerminated])
      · exact ⟨w, took₁, derived⟩
    next open_ =>
      obtain ⟨semicolon, c₂, run₂, h⟩ := bind_eq_ok.1 h
      obtain ⟨rfl, rfl⟩ := pure_eq_ok.1 h
      obtain ⟨ends, took₂⟩ := expect_eq_ok run₂ (by decide)
      obtain simple | ⟨-, terminated⟩ := bare
      · exact ⟨_, took₁.trans took₂, .simple simple ends⟩
      · exact absurd terminated open_

/-- A program that is read ends where the input ends, and its statements are derived. -/
theorem program_eq_ok {program : Program} (h : Parser.program c = .ok program c') :
    c.current.kind ≠ .endOfInput ∧ c'.current.kind = .endOfInput ∧
      program.finish = c'.current.location ∧ ∃ w, c.Took w c' ∧ Statements w program.statements := by
  rw [Parser.program, peek_bind] at h
  split at h
  next => exact absurd h (fail_ne_ok _)
  next more =>
    obtain ⟨nodes, c₁, run₁, h⟩ := bind_eq_ok.1 h
    rw [get_bind] at h
    obtain ⟨rfl, rfl⟩ := pure_eq_ok.1 h
    have each : Gives statement Statement := fun c node c' run =>
      gives_statementWithin c.bound c node c' run
    refine ⟨more, by simpa using stop_of_manyWithin run₁, rfl, gives_many each c nodes _ run₁⟩

/-! From derivations to runs. -/

/-- A size that fits passes its check. -/
theorem takes_arrayType {element : Token} {type : TypeName} (h : ArrayType (element :: w) type) :
    Takes (arrayType element) anyKind w type := by
  obtain ⟨isName, opens, isInt, fits, closes⟩ := h
  refine (takes_expect opens).cons_bind ((takes_expect isInt).cons_bind ?_)
  simp only [arraySize?, fits, if_true]
  exact (takes_expect closes).cons_bind (takes_pure _)

/-- A plain type may stand before anything but a bracket, which would make it an array. -/
theorem takes_typeName {type : TypeName} (h : TypeOf w type) :
    Takes typeName (· ≠ .openBracket) w type := by
  cases h with
  | plain isName =>
    refine (takes_expect isName).cons_bind (Takes.peek_bind_nil fun k other => ?_)
    rw [if_neg other]
    exact takes_pure _
  | array suffixed =>
    have inner := suffixed
    obtain ⟨isName, opens, _, _, _⟩ := suffixed
    refine (takes_expect isName).cons_bind (Takes.peek_bind ?_)
    rw [if_pos opens]
    exact (takes_arrayType inner).mono fun _ _ => trivial

theorem takes_parameter {decl : Declaration} (h : Parameter w decl) :
    Takes parameter anyKind w decl := by
  obtain ⟨typed, isName⟩ := h
  refine (takes_typeName typed).bind_cons ?_ (by rw [isName]; decide)
  exact (takes_expect isName).cons_bind (takes_pure _)

/-- Parameters stand before the closing parenthesis. -/
theorem takes_parameters {params : List Declaration} (h : Parameters w params) :
    Takes parameters (· = .closeParen) w params := by
  cases h with
  | nil =>
    refine Takes.peek_bind_nil fun k is => ?_
    rw [if_pos is]
    exact takes_pure _
  | @list _ items joined each =>
    obtain ⟨t, u, rfl, isName⟩ := joined.begins (P := (· = .ident)) fun v member => by
      obtain ⟨x, listed, rfl⟩ := List.mem_map.1 member
      exact (each x listed).begins
    refine Takes.peek_bind ?_
    rw [if_neg (by rw [isName]; decide)]
    exact takes_separated joined (fun x member => takes_parameter (each x member)) trivial
      fun k is => ⟨trivial, by rw [is]; decide⟩

/-- The heading and the body of a function, with the body as its own law has it. -/
theorem takes_function {returns name opening closing openBody closeBody : Token}
    {params : List Declaration} {nodes : List Node} (opens : opening.kind = .openParen)
    (parameters : Parameters v params) (closes : closing.kind = .closeParen)
    (opensBody : openBody.kind = .openBrace)
    (inside : Takes body (endsBlock · = true) w nodes) (closesBody : closeBody.kind = .closeBrace) :
    Takes (function body returns name) anyKind
      (opening :: (v ++ closing :: openBody :: (w ++ [closeBody])))
      (.function returns.text name.text params nodes name.location) := by
  refine (takes_expect opens).cons_bind ((takes_parameters parameters).bind_cons ?_ closes)
  refine (takes_expect closes).cons_bind ((takes_expect opensBody).cons_bind ?_)
  refine inside.bind_cons ?_ (by rw [closesBody]; decide)
  exact (takes_expect closesBody).cons_bind (takes_pure _)

/-- What follows the first name of declarations, by induction on the derivation. A bound greater than the
number of tokens is enough. -/
theorem takes_declarationTailWithin {type : TypeName} {isConst : Bool} {latest : Token}
    {nodes : List Node} (h : Tail type isConst latest w nodes) (enough : w.length < n) :
    Takes (declarationTailWithin type isConst n latest) (· = .semicolon) w nodes := by
  induction h generalizing n with
  | nil latest =>
    obtain _ | n := n
    · simp at enough
    rw [declarationTailWithin]
    refine Takes.peek_bind_nil fun k is => ?_
    simp only [is]
    exact takes_pure _
  | @name latest comma name w nodes isComma isName rest ih =>
    obtain _ | n := n
    · simp at enough
    simp only [List.length_cons] at enough
    rw [declarationTailWithin]
    refine Takes.peek_bind ?_
    simp only [isComma]
    refine (takes_advance comma).cons_bind ((takes_expect isName).cons_bind ?_)
    exact (ih (by omega)).bind_nil (takes_pure _)
  | @value latest sign v w e nodes isAssign value rest ih =>
    obtain _ | n := n
    · simp at enough
    simp only [List.length_cons, List.length_append] at enough
    rw [declarationTailWithin]
    refine Takes.peek_bind ?_
    simp only [isAssign]
    refine (takes_advance sign).cons_bind ((takes_expression value).bind
      ((ih (by omega)).bind_nil (takes_pure _)) fun r ends => ?_)
    cases w with
    | nil => exact ends.mono fun k is => by rw [is]; decide
    | cons t u =>
      refine ⟨t, _, rfl, ?_⟩
      obtain is | is := rest.begins <;> rw [is] <;> decide

/-- No `const` is taken where none comes next. -/
theorem takes_constness {k : List Token} {isConst : Bool} (h : Constness k isConst) :
    Takes (accept .kwConst) (· ≠ .kwConst) k isConst := by
  cases h with
  | absent => exact takes_accept_nil
  | present is => exact (takes_accept is).mono fun _ _ => trivial

/-- A name or `const` as the first token selects the rule for statements that begin with names. -/
theorem takes_bareStatement_of_name {F : Kind → Prop} {node : Node}
    (h : Takes (nameStatement body) F w node)
    (begins : ∃ t u, w = t :: u ∧ (t.kind = .ident ∨ t.kind = .kwConst)) :
    Takes (bareStatement body) F w node := by
  obtain ⟨t, u, rfl, is⟩ := begins
  refine Takes.peek_bind ?_
  obtain is | is := is <;> simpa only [is] using h

/-- Two names in a row select the rule for declarations and functions. -/
theorem takes_typedName {F : Kind → Prop} {k : List Token} {isConst : Bool} {type name : Token}
    {node : Node} (constness : Constness k isConst) (isType : type.kind = .ident)
    (isName : name.kind = .ident)
    (h : Takes (typedName body isConst type) F (name :: w) node) :
    Takes (bareStatement body) F (k ++ type :: name :: w) node := by
  refine takes_bareStatement_of_name ?_ (constness.begins isType (name :: w))
  refine (takes_constness constness).bind_cons ?_ (by rw [isType]; decide)
  refine (takes_expect isType).cons_bind (Takes.peek_bind ?_)
  simpa only [isName] using h

/-- The tail is not empty, so a comma or a sign of assignment comes after the first name. -/
theorem takes_declarations {isConst : Bool} {type name : Token} {nodes : List Node}
    (tail : Tail (plainType type) isConst name w nodes) (more : w ≠ []) :
    Takes (typedName body isConst type) (· = .semicolon) (name :: w)
      (.declarations (.declaration ⟨plainType type, name.text, isConst, name.location⟩ :: nodes)
        name.location) := by
  obtain ⟨t, u, rfl⟩ := List.exists_cons_of_ne_nil more
  have inner : Takes (declarations (plainType type) isConst name) (· = .semicolon) (t :: u)
      (.declarations (.declaration ⟨plainType type, name.text, isConst, name.location⟩ :: nodes)
        name.location) := by
    refine Takes.bound (f := fun n => do
      let rest ← declarationTailWithin (plainType type) isConst n name
      return Node.declarations (.declaration (declare (plainType type) isConst name) :: rest)
        name.location) fun n enough => ?_
    exact (takes_declarationTailWithin tail (by omega)).bind_nil (takes_pure _)
  refine (takes_advance name).cons_bind (Takes.peek_bind ?_)
  obtain is | is := tail.begins <;> simp only [is] <;> exact inner

/-- Elements in brackets. -/
theorem takes_sequence {opening closing : Token} {es : List Node}
    (opens : opening.kind = .openBracket) (items : Expressions w es)
    (closes : closing.kind = .closeBracket) :
    Takes sequence anyKind (opening :: (w ++ [closing])) (.sequence es opening.location) := by
  obtain ⟨items, joined, each, rfl⟩ := items
  have begins : ∀ x ∈ items, ∃ t u, x.1 = t :: u ∧ t.kind ≠ .closeBracket := by
    intro x member
    obtain ⟨t, u, same, starts⟩ := (each x member).begins
    exact ⟨t, u, same, fun is => by rw [is] at starts; nomatch starts⟩
  have inner := takes_listed joined (fun x member => takes_expression (each x member)) begins
    (by decide) (by decide) (by decide)
  refine (takes_expect opens).cons_bind (inner.bind_cons ?_ closes)
  exact (takes_expect closes).cons_bind (takes_pure _)

/-- A name and a parenthesis are a call. -/
theorem takes_call {name opening closing : Token} {args : List Node} (isName : name.kind = .ident)
    (opens : opening.kind = .openParen) (items : Expressions w args)
    (closes : closing.kind = .closeParen) :
    Takes (nameStatement body) anyKind (name :: opening :: (w ++ [closing]))
      (.call name.text args name.location) := by
  obtain ⟨items, joined, each, rfl⟩ := items
  refine (takes_constness .absent).bind_cons ?_ (by rw [isName]; decide)
  refine (takes_expect isName).cons_bind (Takes.peek_bind ?_)
  simp only [opens]
  have inner := takes_arguments opens joined each
    (fun x member => takes_expression (each x member)) (by decide) (by decide) closes
  exact inner.bind_nil (takes_pure _)

/-- The value of an assignment is an expression unless it starts with a bracket. -/
theorem takes_assignment {target sign : Token} {e : Node} (isName : target.kind = .ident)
    (isAssign : sign.kind = .assign) (value : Expression w e) :
    Takes (nameStatement body) (endsExpression · = true) (target :: sign :: w)
      (.assignment (.var target.text target.location) e sign.location) := by
  obtain ⟨t, u, rfl, starts⟩ := value.begins
  refine (takes_constness .absent).bind_cons ?_ (by rw [isName]; decide)
  refine (takes_expect isName).cons_bind (Takes.peek_bind ?_)
  simp only [isAssign]
  refine (takes_advance sign).cons_bind (Takes.peek_bind ?_)
  rw [if_neg fun is => by rw [is] at starts; nomatch starts]
  exact (takes_expression value).bind_nil (takes_pure _)

/-- A bracket after the sign selects the rule for sequences. -/
theorem takes_sequenceAssignment {target sign opening closing : Token} {es : List Node}
    (isName : target.kind = .ident) (isAssign : sign.kind = .assign)
    (opens : opening.kind = .openBracket) (items : Expressions w es)
    (closes : closing.kind = .closeBracket) :
    Takes (nameStatement body) anyKind (target :: sign :: opening :: (w ++ [closing]))
      (.assignment (.var target.text target.location) (.sequence es opening.location)
        sign.location) := by
  refine (takes_constness .absent).bind_cons ?_ (by rw [isName]; decide)
  refine (takes_expect isName).cons_bind (Takes.peek_bind ?_)
  simp only [isAssign]
  refine (takes_advance sign).cons_bind (Takes.peek_bind ?_)
  rw [if_pos opens]
  exact (takes_sequence opens items closes).bind_nil (takes_pure _)

/-- A name and a bracket are the type of an array. -/
theorem takes_arrayDeclaration {k : List Token} {isConst : Bool} {type : TypeName} {name : Token}
    (constness : Constness k isConst) (suffixed : ArrayType v type) (isName : name.kind = .ident) :
    Takes (bareStatement body) anyKind (k ++ (v ++ [name]))
      (.declaration ⟨type, name.text, isConst, name.location⟩) := by
  have type := suffixed
  obtain ⟨isType, opens, _, _, _⟩ := suffixed
  refine takes_bareStatement_of_name ?_ (constness.begins isType _)
  refine (takes_constness constness).bind_cons ?_ (by rw [isType]; decide)
  refine (takes_expect isType).cons_bind (Takes.peek_bind ?_)
  simp only [opens]
  refine (takes_arrayType type).bind_any ?_
  exact (takes_expect isName).cons_bind (takes_pure _)

/-- The items may stand before anything but another sign. -/
theorem takes_stream {sign : Kind} {item : Parser Node} {Item : Token → Node → Prop}
    {F : Kind → Prop} {es : List Node} (h : Streamed sign Item w es)
    (each : ∀ t e, Item t e → Takes item anyKind [t] e) (after : ∀ k, F k → k ≠ sign) :
    ∃ (s : Token) (u : List Token), w = s :: u ∧ s.kind = sign ∧ Takes (separated sign item) F u es := by
  obtain ⟨s, u, items, rfl, isSign, joined, derived, rfl⟩ := streamed_iff.1 h
  refine ⟨s, u, rfl, isSign, takes_separated joined (fun x member => ?_) trivial
    fun k allowed => ⟨trivial, after k allowed⟩⟩
  obtain ⟨t, same, item⟩ := derived x member
  rw [same]
  exact each t x.2 item

theorem takes_inputTarget (t : Token) (e : Node) (h : InputItem t e) :
    Takes inputTarget anyKind [t] e := by
  obtain ⟨isName⟩ := h
  exact (takes_expect isName).cons_bind (takes_pure _)

/-- A name or a literal passes the check of items. -/
theorem takes_outputItem (t : Token) (e : Node) (h : OutputItem t e) :
    Takes outputItem anyKind [t] e := by
  refine (takes_advance t).cons_bind ?_
  cases h with
  | name isName =>
    rw [if_pos isName]
    exact takes_pure _
  | literal isLiteral =>
    have other : t.kind ≠ .ident := by
      obtain is | is | is := kind_of_literal isLiteral <;> rw [is] <;> decide
    simp only [other, if_false, isLiteral]
    exact takes_pure _

/-- A statement that takes a semicolon is taken before it. -/
theorem takes_simple {node : Node} (h : Simple w node) :
    Takes (bareStatement body) (· = .semicolon) w node := by
  cases h with
  | declaration constness isType isName =>
    refine takes_typedName constness isType isName ?_
    refine (takes_advance _).cons_bind (Takes.peek_bind_nil fun k is => ?_)
    simp only [is]
    exact takes_pure _
  | declarations constness isType isName tail more =>
    exact takes_typedName constness isType isName (takes_declarations tail more)
  | array constness suffixed isName =>
    exact (takes_arrayDeclaration constness suffixed isName).mono fun _ _ => trivial
  | assignment isName isAssign value =>
    refine takes_bareStatement_of_name ?_ ⟨_, _, rfl, .inl isName⟩
    exact (takes_assignment isName isAssign value).mono fun k is => by rw [is]; decide
  | sequence isName isAssign opens items closes =>
    refine takes_bareStatement_of_name ?_ ⟨_, _, rfl, .inl isName⟩
    exact (takes_sequenceAssignment isName isAssign opens items closes).mono fun _ _ => trivial
  | call isName opens items closes =>
    refine takes_bareStatement_of_name ?_ ⟨_, _, rfl, .inl isName⟩
    exact (takes_call isName opens items closes).mono fun _ _ => trivial
  | @result keyword w e isReturn value =>
    have inner := (takes_expression value).mono (G := (· = .semicolon)) fun k is => by rw [is]; decide
    refine Takes.peek_bind ?_
    simp only [isReturn]
    exact (takes_advance keyword).cons_bind (inner.bind_nil (takes_pure _))
  | @input keyword w targets isCin stream =>
    obtain ⟨s, u, rfl, isSign, inner⟩ := takes_stream (F := (· = .semicolon)) stream
      takes_inputTarget fun k is => by rw [is]; decide
    refine Takes.peek_bind ?_
    simp only [isCin]
    refine (takes_advance keyword).cons_bind ((takes_expect isSign).cons_bind ?_)
    exact inner.bind_nil (takes_pure _)
  | @output keyword w items isCout stream =>
    obtain ⟨s, u, rfl, isSign, inner⟩ := takes_stream (F := (· = .semicolon)) stream
      takes_outputItem fun k is => by rw [is]; decide
    refine Takes.peek_bind ?_
    simp only [isCout]
    refine (takes_advance keyword).cons_bind ((takes_expect isSign).cons_bind ?_)
    exact inner.bind_nil (takes_pure _)

/-- A token with a token behind it is not the end of input, so a comment takes it. -/
theorem takes_commentItem (t : Token) : Takes commentItem anyKind [t] (commentWord t) := by
  intro c r ahead starts
  have more : c.current.kind ≠ .endOfInput := by
    obtain ⟨t', s, rfl, -⟩ := starts
    rw [Cursor.current_of_ahead ahead]
    exact Cursor.kind_ne_end_of_ahead ahead
  rw [commentItem, peek_bind, if_neg more]
  have item : Takes (do return commentWord (← advance)) anyKind [t] (commentWord t) :=
    (takes_advance t).cons_bind (takes_pure _)
  exact item c r ahead starts

theorem concat_singles {α : Type} (f : Token → α) (inner : List Token) :
    concat (inner.map fun t => ([t], f t)) = inner := by
  induction inner with
  | nil => rfl
  | cons t inner ih => exact congrArg (t :: ·) ih

/-- The tokens of a comment are taken one by one. -/
theorem takes_blockComment {opening closing : Token} {inner : List Token}
    (opens : opening.kind = .openComment) (inside : ∀ t ∈ inner, t.kind ≠ .closeComment)
    (closes : closing.kind = .closeComment) :
    Takes (bareStatement body) anyKind (opening :: (inner ++ [closing]))
      (.comment (" ".intercalate (inner.map commentWord)) opening.location) := by
  have items : Takes (many (· = .closeComment) commentItem) _
      (concat (inner.map fun t => ([t], commentWord t)))
      ((inner.map fun t => ([t], commentWord t)).map Prod.snd) :=
    takes_many (by simpa using fun t _ => takes_commentItem t) (by simpa using inside)
  rw [concat_singles, List.map_map] at items
  have words : Takes (many (· = .closeComment) commentItem) (· = .closeComment) inner
      (inner.map commentWord) := items.mono fun k is => by simpa using is
  refine Takes.peek_bind ?_
  simp only [opens]
  refine (takes_advance opening).cons_bind (words.bind_cons ?_ closes)
  exact (takes_advance closing).cons_bind (takes_pure _)

/-- Statements in braces. -/
theorem takes_block (keyword : Token) {opening closing : Token} {nodes : List Node}
    (opens : opening.kind = .openBrace) (inside : Takes body (endsBlock · = true) w nodes)
    (closes : closing.kind = .closeBrace) :
    Takes (control.block body keyword) anyKind (opening :: (w ++ [closing])) nodes := by
  refine (takes_expect opens).cons_bind (inside.bind_cons ?_ (by rw [closes]; decide))
  exact (takes_expect closes).cons_bind (takes_pure _)

/-- The statements of a block, each within the bound as it is no longer than the whole. -/
theorem takes_body {items : List (List Token × Node)} (derived : ∀ x ∈ items, Statement x.1 x.2)
    (each : ∀ x ∈ items, ∀ {n}, x.1.length ≤ n → Takes (statementWithin n) anyKind x.1 x.2)
    (enough : (concat items).length ≤ n) :
    Takes (many endsBlock (statementWithin n)) (endsBlock · = true) (concat items)
      (items.map Prod.snd) := by
  refine takes_many (fun x member => ?_) fun x member => (derived x member).begins
  exact each x member (Nat.le_trans (length_le_concat_of_mem member) enough)

/-- A statement that ends with its own block or line. -/
theorem takes_selfTerminated {node : Node} (terminated : node.isSelfTerminated = true)
    (h : Takes (bareStatement (many endsBlock (statementWithin n))) anyKind w node) :
    Takes (statementWithin (n + 1)) anyKind w node := by
  refine h.bind_nil ?_
  rw [if_pos terminated]
  exact takes_pure node

/-- **A statement that is derived is read**, by induction on the derivation. A bound of the number of
tokens is enough, as every block has fewer than the statement that it belongs to. -/
theorem takes_statementWithin {node : Node} (h : Statement w node) (enough : w.length ≤ n) :
    Takes (statementWithin n) anyKind w node := by
  induction h generalizing n with
  | @simple w node semicolon bare ends =>
    obtain _ | n := n
    · simp at enough
    refine (takes_simple bare).bind_cons ?_ ends
    rw [if_neg (by simp [bare.isSelfTerminated])]
    exact (takes_expect ends).cons_bind (takes_pure _)
  | @function k w isConst params returns name opening closing openBody closeBody body constness
      isType isName opens parameters closes opensBody statements closesBody ih =>
    obtain _ | n := n
    · simp at enough
    simp only [List.length_append, List.length_cons] at enough
    have inside := takes_body (n := n) statements ih (by omega)
    refine takes_selfTerminated rfl (takes_typedName constness isType isName ?_)
    refine (takes_advance name).cons_bind (Takes.peek_bind ?_)
    simp only [opens]
    exact takes_function opens parameters closes opensBody inside closesBody
  | @conditional keyword openBody closeBody w e body isKind condition opensBody statements closesBody ih
  | @loop keyword openBody closeBody w e body isKind condition opensBody statements closesBody ih =>
    obtain _ | n := n
    · simp at enough
    simp only [List.length_append, List.length_cons] at enough
    have inside := takes_body (n := n) statements ih (by omega)
    have block := takes_block keyword opensBody inside closesBody
    refine takes_selfTerminated rfl (Takes.peek_bind ?_)
    simp only [isKind]
    refine (takes_advance keyword).cons_bind ?_
    simp only [isKind]
    refine (takes_expression condition).bind_cons ?_ (by rw [opensBody]; decide)
    exact block.bind_nil (takes_pure _)
  | @alternative keyword openBody closeBody body isElse opensBody statements closesBody ih =>
    obtain _ | n := n
    · simp at enough
    simp only [List.length_append, List.length_cons] at enough
    have inside := takes_body (n := n) statements ih (by omega)
    have block := takes_block keyword opensBody inside closesBody
    refine takes_selfTerminated rfl (Takes.peek_bind ?_)
    simp only [isElse]
    refine (takes_advance keyword).cons_bind ?_
    simp only [isElse]
    exact block.bind_nil (takes_pure _)
  | @lineComment t isComment =>
    obtain _ | n := n
    · simp at enough
    refine takes_selfTerminated rfl (Takes.peek_bind ?_)
    simp only [isComment]
    exact (takes_advance t).cons_bind (takes_pure _)
  | blockComment opens inside closes =>
    obtain _ | n := n
    · simp at enough
    exact takes_selfTerminated rfl (takes_blockComment opens inside closes)

/-- From the first token of statements up to the end of input, the program is taken. -/
theorem takes_program {items : List (List Token × Node)} {last : Token}
    (each : ∀ x ∈ items, Statement x.1 x.2) (nonempty : concat items ≠ [])
    (ends : last.kind = .endOfInput) (ahead : c.ahead = (concat items).map .ok ++ [Except.ok last]) :
    ∃ c', Parser.program c = .ok ⟨items.map Prod.snd, last.location⟩ c' := by
  have statements : Takes (many (· = .endOfInput) statement) (· = .endOfInput) (concat items)
      (items.map Prod.snd) := by
    refine (takes_many (fun x member => ?_) fun x member => ?_).mono fun k is => by simpa using is
    · refine Takes.bound fun n enough => ?_
      exact takes_statementWithin (each x member) (by omega)
    · obtain ⟨t, u, same, starts⟩ := (each x member).begins
      refine ⟨t, u, same, ?_⟩
      simp only [endsBlock, Bool.or_eq_false_iff] at starts
      exact starts.2
  obtain ⟨t, u, same⟩ := List.exists_cons_of_ne_nil nonempty
  have more : c.current.kind ≠ .endOfInput := by
    rw [same] at ahead
    rw [Cursor.current_of_ahead ahead]
    cases u with
    | nil => exact Cursor.kind_ne_end_of_ahead ahead
    | cons _ _ => exact Cursor.kind_ne_end_of_ahead ahead
  obtain ⟨c₁, run, ahead₁⟩ := statements c _ ahead ⟨last, [], rfl, ends⟩
  refine ⟨c₁, ?_⟩
  rw [Parser.program, peek_bind, if_neg more, bind_of_ok run, get_bind,
    Cursor.current_of_ahead ahead₁]
  rfl

end Parser

end Pascalize
