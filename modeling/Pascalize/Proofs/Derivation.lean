import Pascalize.Grammar.Statement

/-!
# The grammar as a relation

`Derives` relates lists of tokens to the trees they stand for, without saying how they are read.
Line feeds and the end of input are no part of it. Expressions are layered: level 1 is `||`, level 5
the multiplicative operators, level 6 the signs, level 7 the operands. An operation of a level has a
left operand of the same level and a right operand of the next, so operators group to the left.

Repeated parts are given as lists of phrases, each with its tokens and its tree.
-/

namespace Pascalize.Derives

/-- Lists of tokens joined by separators, one between each two. -/
inductive Separated (sep : Kind) : List (List Token) → List Token → Prop where
  | single (v : List Token) : Separated sep [v] v
  | cons {v w : List Token} {vs : List (List Token)} {s : Token} (isSep : s.kind = sep)
      (rest : Separated sep vs w) : Separated sep (v :: vs) (v ++ s :: w)

/-- Lists of tokens joined by commas, with or without one after the last. -/
inductive Listed : List (List Token) → List Token → Prop where
  | nil : Listed [] []
  | last (v : List Token) : Listed [v] v
  | cons {v w : List Token} {vs : List (List Token)} {s : Token} (isSep : s.kind = .comma)
      (rest : Listed vs w) : Listed (v :: vs) (v ++ s :: w)

/-- A separated list is its first phrase alone, or goes on after a separator. -/
theorem Separated.cons_inv {sep : Kind} {v w : List Token} {vs : List (List Token)}
    (h : Separated sep (v :: vs) w) : (vs = [] ∧ w = v) ∨
      ∃ (s : Token) (u : List Token), s.kind = sep ∧ Separated sep vs u ∧ w = v ++ s :: u := by
  cases h with
  | single => exact .inl ⟨rfl, rfl⟩
  | cons isSep rest => exact .inr ⟨_, _, isSep, rest, rfl⟩

/-- A separated list begins as its first phrase does. -/
theorem Separated.begins {sep : Kind} {P : Kind → Prop} {vs : List (List Token)} {w : List Token}
    (h : Separated sep vs w) (each : ∀ v ∈ vs, ∃ t u, v = t :: u ∧ P t.kind) :
    ∃ t u, w = t :: u ∧ P t.kind := by
  cases h with
  | single => exact each _ List.mem_cons_self
  | cons _ _ =>
    obtain ⟨t, u, rfl, starts⟩ := each _ List.mem_cons_self
    exact ⟨t, _, rfl, starts⟩

/-- There is a separator between any two phrases, so a list has at most one phrase more than tokens. -/
theorem Separated.length_le {sep : Kind} {vs : List (List Token)} {w : List Token}
    (h : Separated sep vs w) : vs.length ≤ w.length + 1 := by
  induction h with
  | single => simp
  | cons _ _ ih =>
    simp only [List.length_cons, List.length_append]
    omega

theorem Listed.cons_inv {v w : List Token} {vs : List (List Token)} (h : Listed (v :: vs) w) :
    (vs = [] ∧ w = v) ∨
      ∃ (s : Token) (u : List Token), s.kind = .comma ∧ Listed vs u ∧ w = v ++ s :: u := by
  cases h with
  | last => exact .inl ⟨rfl, rfl⟩
  | cons isSep rest => exact .inr ⟨_, _, isSep, rest, rfl⟩

/-- A joined list is at least as long as each of its parts, and has a comma for each but one. -/
theorem Listed.length_le {vs : List (List Token)} {w : List Token} (h : Listed vs w) :
    vs.length ≤ w.length + 1 ∧ ∀ v ∈ vs, v.length ≤ w.length := by
  induction h with
  | nil => simp
  | last v => simp
  | cons _ _ ih =>
    simp only [List.length_cons, List.length_append, List.mem_cons, forall_eq_or_imp]
    refine ⟨by omega, by omega, fun u member => ?_⟩
    have := ih.2 u member
    omega

/-- The tokens stand for an expression of the level. -/
inductive Operation : Nat → List Token → Node → Prop where
  | lift {p : Nat} {w : List Token} {e : Node} (tighter : Operation (p + 1) w e) : Operation p w e
  | binary {p : Nat} {v w : List Token} {left right : Node} {sign : Token} {op : Operator}
      (first : Operation p v left) (isOp : Operator.ofKind? sign.kind = some op)
      (level : op.precedence = p) (second : Operation (p + 1) w right) :
      Operation p (v ++ sign :: w) (.binary op left right sign.location)
  | negation {w : List Token} {e : Node} {sign : Token} (isMinus : sign.kind = .minus)
      (operand : Operation 6 w e) : Operation 6 (sign :: w) (.negation e sign.location)
  | complement {w : List Token} {e : Node} {sign : Token} (isNot : sign.kind = .kwNot)
      (operand : Operation 6 w e) : Operation 6 (sign :: w) (.complement e sign.location)
  | literal {t : Token} {e : Node} (isLiteral : Parser.literal? t = some e) : Operation 7 [t] e
  | var {t : Token} (isName : t.kind = .ident) : Operation 7 [t] (.var t.text t.location)
  | call {name opening closing : Token} {w : List Token} {args : List (List Token × Node)}
      (isName : name.kind = .ident) (opens : opening.kind = .openParen)
      (joined : Listed (args.map Prod.fst) w) (items : ∀ x ∈ args, Operation 1 x.1 x.2)
      (closes : closing.kind = .closeParen) :
      Operation 7 (name :: opening :: (w ++ [closing]))
        (.call name.text (args.map Prod.snd) name.location)
  | index {name opening closing : Token} {w : List Token} {e : Node}
      (isName : name.kind = .ident) (opens : opening.kind = .openBracket)
      (position : Operation 1 w e) (closes : closing.kind = .closeBracket) :
      Operation 7 (name :: opening :: (w ++ [closing]))
        (.index (.var name.text name.location) e opening.location)
  | group {opening closing : Token} {w : List Token} {e : Node} (opens : opening.kind = .openParen)
      (inner : Operation 1 w e) (closes : closing.kind = .closeParen) :
      Operation 7 (opening :: (w ++ [closing])) e

/-- The tokens stand for an expression. -/
abbrev Expression (w : List Token) (e : Node) : Prop :=
  Operation 1 w e

/-- The tokens stand for expressions in a list. -/
def Expressions (w : List Token) (es : List Node) : Prop :=
  ∃ items : List (List Token × Node), Listed (items.map Prod.fst) w ∧
    (∀ x ∈ items, Expression x.1 x.2) ∧ es = items.map Prod.snd

/-- `const` or nothing, and whether it was there. -/
inductive Constness : List Token → Bool → Prop where
  | absent : Constness [] false
  | present {t : Token} (isConst : t.kind = .kwConst) : Constness [t] true

theorem Constness.eq_nil {k : List Token} {isConst : Bool} (h : Constness k isConst)
    (not : ¬ isConst = true) : k = [] := by
  cases h with
  | absent => rfl
  | present => exact absurd rfl not

/-- An optional `const` and a name begin with one of the two. -/
theorem Constness.begins {k : List Token} {isConst : Bool} (h : Constness k isConst) {t : Token}
    (is : t.kind = .ident) (u : List Token) :
    ∃ t' u', k ++ t :: u = t' :: u' ∧ (t'.kind = .ident ∨ t'.kind = .kwConst) := by
  cases h with
  | absent => exact ⟨t, u, rfl, .inl is⟩
  | @present t' isConst => exact ⟨t', _, rfl, .inr isConst⟩

/-- An array type: the name of its element type and a size below 2⁶⁴ in brackets. -/
inductive ArrayType : List Token → TypeName → Prop where
  | mk {element opening size closing : Token} (isName : element.kind = .ident)
      (opens : opening.kind = .openBracket) (isInt : size.kind = .intLiteral)
      (fits : Parser.decimalValue size.text.toList < Parser.wordLimit)
      (closes : closing.kind = .closeBracket) :
      ArrayType [element, opening, size, closing]
        ⟨element.text, some (Parser.decimalValue size.text.toList), element.location⟩

/-- The type that a name alone stands for. -/
def plainType (name : Token) : TypeName :=
  ⟨name.text, none, name.location⟩

/-- A type: a name alone or an array type. -/
inductive TypeOf : List Token → TypeName → Prop where
  | plain {name : Token} (isName : name.kind = .ident) : TypeOf [name] (plainType name)
  | array {w : List Token} {type : TypeName} (suffixed : ArrayType w type) : TypeOf w type

theorem TypeOf.begins {w : List Token} {type : TypeName} (h : TypeOf w type) :
    ∃ t u, w = t :: u ∧ t.kind = .ident := by
  cases h with
  | plain isName => exact ⟨_, _, rfl, isName⟩
  | array suffixed =>
    obtain ⟨isName, _, _, _, _⟩ := suffixed
    exact ⟨_, _, rfl, isName⟩

/-- A parameter: a type and a name. -/
inductive Parameter : List Token → Declaration → Prop where
  | mk {v : List Token} {type : TypeName} {name : Token} (typed : TypeOf v type)
      (isName : name.kind = .ident) :
      Parameter (v ++ [name]) ⟨type, name.text, false, name.location⟩

theorem Parameter.begins {w : List Token} {decl : Declaration} (h : Parameter w decl) :
    ∃ t u, w = t :: u ∧ t.kind = .ident := by
  obtain ⟨typed, _⟩ := h
  obtain ⟨t, u, rfl, isName⟩ := typed.begins
  exact ⟨t, _, rfl, isName⟩

/-- Parameters with commas between them, or none. -/
inductive Parameters : List Token → List Declaration → Prop where
  | nil : Parameters [] []
  | list {w : List Token} {items : List (List Token × Declaration)}
      (joined : Separated .comma (items.map Prod.fst) w)
      (params : ∀ x ∈ items, Parameter x.1 x.2) : Parameters w (items.map Prod.snd)

/-- What follows the first declared name: further names after commas, and values for the latest
name. -/
inductive Tail (type : TypeName) (isConst : Bool) : Token → List Token → List Node → Prop where
  | nil (latest : Token) : Tail type isConst latest [] []
  | name {latest comma name : Token} {w : List Token} {nodes : List Node}
      (isComma : comma.kind = .comma) (isName : name.kind = .ident)
      (rest : Tail type isConst name w nodes) :
      Tail type isConst latest (comma :: name :: w)
        (.declaration ⟨type, name.text, isConst, name.location⟩ :: nodes)
  | value {latest sign : Token} {v w : List Token} {e : Node} {nodes : List Node}
      (isAssign : sign.kind = .assign) (value : Expression v e)
      (rest : Tail type isConst latest w nodes) :
      Tail type isConst latest (sign :: (v ++ w))
        (.assignment (.var latest.text latest.location) e sign.location :: nodes)

/-- Declarations go on with a comma or with a sign of assignment. -/
theorem Tail.begins {type : TypeName} {isConst : Bool} {latest t : Token} {u : List Token}
    {nodes : List Node} (h : Tail type isConst latest (t :: u) nodes) :
    t.kind = .comma ∨ t.kind = .assign := by
  cases h with
  | name isComma _ _ => exact .inl isComma
  | value isAssign _ _ => exact .inr isAssign

/-- One item or more, each after a sign of its own. -/
inductive Streamed (sign : Kind) (Item : Token → Node → Prop) : List Token → List Node → Prop where
  | single {s t : Token} {e : Node} (isSign : s.kind = sign) (item : Item t e) :
      Streamed sign Item [s, t] [e]
  | cons {s t : Token} {e : Node} {w : List Token} {es : List Node} (isSign : s.kind = sign)
      (item : Item t e) (rest : Streamed sign Item w es) :
      Streamed sign Item (s :: t :: w) (e :: es)

/-- A stream is a sign and items of one token with signs between them. -/
theorem streamed_iff {sign : Kind} {Item : Token → Node → Prop} {w : List Token} {es : List Node} :
    Streamed sign Item w es ↔ ∃ (s : Token) (u : List Token) (items : List (List Token × Node)),
      w = s :: u ∧ s.kind = sign ∧ Separated sign (items.map Prod.fst) u ∧
        (∀ x ∈ items, ∃ t, x.1 = [t] ∧ Item t x.2) ∧ es = items.map Prod.snd := by
  constructor
  · intro h
    induction h with
    | @single s t e isSign item =>
      exact ⟨s, [t], [([t], e)], rfl, isSign, .single [t], by simpa using item, rfl⟩
    | @cons s t e w es isSign item _ ih =>
      obtain ⟨s', u, items, rfl, isSign', joined, each, rfl⟩ := ih
      refine ⟨s, t :: s' :: u, ([t], e) :: items, rfl, isSign, .cons isSign' joined, ?_, rfl⟩
      simpa using ⟨item, fun x y => each (x, y)⟩
  · rintro ⟨s, u, items, rfl, isSign, joined, each, rfl⟩
    induction items generalizing s u with
    | nil => nomatch joined
    | cons x items ih =>
      obtain ⟨v, e⟩ := x
      obtain ⟨t, rfl, item⟩ := each _ List.mem_cons_self
      have rest : ∀ y ∈ items, ∃ t, y.1 = [t] ∧ Item t y.2 := fun y member => each y (by simp [member])
      obtain ⟨none, rfl⟩ | ⟨s', u, isSign', tail, rfl⟩ := joined.cons_inv
      · obtain rfl := List.map_eq_nil_iff.1 none
        exact .single isSign item
      · exact .cons isSign item (ih s' u isSign' tail rest)

/-- What may be read into: a name. -/
inductive InputItem : Token → Node → Prop where
  | name {t : Token} (isName : t.kind = .ident) : InputItem t (.reference t.text t.location)

/-- What may be written out: a name or a literal. -/
inductive OutputItem : Token → Node → Prop where
  | name {t : Token} (isName : t.kind = .ident) : OutputItem t (.reference t.text t.location)
  | literal {t : Token} {e : Node} (isLiteral : Parser.literal? t = some e) : OutputItem t e

/-- A statement that takes a semicolon, without it. -/
inductive Simple : List Token → Node → Prop where
  | declaration {k : List Token} {isConst : Bool} {type name : Token}
      (constness : Constness k isConst) (isType : type.kind = .ident) (isName : name.kind = .ident) :
      Simple (k ++ [type, name])
        (.declaration ⟨plainType type, name.text, isConst, name.location⟩)
  | declarations {k w : List Token} {isConst : Bool} {type name : Token} {nodes : List Node}
      (constness : Constness k isConst) (isType : type.kind = .ident) (isName : name.kind = .ident)
      (tail : Tail (plainType type) isConst name w nodes) (more : w ≠ []) :
      Simple (k ++ type :: name :: w)
        (.declarations (.declaration ⟨plainType type, name.text, isConst, name.location⟩ :: nodes)
          name.location)
  | array {k v : List Token} {isConst : Bool} {type : TypeName} {name : Token}
      (constness : Constness k isConst) (suffixed : ArrayType v type) (isName : name.kind = .ident) :
      Simple (k ++ (v ++ [name])) (.declaration ⟨type, name.text, isConst, name.location⟩)
  | assignment {target sign : Token} {w : List Token} {e : Node} (isName : target.kind = .ident)
      (isAssign : sign.kind = .assign) (value : Expression w e) :
      Simple (target :: sign :: w)
        (.assignment (.var target.text target.location) e sign.location)
  | sequence {target sign opening closing : Token} {w : List Token} {es : List Node}
      (isName : target.kind = .ident) (isAssign : sign.kind = .assign)
      (opens : opening.kind = .openBracket) (items : Expressions w es)
      (closes : closing.kind = .closeBracket) :
      Simple (target :: sign :: opening :: (w ++ [closing]))
        (.assignment (.var target.text target.location) (.sequence es opening.location)
          sign.location)
  | call {name opening closing : Token} {w : List Token} {args : List Node}
      (isName : name.kind = .ident) (opens : opening.kind = .openParen) (items : Expressions w args)
      (closes : closing.kind = .closeParen) :
      Simple (name :: opening :: (w ++ [closing])) (.call name.text args name.location)
  | result {keyword : Token} {w : List Token} {e : Node} (isReturn : keyword.kind = .kwReturn)
      (value : Expression w e) : Simple (keyword :: w) (.result e keyword.location)
  | input {keyword : Token} {w : List Token} {targets : List Node} (isCin : keyword.kind = .kwCin)
      (stream : Streamed .shiftRight InputItem w targets) :
      Simple (keyword :: w) (.input targets keyword.location)
  | output {keyword : Token} {w : List Token} {items : List Node} (isCout : keyword.kind = .kwCout)
      (stream : Streamed .shiftLeft OutputItem w items) :
      Simple (keyword :: w) (.output items keyword.location)

/-- The statements that take a semicolon are those that do not end themselves. -/
theorem Simple.isSelfTerminated {w : List Token} {node : Node} (h : Simple w node) :
    node.isSelfTerminated = false := by
  cases h <;> rfl

/-- The tokens of phrases in a row. -/
def concat {α : Type} (items : List (List Token × α)) : List Token :=
  (items.map Prod.fst).flatten

/-- A statement with its semicolon, if it takes one. -/
inductive Statement : List Token → Node → Prop where
  | simple {w : List Token} {node : Node} {semicolon : Token} (bare : Simple w node)
      (ends : semicolon.kind = .semicolon) : Statement (w ++ [semicolon]) node
  | function {k w : List Token} {isConst : Bool} {params : List Declaration}
      {returns name opening closing openBody closeBody : Token} {body : List (List Token × Node)}
      (constness : Constness k isConst) (isType : returns.kind = .ident)
      (isName : name.kind = .ident) (opens : opening.kind = .openParen)
      (parameters : Parameters w params) (closes : closing.kind = .closeParen)
      (opensBody : openBody.kind = .openBrace) (statements : ∀ x ∈ body, Statement x.1 x.2)
      (closesBody : closeBody.kind = .closeBrace) :
      Statement (k ++ returns :: name :: opening :: (w ++ closing :: openBody ::
          (concat body ++ [closeBody])))
        (.function returns.text name.text params (body.map Prod.snd) name.location)
  | conditional {keyword openBody closeBody : Token} {w : List Token} {e : Node}
      {body : List (List Token × Node)} (isIf : keyword.kind = .kwIf) (condition : Expression w e)
      (opensBody : openBody.kind = .openBrace) (statements : ∀ x ∈ body, Statement x.1 x.2)
      (closesBody : closeBody.kind = .closeBrace) :
      Statement (keyword :: (w ++ openBody :: (concat body ++ [closeBody])))
        (.conditional e (body.map Prod.snd) keyword.location)
  | loop {keyword openBody closeBody : Token} {w : List Token} {e : Node}
      {body : List (List Token × Node)} (isWhile : keyword.kind = .kwWhile)
      (condition : Expression w e) (opensBody : openBody.kind = .openBrace)
      (statements : ∀ x ∈ body, Statement x.1 x.2) (closesBody : closeBody.kind = .closeBrace) :
      Statement (keyword :: (w ++ openBody :: (concat body ++ [closeBody])))
        (.loop e (body.map Prod.snd) keyword.location)
  | alternative {keyword openBody closeBody : Token} {body : List (List Token × Node)}
      (isElse : keyword.kind = .kwElse) (opensBody : openBody.kind = .openBrace)
      (statements : ∀ x ∈ body, Statement x.1 x.2) (closesBody : closeBody.kind = .closeBrace) :
      Statement (keyword :: openBody :: (concat body ++ [closeBody]))
        (.alternative (body.map Prod.snd) keyword.location)
  | lineComment {t : Token} (isComment : t.kind = .lineComment) :
      Statement [t] (.comment t.text t.location)
  | blockComment {opening closing : Token} {inner : List Token}
      (opens : opening.kind = .openComment) (inside : ∀ t ∈ inner, t.kind ≠ .closeComment)
      (closes : closing.kind = .closeComment) :
      Statement (opening :: (inner ++ [closing]))
        (.comment (" ".intercalate (inner.map Parser.commentWord)) opening.location)

/-- What a statement that takes a semicolon begins with. -/
theorem Simple.starts {w : List Token} {node : Node} (h : Simple w node) :
    ∃ t u, w = t :: u ∧ t.kind ∈ [Kind.ident, .kwConst, .kwReturn, .kwCin, .kwCout] := by
  have named {k u : List Token} {isConst : Bool} {t : Token} (constness : Constness k isConst)
      (is : t.kind = .ident) : ∃ t' u', k ++ t :: u = t' :: u' ∧
        t'.kind ∈ [Kind.ident, .kwConst, .kwReturn, .kwCin, .kwCout] := by
    obtain ⟨t', u', same, is | is⟩ := constness.begins is u
    · exact ⟨t', u', same, by rw [is]; decide⟩
    · exact ⟨t', u', same, by rw [is]; decide⟩
  cases h with
  | declaration constness isType _ => exact named constness isType
  | declarations constness isType _ _ _ => exact named constness isType
  | array constness suffixed _ =>
    obtain ⟨isType, _, _, _, _⟩ := suffixed
    exact named constness isType
  | assignment isName _ _ => exact ⟨_, _, rfl, by rw [isName]; decide⟩
  | sequence isName _ _ _ _ => exact ⟨_, _, rfl, by rw [isName]; decide⟩
  | call isName _ _ _ => exact ⟨_, _, rfl, by rw [isName]; decide⟩
  | result is _ => exact ⟨_, _, rfl, by rw [is]; decide⟩
  | input is _ => exact ⟨_, _, rfl, by rw [is]; decide⟩
  | output is _ => exact ⟨_, _, rfl, by rw [is]; decide⟩

theorem Simple.begins {w : List Token} {node : Node} (h : Simple w node) :
    ∃ t u, w = t :: u ∧ Parser.endsBlock t.kind = false := by
  have inside : ∀ kind ∈ [Kind.ident, .kwConst, .kwReturn, .kwCin, .kwCout],
      Parser.endsBlock kind = false := by decide
  obtain ⟨t, u, same, starts⟩ := h.starts
  exact ⟨t, u, same, inside _ starts⟩

/-- No statement begins with the end of a block or of the input, so where statements in a row stop is
clear. -/
theorem Statement.begins {w : List Token} {node : Node} (h : Statement w node) :
    ∃ t u, w = t :: u ∧ Parser.endsBlock t.kind = false := by
  cases h with
  | simple bare _ =>
    obtain ⟨t, u, rfl, starts⟩ := bare.begins
    exact ⟨t, _, rfl, starts⟩
  | function constness isType =>
    obtain ⟨t, u, same, is | is⟩ := constness.begins isType _
    · exact ⟨t, u, same, by rw [is]; rfl⟩
    · exact ⟨t, u, same, by rw [is]; rfl⟩
  | conditional is => exact ⟨_, _, rfl, by rw [is]; rfl⟩
  | loop is => exact ⟨_, _, rfl, by rw [is]; rfl⟩
  | alternative is => exact ⟨_, _, rfl, by rw [is]; rfl⟩
  | lineComment is => exact ⟨_, _, rfl, by rw [is]; rfl⟩
  | blockComment is => exact ⟨_, _, rfl, by rw [is]; rfl⟩

theorem length_le_concat_of_mem {α : Type} {items : List (List Token × α)} {x : List Token × α}
    (member : x ∈ items) : x.1.length ≤ (concat items).length := by
  induction items with
  | nil => nomatch member
  | cons y items ih =>
    simp only [concat, List.map_cons, List.flatten_cons, List.length_append] at ih ⊢
    obtain rfl | member := List.mem_cons.1 member
    · omega
    · have := ih member
      omega

/-- The tokens stand for statements in a row. -/
def Statements (w : List Token) (nodes : List Node) : Prop :=
  ∃ items : List (List Token × Node),
    w = concat items ∧ nodes = items.map Prod.snd ∧ ∀ x ∈ items, Statement x.1 x.2

end Pascalize.Derives
