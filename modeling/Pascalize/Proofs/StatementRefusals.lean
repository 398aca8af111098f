import Pascalize.Proofs.ExpressionRefusals
import Pascalize.Proofs.ProgramParsing

/-!
# Statements refuse the first token that cannot go on

The judgment `Refuses` for the rules of types, declarations, statements and programs. Each step of a
rule names the kinds of tokens that would complete what was read so far.

Two rules take a token before they judge it, the item that is written out and the size of an array.
There a lexical error behind the token is met first.
-/

namespace Pascalize

open Derives

namespace Parser

variable {c : Cursor} {n : Nat}

/-! Types and parameters. -/

theorem value_lt_of_arraySize? {text : String} {k : Nat} (h : arraySize? text = some k) :
    decimalValue text.toList < wordLimit := by
  simp only [arraySize?] at h
  split at h
  next small => exact small
  next => cases h

/-- Zero in brackets makes a type of the name of its elements. -/
theorem any_arrayType {element opening : Token} {u : List Token} (isName : element.kind = .ident)
    (opens : opening.kind = .openBracket) (h : Spells [.intLiteral, .closeBracket] u) :
    Any ArrayType (element :: opening :: u) := by
  obtain ⟨size, u, rfl, isInt, text, spells⟩ := h.cons_inv
  obtain ⟨closing, rfl, closes⟩ := spells.singleton_inv
  have text : "0" = size.text := Option.some.inj text
  exact ⟨_, .mk isName opens isInt (by rw [← text]; decide) closes⟩

/-- A bracket, digits and a bracket. A size that does not fit is refused as well. -/
theorem refuses_arrayType {element : Token} (isName : element.kind = .ident) :
    Refuses (arrayType element) (fun w => Any ArrayType (element :: w)) c := by
  refine .expect_bind rfl (by decide) [.intLiteral, .closeBracket] rfl
    (fun _ _ => any_arrayType isName) ?_
  intro opening c₁ opens took₁ x c' run
  have due : Viable (fun u => Any ArrayType (element :: opening :: u)) [] :=
    ⟨[.intLiteral, .closeBracket], rfl, fun u => any_arrayType isName opens⟩
  obtain run₂ | ⟨size, c₂, run₂, run₃⟩ := bind_eq_error.1 run
  · rw [expect, peek_bind] at run₂
    split at run₂
    next isInt =>
      -- the size is taken before its value is looked at
      obtain ⟨-, e, rfl, ahead⟩ := advance_eq_error run₂
      refine ⟨[c₁.current], ahead, ?_⟩
      by_cases fits : decimalValue c₁.current.text.toList < wordLimit
      · refine .inl ⟨[.closeBracket], rfl, fun u spells => ?_⟩
        obtain ⟨closing, rfl, closes⟩ := spells.singleton_inv
        exact ⟨_, .mk isName opens isInt fits closes⟩
      · exact .inr ⟨[], c₁.current, rfl, .inr (by simp [arraySize?, fits]), due⟩
    next => exact refuses_fail _ _ rfl (fun u => any_arrayType isName opens) x c' run₂
  · obtain ⟨isInt, took₂⟩ := expect_eq_ok run₂ (by decide)
    obtain ⟨_, rule, run₃⟩ := exists_rule run₃
    split at rule <;> subst rule
    next =>
      obtain rfl : .grammatical (.arraySize size) = x := by
        injection run₃
      exact ⟨by simp, [], c₂.ahead, took₂, due⟩
    next k fits =>
      have closed : Refuses (expect .closeBracket .afterArraySize >>= fun _ =>
          pure (⟨element.text, some k, element.location⟩ : TypeName))
          (fun u => Any ArrayType (element :: opening :: size :: u)) c₂ :=
        .expect_pure rfl fun _ closes => ⟨_, .mk isName opens isInt (value_lt_of_arraySize? fits) closes⟩
      exact (closed x c' run₃).after took₂ fun _ viable => viable.after

/-- Behind the name of a type anything may follow, so only the name itself or a size can be refused. -/
theorem refuses_typeName : Refuses typeName (Any TypeOf) c := by
  refine .expect_bind rfl (by decide) [] rfl ?_ fun name c₁ isName took₁ => ?_
  · intro name u isName none
    rw [none.eq_nil]
    exact ⟨_, .plain isName⟩
  · intro x c' run
    rw [peek_bind] at run
    split at run
    next =>
      refine ((refuses_arrayType isName).mono ?_) x c' run
      rintro w ⟨type, derived⟩
      exact ⟨type, .array derived⟩
    next => exact refuses_pure _ x c' run

theorem refuses_parameter : Refuses parameter (Any Parameter) c := by
  refine refuses_typeName.bind [.ident] rfl ?_ fun type c₁ run₁ => ?_
  · rintro v u ⟨type, typed⟩ spells
    obtain ⟨name, rfl, isName⟩ := spells.singleton_inv
    exact ⟨_, .mk typed isName⟩
  · obtain ⟨v, took₁, typed⟩ := gives_typeName c type c₁ run₁
    exact ⟨v, took₁, .expect_pure rfl fun name isName => ⟨_, .mk typed isName⟩⟩

/-- The first parameter, or what follows the last one. -/
theorem refuses_parameters : Refuses parameters (Any Parameters) c := by
  intro x c' run
  rw [parameters, peek_bind] at run
  split at run
  next => exact refuses_pure _ x c' run
  next =>
    have sample u (spells : Spells [.ident, .ident] u) : Any Parameter u := by
      obtain ⟨type, name, rfl, isType, isName⟩ := spells.pair_inv
      exact ⟨_, .mk (.plain isType) isName⟩
    have list := refuses_separated (c := c) .comma _ rfl sample (by decide) gives_parameter
      fun _ _ => refuses_parameter
    refine (list.mono ?_) x c' run
    rintro w ⟨items, joined, each⟩
    exact ⟨_, .list joined each⟩

/-! Statements that start with a name. -/

section Named

variable {k : List Token} {isConst : Bool} {type name : Token}

/-- A type, a name and a semicolon are a statement. -/
theorem any_declaration {u : List Token} (h : Spells [.ident, .ident, .semicolon] u) :
    Any Statement u := by
  obtain ⟨type, u, rfl, isType, -, spells⟩ := h.cons_inv
  obtain ⟨name, semicolon, rfl, isName, ends⟩ := spells.pair_inv
  exact ⟨_, .simple (.declaration .absent isType isName) ends⟩

/-- A comma, a sign of assignment or a semicolon would go on. -/
theorem refuses_declarationTailWithin {type : TypeName} {latest : Token}
    (enough : c.ahead.length ≤ n) :
    Refuses (declarationTailWithin type isConst n latest) (Any (Tail type isConst latest)) c := by
  induction n generalizing c latest with
  | zero =>
    have := c.length_ahead_pos
    omega
  | succ n ih =>
    intro x c' run
    simp only [declarationTailWithin, peek_bind] at run
    obtain ⟨_, rule, run⟩ := exists_rule run
    split at rule <;> subst rule
    next => exact refuses_pure _ x c' run
    next isComma =>
      refine Refuses.advance_bind (by rw [isComma]; decide) [.ident] rfl ?_ ?_ x c' run
      · intro u spells
        obtain ⟨name, rfl, isName⟩ := spells.singleton_inv
        exact ⟨_, .name isComma isName (.nil name)⟩
      intro c₁ took₁
      refine .expect_bind rfl (by decide) [] rfl ?_ fun name c₂ isName took₂ => ?_
      · intro name u isName none
        rw [none.eq_nil]
        exact ⟨_, .name isComma isName (.nil name)⟩
      have shorter := (took₁.trans took₂).length_lt (by simp)
      refine (ih (by omega)).map.mono ?_
      rintro w ⟨nodes, rest⟩
      exact ⟨_, .name isComma isName rest⟩
    next isAssign =>
      refine Refuses.advance_bind (by rw [isAssign]; decide) [.ident] rfl ?_ ?_ x c' run
      · intro u spells
        obtain ⟨e, value⟩ : Any Expression u := any_operation_of_name (by decide) spells
        exact ⟨_, by simpa using Tail.value isAssign value (.nil latest)⟩
      intro c₁ took₁
      refine refuses_expression.bind_complete ?_ fun e c₂ run₂ => ?_
      · rintro v ⟨e, value⟩
        exact ⟨_, by simpa using Tail.value isAssign value (.nil latest)⟩
      obtain ⟨v, took₂, value⟩ := gives_expression c₁ e c₂ run₂
      have shorter := (took₁.trans took₂).length_lt (by simp)
      refine ⟨v, took₂, (ih (by omega)).map.mono ?_⟩
      rintro w ⟨nodes, rest⟩
      exact ⟨_, .value isAssign value rest⟩
    next =>
      refine refuses_fail _ [] rfl (fun u none => ?_) x c' run
      rw [none.eq_nil]
      exact ⟨_, .nil latest⟩

/-- Declarations lack their semicolon, whether or not there is more than one. -/
theorem refuses_declarations (constness : Constness k isConst) (isType : type.kind = .ident)
    (isName : name.kind = .ident) :
    Refuses (declarations (plainType type) isConst name)
      (fun w => Any Statement (k ++ type :: name :: w)) c := by
  have enough := c.length_ahead_lt_bound
  intro x c' run
  rw [declarations, get_bind] at run
  have tail : Refuses (declarationTailWithin (plainType type) isConst c.bound name) _ c :=
    refuses_declarationTailWithin (by omega)
  refine (tail.map.before .semicolon rfl ?_) x c' run
  rintro w semicolon ⟨nodes, derived⟩ ends
  cases w with
  | nil => exact ⟨_, by simpa using Statement.simple (.declaration constness isType isName) ends⟩
  | cons t w =>
    have whole := Statement.simple (.declarations constness isType isName derived (by simp)) ends
    exact ⟨_, by simpa using whole⟩

variable {body : Parser (List Node)}

/-- Each part of the heading, the body, or its closing brace. -/
theorem refuses_function {returns : Token} (inside : Gives body Statements)
    (stuck : ∀ c₁, c₁.ahead.length < c.ahead.length → Refuses body (Any Statements) c₁)
    (constness : Constness k isConst) (isType : returns.kind = .ident) (isName : name.kind = .ident) :
    Refuses (function body returns name) (fun w => Any Statement (k ++ returns :: name :: w)) c := by
  have whole {opening closing openBody closeBody : Token} {w : List Token}
      {params : List Declaration} (opens : opening.kind = .openParen)
      (parameters : Parameters w params) (closes : closing.kind = .closeParen)
      (opensBody : openBody.kind = .openBrace) (items : List (List Token × Node))
      (each : ∀ x ∈ items, Statement x.1 x.2) (closesBody : closeBody.kind = .closeBrace) :
      Any Statement (k ++ returns :: name :: opening :: (w ++ closing :: openBody ::
        (concat items ++ [closeBody]))) :=
    ⟨_, .function constness isType isName opens parameters closes opensBody each closesBody⟩
  refine .expect_bind rfl (by decide) [.closeParen, .openBrace, .closeBrace] rfl ?_
    fun opening c₁ opens took₁ => ?_
  · intro opening u opens spells
    obtain ⟨closing, u, rfl, closes, -, spells⟩ := spells.cons_inv
    obtain ⟨openBody, closeBody, rfl, opensBody, closesBody⟩ := spells.pair_inv
    exact whole opens .nil closes opensBody [] (by simp) closesBody
  refine refuses_parameters.bind [.closeParen, .openBrace, .closeBrace] rfl ?_
    fun params c₂ run₂ => ?_
  · rintro w u ⟨params, parameters⟩ spells
    obtain ⟨closing, u, rfl, closes, -, spells⟩ := spells.cons_inv
    obtain ⟨openBody, closeBody, rfl, opensBody, closesBody⟩ := spells.pair_inv
    exact whole opens parameters closes opensBody [] (by simp) closesBody
  obtain ⟨w, took₂, parameters⟩ := gives_parameters c₁ params c₂ run₂
  refine ⟨w, took₂, .expect_bind rfl (by decide) [.openBrace, .closeBrace] rfl ?_
    fun closing c₃ closes took₃ => ?_⟩
  · intro closing u closes spells
    obtain ⟨openBody, closeBody, rfl, opensBody, closesBody⟩ := spells.pair_inv
    exact whole opens parameters closes opensBody [] (by simp) closesBody
  refine .expect_bind rfl (by decide) [.closeBrace] rfl ?_ fun openBody c₄ opensBody took₄ => ?_
  · intro openBody u opensBody spells
    obtain ⟨closeBody, rfl, closesBody⟩ := spells.singleton_inv
    exact whole opens parameters closes opensBody [] (by simp) closesBody
  have shorter := (took₁.trans (took₂.trans (took₃.trans took₄))).length_lt (by simp)
  refine (stuck c₄ shorter).close (inside.any c₄) rfl ?_
  rintro _ closeBody ⟨nodes, items, rfl, -, each⟩ closesBody
  exact whole opens parameters closes opensBody items each closesBody

/-- Behind two names anything may follow that makes a function or declarations. -/
theorem refuses_typedName (inside : Gives body Statements)
    (stuck : ∀ c₁, c₁.ahead.length < c.ahead.length → Refuses body (Any Statements) c₁)
    (constness : Constness k isConst) (isType : type.kind = .ident)
    (isName : c.current.kind = .ident) :
    Refuses (typedName body isConst type) (fun w => Any Statement (k ++ type :: w)) c := by
  refine .advance_bind (by rw [isName]; decide) [.semicolon] rfl ?_ fun c₁ took₁ => ?_
  · intro u spells
    obtain ⟨semicolon, rfl, ends⟩ := spells.singleton_inv
    exact ⟨_, by simpa using Statement.simple (.declaration constness isType isName) ends⟩
  have shorter := took₁.length_lt (by simp)
  intro x c' run
  simp only [peek_bind] at run
  obtain ⟨_, rule, run⟩ := exists_rule run
  split at rule <;> subst rule
  next =>
    exact refuses_function inside (fun c₂ le => stuck c₂ (by omega)) constness isType isName x c' run
  next => exact refuses_declarations constness isType isName x c' run
  next => exact refuses_declarations constness isType isName x c' run
  next => exact refuses_pure _ x c' run

theorem refuses_arrayDeclaration (constness : Constness k isConst) (isType : type.kind = .ident) :
    Refuses (arrayDeclaration isConst type) (fun w => Any Statement (k ++ type :: w)) c := by
  have whole {w : List Token} {t : TypeName} {name semicolon : Token}
      (suffixed : ArrayType (type :: w) t) (isName : name.kind = .ident)
      (ends : semicolon.kind = .semicolon) :
      Any Statement (k ++ type :: (w ++ [name, semicolon])) :=
    ⟨_, by simpa using Statement.simple (.array constness suffixed isName) ends⟩
  refine (refuses_arrayType isType).bind [.ident, .semicolon] rfl ?_ fun t c₁ run₁ => ?_
  · rintro w u ⟨t, suffixed⟩ spells
    obtain ⟨name, semicolon, rfl, isName, ends⟩ := spells.pair_inv
    exact whole suffixed isName ends
  · obtain ⟨w, took₁, suffixed⟩ := gives_arrayType isType c t c₁ run₁
    refine ⟨w, took₁, .expect_bind rfl (by decide) [.semicolon] rfl ?_ fun _ _ _ _ => refuses_pure _⟩
    intro name u isName spells
    obtain ⟨semicolon, rfl, ends⟩ := spells.singleton_inv
    exact whole suffixed isName ends

/-- Expressions in brackets. -/
def Bracketed (w : List Token) : Prop :=
  ∃ (opening closing : Token) (v : List Token) (es : List Node), w = opening :: (v ++ [closing]) ∧
    opening.kind = .openBracket ∧ Expressions v es ∧ closing.kind = .closeBracket

/-- An element, a comma or the closing bracket would go on. -/
theorem refuses_sequence : Refuses sequence Bracketed c := by
  refine .expect_bind rfl (by decide) [.closeBracket] rfl ?_ fun opening c₁ opens took₁ => ?_
  · intro opening u opens spells
    obtain ⟨closing, rfl, closes⟩ := spells.singleton_inv
    exact ⟨opening, closing, [], [], rfl, opens, ⟨[], .nil, by simp, rfl⟩, closes⟩
  have list : Refuses (listed .closeBracket expression) _ c₁ :=
    refuses_listed gives_expression fun _ _ => refuses_expression
  refine list.close (fun es c₂ run₂ => ?_) rfl ?_
  · obtain ⟨v, took₂, items, joined, derived, -⟩ :=
      gives_listedWithin gives_expression _ c₁ es c₂ run₂
    exact ⟨v, took₂, items, joined, derived⟩
  · rintro v closing ⟨items, joined, derived⟩ closes
    exact ⟨opening, closing, v, _, rfl, opens, ⟨items, joined, derived, rfl⟩, closes⟩

/-- The value is refused as a sequence or as an expression is. -/
theorem refuses_assignment (isName : name.kind = .ident) (isAssign : c.current.kind = .assign) :
    Refuses (assignment name) (fun w => Any Statement (name :: w)) c := by
  have whole {w : List Token} {e : Node} {semicolon : Token} (value : Expression w e)
      (ends : semicolon.kind = .semicolon) :
      Any Statement (name :: c.current :: (w ++ [semicolon])) :=
    ⟨_, .simple (.assignment isName isAssign value) ends⟩
  refine .advance_bind (by rw [isAssign]; decide) [.ident, .semicolon] rfl ?_ fun c₁ took₁ => ?_
  · intro u spells
    obtain ⟨t, semicolon, rfl, isVar, ends⟩ := spells.pair_inv
    exact whole ((Operation.var isVar).loosen (by decide)) ends
  intro x c' run
  rw [peek_bind] at run
  split at run
  next =>
    refine (refuses_sequence.map.before .semicolon rfl ?_) x c' run
    rintro _ semicolon ⟨opening, closing, v, es, rfl, opens, items, closes⟩ ends
    exact ⟨_, .simple (.sequence isName isAssign opens items closes) ends⟩
  next =>
    refine (refuses_expression.map.before .semicolon rfl ?_) x c' run
    rintro w semicolon ⟨e, value⟩ ends
    exact whole value ends

/-- **A statement that begins with a name**, by what follows the name. -/
theorem refuses_nameStatement (inside : Gives body Statements)
    (stuck : ∀ c₁, c₁.ahead.length < c.ahead.length → Refuses body (Any Statements) c₁) :
    Refuses (nameStatement body) (Any Statement) c := by
  have named {k u : List Token} {isConst : Bool} {first : Token} (constness : Constness k isConst)
      (isName : first.kind = .ident) (spells : Spells [.ident, .semicolon] u) :
      Any Statement (k ++ first :: u) := by
    obtain ⟨name, semicolon, rfl, isName', ends⟩ := spells.pair_inv
    exact ⟨_, by simpa using Statement.simple (.declaration constness isName isName') ends⟩
  refine refuses_accept.bind [.ident, .ident, .semicolon] rfl ?_ fun isConst c₁ run₁ => ?_
  · rintro _ u ⟨t, rfl, is⟩ spells
    obtain ⟨first, u, rfl, isName, -, spells⟩ := spells.cons_inv
    exact named (.present is) isName spells
  obtain ⟨k, took₁, constness⟩ := gives_constness c isConst c₁ run₁
  refine ⟨k, took₁, .expect_bind rfl (by decide) [.ident, .semicolon] rfl
    (fun _ _ => named constness) fun first c₂ isName took₂ => ?_⟩
  have shorter := (took₁.trans took₂).length_lt (by simp)
  intro x c' run
  rw [peek_bind] at run
  obtain ⟨_, rule, run⟩ := exists_rule run
  split at rule <;> subst rule
  next isName' =>
    exact refuses_typedName inside (fun c₃ le => stuck c₃ (by omega)) constness isName isName' x c' run
  next => exact refuses_arrayDeclaration constness isName x c' run
  next =>
    split at run
    next => exact refuses_fail _ _ rfl (fun _ => named constness isName) x c' run
    next notConst =>
      obtain rfl := constness.eq_nil notConst
      obtain ⟨_, rule, run⟩ := exists_rule run
      split at rule <;> subst rule
      next isAssign => exact refuses_assignment isName isAssign x c' run
      next =>
        have args : Refuses (arguments expression) Arguments c₂ :=
          refuses_arguments gives_expression fun _ _ => refuses_expression
        refine (args.map.before .semicolon rfl ?_) x c' run
        rintro _ semicolon ⟨opening, closing, v, items, rfl, opens, closes, joined, derived⟩ ends
        exact ⟨_, .simple (.call isName opens ⟨items, joined, derived, rfl⟩ closes) ends⟩
      next => exact refuses_fail _ _ rfl (fun _ => named constness isName) x c' run

end Named

/-! The other statements. -/

section Others

variable {body : Parser (List Node)}

/-- Statements in braces. -/
def Braced (w : List Token) : Prop :=
  ∃ (opening closing : Token) (items : List (List Token × Node)),
    w = opening :: (concat items ++ [closing]) ∧ opening.kind = .openBrace ∧
      (∀ x ∈ items, Statement x.1 x.2) ∧ closing.kind = .closeBrace

theorem braced_of_spells {u : List Token} (h : Spells [.openBrace, .closeBrace] u) : Braced u := by
  obtain ⟨opening, closing, rfl, opens, closes⟩ := h.pair_inv
  exact ⟨opening, closing, [], rfl, opens, by simp, closes⟩

/-- The opening brace, a statement inside or the closing brace. -/
theorem refuses_block (inside : Gives body Statements) (keyword : Token)
    (stuck : ∀ c₁, c₁.ahead.length < c.ahead.length → Refuses body (Any Statements) c₁) :
    Refuses (control.block body keyword) Braced c := by
  refine .expect_bind rfl (by decide) [.closeBrace] rfl ?_ fun opening c₁ opens took₁ => ?_
  · intro opening u opens spells
    obtain ⟨closing, rfl, closes⟩ := spells.singleton_inv
    exact ⟨opening, closing, [], rfl, opens, by simp, closes⟩
  have shorter := took₁.length_lt (by simp)
  refine (stuck c₁ shorter).close (inside.any c₁) rfl ?_
  rintro _ closing ⟨nodes, items, rfl, -, each⟩ closes
  exact ⟨opening, closing, items, rfl, opens, each, closes⟩

/-- A condition and a block, after the keyword. -/
theorem refuses_guarded {g : Node → List Node → Node} {Q : List Token → Prop}
    (inside : Gives body Statements) (keyword : Token)
    (stuck : ∀ c₁, c₁.ahead.length < c.ahead.length → Refuses body (Any Statements) c₁)
    (finish : ∀ v e w, Expression v e → Braced w → Q (v ++ w)) :
    Refuses (expression >>= fun e => control.block body keyword >>= fun nodes => pure (g e nodes))
      Q c := by
  refine refuses_expression.bind [.openBrace, .closeBrace] rfl ?_ fun e c₁ run₁ => ?_
  · rintro v u ⟨e, condition⟩ spells
    exact finish v e u condition (braced_of_spells spells)
  obtain ⟨v, took₁, condition⟩ := gives_expression c e c₁ run₁
  have shorter := took₁.length_le
  have block := refuses_block (c := c₁) inside keyword fun c₂ le => stuck c₂ (by omega)
  exact ⟨v, took₁, block.map.mono fun w => finish v e w condition⟩

/-- A condition, where there is one, and the block. -/
theorem refuses_control (inside : Gives body Statements)
    (stuck : ∀ c₁, c₁.ahead.length < c.ahead.length → Refuses body (Any Statements) c₁)
    (starts : c.current.kind = .kwWhile ∨ c.current.kind = .kwIf ∨ c.current.kind = .kwElse) :
    Refuses (control body) (Any Statement) c := by
  have more : c.current.kind ≠ .endOfInput := by
    obtain is | is | is := starts <;> rw [is] <;> decide
  have alternative (isElse : c.current.kind = .kwElse) w (block : Braced w) :
      Any Statement (c.current :: w) := by
    obtain ⟨opening, closing, items, rfl, opens, each, closes⟩ := block
    exact ⟨_, .alternative isElse opens each closes⟩
  have guarded (isGuard : c.current.kind = .kwWhile ∨ c.current.kind = .kwIf) v e w
      (condition : Expression v e) (block : Braced w) : Any Statement (c.current :: (v ++ w)) := by
    obtain ⟨opening, closing, items, rfl, opens, each, closes⟩ := block
    obtain isWhile | isIf := isGuard
    · exact ⟨_, .loop isWhile condition opens each closes⟩
    · exact ⟨_, .conditional isIf condition opens each closes⟩
  -- a name is a condition, and no condition is needed after `else`
  have after c₁ (took₁ : c.Took [c.current] c₁) c₂ (le : c₂.ahead.length < c₁.ahead.length) :
      Refuses body (Any Statements) c₂ := by
    have shorter := took₁.length_le
    exact stuck c₂ (by omega)
  rw [control]
  by_cases isElse : c.current.kind = .kwElse
  · refine .advance_bind more [.openBrace, .closeBrace] rfl
      (fun u spells => alternative isElse u (braced_of_spells spells)) fun c₁ took₁ => ?_
    simp only [isElse]
    exact (refuses_block inside _ (after c₁ took₁)).map.mono (alternative isElse)
  · have isGuard : c.current.kind = .kwWhile ∨ c.current.kind = .kwIf := by
      obtain is | is | is := starts
      · exact .inl is
      · exact .inr is
      · exact absurd is isElse
    refine .advance_bind more [.ident, .openBrace, .closeBrace] rfl ?_ fun c₁ took₁ => ?_
    · intro u spells
      obtain ⟨t, u, rfl, isVar, -, spells⟩ := spells.cons_inv
      exact guarded isGuard [t] _ u ((Operation.var isVar).loosen (by decide))
        (braced_of_spells spells)
    · obtain is | is := id isGuard
      · simp only [is]
        exact refuses_guarded inside _ (after c₁ took₁) (guarded isGuard)
      · simp only [is]
        exact refuses_guarded inside _ (after c₁ took₁) (guarded isGuard)

theorem refuses_result (isReturn : c.current.kind = .kwReturn) :
    Refuses result (Any Statement) c := by
  have whole {w : List Token} {e : Node} {semicolon : Token} (value : Expression w e)
      (ends : semicolon.kind = .semicolon) : Any Statement (c.current :: (w ++ [semicolon])) :=
    ⟨_, .simple (.result isReturn value) ends⟩
  refine .advance_bind (by rw [isReturn]; decide) [.ident, .semicolon] rfl ?_ fun c₁ took₁ => ?_
  · intro u spells
    obtain ⟨t, semicolon, rfl, isVar, ends⟩ := spells.pair_inv
    exact whole ((Operation.var isVar).loosen (by decide)) ends
  refine refuses_expression.map.before .semicolon rfl ?_
  rintro w semicolon ⟨e, value⟩ ends
  exact whole value ends

/-- Signs and items up to the semicolon, after a keyword. -/
theorem refuses_stream {sign : Kind} {place : Place} {item : Parser Node} {Item : Token → Node → Prop}
    {g : List Node → Node} {Q : List Token → Prop} (isPlain : plain [sign] = true)
    (more : sign ≠ .endOfInput) (gives : Gives item fun w e => ∃ t, w = [t] ∧ Item t e)
    (each : ∀ c₁, Refuses item (Any fun w e => ∃ t, w = [t] ∧ Item t e) c₁)
    (name : ∀ t : Token, t.kind = .ident → ∃ e, Item t e)
    (finish : ∀ w es (semicolon : Token), Streamed sign Item w es → semicolon.kind = .semicolon →
      Q (w ++ [semicolon])) :
    Refuses (expect sign place >>= fun _ => separated sign item >>= fun es => pure (g es)) Q c := by
  have sample u (spells : Spells [.ident] u) : Any (fun w e => ∃ t, w = [t] ∧ Item t e) u := by
    obtain ⟨t, rfl, isName⟩ := spells.singleton_inv
    obtain ⟨e, derived⟩ := name t isName
    exact ⟨e, t, rfl, derived⟩
  refine .expect_bind isPlain more [.ident, .semicolon] rfl ?_ fun s c₁ isSign took₁ => ?_
  · intro s u isSign spells
    obtain ⟨t, semicolon, rfl, isName, ends⟩ := spells.pair_inv
    obtain ⟨e, derived⟩ := name t isName
    exact finish [s, t] [e] semicolon (.single isSign derived) ends
  refine (refuses_separated sign _ rfl sample more gives fun c₂ _ => each c₂).map.before .semicolon rfl ?_
  rintro w semicolon ⟨items, joined, derived⟩ ends
  have stream := streamed_iff.2 ⟨s, w, items, rfl, isSign, joined, derived, rfl⟩
  exact finish (s :: w) _ semicolon stream ends

theorem refuses_inputTarget :
    Refuses inputTarget (Any fun w e => ∃ t, w = [t] ∧ InputItem t e) c :=
  .expect_pure rfl fun t isName => ⟨_, t, rfl, .name isName⟩

/-- The token is taken first, so a lexical error behind it comes before its refusal. -/
theorem refuses_outputItem :
    Refuses outputItem (Any fun w e => ∃ t, w = [t] ∧ OutputItem t e) c := by
  have due : Viable (Any fun w e => ∃ t, w = [t] ∧ OutputItem t e) [] := by
    refine ⟨[.ident], rfl, fun u spells => ?_⟩
    obtain ⟨t, rfl, isName⟩ := spells.singleton_inv
    exact ⟨_, t, rfl, .name isName⟩
  intro x c' run
  obtain run₁ | ⟨t, c₁, run₁, run₂⟩ := bind_eq_error.1 run
  · obtain ⟨-, e, rfl, ahead⟩ := advance_eq_error run₁
    refine ⟨[c.current], ahead, ?_⟩
    by_cases isName : c.current.kind = .ident
    · exact .inl (.of_complete ⟨_, c.current, rfl, .name isName⟩)
    · cases isLiteral : literal? c.current with
      | some node => exact .inl (.of_complete ⟨node, c.current, rfl, .literal isLiteral⟩)
      | none => exact .inr ⟨[], c.current, rfl, .inl ⟨isName, isLiteral⟩, due⟩
  · obtain ⟨rfl, -⟩ := advance_eq_ok run₁
    split at run₂
    next => exact absurd run₂ nofun
    next =>
      obtain ⟨_, rule, run₂⟩ := exists_rule run₂
      split at rule <;> subst rule
      next => exact absurd run₂ nofun
      next =>
        obtain rfl : .grammatical (.expected .outputItem c.current) = x := by
          injection run₂
        exact ⟨nofun, [], _, rfl, due⟩

/-- The sign or a name behind it. -/
theorem refuses_input (isCin : c.current.kind = .kwCin) : Refuses input (Any Statement) c := by
  have whole w es (semicolon : Token) (stream : Streamed .shiftRight InputItem w es)
      (ends : semicolon.kind = .semicolon) : Any Statement (c.current :: (w ++ [semicolon])) :=
    ⟨_, .simple (.input isCin stream) ends⟩
  refine .advance_bind (by rw [isCin]; decide) [.shiftRight, .ident, .semicolon] rfl ?_
    fun c₁ _ => refuses_stream rfl (by decide) gives_inputTarget (fun _ => refuses_inputTarget)
      (fun t isName => ⟨_, .name isName⟩) whole
  intro u spells
  obtain ⟨s, u, rfl, isSign, -, spells⟩ := spells.cons_inv
  obtain ⟨t, semicolon, rfl, isName, ends⟩ := spells.pair_inv
  exact whole [s, t] _ semicolon (.single isSign (.name isName)) ends

/-- The sign, or an item behind it, which is refused after it was taken. -/
theorem refuses_output (isCout : c.current.kind = .kwCout) : Refuses output (Any Statement) c := by
  have whole w es (semicolon : Token) (stream : Streamed .shiftLeft OutputItem w es)
      (ends : semicolon.kind = .semicolon) : Any Statement (c.current :: (w ++ [semicolon])) :=
    ⟨_, .simple (.output isCout stream) ends⟩
  refine .advance_bind (by rw [isCout]; decide) [.shiftLeft, .ident, .semicolon] rfl ?_
    fun c₁ _ => refuses_stream rfl (by decide) gives_outputItem (fun _ => refuses_outputItem)
      (fun t isName => ⟨_, .name isName⟩) whole
  intro u spells
  obtain ⟨s, u, rfl, isSign, -, spells⟩ := spells.cons_inv
  obtain ⟨t, semicolon, rfl, isName, ends⟩ := spells.pair_inv
  exact whole [s, t] _ semicolon (.single isSign (.name isName)) ends

/-- The end of input is refused in a comment, where any other token could stand. -/
theorem refuses_commentItem (inside : c.current.kind ≠ .closeComment) :
    Refuses commentItem (Any fun w word => ∃ t, w = [t] ∧ t.kind ≠ .closeComment ∧
      word = commentWord t) c := by
  intro x c' run
  rw [commentItem, peek_bind] at run
  split at run
  next =>
    refine refuses_fail _ [.ident] rfl (fun u spells => ?_) x c' run
    obtain ⟨t, rfl, is⟩ := spells.singleton_inv
    exact ⟨_, t, rfl, by rw [is]; decide, rfl⟩
  next more =>
    exact Refuses.advance_pure more ⟨_, c.current, rfl, inside, rfl⟩ x c' run

/-- A comment is refused only where the input ends in it. -/
theorem refuses_blockComment (opens : c.current.kind = .openComment) :
    Refuses blockComment (Any Statement) c := by
  refine .advance_bind (by rw [opens]; decide) [.closeComment] rfl ?_ fun c₁ took₁ => ?_
  · intro u spells
    obtain ⟨closing, rfl, closes⟩ := spells.singleton_inv
    have nothing : ∀ t ∈ ([] : List Token), t.kind ≠ .closeComment := by simp
    exact ⟨_, .blockComment opens nothing closes⟩
  have gives c word c' (inside : decide (c.current.kind = .closeComment) = false)
      (run : commentItem c = .ok word c') := commentItem_eq_ok (by simpa using inside) run
  have inner := refuses_many (c := c₁) (· = .closeComment) gives (by rintro w word ⟨t, rfl, -⟩; simp)
    fun c₂ _ inside => refuses_commentItem (by simpa using inside)
  refine inner.bind [.closeComment] rfl ?_ fun words c₂ run₂ => ?_
  · rintro _ u ⟨items, rfl, each⟩ spells
    obtain ⟨closing, rfl, closes⟩ := spells.singleton_inv
    obtain ⟨inner, tokens, -, outside⟩ := commentTokens each
    rw [tokens]
    exact ⟨_, .blockComment opens outside closes⟩
  · obtain ⟨_, took₂, items, rfl, each, -⟩ := gives_manyWithin gives _ c₁ words c₂ run₂
    obtain ⟨inner, tokens, -, outside⟩ := commentTokens each
    have closes : c₂.current.kind = .closeComment := by
      simpa using stop_of_manyWithin run₂
    rw [tokens] at took₂
    refine ⟨_, took₂, .advance_pure (by rw [closes]; decide) ?_⟩
    exact ⟨_, .blockComment opens outside closes⟩

/-- **A statement before its semicolon**, by its first token. -/
theorem refuses_bareStatement (inside : Gives body Statements)
    (stuck : ∀ c₁, c₁.ahead.length < c.ahead.length → Refuses body (Any Statements) c₁) :
    Refuses (bareStatement body) (Any Statement) c := by
  intro x c' run
  rw [bareStatement, peek_bind] at run
  obtain ⟨_, rule, run⟩ := exists_rule run
  split at rule <;> subst rule
  next => exact refuses_nameStatement inside stuck x c' run
  next => exact refuses_nameStatement inside stuck x c' run
  next is => exact refuses_control inside stuck (.inl is) x c' run
  next is => exact refuses_control inside stuck (.inr (.inl is)) x c' run
  next is => exact refuses_control inside stuck (.inr (.inr is)) x c' run
  next is => exact refuses_result is x c' run
  next is => exact refuses_input is x c' run
  next is => exact refuses_output is x c' run
  next isComment =>
    exact Refuses.advance_pure (by rw [isComment]; decide) ⟨_, .lineComment isComment⟩ x c' run
  next is => exact refuses_blockComment is x c' run
  next => exact refuses_fail _ _ rfl (fun _ => any_declaration) x c' run

end Others

/-! Statements and programs. -/

/-- Statements in a row, up to a token that ends them. -/
theorem refuses_statements {stop : Kind → Bool} {item : Parser Node} (gives : Gives item Statement)
    (each : ∀ c₁, c₁.ahead.length ≤ c.ahead.length → Refuses item (Any Statement) c₁) :
    Refuses (many stop item) (Any Statements) c := by
  have nonempty w node (derived : Statement w node) : w ≠ [] := by
    obtain ⟨t, u, rfl, -⟩ := derived.begins
    simp
  refine (refuses_many stop (fun c a c' _ run => gives c a c' run) nonempty
    fun c₁ le _ => each c₁ le).mono ?_
  rintro w ⟨items, rfl, derived⟩
  exact ⟨_, items, rfl, rfl, derived⟩

/-- A statement with its semicolon. The bound is enough, as each block has fewer readings ahead. -/
theorem refuses_statementWithin (enough : c.ahead.length ≤ n) :
    Refuses (statementWithin n) (Any Statement) c := by
  induction n generalizing c with
  | zero =>
    have := c.length_ahead_pos
    omega
  | succ n ih =>
    have inside : Gives (many endsBlock (statementWithin n)) Statements :=
      gives_many (gives_statementWithin n)
    have stuck c₁ (lt : c₁.ahead.length < c.ahead.length) :
        Refuses (many endsBlock (statementWithin n)) (Any Statements) c₁ :=
      refuses_statements (gives_statementWithin n) fun c₂ le => ih (by omega)
    refine (refuses_bareStatement inside stuck).bind_complete (fun _ => id) fun node c₁ run₁ => ?_
    obtain ⟨w, took₁, bare⟩ := gives_bareStatement inside c node c₁ run₁
    refine ⟨w, took₁, ?_⟩
    split
    next => exact refuses_pure _
    next open_ =>
      refine .expect_pure rfl fun semicolon ends => ?_
      obtain simple | ⟨-, terminated⟩ := bare
      · exact ⟨_, .simple simple ends⟩
      · exact absurd terminated open_

theorem refuses_statement : Refuses statement (Any Statement) c := by
  have enough := c.length_ahead_lt_bound
  exact Refuses.bound (f := statementWithin) (refuses_statementWithin (by omega))

/-- The tokens are statements in a row, at least one. -/
def IsProgram (w : List Token) : Prop :=
  w ≠ [] ∧ Any Statements w

/-- Statements in a row and a declaration after them. -/
theorem isProgram_append {v u : List Token} (h : Any Statements v)
    (spells : Spells [.ident, .ident, .semicolon] u) : IsProgram (v ++ u) := by
  obtain ⟨nodes, items, rfl, -, each⟩ := h
  obtain ⟨node, derived⟩ := any_declaration spells
  obtain ⟨t, u, rfl, -⟩ := spells.cons_inv
  refine ⟨by simp, _, items ++ [(t :: u, node)], by simp [concat], rfl, fun x member => ?_⟩
  obtain member | member := List.mem_append.1 member
  · exact each x member
  · obtain rfl := List.mem_singleton.1 member
    exact derived

/-- There is a program. -/
theorem viable_nil : Viable IsProgram [] := by
  refine ⟨[.ident, .ident, .semicolon], rfl, fun u spells => ?_⟩
  exact isProgram_append ⟨[], [], rfl, rfl, by simp⟩ spells

/-- A program stops where no statement can go on, or no statement stands at all. -/
theorem refuses_program : Refuses program IsProgram c := by
  have gives : Gives statement Statement := fun c node c' run =>
    gives_statementWithin c.bound c node c' run
  intro x c' run
  rw [program, peek_bind] at run
  split at run
  next =>
    obtain ⟨ks, isPlain, finish⟩ := viable_nil
    exact refuses_fail _ ks isPlain finish x c' run
  next =>
    refine Refuses.bind (refuses_statements gives fun _ _ => refuses_statement)
      [.ident, .ident, .semicolon] rfl (fun _ _ => isProgram_append) (fun nodes c₁ run₁ => ?_) x c' run
    obtain ⟨w, took₁, -⟩ := gives_many gives c nodes c₁ run₁
    refine ⟨w, took₁, fun x c' run => ?_⟩
    rw [get_bind] at run
    exact refuses_pure _ x c' run

end Parser

/-- A text is refused before its first token, for a lexical error, or by the grammar. -/
theorem Program.parse_eq_error {source : String} {x : ParseError}
    (h : Program.parse source = .error x) :
    (∃ e, x = .lexical e ∧ (Lexer.ofString source).significantItems = [.error e]) ∨
      ∃ c c', Cursor.ofString source = .ok c ∧ Parser.program c = .error x c' := by
  rw [Program.parse] at h
  cases start : Cursor.ofString source with
  | error e =>
    rw [start] at h
    obtain rfl : e = x := Except.error.inj h
    rw [Cursor.ofString] at start
    split at start
    next => cases start
    next e' l first =>
      refine .inl ⟨e', (Except.error.inj start).symm, ?_⟩
      rw [Lexer.significantItems_eq, first]
      rfl
  | ok c =>
    rw [start] at h
    cases run : Parser.program c with
    | ok program c' => simp [bind, Except.bind, Cursor.parse, EStateM.run, run] at h
    | error e c' =>
      obtain rfl : e = x := by
        simpa [bind, Except.bind, Cursor.parse, EStateM.run, run] using h
      exact .inr ⟨c, c', rfl, run⟩

/-- What an error says of the stream of a text: it stops where tokens of a program could go on. -/
theorem Program.stops_of_parse {source : String} {x : ParseError}
    (h : Program.parse source = .error x) :
    Stops (Lexer.ofString source).significantItems Parser.IsProgram x := by
  obtain ⟨e, rfl, stream⟩ | ⟨c, c', start, run⟩ := Program.parse_eq_error h
  · exact ⟨[], stream, .inl Parser.viable_nil⟩
  · rw [← Cursor.ahead_ofString start]
    exact Parser.refuses_program x c' run

end Pascalize
