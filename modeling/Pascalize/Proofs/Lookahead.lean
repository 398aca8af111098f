import Pascalize.Proofs.LookaheadLaws

/-!
# Every rule decides by what it reads

The judgment `Local` for each rule of the grammar, up to whole programs.
-/

namespace Pascalize

namespace Parser

/-! Expressions. -/

/-- Whether a token is a literal, and which, is decided by its kind and text. -/
theorem literal?_of_content {t t' : Token} (h : t.content = t'.content) :
    (literal? t).map Node.placeless = (literal? t').map Node.placeless := by
  rw [literal?, literal?, Token.kind_eq h]
  split <;> simp [Node.placeless, Node.relocate, Token.text_eq h]

/-- The list between parentheses goes on by commas, and each argument decides on its own. -/
theorem local_arguments {item item' : Parser Node} (each : Local Node.placeless item item')
    (self : Local Node.placeless item item) :
    Local (List.map Node.placeless) (arguments item) (arguments item') := by
  refine (local_expect _ _).bind fun _ _ _ => (local_listed _ each self).bind fun _ _ same => ?_
  exact (local_expect _ _).bind fun _ _ _ => local_pure same

/-- The four rules with bounds `n` and `m`. -/
structure Parallel (n m : Nat) : Prop where
  operation : ∀ least, Local Node.placeless (operationWithin n least) (operationWithin m least)
  tail : ∀ least left left', left.placeless = left'.placeless →
    Local Node.placeless (operationTailWithin n least left) (operationTailWithin m least left')
  unary : Local Node.placeless (unaryWithin n) (unaryWithin m)
  primary : Local Node.placeless (primaryWithin n) (primaryWithin m)

namespace Parallel

variable {n m : Nat}

/-- An operation is an operand and what follows it. -/
theorem operation_step (ih : Parallel n m) (least : Nat) :
    Local Node.placeless (operationWithin (n + 1) least) (operationWithin (m + 1) least) := by
  rw [operationWithin, operationWithin]
  exact ih.unary.bind fun left left' same => ih.tail least left left' same

/-- The operator that comes next decides whether the operation goes on. Both runs see the same one. -/
theorem tail_step (ih : Parallel n m) (least : Nat) {left left' : Node}
    (same : left.placeless = left'.placeless) :
    Local Node.placeless (operationTailWithin (n + 1) least left)
      (operationTailWithin (m + 1) least left') := by
  rw [operationTailWithin, operationTailWithin]
  refine .peek_bind fun k => ?_
  cases Operator.ofKind? k with
  | none => exact local_pure same
  | some op =>
    simp only
    split
    · exact local_pure same
    · refine local_advance.bind fun _ _ _ => (ih.operation _).bind fun _ _ other => ?_
      refine ih.tail least _ _ ?_
      simp only [Node.placeless, Node.relocate] at same other ⊢
      rw [same, other]

/-- A sign is looked at and taken; without one the operand is a primary. -/
theorem unary_step (ih : Parallel n m) :
    Local Node.placeless (unaryWithin (n + 1)) (unaryWithin (m + 1)) := by
  rw [unaryWithin, unaryWithin]
  refine .peek_bind fun k => ?_
  split
  · refine local_advance.bind fun _ _ _ => ih.unary.bind fun _ _ same => local_pure ?_
    simp only [Node.placeless, Node.relocate] at same ⊢
    rw [same]
  · refine local_advance.bind fun _ _ _ => ih.unary.bind fun _ _ same => local_pure ?_
    simp only [Node.placeless, Node.relocate] at same ⊢
    rw [same]
  · exact ih.primary

/-- A primary is chosen by its first token, and by the next one if the first is a name. The arguments of
a call are read by a loop with a bound of its own, so the left run is compared with itself as well. -/
theorem primary_step (ih : Parallel n m) (self : Parallel n n) :
    Local Node.placeless (primaryWithin (n + 1)) (primaryWithin (m + 1)) := by
  rw [primaryWithin, primaryWithin]
  refine .get_bind fun c d same => ?_
  have literals := literal?_of_content same
  have kinds := Token.kind_eq same
  simp only
  generalize literal? c.current = node? at literals ⊢
  generalize literal? d.current = node?' at literals ⊢
  cases node? with
  | some node =>
    cases node?' with
    | none => nomatch literals
    | some node' => exact local_advance.bind fun _ _ _ => local_pure (Option.some.inj literals)
  | none =>
    cases node?' with
    | some node' => nomatch literals
    | none =>
      simp only [← kinds]
      split
      · refine local_advance.bind fun name name' names => .peek_bind fun k => ?_
        have texts := Token.text_eq names
        split
        · refine (local_arguments (ih.operation 1) (self.operation 1)).bind fun args args' all => ?_
          have same := Node.relocateAll_of_placeless all
          exact local_pure (by simp only [Node.placeless, Node.relocate, texts, same])
        · refine local_advance.bind fun _ _ _ => (ih.operation 1).bind fun _ _ inner => ?_
          refine (local_expect _ _).bind fun _ _ _ => local_pure ?_
          simp only [Node.placeless, Node.relocate] at inner ⊢
          rw [texts, inner]
        · exact local_pure (by simp only [Node.placeless, Node.relocate, texts])
      · refine local_advance.bind fun _ _ _ => (ih.operation 1).bind fun _ _ inner => ?_
        exact (local_expect _ _).bind fun _ _ _ => local_pure inner
      · exact local_fail _

end Parallel

/-- The four rules agree for any two bounds. Where the second bound is used up first, the left run is
compared with itself instead. -/
theorem parallel (n m : Nat) : Parallel n m := by
  have step {n m} (ih : Parallel n m) (self : Parallel n n) : Parallel (n + 1) (m + 1) :=
    ⟨ih.operation_step, fun least _ _ => ih.tail_step least, ih.unary_step, ih.primary_step self⟩
  have alone n : Parallel n n := by
    induction n with
    | zero =>
      exact ⟨fun _ => local_exhausted, fun _ _ _ _ => local_exhausted, local_exhausted,
        local_exhausted⟩
    | succ n ih => exact step ih ih
  induction n generalizing m with
  | zero =>
    exact ⟨fun _ => local_exhausted, fun _ _ _ _ => local_exhausted, local_exhausted,
      local_exhausted⟩
  | succ n ih =>
    cases m with
    | zero =>
      have self := alone (n + 1)
      exact ⟨fun least => (self.operation least).exhausted,
        fun least left _ _ => (self.tail least left left rfl).exhausted, self.unary.exhausted,
        self.primary.exhausted⟩
    | succ m => exact step (ih m) (alone n)

/-- The bound that an expression is read with depends on what is unread, but no answer does. -/
theorem local_expression : Local Node.placeless expression expression :=
  .bound (f := (operationWithin · 1)) fun n m => (parallel n m).operation 1

/-! Types and declarations. -/

/-- The verdict on the size of an array. -/
def sizeVerdict (t : Token) : Except SyntaxError Nat :=
  match arraySize? t.text with
  | none => .error (.arraySize t)
  | some n => .ok n

/-- A size is judged by its digits. -/
theorem judges_size : Judges id sizeVerdict where
  own {t e} against := by
    rw [sizeVerdict] at against
    split at against <;> cases against
    rfl
  accepted {t t' n} same fits := by
    rw [sizeVerdict] at fits
    split at fits <;> cases fits
    next small => exact ⟨n, by rw [sizeVerdict, ← Token.text_eq same, small], rfl⟩
  refused {t t' e} same against := by
    rw [sizeVerdict] at against
    split at against <;> cases against
    next big =>
      refine ⟨.arraySize t', ?_, congrArg ("Invalid array size: " ++ ·) (Token.text_eq same).symm⟩
      rw [sizeVerdict, ← Token.text_eq same, big]
  late {t e} against := by
    rw [sizeVerdict] at against
    split at against <;> cases against
    exact .inr rfl

/-- The size with its verdict is one step of the rule. -/
theorem arrayType_eq (element : Token) : arrayType element =
    expect .openBracket .inArrayType >>= fun _ =>
      (peek >>= fun k => if k = .intLiteral then advance >>= fun t => judge (sizeVerdict t)
        else fail (.token .intLiteral .arraySize)) >>= fun n =>
      expect .closeBracket .afterArraySize >>= fun _ =>
        pure ⟨element.text, some n, element.location⟩ := by
  rw [arrayType]
  refine bind_congr fun _ => ?_
  rw [expect, bind_assoc, bind_assoc]
  refine bind_congr fun k => ?_
  split
  · rw [bind_assoc]
    refine bind_congr fun t => ?_
    rw [sizeVerdict]
    cases arraySize? t.text with
    | none => rfl
    | some n => rfl
  · rfl

/-- The size of an array is judged after it has been taken, so its verdict may come late. -/
theorem local_arrayType {element element' : Token} (same : element.content = element'.content) :
    Local TypeName.placeless (arrayType element) (arrayType element') := by
  rw [arrayType_eq, arrayType_eq]
  have size : Local id (peek >>= fun k => if k = .intLiteral then
      advance >>= fun t => judge (sizeVerdict t) else fail (.token .intLiteral .arraySize))
      (peek >>= fun k => if k = .intLiteral then
        advance >>= fun t => judge (sizeVerdict t) else fail (.token .intLiteral .arraySize)) := by
    refine .peek_bind fun k => ?_
    split
    · exact judges_size.local_advance
    · exact local_fail _
  refine (local_expect _ _).bind fun _ _ _ => size.bind fun n n' sizes => ?_
  refine (local_expect _ _).bind fun _ _ _ => local_pure ?_
  obtain rfl : n = n' := sizes
  simp only [TypeName.placeless, TypeName.relocate, Token.text_eq same]

/-- Types of the same name differ in their locations only. -/
theorem placeless_plainType {t t' : Token} (same : t.content = t'.content) :
    (Derives.plainType t).placeless = (Derives.plainType t').placeless := by
  simp only [Derives.plainType, TypeName.placeless, TypeName.relocate, Token.text_eq same]

/-- A bracket behind the name tells an array type from a plain one. -/
theorem local_typeName : Local TypeName.placeless typeName typeName := by
  refine (local_expect _ _).bind fun _ _ same => .peek_bind fun k => ?_
  split
  · exact local_arrayType same
  · exact local_pure (placeless_plainType same)

/-- What is declared is known from the type and the name, but for locations. -/
theorem placeless_declare {type type' : TypeName} {name name' : Token} (isConst : Bool)
    (types : type.placeless = type'.placeless) (names : name.content = name'.content) :
    (declare type isConst name).placeless = (declare type' isConst name').placeless := by
  simp only [TypeName.placeless] at types
  simp only [declare, Declaration.placeless, Declaration.relocate, types, Token.text_eq names]

/-- A declared name is a statement. -/
theorem placeless_declaration {type type' : TypeName} {name name' : Token} (isConst : Bool)
    (types : type.placeless = type'.placeless) (names : name.content = name'.content) :
    (Node.declaration (declare type isConst name)).placeless =
      (Node.declaration (declare type' isConst name')).placeless := by
  have same := placeless_declare isConst types names
  simp only [Declaration.placeless] at same
  simp only [Node.placeless, Node.relocate, same]

theorem local_parameter : Local Declaration.placeless parameter parameter := by
  refine local_typeName.bind fun _ _ types => (local_expect _ _).bind fun _ _ names => ?_
  exact local_pure (placeless_declare false types names)

/-- A closing parenthesis at once means that there are no parameters. -/
theorem local_parameters : Local (List.map Declaration.placeless) parameters parameters := by
  refine .peek_bind fun k => ?_
  split
  · exact local_pure rfl
  · exact local_separated _ local_parameter local_parameter

section Statements

variable {body body' : Parser (List Node)} {name name' type type' : Token}

/-- The heading of a function is a row of single tokens, with its parameters and its body in between. -/
theorem local_function {returns returns' : Token}
    (inside : Local (List.map Node.placeless) body body')
    (types : returns.content = returns'.content) (names : name.content = name'.content) :
    Local Node.placeless (function body returns name) (function body' returns' name') := by
  refine (local_expect _ _).bind fun _ _ _ => local_parameters.bind fun params params' all => ?_
  refine (local_expect _ _).bind fun _ _ _ => (local_expect _ _).bind fun _ _ _ => ?_
  refine inside.bind fun nodes nodes' each => (local_expect _ _).bind fun _ _ _ => local_pure ?_
  have same := Node.relocateAll_of_placeless each
  have all : params.map (Declaration.relocate fun _ => .start) =
      params'.map (Declaration.relocate fun _ => .start) := all
  simp only [Node.placeless, Node.relocate, Token.text_eq types, Token.text_eq names, same, all]

/-- Assignments to the same name of the same value differ in their locations only. -/
theorem placeless_assignment {target target' : Token} {value value' : Node} (p p' q q' : Location)
    (names : target.content = target'.content) (values : value.placeless = value'.placeless) :
    (Node.assignment (.var target.text p) value q).placeless =
      (Node.assignment (.var target'.text p') value' q').placeless := by
  simp only [Node.placeless] at values
  simp only [Node.placeless, Node.relocate, Token.text_eq names, values]

/-- Behind a declared name, the next token says whether another name, a value or nothing follows. As in
`parallel`, the bounds may differ. -/
theorem local_declarationTailWithin {type type' : TypeName} (isConst : Bool)
    (types : type.placeless = type'.placeless) (n m : Nat)
    (names : name.content = name'.content) :
    Local (List.map Node.placeless) (declarationTailWithin type isConst n name)
      (declarationTailWithin type' isConst m name') := by
  have step {type type' : TypeName} (types : type.placeless = type'.placeless) (n m : Nat)
      (rest : ∀ t t', t.content = t'.content → Local (List.map Node.placeless)
        (declarationTailWithin type isConst n t) (declarationTailWithin type' isConst m t'))
      (t t' : Token) (names : t.content = t'.content) : Local (List.map Node.placeless)
        (declarationTailWithin type isConst (n + 1) t)
        (declarationTailWithin type' isConst (m + 1) t') := by
    rw [declarationTailWithin, declarationTailWithin]
    refine .peek_bind fun k => ?_
    split
    · exact local_pure rfl
    · refine local_advance.bind fun _ _ _ => (local_expect _ _).bind fun s s' latest => ?_
      refine (rest s s' latest).bind fun _ _ all => local_pure ?_
      rw [List.map_cons, List.map_cons, placeless_declaration isConst types latest, all]
    · refine local_advance.bind fun _ _ _ => local_expression.bind fun _ _ values => ?_
      refine (rest t t' names).bind fun _ _ all => local_pure ?_
      rw [List.map_cons, List.map_cons, placeless_assignment _ _ _ _ names values, all]
    · exact local_fail _
  exact local_within Token.content (declarationTailWithin type isConst)
    (declarationTailWithin type' isConst) (fun _ => rfl) (fun _ => rfl) (step types)
    (fun n => step rfl n n) n m _ _ names

/-- Declarations in a row start with a name and go on as their tail does. -/
theorem local_declarations {type type' : TypeName} (isConst : Bool)
    (types : type.placeless = type'.placeless) (names : name.content = name'.content) :
    Local Node.placeless (declarations type isConst name) (declarations type' isConst name') := by
  have tail := Local.bound fun n m => local_declarationTailWithin isConst types n m names
  have whole {t : TypeName} {s : Token} : declarations t isConst s =
      (get >>= fun c => declarationTailWithin t isConst c.bound s) >>= fun rest =>
        pure (.declarations (.declaration (declare t isConst s) :: rest) s.location) := by
    rw [declarations, bind_assoc]
  rw [whole, whole]
  refine tail.bind fun rest rest' all => local_pure ?_
  have same : List.map Node.placeless (.declaration (declare type isConst name) :: rest) =
      List.map Node.placeless (.declaration (declare type' isConst name') :: rest') := by
    rw [List.map_cons, List.map_cons, placeless_declaration isConst types names, all]
  simp only [Node.placeless, Node.relocate, Node.relocateAll_of_placeless same]

/-- What two names in a row begin is seen from the token behind them. -/
theorem local_typedName (isConst : Bool) (inside : Local (List.map Node.placeless) body body')
    (types : type.content = type'.content) :
    Local Node.placeless (typedName body isConst type) (typedName body' isConst type') := by
  refine local_advance.bind fun name name' names => ?_
  have plain := placeless_plainType types
  refine .peek_bind fun k => ?_
  split
  · exact local_function inside types names
  · exact local_declarations isConst plain names
  · exact local_declarations isConst plain names
  · exact local_pure (placeless_declaration isConst plain names)

theorem local_arrayDeclaration (isConst : Bool) (types : type.content = type'.content) :
    Local Node.placeless (arrayDeclaration isConst type) (arrayDeclaration isConst type') := by
  refine (local_arrayType types).bind fun _ _ arrays => (local_expect _ _).bind fun _ _ names => ?_
  exact local_pure (placeless_declaration isConst arrays names)

/-- Elements in brackets go on by commas. -/
theorem local_sequence : Local Node.placeless sequence sequence := by
  refine (local_expect _ _).bind fun _ _ _ => ?_
  refine (local_listed _ local_expression local_expression).bind fun _ _ all => ?_
  refine (local_expect _ _).bind fun _ _ _ => local_pure ?_
  simp only [Node.placeless, Node.relocate, Node.relocateAll_of_placeless all]

/-- A bracket behind the sign begins a sequence, and any other token an expression. -/
theorem local_assignment (names : name.content = name'.content) :
    Local Node.placeless (assignment name) (assignment name') := by
  refine local_advance.bind fun sign sign' _ => .peek_bind fun k => ?_
  have finish value value' (values : Node.placeless value = Node.placeless value') :
      Local Node.placeless
        (pure (.assignment (.var name.text name.location) value sign.location))
        (pure (.assignment (.var name'.text name'.location) value' sign'.location)) :=
    local_pure (placeless_assignment _ _ _ _ names values)
  split
  · exact local_sequence.bind finish
  · exact local_expression.bind finish

/-- A statement that begins with a name is told by the token behind the name. The messages of its
refusals show the text of the name, which is the same in both runs. -/
theorem local_nameStatement (inside : Local (List.map Node.placeless) body body') :
    Local Node.placeless (nameStatement body) (nameStatement body') := by
  refine (local_accept _).bind fun isConst isConst' both => ?_
  obtain rfl : isConst = isConst' := both
  refine (local_expect _ _).bind fun first first' names => .peek_bind fun k => ?_
  have texts := Token.text_eq names
  split
  · exact local_typedName isConst inside names
  · exact local_arrayDeclaration isConst names
  · split
    · rw [texts]
      exact local_fail _
    · split
      · exact local_assignment names
      · refine (local_arguments local_expression local_expression).bind fun _ _ all => local_pure ?_
        simp only [Node.placeless, Node.relocate, texts, Node.relocateAll_of_placeless all]
      · rw [texts]
        exact local_fail _

/-! The other statements. -/

/-- The expectations of a block depend on the keyword, by its kind alone. -/
theorem local_block {keyword keyword' : Token}
    (inside : Local (List.map Node.placeless) body body') (kinds : keyword.kind = keyword'.kind) :
    Local (List.map Node.placeless) (control.block body keyword) (control.block body' keyword') := by
  rw [control.block, control.block, kinds]
  refine (local_expect _ _).bind fun _ _ _ => inside.bind fun _ _ all => ?_
  exact (local_expect _ _).bind fun _ _ _ => local_pure all

/-- Loops, conditionals and `else` blocks are told by their keyword. -/
theorem local_control (inside : Local (List.map Node.placeless) body body') :
    Local Node.placeless (control body) (control body') := by
  refine local_advance.bind fun keyword keyword' same => ?_
  have kinds := Token.kind_eq same
  have block := local_block inside kinds
  rw [← kinds]
  split
  · refine block.bind fun _ _ all => local_pure ?_
    simp only [Node.placeless, Node.relocate, Node.relocateAll_of_placeless all]
  · refine local_expression.bind fun _ _ guard => block.bind fun _ _ all => local_pure ?_
    simp only [Node.placeless] at guard
    simp only [Node.placeless, Node.relocate, guard, Node.relocateAll_of_placeless all]
  · refine local_expression.bind fun _ _ guard => block.bind fun _ _ all => local_pure ?_
    simp only [Node.placeless] at guard
    simp only [Node.placeless, Node.relocate, guard, Node.relocateAll_of_placeless all]

theorem local_result : Local Node.placeless result result := by
  refine local_advance.bind fun _ _ _ => local_expression.bind fun _ _ value => local_pure ?_
  simp only [Node.placeless] at value
  simp only [Node.placeless, Node.relocate, value]

theorem local_inputTarget : Local Node.placeless inputTarget inputTarget := by
  refine (local_expect _ _).bind fun _ _ names => local_pure ?_
  simp only [Node.placeless, Node.relocate, Token.text_eq names]

theorem local_input : Local Node.placeless input input := by
  refine local_advance.bind fun _ _ _ => (local_expect _ _).bind fun _ _ _ => ?_
  refine (local_separated _ local_inputTarget local_inputTarget).bind fun _ _ all => local_pure ?_
  simp only [Node.placeless, Node.relocate, Node.relocateAll_of_placeless all]

/-- The verdict on a token that is written out. -/
def outputVerdict (t : Token) : Except SyntaxError Node :=
  if t.kind = .ident then .ok (.reference t.text t.location)
  else match literal? t with
    | some node => .ok node
    | none => .error (.expected .outputItem t)

/-- An item is taken first and judged then. -/
theorem outputItem_eq : outputItem = advance >>= fun t => judge (outputVerdict t) := by
  refine bind_congr fun t => ?_
  rw [outputVerdict]
  split
  · rfl
  · cases literal? t <;> rfl

/-- An item is judged by its kind and text. -/
theorem judges_output : Judges Node.placeless outputVerdict where
  own {t e} against := by
    rw [outputVerdict] at against
    split at against
    · nomatch against
    · split at against <;> cases against
      rfl
  accepted {t t' a} same isItem := by
    have literals := literal?_of_content same
    rw [outputVerdict] at isItem ⊢
    rw [← Token.kind_eq same]
    split at isItem
    next isName =>
      cases isItem
      refine ⟨_, if_pos isName, ?_⟩
      simp only [Node.placeless, Node.relocate, Token.text_eq same]
    next other =>
      rw [if_neg other]
      split at isItem <;> cases isItem
      next found =>
        rw [found, Option.map_some] at literals
        obtain ⟨node, found', same⟩ := Option.map_eq_some_iff.1 literals.symm
        exact ⟨node, by rw [found'], same.symm⟩
  refused {t t' e} same against := by
    have literals := literal?_of_content same
    rw [outputVerdict] at against ⊢
    rw [← Token.kind_eq same]
    split at against
    next => nomatch against
    next other =>
      rw [if_neg other]
      split at against <;> cases against
      next missing =>
        rw [missing, Option.map_none] at literals
        rw [Option.map_eq_none_iff.1 literals.symm]
        exact ⟨_, rfl, congrArg (Expectation.outputItem.text ++ ", found " ++ ·)
          (Token.describe_eq same).symm⟩
  late {t e} against := by
    rw [outputVerdict] at against
    split at against
    · cases against
    · split at against <;> cases against
      exact .inl rfl

/-- Like a size, an item is refused only after it has been taken. -/
theorem local_outputItem : Local Node.placeless outputItem outputItem := by
  rw [outputItem_eq]
  exact judges_output.local_advance

theorem local_output : Local Node.placeless output output := by
  refine local_advance.bind fun _ _ _ => (local_expect _ _).bind fun _ _ _ => ?_
  refine (local_separated _ local_outputItem local_outputItem).bind fun _ _ all => local_pure ?_
  simp only [Node.placeless, Node.relocate, Node.relocateAll_of_placeless all]

/-- A token in a comment is written by its kind and text. -/
theorem commentWord_of_content {t t' : Token} (same : t.content = t'.content) :
    commentWord t = commentWord t' := by
  rw [commentWord, commentWord, Token.kind_eq same, Token.text_eq same]

/-- Inside a comment every token is taken but the end of input. -/
theorem local_commentItem : Local id commentItem commentItem := by
  refine .peek_bind fun k => ?_
  split
  · exact local_fail _
  · exact local_advance.bind fun _ _ same => local_pure (commentWord_of_content same)

/-- The words of a comment have no locations, so the two comments are equal. -/
theorem local_blockComment : Local Node.placeless blockComment blockComment := by
  refine local_advance.bind fun _ _ _ => ?_
  refine (local_many _ local_commentItem local_commentItem).bind fun words words' all => ?_
  refine local_advance.bind fun _ _ _ => local_pure ?_
  obtain rfl : words = words' := by simpa using all
  rfl

theorem local_lineComment : Local Node.placeless lineComment lineComment := by
  refine local_advance.bind fun _ _ same => local_pure ?_
  simp only [Node.placeless, Node.relocate, Token.text_eq same]

/-- The first token selects the rule of a statement. -/
theorem local_bareStatement (inside : Local (List.map Node.placeless) body body') :
    Local Node.placeless (bareStatement body) (bareStatement body') := by
  refine .peek_bind fun k => ?_
  split
  · exact local_nameStatement inside
  · exact local_nameStatement inside
  · exact local_control inside
  · exact local_control inside
  · exact local_control inside
  · exact local_result
  · exact local_input
  · exact local_output
  · exact local_lineComment
  · exact local_blockComment
  · exact local_fail _

end Statements

/-! Statements and programs. -/

/-- Whether a semicolon is due does not depend on locations. -/
theorem isSelfTerminated_of_placeless {node node' : Node} (h : node.placeless = node'.placeless) :
    node.isSelfTerminated = node'.isSelfTerminated := by
  rw [← Node.isSelfTerminated_relocate (fun _ => .start) node,
    ← Node.isSelfTerminated_relocate (fun _ => .start) node']
  exact congrArg _ h

/-- Blocks are read by statements with a smaller bound, and two bounds may differ at every depth. -/
theorem local_statementWithin (n m : Nat) :
    Local Node.placeless (statementWithin n) (statementWithin m) := by
  have step {n m} (rest : Local Node.placeless (statementWithin n) (statementWithin m))
      (self : Local Node.placeless (statementWithin n) (statementWithin n)) :
      Local Node.placeless (statementWithin (n + 1)) (statementWithin (m + 1)) := by
    refine (local_bareStatement (local_many _ rest self)).bind fun node node' same => ?_
    rw [isSelfTerminated_of_placeless same]
    split
    · exact local_pure same
    · exact (local_expect _ _).bind fun _ _ _ => local_pure same
  have alone n : Local Node.placeless (statementWithin n) (statementWithin n) := by
    induction n with
    | zero => exact local_exhausted
    | succ n ih => exact step ih ih
  exact local_within_bound rfl rfl (fun n _ rest => step rest (alone n)) (fun _ rest => step rest rest)
    n m

theorem local_statement : Local Node.placeless statement statement :=
  .bound local_statementWithin

/-- **Every rule decides by what it reads**, up to whole programs: from tokens that agree but for
locations, two runs read the same statements or fail alike. -/
theorem local_program : Local Program.placeless program program := by
  refine .peek_bind fun k => ?_
  split
  · exact local_fail _
  · refine (local_many _ local_statement local_statement).bind fun _ _ all => ?_
    refine .get_bind fun _ _ _ => local_pure ?_
    simp only [Program.placeless, Program.relocate, Node.relocateAll_of_placeless all]

end Parser

end Pascalize
