import Pascalize.Proofs.ProgramParsing

/-!
# Tokens and trees elsewhere

Locations are carried along and never looked at. `relocate f` sends all locations of a token or a
tree through `f`, and a derivation of tokens from trees stays one when both are relocated
(`Derives.Statement.relocate`). A lexer that starts some lines further down reads the same tokens,
that many lines further down (`Lexer.items_down`).
-/

namespace Pascalize

/-- The place that is `n` lines further down, in the same column. -/
def Location.down (n : Nat) (p : Location) : Location :=
  ⟨p.line + n, p.column⟩

/-- A character moves a location alike on every line. -/
theorem Location.step_down (n : Nat) (p : Location) (c : Char) :
    (p.down n).step c = (p.step c).down n := by
  unfold step down
  split
  · simp only [Nat.add_right_comm]
  · rfl

theorem Location.after_down (n : Nat) (p : Location) (cs : List Char) :
    (p.down n).after cs = (p.after cs).down n := by
  induction cs generalizing p with
  | nil => rfl
  | cons c cs ih => rw [after_cons, after_cons, step_down, ih]

def Token.relocate (f : Location → Location) (t : Token) : Token :=
  { t with location := f t.location }

def TypeName.relocate (f : Location → Location) (type : TypeName) : TypeName :=
  { type with location := f type.location }

def Declaration.relocate (f : Location → Location) (decl : Declaration) : Declaration :=
  { decl with type := decl.type.relocate f, location := f decl.location }

mutual

/-- The same tree at other places. -/
def Node.relocate (f : Location → Location) : Node → Node
  | .declaration decl => .declaration (decl.relocate f)
  | .declarations items p => .declarations (relocateAll f items) (f p)
  | .function returns name params body p =>
    .function returns name (params.map (·.relocate f)) (relocateAll f body) (f p)
  | .assignment target value p => .assignment (target.relocate f) (value.relocate f) (f p)
  | .conditional condition body p => .conditional (condition.relocate f) (relocateAll f body) (f p)
  | .loop condition body p => .loop (condition.relocate f) (relocateAll f body) (f p)
  | .alternative body p => .alternative (relocateAll f body) (f p)
  | .result value p => .result (value.relocate f) (f p)
  | .input targets p => .input (relocateAll f targets) (f p)
  | .output items p => .output (relocateAll f items) (f p)
  | .comment text p => .comment text (f p)
  | .binary op left right p => .binary op (left.relocate f) (right.relocate f) (f p)
  | .negation operand p => .negation (operand.relocate f) (f p)
  | .complement operand p => .complement (operand.relocate f) (f p)
  | .var name p => .var name (f p)
  | .reference name p => .reference name (f p)
  | .call name args p => .call name (relocateAll f args) (f p)
  | .index target position p => .index (target.relocate f) (position.relocate f) (f p)
  | .sequence items p => .sequence (relocateAll f items) (f p)
  | .stringLiteral text p => .stringLiteral text (f p)
  | .intLiteral text p => .intLiteral text (f p)
  | .floatLiteral text p => .floatLiteral text (f p)

/-- The same trees at other places. -/
def Node.relocateAll (f : Location → Location) : List Node → List Node
  | [] => []
  | node :: rest => node.relocate f :: relocateAll f rest

end

theorem Node.relocateAll_eq_map (f : Location → Location) (nodes : List Node) :
    relocateAll f nodes = nodes.map (relocate f) := by
  induction nodes with
  | nil => rfl
  | cons node rest ih => rw [relocateAll, ih, List.map_cons]

mutual

/-- Moving a tree twice is moving it once, by both moves in turn. -/
theorem Node.relocate_relocate (f g : Location → Location) : (node : Node) →
    (node.relocate g).relocate f = node.relocate (f ∘ g)
  | .declaration _ => rfl
  | .function _ _ _ body _ => by
    simp only [relocate, relocateAll_relocateAll f g body, List.map_map]
    rfl
  | .assignment first second _ | .binary _ first second _ | .index first second _ => by
    simp only [relocate, relocate_relocate f g first, relocate_relocate f g second, Function.comp_apply]
  | .conditional condition body _ | .loop condition body _ => by
    simp only [relocate, relocate_relocate f g condition, relocateAll_relocateAll f g body,
      Function.comp_apply]
  | .declarations items _ | .alternative items _ | .input items _ | .output items _
  | .call _ items _ | .sequence items _ => by
    simp only [relocate, relocateAll_relocateAll f g items, Function.comp_apply]
  | .result inner _ | .negation inner _ | .complement inner _ => by
    simp only [relocate, relocate_relocate f g inner, Function.comp_apply]
  | .comment .. | .var .. | .reference .. | .stringLiteral .. | .intLiteral .. | .floatLiteral .. => rfl

theorem Node.relocateAll_relocateAll (f g : Location → Location) : (nodes : List Node) →
    relocateAll f (relocateAll g nodes) = relocateAll (f ∘ g) nodes
  | [] => rfl
  | node :: rest => by
    simp only [relocateAll, relocate_relocate f g node, relocateAll_relocateAll f g rest]

end

theorem Node.isSelfTerminated_relocate (f : Location → Location) (node : Node) :
    (node.relocate f).isSelfTerminated = node.isSelfTerminated := by
  cases node <;> rfl

/-- The same program at other places. -/
def Program.relocate (f : Location → Location) (program : Program) : Program :=
  ⟨Node.relocateAll f program.statements, f program.finish⟩

namespace Derives

variable (f : Location → Location)

/-- A phrase and its tree at other places. -/
def moved {α : Type} (move : α → α) (x : List Token × α) : List Token × α :=
  (x.1.map (·.relocate f), move x.2)

theorem map_fst_moved {α : Type} (move : α → α) (items : List (List Token × α)) :
    (items.map (moved f move)).map Prod.fst =
      (items.map Prod.fst).map (List.map (·.relocate f)) := by
  simp only [List.map_map]
  rfl

theorem map_snd_moved {α : Type} (move : α → α) (items : List (List Token × α)) :
    (items.map (moved f move)).map Prod.snd = (items.map Prod.snd).map move := by
  simp only [List.map_map]
  rfl

/-- The tokens of moved phrases are the moved tokens of the phrases. -/
theorem concat_moved {α : Type} (move : α → α) (items : List (List Token × α)) :
    concat (items.map (moved f move)) = (concat items).map (·.relocate f) := by
  rw [concat, map_fst_moved, concat, List.map_flatten]

variable {f}

/-- Separators are known by their kind, so moved phrases are separated as before. -/
theorem Separated.relocate {sep : Kind} {vs : List (List Token)} {w : List Token}
    (h : Separated sep vs w) :
    Separated sep (vs.map (List.map (·.relocate f))) (w.map (·.relocate f)) := by
  induction h with
  | single v => exact .single _
  | cons isSep _ ih =>
    rw [List.map_append, List.map_cons]
    exact .cons isSep ih

theorem Listed.relocate {vs : List (List Token)} {w : List Token} (h : Listed vs w) :
    Listed (vs.map (List.map (·.relocate f))) (w.map (·.relocate f)) := by
  induction h with
  | nil => exact .nil
  | last v => exact .last _
  | cons isSep _ ih =>
    rw [List.map_append, List.map_cons]
    exact .cons isSep ih

/-- A literal stays the same literal. -/
theorem literal_relocate {t : Token} {e : Node} (h : Parser.literal? t = some e) :
    Parser.literal? (t.relocate f) = some (e.relocate f) := by
  unfold Parser.literal? at h ⊢
  split at h <;> cases h
  next is => simp only [Token.relocate, is, Node.relocate]
  next is => simp only [Token.relocate, is, Node.relocate]
  next is => simp only [Token.relocate, is, Node.relocate]

/-- **Operations** are derived elsewhere as they are here: every rule looks at kinds and texts alone. -/
theorem Operation.relocate {p : Nat} {w : List Token} {e : Node} (h : Operation p w e) :
    Operation p (w.map (·.relocate f)) (e.relocate f) := by
  induction h with
  | lift _ ih => exact .lift ih
  | binary _ isOp level _ first second =>
    rw [List.map_append, List.map_cons, Node.relocate]
    exact .binary first isOp level second
  | negation isMinus _ ih =>
    rw [List.map_cons, Node.relocate]
    exact .negation isMinus ih
  | complement isNot _ ih =>
    rw [List.map_cons, Node.relocate]
    exact .complement isNot ih
  | literal isLiteral => exact .literal (literal_relocate isLiteral)
  | var isName =>
    rw [Node.relocate]
    exact .var isName
  | call isName opens joined _ closes ih =>
    rw [Node.relocate, Node.relocateAll_eq_map, ← map_snd_moved f]
    simp only [List.map_cons, List.map_append, List.map_nil]
    refine .call isName opens ?_ ?_ closes
    · rw [map_fst_moved]
      exact joined.relocate
    · intro x member
      obtain ⟨y, within, rfl⟩ := List.mem_map.1 member
      exact ih y within
  | index isName opens _ closes ih =>
    rw [Node.relocate, Node.relocate]
    simp only [List.map_cons, List.map_append, List.map_nil]
    exact .index isName opens ih closes
  | group opens _ closes ih =>
    simp only [List.map_cons, List.map_append, List.map_nil]
    exact .group opens ih closes

theorem Expressions.relocate {w : List Token} {es : List Node} (h : Expressions w es) :
    Expressions (w.map (·.relocate f)) (Node.relocateAll f es) := by
  obtain ⟨items, joined, each, rfl⟩ := h
  refine ⟨items.map (moved f (Node.relocate f)), ?_, ?_, ?_⟩
  · rw [map_fst_moved]
    exact joined.relocate
  · intro x member
    obtain ⟨y, within, rfl⟩ := List.mem_map.1 member
    exact (each y within).relocate
  · rw [Node.relocateAll_eq_map, map_snd_moved]

theorem Constness.relocate {k : List Token} {isConst : Bool} (h : Constness k isConst) :
    Constness (k.map (·.relocate f)) isConst := by
  cases h with
  | absent => exact .absent
  | present is => exact .present is

theorem ArrayType.relocate {w : List Token} {type : TypeName} (h : ArrayType w type) :
    ArrayType (w.map (·.relocate f)) (type.relocate f) := by
  obtain ⟨isName, opens, isInt, fits, closes⟩ := h
  exact .mk isName opens isInt fits closes

theorem TypeOf.relocate {w : List Token} {type : TypeName} (h : TypeOf w type) :
    TypeOf (w.map (·.relocate f)) (type.relocate f) := by
  cases h with
  | plain isName => exact .plain isName
  | array suffixed => exact .array suffixed.relocate

theorem Parameter.relocate {w : List Token} {decl : Declaration} (h : Parameter w decl) :
    Parameter (w.map (·.relocate f)) (decl.relocate f) := by
  obtain ⟨typed, isName⟩ := h
  rw [List.map_append]
  exact .mk typed.relocate isName

theorem Parameters.relocate {w : List Token} {params : List Declaration} (h : Parameters w params) :
    Parameters (w.map (·.relocate f)) (params.map (·.relocate f)) := by
  cases h with
  | nil => exact .nil
  | list joined each =>
    rw [← map_snd_moved f]
    refine .list ?_ ?_
    · rw [map_fst_moved]
      exact joined.relocate
    · intro x member
      obtain ⟨y, within, rfl⟩ := List.mem_map.1 member
      exact (each y within).relocate

/-- The location of a declared name is that of its token, and both are moved. -/
theorem Tail.relocate {type : TypeName} {isConst : Bool} {latest : Token} {w : List Token}
    {nodes : List Node} (h : Tail type isConst latest w nodes) :
    Tail (type.relocate f) isConst (latest.relocate f) (w.map (·.relocate f))
      (Node.relocateAll f nodes) := by
  induction h with
  | nil latest => exact .nil _
  | name isComma isName _ ih =>
    rw [Node.relocateAll, Node.relocate]
    exact .name isComma isName ih
  | value isAssign value _ ih =>
    rw [Node.relocateAll, Node.relocate, Node.relocate, List.map_cons, List.map_append]
    exact .value isAssign value.relocate ih

/-- Items in a stream, if each can be moved. -/
theorem Streamed.relocate {sign : Kind} {Item : Token → Node → Prop} {w : List Token}
    {es : List Node} (h : Streamed sign Item w es)
    (each : ∀ t e, Item t e → Item (t.relocate f) (e.relocate f)) :
    Streamed sign Item (w.map (·.relocate f)) (Node.relocateAll f es) := by
  induction h with
  | single isSign item => exact .single isSign (each _ _ item)
  | cons isSign item _ ih => exact .cons isSign (each _ _ item) ih

theorem InputItem.relocate (t : Token) (e : Node) (h : InputItem t e) :
    InputItem (t.relocate f) (e.relocate f) := by
  obtain ⟨isName⟩ := h
  rw [Node.relocate]
  exact .name isName

theorem OutputItem.relocate (t : Token) (e : Node) (h : OutputItem t e) :
    OutputItem (t.relocate f) (e.relocate f) := by
  cases h with
  | name isName =>
    rw [Node.relocate]
    exact .name isName
  | literal isLiteral => exact .literal (literal_relocate isLiteral)

/-- Statements before their semicolons can be moved, rule by rule. -/
theorem Simple.relocate {w : List Token} {node : Node} (h : Simple w node) :
    Simple (w.map (·.relocate f)) (node.relocate f) := by
  cases h with
  | declaration constness isType isName =>
    rw [List.map_append]
    exact .declaration constness.relocate isType isName
  | declarations constness isType isName tail more =>
    rw [List.map_append, Node.relocate, Node.relocateAll, Node.relocate]
    refine .declarations constness.relocate isType isName tail.relocate ?_
    intro none
    exact more (List.map_eq_nil_iff.1 none)
  | array constness suffixed isName =>
    rw [List.map_append, List.map_append]
    exact .array constness.relocate suffixed.relocate isName
  | assignment isName isAssign value =>
    rw [Node.relocate, Node.relocate]
    exact .assignment isName isAssign value.relocate
  | sequence isName isAssign opens items closes =>
    rw [Node.relocate, Node.relocate, Node.relocate]
    simp only [List.map_cons, List.map_append, List.map_nil]
    exact .sequence isName isAssign opens items.relocate closes
  | call isName opens items closes =>
    rw [Node.relocate]
    simp only [List.map_cons, List.map_append, List.map_nil]
    exact .call isName opens items.relocate closes
  | result isReturn value =>
    rw [Node.relocate]
    exact .result isReturn value.relocate
  | input isCin stream =>
    rw [Node.relocate]
    exact .input isCin (stream.relocate InputItem.relocate)
  | output isCout stream =>
    rw [Node.relocate]
    exact .output isCout (stream.relocate OutputItem.relocate)

/-- How a token reads inside a comment does not depend on where it stands. -/
theorem map_commentWord_relocate (inner : List Token) :
    (inner.map (·.relocate f)).map Parser.commentWord = inner.map Parser.commentWord := by
  rw [List.map_map]
  rfl

/-- **A statement** stays one at other places. -/
theorem Statement.relocate {w : List Token} {node : Node} (h : Statement w node) :
    Statement (w.map (·.relocate f)) (node.relocate f) := by
  have inside {body : List (List Token × Node)}
      (ih : ∀ x ∈ body, Statement (x.1.map (·.relocate f)) (x.2.relocate f)) :
      ∀ x ∈ body.map (moved f (Node.relocate f)), Statement x.1 x.2 := by
    intro x member
    obtain ⟨y, within, rfl⟩ := List.mem_map.1 member
    exact ih y within
  induction h with
  | simple bare ends =>
    rw [List.map_append]
    exact .simple bare.relocate ends
  | function constness isType isName opens parameters closes opensBody _ closesBody ih =>
    rw [Node.relocate, Node.relocateAll_eq_map, ← map_snd_moved f]
    simp only [List.map_cons, List.map_append, List.map_nil, ← concat_moved f (Node.relocate f)]
    exact .function constness.relocate isType isName opens parameters.relocate closes opensBody
      (inside ih) closesBody
  | conditional isIf condition opensBody _ closesBody ih =>
    rw [Node.relocate, Node.relocateAll_eq_map, ← map_snd_moved f]
    simp only [List.map_cons, List.map_append, List.map_nil, ← concat_moved f (Node.relocate f)]
    exact .conditional isIf condition.relocate opensBody (inside ih) closesBody
  | loop isWhile condition opensBody _ closesBody ih =>
    rw [Node.relocate, Node.relocateAll_eq_map, ← map_snd_moved f]
    simp only [List.map_cons, List.map_append, List.map_nil, ← concat_moved f (Node.relocate f)]
    exact .loop isWhile condition.relocate opensBody (inside ih) closesBody
  | alternative isElse opensBody _ closesBody ih =>
    rw [Node.relocate, Node.relocateAll_eq_map, ← map_snd_moved f]
    simp only [List.map_cons, List.map_append, List.map_nil, ← concat_moved f (Node.relocate f)]
    exact .alternative isElse opensBody (inside ih) closesBody
  | lineComment isComment =>
    rw [Node.relocate]
    exact .lineComment isComment
  | blockComment opens outside closes =>
    rw [Node.relocate, ← map_commentWord_relocate (f := f)]
    simp only [List.map_cons, List.map_append, List.map_nil]
    refine .blockComment opens ?_ closes
    intro t member
    obtain ⟨s, within, rfl⟩ := List.mem_map.1 member
    exact outside s within

theorem Statements.relocate {w : List Token} {nodes : List Node} (h : Statements w nodes) :
    Statements (w.map (·.relocate f)) (Node.relocateAll f nodes) := by
  obtain ⟨items, rfl, rfl, each⟩ := h
  refine ⟨items.map (moved f (Node.relocate f)), ?_, ?_, ?_⟩
  · rw [concat_moved]
  · rw [Node.relocateAll_eq_map, map_snd_moved]
  · intro x member
    obtain ⟨y, within, rfl⟩ := List.mem_map.1 member
    exact (each y within).relocate

/-- Statements in a row and statements in a row are statements in a row. -/
theorem Statements.append {v w : List Token} {before after : List Node} (h : Statements v before)
    (h' : Statements w after) : Statements (v ++ w) (before ++ after) := by
  obtain ⟨items, rfl, rfl, each⟩ := h
  obtain ⟨items', rfl, rfl, each'⟩ := h'
  refine ⟨items ++ items', by simp [concat], by simp, fun x member => ?_⟩
  obtain member | member := List.mem_append.1 member
  · exact each x member
  · exact each' x member

end Derives

namespace Lexer

/-- A reading at another place. -/
def relocate (f : Location → Location) : Except LexError Token → Except LexError Token
  | .ok t => .ok (t.relocate f)
  | .error e => .error { e with location := f e.location }

/-- The same lexer `n` lines further down. -/
def down (n : Nat) (l : Lexer) : Lexer :=
  { l with location := l.location.down n }

/-- Where reading stops does not depend on locations. -/
theorem isLast_relocate (f : Location → Location) (r : Except LexError Token) :
    isLast (relocate f r) = isLast r := by
  cases r <;> rfl

theorem advance_down (n : Nat) (l : Lexer) (taken rest : List Char) :
    (l.down n).advance taken rest = (l.advance taken rest).down n := by
  simp only [advance, down, Location.after_down]

/-- **One reading** further down is the same reading, further down. -/
theorem next_down (n : Nat) (l : Lexer) :
    (l.down n).next = (relocate (.down n) l.next.1, l.next.2.down n) := by
  have skipped : (l.down n).skipBlanks = l.skipBlanks.down n := advance_down n l _ _
  simp only [next, skipped]
  cases starts : l.skipBlanks.unread with
  | nil => simp only [down, starts, relocate, Token.relocate]
  | cons c cs =>
    have same : (l.skipBlanks.down n).unread = c :: cs := starts
    simp only [same, advance_down]
    cases outcome : (Lexeme.read c cs).outcome <;> rfl

/-- **A stream** further down is the same stream, further down. -/
theorem items_down (n : Nat) (l : Lexer) : (l.down n).items = l.items.map (relocate (.down n)) := by
  have within (k : Nat) (l : Lexer) :
      (l.down n).itemsWithin k = (l.itemsWithin k).map (relocate (.down n)) := by
    induction k generalizing l with
    | zero => rfl
    | succ k ih =>
      simp only [itemsWithin, next_down, isLast_relocate, ih]
      split <;> rfl
  exact within _ l

end Lexer

end Pascalize
