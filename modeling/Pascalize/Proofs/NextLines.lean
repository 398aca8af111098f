import Pascalize.Pascal.Listing

/-!
# Lines and what comes next

Pascal puts a semicolon after a statement, and none before `else`. What comes next to a line is the next
line of its block: those that stand deeper belong to other blocks, and comments are passed over
(`elseNext`). `StatementsClosed` and `ElsesOpen` ask of every line that it ends as what comes next wants it
to. Both are instances of `Each`, which needs to be shown only of the lines that statements are written as:
all other lines of a listing ask for nothing (`Lenient.each_listing`).
-/

namespace Pascalize

open Pascal

namespace Pascal

def Content.isComment : Content → Bool
  | .comment _ => true
  | _ => false

/-- Whether a statement ends with the line. -/
def Content.isClose : Content → Bool
  | .blockEnd _ | .statement .. => true
  | _ => false

/-- The text ends with no semicolon. -/
def Unclosed (text : String) : Prop :=
  text.toList.getLast? ≠ some ';'

instance (text : String) : Decidable (Unclosed text) :=
  inferInstanceAs (Decidable (_ ≠ _))

/-- Whether `else` is the next line of a block at a depth: all before it are comments or stand deeper. -/
def elseNext (depth : Nat) (after : List Line) : Bool :=
  (after.find? fun l => l.depth ≤ depth && !l.content.isComment) = some ⟨depth, .otherwise⟩

/-- The line before an `else` in its block, comments aside, ends with no semicolon. -/
def ElsesOpen (lines : List Line) : Prop :=
  ∀ l after, l :: after <:+ lines → l.content.isComment = false → elseNext l.depth after = true →
    Unclosed l.text

/-- A statement ends with a semicolon, unless the next line of its block, comments aside, is `else`. -/
def StatementsClosed (lines : List Line) : Prop :=
  ∀ l after, l :: after <:+ lines → l.content.isClose = true → elseNext l.depth after = false →
    ¬ Unclosed l.text

/-! ## One line after the other -/

/-- Every line is as `Q` asks, which is told whether an `else` of its block comes next. -/
def Each (Q : Content → Bool → Prop) (lines : List Line) : Prop :=
  ∀ l after, l :: after <:+ lines → Q l.content (elseNext l.depth after)

/-- The depth of a line adds spaces at its start, which are not how it ends. -/
theorem unclosed_text (l : Line) : Unclosed l.text ↔ Unclosed l.content.text := by
  unfold Unclosed
  by_cases empty : l.content.text.isEmpty
  · simp only [Line.text, if_pos empty]
    rw [String.isEmpty_iff.1 empty]
  · have some : l.content.text.toList ≠ [] := by
      intro none
      rw [String.toList_eq_nil_iff] at none
      exact empty (String.isEmpty_iff.2 none)
    simp only [Line.text, if_neg empty]
    rw [String.toList_append, List.getLast?_append, Option.or_of_isSome]
    exact List.getLast?_isSome.2 some

/-- What `ElsesOpen` asks of a line. -/
def OpenBeforeElse (c : Content) (next : Bool) : Prop :=
  c.isComment = false → next = true → Unclosed c.text

/-- What `StatementsClosed` asks of a line. -/
def ClosedElsewhere (c : Content) (next : Bool) : Prop :=
  c.isClose = true → next = false → ¬ Unclosed c.text

/-- To ask it of all lines is to ask it of each with what comes next. -/
theorem elsesOpen_iff {lines : List Line} : ElsesOpen lines ↔ Each OpenBeforeElse lines := by
  unfold ElsesOpen
  simp only [unclosed_text]
  rfl

theorem statementsClosed_iff {lines : List Line} : StatementsClosed lines ↔ Each ClosedElsewhere lines := by
  unfold StatementsClosed
  simp only [unclosed_text]
  rfl

variable {Q : Content → Bool → Prop} {xs ys : List Line}

theorem each_nil : Each Q [] := by
  intro l after suffix
  nomatch List.suffix_nil.1 suffix

/-- What comes next to a line is found in the lines after it. -/
theorem each_cons {l : Line} : Each Q (l :: xs) ↔ Q l.content (elseNext l.depth xs) ∧ Each Q xs := by
  constructor
  · intro h
    exact ⟨h l xs List.suffix_rfl, fun l' after suffix => h l' after (suffix.trans (List.suffix_cons l xs))⟩
  · rintro ⟨first, others⟩ l' after suffix
    rcases List.suffix_cons_iff.1 suffix with same | later
    · obtain ⟨rfl, rfl⟩ := List.cons.inj same
      exact first
    · exact others l' after later

/-- The first line ends the search for an `else` that belongs to lines before. -/
def Solid (lines : List Line) : Prop :=
  ∀ l ∈ lines.head?, l.depth = 0 ∧ l.content.isComment = false ∧ l.content ≠ .otherwise

theorem Solid.nil : Solid [] := by
  intro l first
  nomatch first

/-- Lines that start with a line of the outermost block are solid if that one can be seen and is no
`else`. -/
theorem solid_cons {c : Content} : Solid (⟨0, c⟩ :: xs) ↔ c.isComment = false ∧ c ≠ .otherwise := by
  simp [Solid]

theorem Solid.append (first : Solid xs) (then' : Solid ys) : Solid (xs ++ ys) := by
  cases xs with
  | nil => exact then'
  | cons l xs => exact first

/-- Solid lines at the end do not change what comes next, as no `else` leads them. -/
theorem elseNext_append (solid : Solid ys) (depth : Nat) (after : List Line) :
    elseNext depth (after ++ ys) = elseNext depth after := by
  unfold elseNext
  rw [List.find?_append]
  cases after.find? fun l => l.depth ≤ depth && !l.content.isComment with
  | some l => rfl
  | none =>
    cases ys with
    | nil => rfl
    | cons l ys =>
      obtain ⟨top, visible, other⟩ := solid l rfl
      have found : (l :: ys).find? (fun l => l.depth ≤ depth && !l.content.isComment) = some l :=
        List.find?_cons_of_pos (by simp [top, visible])
      rw [found]
      have differs : l ≠ ⟨depth, .otherwise⟩ := fun same => other (congrArg Line.content same)
      simp [differs]

theorem Solid.elseNext (solid : Solid ys) (depth : Nat) : elseNext depth ys = false :=
  elseNext_append solid depth []

/-- Before solid lines, every line is asked what it would be asked without them. -/
theorem each_append (solid : Solid ys) : Each Q (xs ++ ys) ↔ Each Q xs ∧ Each Q ys := by
  induction xs with
  | nil => exact (and_iff_right each_nil).symm
  | cons l xs ih => rw [List.cons_append, each_cons, each_cons, ih, elseNext_append solid, and_assoc]

/-- Indenting a block moves its lines and the depth they are looked for at together. -/
theorem elseNext_indent (depth : Nat) (xs : List Line) :
    elseNext (depth + 1) (Line.indent xs) = elseNext depth xs := by
  unfold elseNext Line.indent
  rw [List.find?_map]
  simp only [Function.comp_def, Nat.add_le_add_iff_right]
  cases xs.find? fun l => l.depth ≤ depth && !l.content.isComment with
  | none => rfl
  | some l =>
    obtain ⟨d, c⟩ := l
    simp

/-- Indented lines belong to another block. -/
theorem elseNext_zero_indent (xs : List Line) : elseNext 0 (Line.indent xs) = false := by
  have none : (Line.indent xs).find? (fun l => l.depth ≤ 0 && !l.content.isComment) = none := by
    rw [List.find?_eq_none]
    intro l member
    obtain ⟨k, -, rfl⟩ := List.mem_map.1 member
    simp
  unfold elseNext
  rw [none]
  decide

/-- A block may stand at any depth. -/
theorem each_indent : Each Q (Line.indent xs) ↔ Each Q xs := by
  induction xs with
  | nil => exact Iff.rfl
  | cons l xs ih =>
    show Each Q (⟨l.depth + 1, l.content⟩ :: Line.indent xs) ↔ _
    rw [each_cons, each_cons, ih, elseNext_indent]

/-- What is asked of lines that end no statement is no matter, nor what is asked of a statement with a
semicolon that no `else` follows. -/
structure Lenient (Q : Content → Bool → Prop) : Prop where
  comment : ∀ text next, Q (.comment text) next
  blank : ∀ next, Q .blank next
  plain : ∀ c, c.isClose = false → Q c false
  statement : ∀ text, Q (.statement text true) false

/-- Nothing is asked of a line that no `else` follows, nor of a comment. -/
theorem lenient_openBeforeElse : Lenient OpenBeforeElse := by
  refine ⟨fun _ _ visible => ?_, fun _ _ _ => by decide, fun _ _ _ next => ?_, fun _ _ next => ?_⟩
  · nomatch visible
  · nomatch next
  · nomatch next

/-- Nothing is asked of a line that ends no statement. -/
theorem lenient_closedElsewhere : Lenient ClosedElsewhere := by
  refine ⟨fun _ _ close => ?_, fun _ close => ?_, fun _ plain close => ?_, fun text _ _ unclosed => ?_⟩
  · nomatch close
  · nomatch close
  · rw [plain] at close
    nomatch close
  · apply unclosed
    simp [Content.text, terminator]

/-- A block: what is inside, and its last line with what comes after the block. -/
theorem Lenient.each_block (h : Lenient Q) {inside more : List Line} {close : Content}
    (visible : close.isComment = false) (other : close ≠ .otherwise) :
    Each Q (Line.block inside close ++ more) ↔
      Each Q inside ∧ Q close (elseNext 0 more) ∧ Each Q more := by
  have solid : Solid (⟨0, close⟩ :: more) := solid_cons.2 ⟨visible, other⟩
  have cut : Line.block inside close ++ more =
      ⟨0, .begin⟩ :: (Line.indent inside ++ ⟨0, close⟩ :: more) := by
    simp [Line.block]
  rw [cut, each_cons, each_append solid, each_indent, each_cons, elseNext_append solid,
    elseNext_zero_indent]
  exact and_iff_right (h.plain .begin rfl)

/-- A block that ends no statement. -/
theorem Lenient.each_lastBlock (h : Lenient Q) {inside : List Line} {close : Content}
    (visible : close.isComment = false) (plain : close.isClose = false) (other : close ≠ .otherwise) :
    Each Q (Line.block inside close) ↔ Each Q inside := by
  rw [← List.append_nil (Line.block inside close), h.each_block visible other]
  exact and_iff_left ⟨h.plain close plain, each_nil⟩

/-- Comments ask for nothing, and what comes next is looked for behind them. -/
theorem Lenient.each_comments (h : Lenient Q) (comments : List String) (more : List Line) :
    Each Q (comments.map (fun text => ⟨0, .comment text⟩) ++ more) ↔ Each Q more := by
  induction comments with
  | nil => rfl
  | cons text comments ih =>
    rw [List.map_cons, List.cons_append, each_cons, ih, and_iff_right (h.comment text _)]

theorem elseNext_comments (comments : List String) (more : List Line) :
    elseNext 0 (comments.map (fun text => ⟨0, .comment text⟩) ++ more) = elseNext 0 more := by
  induction comments with
  | nil => rfl
  | cons text comments ih => exact ih

/-- Of statements in a row only the last is before something else, as none of the others is before an
`else`. -/
theorem Lenient.each_statementLines (h : Lenient Q) (semicolon : Bool) (texts : List String)
    (more : List Line) : Each Q (statementLines semicolon texts ++ more) ↔
      (∀ text ∈ texts.getLast?, Q (.statement text semicolon) (elseNext 0 more)) ∧ Each Q more := by
  induction texts with
  | nil => simp [statementLines]
  | cons text texts ih =>
    cases texts with
    | nil =>
      rw [statementLines, List.singleton_append, each_cons]
      simp
    | cons text' texts =>
      have next : elseNext 0 (statementLines semicolon (text' :: texts) ++ more) = false := by
        cases texts <;> rfl
      rw [statementLines, List.cons_append, each_cons, ih, next, List.getLast?_cons_cons]
      · exact and_iff_right (h.statement text)
      · simp

/-! ## Routines and listings -/

/-- Declared variables ask for nothing. -/
theorem Lenient.each_vars (h : Lenient Q) (vars : List Variable) :
    Each Q (vars.map fun v => ⟨0, .var v⟩) ∧ Solid (vars.map fun v => ⟨0, .var v⟩) := by
  induction vars with
  | nil => exact ⟨each_nil, .nil⟩
  | cons v vars ih =>
    rw [List.map_cons]
    refine ⟨?_, solid_cons.2 ⟨rfl, nofun⟩⟩
    rw [each_cons, ih.2.elseNext]
    exact ⟨h.plain _ rfl, ih.1⟩

theorem Routine.solid_innerLines (inner : List Routine) : Solid (innerLines inner) := by
  cases inner with
  | nil => exact .nil
  | cons r rest => exact solid_cons.2 ⟨rfl, nofun⟩

/-- Routines inside a routine are parted by blank lines, so each can be looked at alone. -/
theorem Lenient.each_innerLines (h : Lenient Q) (inner : List Routine) :
    Each Q (Routine.innerLines inner) ↔ ∀ r ∈ inner, Each Q r.lines := by
  induction inner with
  | nil => exact iff_of_true each_nil (fun _ no => nomatch no)
  | cons r rest ih =>
    rw [Routine.innerLines, each_cons, each_append (Routine.solid_innerLines rest), each_indent, ih,
      List.forall_mem_cons]
    exact and_iff_right (h.blank _)

/-- In a routine only the routines inside and the body are asked for anything. -/
theorem Lenient.each_routine (h : Lenient Q) (heading : Heading) (vars : VarSection)
    (inner : List Routine) (spaced : Bool) (body : List Line) :
    Each Q (Routine.mk heading vars inner spaced body).lines ↔
      (∀ r ∈ inner, Each Q r.lines) ∧ Each Q body := by
  have begins : Solid (Line.block body (.routineEnd heading.name)) := solid_cons.2 ⟨rfl, nofun⟩
  have gap : Each Q (if spaced then [⟨0, .blank⟩] else []) ∧ Solid (if spaced then [⟨0, .blank⟩] else []) := by
    cases spaced with
    | false => exact ⟨each_nil, .nil⟩
    | true => exact ⟨each_cons.2 ⟨h.blank _, each_nil⟩, solid_cons.2 ⟨rfl, nofun⟩⟩
  obtain ⟨declared, solid⟩ := h.each_vars vars.kept
  have rest := ((solid.append (Routine.solid_innerLines inner)).append gap.2).append begins
  rw [Routine.lines, each_cons]
  unfold VarSection.lines
  rw [rest.elseNext, each_append begins, each_append gap.2, each_append (Routine.solid_innerLines inner),
    h.each_lastBlock rfl rfl (by simp), h.each_innerLines]
  constructor
  · rintro ⟨-, ⟨⟨-, within⟩, -⟩, inside⟩
    exact ⟨within, inside⟩
  · rintro ⟨within, inside⟩
    exact ⟨h.plain _ rfl, ⟨⟨declared, within⟩, gap.1⟩, inside⟩

theorem Lenient.each_routines (h : Lenient Q) (routines : List Routine) :
    (Each Q (routines.flatMap fun r => ⟨0, .blank⟩ :: r.lines) ↔ ∀ r ∈ routines, Each Q r.lines) ∧
      Solid (routines.flatMap fun r => ⟨0, .blank⟩ :: r.lines) := by
  induction routines with
  | nil => exact ⟨iff_of_true each_nil (fun _ no => nomatch no), .nil⟩
  | cons r rest ih =>
    rw [List.flatMap_cons]
    refine ⟨?_, solid_cons.2 ⟨rfl, nofun⟩⟩
    rw [each_append ih.2, each_cons, ih.1, List.forall_mem_cons, and_iff_right (h.blank _)]

/-- **A listing** asks for what its routines and its body ask for. -/
theorem Lenient.each_listing (h : Lenient Q) (p : Listing) :
    Each Q p.lines ↔ (∀ r ∈ p.routines, Each Q r.lines) ∧ Each Q p.body := by
  obtain ⟨declared, varsSolid⟩ := h.each_vars p.vars
  obtain ⟨routines, routinesSolid⟩ := h.each_routines p.routines
  have bodySolid : Solid (⟨0, .blank⟩ :: Line.block p.body (.programEnd p.name)) :=
    solid_cons.2 ⟨rfl, nofun⟩
  rw [Listing.lines, each_cons, ((varsSolid.append routinesSolid).append bodySolid).elseNext,
    each_append bodySolid, each_append routinesSolid, each_cons, routines, h.each_lastBlock rfl rfl (by simp)]
  constructor
  · rintro ⟨-, ⟨-, within⟩, -, inside⟩
    exact ⟨within, inside⟩
  · rintro ⟨within, inside⟩
    exact ⟨h.plain _ rfl, ⟨declared, within⟩, h.blank _, inside⟩

end Pascal

end Pascalize
