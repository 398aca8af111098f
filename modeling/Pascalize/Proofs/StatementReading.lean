import Pascalize.Pascal.Line
import Pascalize.Proofs.Phrases

/-!
# Reading Pascal statements

How lines of Pascal are read as statements, said without any writer. A line opens or closes a block,
heads a conditional or a loop, holds a comment, or is a statement of its own whose text is left as it
is; a semicolon may end it. `Mark`s are what is left of the lines. Semicolons stand between
statements, and a statement may be empty.

`ReadsAs.unique` says that no lines have two readings.
-/

namespace Pascalize.Pascal

open Phrases

/-- What a line says about statements. -/
inductive Mark where
  | begin
  | finish
  | ifThen (condition : String)
  | whileDo (condition : String)
  | otherwise
  | simple (text : String)
  | semicolon
deriving DecidableEq, Repr

/-- What is left after a comment in braces, from inside it. -/
def afterBrace : List Char → Option (List Char)
  | [] => none
  | c :: rest => if c = '\x7d' then some rest else afterBrace rest

/-- What is left after a comment in starred parentheses, from inside it. -/
def afterStar : List Char → Option (List Char)
  | '*' :: ')' :: rest => some rest
  | _ :: rest => afterStar rest
  | [] => none

/-- What stands between a front and a back. -/
def between? (front back cs : List Char) : Option (List Char) :=
  if front.isPrefixOf cs then
    let rest := cs.drop front.length
    if back.isSuffixOf rest then some (rest.take (rest.length - back.length)) else none
  else none

/-- A line that starts with no comment. -/
def readPlain (cs : List Char) : List Mark :=
  if cs = [] then []
  else if cs = "begin".toList then [.begin]
  else if cs = "end".toList then [.finish]
  else if cs = "end;".toList then [.finish, .semicolon]
  else if cs = "else".toList then [.otherwise]
  else match between? "if ".toList " then".toList cs with
    | some condition => [.ifThen (String.ofList condition)]
    | none =>
      match between? "while ".toList " do".toList cs with
      | some condition => [.whileDo (String.ofList condition)]
      | none =>
        match between? [] ";".toList cs with
        | some text => [.simple (String.ofList text), .semicolon]
        | none => [.simple (String.ofList cs)]

/-- A line without its indentation. A comment takes the whole line, or the line makes no sense. -/
def readContent : List Char → Option (List Mark)
  | '\x7b' :: rest => if afterBrace rest = some [] then some [] else none
  | '(' :: '*' :: rest => if afterStar rest = some [] then some [] else none
  | cs => some (readPlain cs)

/-- The marks of a line. -/
def readLine (text : String) : Option (List Mark) :=
  readContent (text.toList.dropWhile (· = ' '))

/-- The marks of lines in turn. -/
def readLines : List String → Option (List Mark)
  | [] => some []
  | text :: rest => do
    let first ← readLine text
    let others ← readLines rest
    return first ++ others

/-- What Pascal executes. -/
inductive Tree where
  | simple (text : String)
  | compound (body : List Tree)
  | conditional (condition : String) (yes : List Tree) (no : Option (List Tree))
  | loop (condition : String) (body : List Tree)

/-- The trees of statements in turn. -/
def treesOf (items : List (List Mark × List Tree)) : List Tree :=
  items.flatMap Prod.snd

/-- Statements between `begin` and `end`. -/
def blockMarks (items : List (List Mark × List Tree)) : List Mark :=
  .begin :: (joined .semicolon items ++ [.finish])

/-- The marks stand for a statement, which is one tree or, if it is empty, none. -/
inductive Command : List Mark → List Tree → Prop where
  | empty : Command [] []
  | simple (text : String) : Command [.simple text] [.simple text]
  | compound {items : List (List Mark × List Tree)} (any : items ≠ [])
      (each : ∀ x ∈ items, Command x.1 x.2) :
      Command (blockMarks items) [.compound (treesOf items)]
  | ifThen {items : List (List Mark × List Tree)} (condition : String) (any : items ≠ [])
      (each : ∀ x ∈ items, Command x.1 x.2) :
      Command (.ifThen condition :: blockMarks items) [.conditional condition (treesOf items) none]
  | ifElse {items others : List (List Mark × List Tree)} (condition : String) (any : items ≠ [])
      (each : ∀ x ∈ items, Command x.1 x.2) (anyOther : others ≠ [])
      (eachOther : ∀ x ∈ others, Command x.1 x.2) :
      Command (.ifThen condition :: (blockMarks items ++ .otherwise :: blockMarks others))
        [.conditional condition (treesOf items) (some (treesOf others))]
  | whileDo {items : List (List Mark × List Tree)} (condition : String) (any : items ≠ [])
      (each : ∀ x ∈ items, Command x.1 x.2) :
      Command (.whileDo condition :: blockMarks items) [.loop condition (treesOf items)]

/-- The marks stand for statements with semicolons between them. -/
def Commands (marks : List Mark) (trees : List Tree) : Prop :=
  ∃ items : List (List Mark × List Tree), items ≠ [] ∧ marks = joined .semicolon items ∧
    trees = treesOf items ∧ ∀ x ∈ items, Command x.1 x.2

/-- The lines, read as Pascal reads statements, stand for trees. -/
def ReadsAs (texts : List String) (trees : List Tree) : Prop :=
  ∃ marks, readLines texts = some marks ∧ Commands marks trees

/-! ## One reading -/

namespace Command

/-- A statement ends before a semicolon and before the end of its block. -/
def Ends : List Mark → Prop
  | [] => True
  | x :: _ => x = .semicolon ∨ x = .finish

/-- Blocks are cut in one way only. -/
theorem block_unique {items items' : List (List Mark × List Tree)} {r r' : List Mark}
    (any : items ≠ []) (decides : ∀ x ∈ items, Decides Command Ends x.1 x.2) (any' : items' ≠ [])
    (each' : ∀ x ∈ items', Command x.1 x.2) (same : blockMarks items ++ r = blockMarks items' ++ r') :
    items = items' ∧ r = r' := by
  simp only [blockMarks, List.cons_append, List.append_assoc, List.nil_append, List.cons.injEq,
    true_and] at same
  obtain ⟨sameItems, sameRest⟩ := joined_unique (fun _ => .inl rfl) any any' decides each'
    same (.inr rfl) (.inr rfl) (by simp) (by simp)
  exact ⟨sameItems, (List.cons.inj sameRest).2⟩

/-- A statement is determined by what it starts. -/
theorem decides {w : List Mark} {t : List Tree} (h : Command w t) : Decides Command Ends w t := by
  induction h with
  | empty =>
    intro w' t' r r' other same ends ends'
    cases other with
    | empty => exact ⟨rfl, rfl, same⟩
    | _ =>
      obtain rfl : r = _ := same
      obtain no | no := ends <;> nomatch no
  | simple text =>
    intro w' t' r r' other same ends ends'
    cases other with
    | simple => simpa using same
    | empty =>
      obtain rfl : _ = r' := same
      obtain no | no := ends' <;> nomatch no
    | _ => simp [blockMarks] at same
  | compound any _ ih =>
    intro w' t' r r' other same ends ends'
    cases other with
    | compound any' each' =>
      obtain ⟨rfl, rfl⟩ := block_unique any ih any' each' same
      exact ⟨rfl, rfl, rfl⟩
    | empty =>
      obtain rfl : _ = r' := same
      obtain no | no := ends' <;> nomatch no
    | _ => simp [blockMarks] at same
  | ifThen condition any _ ih =>
    intro w' t' r r' other same ends ends'
    cases other with
    | ifThen condition' any' each' =>
      simp only [List.cons_append, List.cons.injEq, Mark.ifThen.injEq] at same
      obtain ⟨rfl, same⟩ := same
      obtain ⟨rfl, rfl⟩ := block_unique any ih any' each' same
      exact ⟨rfl, rfl, rfl⟩
    | ifElse condition' any' each' =>
      simp only [List.cons_append, List.append_assoc, List.cons.injEq] at same
      obtain ⟨-, same⟩ := same
      obtain ⟨-, rfl⟩ := block_unique any ih any' each' same
      obtain no | no := ends <;> nomatch no
    | empty =>
      obtain rfl : _ = r' := same
      obtain no | no := ends' <;> nomatch no
    | _ => simp [blockMarks] at same
  | ifElse condition any _ anyOther _ ih ihOther =>
    intro w' t' r r' other same ends ends'
    cases other with
    | ifElse condition' any' each' anyOther' eachOther' =>
      simp only [List.cons_append, List.append_assoc, List.cons.injEq, Mark.ifThen.injEq] at same
      obtain ⟨rfl, same⟩ := same
      obtain ⟨rfl, rest⟩ := block_unique any ih any' each' same
      obtain ⟨rfl, rfl⟩ := block_unique anyOther ihOther anyOther' eachOther'
        (List.cons.inj rest).2
      exact ⟨rfl, rfl, rfl⟩
    | ifThen condition' any' each' =>
      simp only [List.cons_append, List.append_assoc, List.cons.injEq] at same
      obtain ⟨-, same⟩ := same
      obtain ⟨-, rfl⟩ := block_unique any ih any' each' same
      obtain no | no := ends' <;> nomatch no
    | empty =>
      obtain rfl : _ = r' := same
      obtain no | no := ends' <;> nomatch no
    | _ => simp [blockMarks] at same
  | whileDo condition any _ ih =>
    intro w' t' r r' other same ends ends'
    cases other with
    | whileDo condition' any' each' =>
      simp only [List.cons_append, List.cons.injEq, Mark.whileDo.injEq] at same
      obtain ⟨rfl, same⟩ := same
      obtain ⟨rfl, rfl⟩ := block_unique any ih any' each' same
      exact ⟨rfl, rfl, rfl⟩
    | empty =>
      obtain rfl : _ = r' := same
      obtain no | no := ends' <;> nomatch no
    | _ => simp [blockMarks] at same

end Command

theorem Commands.unique {marks : List Mark} {trees trees' : List Tree} (h : Commands marks trees)
    (h' : Commands marks trees') : trees = trees' := by
  obtain ⟨items, any, rfl, rfl, each⟩ := h
  obtain ⟨items', any', same, rfl, each'⟩ := h'
  have cut : joined .semicolon items ++ [] = joined .semicolon items' ++ [] := by rw [same]
  obtain ⟨rfl, -⟩ := joined_unique (fun _ => .inl rfl) any any'
    (fun x member => (each x member).decides) each' cut trivial trivial (by simp) (by simp)
  rfl

/-- Lines have one reading. -/
theorem ReadsAs.unique {texts : List String} {trees trees' : List Tree} (h : ReadsAs texts trees)
    (h' : ReadsAs texts trees') : trees = trees' := by
  obtain ⟨marks, read, commands⟩ := h
  obtain ⟨marks', read', commands'⟩ := h'
  obtain rfl := Option.some.inj (read.symm.trans read')
  exact commands.unique commands'

end Pascalize.Pascal
