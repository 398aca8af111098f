import Pascalize.Proofs.Phrases
import Pascalize.Proofs.TokenText
import Pascalize.Tree.Operator

/-!
# Reading Pascal expressions

How Pascal reads an expression, said without any writer. `Spells` cuts a text into words, `Reading`
groups words by Pascal's operator table: signs and `not` bind tightest, then `* / mod and`, then
`+ - or`, then the comparisons, and operators of one row group to the left. `and`, `or` and `mod` are
operators only between operands: where an operand stands, every word but `not` is a name.

`Reading.unique` says that no words have two readings.
-/

namespace Pascalize.Pascal

open Lexeme Phrases

/-- A word of a Pascal expression. -/
inductive Word where
  | name (text : String)
  | integer (digits : String)
  | real (digits : String)
  | text (chars : String)
  | symbol (text : String)
deriving DecidableEq, Repr

/-- Blanks stand between words. -/
def isBlank (c : Char) : Bool :=
  c = ' ' || c = '\t' || c = '\n' || c = '\r'

/-- The characters up to the closing quote, where a doubled quote stands for one, and what is left. -/
def scanText : List Char → Option (List Char × List Char)
  | '\x27' :: '\x27' :: rest => (scanText rest).map fun (chars, rest) => ('\x27' :: chars, rest)
  | '\x27' :: rest => some ([], rest)
  | c :: rest => (scanText rest).map fun (chars, rest) => (c :: chars, rest)
  | [] => none

/-- A number. A point belongs to it if a digit follows. -/
def scanNumber (cs : List Char) : Word × List Char :=
  let whole := cs.takeWhile Char.isDigit
  match cs.dropWhile Char.isDigit with
  | '.' :: d :: rest =>
    if d.isDigit then
      (.real (String.ofList (whole ++ '.' :: (d :: rest).takeWhile Char.isDigit)),
        (d :: rest).dropWhile Char.isDigit)
    else (.integer (String.ofList whole), '.' :: d :: rest)
  | rest => (.integer (String.ofList whole), rest)

/-- The symbols of one character. -/
def symbols : List Char :=
  ['+', '-', '*', '/', '=', '<', '>', '(', ')', '[', ']', ',']

/-- A symbol; two characters go before one. -/
def scanSymbol : List Char → Option (Word × List Char)
  | '<' :: '>' :: rest => some (.symbol "<>", rest)
  | '<' :: '=' :: rest => some (.symbol "<=", rest)
  | '>' :: '=' :: rest => some (.symbol ">=", rest)
  | c :: rest => if c ∈ symbols then some (.symbol (String.singleton c), rest) else none
  | [] => none

/-- The longest word at the front of `c :: cs`, where `c` is no blank. -/
def scanWord (c : Char) (cs : List Char) : Option (Word × List Char) :=
  if c = '\x27' then (scanText cs).map fun (chars, rest) => (.text (String.ofList chars), rest)
  else if c.isDigit then some (scanNumber (c :: cs))
  else if isWordStart c then
    some (.name (String.ofList ((c :: cs).takeWhile isWordRest)), (c :: cs).dropWhile isWordRest)
  else scanSymbol (c :: cs)

/-- The words that a text consists of. -/
inductive Spells : List Char → List Word → Prop where
  | nil : Spells [] []
  | blank {c : Char} {cs : List Char} {ws : List Word} (is : isBlank c = true)
      (rest : Spells cs ws) : Spells (c :: cs) ws
  | word {c : Char} {cs left : List Char} {w : Word} {ws : List Word} (no : isBlank c = false)
      (scan : scanWord c cs = some (w, left)) (rest : Spells left ws) : Spells (c :: cs) (w :: ws)

/-- A text is spelled by one list of words, as each word takes what it can. -/
theorem Spells.unique {cs : List Char} {ws ws' : List Word} (h : Spells cs ws)
    (h' : Spells cs ws') : ws = ws' := by
  induction h generalizing ws' with
  | nil =>
    cases h'
    rfl
  | blank is _ ih =>
    cases h' with
    | blank _ rest => exact ih rest
    | word no _ _ => exact absurd is (by simp [no])
  | word no scan _ ih =>
    cases h' with
    | blank is _ => exact absurd is (by simp [no])
    | word _ scan' rest =>
      obtain ⟨rfl, rfl⟩ := Prod.mk.inj (Option.some.inj (scan.symm.trans scan'))
      rw [ih rest]

/-! ## Terms and their readings -/

/-- What a Pascal expression stands for. -/
inductive Term where
  | name (text : String)
  | integer (digits : String)
  | real (digits : String)
  | text (chars : String)
  | call (name : String) (args : List Term)
  | index (target position : Term)
  | sequence (items : List Term)
  | negative (operand : Term)
  | positive (operand : Term)
  | complement (operand : Term)
  | binary (op : Operator) (left right : Term)

/-- How Pascal writes an operator. -/
def operatorWord : Operator → Word
  | .add => .symbol "+"
  | .sub => .symbol "-"
  | .mul => .symbol "*"
  | .div => .symbol "/"
  | .mod => .name "mod"
  | .eq => .symbol "="
  | .ne => .symbol "<>"
  | .lt => .symbol "<"
  | .le => .symbol "<="
  | .gt => .symbol ">"
  | .ge => .symbol ">="
  | .and => .name "and"
  | .or => .name "or"

/-- The row of an operator in Pascal's table, from one for the loosest. -/
def row : Operator → Nat
  | .eq | .ne | .lt | .le | .gt | .ge => 1
  | .add | .sub | .or => 2
  | .mul | .div | .mod | .and => 3

/-- An operator with its right operand. -/
structure Step where
  op : Operator
  words : List Word
  term : Term

/-- The words of steps in a row. -/
def stepWords (steps : List Step) : List Word :=
  steps.flatMap fun s => operatorWord s.op :: s.words

/-- Steps taken one after the other, so that operators group to the left. -/
def grouped (first : Term) (steps : List Step) : Term :=
  steps.foldl (fun left s => .binary s.op left s.term) first

/-- The words stand for a term. Levels 1 to 3 are the rows of the operator table, level 4 are the
operands with their signs. -/
inductive Reading : Nat → List Word → Term → Prop where
  | chain {p : Nat} {w : List Word} {first : Term} {steps : List Step} (low : p < 4)
      (head : Reading (p + 1) w first) (rows : ∀ s ∈ steps, row s.op = p)
      (operands : ∀ s ∈ steps, Reading (p + 1) s.words s.term) :
      Reading p (w ++ stepWords steps) (grouped first steps)
  | negative {w : List Word} {t : Term} (operand : Reading 4 w t) :
      Reading 4 (.symbol "-" :: w) (.negative t)
  | positive {w : List Word} {t : Term} (operand : Reading 4 w t) :
      Reading 4 (.symbol "+" :: w) (.positive t)
  | complement {w : List Word} {t : Term} (operand : Reading 4 w t) :
      Reading 4 (.name "not" :: w) (.complement t)
  | name {s : String} (ordinary : s ≠ "not") : Reading 4 [.name s] (.name s)
  | call {s : String} {items : List (List Word × Term)} (ordinary : s ≠ "not")
      (each : ∀ x ∈ items, Reading 1 x.1 x.2) :
      Reading 4 (.name s :: .symbol "(" :: (joined (.symbol ",") items ++ [.symbol ")"]))
        (.call s (items.map Prod.snd))
  | index {s : String} {w : List Word} {t : Term} (ordinary : s ≠ "not")
      (position : Reading 1 w t) :
      Reading 4 (.name s :: .symbol "[" :: (w ++ [.symbol "]"])) (.index (.name s) t)
  | sequence {items : List (List Word × Term)} (each : ∀ x ∈ items, Reading 1 x.1 x.2) :
      Reading 4 (.symbol "[" :: (joined (.symbol ",") items ++ [.symbol "]"])) (.sequence (items.map Prod.snd))
  | group {w : List Word} {t : Term} (inner : Reading 1 w t) :
      Reading 4 (.symbol "(" :: (w ++ [.symbol ")"])) t
  | integer (digits : String) : Reading 4 [.integer digits] (.integer digits)
  | real (digits : String) : Reading 4 [.real digits] (.real digits)
  | text (chars : String) : Reading 4 [.text chars] (.text chars)

/-- The text, read as Pascal reads expressions, stands for a term. -/
def Reads (text : String) (t : Term) : Prop :=
  ∃ words, Spells text.toList words ∧ Reading 1 words t

/-- Operators are told apart by their words. -/
theorem operatorWord_injective {op op' : Operator} (h : operatorWord op = operatorWord op') :
    op = op' := by
  cases op <;> cases op' <;> first | rfl | simp [operatorWord] at h

theorem row_bounds (op : Operator) : 1 ≤ row op ∧ row op < 4 := by
  cases op <;> decide

@[simp] theorem stepWords_nil : stepWords [] = [] := rfl

namespace Reading

/-- A tighter level is also one of its own. -/
theorem loosen {p q : Nat} {w : List Word} {t : Term} (h : Reading q w t) (le : p ≤ q) :
    q ≤ 4 → Reading p w t := by
  induction le with
  | refl => exact fun _ => h
  | @step q le ih =>
    intro low
    have lifted : Reading q (w ++ stepWords []) (grouped t []) :=
      .chain (by omega) h (by simp) (by simp)
    rw [stepWords_nil, List.append_nil] at lifted
    exact ih lifted (by omega)

/-- A reading below the highest level is a row of operands, grouped to the left. -/
theorem chain_inv {p : Nat} {w : List Word} {t : Term} (h : Reading p w t) (low : p < 4) :
    ∃ v first steps, Reading (p + 1) v first ∧ (∀ s ∈ steps, row s.op = p) ∧
      (∀ s ∈ steps, Reading (p + 1) s.words s.term) ∧ w = v ++ stepWords steps ∧
      t = grouped first steps := by
  cases h with
  | chain _ head rows operands => exact ⟨_, _, _, head, rows, operands, rfl, rfl⟩
  | _ => omega

/-- One more operand groups with all that stands before it. -/
theorem binary {op : Operator} {v w : List Word} {left right : Term}
    (first : Reading (row op) v left) (second : Reading (row op + 1) w right) :
    Reading (row op) (v ++ operatorWord op :: w) (.binary op left right) := by
  have low := (row_bounds op).2
  obtain ⟨u, start, steps, head, rows, operands, rfl, rfl⟩ := first.chain_inv low
  have longer : Reading (row op) (u ++ stepWords (steps ++ [⟨op, w, right⟩]))
      (grouped start (steps ++ [⟨op, w, right⟩])) :=
    .chain low head (by simpa [or_imp, forall_and] using rows)
      (by simpa [or_imp, forall_and] using ⟨operands, second⟩)
  simpa [stepWords, grouped] using longer

/-- Whether an expression can start with a word. -/
def starts : Word → Bool
  | .symbol s => s = "-" || s = "+" || s = "(" || s = "["
  | _ => true

/-- What a reading begins with does not depend on its level. -/
theorem begins {p : Nat} {w : List Word} {t : Term} (h : Reading p w t) :
    ∃ x v, w = x :: v ∧ starts x = true := by
  induction h with
  | chain _ _ _ _ ih =>
    obtain ⟨x, v, rfl, is⟩ := ih
    exact ⟨x, _, rfl, is⟩
  | _ => exact ⟨_, _, rfl, rfl⟩

/-! ## One reading -/

/-- An expression of the level ends before these words: no operator of its rows follows, and
nothing that would make a name a call or an element. -/
def Ends (p : Nat) : List Word → Prop
  | [] => True
  | x :: _ => x ≠ .symbol "(" ∧ x ≠ .symbol "[" ∧ ∀ op, operatorWord op = x → row op < p

/-- What ends a loose expression ends a tight one. -/
theorem Ends.mono {p q : Nat} {r : List Word} (h : Ends p r) (le : p ≤ q) : Ends q r := by
  cases r with
  | nil => trivial
  | cons x r => exact ⟨h.1, h.2.1, fun op is => Nat.lt_of_lt_of_le (h.2.2 op is) le⟩

/-- An operator ends the operands that are tighter than it. -/
theorem ends_operator {op : Operator} {p : Nat} (lt : row op < p) (r : List Word) :
    Ends p (operatorWord op :: r) := by
  refine ⟨?_, ?_, fun op' same => ?_⟩
  · cases op <;> simp [operatorWord]
  · cases op <;> simp [operatorWord]
  · rw [operatorWord_injective same]
    exact lt

/-- A step as a phrase after a separator. -/
def stepPart (s : Step) : Word × List Word × Term :=
  (operatorWord s.op, s.words, s.term)

theorem stepWords_eq (steps : List Step) : stepWords steps = partWords (steps.map stepPart) := by
  simp [stepWords, partWords, List.flatMap_map, stepPart]

theorem eq_of_stepPart_eq {s s' : Step} (h : stepPart s = stepPart s') : s = s' := by
  obtain ⟨op, w, t⟩ := s
  obtain ⟨op', w', t'⟩ := s'
  obtain ⟨sameOp, rfl, rfl⟩ : operatorWord op = operatorWord op' ∧ w = w' ∧ t = t' := by
    simpa [stepPart] using h
  rw [operatorWord_injective sameOp]

/-- An operand of the row ends before the steps of the row. -/
theorem ends_steps {p : Nat} {steps : List Step} {r : List Word} (rows : ∀ s ∈ steps, row s.op = p)
    (ends : Ends p r) : Ends (p + 1) (stepWords steps ++ r) := by
  cases steps with
  | nil => exact ends.mono (Nat.le_succ p)
  | cons s steps =>
    have level := rows s List.mem_cons_self
    exact ends_operator (by omega) _

/-- A row of operands is decided if each operand is. -/
theorem decides_chain {p : Nat} {w : List Word} {first : Term} {steps : List Step} (low : p < 4)
    (head : Decides (Reading (p + 1)) (Ends (p + 1)) w first) (rows : ∀ s ∈ steps, row s.op = p)
    (operands : ∀ s ∈ steps, Decides (Reading (p + 1)) (Ends (p + 1)) s.words s.term) :
    Decides (Reading p) (Ends p) (w ++ stepWords steps) (grouped first steps) := by
  intro w' t' r r' other same ends ends'
  obtain ⟨v', first', steps', head', rows', operands', rfl, rfl⟩ := other.chain_inv low
  rw [List.append_assoc, List.append_assoc] at same
  obtain ⟨rfl, rfl, same⟩ := head _ _ _ _ head' same (ends_steps rows ends) (ends_steps rows' ends')
  -- What separates the operands are the operators of the row; none of them follows the last.
  let Sep (x : Word) : Prop := ∃ op, operatorWord op = x ∧ row op = p
  have sepEnds : ∀ x r, Sep x → Ends (p + 1) (x :: r) := by
    rintro _ r ⟨op, rfl, level⟩
    exact ends_operator (by omega) r
  have stop {r : List Word} (ends : Ends p r) : ∀ x ∈ r.head?, ¬ Sep x := by
    rintro x first ⟨op, is, level⟩
    cases r with
    | nil => nomatch first
    | cons y r =>
      obtain rfl := Option.some.inj first
      exact Nat.lt_irrefl p (level ▸ ends.2.2 op is)
  have seps {steps : List Step} (rows : ∀ s ∈ steps, row s.op = p) :
      ∀ x ∈ steps.map stepPart, Sep x.1 :=
    List.forall_mem_map.2 fun s member => ⟨s.op, rfl, rows s member⟩
  rw [stepWords_eq, stepWords_eq] at same
  obtain ⟨sameParts, rfl⟩ := parts_unique sepEnds (List.forall_mem_map.2 operands) (seps rows)
    (List.forall_mem_map.2 operands') (seps rows') same (ends.mono (Nat.le_succ p))
    (ends'.mono (Nat.le_succ p)) (stop ends) (stop ends')
  obtain rfl : steps = steps' := (List.map_inj_right fun _ _ => eq_of_stepPart_eq).1 sameParts
  exact ⟨rfl, rfl, rfl⟩

/-- Every expression ends before a comma and before what closes a list. -/
theorem ends_mark {x : Word} (is : x = .symbol "," ∨ x = .symbol ")" ∨ x = .symbol "]") (p : Nat)
    (r : List Word) : Ends p (x :: r) := by
  rcases is with rfl | rfl | rfl
  all_goals
    refine ⟨by decide, by decide, fun op => ?_⟩
    cases op <;> simp [operatorWord]

/-- Lists with commas between their items are cut in one way only. -/
theorem listed_unique {items items' : List (List Word × Term)} {close : Word} {r r' : List Word}
    (is : close = .symbol ")" ∨ close = .symbol "]")
    (readings : ∀ x ∈ items, Reading 1 x.1 x.2)
    (decides : ∀ x ∈ items, Decides (Reading 1) (Ends 1) x.1 x.2)
    (readings' : ∀ x ∈ items', Reading 1 x.1 x.2)
    (same : joined (.symbol ",") items ++ close :: r = joined (.symbol ",") items' ++ close :: r') :
    items = items' ∧ r = r' := by
  have notFirst {x : List Word × Term} {items : List (List Word × Term)} {r r' : List Word}
      (reading : Reading 1 x.1 x.2) : close :: r ≠ joined (.symbol ",") (x :: items) ++ r' := by
    obtain ⟨first, rest, starting, starts⟩ := reading.begins
    intro same
    rw [joined_cons, starting] at same
    obtain ⟨rfl, -⟩ := List.cons.inj same
    rcases is with rfl | rfl <;> nomatch starts
  cases items with
  | nil =>
    cases items' with
    | nil => exact ⟨rfl, (List.cons.inj same).2⟩
    | cons x' items' => exact absurd same (notFirst (readings' x' List.mem_cons_self))
  | cons x items =>
    cases items' with
    | nil => exact absurd same.symm (notFirst (readings x List.mem_cons_self))
    | cons x' items' =>
      have stop {r : List Word} : (close :: r).head? ≠ some (.symbol ",") := by
        rcases is with rfl | rfl <;> simp
      obtain ⟨sameItems, sameRest⟩ := joined_unique (ends_mark (.inl rfl) 1) (List.cons_ne_nil x items)
        (List.cons_ne_nil x' items') decides readings' same (ends_mark (.inr is) 1 r)
        (ends_mark (.inr is) 1 r') stop stop
      exact ⟨sameItems, (List.cons.inj sameRest).2⟩

/-- What may follow a name in a factor: nothing, arguments or a position. -/
inductive Suffix (s : String) : List Word → Term → Prop where
  | none : Suffix s [] (.name s)
  | call {items : List (List Word × Term)} (each : ∀ x ∈ items, Reading 1 x.1 x.2) :
      Suffix s (.symbol "(" :: (joined (.symbol ",") items ++ [.symbol ")"]))
        (.call s (items.map Prod.snd))
  | index {w : List Word} {t : Term} (position : Reading 1 w t) :
      Suffix s (.symbol "[" :: (w ++ [.symbol "]"])) (.index (.name s) t)

/-- What a name goes on with is decided by the next word. -/
theorem suffix_of_name {s : String} (ordinary : s ≠ "not") {w u r r' : List Word} {t : Term}
    (h : Reading 4 w t) (same : .name s :: u ++ r = w ++ r') :
    ∃ v, w = .name s :: v ∧ u ++ r = v ++ r' ∧ Suffix s v t := by
  cases h with
  | name =>
    simp only [List.cons_append, List.cons.injEq, Word.name.injEq] at same
    obtain ⟨rfl, rest⟩ := same
    exact ⟨[], rfl, rest, .none⟩
  | call _ each =>
    simp only [List.cons_append, List.cons.injEq, Word.name.injEq] at same
    obtain ⟨rfl, rest⟩ := same
    exact ⟨_, rfl, rest, .call each⟩
  | index _ position =>
    simp only [List.cons_append, List.cons.injEq, Word.name.injEq] at same
    obtain ⟨rfl, rest⟩ := same
    exact ⟨_, rfl, rest, .index position⟩
  | complement =>
    simp only [List.cons_append, List.cons.injEq, Word.name.injEq] at same
    exact absurd same.1 ordinary
  | chain low => omega
  | _ => simp at same

/-- At every level the words that are read, and what they stand for, are determined by the text. -/
theorem decides {p : Nat} {w : List Word} {t : Term} (h : Reading p w t) :
    Decides (Reading p) (Ends p) w t := by
  induction h with
  | chain low _ rows _ ih ihs => exact decides_chain low ih rows ihs
  | negative _ ih =>
    intro w' t' r r' other same ends ends'
    cases other with
    | negative operand =>
      obtain ⟨rfl, rfl, rfl⟩ := ih _ _ _ _ operand (List.cons.inj same).2 ends ends'
      exact ⟨rfl, rfl, rfl⟩
    | chain low => omega
    | _ => simp at same
  | positive _ ih =>
    intro w' t' r r' other same ends ends'
    cases other with
    | positive operand =>
      obtain ⟨rfl, rfl, rfl⟩ := ih _ _ _ _ operand (List.cons.inj same).2 ends ends'
      exact ⟨rfl, rfl, rfl⟩
    | chain low => omega
    | _ => simp at same
  | complement _ ih =>
    intro w' t' r r' other same ends ends'
    cases other with
    | complement operand =>
      obtain ⟨rfl, rfl, rfl⟩ := ih _ _ _ _ operand (List.cons.inj same).2 ends ends'
      exact ⟨rfl, rfl, rfl⟩
    | chain low => omega
    | name ordinary | call ordinary | index ordinary =>
      simp only [List.cons_append, List.cons.injEq, Word.name.injEq] at same
      exact absurd same.1.symm ordinary
    | _ => simp at same
  | name ordinary =>
    intro w' t' r r' other same ends ends'
    obtain ⟨v, rfl, rest, suffix⟩ := suffix_of_name ordinary other same
    cases suffix with
    | none => exact ⟨rfl, rfl, rest⟩
    | call | index =>
      obtain rfl : r = _ := rest
      simp [Ends] at ends
  | call ordinary each ih =>
    intro w' t' r r' other same ends ends'
    obtain ⟨v, rfl, rest, suffix⟩ := suffix_of_name ordinary other same
    cases suffix with
    | none =>
      obtain rfl : _ = r' := rest
      simp [Ends] at ends'
    | call each' =>
      simp only [List.cons_append, List.append_assoc, List.nil_append, List.cons.injEq,
        true_and] at rest
      obtain ⟨rfl, rfl⟩ := listed_unique (.inl rfl) each ih each' rest
      exact ⟨rfl, rfl, rfl⟩
    | index => simp at rest
  | index ordinary _ ih =>
    intro w' t' r r' other same ends ends'
    obtain ⟨v, rfl, rest, suffix⟩ := suffix_of_name ordinary other same
    cases suffix with
    | none =>
      obtain rfl : _ = r' := rest
      simp [Ends] at ends'
    | call => simp at rest
    | index position =>
      simp only [List.cons_append, List.append_assoc, List.nil_append, List.cons.injEq,
        true_and] at rest
      have close := ends_mark (.inr (.inr rfl)) 1
      obtain ⟨rfl, rfl, rest⟩ := ih _ _ _ _ position rest (close r) (close r')
      exact ⟨rfl, rfl, (List.cons.inj rest).2⟩
  | sequence each ih =>
    intro w' t' r r' other same ends ends'
    cases other with
    | sequence each' =>
      simp only [List.cons_append, List.append_assoc, List.nil_append, List.cons.injEq,
        true_and] at same
      obtain ⟨rfl, rfl⟩ := listed_unique (.inr rfl) each ih each' same
      exact ⟨rfl, rfl, rfl⟩
    | chain low => omega
    | _ => simp at same
  | group _ ih =>
    intro w' t' r r' other same ends ends'
    cases other with
    | group inner =>
      simp only [List.cons_append, List.append_assoc, List.nil_append, List.cons.injEq,
        true_and] at same
      have close := ends_mark (.inr (.inl rfl)) 1
      obtain ⟨rfl, rfl, rest⟩ := ih _ _ _ _ inner same (close r) (close r')
      exact ⟨rfl, rfl, (List.cons.inj rest).2⟩
    | chain low => omega
    | _ => simp at same
  | integer =>
    intro w' t' r r' other same ends ends'
    cases other with
    | integer => simpa using same
    | chain low => omega
    | _ => simp at same
  | real =>
    intro w' t' r r' other same ends ends'
    cases other with
    | real => simpa using same
    | chain low => omega
    | _ => simp at same
  | text =>
    intro w' t' r r' other same ends ends'
    cases other with
    | text => simpa using same
    | chain low => omega
    | _ => simp at same

/-- Words have one reading. -/
theorem unique {w : List Word} {t t' : Term} (h : Reading 1 w t) (h' : Reading 1 w t') : t = t' :=
  (h.decides w t' [] [] h' rfl trivial trivial).2.1

end Reading

/-- A text has one reading. -/
theorem Reads.unique {text : String} {t t' : Term} (h : Reads text t) (h' : Reads text t') :
    t = t' := by
  obtain ⟨words, spelled, reading⟩ := h
  obtain ⟨words', spelled', reading'⟩ := h'
  obtain rfl := spelled.unique spelled'
  exact reading.unique reading'

end Pascalize.Pascal
