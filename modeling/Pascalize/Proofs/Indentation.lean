import Pascalize.Proofs.DeclarationReading

/-!
# Indentation of lines

What the indentation of texts says about their nesting. `Spans texts k m` is read from the texts
alone: line `k` is a `begin`, line `m` an end at the same indentation, and what stands between them is
deeper. `FunctionText` is the shape of a function at an indentation, with the functions inside it.
Lines that are `Tidy` stay so in a row (`Tidy.append`), one level deeper (`Tidy.deeper`) and between
`begin` and an end (`Tidy.block`).
-/

namespace Pascalize.Pascal

open Lexeme

/-- The number of blanks that a text starts with. -/
def indentation (text : String) : Nat :=
  (text.toList.takeWhile (· = ' ')).length

/-- A text without the blanks that it starts with. -/
def unindented (text : String) : String :=
  String.ofList (text.toList.dropWhile (· = ' '))

/-- A text behind `n` blanks. -/
def indented (n : Nat) (text : String) : String :=
  String.ofList (List.replicate n ' ') ++ text

@[simp] theorem indented_zero (text : String) : indented 0 text = text := by
  simp [indented]

/-- The text of a line one level deeper. -/
def deeper (text : String) : String :=
  if text = "" then "" else "   " ++ text

@[simp] theorem deeper_empty : deeper "" = "" := rfl

/-- Lines without text stay as they are, as nothing is written before a line end. -/
theorem deeper_of_ne {text : String} (h : text ≠ "") : deeper text = "   " ++ text :=
  if_neg h

@[simp] theorem deeper_eq_empty {text : String} : deeper text = "" ↔ text = "" := by
  by_cases h : text = ""
  · simp [h]
  · simp [deeper_of_ne h, h]

/-- One level is three spaces. -/
theorem indentation_deeper {text : String} (h : text ≠ "") :
    indentation (deeper text) = indentation text + 3 := by
  simp [deeper_of_ne h, indentation]

/-- Behind its indentation a line has the same text at every level. -/
@[simp] theorem dropWhile_deeper (text : String) :
    (deeper text).toList.dropWhile (· = ' ') = text.toList.dropWhile (· = ' ') := by
  by_cases h : text = ""
  · simp [h]
  · simp [deeper_of_ne h]

@[simp] theorem unindented_deeper (text : String) : unindented (deeper text) = unindented text := by
  rw [unindented, dropWhile_deeper, unindented]

/-- What a line says does not depend on its level. -/
@[simp] theorem readNotice_deeper (text : String) : readNotice (deeper text) = readNotice text := by
  simp only [readNotice, dropWhile_deeper]

theorem deeper_indented {n : Nat} {text : String} (h : text ≠ "") :
    deeper (indented n text) = indented (n + 3) text := by
  have visible : indented n text ≠ "" := by simp [indented, h]
  rw [deeper_of_ne visible, indented, indented, ← String.append_assoc, Nat.add_comm n 3,
    ← List.replicate_append_replicate]
  simp
  rfl

/-- Texts at some depth are one level deeper than that. -/
theorem deep_deeper {texts : List String} {n : Nat}
    (h : ∀ text ∈ texts, text ≠ "" ∧ n ≤ indentation text) :
    ∀ text ∈ texts.map deeper, text ≠ "" ∧ n + 3 ≤ indentation text := by
  intro text member
  obtain ⟨text, inside, rfl⟩ := List.mem_map.1 member
  obtain ⟨visible, deep⟩ := h text inside
  rw [indentation_deeper visible]
  exact ⟨by simpa using visible, by omega⟩

/-- Lines with text stand at least one level in once they are moved. -/
theorem deep_of_filled {texts : List String} (filled : "" ∉ texts) :
    ∀ text ∈ texts.map deeper, text ≠ "" ∧ 3 ≤ indentation text := by
  have visible : ∀ text ∈ texts, text ≠ "" ∧ 0 ≤ indentation text := fun text member =>
    ⟨fun same => filled (same ▸ member), Nat.zero_le _⟩
  simpa using deep_deeper visible

/-- Where a text starts with no blank, nothing is cut off. -/
theorem unindented_of_head {text : String} (h : ∀ c ∈ text.toList.head?, c ≠ ' ') :
    unindented text = text ∧ indentation text = 0 := by
  rw [unindented, indentation]
  cases same : text.toList with
  | nil => simpa using (String.toList_eq_nil_iff.1 same).symm
  | cons c cs =>
    have plain : c ≠ ' ' := h c (by rw [same]; rfl)
    simp only [List.dropWhile_cons, List.takeWhile_cons, plain, decide_false]
    exact ⟨by rw [← same]; exact String.ofList_toList, rfl⟩

/-- One level of depth is one level of indentation. -/
theorem Line.text_succ (depth : Nat) (content : Content) :
    Line.text ⟨depth + 1, content⟩ = deeper (Line.text ⟨depth, content⟩) := by
  by_cases empty : content.text.isEmpty
  · simp [Line.text, empty]
  · have some : content.text ≠ "" := fun same => empty (String.isEmpty_iff.2 same)
    have visible : Line.text ⟨depth, content⟩ ≠ "" := by
      simp [Line.text, empty, some]
    rw [deeper_of_ne visible]
    simp [Line.text, empty, List.replicate_succ, String.append_assoc]

/-- Lines one level deeper have their texts one level deeper. -/
theorem Line.map_text_indent (lines : List Line) :
    (Line.indent lines).map Line.text = (lines.map Line.text).map deeper := by
  simp only [Line.indent, List.map_map]
  exact List.map_congr_left fun l _ => Line.text_succ l.depth l.content

/-! ## Blocks -/

/-- The texts that end a block. -/
inductive EndText : String → Prop where
  | plain : EndText "end"
  | statement : EndText "end;"
  | routine (name : String) : EndText ("end;" ++ endRemark name)
  | program (name : String) : EndText ("end." ++ endRemark name)

/-- Line `k` begins a block and line `m` ends it: the first line behind `k` that is not deeper. -/
def Spans (texts : List String) (k m : Nat) : Prop :=
  ∃ opening closing, k < m ∧ texts[k]? = some opening ∧ texts[m]? = some closing ∧
    unindented opening = "begin" ∧ EndText (unindented closing) ∧
    indentation closing = indentation opening ∧
    ∀ j text, k < j → j < m → texts[j]? = some text →
      text ≠ "" ∧ indentation opening + 3 ≤ indentation text

/-- A line that neither begins a block nor ends one. -/
def Unblocked (text : String) : Prop :=
  unindented text ≠ "begin" ∧ ¬ EndText (unindented text)

/-- All blocks are closed, and nothing else is. -/
structure Bracketed (texts : List String) : Prop where
  opened : ∀ k text, texts[k]? = some text → unindented text = "begin" → ∃ m, Spans texts k m
  closed : ∀ m text, texts[m]? = some text → EndText (unindented text) → ∃ k, Spans texts k m

theorem EndText.starts {text : String} (h : EndText text) : "end".toList <+: text.toList := by
  cases h with
  | plain | statement => decide
  | routine name | program name => simp [endRemark]

theorem not_endText_begin : ¬ EndText "begin" :=
  fun h => absurd h.starts (by decide)

/-- A `begin` is a text. -/
theorem ne_empty_of_unindented {text : String} (h : unindented text = "begin") : text ≠ "" := by
  rintro rfl
  exact absurd h (by decide)

/-- A line of texts in a row is one of the first or of the others. -/
theorem of_getElem?_append {texts more : List String} {k : Nat} {text : String}
    (is : (texts ++ more)[k]? = some text) :
    texts[k]? = some text ∨ ∃ i, k = texts.length + i ∧ more[i]? = some text := by
  by_cases inside : k < texts.length
  · rw [List.getElem?_append_left inside] at is
    exact .inl is
  · rw [List.getElem?_append_right (by omega)] at is
    exact .inr ⟨k - texts.length, by omega, is⟩

namespace Spans

variable {texts more : List String} {k l m : Nat}

/-- Blocks that end with the same line do not begin inside each other, as the lines inside are deeper. -/
theorem le_of_spans (h : Spans texts k m) (h' : Spans texts l m) : l ≤ k := by
  obtain ⟨opening, closing, lt, first, last, -, -, flush, between⟩ := h
  obtain ⟨opening', closing', lt', first', last', -, -, flush', -⟩ := h'
  by_cases inside : k < l
  · obtain rfl : closing = closing' := Option.some.inj (last.symm.trans last')
    have := (between l opening' inside lt' first').2
    omega
  · omega

/-- An end closes one block only. -/
theorem unique (h : Spans texts k m) (h' : Spans texts l m) : k = l :=
  Nat.le_antisymm (h'.le_of_spans h) (h.le_of_spans h')

/-- Lines behind a block do not reach into it. -/
theorem append_left (h : Spans texts k m) (more : List String) : Spans (texts ++ more) k m := by
  obtain ⟨opening, closing, lt, first, last, begins, ends, flush, between⟩ := h
  have inside : m < texts.length := (List.getElem?_eq_some_iff.1 last).1
  have same (j : Nat) (le : j ≤ m) : (texts ++ more)[j]? = texts[j]? :=
    List.getElem?_append_left (by omega)
  refine ⟨opening, closing, lt, by rw [same k (by omega), first], by rw [same m (by omega), last],
    begins, ends, flush, fun j text after before is => ?_⟩
  rw [same j (by omega)] at is
  exact between j text after before is

theorem append_right (h : Spans texts k m) (front : List String) :
    Spans (front ++ texts) (front.length + k) (front.length + m) := by
  obtain ⟨opening, closing, lt, first, last, begins, ends, flush, between⟩ := h
  have same (j : Nat) : (front ++ texts)[front.length + j]? = texts[j]? := by
    rw [List.getElem?_append_right (by omega), Nat.add_sub_cancel_left]
  refine ⟨opening, closing, by omega, by rw [same, first], by rw [same, last], begins, ends, flush,
    fun j text after before is => ?_⟩
  obtain ⟨i, rfl⟩ : ∃ i, j = front.length + i := ⟨j - front.length, by omega⟩
  rw [same] at is
  exact between i text (by omega) (by omega) is

/-- A block stays one a level further in. -/
theorem deeper (h : Spans texts k m) : Spans (texts.map deeper) k m := by
  obtain ⟨opening, closing, lt, first, last, begins, ends, flush, between⟩ := h
  have visible : opening ≠ "" := ne_empty_of_unindented begins
  have visible' : closing ≠ "" := by
    rintro rfl
    exact absurd ends.starts (by decide)
  refine ⟨Pascal.deeper opening, Pascal.deeper closing, lt, by simp [first], by simp [last],
    by rwa [unindented_deeper], by rwa [unindented_deeper], ?_, fun j text after before is => ?_⟩
  · rw [indentation_deeper visible, indentation_deeper visible', flush]
  · rw [List.getElem?_map, Option.map_eq_some_iff] at is
    obtain ⟨text, is, rfl⟩ := is
    obtain ⟨some, deep⟩ := between j text after before is
    rw [indentation_deeper visible, indentation_deeper some]
    exact ⟨by simpa using some, by omega⟩

end Spans

namespace Bracketed

variable {texts more : List String}

/-- Lines that begin and end nothing leave nothing open. -/
theorem of_unblocked (h : ∀ text ∈ texts, Unblocked text) : Bracketed texts where
  opened _ text is begins := absurd begins (h text (List.mem_of_getElem? is)).1
  closed _ text is ends := absurd ends (h text (List.mem_of_getElem? is)).2

/-- Blocks in a row are closed each on its own. -/
theorem append (h : Bracketed texts) (h' : Bracketed more) : Bracketed (texts ++ more) where
  opened k text is begins := by
    obtain inside | ⟨i, rfl, inside⟩ := of_getElem?_append is
    · obtain ⟨m, spans⟩ := h.opened k text inside begins
      exact ⟨m, spans.append_left more⟩
    · obtain ⟨m, spans⟩ := h'.opened i text inside begins
      exact ⟨_, spans.append_right texts⟩
  closed m text is ends := by
    obtain inside | ⟨i, rfl, inside⟩ := of_getElem?_append is
    · obtain ⟨k, spans⟩ := h.closed m text inside ends
      exact ⟨k, spans.append_left more⟩
    · obtain ⟨k, spans⟩ := h'.closed i text inside ends
      exact ⟨_, spans.append_right texts⟩

theorem deeper (h : Bracketed texts) : Bracketed (texts.map deeper) where
  opened k text is begins := by
    rw [List.getElem?_map, Option.map_eq_some_iff] at is
    obtain ⟨text, is, rfl⟩ := is
    rw [unindented_deeper] at begins
    obtain ⟨m, spans⟩ := h.opened k text is begins
    exact ⟨m, spans.deeper⟩
  closed m text is ends := by
    rw [List.getElem?_map, Option.map_eq_some_iff] at is
    obtain ⟨text, is, rfl⟩ := is
    rw [unindented_deeper] at ends
    obtain ⟨k, spans⟩ := h.closed m text is ends
    exact ⟨k, spans.deeper⟩

/-- A block: its end is flush with its `begin`, and no line inside it is empty. -/
theorem block (h : Bracketed texts) (filled : "" ∉ texts) {close : String}
    (ends : EndText (unindented close)) (flush : indentation close = 0) :
    Bracketed ("begin" :: (texts.map Pascal.deeper ++ [close])) := by
  have bracketed := h.deeper
  have deep := deep_of_filled filled
  generalize texts.map Pascal.deeper = inside at bracketed deep
  have closed : Spans ("begin" :: (inside ++ [close])) 0 (inside.length + 1) := by
    refine ⟨"begin", close, by omega, rfl, by simp, by decide, ends, flush, fun j text after before is => ?_⟩
    obtain ⟨i, rfl⟩ : ∃ i, j = i + 1 := ⟨j - 1, by omega⟩
    rw [List.getElem?_cons_succ, List.getElem?_append_left (by omega)] at is
    have none : indentation "begin" = 0 := by decide
    rw [none, Nat.zero_add]
    exact deep text (List.mem_of_getElem? is)
  have within {i n : Nat} (h : Spans inside i n) :
      Spans ("begin" :: (inside ++ [close])) (i + 1) (n + 1) := by
    have shifted := (h.append_left [close]).append_right ["begin"]
    simpa [Nat.add_comm] using shifted
  constructor
  · intro k text is begins
    cases k with
    | zero => exact ⟨_, closed⟩
    | succ k =>
      rw [List.getElem?_cons_succ] at is
      obtain is | ⟨i, -, is⟩ := of_getElem?_append is
      · obtain ⟨m, spans⟩ := bracketed.opened k text is begins
        exact ⟨_, within spans⟩
      · obtain rfl := List.mem_singleton.1 (List.mem_of_getElem? is)
        rw [begins] at ends
        exact absurd ends not_endText_begin
  · intro m text is isEnd
    cases m with
    | zero =>
      obtain rfl : "begin" = text := Option.some.inj is
      exact absurd isEnd not_endText_begin
    | succ m =>
      rw [List.getElem?_cons_succ] at is
      obtain is | ⟨i, rfl, is⟩ := of_getElem?_append is
      · obtain ⟨k, spans⟩ := bracketed.closed m text is isEnd
        exact ⟨_, within spans⟩
      · obtain rfl : i = 0 := by simpa using (List.getElem?_eq_some_iff.1 is).1
        exact ⟨0, closed⟩

end Bracketed

/-! ## Functions -/

/-- The lines of a function: the heading, the variables, `begin` and the end stand at one indentation,
the functions inside it, each after an empty line, one level deeper, and its statements at least as
deep as those. -/
inductive FunctionText : Heading → Nat → List String → Prop where
  | mk {heading : Heading} {n : Nat} (vars : List Variable) {inner : List (Heading × List String)}
      {body : List String} (nested : ∀ f ∈ inner, FunctionText f.1 (n + 3) f.2) (spaced : Bool)
      (deep : ∀ text ∈ body, text ≠ "" ∧ n + 3 ≤ indentation text) :
      FunctionText heading n (indented n heading.text ::
        (vars.map (fun v => indented n (Content.var v).text) ++ inner.flatMap (fun f => "" :: f.2) ++
          (if spaced then [""] else []) ++ indented n "begin" ::
            (body ++ [indented n ("end;" ++ endRemark heading.name)])))

/-- A heading starts with a word. -/
theorem heading_text_ne (heading : Heading) : heading.text ≠ "" := by
  cases same : heading.returns <;> simp [Heading.text, same]

/-- A function inside another one has the same shape, one level in. -/
theorem FunctionText.deeper {heading : Heading} {n : Nat} {texts : List String}
    (h : FunctionText heading n texts) : FunctionText heading (n + 3) (texts.map deeper) := by
  induction h with
  | @mk heading n vars inner body _ spaced deep ih =>
    have nested : ∀ f ∈ inner.map fun f => (f.1, f.2.map Pascal.deeper),
        FunctionText f.1 (n + 3 + 3) f.2 := by
      intro f member
      obtain ⟨f, inside, rfl⟩ := List.mem_map.1 member
      exact ih f inside
    have whole : FunctionText heading _ _ := .mk vars nested spaced (deep_deeper deep)
    have first := deeper_indented (n := n) (heading_text_ne heading)
    have opens : Pascal.deeper (indented n "begin") = indented (n + 3) "begin" :=
      deeper_indented (by decide)
    have ends : Pascal.deeper (indented n ("end;" ++ endRemark heading.name)) = _ :=
      deeper_indented (by simp)
    have declared : (vars.map fun v => indented n (Content.var v).text).map Pascal.deeper =
        vars.map fun v => indented (n + 3) (Content.var v).text := by
      rw [List.map_map]
      exact List.map_congr_left fun v _ => deeper_indented (by simp [Content.text])
    have blank : (if spaced then [""] else []).map Pascal.deeper = if spaced then [""] else [] := by
      cases spaced <;> rfl
    simpa [first, opens, ends, declared, blank, List.map_flatMap, List.flatMap_map] using whole

/-- Every heading heads a function. -/
def Headed (texts : List String) : Prop :=
  ∀ k text heading, texts[k]? = some text → readNotice text = .heading heading →
    ∃ lines rest, texts.drop k = lines ++ rest ∧ FunctionText heading (indentation text) lines

namespace Headed

variable {texts more : List String}

theorem of_none (h : ∀ text ∈ texts, ∀ heading, readNotice text ≠ .heading heading) :
    Headed texts :=
  fun _ text heading is told => absurd told (h text (List.mem_of_getElem? is) heading)

/-- A function is not cut in two where lines are put in a row. -/
theorem append (h : Headed texts) (h' : Headed more) : Headed (texts ++ more) := by
  intro k text heading is told
  obtain inside | ⟨i, rfl, inside⟩ := of_getElem?_append is
  · obtain ⟨lines, rest, split, shape⟩ := h k text heading inside told
    have short := (List.getElem?_eq_some_iff.1 inside).1
    refine ⟨lines, rest ++ more, ?_, shape⟩
    rw [List.drop_append_of_le_length (by omega), split, List.append_assoc]
  · obtain ⟨lines, rest, split, shape⟩ := h' i text heading inside told
    refine ⟨lines, rest, ?_, shape⟩
    rw [← split, List.drop_append, List.drop_eq_nil_of_le (by omega), Nat.add_sub_cancel_left]
    rfl

theorem deeper (h : Headed texts) : Headed (texts.map deeper) := by
  intro k text heading is told
  rw [List.getElem?_map, Option.map_eq_some_iff] at is
  obtain ⟨text, is, rfl⟩ := is
  rw [readNotice_deeper] at told
  obtain ⟨lines, rest, split, shape⟩ := h k text heading is told
  have visible : text ≠ "" := by
    rintro rfl
    cases told
  refine ⟨lines.map Pascal.deeper, rest.map Pascal.deeper, ?_, ?_⟩
  · rw [← List.map_drop, split, List.map_append]
  · rw [indentation_deeper visible]
    exact shape.deeper

/-- A function whose other lines are in order. -/
theorem function {heading : Heading} {first : String} {rest : List String} (h : Headed rest)
    (told : readNotice first = .heading heading)
    (shape : FunctionText heading (indentation first) (first :: rest)) :
    Headed (first :: rest) := by
  intro k text heading' is told'
  cases k with
  | zero =>
    obtain rfl : first = text := Option.some.inj is
    obtain rfl : heading = heading' := Notice.heading.inj (told.symm.trans told')
    exact ⟨_, [], (List.append_nil _).symm, shape⟩
  | succ k => exact h k text heading' is told'

end Headed

/-! ## Lines in order -/

/-- A line that stands at the edge, belongs to no block and heads nothing. -/
structure Loose (text : String) : Prop where
  flush : indentation text = 0
  unblocked : Unblocked text
  heads : ∀ heading, readNotice text ≠ .heading heading

/-- The end of a block at the edge. -/
structure Closing (text : String) : Prop where
  flush : indentation text = 0
  ends : EndText (unindented text)
  heads : ∀ heading, readNotice text ≠ .heading heading

/-- Lines whose indentation shows how they nest. -/
structure Tidy (texts : List String) : Prop where
  steps : ∀ text ∈ texts, text ≠ "" → 3 ∣ indentation text
  bracketed : Bracketed texts
  headed : Headed texts

namespace Tidy

variable {texts more : List String}

/-- Lines in order may be put in a row. -/
theorem append (h : Tidy texts) (h' : Tidy more) : Tidy (texts ++ more) where
  steps := List.forall_mem_append.2 ⟨h.steps, h'.steps⟩
  bracketed := h.bracketed.append h'.bracketed
  headed := h.headed.append h'.headed

/-- Lines in order may be moved one level in. -/
theorem deeper (h : Tidy texts) : Tidy (texts.map deeper) where
  steps := by
    intro text member some
    obtain ⟨text, inside, rfl⟩ := List.mem_map.1 member
    have some : text ≠ "" := by simpa using some
    rw [indentation_deeper some]
    exact Nat.dvd_add_self_right.2 (h.steps text inside some)
  bracketed := h.bracketed.deeper
  headed := h.headed.deeper

/-- Lines at the edge that belong to nothing are in order. -/
theorem of_loose (h : ∀ text ∈ texts, Loose text) : Tidy texts where
  steps text member _ := by simp [(h text member).flush]
  bracketed := .of_unblocked fun text member => (h text member).unblocked
  headed := .of_none fun text member => (h text member).heads

theorem block (h : Tidy texts) (filled : "" ∉ texts) {close : String} (closing : Closing close) :
    Tidy ("begin" :: (texts.map Pascal.deeper ++ [close])) where
  steps := by
    have inside := h.deeper.steps
    simp only [List.mem_cons, List.mem_append, List.mem_nil_iff, or_false]
    rintro text (rfl | member | rfl) some
    · decide
    · exact inside text member some
    · simp [closing.flush]
  bracketed := h.bracketed.block filled closing.ends closing.flush
  headed := by
    have first : Headed ["begin"] := .of_none (by simp [show readNotice "begin" = .other by decide])
    have last : Headed [close] := .of_none (by simpa using closing.heads)
    exact first.append (h.headed.deeper.append last)

end Tidy

end Pascalize.Pascal
