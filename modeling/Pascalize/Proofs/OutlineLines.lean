import Mathlib.Data.Nat.Digits.Defs
import Pascalize.Tree.Outline

/-!
# Reading outlines

An outline is read back in three steps, each of which can be done in one way only. Its lines end at the
line feeds, as no label holds one (`OutlineEntry.texts_inj`). The bars before a label give its depth
(`OutlineEntry.text_inj`). And entries with depths are those of one forest of labels
(`Sketch.entriesAll_inj`). Text in quotes stands for itself alone (`Text.quoted_inj`).
-/

namespace Pascalize

/-- A text is cut in one way at the first of its marks. -/
theorem cut_unique {α : Type} {mark : α} {v v' r r' : List α} (free : mark ∉ v) (free' : mark ∉ v')
    (same : v ++ mark :: r = v' ++ mark :: r') : v = v' ∧ r = r' := by
  induction v generalizing v' with
  | nil =>
    cases v' with
    | nil => exact ⟨rfl, (List.cons.inj same).2⟩
    | cons x v' => exact absurd (by simp [(List.cons.inj same).1]) free'
  | cons x v ih =>
    cases v' with
    | nil => exact absurd (by simp [(List.cons.inj same).1]) free
    | cons x' v' =>
      obtain ⟨rfl, rest⟩ := List.cons.inj same
      obtain ⟨rfl, rfl⟩ := ih (fun inside => free (List.mem_cons_of_mem _ inside))
        (fun inside => free' (List.mem_cons_of_mem _ inside)) rest
      exact ⟨rfl, rfl⟩

/-! ## Quoted text -/

namespace Text

theorem digitChar_inj : ∀ d < 16, ∀ e < 16, Nat.digitChar d = Nat.digitChar e → d = e := by decide

/-- Different numbers have different digits. -/
theorem toDigits_inj {n m : Nat} (same : Nat.toDigits 16 n = Nat.toDigits 16 m) : n = m := by
  induction n using Nat.strongRecOn generalizing m with
  | ind n ih =>
    obtain small | large := Nat.lt_or_ge n 16 <;> obtain small' | large' := Nat.lt_or_ge m 16
    · rw [Nat.toDigits_of_lt_base small, Nat.toDigits_of_lt_base small'] at same
      exact digitChar_inj n small m small' (List.cons.inj same).1
    · rw [Nat.toDigits_of_lt_base small, Nat.toDigits_of_base_le (by decide) large'] at same
      simp [List.singleton_eq_append_iff, Nat.toDigits_ne_nil] at same
    · rw [Nat.toDigits_of_base_le (by decide) large, Nat.toDigits_of_lt_base small'] at same
      simp [List.append_eq_singleton_iff, Nat.toDigits_ne_nil] at same
    · rw [Nat.toDigits_of_base_le (by decide) large, Nat.toDigits_of_base_le (by decide) large'] at same
      obtain ⟨front, last⟩ := List.append_inj' same rfl
      have high := ih (n / 16) (by omega) front
      have low := digitChar_inj _ (Nat.mod_lt n (by decide)) _ (Nat.mod_lt m (by decide))
        (List.cons.inj last).1
      omega

theorem mem_toDigits {n : Nat} {c : Char} (member : c ∈ Nat.toDigits 16 n) :
    ∃ d < 16, c = Nat.digitChar d := by
  induction n using Nat.strongRecOn with
  | ind n ih =>
    obtain small | large := Nat.lt_or_ge n 16
    · rw [Nat.toDigits_of_lt_base small] at member
      exact ⟨n, small, List.mem_singleton.1 member⟩
    · rw [Nat.toDigits_of_base_le (by decide) large] at member
      obtain member | member := List.mem_append.1 member
      · exact ih (n / 16) (by omega) member
      · exact ⟨n % 16, Nat.mod_lt n (by decide), List.mem_singleton.1 member⟩

/-- A character that is no digit does not occur in a number. -/
theorem not_mem_toDigits {c : Char} (noDigit : ∀ d < 16, c ≠ Nat.digitChar d) (n : Nat) :
    c ∉ Nat.toDigits 16 n := by
  intro member
  obtain ⟨d, small, is⟩ := mem_toDigits member
  exact noDigit d small is

/-- The characters with an escape of two characters, and what stands after the backslash in it. -/
def marks : List (Char × Char) :=
  [('\x00', '0'), ('\t', 't'), ('\r', 'r'), ('\n', 'n'), ('\\', '\\'), ('\x22', '\x22')]

/-- A character is written as it is, by a mark of its own, or by the digits of its code point. -/
theorem escape_cases (c : Char) :
    (escape c = [c] ∧ c ≠ '\\' ∧ c ≠ '\n') ∨ (∃ mark, (c, mark) ∈ marks ∧ escape c = ['\\', mark]) ∨
      escape c = codePointEscape c := by
  unfold escape
  split
  case h_7 _ _ notFeed notBackslash _ =>
    split
    next => exact .inr (.inr rfl)
    next => exact .inl ⟨rfl, notBackslash, notFeed⟩
  all_goals exact .inr (.inl ⟨_, by decide, rfl⟩)

/-- No character is left out. -/
theorem escape_ne_nil (c : Char) : escape c ≠ [] := by
  obtain ⟨same, -⟩ | ⟨mark, -, same⟩ | same := escape_cases c
  all_goals simp [same, codePointEscape]

/-- A line feed is written by its mark. -/
theorem feed_not_mem_escape (c : Char) : '\n' ∉ escape c := by
  obtain ⟨same, -, noFeed⟩ | ⟨mark, isMark, same⟩ | same := escape_cases c
  · simpa [same] using noFeed.symm
  · have known : ∀ x ∈ marks, x.2 ≠ '\n' := by decide
    simpa [same] using (known _ isMark).symm
  · simpa [same, codePointEscape] using not_mem_toDigits (by decide) c.toNat

/-- The escape at the front of a text shows which character it stands for. -/
theorem escape_append_inj {c c' : Char} {r r' : List Char} (same : escape c ++ r = escape c' ++ r') :
    c = c' ∧ r = r' := by
  have marked : ∀ x ∈ marks, x.2 ≠ 'u' := by decide
  have apart : ∀ x ∈ marks, ∀ y ∈ marks, x.2 = y.2 → x.1 = y.1 := by decide
  obtain ⟨is, plain, -⟩ | ⟨mark, isMark, is⟩ | is := escape_cases c <;>
    obtain ⟨is', plain', -⟩ | ⟨mark', isMark', is'⟩ | is' := escape_cases c' <;>
    rw [is, is'] at same
  · simpa using same
  · exact absurd (List.cons.inj same).1 plain
  · exact absurd (List.cons.inj same).1 plain
  · exact absurd (List.cons.inj same).1.symm plain'
  · simp only [List.cons_append, List.nil_append, List.cons.injEq, true_and] at same
    exact ⟨apart _ isMark _ isMark' same.1, same.2⟩
  · simp only [codePointEscape, List.cons_append, List.nil_append, List.cons.injEq, true_and] at same
    exact absurd same.1 (marked _ isMark)
  · exact absurd (List.cons.inj same).1.symm plain'
  · simp only [codePointEscape, List.cons_append, List.nil_append, List.cons.injEq, true_and] at same
    exact absurd same.1.symm (marked _ isMark')
  · simp only [codePointEscape, List.cons_append, List.append_assoc, List.nil_append, List.cons.injEq,
      true_and] at same
    obtain ⟨digits, rest⟩ := cut_unique (not_mem_toDigits (by decide) _)
      (not_mem_toDigits (by decide) _) same
    exact ⟨Char.toNat_inj.1 (toDigits_inj digits), rest⟩

/-- The characters are found again one by one, as no way to write one begins another. -/
theorem flatMap_escape_inj {cs cs' : List Char} (same : cs.flatMap escape = cs'.flatMap escape) :
    cs = cs' := by
  induction cs generalizing cs' with
  | nil =>
    cases cs' with
    | nil => rfl
    | cons c' cs' => simp [escape_ne_nil] at same
  | cons c cs ih =>
    cases cs' with
    | nil => simp [escape_ne_nil] at same
    | cons c' cs' =>
      obtain ⟨rfl, rest⟩ := escape_append_inj same
      rw [ih rest]

/-- **Text in quotes stands for itself alone.** -/
theorem quoted_inj {text text' : String} (same : quoted text = quoted text') : text = text' := by
  rw [quoted, quoted, String.append_left_inj, String.append_right_inj, String.ofList_inj] at same
  exact String.toList_inj.1 (flatMap_escape_inj same)

theorem feed_not_mem_quoted (text : String) : '\n' ∉ (quoted text).toList := by
  simpa [quoted] using fun c _ => feed_not_mem_escape c

end Text

/-! ## Lines -/

namespace OutlineEntry

/-- Bars for the depth, a sign, and the label. -/
theorem toList_text (e : OutlineEntry) : e.text.toList =
    (List.replicate e.depth ['|', ' ', ' ']).flatten ++ '+' :: '-' :: ' ' :: e.label.toList := by
  simp [text, List.flatMap_replicate]

/-- The bars before the branch of an entry give its depth. -/
theorem text_inj {e e' : OutlineEntry} (same : e.text = e'.text) : e = e' := by
  obtain ⟨depth, label⟩ := e
  obtain ⟨depth', label'⟩ := e'
  have chars := congrArg String.toList same
  rw [toList_text, toList_text] at chars
  clear same
  induction depth generalizing depth' with
  | zero =>
    cases depth' with
    | zero => simpa [String.toList_inj] using chars
    | succ => simp [List.replicate_succ] at chars
  | succ depth ih =>
    cases depth' with
    | zero => simp [List.replicate_succ] at chars
    | succ depth' =>
      have shorter := ih depth' (by simpa [List.replicate_succ] using chars)
      simpa using shorter

theorem feed_not_mem_text {e : OutlineEntry} (plain : '\n' ∉ e.label.toList) :
    '\n' ∉ e.text.toList := by
  rw [toList_text]
  simpa [List.mem_replicate] using plain

/-- Entries whose labels stay on their lines are read off their text. -/
theorem texts_inj {es es' : List OutlineEntry} (plain : ∀ e ∈ es, '\n' ∉ e.label.toList)
    (plain' : ∀ e ∈ es', '\n' ∉ e.label.toList)
    (same : String.join (es.map (·.text ++ "\n")) = String.join (es'.map (·.text ++ "\n"))) :
    es = es' := by
  have chars := congrArg String.toList same
  simp only [String.toList_join, List.flatMap_map, String.toList_append] at chars
  clear same
  induction es generalizing es' with
  | nil =>
    cases es' with
    | nil => rfl
    | cons => simp at chars
  | cons e es ih =>
    cases es' with
    | nil => simp at chars
    | cons e' es' =>
      simp only [List.mem_cons, forall_eq_or_imp] at plain plain'
      simp only [List.flatMap_cons, List.append_assoc] at chars
      obtain ⟨first, rest⟩ := cut_unique (feed_not_mem_text plain.1) (feed_not_mem_text plain'.1) chars
      rw [text_inj (String.toList_inj.1 first), ih plain.2 plain'.2 rest]

end OutlineEntry

/-! ## Forests -/

/-- A label with the labels below it. -/
inductive Sketch where
  | mk (label : String) (parts : List Sketch)

namespace Sketch

def label : Sketch → String
  | mk label _ => label

mutual

/-- The entries of a label that stands at `depth`, and of those below it. -/
def entries (depth : Nat) : Sketch → List OutlineEntry
  | mk label parts => ⟨depth, label⟩ :: entriesAll (depth + 1) parts

/-- The entries of labels that stand side by side. -/
def entriesAll (depth : Nat) : List Sketch → List OutlineEntry
  | [] => []
  | s :: rest => s.entries depth ++ entriesAll depth rest

end

/-- What comes after all entries at `depth` and below it. -/
def Above (depth : Nat) (es : List OutlineEntry) : Prop :=
  ∀ e ∈ es.head?, e.depth < depth

/-- What comes after trees of one depth comes after their parts as well. -/
theorem Above.succ {depth : Nat} {ss : List Sketch} {r : List OutlineEntry} (h : Above depth r) :
    Above (depth + 1) (entriesAll depth ss ++ r) := by
  cases ss with
  | nil => exact fun e first => Nat.lt_succ_of_lt (h e first)
  | cons s ss =>
    obtain ⟨label, parts⟩ := s
    simp [Above, entriesAll, entries]

mutual

theorem entries_append_inj {depth : Nat} {r r' : List OutlineEntry} : (s s' : Sketch) →
    Above (depth + 1) r → Above (depth + 1) r' →
    s.entries depth ++ r = s'.entries depth ++ r' → s = s' ∧ r = r'
  | mk label parts, mk label' parts', ends, ends', same => by
    simp only [entries, List.cons_append, List.cons.injEq, OutlineEntry.mk.injEq, true_and] at same
    obtain ⟨rfl, rfl⟩ := entriesAll_append_inj parts parts' ends ends' same.2
    exact ⟨by rw [same.1], rfl⟩

/-- Entries are those of one forest only, and it is clear where they end. -/
theorem entriesAll_append_inj {depth : Nat} {r r' : List OutlineEntry} : (ss ss' : List Sketch) →
    Above depth r → Above depth r' →
    entriesAll depth ss ++ r = entriesAll depth ss' ++ r' → ss = ss' ∧ r = r'
  | [], [], _, _, same => ⟨rfl, same⟩
  | [], mk label parts :: rest, ends, _, same => by
    simp only [entriesAll, entries, List.nil_append, List.cons_append] at same
    exact absurd (ends ⟨depth, label⟩ (by simp [same])) (Nat.lt_irrefl depth)
  | mk label parts :: rest, [], _, ends', same => by
    simp only [entriesAll, entries, List.nil_append, List.cons_append] at same
    exact absurd (ends' ⟨depth, label⟩ (by simp [← same])) (Nat.lt_irrefl depth)
  | s :: rest, s' :: rest', ends, ends', same => by
    simp only [entriesAll, List.append_assoc] at same
    obtain ⟨rfl, more⟩ := entries_append_inj s s' ends.succ ends'.succ same
    obtain ⟨rfl, rfl⟩ := entriesAll_append_inj rest rest' ends ends' more
    exact ⟨rfl, rfl⟩

end

/-- **Entries with depths are those of one forest.** -/
theorem entriesAll_inj {depth : Nat} {ss ss' : List Sketch}
    (same : entriesAll depth ss = entriesAll depth ss') : ss = ss' := by
  have nothing : Above depth [] := by simp [Above]
  refine (entriesAll_append_inj ss ss' nothing nothing ?_).1
  rw [same]

end Sketch

end Pascalize
