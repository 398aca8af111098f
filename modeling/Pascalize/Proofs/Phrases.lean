/-!
# Phrases that are cut in one way

A phrase is a list of words that stands for something. Where the words that may follow a phrase are
restricted, the phrase at the front of a text can be determined by the text (`Decides`), and so can a
row of phrases with separators between them. Nothing here depends on a particular grammar.
-/

namespace Pascalize.Phrases

variable {α β : Type} {Stands : List α → β → Prop} {Ends : List α → Prop}

/-- These words, and what they stand for, are all that can be read off the front of a text. -/
def Decides (Stands : List α → β → Prop) (Ends : List α → Prop) (w : List α) (b : β) : Prop :=
  ∀ w' b' r r', Stands w' b' → w ++ r = w' ++ r' → Ends r → Ends r' → w = w' ∧ b = b' ∧ r = r'

/-- The words of phrases, each after a separator. -/
def partWords (parts : List (α × List α × β)) : List α :=
  parts.flatMap fun x => x.1 :: x.2.1

/-- Separated phrases are cut in one way only, if no separator follows the last of them and each
phrase ends before a separator. -/
theorem parts_unique {Sep : α → Prop} (sepEnds : ∀ x r, Sep x → Ends (x :: r))
    {parts parts' : List (α × List α × β)} {r r' : List α}
    (decides : ∀ x ∈ parts, Decides Stands Ends x.2.1 x.2.2) (seps : ∀ x ∈ parts, Sep x.1)
    (stands' : ∀ x ∈ parts', Stands x.2.1 x.2.2) (seps' : ∀ x ∈ parts', Sep x.1)
    (same : partWords parts ++ r = partWords parts' ++ r') (ends : Ends r) (ends' : Ends r')
    (stop : ∀ x ∈ r.head?, ¬ Sep x) (stop' : ∀ x ∈ r'.head?, ¬ Sep x) :
    parts = parts' ∧ r = r' := by
  have endsParts : ∀ {parts : List (α × List α × β)} {r : List α},
      (∀ x ∈ parts, Sep x.1) → Ends r → Ends (partWords parts ++ r) := by
    intro parts r seps ends
    cases parts with
    | nil => exact ends
    | cons x parts => exact sepEnds _ _ (seps x List.mem_cons_self)
  induction parts generalizing parts' with
  | nil =>
    cases parts' with
    | nil => exact ⟨rfl, same⟩
    | cons x' parts' =>
      obtain rfl : r = x'.1 :: (x'.2.1 ++ partWords parts' ++ r') := same
      exact absurd (seps' x' List.mem_cons_self) (stop _ rfl)
  | cons x parts ih =>
    cases parts' with
    | nil =>
      obtain rfl : r' = x.1 :: (x.2.1 ++ partWords parts ++ r) := same.symm
      exact absurd (seps x List.mem_cons_self) (stop' _ rfl)
    | cons x' parts' =>
      obtain ⟨sep, w, b⟩ := x
      obtain ⟨sep', w', b'⟩ := x'
      simp only [List.mem_cons, forall_eq_or_imp] at decides seps stands' seps'
      simp only [partWords, List.flatMap_cons, List.cons_append, List.append_assoc,
        List.cons.injEq] at same
      obtain ⟨rfl, same⟩ := same
      obtain ⟨rfl, rfl, sameRest⟩ := decides.1 _ _ _ _ stands'.1 same (endsParts seps.2 ends)
        (endsParts seps'.2 ends')
      obtain ⟨rfl, rfl⟩ := ih decides.2 seps.2 stands'.2 seps'.2 sameRest
      exact ⟨rfl, rfl⟩

/-- Phrases with one separator between each two. -/
def joined (sep : α) (items : List (List α × β)) : List α :=
  [sep].intercalate (items.map Prod.fst)

/-- A phrase after its separator. -/
def part (sep : α) (x : List α × β) : α × List α × β :=
  (sep, x.1, x.2)

theorem joined_cons (sep : α) (x : List α × β) (items : List (List α × β)) :
    joined sep (x :: items) = x.1 ++ partWords (items.map (part sep)) := by
  induction items generalizing x with
  | nil => simp [joined, partWords]
  | cons y items ih =>
    have rest := ih y
    simp only [joined, List.map_cons, List.intercalate_cons_cons] at rest ⊢
    rw [rest]
    simp [partWords, part]

/-- Phrases with a separator after each. -/
def terminated (sep : α) (items : List (List α × β)) : List α :=
  items.flatMap fun x => x.1 ++ [sep]

/-- A separator after the last phrase parts it from a phrase without words. -/
theorem joined_concat_nil (sep : α) (items : List (List α × β)) (b : β) :
    joined sep (items ++ [([], b)]) = terminated sep items := by
  have parts (items : List (List α × β)) :
      partWords ((items ++ [([], b)]).map (part sep)) = sep :: terminated sep items := by
    induction items with
    | nil => rfl
    | cons x items ih =>
      rw [List.cons_append, List.map_cons, partWords, List.flatMap_cons, ← partWords, ih]
      simp [part, terminated]
  cases items with
  | nil => rfl
  | cons x items =>
    rw [List.cons_append, joined_cons, parts]
    simp [terminated]

/-- Joined phrases, at least one, are cut in one way only. -/
theorem joined_unique {sep : α} (sepEnds : ∀ r, Ends (sep :: r)) {items items' : List (List α × β)}
    {r r' : List α} (any : items ≠ []) (any' : items' ≠ [])
    (decides : ∀ x ∈ items, Decides Stands Ends x.1 x.2) (stands' : ∀ x ∈ items', Stands x.1 x.2)
    (same : joined sep items ++ r = joined sep items' ++ r') (ends : Ends r) (ends' : Ends r')
    (stop : r.head? ≠ some sep) (stop' : r'.head? ≠ some sep) : items = items' ∧ r = r' := by
  obtain ⟨⟨w, b⟩, items, rfl⟩ := List.exists_cons_of_ne_nil any
  obtain ⟨⟨w', b'⟩, items', rfl⟩ := List.exists_cons_of_ne_nil any'
  have endsItems {items : List (List α × β)} {r : List α} (ends : Ends r) :
      Ends (partWords (items.map (part sep)) ++ r) := by
    cases items with
    | nil => exact ends
    | cons => exact sepEnds _
  simp only [List.mem_cons, forall_eq_or_imp] at decides stands'
  simp only [joined_cons, List.append_assoc] at same
  obtain ⟨rfl, rfl, sameRest⟩ := decides.1 _ _ _ _ stands'.1 same (endsItems ends) (endsItems ends')
  have separated : ∀ x r, x = sep → Ends (x :: r) := by
    rintro _ r rfl
    exact sepEnds r
  obtain ⟨sameParts, rfl⟩ := parts_unique separated (List.forall_mem_map.2 decides.2)
    (List.forall_mem_map.2 fun _ _ => rfl) (List.forall_mem_map.2 stands'.2)
    (List.forall_mem_map.2 fun _ _ => rfl) sameRest ends ends'
    (fun _ first same => stop (same ▸ first)) (fun _ first same => stop' (same ▸ first))
  obtain rfl : items = items' := by
    refine (List.map_inj_right fun y y' same => ?_).1 sameParts
    simpa [part, Prod.ext_iff] using same
  exact ⟨rfl, rfl⟩

end Pascalize.Phrases
