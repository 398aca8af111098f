import Pascalize.Scope.Forest

/-!
# Laws of forests

A forest keeps the same facts in several tables, and what the tables owe each other is said here. The index
of a scope leads from the names that were inserted to the positions of its symbols (`Scope.Indexed`); as long
as no symbol is renamed these are the names of the symbols (`Scope.Titled`). Parents are older than their
children and one level up (`Forest.Rooted`), so that the walk along parents comes to an end at the global
scope, and a chain is a scope before the chain of its parent (`Forest.Rooted.chain_eq`).

Then come the laws: what the operations do to the symbol that a scope has under a name (`Forest.named?`), to
the names it has at all (`Forest.find?`) and to chains. Changing a symbol moves nothing, inserting adds one
name, and opening a scope leaves all others as they were.
-/

namespace Pascalize

namespace Scope

variable {s : Scope} {keys : List String} {name : String} {symbol : Symbol}

/-- The index leads from the names `keys`, in this order, to the positions of the symbols. -/
structure Indexed (s : Scope) (keys : List String) : Prop where
  length : keys.length = s.symbols.length
  position : ∀ name i, s.position? name = some i ↔ keys[i]? = some name

/-- The index leads from the names of the symbols to their positions. -/
def Titled (s : Scope) : Prop :=
  s.Indexed (s.symbols.map (·.name))

/-- The index finds a pushed symbol at the end, and all others where they were. -/
theorem position?_push (s : Scope) (symbol : Symbol) (name : String) :
    (s.push symbol).position? name =
      if symbol.name = name then some s.symbols.length else s.position? name := by
  rw [position?, push, List.lookup_cons]
  by_cases same : symbol.name = name
  · simp [same]
  · have other : (name == symbol.name) = false := by simpa using Ne.symm same
    simp [same, other, position?]

namespace Indexed

theorem mem_iff (h : s.Indexed keys) : name ∈ keys ↔ ∃ i, s.position? name = some i := by
  simp only [h.position, List.mem_iff_getElem?]

/-- Names that the index has no position for were not inserted. -/
theorem position?_eq_none_iff (h : s.Indexed keys) : s.position? name = none ↔ name ∉ keys := by
  rw [h.mem_iff, ← Option.ne_none_iff_exists', Decidable.not_not]

theorem lt (h : s.Indexed keys) {i : Nat} (found : s.position? name = some i) : i < s.symbols.length := by
  rw [← h.length]
  exact (List.getElem?_eq_some_iff.1 ((h.position name i).1 found)).1

/-- A position is that of one name only. -/
theorem inj (h : s.Indexed keys) {name' : String} {i : Nat} (found : s.position? name = some i)
    (found' : s.position? name' = some i) : name = name' :=
  Option.some.inj (((h.position name i).1 found).symm.trans ((h.position name' i).1 found'))

/-- A name has one position, so no name was inserted twice. -/
theorem nodup (h : s.Indexed keys) : keys.Nodup := by
  refine List.pairwise_iff_getElem.2 fun i j iLt jLt less same => ?_
  have first := (h.position keys[i] i).2 (List.getElem?_eq_getElem iLt)
  have second := (h.position keys[i] j).2 (same ▸ List.getElem?_eq_getElem jLt)
  exact Nat.ne_of_lt less (Option.some.inj (first.symm.trans second))

/-- Changing symbols leaves the index alone. -/
theorem modify (h : s.Indexed keys) (position : Nat) (g : Symbol → Symbol) :
    (s.modify position g).Indexed keys :=
  ⟨by simpa [Scope.modify] using h.length, h.position⟩

/-- A symbol under a new name comes last. -/
theorem push (h : s.Indexed keys) (free : symbol.name ∉ keys) :
    (s.push symbol).Indexed (keys ++ [symbol.name]) where
  length := by simp [Scope.push, h.length]
  position name i := by
    rw [position?_push]
    split
    next same =>
      subst same
      constructor
      · rintro ⟨⟩
        rw [← h.length]
        exact List.getElem?_concat_length
      · intro is
        have notBefore : ¬ i < keys.length := by
          intro before
          rw [List.getElem?_append_left before] at is
          exact free (List.mem_of_getElem? is)
        have last := (List.getElem?_eq_some_iff.1 is).1
        rw [List.length_append, List.length_singleton] at last
        rw [← h.length, Nat.le_antisymm (Nat.le_of_lt_succ last) (Nat.le_of_not_lt notBefore)]
    next other =>
      rw [h.position, List.getElem?_append]
      split
      · rfl
      next beyond =>
        have none : keys[i]? = none := List.getElem?_eq_none (Nat.le_of_not_lt beyond)
        have notLast : [symbol.name][i - keys.length]? ≠ some name := by
          rw [List.getElem?_singleton]
          split <;> simp [other]
        simp [none, notLast]

end Indexed

namespace Titled

/-- Symbols may change as long as they keep their names. -/
theorem modify (h : s.Titled) (position : Nat) {g : Symbol → Symbol}
    (keeps : ∀ symbol, (g symbol).name = symbol.name) : (s.modify position g).Titled := by
  have names : (s.modify position g).symbols.map (·.name) = s.symbols.map (·.name) := by
    apply List.ext_getElem?
    intro i
    simp only [Scope.modify, List.getElem?_map, List.getElem?_modify]
    cases s.symbols[i]? with
    | none => rfl
    | some symbol => by_cases here : position = i <;> simp [here, keeps]
  rw [Titled, names]
  exact Indexed.modify h position g

theorem push (h : s.Titled) (free : symbol.name ∉ s.symbols.map (·.name)) : (s.push symbol).Titled := by
  rw [Titled, Scope.push, List.map_append]
  exact Indexed.push h free

theorem position?_name (h : s.Titled) {i : Nat} (is : s.symbols[i]? = some symbol) :
    s.position? symbol.name = some i :=
  (h.position symbol.name i).2 (by simp [is])

/-- What the index leads to is a symbol of the name. -/
theorem symbol_of_position? (h : s.Titled) {i : Nat} (found : s.position? name = some i) :
    ∃ symbol, s.symbols[i]? = some symbol ∧ symbol.name = name := by
  have key := (h.position name i).1 found
  rwa [List.getElem?_map, Option.map_eq_some_iff] at key

end Titled

end Scope

namespace Forest

variable {f : Forest} {s s' : ScopeId} {name name' : String} {ref : SymbolId} {symbol : Symbol} {scope : Scope}

/-- The symbol that a scope has under a name. -/
def named? (f : Forest) (s : ScopeId) (name : String) : Option Symbol :=
  (f.find? s name).bind f.symbol?

/-- Every scope has an index of its symbols. -/
def Indexed (f : Forest) : Prop :=
  ∀ s scope, f.scope? s = some scope → ∃ keys, scope.Indexed keys

/-- Every symbol is found under its name. -/
def Titled (f : Forest) : Prop :=
  ∀ s scope, f.scope? s = some scope → scope.Titled

theorem Titled.indexed (h : f.Titled) : f.Indexed :=
  fun s scope there => ⟨_, h s scope there⟩

theorem scope?_isSome_iff : (∃ scope, f.scope? s = some scope) ↔ s < f.scopes.length := by
  rw [← Option.isSome_iff_exists, scope?]
  simp

theorem lt_of_scope? (there : f.scope? s = some scope) : s < f.scopes.length :=
  scope?_isSome_iff.1 ⟨scope, there⟩

/-- A name is found through the index of its scope. -/
theorem find?_eq (f : Forest) (s : ScopeId) (name : String) :
    f.find? s name = ((f.scope? s).bind (·.position? name)).map (⟨s, ·⟩) := by
  rw [find?]
  cases f.scope? s with
  | none => rfl
  | some scope => cases found : scope.position? name <;> simp [found]

theorem symbol?_eq (f : Forest) (ref : SymbolId) :
    f.symbol? ref = (f.scope? ref.scope).bind (·.symbols[ref.position]?) :=
  rfl

/-- What is found stands in its scope at its position. -/
theorem of_find? (found : f.find? s name = some ref) : ref.scope = s ∧ ∃ scope,
    f.scope? s = some scope ∧ scope.position? name = some ref.position := by
  rw [find?_eq] at found
  cases there : f.scope? s with
  | none => simp [there] at found
  | some scope =>
    simp only [there, Option.bind_some, Option.map_eq_some_iff] at found
    obtain ⟨i, position, rfl⟩ := found
    exact ⟨rfl, scope, rfl, position⟩

/-- No position leads out of a scope. -/
theorem Indexed.symbol?_of_find? (h : f.Indexed) (found : f.find? s name = some ref) :
    ∃ symbol, f.symbol? ref = some symbol := by
  obtain ⟨rfl, scope, there, position⟩ := of_find? found
  obtain ⟨keys, indexed⟩ := h _ scope there
  exact ⟨_, by rw [symbol?_eq, there, Option.bind_some, List.getElem?_eq_getElem (indexed.lt position)]⟩

/-- A symbol is found under one name only. -/
theorem Indexed.find?_inj (h : f.Indexed) (found : f.find? s name = some ref)
    (found' : f.find? s' name' = some ref) : s = s' ∧ name = name' := by
  obtain ⟨rfl, scope, there, position⟩ := of_find? found
  obtain ⟨rfl, scope', there', position'⟩ := of_find? found'
  obtain rfl := Option.some.inj (there.symm.trans there')
  obtain ⟨keys, indexed⟩ := h _ scope there
  exact ⟨rfl, indexed.inj position position'⟩

/-- What is found under a name has it. -/
theorem Titled.name_of_find? (h : f.Titled) (found : f.find? s name = some ref)
    (is : f.symbol? ref = some symbol) : symbol.name = name := by
  obtain ⟨rfl, scope, there, position⟩ := of_find? found
  obtain ⟨symbol', is', named⟩ := (h _ scope there).symbol_of_position? position
  rw [symbol?_eq, there, Option.bind_some, is'] at is
  rw [← Option.some.inj is, named]

/-- A symbol is found under its name. -/
theorem Titled.find?_name (h : f.Titled) (is : f.symbol? ref = some symbol) :
    f.find? ref.scope symbol.name = some ref := by
  obtain ⟨scope, there, here⟩ := Option.bind_eq_some_iff.1 is
  rw [find?_eq, there, Option.bind_some, (h _ scope there).position?_name here]
  rfl

/-- There is a symbol under a name exactly if the name is found. -/
theorem Indexed.named?_eq_none_iff (h : f.Indexed) : f.named? s name = none ↔ f.find? s name = none := by
  rw [named?]
  cases found : f.find? s name with
  | none => simp
  | some ref =>
    obtain ⟨symbol, is⟩ := h.symbol?_of_find? found
    simp [is]

theorem named?_of_find? (found : f.find? s name = some ref) (is : f.symbol? ref = some symbol) :
    f.named? s name = some symbol := by
  rw [named?, found, Option.bind_some, is]

/-- Every symbol is the one under its name. -/
theorem Titled.named? (h : f.Titled) (there : f.scope? s = some scope) (member : symbol ∈ scope.symbols) :
    f.named? s symbol.name = some symbol := by
  obtain ⟨i, here⟩ := List.getElem?_of_mem member
  have is : f.symbol? ⟨s, i⟩ = some symbol := by rw [symbol?_eq, there, Option.bind_some, here]
  exact named?_of_find? (h.find?_name is) is

/-- The symbol under a name is one of the scope and has the name. -/
theorem Titled.mem_of_named? (h : f.Titled) (named : f.named? s name = some symbol) : ∃ scope,
    f.scope? s = some scope ∧ symbol ∈ scope.symbols ∧ symbol.name = name := by
  obtain ⟨ref, found, is⟩ := Option.bind_eq_some_iff.1 named
  have title := h.name_of_find? found is
  obtain ⟨rfl, scope, there, -⟩ := of_find? found
  rw [symbol?_eq, there, Option.bind_some] at is
  exact ⟨scope, there, List.mem_of_getElem? is, title⟩

/-! ## Changing a symbol -/

theorem scope?_modifySymbol (f : Forest) (ref : SymbolId) (g : Symbol → Symbol) (s : ScopeId) :
    (f.modifySymbol ref g).scope? s =
      if ref.scope = s then (f.scope? s).map (·.modify ref.position g) else f.scope? s :=
  scope?_modifyScope f ref.scope s _

@[simp] theorem length_modifySymbol (f : Forest) (ref : SymbolId) (g : Symbol → Symbol) :
    (f.modifySymbol ref g).scopes.length = f.scopes.length :=
  length_modifyScope f ref.scope _

@[simp] theorem find?_modifySymbol (f : Forest) (ref : SymbolId) (g : Symbol → Symbol) (s : ScopeId)
    (name : String) : (f.modifySymbol ref g).find? s name = f.find? s name := by
  rw [find?_eq, find?_eq, scope?_modifySymbol]
  split
  · cases f.scope? s <;> rfl
  · rfl

/-- No symbol changes but the one that is meant. -/
theorem symbol?_modifySymbol (f : Forest) (ref ref' : SymbolId) (g : Symbol → Symbol) :
    (f.modifySymbol ref g).symbol? ref' =
      if ref = ref' then (f.symbol? ref').map g else f.symbol? ref' := by
  rw [symbol?_eq, symbol?_eq, scope?_modifySymbol]
  obtain ⟨s, i⟩ := ref
  obtain ⟨s', i'⟩ := ref'
  by_cases sameScope : s = s'
  · subst sameScope
    cases f.scope? s with
    | none => simp
    | some scope =>
      by_cases samePosition : i = i'
      · simp [samePosition, Scope.modify]
      · simp [samePosition, Scope.modify]
  · simp [sameScope]

/-- Changing the symbol that is found under a name changes nothing else. -/
theorem Indexed.named?_modifySymbol (h : f.Indexed) (found : f.find? s name = some ref)
    (g : Symbol → Symbol) (s' : ScopeId) (name' : String) : (f.modifySymbol ref g).named? s' name' =
      if s = s' ∧ name = name' then (f.named? s' name').map g else f.named? s' name' := by
  rw [Forest.named?, Forest.named?, find?_modifySymbol]
  cases found' : f.find? s' name' with
  | none => simp
  | some ref' =>
    have same : ref = ref' ↔ s = s' ∧ name = name' := by
      constructor
      · rintro rfl
        exact h.find?_inj found found'
      · rintro ⟨rfl, rfl⟩
        exact Option.some.inj (found.symm.trans found')
    simp [symbol?_modifySymbol, same]

/-- The index leads to positions, whatever stands there. -/
theorem Indexed.modifySymbol (h : f.Indexed) (ref : SymbolId) (g : Symbol → Symbol) :
    (f.modifySymbol ref g).Indexed := by
  intro s scope there
  rw [scope?_modifySymbol] at there
  split at there
  · obtain ⟨old, was, rfl⟩ := Option.map_eq_some_iff.1 there
    obtain ⟨keys, indexed⟩ := h s old was
    exact ⟨keys, indexed.modify ref.position g⟩
  · exact h s scope there

theorem Titled.modifySymbol (h : f.Titled) (ref : SymbolId) {g : Symbol → Symbol}
    (keeps : ∀ symbol, (g symbol).name = symbol.name) : (f.modifySymbol ref g).Titled := by
  intro s scope there
  rw [scope?_modifySymbol] at there
  split at there
  · obtain ⟨old, was, rfl⟩ := Option.map_eq_some_iff.1 there
    exact (h s old was).modify ref.position keeps
  · exact h s scope there

/-! ## Inserting -/

/-- A pushed symbol is found under its name in its scope. -/
theorem find?_push (there : f.scope? s = some scope) (symbol : Symbol) (s' : ScopeId) (name : String) :
    (f.modifyScope s (·.push symbol)).find? s' name =
      if s = s' ∧ symbol.name = name then some ⟨s, scope.symbols.length⟩ else f.find? s' name := by
  rw [find?_eq, find?_eq, scope?_modifyScope]
  by_cases same : s = s'
  · subst same
    simp only [there, if_true, Option.map_some, Option.bind_some, Scope.position?_push, true_and]
    split <;> rfl
  · simp [same]

/-- A pushed symbol stands at the end of its scope, and all others stay where they are. -/
theorem symbol?_push (there : f.scope? s = some scope) (symbol : Symbol) (ref : SymbolId) :
    (f.modifyScope s (·.push symbol)).symbol? ref =
      if ref = ⟨s, scope.symbols.length⟩ then some symbol else f.symbol? ref := by
  rw [symbol?_eq, symbol?_eq, scope?_modifyScope]
  obtain ⟨s', i⟩ := ref
  by_cases same : s = s'
  · subst same
    simp only [there, if_true, Option.map_some, Option.bind_some, Scope.push, List.getElem?_append,
      SymbolId.mk.injEq, true_and]
    by_cases lt : i < scope.symbols.length
    · simp [lt, Nat.ne_of_lt lt]
    · by_cases last : i = scope.symbols.length
      · simp [last]
      · have beyond : 0 < i - scope.symbols.length := by omega
        simp [lt, last, Nat.ne_of_gt beyond]
  · have other : ¬ s' = s := fun h => same h.symm
    simp [same, other]

/-- The place after the last symbol is free. -/
theorem symbol?_fresh (there : f.scope? s = some scope) : f.symbol? ⟨s, scope.symbols.length⟩ = none := by
  simp [symbol?_eq, there]

/-- A symbol with a name that is free is found under that name, and all others as before. -/
theorem Indexed.named?_push (h : f.Indexed) (there : f.scope? s = some scope) (symbol : Symbol)
    (s' : ScopeId) (name : String) : (f.modifyScope s (·.push symbol)).named? s' name =
      if s = s' ∧ symbol.name = name then some symbol else f.named? s' name := by
  rw [Forest.named?, Forest.named?, find?_push there]
  split
  · rw [Option.bind_some, symbol?_push there, if_pos rfl]
  · cases found : f.find? s' name with
    | none => rfl
    | some ref =>
      obtain ⟨old, is⟩ := h.symbol?_of_find? found
      have other : ref ≠ ⟨s, scope.symbols.length⟩ := by
        rintro rfl
        cases (symbol?_fresh there).symm.trans is
      rw [Option.bind_some, Option.bind_some, symbol?_push there, if_neg other]

theorem not_mem_keys_of_free {keys : List String} (there : f.scope? s = some scope)
    (indexed : scope.Indexed keys) (free : f.find? s name = none) : name ∉ keys := by
  rw [← indexed.position?_eq_none_iff]
  simpa [find?_eq, there] using free

theorem Indexed.push (h : f.Indexed) (free : f.find? s symbol.name = none) :
    (f.modifyScope s (·.push symbol)).Indexed := by
  intro s' scope there
  rw [scope?_modifyScope] at there
  split at there
  next same =>
    subst same
    obtain ⟨old, was, rfl⟩ := Option.map_eq_some_iff.1 there
    obtain ⟨keys, indexed⟩ := h s old was
    exact ⟨_, indexed.push (not_mem_keys_of_free was indexed free)⟩
  next => exact h s' scope there

/-- Pushing a free name keeps the index and the symbols in step. -/
theorem Titled.push (h : f.Titled) (free : f.find? s symbol.name = none) :
    (f.modifyScope s (·.push symbol)).Titled := by
  intro s' scope there
  rw [scope?_modifyScope] at there
  split at there
  next same =>
    subst same
    obtain ⟨old, was, rfl⟩ := Option.map_eq_some_iff.1 there
    exact (h s old was).push (not_mem_keys_of_free was (h s old was) free)
  next => exact h s' scope there

/-- A name that is free is given to the symbol. -/
theorem insert_of_free (there : f.scope? s = some scope) (free : f.find? s symbol.name = none) :
    f.insert s symbol =
      (.inserted ⟨s, scope.symbols.length⟩, f.modifyScope s (·.push symbol)) := by
  rw [insert, free, there]
  rfl

/-- A symbol that was inserted had a free name, and it is found under it. -/
theorem of_insert {f' : Forest} (there : f.scope? s = some scope)
    (h : f.insert s symbol = (.inserted ref, f')) : f.find? s symbol.name = none ∧
      f' = f.modifyScope s (·.push symbol) ∧ f'.find? s symbol.name = some ref ∧
      f'.symbol? ref = some symbol := by
  cases free : f.find? s symbol.name with
  | some existing =>
    rw [insert_of_find? free] at h
    cases h
  | none =>
    rw [insert_of_free there free] at h
    obtain ⟨same, rfl⟩ := Prod.mk.inj h
    obtain rfl := Insertion.inserted.inj same
    exact ⟨rfl, rfl, by rw [find?_push there, if_pos ⟨rfl, rfl⟩], by rw [symbol?_push there, if_pos rfl]⟩

/-! ## Opening a scope -/

/-- A new scope in scope `id`. -/
def opened (f : Forest) (id : ScopeId) (name : String) : Scope :=
  { name, level := ((f.scope? id).map (·.level + 1)).getD 0, parent? := some id }

/-- The new scope is the last. The one around it has it for a child, and all others are as before. -/
theorem scope?_openScope (f : Forest) (id : ScopeId) (name : String) (s : ScopeId) :
    (f.openScope id name).2.scope? s =
      if s = f.scopes.length then some (f.opened id name)
      else if id = s then
        (f.scope? s).map fun scope =>
          { scope with children := (name, f.scopes.length) :: scope.children }
      else f.scope? s := by
  simp only [openScope, scope?, modifyScope, List.getElem?_append, List.length_modify,
    List.getElem?_modify]
  by_cases lt : s < f.scopes.length
  · have ne : s ≠ f.scopes.length := Nat.ne_of_lt lt
    simp only [lt, if_true, ne, if_false]
    split <;> simp
  · have ge : f.scopes.length ≤ s := Nat.le_of_not_lt lt
    by_cases last : s = f.scopes.length
    · simp [last, opened, scope?]
    · have beyond : 0 < s - f.scopes.length := Nat.sub_pos_of_lt (Nat.lt_of_le_of_ne ge (Ne.symm last))
      simp [lt, last, Nat.ne_of_gt beyond]

theorem scope?_length (f : Forest) : f.scope? f.scopes.length = none := by
  simp [scope?]

/-- A scope from before is the same but for its children. -/
theorem of_scope?_openScope {id : ScopeId} (there : (f.openScope id name).2.scope? s = some scope) :
    s = f.scopes.length ∧ scope = f.opened id name ∨ s < f.scopes.length ∧ ∃ old children,
      f.scope? s = some old ∧ scope = { old with children } := by
  rw [scope?_openScope] at there
  split at there
  next new => exact .inl ⟨new, (Option.some.inj there).symm⟩
  next =>
    right
    split at there
    · obtain ⟨old, was, rfl⟩ := Option.map_eq_some_iff.1 there
      exact ⟨lt_of_scope? was, old, _, was, rfl⟩
    · exact ⟨lt_of_scope? there, scope, scope.children, there, rfl⟩

/-- Opening a scope moves no symbol. -/
@[simp] theorem find?_openScope (f : Forest) (id : ScopeId) (name : String) (s : ScopeId)
    (name' : String) : (f.openScope id name).2.find? s name' = f.find? s name' := by
  rw [find?_eq, find?_eq, scope?_openScope]
  by_cases new : s = f.scopes.length
  · simp [new, scope?_length, Scope.position?, opened]
  · rw [if_neg new]
    by_cases same : id = s
    · cases f.scope? s <;> simp [same, Scope.position?]
    · rw [if_neg same]

@[simp] theorem symbol?_openScope (f : Forest) (id : ScopeId) (name : String) (ref : SymbolId) :
    (f.openScope id name).2.symbol? ref = f.symbol? ref := by
  rw [symbol?_eq, symbol?_eq, scope?_openScope]
  by_cases new : ref.scope = f.scopes.length
  · simp [new, scope?_length, opened]
  · rw [if_neg new]
    by_cases same : id = ref.scope
    · cases f.scope? ref.scope <;> simp [same]
    · rw [if_neg same]

theorem named?_openScope (f : Forest) (id : ScopeId) (name : String) (s : ScopeId) (name' : String) :
    (f.openScope id name).2.named? s name' = f.named? s name' := by
  rw [named?, named?, find?_openScope]
  cases f.find? s name' <;> simp

/-- A new scope has no symbols and no names. -/
theorem titled_opened (f : Forest) (id : ScopeId) (name : String) : (f.opened id name).Titled :=
  ⟨rfl, fun _ _ => by simp [opened, Scope.position?]⟩

/-- A new scope has no symbols, so there is nothing to find. -/
theorem Titled.openScope (h : f.Titled) (id : ScopeId) (name : String) :
    (f.openScope id name).2.Titled := by
  intro s scope there
  obtain ⟨-, rfl⟩ | ⟨-, old, children, was, rfl⟩ := of_scope?_openScope there
  · exact f.titled_opened id name
  · exact ⟨(h s old was).length, (h s old was).position⟩

theorem Indexed.openScope (h : f.Indexed) (id : ScopeId) (name : String) :
    (f.openScope id name).2.Indexed := by
  intro s scope there
  obtain ⟨-, rfl⟩ | ⟨-, old, children, was, rfl⟩ := of_scope?_openScope there
  · exact ⟨_, f.titled_opened id name⟩
  · obtain ⟨keys, indexed⟩ := h s old was
    exact ⟨keys, indexed.length, indexed.position⟩

/-! ## Parents and chains -/

/-- The global scope has no parent, and every other scope an older one on the level above. -/
structure Rooted (f : Forest) : Prop where
  root : ∃ scope, f.scope? global = some scope ∧ scope.parent? = none ∧ scope.level = 0
  nested : ∀ s scope, f.scope? s = some scope → s ≠ global → ∃ p outer, scope.parent? = some p ∧ p < s ∧
    f.scope? p = some outer ∧ scope.level = outer.level + 1

/-- Chains are read off the parents. -/
theorem outward_congr {f' : Forest}
    (parents : ∀ s, (f'.scope? s).map (·.parent?) = (f.scope? s).map (·.parent?)) (fuel : Nat)
    (s : ScopeId) : f'.outward fuel s = f.outward fuel s := by
  induction fuel generalizing s with
  | zero => rfl
  | succ fuel ih =>
    have same := parents s
    rw [outward, outward]
    cases there : f.scope? s with
    | none =>
      rw [there, Option.map_none, Option.map_eq_none_iff] at same
      rw [same]
    | some scope =>
      rw [there, Option.map_some, Option.map_eq_some_iff] at same
      obtain ⟨scope', there', parent⟩ := same
      rw [there']
      simp only [parent]
      cases scope.parent? with
      | none => rfl
      | some p => exact congrArg (s :: ·) (ih p)

/-- Chains follow parents, so they stay where parents do. -/
theorem chain_modifyScope (f : Forest) (id : ScopeId) (g : Scope → Scope)
    (keeps : ∀ scope, (g scope).parent? = scope.parent?) (s : ScopeId) :
    (f.modifyScope id g).chain s = f.chain s := by
  rw [chain, chain, length_modifyScope]
  refine outward_congr (fun s' => ?_) _ s
  rw [scope?_modifyScope]
  split
  · cases f.scope? s' <;> simp [keeps]
  · rfl

@[simp] theorem chain_modifySymbol (f : Forest) (ref : SymbolId) (g : Symbol → Symbol) (s : ScopeId) :
    (f.modifySymbol ref g).chain s = f.chain s :=
  f.chain_modifyScope ref.scope (·.modify ref.position g) (fun _ => rfl) s

@[simp] theorem chain_push (f : Forest) (id : ScopeId) (symbol : Symbol) (s : ScopeId) :
    (f.modifyScope id (·.push symbol)).chain s = f.chain s :=
  f.chain_modifyScope id (·.push symbol) (fun _ => rfl) s

/-- Only a known scope has a chain. -/
theorem scope?_of_chain {outer : List ScopeId} (h : f.chain s = s' :: outer) :
    ∃ scope, f.scope? s = some scope := by
  rw [chain] at h
  cases fuel : f.scopes.length with
  | zero =>
    rw [fuel] at h
    cases h
  | succ n =>
    rw [fuel, outward] at h
    cases there : f.scope? s with
    | none => simp [there] at h
    | some scope => exact ⟨scope, rfl⟩

namespace Rooted

/-- A scope is the global one, or it has an older parent. -/
theorem parent_cases (h : f.Rooted) (there : f.scope? s = some scope) :
    s = global ∧ scope.parent? = none ∧ scope.level = 0 ∨ s ≠ global ∧ ∃ p outer,
      scope.parent? = some p ∧ p < s ∧ f.scope? p = some outer ∧ scope.level = outer.level + 1 := by
  by_cases isGlobal : s = global
  · left
    obtain ⟨root, isRoot, parent, level⟩ := h.root
    rw [isGlobal, isRoot] at there
    obtain rfl := Option.some.inj there
    exact ⟨isGlobal, parent, level⟩
  · exact .inr ⟨isGlobal, h.nested s scope there isGlobal⟩

/-- A walk along parents comes to its end within as many scopes as there are up to its start. -/
theorem outward_eq (h : f.Rooted) {fuel fuel' : Nat} (enough : s < fuel) (enough' : s < fuel') :
    f.outward fuel s = f.outward fuel' s := by
  induction fuel generalizing fuel' s with
  | zero => exact absurd enough (Nat.not_lt_zero s)
  | succ fuel ih =>
    cases fuel' with
    | zero => exact absurd enough' (Nat.not_lt_zero s)
    | succ fuel' =>
      rw [outward, outward]
      cases there : f.scope? s with
      | none => rfl
      | some scope =>
        obtain ⟨-, parent, -⟩ | ⟨-, p, -, parent, older, -⟩ := h.parent_cases there
        · simp [parent]
        · simp only [parent, Option.elim_some]
          rw [ih (Nat.lt_of_lt_of_le older (Nat.le_of_lt_succ enough))
            (Nat.lt_of_lt_of_le older (Nat.le_of_lt_succ enough'))]

/-- A scope comes before the chain of its parent. -/
theorem chain_eq (h : f.Rooted) (there : f.scope? s = some scope) :
    f.chain s = s :: scope.parent?.elim [] f.chain := by
  have known := lt_of_scope? there
  rw [chain, h.outward_eq known (Nat.lt_succ_of_lt known), outward, there]
  rfl

theorem chain_global (h : f.Rooted) : f.chain global = [global] := by
  obtain ⟨scope, there, parent, -⟩ := h.root
  rw [h.chain_eq there, parent]
  rfl

/-- What follows a scope in a chain is around it. -/
theorem chain_of_chain (h : f.Rooted) {nearer farther : List ScopeId}
    (chain : f.chain s = nearer ++ s' :: farther) : f.chain s' = s' :: farther := by
  induction nearer generalizing s with
  | nil =>
    obtain ⟨scope, there⟩ := scope?_of_chain chain
    have same : s = s' := by
      rw [h.chain_eq there] at chain
      exact (List.cons.inj chain).1
    rw [← same, chain, same, List.nil_append]
  | cons x nearer ih =>
    obtain ⟨scope, there⟩ := scope?_of_chain chain
    rw [h.chain_eq there, List.cons_append] at chain
    have rest := (List.cons.inj chain).2
    cases parent : scope.parent? with
    | none =>
      rw [parent] at rest
      simp at rest
    | some p =>
      rw [parent] at rest
      exact ih rest

/-- Parents and levels are all that counts. -/
theorem congr (h : f.Rooted) {f' : Forest} (same : ∀ s, (f'.scope? s).map (fun x => (x.parent?, x.level)) =
    (f.scope? s).map fun x => (x.parent?, x.level)) : f'.Rooted := by
  have later (s : ScopeId) (old : Scope) (was : f.scope? s = some old) : ∃ scope,
      f'.scope? s = some scope ∧ scope.parent? = old.parent? ∧ scope.level = old.level := by
    have is := same s
    rw [was, Option.map_some, Option.map_eq_some_iff] at is
    obtain ⟨scope, is, both⟩ := is
    exact ⟨scope, is, Prod.mk.inj both⟩
  constructor
  case root =>
    obtain ⟨old, was, parent, level⟩ := h.root
    obtain ⟨scope, is, sameParent, sameLevel⟩ := later _ old was
    exact ⟨scope, is, sameParent.trans parent, sameLevel.trans level⟩
  case nested =>
    intro s scope is inner
    have before := same s
    rw [is, Option.map_some, eq_comm, Option.map_eq_some_iff] at before
    obtain ⟨old, was, both⟩ := before
    obtain ⟨sameParent, sameLevel⟩ := Prod.mk.inj both
    obtain ⟨p, outer, parent, older, outerIs, level⟩ := h.nested s old was inner
    obtain ⟨outer', outerIs', -, sameOuter⟩ := later p outer outerIs
    exact ⟨p, outer', sameParent ▸ parent, older, outerIs', by rw [← sameLevel, level, sameOuter]⟩

/-- Changes that leave parents and levels alone keep the forest rooted. -/
theorem modifyScope (h : f.Rooted) (id : ScopeId) {g : Scope → Scope}
    (keeps : ∀ scope, (g scope).parent? = scope.parent? ∧ (g scope).level = scope.level) :
    (f.modifyScope id g).Rooted := by
  refine h.congr fun s => ?_
  rw [scope?_modifyScope]
  split
  · cases f.scope? s <;> simp [keeps]
  · rfl

theorem modifySymbol (h : f.Rooted) (ref : SymbolId) (g : Symbol → Symbol) : (f.modifySymbol ref g).Rooted :=
  h.modifyScope ref.scope fun _ => ⟨rfl, rfl⟩

theorem push (h : f.Rooted) (id : ScopeId) (symbol : Symbol) :
    (f.modifyScope id (·.push symbol)).Rooted :=
  h.modifyScope id fun _ => ⟨rfl, rfl⟩

/-- A new scope is younger than its parent and one level below. -/
theorem openScope (h : f.Rooted) {id : ScopeId} (valid : id < f.scopes.length) (name : String) :
    (f.openScope id name).2.Rooted := by
  have kept (s : ScopeId) (old : Scope) (was : f.scope? s = some old) :
      ∃ children, (f.openScope id name).2.scope? s = some { old with children } := by
    rw [scope?_openScope, if_neg (Nat.ne_of_lt (lt_of_scope? was)), was]
    split
    · exact ⟨_, rfl⟩
    · exact ⟨_, rfl⟩
  constructor
  case root =>
    obtain ⟨old, was, parent, level⟩ := h.root
    obtain ⟨children, is⟩ := kept _ old was
    exact ⟨_, is, parent, level⟩
  case nested =>
    intro s scope is inner
    obtain ⟨rfl, rfl⟩ | ⟨-, old, children, was, rfl⟩ := of_scope?_openScope is
    · obtain ⟨outer, outerIs⟩ := scope?_isSome_iff.2 valid
      obtain ⟨children, is'⟩ := kept id outer outerIs
      exact ⟨id, _, rfl, valid, is', by simp [opened, outerIs]⟩
    · obtain ⟨p, outer, parent, older, outerIs, level⟩ := h.nested s old was inner
      obtain ⟨children', is'⟩ := kept p outer outerIs
      exact ⟨p, _, parent, older, is', level⟩

/-- Opening a scope leaves the chains of all others. -/
theorem chain_openScope (h : f.Rooted) {id : ScopeId} (valid : id < f.scopes.length) (name : String)
    (known : s < f.scopes.length) : (f.openScope id name).2.chain s = f.chain s := by
  -- Parents are older, so they are none of the new scopes.
  induction s using Nat.strongRecOn with
  | ind s ih =>
    obtain ⟨scope, there⟩ := scope?_isSome_iff.2 known
    obtain ⟨children, there'⟩ : ∃ children,
        (f.openScope id name).2.scope? s = some { scope with children } := by
      rw [scope?_openScope, if_neg (Nat.ne_of_lt known), there]
      split
      · exact ⟨_, rfl⟩
      · exact ⟨_, rfl⟩
    rw [(h.openScope valid name).chain_eq there', h.chain_eq there]
    obtain ⟨-, parent, -⟩ | ⟨-, p, -, parent, older, -⟩ := h.parent_cases there
    · rw [parent]
      rfl
    · simp only [parent, Option.elim_some]
      rw [ih p older (Nat.lt_trans older known)]

/-- The new scope has the scope it was opened in around it, and all that is around that. -/
theorem chain_openScope_fresh (h : f.Rooted) {id : ScopeId} (valid : id < f.scopes.length)
    (name : String) : (f.openScope id name).2.chain f.scopes.length = f.scopes.length :: f.chain id := by
  have fresh : (f.openScope id name).2.scope? f.scopes.length = some (f.opened id name) := by
    rw [scope?_openScope, if_pos rfl]
  rw [(h.openScope valid name).chain_eq fresh, opened, Option.elim_some, h.chain_openScope valid name valid]

/-- **Looking a name up** is looking in the scope and then from its parent on. -/
theorem lookup_eq (h : f.Rooted) (there : f.scope? s = some scope) (name : String) :
    f.lookup s name = (f.find? s name).or (scope.parent?.bind (f.lookup · name)) := by
  rw [lookup, h.chain_eq there, List.findSome?_cons]
  cases f.find? s name with
  | some ref => rfl
  | none => cases scope.parent? <;> rfl

end Rooted

/-! ## Resolving -/

/-- A name resolves to what is looked up for it. -/
theorem fst_resolve (f : Forest) (s : ScopeId) (name : String) :
    (f.resolve s name).1 = f.lookup s name := by
  rw [resolve]
  cases f.lookup s name <;> rfl

/-- What is found by looking up is found in one of the scopes around. -/
theorem find?_of_lookup (found : f.lookup s name = some ref) : f.find? ref.scope name = some ref := by
  obtain ⟨s', -, is⟩ := List.exists_of_findSome?_eq_some found
  obtain ⟨rfl, -⟩ := of_find? is
  exact is

/-- Counting a use changes the symbol found, and nothing if none is found. -/
theorem resolve_cases (f : Forest) (s : ScopeId) (name : String) :
    f.lookup s name = none ∧ (f.resolve s name).2 = f ∨ ∃ ref, f.lookup s name = some ref ∧
      (f.resolve s name).2 = f.modifySymbol ref fun symbol => { symbol with uses := symbol.uses + 1 } := by
  rw [resolve]
  cases f.lookup s name with
  | none => exact .inl ⟨rfl, rfl⟩
  | some ref => exact .inr ⟨ref, rfl, rfl⟩

@[simp] theorem length_resolve (f : Forest) (s : ScopeId) (name : String) :
    (f.resolve s name).2.scopes.length = f.scopes.length := by
  obtain ⟨-, same⟩ | ⟨ref, -, same⟩ := f.resolve_cases s name <;> rw [same]
  exact length_modifySymbol f ref _

/-- Resolving counts a use, which moves nothing. -/
@[simp] theorem chain_resolve (f : Forest) (s : ScopeId) (name : String) (s' : ScopeId) :
    (f.resolve s name).2.chain s' = f.chain s' := by
  obtain ⟨-, same⟩ | ⟨ref, -, same⟩ := f.resolve_cases s name <;> rw [same]
  exact chain_modifySymbol f ref _ s'

@[simp] theorem find?_resolve (f : Forest) (s : ScopeId) (name : String) (s' : ScopeId) (name' : String) :
    (f.resolve s name).2.find? s' name' = f.find? s' name' := by
  obtain ⟨-, same⟩ | ⟨ref, -, same⟩ := f.resolve_cases s name <;> rw [same]
  exact find?_modifySymbol f ref _ s' name'

theorem Titled.resolve (h : f.Titled) (s : ScopeId) (name : String) : (f.resolve s name).2.Titled := by
  obtain ⟨-, same⟩ | ⟨ref, -, same⟩ := f.resolve_cases s name <;> rw [same]
  · exact h
  · exact h.modifySymbol ref fun _ => rfl

theorem Rooted.resolve (h : f.Rooted) (s : ScopeId) (name : String) : (f.resolve s name).2.Rooted := by
  obtain ⟨-, same⟩ | ⟨ref, -, same⟩ := f.resolve_cases s name <;> rw [same]
  · exact h
  · exact h.modifySymbol ref _

/-! ## At the start -/

/-- The global scope before a program, with the builtin types. -/
theorem scope?_start (s : ScopeId) : start.scope? s = if s = global then start.scopes.head? else none := by
  cases s <;> rfl

theorem rooted_start : start.Rooted where
  root := ⟨_, rfl, rfl, rfl⟩
  nested s scope there inner := by
    rw [scope?_start, if_neg inner] at there
    cases there

theorem titled_start : start.Titled := by
  -- The scope is built by pushing names that differ.
  have pushed (names : List String) (s : Scope) (titled : s.Titled)
      (apart : (s.symbols.map (·.name) ++ names).Nodup) :
      (names.foldl (fun s name => s.push ⟨name, .builtin, none, none, 0⟩) s).Titled := by
    induction names generalizing s with
    | nil => exact titled
    | cons name names ih =>
      refine ih _ (titled.push ?_) ?_
      · intro member
        exact (List.nodup_append.1 apart).2.2 name member name List.mem_cons_self rfl
      · simpa [Scope.push] using apart
  intro s scope there
  rw [scope?_start] at there
  split at there
  · obtain rfl := Option.some.inj there
    exact pushed builtinTypes { name := "global" } ⟨rfl, fun _ _ => by simp [Scope.position?]⟩ (by decide)
  · cases there

end Forest

end Pascalize
