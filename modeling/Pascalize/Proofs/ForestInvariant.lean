import Pascalize.Proofs.ForestHistory

/-!
# The invariant of a forest

What the users of a forest rely on, in terms of what was done to it: its scopes form a tree whose parents
are older than their children and one level up, the index of a scope is a bijection between the names that
were inserted and the positions, the maps from names to scopes lead to the latest, a name that was taken
stays with its first symbol, a place once given out is of the same symbol for ever, counting a use changes
the one symbol, and the search for a name along the parents comes to an end, at the nearest scope that the
name was inserted into. `Sound` collects these, and `sound_run` says that they hold after every sequence of
operations.
-/

namespace Pascalize

namespace Forest

variable {f : Forest} {s : ScopeId} {name : String} {ref : SymbolId} {symbol : Symbol}
  {history : List Operation}

/-! ## Places over time -/

theorem symbol?_resolve (f : Forest) (s : ScopeId) (name : String) (ref : SymbolId) :
    (f.resolve s name).2.symbol? ref = (f.symbol? ref).map fun symbol =>
      if f.lookup s name = some ref then { symbol with uses := symbol.uses + 1 } else symbol := by
  obtain ⟨none, same⟩ | ⟨used, found, same⟩ := f.resolve_cases s name <;> rw [same]
  · simp [none]
  · simp only [found, symbol?_modifySymbol, Option.some.injEq]
    split <;> simp

/-- Whether an operation counts a use of the symbol at a place. -/
def Operation.resolvesTo (f : Forest) (ref : SymbolId) : Operation → Bool
  | .resolve s name => f.lookup s name = some ref
  | _ => false

/-- What an operation does to the symbol at a place. -/
def Operation.effect (f : Forest) (ref : SymbolId) (symbol : Symbol) : Operation → Symbol
  | .insert _ _ | .openScope _ _ => symbol
  | op@(.resolve _ _) => if op.resolvesTo f ref then { symbol with uses := symbol.uses + 1 } else symbol
  | .setRole ref' role => if ref' = ref then { symbol with role } else symbol
  | .rename ref' name => if ref' = ref then { symbol with name } else symbol

/-- What operations in turn do to the symbol at a place. -/
def effects (f : Forest) (ref : SymbolId) (symbol : Symbol) : List Operation → Symbol
  | [] => symbol
  | op :: rest => (f.apply op).effects ref (op.effect f ref symbol) rest

/-- How often operations in turn count a use of the symbol at a place. -/
def resolutions (f : Forest) (ref : SymbolId) : List Operation → Nat
  | [] => 0
  | op :: rest => (op.resolvesTo f ref).toNat + (f.apply op).resolutions ref rest

/-- A place stays with its symbol, which the operation changes as it says. -/
theorem symbol?_apply (is : f.symbol? ref = some symbol) (op : Operation) :
    (f.apply op).symbol? ref = some (op.effect f ref symbol) := by
  cases op with
  | insert s new =>
    show (f.insert s new).2.symbol? ref = some symbol
    cases found : f.find? s new.name with
    | some existing =>
      rw [insert_of_find? found]
      exact is
    | none =>
      cases there : f.scope? s with
      | none =>
        -- there is no such scope, and nothing happens
        have other : s ≠ ref.scope := by
          rintro rfl
          simp [symbol?_eq, there] at is
        simp only [insert, found]
        rw [symbol?_eq, scope?_modifyScope, if_neg other, ← symbol?_eq, is]
      | some scope =>
        have other : ref ≠ ⟨s, scope.symbols.length⟩ := by
          rintro rfl
          cases (symbol?_fresh there).symm.trans is
        rw [insert_of_free there found, symbol?_push there, if_neg other, is]
  | openScope s name =>
    show (f.openScope s name).2.symbol? ref = some symbol
    rw [symbol?_openScope, is]
  | resolve s name =>
    show (f.resolve s name).2.symbol? ref = _
    rw [symbol?_resolve, is, Option.map_some]
    simp only [Operation.effect, Operation.resolvesTo, decide_eq_true_eq]
  | setRole ref' role | rename ref' name =>
    show (f.modifySymbol ref' _).symbol? ref = _
    rw [symbol?_modifySymbol, is, Operation.effect]
    split <;> rfl

theorem symbol?_run (is : f.symbol? ref = some symbol) (later : List Operation) :
    (f.run later).symbol? ref = some (f.effects ref symbol later) := by
  induction later generalizing f symbol with
  | nil => exact is
  | cons op rest ih => exact ih (symbol?_apply is op)

/-- A name that was given stays with its place. -/
theorem find?_apply (found : f.find? s name = some ref) (op : Operation) :
    (f.apply op).find? s name = some ref := by
  cases op with
  | insert s' new =>
    show (f.insert s' new).2.find? s name = some ref
    cases free : f.find? s' new.name with
    | some existing =>
      rw [insert_of_find? free]
      exact found
    | none =>
      have other : ¬ (s' = s ∧ new.name = name) := by
        rintro ⟨rfl, rfl⟩
        cases free.symm.trans found
      cases there : f.scope? s' with
      | none =>
        have elsewhere : s' ≠ s := by
          rintro rfl
          simp [find?_eq, there] at found
        simp only [insert, free]
        rw [find?_eq, scope?_modifyScope, if_neg elsewhere, ← find?_eq, found]
      | some scope => rw [insert_of_free there free, find?_push there, if_neg other, found]
  | openScope s' name' => exact (find?_openScope f s' name' s name).trans found
  | resolve s' name' => exact (find?_resolve f s' name' s name).trans found
  | setRole ref' role | rename ref' name' => exact (find?_modifySymbol f ref' _ s name).trans found

theorem find?_run (found : f.find? s name = some ref) (later : List Operation) :
    (f.run later).find? s name = some ref := by
  induction later generalizing f with
  | nil => exact found
  | cons op rest ih => exact ih (find?_apply found op)

theorem uses_effect (f : Forest) (ref : SymbolId) (symbol : Symbol) (op : Operation) :
    (op.effect f ref symbol).uses = symbol.uses + .ofNat (op.resolvesTo f ref).toNat := by
  cases op with
  | resolve s name =>
    rw [Operation.effect]
    cases is : Operation.resolvesTo f ref (.resolve s name) <;> simp
  | insert | openScope => simp [Operation.effect, Operation.resolvesTo]
  | setRole | rename =>
    rw [Operation.effect]
    split <;> simp [Operation.resolvesTo]

/-- Uses are counted in 32 bits. -/
theorem uses_effects (f : Forest) (ref : SymbolId) (symbol : Symbol) (later : List Operation) :
    (f.effects ref symbol later).uses.toNat =
      (symbol.uses.toNat + f.resolutions ref later) % UInt32.size := by
  have counted : (f.effects ref symbol later).uses = symbol.uses + .ofNat (f.resolutions ref later) := by
    induction later generalizing f symbol with
    | nil => simp [effects, resolutions]
    | cons op rest ih => rw [effects, ih, uses_effect, resolutions, UInt32.ofNat_add, UInt32.add_assoc]
  rw [counted, UInt32.toNat_add, UInt32.toNat_ofNat']
  exact Nat.add_mod_mod _ _ _

/-! ## Latest scopes -/

/-- Looking a name up among openings, latest first, finds the last that has it. -/
theorem lookup_latest (opened : List Opening) (name : String) :
    ((opened.map fun o => (o.name, o.id)).reverse).lookup name =
      ((opened.filter (·.name = name)).getLast?).map (·.id) := by
  rw [List.getLast?_eq_head?_reverse, ← List.filter_reverse, ← List.map_reverse]
  induction opened.reverse with
  | nil => rfl
  | cons o rest ih =>
    rw [List.map_cons, List.lookup_cons, List.filter_cons]
    by_cases same : o.name = name
    · simp [same]
    · have other : (name == o.name) = false := by simpa using Ne.symm same
      simp [same, other, ih]

/-- The scopes that were opened are numbered from one on. -/
theorem id_of_openings {i : Nat} {o : Opening} (h : (openings history)[i]? = some o) : o.id = i + 1 := by
  unfold openings at h
  rw [List.getElem?_map, Option.map_eq_some_iff] at h
  obtain ⟨⟨x, j⟩, is, rfl⟩ := h
  rw [List.getElem?_zipIdx, Option.map_eq_some_iff] at is
  obtain ⟨y, -, same⟩ := is
  obtain ⟨rfl, rfl⟩ := Prod.mk.inj same
  show 0 + i + 1 = i + 1
  omega

/-! ## The search for a name -/

/-- A search for a name that comes to an end: it looks into one scope after another, outwards along the
parents, until it finds the name or there is no parent. -/
inductive Seeks (f : Forest) (name : String) : ScopeId → Option SymbolId → Prop
  | here {s : ScopeId} {ref : SymbolId} (found : f.find? s name = some ref) : Seeks f name s (some ref)
  | outward {s p : ScopeId} {scope : Scope} {found : Option SymbolId} (absent : f.find? s name = none)
      (there : f.scope? s = some scope) (parent : scope.parent? = some p) (outer : Seeks f name p found) :
      Seeks f name s found
  | nowhere {s : ScopeId} {scope : Scope} (absent : f.find? s name = none)
      (there : f.scope? s = some scope) (parent : scope.parent? = none) : Seeks f name s none

/-- From a scope of the forest the search comes to an end, and finds what looking up gives. -/
theorem Rooted.lookup_iff (h : f.Rooted) (valid : s < f.scopes.length) (name : String)
    (found : Option SymbolId) : f.lookup s name = found ↔ Seeks f name s found := by
  constructor
  · rintro rfl
    -- parents are older, so this comes to an end at the global scope
    induction s using Nat.strongRecOn with
    | ind s ih =>
      obtain ⟨scope, there⟩ := scope?_isSome_iff.2 valid
      rw [h.lookup_eq there]
      cases absent : f.find? s name with
      | some ref => exact .here absent
      | none =>
        obtain ⟨-, parent, -⟩ | ⟨-, p, outer, parent, older, -⟩ := h.parent_cases there
        · rw [parent]
          exact .nowhere absent there parent
        · rw [parent]
          exact .outward absent there parent (ih p older (Nat.lt_trans older valid))
  · intro seeks
    clear valid
    induction seeks with
    | here found =>
      obtain ⟨-, scope, there, -⟩ := of_find? found
      rw [h.lookup_eq there, found]
      rfl
    | outward absent there parent _ ih =>
      rw [h.lookup_eq there, absent, parent]
      exact ih
    | nowhere absent there parent =>
      rw [h.lookup_eq there, absent, parent]
      rfl

/-- What a name stands for in scope `s`: the symbol that was first inserted by it there, else what it
stands for in the scope around. -/
inductive Nearest (history : List Operation) (f : Forest) (name : String) :
    ScopeId → Option SymbolId → Prop
  | here {s : ScopeId} {ref : SymbolId} (given : GivenOut history s name ref) :
      Nearest history f name s (some ref)
  | outward {s p : ScopeId} {scope : Scope} {found : Option SymbolId} (absent : name ∉ insertedInto history s)
      (there : f.scope? s = some scope) (parent : scope.parent? = some p)
      (outer : Nearest history f name p found) : Nearest history f name s found
  | nowhere {s : ScopeId} {scope : Scope} (absent : name ∉ insertedInto history s)
      (there : f.scope? s = some scope) (parent : scope.parent? = none) : Nearest history f name s none

/-! ## The invariant -/

/-- What holds of a forest that a history has led to. -/
structure Sound (history : List Operation) (f : Forest) : Prop where
  root : ∃ scope, f.scope? global = some scope ∧ scope.parent? = none ∧ scope.level = 0
  parents : ∀ s scope, f.scope? s = some scope → s ≠ global → ∃ p outer, scope.parent? = some p ∧ p < s ∧
    f.scope? p = some outer ∧ scope.level = outer.level + 1
  /-- The openings are the scopes but the global one. -/
  opened : ∀ s p name, ⟨s, p, name⟩ ∈ openings history ↔
    ∃ scope, f.scope? s = some scope ∧ scope.parent? = some p ∧ scope.name = name
  child : ∀ p name, f.child? p name =
    (((openings history).filter fun o => o.parent = p ∧ o.name = name).getLast?).map (·.id)
  function : ∀ name, f.scopeNamed? name = (((openings history).filter (·.name = name)).getLast?).map (·.id)
  /-- The index has the names that were inserted. -/
  names : ∀ s scope, f.scope? s = some scope → ∀ name,
    name ∈ insertedInto history s ↔ ∃ i, scope.position? name = some i
  /-- The index leads to every position. -/
  positions : ∀ s scope, f.scope? s = some scope → ∀ i,
    i < scope.symbols.length ↔ ∃ name, scope.position? name = some i
  /-- The index leads to a position from one name only. -/
  apart : ∀ s scope, f.scope? s = some scope → ∀ name name' i,
    scope.position? name = some i → scope.position? name' = some i → name = name'
  clash : ∀ s symbol, symbol.name ∈ insertedInto history s →
    ∃ first, GivenOut history s symbol.name first ∧ f.insert s symbol = (.clash first, f)
  fresh : ∀ s symbol, s < f.scopes.length → symbol.name ∉ insertedInto history s → ∃ ref f',
    f.insert s symbol = (.inserted ref, f') ∧ f.symbol? ref = none ∧ f'.symbol? ref = some symbol ∧
      f'.find? s symbol.name = some ref
  given : ∀ s name ref, GivenOut history s name ref →
    ref.scope = s ∧ f.find? s name = some ref ∧ ∃ symbol, f.symbol? ref = some symbol
  /-- A place is of the same symbol for ever, which is changed by what is done to it only. -/
  lasting : ∀ later ref symbol, f.symbol? ref = some symbol →
    (f.run later).symbol? ref = some (f.effects ref symbol later)
  /-- A name leads to the same place for ever. -/
  leading : ∀ later s name ref, f.find? s name = some ref → (f.run later).find? s name = some ref
  /-- Counting a use adds one, in 32 bits, to the uses of the symbol found. -/
  resolve : ∀ s name, (f.resolve s name).1 = f.lookup s name ∧
    ∀ ref, (f.resolve s name).2.symbol? ref = (f.symbol? ref).map fun symbol =>
      if f.lookup s name = some ref then { symbol with uses := symbol.uses + 1 } else symbol
  /-- Counting a use changes nothing else. -/
  resolve_frame : ∀ s name, (f.resolve s name).2.scopes.length = f.scopes.length ∧
    (f.resolve s name).2.functions = f.functions ∧ ∀ s', (f.resolve s name).2.frame? s' = f.frame? s'
  /-- The uses that are counted show in the symbol, as far as 32 bits do. -/
  counted : ∀ later ref symbol, f.symbol? ref = some symbol → ∃ symbol',
    (f.run later).symbol? ref = some symbol' ∧
      symbol'.uses.toNat = (symbol.uses.toNat + f.resolutions ref later) % UInt32.size
  /-- Looking a name up is a search that comes to an end. -/
  ends : ∀ s name found, s < f.scopes.length → (f.lookup s name = found ↔ Seeks f name s found)
  lookup : ∀ s name found, s < f.scopes.length → (f.lookup s name = found ↔ Nearest history f name s found)

namespace Traces

/-- Every scope but the global one was opened. -/
theorem opening (h : Traces history f) (valid : s < f.scopes.length) (inner : s ≠ global) :
    ∃ o ∈ openings history, o.id = s := by
  have positive : 0 < s := Nat.pos_of_ne_zero inner
  have bound : s - 1 < (openings history).length := by
    rw [h.count] at valid
    exact Nat.sub_lt_right_of_lt_add positive valid
  obtain ⟨o, is⟩ : ∃ o, (openings history)[s - 1]? = some o := ⟨_, List.getElem?_eq_getElem bound⟩
  exact ⟨o, List.mem_of_getElem? is, (id_of_openings is).trans (Nat.sub_add_cancel positive)⟩

/-- A scope that has a parent was opened in it. -/
theorem opened_iff (h : Traces history f) {p : ScopeId} : ⟨s, p, name⟩ ∈ openings history ↔
    ∃ scope, f.scope? s = some scope ∧ scope.parent? = some p ∧ scope.name = name := by
  constructor
  · intro member
    obtain ⟨scope, there, named, parent⟩ := h.nested _ member
    exact ⟨scope, there, parent, named⟩
  · rintro ⟨scope, there, parent, rfl⟩
    have inner : s ≠ global := by
      rintro rfl
      obtain ⟨root, isRoot, none, -⟩ := h.rooted.root
      obtain rfl := Option.some.inj (isRoot.symm.trans there)
      cases none.symm.trans parent
    obtain ⟨⟨_, p', name'⟩, member, rfl⟩ := h.opening (lt_of_scope? there) inner
    obtain ⟨scope', there', named, parent'⟩ := h.nested _ member
    obtain rfl := Option.some.inj (there.symm.trans there')
    obtain rfl := Option.some.inj (parent.symm.trans parent')
    exact named ▸ member

theorem child? (h : Traces history f) (p : ScopeId) (name : String) : f.child? p name =
    (((openings history).filter fun o => o.parent = p ∧ o.name = name).getLast?).map (·.id) := by
  have both : ((openings history).filter fun o => o.parent = p ∧ o.name = name) =
      ((openings history).filter (·.parent = p)).filter (·.name = name) := by
    rw [List.filter_filter]
    simp [Bool.and_comm]
  rw [both, ← lookup_latest, Forest.child?]
  cases there : f.scope? p with
  | some scope =>
    rw [← h.children p scope there]
    rfl
  | none =>
    rw [h.filter_openings there]
    rfl

theorem nearest_iff (h : Traces history f) (found : Option SymbolId) :
    Seeks f name s found ↔ Nearest history f name s found := by
  constructor
  · intro seeks
    induction seeks with
    | here found => exact .here ((h.found _ name _).1 found)
    | outward absent there parent _ ih => exact .outward (h.find?_eq_none_iff.1 absent) there parent ih
    | nowhere absent there parent => exact .nowhere (h.find?_eq_none_iff.1 absent) there parent
  · intro nearest
    induction nearest with
    | here given => exact .here ((h.found _ name _).2 given)
    | outward absent there parent _ ih => exact .outward (h.find?_eq_none_iff.2 absent) there parent ih
    | nowhere absent there parent => exact .nowhere (h.find?_eq_none_iff.2 absent) there parent

/-- The index of a scope has the names that can be found in it. -/
theorem position?_iff (h : Traces history f) {scope : Scope} (there : f.scope? s = some scope)
    (name : String) : name ∈ insertedInto history s ↔ ∃ i, scope.position? name = some i := by
  rw [h.inserted, find?_eq, there, ← Option.isSome_iff_exists, Option.isSome_map,
    Option.isSome_iff_exists]
  rfl

theorem clash (h : Traces history f) {symbol : Symbol} (taken : symbol.name ∈ insertedInto history s) :
    ∃ first, GivenOut history s symbol.name first ∧ f.insert s symbol = (.clash first, f) := by
  obtain ⟨first, found⟩ := (h.inserted s symbol.name).1 taken
  exact ⟨first, (h.found s symbol.name first).1 found, insert_of_find? found⟩

theorem fresh (h : Traces history f) {symbol : Symbol} (valid : s < f.scopes.length)
    (absent : symbol.name ∉ insertedInto history s) : ∃ ref f', f.insert s symbol = (.inserted ref, f') ∧
      f.symbol? ref = none ∧ f'.symbol? ref = some symbol ∧ f'.find? s symbol.name = some ref := by
  obtain ⟨scope, there⟩ := scope?_isSome_iff.2 valid
  have inserts := insert_of_free there (h.find?_eq_none_iff.2 absent)
  obtain ⟨-, -, found, is⟩ := of_insert there inserts
  exact ⟨_, _, inserts, symbol?_fresh there, is, found⟩

theorem given (h : Traces history f) (given : GivenOut history s name ref) :
    ref.scope = s ∧ f.find? s name = some ref ∧ ∃ symbol, f.symbol? ref = some symbol := by
  have found := (h.found s name ref).2 given
  exact ⟨(of_find? found).1, found, h.indexed.symbol?_of_find? found⟩

end Traces

/-- **The invariant of a forest**: after every sequence of operations on scopes and symbols that there are,
the tables of the forest agree with what was done. -/
theorem sound_run (fits : start.FitsAll history) : Sound history (start.run history) := by
  have h := traces_run fits
  constructor
  case root => exact h.rooted.root
  case parents => exact h.rooted.nested
  case opened =>
    intro s p name
    exact h.opened_iff
  case child => exact h.child?
  case function =>
    intro name
    rw [scopeNamed?, h.functions, lookup_latest]
  case names =>
    intro s scope there
    exact h.position?_iff there
  case positions =>
    intro s scope there i
    obtain ⟨keys, indexed⟩ := h.indexed s scope there
    constructor
    · intro lt
      rw [← indexed.length] at lt
      exact ⟨_, (indexed.position _ i).2 (List.getElem?_eq_getElem lt)⟩
    · rintro ⟨name, position⟩
      exact indexed.lt position
  case apart =>
    intro s scope there name name' i position position'
    obtain ⟨keys, indexed⟩ := h.indexed s scope there
    exact indexed.inj position position'
  case clash =>
    intro s symbol taken
    exact h.clash taken
  case fresh =>
    intro s symbol valid absent
    exact h.fresh valid absent
  case given =>
    intro s name ref given
    exact h.given given
  case lasting =>
    intro later ref symbol is
    exact symbol?_run is later
  case leading =>
    intro later s name ref found
    exact find?_run found later
  case resolve =>
    intro s name
    exact ⟨fst_resolve _ s name, symbol?_resolve _ s name⟩
  case resolve_frame =>
    intro s name
    exact ⟨length_resolve _ s name, functions_resolve _ s name, frame?_resolve _ s name⟩
  case counted =>
    intro later ref symbol is
    exact ⟨_, symbol?_run is later, uses_effects _ ref symbol later⟩
  case ends =>
    intro s name found valid
    exact h.rooted.lookup_iff valid name found
  case lookup =>
    intro s name found valid
    rw [h.rooted.lookup_iff valid, h.nearest_iff]

/-- A function with a variable that is declared twice and gets another name, then a function of the
same name, and one inside the first that uses the variable. -/
def redefinition : List Operation :=
  [.openScope global "f", .insert 1 { name := "x", role := .var },
    .insert 1 { name := "x", role := .parameter }, .rename ⟨1, 0⟩ "y", .openScope global "f",
    .openScope 1 "g", .resolve 3 "x"]

/-- The name `x` leads from the inner function to the variable under its new name, and `f` to the later of
the two functions. -/
theorem sound_redefinition : start.FitsAll redefinition ∧ Sound redefinition (start.run redefinition) ∧
    (start.run redefinition).child? global "f" = some 2 ∧
    (start.run redefinition).lookup 3 "x" = some ⟨1, 0⟩ ∧
    (start.run redefinition).symbol? ⟨1, 0⟩ = some { name := "y", role := .var, uses := 1 } :=
  have fits : start.FitsAll redefinition := by decide
  ⟨fits, sound_run fits, by decide, by decide, by decide⟩

end Forest

end Pascalize
