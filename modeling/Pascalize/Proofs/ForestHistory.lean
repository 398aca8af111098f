import Pascalize.Proofs.ForestLaws

/-!
# Histories of a forest

A forest is changed by inserting symbols, opening scopes, counting uses, and assigning to the role or
the name of a symbol. Whatever is done in whatever order, the history alone tells which scopes there
are, where they stand and which of them a name leads to, and which symbol a name finds. `Traces` says so
of the tables; one operation keeps it (`Traces.apply`), so every run does (`traces_run`).

Renaming a symbol changes no table: it is still found under the name it was inserted by.
-/

namespace Pascalize

namespace Forest

/-- What can be done to a forest. -/
inductive Operation where
  | insert (scope : ScopeId) (symbol : Symbol)
  | openScope (scope : ScopeId) (name : String)
  | resolve (scope : ScopeId) (name : String)
  | setRole (ref : SymbolId) (role : Role)
  | rename (ref : SymbolId) (name : String)
deriving DecidableEq, Repr

/-- The forest after an operation. -/
def apply (f : Forest) : Operation → Forest
  | .insert s symbol => (f.insert s symbol).2
  | .openScope s name => (f.openScope s name).2
  | .resolve s name => (f.resolve s name).2
  | .setRole ref role => f.modifySymbol ref fun symbol => { symbol with role }
  | .rename ref name => f.modifySymbol ref fun symbol => { symbol with name }

/-- The forest after operations in turn. -/
def run (f : Forest) (history : List Operation) : Forest :=
  history.foldl apply f

/-- The scope or symbol that an operation is given is one of the forest. -/
def Fits (f : Forest) : Operation → Prop
  | .insert s _ | .openScope s _ | .resolve s _ => s < f.scopes.length
  | .setRole ref _ | .rename ref _ => (f.symbol? ref).isSome = true

/-- Every operation in turn is given a scope or symbol of the forest at that time. -/
def FitsAll (f : Forest) : List Operation → Prop
  | [] => True
  | op :: rest => f.Fits op ∧ (f.apply op).FitsAll rest

instance (f : Forest) : (op : Operation) → Decidable (f.Fits op)
  | .insert s _ | .openScope s _ | .resolve s _ => inferInstanceAs (Decidable (s < f.scopes.length))
  | .setRole ref _ | .rename ref _ => inferInstanceAs (Decidable ((f.symbol? ref).isSome = true))

instance decidableFitsAll (f : Forest) : (history : List Operation) → Decidable (f.FitsAll history)
  | [] => inferInstanceAs (Decidable True)
  | op :: rest =>
    have := decidableFitsAll (f.apply op) rest
    inferInstanceAs (Decidable (f.Fits op ∧ (f.apply op).FitsAll rest))

theorem run_append (f : Forest) (before after : List Operation) :
    f.run (before ++ after) = (f.run before).run after :=
  List.foldl_append

theorem run_concat (f : Forest) (history : List Operation) (op : Operation) :
    f.run (history ++ [op]) = (f.run history).apply op := by
  rw [run_append]
  rfl

/-! ## What a history tells -/

/-- A scope that was opened, where and by what name. -/
structure Opening where
  id : ScopeId
  parent : ScopeId
  name : String
deriving DecidableEq, Repr

/-- The name that an operation inserts into scope `s`. -/
def Operation.insertsInto? (s : ScopeId) : Operation → Option String
  | .insert s' symbol => if s' = s then some symbol.name else none
  | _ => none

/-- The scope that an operation opens: where and by what name. -/
def Operation.opens? : Operation → Option (ScopeId × String)
  | .openScope s name => some (s, name)
  | _ => none

/-- The names that symbols were inserted into scope `s` by, the types that need no declaration first. -/
def insertedInto (history : List Operation) (s : ScopeId) : List String :=
  (if s = global then builtinTypes else []) ++ history.filterMap (·.insertsInto? s)

/-- The scopes that were opened, in the order of their creation. The global scope is not opened. -/
def openings (history : List Operation) : List Opening :=
  (history.filterMap (·.opens?)).zipIdx.map fun x => ⟨x.2 + 1, x.1.1, x.1.2⟩

/-- The first insertion of `name` into scope `s` gave `ref`. -/
inductive GivenOut (history : List Operation) (s : ScopeId) (name : String) (ref : SymbolId) : Prop
  | builtin (found : start.find? s name = some ref)
  | insertion {before after : List Operation} {symbol : Symbol}
      (step : history = before ++ .insert s symbol :: after) (named : symbol.name = name)
      (first : name ∉ insertedInto before s)
      (given : ((start.run before).insert s symbol).1 = .inserted ref)

/-- An operation that opens a scope gives it the next number. -/
theorem openings_concat (history : List Operation) (op : Operation) :
    openings (history ++ [op]) = openings history ++
      (op.opens?.map fun x => ⟨(openings history).length + 1, x.1, x.2⟩).toList := by
  unfold openings
  rw [List.filterMap_append, List.zipIdx_append, List.map_append]
  cases new : op.opens? with
  | none => simp [new]
  | some x => simp [new]

/-- The names of a scope are listed in the order they were inserted. -/
theorem insertedInto_concat (history : List Operation) (op : Operation) (s : ScopeId) :
    insertedInto (history ++ [op]) s = insertedInto history s ++ (op.insertsInto? s).toList := by
  unfold insertedInto
  rw [List.filterMap_append, List.append_assoc]
  cases new : op.insertsInto? s <;> simp [new]

/-- An answer that was given stays one that was given. -/
theorem GivenOut.concat {history : List Operation} {s : ScopeId} {name : String} {ref : SymbolId}
    (h : GivenOut history s name ref) (op : Operation) : GivenOut (history ++ [op]) s name ref := by
  cases h with
  | builtin found => exact .builtin found
  | @insertion before after symbol step named first given =>
    have step' : history ++ [op] = before ++ .insert s symbol :: (after ++ [op]) := by
      rw [step]
      simp
    exact .insertion step' named first given

/-- What was given out was so by the last operation or before it. -/
theorem GivenOut.of_concat {history : List Operation} {op : Operation} {s : ScopeId} {name : String}
    {ref : SymbolId} (h : GivenOut (history ++ [op]) s name ref) : GivenOut history s name ref ∨
      ∃ symbol, op = .insert s symbol ∧ symbol.name = name ∧
        ((start.run history).insert s symbol).1 = .inserted ref := by
  cases h with
  | builtin found => exact .inl (.builtin found)
  | @insertion before after symbol step named first given =>
    rcases List.eq_nil_or_concat after with rfl | ⟨after, last, rfl⟩
    · obtain ⟨rfl, same⟩ := List.append_inj' step rfl
      right
      exact ⟨symbol, (List.cons.inj same).1, named, given⟩
    · left
      rw [List.concat_eq_append, ← List.cons_append, ← List.append_assoc] at step
      exact .insertion (List.append_inj' step rfl).1 named first given

/-! ## Frames -/

/-- A scope without its symbols. -/
def frame? (f : Forest) (s : ScopeId) : Option Scope :=
  (f.scope? s).map fun scope => { scope with symbols := [] }

variable {f : Forest} {s : ScopeId} {name : String} {ref : SymbolId}

/-- Changing a symbol is not seen in the frame of its scope. -/
theorem frame?_modifySymbol (f : Forest) (ref : SymbolId) (g : Symbol → Symbol) (s : ScopeId) :
    (f.modifySymbol ref g).frame? s = f.frame? s := by
  rw [frame?, frame?, scope?_modifySymbol]
  split
  · rw [Option.map_map]
    rfl
  · rfl

theorem frame?_resolve (f : Forest) (s : ScopeId) (name : String) (s' : ScopeId) :
    (f.resolve s name).2.frame? s' = f.frame? s' := by
  obtain ⟨-, same⟩ | ⟨ref, -, same⟩ := f.resolve_cases s name <;> rw [same]
  exact frame?_modifySymbol f ref _ s'

theorem functions_resolve (f : Forest) (s : ScopeId) (name : String) :
    (f.resolve s name).2.functions = f.functions := by
  obtain ⟨-, same⟩ | ⟨ref, -, same⟩ := f.resolve_cases s name <;> rw [same]
  rfl

theorem Indexed.resolve (h : f.Indexed) (s : ScopeId) (name : String) : (f.resolve s name).2.Indexed := by
  obtain ⟨-, same⟩ | ⟨ref, -, same⟩ := f.resolve_cases s name <;> rw [same]
  · exact h
  · exact h.modifySymbol ref _

/-- Where the frame is the same, the scope is, but for its symbols. -/
theorem scope?_of_frame? {f' : Forest} {scope : Scope} (same : f'.frame? s = f.frame? s)
    (there : f'.scope? s = some scope) : ∃ symbols, f.scope? s = some { scope with symbols } := by
  rw [frame?, frame?, there, Option.map_some, eq_comm, Option.map_eq_some_iff] at same
  obtain ⟨old, was, both⟩ := same
  obtain ⟨⟩ := old
  cases both
  exact ⟨_, was⟩

/-- Which names a scope has is seen from its frame. -/
theorem find?_of_frame? {f' : Forest} (same : f'.frame? s = f.frame? s) (name : String) :
    f'.find? s name = f.find? s name := by
  have position (f : Forest) : (f.scope? s).bind (·.position? name) =
      (f.frame? s).bind (·.position? name) := by
    rw [frame?]
    cases f.scope? s <;> rfl
  rw [find?_eq, find?_eq, position, position, same]

/-! ## Histories and tables -/

/-- The tables of a forest are those that a history leads to. -/
structure Traces (history : List Operation) (f : Forest) : Prop where
  run : f = start.run history
  count : f.scopes.length = (openings history).length + 1
  rooted : f.Rooted
  /-- A scope that was opened has its name, and the scope that it was opened in as its parent. -/
  nested : ∀ o ∈ openings history, ∃ scope, f.scope? o.id = some scope ∧ scope.name = o.name ∧
    scope.parent? = some o.parent
  /-- The scopes opened in a scope, latest first. -/
  children : ∀ s scope, f.scope? s = some scope → scope.children =
    (((openings history).filter (·.parent = s)).map fun o => (o.name, o.id)).reverse
  functions : f.functions = ((openings history).map fun o => (o.name, o.id)).reverse
  indexed : f.Indexed
  inserted : ∀ s name, name ∈ insertedInto history s ↔ ∃ ref, f.find? s name = some ref
  found : ∀ s name ref, f.find? s name = some ref ↔ GivenOut history s name ref

namespace Traces

variable {history : List Operation} {op : Operation}

/-- A name is free exactly if it was never inserted. -/
theorem find?_eq_none_iff (h : Traces history f) : f.find? s name = none ↔ name ∉ insertedInto history s := by
  rw [h.inserted, ← Option.ne_none_iff_exists', Decidable.not_not]

/-- A scope that was opened is younger than its parent. -/
theorem parent_lt (h : Traces history f) {o : Opening} (member : o ∈ openings history) :
    o.parent < o.id ∧ o.id < f.scopes.length := by
  obtain ⟨scope, there, -, parent⟩ := h.nested o member
  obtain ⟨-, none, -⟩ | ⟨-, p, -, is, older, -⟩ := h.rooted.parent_cases there
  · cases parent.symm.trans none
  · obtain rfl := Option.some.inj (parent.symm.trans is)
    exact ⟨older, lt_of_scope? there⟩

/-- Nothing was opened in a scope that there is not. -/
theorem filter_openings (h : Traces history f) (absent : f.scope? s = none) :
    (openings history).filter (·.parent = s) = [] := by
  rw [List.filter_eq_nil_iff]
  intro o member same
  obtain ⟨older, known⟩ := h.parent_lt member
  rw [of_decide_eq_true same] at older
  obtain ⟨scope, is⟩ := scope?_isSome_iff.2 (Nat.lt_trans older known)
  cases absent.symm.trans is

/-- An operation that gives out no place leaves the places that were. -/
theorem found_concat (h : Traces history f)
    (clash : ∀ s symbol ref, op = .insert s symbol → (f.insert s symbol).1 ≠ .inserted ref) :
    f.find? s name = some ref ↔ GivenOut (history ++ [op]) s name ref := by
  rw [h.found]
  constructor
  · intro given
    exact given.concat op
  · intro given
    rcases given.of_concat with old | ⟨symbol, is, -, given⟩
    · exact old
    · rw [← h.run] at given
      exact absurd given (clash s symbol ref is)

/-- An operation that leaves the frames alone. -/
theorem keep (h : Traces history f) (frames : ∀ s, (f.apply op).frame? s = f.frame? s)
    (functions : (f.apply op).functions = f.functions)
    (length : (f.apply op).scopes.length = f.scopes.length) (indexed : (f.apply op).Indexed)
    (closed : op.opens? = none)
    (known : ∀ s name, op.insertsInto? s = some name → name ∈ insertedInto history s)
    (clash : ∀ s symbol ref, op = .insert s symbol → (f.insert s symbol).1 ≠ .inserted ref) :
    Traces (history ++ [op]) (f.apply op) := by
  have opened : openings (history ++ [op]) = openings history := by
    rw [openings_concat, closed]
    exact List.append_nil _
  have finds (s : ScopeId) (name : String) : (f.apply op).find? s name = f.find? s name :=
    find?_of_frame? (frames s) name
  constructor
  case run => rw [run_concat, ← h.run]
  case count => rw [length, opened, h.count]
  case rooted =>
    refine h.rooted.congr fun s => ?_
    have same := congrArg (Option.map fun x : Scope => (x.parent?, x.level)) (frames s)
    rwa [frame?, frame?, Option.map_map, Option.map_map] at same
  case nested =>
    intro o member
    rw [opened] at member
    obtain ⟨scope, there, named, parent⟩ := h.nested o member
    obtain ⟨symbols, is⟩ := scope?_of_frame? (frames o.id).symm there
    exact ⟨_, is, named, parent⟩
  case children =>
    intro s scope there
    obtain ⟨symbols, was⟩ := scope?_of_frame? (frames s) there
    have same := h.children s { scope with symbols } was
    rw [opened]
    exact same
  case functions => rw [functions, opened, h.functions]
  case indexed => exact indexed
  case inserted =>
    intro s name
    rw [finds, ← h.inserted, insertedInto_concat, List.mem_append, Option.mem_toList]
    constructor
    · rintro (old | new)
      · exact old
      · exact known s name new
    · exact .inl
  case found =>
    intro s name ref
    rw [finds]
    exact h.found_concat clash

/-- An operation that leaves the frames alone and inserts nothing. -/
theorem pass (h : Traces history f) (frames : ∀ s, (f.apply op).frame? s = f.frame? s)
    (functions : (f.apply op).functions = f.functions)
    (length : (f.apply op).scopes.length = f.scopes.length) (indexed : (f.apply op).Indexed)
    (closed : op.opens? = none) (other : ∀ s symbol, op ≠ .insert s symbol) :
    Traces (history ++ [op]) (f.apply op) := by
  refine h.keep frames functions length indexed closed (fun s name is => ?_) fun s symbol ref is => ?_
  · cases op with
    | insert s' symbol => exact absurd rfl (other s' symbol)
    | _ => cases is
  · exact absurd is (other s symbol)

/-- With a symbol more, the names that were inserted are still those that can be found. -/
theorem inserted_push (h : Traces history f) {scope : Scope} (there : f.scope? s = some scope)
    (symbol : Symbol) (s' : ScopeId) (name : String) :
    name ∈ insertedInto (history ++ [Operation.insert s symbol]) s' ↔
      ∃ ref, (f.modifyScope s (·.push symbol)).find? s' name = some ref := by
  rw [insertedInto_concat, List.mem_append, h.inserted, find?_push there]
  show _ ∨ name ∈ (if s = s' then some symbol.name else none).toList ↔ _
  by_cases here : s = s' ∧ symbol.name = name
  · obtain ⟨rfl, rfl⟩ := here
    simp
  · rw [if_neg here]
    split <;> grind

/-- The place at the end of the scope is given out for a free name that is inserted. -/
theorem found_push (h : Traces history f) {scope : Scope} (there : f.scope? s = some scope)
    {symbol : Symbol} (free : f.find? s symbol.name = none) (s' : ScopeId) (name : String) (ref : SymbolId) :
    (f.modifyScope s (·.push symbol)).find? s' name = some ref ↔
      GivenOut (history ++ [Operation.insert s symbol]) s' name ref := by
  have inserts := insert_of_free there free
  rw [find?_push there]
  constructor
  · intro is
    split at is
    next same =>
      obtain ⟨rfl, rfl⟩ := same
      obtain rfl := Option.some.inj is
      have given : ((start.run history).insert s symbol).1 = .inserted ⟨s, scope.symbols.length⟩ := by
        rw [← h.run, inserts]
      exact .insertion rfl rfl (h.find?_eq_none_iff.1 free) given
    next => exact ((h.found s' name ref).1 is).concat _
  · intro given
    rcases given.of_concat with old | ⟨symbol', is, named, given⟩
    · have was := (h.found s' name ref).2 old
      have other : ¬ (s = s' ∧ symbol.name = name) := by
        rintro ⟨rfl, rfl⟩
        cases free.symm.trans was
      rw [if_neg other, was]
    · obtain ⟨rfl, rfl⟩ := Operation.insert.inj is
      rw [← h.run, inserts] at given
      obtain rfl := Insertion.inserted.inj given
      exact if_pos ⟨rfl, named⟩

/-- An insertion under a name that is free. -/
theorem push (h : Traces history f) {symbol : Symbol} (free : f.find? s symbol.name = none)
    (valid : s < f.scopes.length) :
    Traces (history ++ [Operation.insert s symbol]) (f.insert s symbol).2 := by
  have opened : openings (history ++ [Operation.insert s symbol]) = openings history := by
    rw [openings_concat]
    exact List.append_nil _
  obtain ⟨scope, there⟩ := scope?_isSome_iff.2 valid
  have inserts := insert_of_free there free
  have run : (f.insert s symbol).2 = start.run (history ++ [Operation.insert s symbol]) := by
    rw [run_concat, ← h.run]
    rfl
  -- The scope inserted into has a symbol and an entry of its index more.
  have grown (s' : ScopeId) (old : Scope) (was : f.scope? s' = some old) : ∃ symbols index,
      (f.modifyScope s (·.push symbol)).scope? s' = some { old with symbols, index } := by
    rw [scope?_modifyScope, was]
    split
    · exact ⟨_, _, rfl⟩
    · exact ⟨_, _, rfl⟩
  rw [inserts] at run ⊢
  constructor
  case run => exact run
  case count => rw [length_modifyScope, opened, h.count]
  case rooted => exact h.rooted.push s symbol
  case nested =>
    intro o member
    rw [opened] at member
    obtain ⟨old, was, named, parent⟩ := h.nested o member
    obtain ⟨symbols, index, is⟩ := grown o.id old was
    exact ⟨_, is, named, parent⟩
  case children =>
    intro s' scope' is
    obtain ⟨old, was⟩ := scope?_isSome_iff.2 (by simpa using lt_of_scope? is)
    obtain ⟨symbols, index, is'⟩ := grown s' old was
    obtain rfl := Option.some.inj (is.symm.trans is')
    rw [opened]
    exact h.children s' old was
  case functions =>
    rw [opened]
    exact h.functions
  case indexed => exact h.indexed.push free
  case inserted => exact h.inserted_push there symbol
  case found => exact h.found_push there free

/-- A scope more. It is the latest of its name, and those there were stand as before. -/
theorem openScope (h : Traces history f) (valid : s < f.scopes.length) (name : String) :
    Traces (history ++ [Operation.openScope s name]) (f.openScope s name).2 := by
  have opened : openings (history ++ [Operation.openScope s name]) =
      openings history ++ [⟨f.scopes.length, s, name⟩] := by
    rw [openings_concat, h.count]
    rfl
  constructor
  case run =>
    rw [run_concat, ← h.run]
    rfl
  case count =>
    rw [length_openScope, opened, List.length_append, h.count]
    rfl
  case rooted => exact h.rooted.openScope valid name
  case nested =>
    intro o member
    rw [opened, List.mem_append, List.mem_singleton] at member
    rcases member with old | rfl
    · obtain ⟨scope, was, named, parent⟩ := h.nested o old
      rw [scope?_openScope, if_neg (Nat.ne_of_lt (lt_of_scope? was)), was]
      split
      · exact ⟨_, rfl, named, parent⟩
      · exact ⟨_, rfl, named, parent⟩
    · rw [scope?_openScope, if_pos rfl]
      exact ⟨_, rfl, rfl, rfl⟩
  case children =>
    intro s' scope is
    rw [scope?_openScope] at is
    rw [opened, List.filter_append, List.map_append, List.reverse_append]
    split at is
    next new =>
      obtain rfl := Option.some.inj is
      have none := h.filter_openings (new ▸ f.scope?_length)
      have other : s ≠ s' := new ▸ Nat.ne_of_lt valid
      simp [none, other, Forest.opened]
    next =>
      split at is
      next same =>
        obtain ⟨old, was, rfl⟩ := Option.map_eq_some_iff.1 is
        simp [same, h.children s' old was]
      next other =>
        simp [other, h.children s' scope is]
  case functions =>
    rw [opened, List.map_append, List.reverse_append, ← h.functions]
    rfl
  case indexed => exact h.indexed.openScope s name
  case inserted =>
    intro s' name'
    rw [find?_openScope, ← h.inserted, insertedInto_concat]
    exact List.mem_append.trans (or_iff_left List.not_mem_nil)
  case found =>
    intro s' name' ref
    rw [find?_openScope]
    exact h.found_concat (by simp)

/-- At the start there is the global scope alone, with the builtin types. -/
theorem start : Traces [] start := by
  constructor
  case run => rfl
  case count => rfl
  case rooted => exact rooted_start
  case nested =>
    intro o member
    cases member
  case children =>
    intro s scope there
    cases s with
    | zero =>
      obtain rfl := Option.some.inj there
      rfl
    | succ s => cases there
  case functions => rfl
  case indexed => exact titled_start.indexed
  case inserted =>
    intro s name
    cases s with
    | zero =>
      obtain ⟨scope, there, names⟩ : ∃ scope, Forest.start.scope? global = some scope ∧
          scope.symbols.map (·.name) = builtinTypes := ⟨_, rfl, rfl⟩
      have index : name ∈ scope.symbols.map (·.name) ↔ ∃ i, scope.position? name = some i :=
        (titled_start _ scope there).mem_iff
      rw [names] at index
      show name ∈ builtinTypes ++ [] ↔ ∃ ref, Forest.start.find? global name = some ref
      rw [List.append_nil, index, find?_eq, there, ← Option.isSome_iff_exists, ← Option.isSome_iff_exists,
        Option.isSome_map]
      rfl
    | succ s =>
      refine iff_of_false List.not_mem_nil ?_
      rintro ⟨ref, found⟩
      cases found
  case found =>
    intro s name ref
    constructor
    · exact .builtin
    · intro given
      cases given with
      | builtin found => exact found
      | insertion step => simp at step

/-- One operation. -/
theorem apply (h : Traces history f) (fits : f.Fits op) : Traces (history ++ [op]) (f.apply op) := by
  cases op with
  | insert s symbol =>
    cases taken : f.find? s symbol.name with
    | none => exact h.push taken fits
    | some first =>
      have clash := insert_of_find? taken
      have same : f.apply (.insert s symbol) = f := congrArg Prod.snd clash
      refine h.keep (fun s' => ?_) ?_ ?_ ?_ rfl (fun s' name is => ?_) (fun s' symbol' ref is given => ?_)
      · rw [same]
      · rw [same]
      · rw [same]
      · rw [same]
        exact h.indexed
      · obtain ⟨rfl, named⟩ := Option.ite_none_right_eq_some.1 is
        obtain rfl := Option.some.inj named
        exact (h.inserted s symbol.name).2 ⟨first, taken⟩
      · obtain ⟨rfl, rfl⟩ := Operation.insert.inj is
        rw [clash] at given
        cases given
  | openScope s name => exact h.openScope fits name
  | resolve s name =>
    exact h.pass (frame?_resolve f s name) (functions_resolve f s name) (f.length_resolve s name)
      (h.indexed.resolve s name) rfl (by simp)
  | setRole ref role =>
    exact h.pass (frame?_modifySymbol f ref _) rfl (length_modifySymbol f ref _)
      (h.indexed.modifySymbol ref _) rfl (by simp)
  | rename ref name =>
    exact h.pass (frame?_modifySymbol f ref _) rfl (length_modifySymbol f ref _)
      (h.indexed.modifySymbol ref _) rfl (by simp)

/-- Operations in turn. -/
theorem applyAll (h : Traces history f) {later : List Operation} (fits : f.FitsAll later) :
    Traces (history ++ later) (f.run later) := by
  induction later generalizing history f with
  | nil =>
    rw [List.append_nil]
    exact h
  | cons op rest ih =>
    have step := ih (h.apply fits.1) fits.2
    rw [List.append_assoc] at step
    exact step

end Traces

/-- **A forest traces its history**, by induction on the history. -/
theorem traces_run {history : List Operation} (fits : start.FitsAll history) :
    Traces history (start.run history) :=
  Traces.start.applyAll fits

end Forest

end Pascalize
