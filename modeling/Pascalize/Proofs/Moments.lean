import Pascalize.Scope.Forest
import Pascalize.Scope.Walk

/-!
# Names over time

The names of a program in the order they are met, said without any table. At a moment a variable, a
parameter or a function is introduced by its name into a scope, or a name is used, as a reference or for a
type; uses know the scopes around them, innermost first. Scopes are numbered in the order of their
functions, the global scope is 0 and has the builtin types from the start.

A name binds to the first thing that was given it, at an earlier moment, in the nearest scope that has
one. `Moment.resolved` pairs every moment with what its name binds to then; how often a thing is used
and which names are unknown are read off that list.

`Node.walk` says in which order the moments of a tree come. They are those of the tree's events, one after
another (`Node.walk_eq_play`), so whatever is said about moments further on is said about events.
-/

namespace Pascalize

/-- The symbol of a variable or parameter, without its type and its uses. -/
def Declaration.symbol (role : Role) (decl : Declaration) : Symbol :=
  ⟨decl.name, role, none, some decl.type.base, 0⟩

/-- The name of a variable, a parameter or a function comes into a scope. -/
inductive Introduction where
  | var (scope : ScopeId) (decl : Declaration)
  | parameter (scope : ScopeId) (decl : Declaration)
  | function (scope : ScopeId) (returns name : String) (location : Location)
deriving DecidableEq, Repr

namespace Introduction

def scope : Introduction → ScopeId
  | var scope _ | parameter scope _ | function scope _ _ _ => scope

def name : Introduction → String
  | var _ decl | parameter _ decl => decl.name
  | function _ _ name _ => name

def location : Introduction → Location
  | var _ decl | parameter _ decl => decl.location
  | function _ _ _ location => location

/-- What is introduced, without its type and its uses. -/
def symbol : Introduction → Symbol
  | var _ decl => decl.symbol .var
  | parameter _ decl => decl.symbol .parameter
  | function _ returns name _ => .ofFunction name returns

theorem name_symbol (x : Introduction) : x.symbol.name = x.name := by
  cases x <;> rfl

theorem isType_symbol (x : Introduction) : x.symbol.isType = false := by
  cases x <;> rfl

/-- A thing is introduced unused. -/
theorem uses_symbol (x : Introduction) : x.symbol.uses = 0 := by
  cases x <;> rfl

end Introduction

/-- What happens to a name. -/
inductive Moment where
  | builtin (name : String)
  | introduction (x : Introduction)
  | reference (scopes : List ScopeId) (name : String) (location : Location)
  | typeName (scopes : List ScopeId) (name : String) (location : Location)
deriving DecidableEq, Repr

/-- The scope in which a name was found, and whether it names a builtin type there. -/
structure Binding where
  scope : ScopeId
  isBuiltin : Bool
deriving DecidableEq, Repr

namespace Moment

/-- The scopes around a name that is used, innermost first. -/
def scopes : Moment → List ScopeId
  | builtin _ | introduction _ => []
  | reference scopes _ _ | typeName scopes _ _ => scopes

def name : Moment → String
  | builtin name | reference _ name _ | typeName _ name _ => name
  | introduction x => x.name

/-- Whether a name is used. -/
def isUse : Moment → Bool
  | builtin _ | introduction _ => false
  | reference .. | typeName .. => true

def introduction? : Moment → Option Introduction
  | introduction x => some x
  | _ => none

/-- All that is introduced. -/
def introductions (moments : List Moment) : List Introduction :=
  moments.filterMap introduction?

/-- Whether a builtin type is given the name in the scope, if anything is. -/
def gives? (scope : ScopeId) (name : String) : Moment → Option Bool
  | builtin given => if scope = Forest.global ∧ given = name then some true else none
  | introduction x => if x.scope = scope ∧ x.name = name then some false else none
  | _ => none

/-- What was first given the name in the scope. -/
def given? (past : List Moment) (scope : ScopeId) (name : String) : Option Binding :=
  (past.findSome? (gives? scope name)).map (⟨scope, ·⟩)

/-- What a name binds to: the nearest scope in which something was given it. -/
def bound? (past : List Moment) (scopes : List ScopeId) (name : String) : Option Binding :=
  scopes.findSome? (given? past · name)

/-- Every moment with what its name binds to then, if it is a use. -/
def resolvedAfter (past : List Moment) : List Moment → List (Moment × Option Binding)
  | [] => []
  | m :: rest => (m, bound? past m.scopes m.name) :: resolvedAfter (past ++ [m]) rest

def resolved (moments : List Moment) : List (Moment × Option Binding) :=
  resolvedAfter [] moments

/-- How often the name is used for what it was given to in the scope. -/
def useCount (moments : List Moment) (scope : ScopeId) (name : String) : Nat :=
  (resolved moments).countP fun use => use.1.name = name && use.2.any (·.scope = scope)

/-- The references that bind to nothing. -/
def unbound (moments : List Moment) : List (String × Location) :=
  (resolved moments).filterMap fun
    | (reference _ name location, none) => some (name, location)
    | _ => none

/-- The names of types that bind to no builtin type. -/
def untyped (moments : List Moment) : List (String × Location) :=
  (resolved moments).filterMap fun
    | (typeName _ name location, binding) =>
      if binding.any (·.isBuiltin) then none else some (name, location)
    | _ => none

/-- What was met before counts as past for what is met after it. -/
theorem resolvedAfter_append (past moments more : List Moment) :
    resolvedAfter past (moments ++ more) =
      resolvedAfter past moments ++ resolvedAfter (past ++ moments) more := by
  induction moments generalizing past with
  | nil => simp [resolvedAfter]
  | cons m moments ih => simp [resolvedAfter, ih]

/-- One more moment is resolved by those before it. -/
theorem resolved_add (moments : List Moment) (m : Moment) :
    resolved (moments ++ [m]) = resolved moments ++ [(m, bound? moments m.scopes m.name)] :=
  resolvedAfter_append [] moments [m]

/-- A moment adds a use to what its name binds to. -/
theorem useCount_add (moments : List Moment) (m : Moment) (scope : ScopeId) (name : String) :
    useCount (moments ++ [m]) scope name = useCount moments scope name +
      if m.name = name ∧ (bound? moments m.scopes m.name).any (·.scope = scope) then 1 else 0 := by
  rw [useCount, resolved_add, List.countP_append, List.countP_singleton]
  simp [useCount]

/-- Uses do not get fewer. -/
theorem useCount_le_of_prefix {moments later : List Moment} (h : moments <+: later) (scope : ScopeId)
    (name : String) : useCount moments scope name ≤ useCount later scope name := by
  obtain ⟨more, rfl⟩ := h
  have split : resolved (moments ++ more) = resolved moments ++ resolvedAfter moments more :=
    resolvedAfter_append [] moments more
  rw [useCount, useCount, split, List.countP_append]
  exact Nat.le_add_right _ _

/-- There are no more uses of a thing than uses at all. -/
theorem useCount_le (moments : List Moment) (scope : ScopeId) (name : String) :
    useCount moments scope name ≤ moments.countP isUse := by
  rw [useCount, resolved]
  generalize ([] : List Moment) = past
  induction moments generalizing past with
  | nil => exact Nat.le_refl 0
  | cons m moments ih =>
    rw [resolvedAfter, List.countP_cons, List.countP_cons]
    refine Nat.add_le_add (ih _) ?_
    cases m with
    | builtin | introduction => simp [scopes, bound?, isUse]
    | reference | typeName =>
      rw [if_pos (show isUse _ = true from rfl)]
      split
      · exact Nat.le_refl 1
      · exact Nat.zero_le 1

/-- A name that binds is given in one of the scopes, and binds to what was given it there. -/
theorem given?_of_bound? {past : List Moment} {scopes : List ScopeId} {name : String} {b : Binding}
    (h : bound? past scopes name = some b) : b.scope ∈ scopes ∧ given? past b.scope name = some b := by
  obtain ⟨s, member, given⟩ := List.exists_of_findSome?_eq_some h
  have same : b.scope = s := by
    obtain ⟨isBuiltin, -, rfl⟩ := Option.map_eq_some_iff.1 given
    rfl
  rw [same]
  exact ⟨member, given⟩

/-- The first thing that is given a name in a scope keeps it. -/
theorem given?_introduction (past : List Moment) (x : Introduction) (s : ScopeId) (name : String) :
    given? (past ++ [introduction x]) s name =
      (given? past s name).or (if x.scope = s ∧ x.name = name then some ⟨s, false⟩ else none) := by
  rw [given?, given?, List.findSome?_append]
  cases past.findSome? (gives? s name) with
  | some b => simp
  | none =>
    simp only [Option.none_or, List.findSome?_singleton, gives?, Option.map_none]
    split <;> rfl

/-- What is used is not given. -/
theorem given?_use {m : Moment} {s : ScopeId} {outer : List ScopeId} (use : m.scopes = s :: outer)
    (past : List Moment) (s' : ScopeId) (name : String) :
    given? (past ++ [m]) s' name = given? past s' name := by
  have none : gives? s' name m = none := by
    cases m with
    | builtin | introduction => cases use
    | reference | typeName => rfl
  rw [given?, given?, List.findSome?_append]
  simp [none]

/-- What is given is not used. -/
@[simp] theorem useCount_introduction (moments : List Moment) (x : Introduction) (s : ScopeId)
    (name : String) : useCount (moments ++ [introduction x]) s name = useCount moments s name := by
  simp [useCount_add, scopes, bound?]

variable (moments : List Moment) (scopes : List ScopeId) (name : String) (location : Location)

@[simp] theorem introductions_introduction (x : Introduction) :
    introductions (moments ++ [Moment.introduction x]) = introductions moments ++ [x] := by
  rw [introductions, List.filterMap_append]
  rfl

@[simp] theorem introductions_reference :
    introductions (moments ++ [Moment.reference scopes name location]) = introductions moments := by
  rw [introductions, List.filterMap_append]
  exact List.append_nil _

@[simp] theorem introductions_typeName :
    introductions (moments ++ [Moment.typeName scopes name location]) = introductions moments := by
  rw [introductions, List.filterMap_append]
  exact List.append_nil _

/-- A reference to nothing is unknown. -/
theorem unbound_reference : unbound (moments ++ [Moment.reference scopes name location]) =
    unbound moments ++ if (bound? moments scopes name).isNone then [(name, location)] else [] := by
  cases bound : bound? moments scopes name <;>
    simp [unbound, resolved_add, Moment.scopes, Moment.name, bound]

/-- A type is unknown unless its name binds to a builtin one. -/
theorem untyped_typeName : untyped (moments ++ [Moment.typeName scopes name location]) =
    untyped moments ++
      if (bound? moments scopes name).any (·.isBuiltin) then [] else [(name, location)] := by
  simp only [untyped, resolved_add, List.filterMap_append, Moment.scopes, Moment.name]
  split <;> simp_all

@[simp] theorem untyped_reference :
    untyped (moments ++ [Moment.reference scopes name location]) = untyped moments := by
  simp [untyped, resolved_add]

@[simp] theorem unbound_typeName :
    unbound (moments ++ [Moment.typeName scopes name location]) = unbound moments := by
  simp [unbound, resolved_add]

@[simp] theorem unbound_introduction (x : Introduction) :
    unbound (moments ++ [Moment.introduction x]) = unbound moments := by
  simp [unbound, resolved_add]

@[simp] theorem untyped_introduction (x : Introduction) :
    untyped (moments ++ [Moment.introduction x]) = untyped moments := by
  simp [untyped, resolved_add]

end Moment

/-! ## The walk -/

/-- The scopes of the functions around, innermost first, the number of the next scope, and the moments so
far. -/
structure Walk where
  opened : List ScopeId
  fresh : ScopeId
  moments : List Moment

namespace Walk

/-- Before a program, the builtin types have their names. -/
def start : Walk :=
  { opened := [], fresh := Forest.global + 1, moments := Forest.builtinTypes.map .builtin }

/-- The innermost scope. -/
def here (w : Walk) : ScopeId :=
  w.opened.headD Forest.global

/-- All scopes around, innermost first. -/
def scopes (w : Walk) : List ScopeId :=
  w.opened ++ [Forest.global]

def add (w : Walk) (m : Moment) : Walk :=
  { w with moments := w.moments ++ [m] }

def refer (w : Walk) (name : String) (location : Location) : Walk :=
  w.add (.reference w.scopes name location)

def useType (w : Walk) (type : TypeName) : Walk :=
  w.add (.typeName w.scopes type.base type.location)

/-- A declaration: first its type is named, then its name is given. -/
def declare (w : Walk) (introduces : ScopeId → Declaration → Introduction) (decl : Declaration) : Walk :=
  (w.useType decl.type).add (.introduction (introduces w.here decl))

def openScope (w : Walk) : Walk :=
  { w with opened := w.fresh :: w.opened, fresh := w.fresh + 1 }

def declareParams (w : Walk) (params : List Declaration) : Walk :=
  params.foldl (fun w decl => w.declare .parameter decl) w

/-- The heading of a function: its name is given here, and its parameters in a scope of its own. -/
def enter (w : Walk) (returns name : String) (params : List Declaration) (location : Location) : Walk :=
  (w.add (.introduction (.function w.here returns name location))).openScope.declareParams params

def leave (w : Walk) : Walk :=
  { w with opened := w.opened.tail }

/-- The moments of an event. -/
def step (w : Walk) : Event → Walk
  | .refer name location => w.refer name location
  | .declare decl => w.declare .var decl
  | .enter returns name params location => w.enter returns name params location
  | .leave => w.leave

/-- The moments of events in turn. -/
def play (w : Walk) (events : List Event) : Walk :=
  events.foldl step w

theorem play_append (w : Walk) (before after : List Event) :
    w.play (before ++ after) = (w.play before).play after :=
  List.foldl_append

/-- Moments are only added. -/
theorem prefix_declareParams (w : Walk) (params : List Declaration) :
    w.moments <+: (w.declareParams params).moments := by
  induction params generalizing w with
  | nil => exact List.prefix_refl _
  | cons decl params ih =>
    have first : w.moments <+: (w.declare .parameter decl).moments :=
      (List.prefix_append _ _).trans (List.prefix_append _ _)
    exact first.trans (ih _)

/-- Moments are added only. -/
theorem prefix_play (w : Walk) (events : List Event) : w.moments <+: (w.play events).moments := by
  induction events generalizing w with
  | nil => exact List.prefix_refl _
  | cons e events ih =>
    refine List.IsPrefix.trans ?_ (ih (w.step e))
    cases e with
    | refer => exact List.prefix_append _ _
    | declare => exact (List.prefix_append _ _).trans (List.prefix_append _ _)
    | enter returns name params location =>
      exact (List.prefix_append w.moments _).trans (prefix_declareParams
        (w.add (.introduction (.function w.here returns name location))).openScope params)
    | leave => exact List.prefix_refl _

end Walk

mutual

/-- The walk over a node: a target before its value, a condition before its block, the name of a call
before its arguments, the heading of a function before its body. -/
def Node.walk : Node → Walk → Walk
  | .declaration decl, w => w.declare .var decl
  | .function returns name params body location, w =>
    (walkAll body (w.enter returns name params location)).leave
  | .assignment target value _, w => value.walk (target.walk w)
  | .conditional condition body _, w | .loop condition body _, w => walkAll body (condition.walk w)
  | .alternative body _, w => walkAll body w
  | .result value _, w => value.walk w
  | .declarations items _, w | .input items _, w | .output items _, w | .sequence items _, w =>
    walkAll items w
  | .binary _ left right _, w => right.walk (left.walk w)
  | .negation operand _, w | .complement operand _, w => operand.walk w
  | .var name location, w | .reference name location, w => w.refer name location
  | .call name args location, w => walkAll args (w.refer name location)
  | .index target position _, w => position.walk (target.walk w)
  | .comment .., w | .stringLiteral .., w | .intLiteral .., w | .floatLiteral .., w => w

/-- The walk over nodes in turn. -/
def Node.walkAll : List Node → Walk → Walk
  | [], w => w
  | node :: rest, w => walkAll rest (node.walk w)

end

/-- All moments of a program. -/
def Program.moments (program : Program) : List Moment :=
  (Node.walkAll program.statements .start).moments

mutual

/-- The walk over a node goes through its events. -/
theorem Node.walk_eq_play : (node : Node) → (w : Walk) → node.walk w = w.play node.events
  | .declaration decl, w => by
    rw [walk, events]
    rfl
  | .function returns name params body location, w => by
    rw [walk, events, walkAll_eq_play body, ← List.cons_append, Walk.play_append]
    rfl
  | .assignment first second _, w | .binary _ first second _, w | .index first second _, w => by
    rw [walk, events, walk_eq_play first, walk_eq_play second, Walk.play_append]
  | .conditional condition body _, w | .loop condition body _, w => by
    rw [walk, events, walk_eq_play condition, walkAll_eq_play body, Walk.play_append]
  | .declarations items _, w | .alternative items _, w | .input items _, w | .output items _, w
  | .sequence items _, w => by
    rw [walk, events, walkAll_eq_play items]
  | .result inner _, w | .negation inner _, w | .complement inner _, w => by
    rw [walk, events, walk_eq_play inner]
  | .var name location, w | .reference name location, w => by
    rw [walk, events]
    rfl
  | .call name args location, w => by
    rw [walk, events, walkAll_eq_play args]
    rfl
  | .comment .., w | .stringLiteral .., w | .intLiteral .., w | .floatLiteral .., w => by
    rw [walk, events]
    rfl

/-- The walk over nodes in turn goes through their events. -/
theorem Node.walkAll_eq_play : (nodes : List Node) → (w : Walk) →
    walkAll nodes w = w.play (eventsAll nodes)
  | [], w => by
    rw [walkAll, eventsAll]
    rfl
  | node :: rest, w => by
    rw [walkAll, eventsAll, walk_eq_play node, walkAll_eq_play rest, Walk.play_append]

end

/-- **The moments of a program** are those of its events. -/
theorem Program.moments_eq_play (program : Program) :
    program.moments = (Walk.start.play (Node.eventsAll program.statements)).moments := by
  rw [moments, Node.walkAll_eq_play]

/-- The parameter `x` of `f` hides the global `x` inside `f`, and `y` is given to nothing. -/
example :
    let here : Location := .start
    let x : Declaration := ⟨⟨"int", none, here⟩, "x", false, here⟩
    let program : Program := ⟨[.declaration x,
      .function "int" "f" [x] [.assignment (.var "x" here) (.var "y" here) here] here,
      .assignment (.var "x" here) (.var "x" here) here], here⟩
    Moment.useCount program.moments 0 "x" = 2 ∧ Moment.useCount program.moments 1 "x" = 1 ∧
      Moment.useCount program.moments 0 "int" = 2 ∧ Moment.unbound program.moments = [("y", here)] := by
  decide

end Pascalize
