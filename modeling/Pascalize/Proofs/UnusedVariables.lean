import Pascalize.Proofs.ScopeAgreement

/-!
# Leaving out unused variables

A slot is a variable of a scope: the symbol, its number and the scope. The slots of the scopes that are
written (`Program.slots`) are the variables whose lines a program has, in the order of the lines.
`Thins` compares the lines of one program written twice: all of them stay but those of unused slots.
One lemma for each way to put lines together leads from the variables of a scope (`Thins.vars`) to a
function with all that is inside it (`Scoping.thins_routine`) and to the program (`Program.pascal_thins`).
-/

namespace Pascalize

open Pascal

/-- A variable of a scope. -/
structure Slot where
  ref : SymbolId
  scope : Scope
  symbol : Symbol

namespace Slot

/-- Nothing uses the variable. -/
def isUnused (slot : Slot) : Bool :=
  slot.symbol.uses = 0

/-- How the variable is noted where it is left out. -/
def removal (slot : Slot) : Removal :=
  ⟨slot.symbol.name, slot.scope.name⟩

/-- The line that declares the variable. -/
def line (f : Forest) (depth : Nat) (slot : Slot) : Line :=
  ⟨depth, .var (f.declared slot.symbol)⟩

end Slot

namespace Forest

/-- The variables of a scope, in the order they were declared. -/
def slots (f : Forest) (id : ScopeId) : List Slot :=
  match f.scope? id with
  | none => []
  | some s =>
    (s.symbols.zipIdx.filter (·.1.isVariable)).map fun (symbol, position) => ⟨⟨id, position⟩, s, symbol⟩

/-- A slot is what its number says. -/
theorem of_mem_slots {f : Forest} {id : ScopeId} {slot : Slot} (h : slot ∈ f.slots id) :
    slot.ref.scope = id ∧ f.scope? id = some slot.scope ∧ f.symbol? slot.ref = some slot.symbol ∧
      slot.symbol.isVariable = true := by
  unfold slots at h
  split at h
  · nomatch h
  next s there =>
    obtain ⟨⟨symbol, position⟩, member, rfl⟩ := List.mem_map.1 h
    obtain ⟨inside, isVar⟩ := List.mem_filter.1 member
    have at_ : s.symbols[position]? = some symbol := List.mem_zipIdx_iff_getElem?.1 inside
    exact ⟨rfl, there, by simp [symbol?, there, at_], isVar⟩

/-- Every variable of a scope has a slot there. -/
theorem mem_slots {f : Forest} {ref : SymbolId} {symbol : Symbol} (is : f.symbol? ref = some symbol)
    (isVar : symbol.isVariable = true) : ∃ slot ∈ f.slots ref.scope, slot.ref = ref ∧
      slot.symbol = symbol := by
  obtain ⟨s, there, here⟩ := Option.bind_eq_some_iff.1 is
  refine ⟨⟨ref, s, symbol⟩, ?_, rfl, rfl⟩
  simp only [slots, there]
  exact List.mem_map.2 ⟨(symbol, ref.position),
    List.mem_filter.2 ⟨List.mem_zipIdx_iff_getElem?.2 here, isVar⟩, rfl⟩

/-- The variables of a scope are declared or left out by their slots. -/
theorem varSection_eq (f : Forest) (optimize : Bool) (id : ScopeId) :
    f.varSection optimize id =
      ⟨((f.slots id).filter (!drops optimize ·.symbol)).map (f.declared ·.symbol),
       ((f.slots id).filter (drops optimize ·.symbol)).map Slot.removal⟩ := by
  simp only [varSection, slots]
  cases f.scope? id with
  | none => rfl
  | some s =>
    have vars : s.vars = (s.symbols.zipIdx.filter (·.1.isVariable)).map Prod.fst := by
      have all : s.symbols.zipIdx.map Prod.fst = s.symbols := List.zipIdx_map_fst 0 s.symbols
      rw [Scope.vars, ← all, List.filter_map, all]
      rfl
    simp only [vars, List.filter_map, List.map_map, Function.comp_def]
    rfl

@[simp] theorem kept_varSection_plain (f : Forest) (id : ScopeId) :
    (f.varSection false id).kept = (f.slots id).map (f.declared ·.symbol) := by
  rw [varSection_eq]
  exact congrArg _ (List.filter_eq_self.2 fun _ _ => rfl)

@[simp] theorem removed_varSection_plain (f : Forest) (id : ScopeId) :
    (f.varSection false id).removed = [] := by
  simp [varSection_eq, drops]

/-- With unused variables left out, the others keep their order. -/
@[simp] theorem kept_varSection_lean (f : Forest) (id : ScopeId) : (f.varSection true id).kept =
    ((f.slots id).filter (!·.isUnused)).map (f.declared ·.symbol) := by
  simp [varSection_eq, drops, Slot.isUnused]

@[simp] theorem removed_varSection_lean (f : Forest) (id : ScopeId) :
    (f.varSection true id).removed = ((f.slots id).filter (·.isUnused)).map Slot.removal := by
  simp [varSection_eq, drops, Slot.isUnused]

end Forest

/-- `lean` is `plain` without the lines of unused variables. The lines in `plain` that declare a variable
are those of `slots`, in order. -/
inductive Thins (f : Forest) : List Slot → List Line → List Line → Prop
  | nil : Thins f [] [] []
  | line {slots : List Slot} {plain lean : List Line} {l : Line} (other : ∀ v, l.content ≠ .var v)
      (rest : Thins f slots plain lean) : Thins f slots (l :: plain) (l :: lean)
  | kept {slots : List Slot} {plain lean : List Line} {slot : Slot} (depth : Nat)
      (used : slot.isUnused = false) (rest : Thins f slots plain lean) :
      Thins f (slot :: slots) (slot.line f depth :: plain) (slot.line f depth :: lean)
  | removed {slots : List Slot} {plain lean : List Line} {slot : Slot} (depth : Nat)
      (unused : slot.isUnused = true) (rest : Thins f slots plain lean) :
      Thins f (slot :: slots) (slot.line f depth :: plain) lean

namespace Thins

variable {f : Forest} {slots slots' : List Slot} {plain plain' lean lean' : List Line}

/-- Lines in a row are thinned part by part. -/
theorem append (h : Thins f slots plain lean) (h' : Thins f slots' plain' lean') :
    Thins f (slots ++ slots') (plain ++ plain') (lean ++ lean') := by
  induction h with
  | nil => exact h'
  | line other _ ih => exact .line other ih
  | kept depth used _ ih => exact .kept depth used ih
  | removed depth unused _ ih => exact .removed depth unused ih

/-- Lines are thinned alike at every depth. -/
theorem indent (h : Thins f slots plain lean) :
    Thins f slots (Line.indent plain) (Line.indent lean) := by
  induction h with
  | nil => exact .nil
  | line other _ ih => exact .line other ih
  | kept depth used _ ih => exact .kept (depth + 1) used ih
  | removed depth unused _ ih => exact .removed (depth + 1) unused ih

/-- Lines that declare no variable all stay. -/
theorem same {lines : List Line} (other : ∀ l ∈ lines, ∀ v, l.content ≠ .var v) :
    Thins f [] lines lines := by
  induction lines with
  | nil => exact .nil
  | cons l lines ih =>
    rw [List.forall_mem_cons] at other
    exact .line other.1 (ih other.2)

/-- The lines of variables. -/
theorem vars (slots : List Slot) : Thins f slots (slots.map (·.line f 0))
    ((slots.filter (!·.isUnused)).map (·.line f 0)) := by
  induction slots with
  | nil => exact .nil
  | cons slot slots ih =>
    cases unused : slot.isUnused with
    | true => simpa [unused] using Thins.removed 0 unused ih
    | false => simpa [unused] using Thins.kept 0 unused ih

end Thins

/-! ## Functions -/

theorem Line.ne_var_of_mem_block {inside : List Line} {close : Content} (h : ∀ v, close ≠ .var v)
    (other : ∀ l ∈ inside, ∀ v, l.content ≠ .var v) :
    ∀ l ∈ Line.block inside close, ∀ v, l.content ≠ .var v := by
  rw [Line.block, List.forall_mem_cons, List.forall_mem_append, List.forall_mem_singleton]
  exact ⟨nofun, List.forall_mem_map.2 other, h⟩

mutual

/-- No line of a statement declares a variable. -/
theorem Node.ne_var_of_mem_lines (semicolon : Bool) (node : Node) :
    ∀ l ∈ node.lines semicolon, ∀ v, l.content ≠ .var v := by
  cases node with
  | conditional _ body _ | loop _ body _ | alternative body _ =>
    rw [lines, List.forall_mem_cons]
    exact ⟨nofun, Line.ne_var_of_mem_block nofun (ne_var_of_mem_linesAll body)⟩
  | declarations items _ =>
    rw [lines]
    generalize items.filterMap assignmentText? = texts
    induction texts with
    | nil => simp [statementLines]
    | cons text rest ih =>
      cases rest with
      | nil => simp [statementLines]
      | cons => exact List.forall_mem_cons.2 ⟨nofun, ih⟩
  | _ => simp [lines]

/-- Statements declare no variables. -/
theorem Node.ne_var_of_mem_linesAll (nodes : List Node) :
    ∀ l ∈ linesAll nodes, ∀ v, l.content ≠ .var v := by
  cases nodes with
  | nil => simp [linesAll]
  | cons node rest =>
    rw [linesAll, List.forall_mem_append]
    exact ⟨ne_var_of_mem_lines _ node, ne_var_of_mem_linesAll rest⟩

end

namespace Scoping

/-- The variables of functions and of those inside them, in the order of their lines. -/
def slotsOf (f : Forest) (l : List Scoping) : List Slot :=
  ((allOf l).filterMap own).flatMap f.slots

/-- The slots of a function are its own and those of the functions inside. -/
theorem slotsOf_cons (f : Forest) (s : Scoping) (l : List Scoping) : slotsOf f (s :: l) =
    (s.own.map f.slots).getD [] ++ slotsOf f s.inner ++ slotsOf f l := by
  obtain ⟨d, outside, own, inner⟩ := s
  cases own <;> simp [slotsOf, allOf, all, Scoping.own, Scoping.inner, List.filterMap_cons]

/-- The variables of a function. -/
theorem thins_own (f : Forest) (own : Option ScopeId) : Thins f ((own.map f.slots).getD [])
    ((own.map (f.varSection false)).getD {}).lines ((own.map (f.varSection true)).getD {}).lines := by
  cases own with
  | none => exact .nil
  | some id =>
    simpa [VarSection.lines, Slot.line, Function.comp_def] using Thins.vars (f := f) (f.slots id)

mutual

/-- A function, with the functions inside it, loses the lines of unused variables. -/
theorem thins_routine (f : Forest) (s : Scoping) : Thins f ((s.own.map f.slots).getD [] ++ slotsOf f s.inner)
    (s.routine f false).lines (s.routine f true).lines := by
  obtain ⟨d, outside, own, inner⟩ := s
  have within := thins_innerLines f inner
  have body : Thins f [] (Line.block (Node.linesAll d.body) (.routineEnd d.name))
      (Line.block (Node.linesAll d.body) (.routineEnd d.name)) :=
    .same (Line.ne_var_of_mem_block nofun (Node.ne_var_of_mem_linesAll d.body))
  have blank : Thins f [] (if !(Node.functionsAll d.body).isEmpty then [⟨0, .blank⟩] else [])
      (if !(Node.functionsAll d.body).isEmpty then [⟨0, .blank⟩] else []) := by
    split
    · exact .line nofun .nil
    · exact .nil
  have all := (((thins_own f own).append within).append blank).append body
  simp only [List.append_nil] at all
  exact .line nofun all

/-- Inner routines are thinned one by one. -/
theorem thins_innerLines (f : Forest) (l : List Scoping) : Thins f (slotsOf f l)
    (Routine.innerLines (routines f false l)) (Routine.innerLines (routines f true l)) := by
  cases l with
  | nil => exact .nil
  | cons s rest =>
    rw [slotsOf_cons]
    exact .line nofun ((thins_routine f s).indent.append (thins_innerLines f rest))

end

theorem thins_flatMap (f : Forest) (l : List Scoping) : Thins f (slotsOf f l)
    ((l.map (routine f false)).flatMap fun r => ⟨0, .blank⟩ :: r.lines)
    ((l.map (routine f true)).flatMap fun r => ⟨0, .blank⟩ :: r.lines) := by
  induction l with
  | nil => exact .nil
  | cons s rest ih =>
    rw [slotsOf_cons]
    exact .line nofun ((thins_routine f s).append ih)

mutual

/-- What is reported as removed from a routine are its unused slots and those inside it. -/
theorem removed_routine (f : Forest) (s : Scoping) :
    (s.routine f false).removed = [] ∧ (s.routine f true).removed =
      (((s.own.map f.slots).getD [] ++ slotsOf f s.inner).filter (·.isUnused)).map Slot.removal := by
  obtain ⟨d, outside, own, inner⟩ := s
  obtain ⟨plain, lean⟩ := removedAll_routines f inner
  cases own <;> simp [routine, Routine.removed, Scoping.own, Scoping.inner, plain, lean]

/-- What is left out of functions is noted in the order of the lines. -/
theorem removedAll_routines (f : Forest) (l : List Scoping) :
    Routine.removedAll (routines f false l) = [] ∧ Routine.removedAll (routines f true l) =
      ((slotsOf f l).filter (·.isUnused)).map Slot.removal := by
  cases l with
  | nil => exact ⟨rfl, rfl⟩
  | cons s rest =>
    obtain ⟨plain, lean⟩ := removed_routine f s
    obtain ⟨plain', lean'⟩ := removedAll_routines f rest
    rw [slotsOf_cons, List.filter_append, List.map_append, ← lean, ← lean']
    simp [routines, Routine.removedAll, plain, plain']

end

end Scoping

/-! ## Programs -/

namespace Program

open Scoping

/-- The variables of `main`. -/
def localSection (program : Program) (f : Forest) (optimize : Bool) : VarSection :=
  ((program.mainScope? f).map (f.varSection optimize)).getD {}

/-- The variables of a program come from two scopes, of which the inner one has the say. -/
theorem vars_eq (program : Program) (f : Forest) (options : Options) :
    (program.pascal f options).vars =
      (f.varSection options.optimize Forest.global).kept.filter
        (fun v => !(program.localSection f options.optimize).kept.any (·.name = v.name)) ++
      (program.localSection f options.optimize).kept := by
  simp only [pascal, localSection]
  cases program.mainScope? f <;> rfl

/-- What is reported as removed comes from the two scopes and from the routines. -/
theorem removed_eq (program : Program) (f : Forest) (options : Options) :
    (program.pascal f options).removed = (f.varSection options.optimize Forest.global).removed ++
      (program.localSection f options.optimize).removed ++
      Routine.removedAll (routines f options.optimize (hoist (program.lookups f))) := by
  rw [routines_eq_map, ← routines_pascal]
  simp only [pascal, localSection]
  cases program.mainScope? f <;> rfl

theorem warnings_eq (program : Program) (f : Forest) (options : Options) :
    (program.pascal f options).warnings =
      ((f.varSection options.optimize Forest.global).kept.filter
        fun v => (program.localSection f options.optimize).kept.any (·.name = v.name)).map
          (fun v => Warning.shadowedGlobal v.name) ++
      ((((program.mainLookup? f).map inner).getD []).filter fun s =>
        ((program.lookups f).filter (·.name ≠ mainName)).any (·.name = s.name)).map
          (fun s => Warning.duplicateFunction s.name) := by
  simp only [pascal, localSection, mainRoutines_eq_lookup, Node.routinesAll_eq_lookups, routines_eq_map,
    List.filter_map, List.any_filter, List.any_map, Function.comp_def, name_routine, lookups, List.map_map]
  cases program.mainScope? f <;> rfl

/-- The variables of `main` with their numbers. -/
def localSlots (program : Program) (f : Forest) : List Slot :=
  ((program.mainScope? f).map f.slots).getD []

theorem localSection_eq (program : Program) (f : Forest) (optimize : Bool) :
    program.localSection f optimize =
      ⟨((program.localSlots f).filter (!Forest.drops optimize ·.symbol)).map (f.declared ·.symbol),
       ((program.localSlots f).filter (Forest.drops optimize ·.symbol)).map Slot.removal⟩ := by
  rw [localSection, localSlots]
  cases program.mainScope? f with
  | none => rfl
  | some main => exact f.varSection_eq optimize main

/-- The variables that have a line in the Pascal of a program, in the order of the lines: those of the
global scope, of `main` and of the functions that are written. -/
def slots (program : Program) (f : Forest) : List Slot :=
  f.slots Forest.global ++ program.localSlots f ++ slotsOf f (hoist (program.lookups f))

/-- Every slot of a program is one of a scope. -/
theorem scope_of_mem_slots {program : Program} {f : Forest} {slot : Slot} (h : slot ∈ program.slots f) :
    ∃ id, slot ∈ f.slots id := by
  rw [slots, List.mem_append, List.mem_append, localSlots, slotsOf, List.mem_flatMap] at h
  obtain (isGlobal | isLocal) | ⟨id, -, inside⟩ := h
  · exact ⟨_, isGlobal⟩
  · cases is : program.mainScope? f with
    | none => simp [is] at isLocal
    | some main => exact ⟨main, by simpa [is] using isLocal⟩
  · exact ⟨id, inside⟩

theorem of_mem_slots {program : Program} {f : Forest} {slot : Slot} (h : slot ∈ program.slots f) :
    f.symbol? slot.ref = some slot.symbol := by
  obtain ⟨id, member⟩ := scope_of_mem_slots h
  exact (Forest.of_mem_slots member).2.2.1

/-- What is left out are the unused variables among them, with or without names that meet. -/
theorem removed_lean (program : Program) (f : Forest) (title : String) :
    (program.pascal f ⟨true, title⟩).removed =
      ((program.slots f).filter (·.isUnused)).map Slot.removal := by
  rw [removed_eq, (removedAll_routines f _).2, localSection_eq, slots]
  simp [Forest.drops, Slot.isUnused]

/-- Nothing is removed without being asked for. -/
theorem removed_plain (program : Program) (f : Forest) (title : String) :
    (program.pascal f ⟨false, title⟩).removed = [] := by
  rw [removed_eq, (removedAll_routines f _).1, localSection_eq]
  simp [Forest.drops]

/-- Where names do not meet, no global variable is shadowed. -/
theorem not_shadowed {program : Program} {f : Forest}
    (apart : ∀ v ∈ f.slots Forest.global, ∀ w ∈ program.localSlots f, v.symbol.name ≠ w.symbol.name)
    (optimize : Bool) : ∀ v ∈ (f.varSection optimize Forest.global).kept,
      (program.localSection f optimize).kept.any (·.name = v.name) = false := by
  intro v member
  rw [Forest.varSection_eq] at member
  obtain ⟨slot, isGlobal, rfl⟩ := List.mem_map.1 member
  rw [List.any_eq_false]
  intro w inMain same
  rw [localSection_eq] at inMain
  obtain ⟨slot', isLocal, rfl⟩ := List.mem_map.1 inMain
  exact apart slot (List.mem_filter.1 isGlobal).1 slot' (List.mem_filter.1 isLocal).1
    (of_decide_eq_true same).symm

/-- **Leaving out unused variables deletes their lines and nothing else.** Let no global variable have the
name of a variable of `main`. Written with unused variables left out, a program has the lines that it has
otherwise but for those of variables with no use, what is noted as left out are these variables with their
scopes, in the order of their lines, and the warnings are the same. Otherwise nothing is left out. -/
theorem pascal_thins (program : Program) (f : Forest) (title : String)
    (apart : ∀ v ∈ f.slots Forest.global, ∀ w ∈ program.localSlots f, v.symbol.name ≠ w.symbol.name) :
    let plain := program.pascal f ⟨false, title⟩
    let lean := program.pascal f ⟨true, title⟩
    Thins f (program.slots f) plain.lines lean.lines ∧
    lean.removed = ((program.slots f).filter (·.isUnused)).map Slot.removal ∧
    plain.removed = [] ∧ lean.warnings = plain.warnings := by
  intro plain lean
  have kept (optimize : Bool) : (program.pascal f ⟨optimize, title⟩).vars =
      (f.varSection optimize Forest.global).kept ++ (program.localSection f optimize).kept := by
    rw [vars_eq, List.filter_eq_self.2 fun v member => by simp [not_shadowed apart optimize v member]]
  have lines (optimize : Bool) : (program.pascal f ⟨optimize, title⟩).lines = ⟨0, .program title⟩ ::
      ((f.varSection optimize Forest.global).lines ++ (program.localSection f optimize).lines ++
        ((hoist (program.lookups f)).map (routine f optimize)).flatMap (fun r => ⟨0, .blank⟩ :: r.lines) ++
        ⟨0, .blank⟩ :: Line.block plain.body (.programEnd title)) := by
    rw [Listing.lines, kept, routines_pascal, List.map_append]
    rfl
  have shadowed (optimize : Bool) : (f.varSection optimize Forest.global).kept.filter
      (fun v => (program.localSection f optimize).kept.any (·.name = v.name)) = [] :=
    List.filter_eq_nil_iff.2 fun v member => by simp [not_shadowed apart optimize v member]
  refine ⟨?_, removed_lean program f title, removed_plain program f title, ?_⟩
  · have vars := (thins_own f (some Forest.global)).append (thins_own f (program.mainScope? f))
    have body : Thins f [] (⟨0, .blank⟩ :: Line.block plain.body (.programEnd title))
        (⟨0, .blank⟩ :: Line.block plain.body (.programEnd title)) :=
      .line nofun (.same (Line.ne_var_of_mem_block nofun (Node.ne_var_of_mem_linesAll _)))
    have all := (vars.append (thins_flatMap f (hoist (program.lookups f)))).append body
    rw [List.append_nil] at all
    rw [lines, lines]
    exact .line nofun all
  · simp only [lean, plain, warnings_eq, shadowed]

/-- Variables of the program, of a function and of `main`, used and unused. -/
theorem pascal_thins_of_levels : ∃ program : Program,
    parse "int a; void f() { int b; int c; c = 1; } int main() { int d; }" = .ok program ∧
    let f := program.analyze.forest
    let lean := program.pascal f ⟨true, "levels"⟩
    (program.slots f).map (fun slot => (slot.symbol.name, slot.isUnused)) =
      [("a", true), ("d", true), ("b", true), ("c", false)] ∧
    Thins f (program.slots f) (program.pascal f ⟨false, "levels"⟩).lines lean.lines ∧
    lean.removed = [⟨"a", "global"⟩, ⟨"d", "main"⟩, ⟨"b", "f"⟩] := by
  let int (column : Nat) : TypeName := ⟨"int", none, ⟨1, column⟩⟩
  let program : Program := ⟨[
    .declaration ⟨int 1, "a", false, ⟨1, 5⟩⟩,
    .function "void" "f" [] [.declaration ⟨int 19, "b", false, ⟨1, 23⟩⟩,
      .declaration ⟨int 26, "c", false, ⟨1, 30⟩⟩,
      .assignment (.var "c" ⟨1, 33⟩) (.intLiteral "1" ⟨1, 37⟩) ⟨1, 35⟩] ⟨1, 13⟩,
    .function "int" "main" [] [.declaration ⟨int 55, "d", false, ⟨1, 59⟩⟩] ⟨1, 46⟩], ⟨1, 63⟩⟩
  have parsed : parse "int a; void f() { int b; int c; c = 1; } int main() { int d; }" = .ok program :=
    (parse_ofList _).trans (by decide +kernel)
  have apart : ∀ v ∈ program.analyze.forest.slots Forest.global,
      ∀ w ∈ program.localSlots program.analyze.forest, v.symbol.name ≠ w.symbol.name := by decide
  obtain ⟨thins, removed, -⟩ := pascal_thins program program.analyze.forest "levels" apart
  exact ⟨program, parsed, by decide, thins, removed.trans (by decide)⟩

end Program

end Pascalize
