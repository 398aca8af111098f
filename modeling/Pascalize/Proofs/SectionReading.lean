import Pascalize.Proofs.DeclarationReading
import Pascalize.Proofs.ScopeAgreement

/-!
# The sections of a program

A section is a routine as its lines show it: the heading, the variables on the lines right below it, and
the sections between the heading and the end that has its name. `readProgram` finds the sections of a
program in the texts of its lines and refuses lines that do not nest, or a variable that stands elsewhere.
What it finds in the Pascal of a program is what the program declares: `Program.readProgram_pascal`.
-/

namespace Pascalize

namespace Pascal

/-- A routine as its lines show it. -/
inductive Section where
  | mk (heading : Heading) (vars : List Variable) (inner : List Section)
deriving Inhabited

namespace Section

def heading : Section → Heading
  | mk heading .. => heading

def vars : Section → List Variable
  | mk _ vars _ => vars

def inner : Section → List Section
  | mk _ _ inner => inner

def name (s : Section) : String :=
  s.heading.name

end Section

/-- What was read of a section so far, and whether only variables were. -/
structure Part where
  vars : List Variable := []
  inner : List Section := []
  atTop : Bool := true
deriving Inhabited

namespace Part

/-- A part with sections behind it. -/
def add (p : Part) (sections : List Section) : Part :=
  ⟨p.vars, p.inner ++ sections, p.atTop && sections.isEmpty⟩

/-- A part with something behind it that is neither a variable nor a section. -/
def pass (p : Part) : Part :=
  { p with atTop := false }

@[simp] theorem add_nil (p : Part) : p.add [] = p := by
  simp [add]

@[simp] theorem add_add (p : Part) (l l' : List Section) : (p.add l).add l' = p.add (l ++ l') := by
  cases l <;> simp [add]

/-- Variables may no longer stand behind a section. -/
@[simp] theorem pass_add_cons (p : Part) (s : Section) (l : List Section) :
    p.pass.add (s :: l) = p.add (s :: l) := by
  simp [add, pass]

end Part

/-- How far lines were read: the part of the section that is open, and the sections around it, each as the
heading of the one inside it and the part before that heading. -/
structure Scan where
  part : Part := {}
  around : List (Heading × Part) := []
deriving Inhabited

namespace Scan

/-- Ends the open section, if it has that name. -/
def close? (r : Scan) (name : String) : Option Scan :=
  match r.around with
  | [] => none
  | (heading, outer) :: around =>
    if heading.name = name then
      some ⟨outer.add [.mk heading r.part.vars r.part.inner], around⟩
    else
      none

/-- Takes in what a line says. -/
def step (r : Scan) : Notice → Option Scan
  | .var v =>
    if r.part.atTop then some { r with part := { r.part with vars := r.part.vars ++ [v] } } else none
  | .heading heading => some ⟨{}, (heading, r.part) :: r.around⟩
  | .routineEnd name => r.close? name
  | .other => some { r with part := r.part.pass }

end Scan

/-- A program as its lines show it. -/
structure Sections where
  name : String
  vars : List Variable
  inner : List Section
deriving Inhabited

/-- The sections between the heading of a program and its end, if all of them end there. -/
def readSections (name : String) (texts : List String) : Option Sections :=
  match (texts.map readNotice).foldlM Scan.step {} with
  | some ⟨part, []⟩ => some ⟨name, part.vars, part.inner⟩
  | _ => none

/-- The sections of a program: it starts with its heading and ends with the end that has its name. -/
def readProgram : List String → Option Sections
  | [] => none
  | first :: rest => do
    let name ← between? "program ".toList ";".toList first.toList
    let name := String.ofList name
    if rest.getLast? = some ("end." ++ endRemark name) then readSections name rest.dropLast else none

/-! ## Lines in turn -/

/-- At any depth, the lines lead from one scan to the other. -/
def Scans (lines : List Line) (r r' : Scan) : Prop :=
  ∀ depth, (lines.map fun l => readNotice (Line.text { l with depth := l.depth + depth })).foldlM
    Scan.step r = some r'

namespace Scans

variable {lines lines' : List Line} {r r' r'' : Scan} {part : Part}

theorem nil (r : Scan) : Scans [] r r :=
  fun _ => rfl

/-- One run of lines after another. -/
theorem append (h : Scans lines r r') (h' : Scans lines' r' r'') : Scans (lines ++ lines') r r'' := by
  intro depth
  rw [List.map_append, List.foldlM_append, h depth]
  exact h' depth

/-- A line is scanned by what it says, at any depth. -/
theorem line {content : Content} {notice : Notice} (told : content.Says notice)
    (h : r.step notice = some r') (depth : Nat) : Scans [⟨depth, content⟩] r r' := by
  intro more
  simp [told (depth + more), h]

theorem indent (h : Scans lines r r') : Scans (Line.indent lines) r r' := by
  intro depth
  have deeper := h (depth + 1)
  simpa [Line.indent, Function.comp_def, Nat.add_comm, Nat.add_left_comm] using deeper

/-- A line of the statements ends the variables. -/
theorem other {content : Content} (told : content.Says .other) (depth : Nat) (part : Part)
    (around : List (Heading × Part)) : Scans [⟨depth, content⟩] ⟨part, around⟩ ⟨part.pass, around⟩ :=
  line told rfl depth

/-- Lines that say nothing about sections are passed over. -/
theorem others (h : ∀ l ∈ lines, l.content.Says .other) (part : Part)
    (around : List (Heading × Part)) : Scans lines ⟨part.pass, around⟩ ⟨part.pass, around⟩ := by
  induction lines with
  | nil => exact nil _
  | cons l lines ih =>
    rw [List.forall_mem_cons] at h
    exact (other h.1 l.depth part.pass around).append (ih h.2)

/-- Variables are collected while nothing else has come. -/
theorem vars (vs : List Variable) {more : List Variable} (legible : ∀ v ∈ more, v.Legible)
    (around : List (Heading × Part)) :
    Scans (more.map fun v => ⟨0, .var v⟩) ⟨⟨vs, [], true⟩, around⟩ ⟨⟨vs ++ more, [], true⟩, around⟩ := by
  induction more generalizing vs with
  | nil => simpa using nil _
  | cons v more ih =>
    rw [List.forall_mem_cons] at legible
    have first : Scans [⟨0, .var v⟩] ⟨⟨vs, [], true⟩, around⟩ ⟨⟨vs ++ [v], [], true⟩, around⟩ :=
      line (Content.says_var legible.1) rfl 0
    simpa using first.append (ih (vs ++ [v]) legible.2)

/-- The statements of a routine and its end. -/
theorem block (h : ∀ l ∈ lines, l.content.Says .other) (heading : Heading) (part outer : Part)
    (around : List (Heading × Part)) : Scans (Line.block lines (.routineEnd heading.name))
      ⟨part, (heading, outer) :: around⟩ ⟨outer.add [.mk heading part.vars part.inner], around⟩ := by
  have ends : Scans [⟨0, .routineEnd heading.name⟩] ⟨part.pass, (heading, outer) :: around⟩
      ⟨outer.add [.mk heading part.vars part.inner], around⟩ :=
    line (Content.says_routineEnd heading.name) (by simp [Scan.step, Scan.close?, Part.pass]) 0
  exact (other Content.says_begin 0 part _).append ((others h part _).indent.append ends)

/-- What stands between the heading of a program and its end. -/
theorem program (h : Scans lines {} ⟨part, []⟩) (name : String) :
    readProgram ((⟨0, .program name⟩ :: (lines ++ [⟨0, .programEnd name⟩])).map Line.text) =
      some ⟨name, part.vars, part.inner⟩ := by
  have titled : between? "program ".toList ";".toList ("program " ++ name ++ ";").toList =
      some name.toList := between?_eq_some.2 (by simp)
  have inside := h 0
  simp only [Nat.add_zero] at inside
  simp only [List.map_cons, List.map_append, List.map_nil, Line.text_zero, Content.text, readProgram, titled,
    Option.bind_eq_bind, Option.bind_some, String.ofList_toList, List.getLast?_concat, if_true,
    List.dropLast_concat, readSections, List.map_map]
  rw [Function.comp_def, inside]

end Scans

namespace Routine

mutual

/-- A routine without its statements. -/
def toSection : Routine → Section
  | mk heading vars inner _ _ => .mk heading vars.kept (toSections inner)

def toSections : List Routine → List Section
  | [] => []
  | r :: rest => r.toSection :: toSections rest

end

theorem toSections_eq_map (rs : List Routine) : toSections rs = rs.map toSection := by
  induction rs with
  | nil => rfl
  | cons r rest ih => rw [toSections, ih, List.map_cons]

@[simp] theorem name_toSection (r : Routine) : r.toSection.name = r.name := by
  cases r
  rfl

/-- What stands on the lines of a routine can be read from them. -/
inductive Legible : Routine → Prop where
  | mk {heading : Heading} {vars : VarSection} {inner : List Routine} {spaced : Bool} {body : List Line}
      (headed : heading.Legible) (declared : ∀ v ∈ vars.kept, v.Legible)
      (routines : ∀ r ∈ inner, Legible r) (statements : ∀ l ∈ body, l.content.Says .other) :
      Legible (.mk heading vars inner spaced body)

theorem innerLines_eq_flatMap (rs : List Routine) :
    innerLines rs = rs.flatMap fun r => ⟨0, .blank⟩ :: Line.indent r.lines := by
  induction rs with
  | nil => rfl
  | cons r rest ih => rw [innerLines, ih, List.flatMap_cons, List.cons_append]

/-- Routines in turn, each after a blank line. -/
theorem scans_flatMap {rs : List Routine} {lines : Routine → List Line} {around : List (Heading × Part)}
    (h : ∀ r ∈ rs, ∀ part, Scans (lines r) ⟨part, around⟩ ⟨part.add [r.toSection], around⟩)
    (part : Part) : Scans (rs.flatMap fun r => ⟨0, .blank⟩ :: lines r) ⟨part, around⟩
      ⟨part.add (rs.map toSection), around⟩ := by
  induction rs generalizing part with
  | nil => simpa using Scans.nil _
  | cons r rest ih =>
    rw [List.forall_mem_cons] at h
    have blank : Scans [⟨0, .blank⟩] ⟨part, around⟩ ⟨part.pass, around⟩ :=
      .other Content.says_blank 0 part around
    have first := h.1 part.pass
    have others := ih h.2 (part.add [r.toSection])
    rw [Part.pass_add_cons] at first
    rw [Part.add_add] at others
    exact (blank.append first).append others

/-- The lines of a routine read as its section. -/
theorem Legible.scans {r : Routine} (h : r.Legible) : ∀ part around,
    Scans r.lines ⟨part, around⟩ ⟨part.add [r.toSection], around⟩ := by
  induction h with
  | @mk heading vars inner spaced body headed declared _ statements ih =>
    intro part around
    have opens : Scans [⟨0, .heading heading⟩] ⟨part, around⟩ ⟨{}, (heading, part) :: around⟩ :=
      .line (Content.says_heading headed) rfl 0
    have own : Scans vars.lines ⟨{}, (heading, part) :: around⟩
        ⟨⟨vars.kept, [], true⟩, (heading, part) :: around⟩ := .vars [] declared _
    have within := scans_flatMap (fun r member p => (ih r member p ((heading, part) :: around)).indent)
      ⟨vars.kept, [], true⟩
    rw [← innerLines_eq_flatMap] at within
    obtain ⟨read, blank, same, same'⟩ : ∃ read : Part, Scans (if spaced then [⟨0, .blank⟩] else [])
        ⟨(⟨vars.kept, [], true⟩ : Part).add (inner.map toSection), (heading, part) :: around⟩
        ⟨read, (heading, part) :: around⟩ ∧ read.vars = vars.kept ∧ read.inner = inner.map toSection := by
      split
      · exact ⟨_, .other Content.says_blank 0 _ _, rfl, rfl⟩
      · exact ⟨_, .nil _, rfl, rfl⟩
    have rest := Scans.block statements heading read part around
    rw [same, same', ← toSections_eq_map] at rest
    exact opens.append (((own.append within).append blank).append rest)

end Routine

/-- What stands on the lines of a program can be read from them. -/
structure Listing.Legible (p : Listing) : Prop where
  vars : ∀ v ∈ p.vars, v.Legible
  routines : ∀ r ∈ p.routines, r.Legible
  body : ∀ l ∈ p.body, l.content.Says .other

/-- The lines of a program read as its variables and the sections of its routines. -/
theorem Listing.Legible.readProgram_lines {p : Listing} (h : p.Legible) :
    readProgram (p.lines.map Line.text) = some ⟨p.name, p.vars, p.routines.map Routine.toSection⟩ := by
  have vars : Scans (p.vars.map fun v => ⟨0, .var v⟩) {} ⟨⟨p.vars, [], true⟩, []⟩ := .vars [] h.vars []
  have sections := Routine.scans_flatMap (fun r member part => (h.routines r member).scans part [])
    ⟨p.vars, [], true⟩
  let read : Part := (⟨p.vars, [], true⟩ : Part).add (p.routines.map Routine.toSection)
  have blank : Scans [⟨0, .blank⟩] ⟨read, []⟩ ⟨read.pass, []⟩ := .other Content.says_blank 0 read []
  have begins : Scans [⟨0, .begin⟩] ⟨read.pass, []⟩ ⟨read.pass, []⟩ :=
    .other Content.says_begin 0 read.pass []
  have statements := (Scans.others h.body read []).indent
  have all := ((vars.append sections).append (blank.append (begins.append statements))).program p.name
  have lines : p.lines = ⟨0, .program p.name⟩ :: ((p.vars.map (fun v => ⟨0, .var v⟩) ++
      p.routines.flatMap (fun r => ⟨0, .blank⟩ :: r.lines) ++
      ([⟨0, .blank⟩] ++ ([⟨0, .begin⟩] ++ Line.indent p.body))) ++ [⟨0, .programEnd p.name⟩]) := by
    simp [Listing.lines, Line.block]
  rw [lines]
  exact all

end Pascal

open Pascal

/-! ## What is declared -/

namespace Declared

/-- The variables among what is declared. -/
def vars (xs : List Declared) : List Variable :=
  (xs.filterMap declaration?).map Declaration.pascal

mutual

/-- The section of a function with what is declared inside it. -/
def sections : Declared → List Section
  | var _ => []
  | function d inside => [.mk (headingOf d.returns d.name d.params) (vars inside) (sectionsAll inside)]

def sectionsAll : List Declared → List Section
  | [] => []
  | x :: rest => x.sections ++ sectionsAll rest

end

end Declared

/-- The variables of a bare scope. -/
def BareScope.vars (s : BareScope) : List Symbol :=
  s.symbols.filter Symbol.isVariable

/-- Uses are no matter for which symbols are variables. -/
theorem Scope.vars_bare (outer : List ScopeId) (s : Scope) : (s.bare outer).vars = s.vars.map Symbol.bare := by
  have isVariable (symbol : Symbol) : symbol.bare.isVariable = symbol.isVariable := by
    rcases symbol with ⟨_, role, _, _, _⟩
    cases role <;> rfl
  simp only [BareScope.vars, Scope.vars, Scope.bare, List.filter_map, Function.comp_def, isVariable]

/-- The declarations of a body add their variables in order. -/
theorem Declared.vars_extend (n : ScopeId) (xs : List Declared) (s : BareScope) :
    (extend n xs s).vars = s.vars ++ (xs.filterMap declaration?).map (Declaration.symbol .var) := by
  have more : (xs.map symbol).filter Symbol.isVariable =
      (xs.filterMap declaration?).map (Declaration.symbol .var) := by
    induction xs with
    | nil => rfl
    | cons x xs ih =>
      cases x with
      | var decl => simpa [declaration?, symbol, Declaration.symbol, Symbol.isVariable] using ih
      | function =>
        rw [List.filterMap_cons_none rfl]
        simpa [symbol, Symbol.ofFunction, Symbol.isVariable] using ih
  simp only [BareScope.vars, extend, List.filter_append, more]

/-- With nothing left out, the variables of a scope are those that are declared in it. -/
theorem Forest.kept_varSection {f : Forest} {id n : ScopeId} {xs : List Declared} {s : BareScope}
    (is : f.bare[id]? = some (Declared.extend n xs s)) (none : s.vars = []) :
    (f.varSection false id).kept = Declared.vars xs := by
  rw [getElem?_bare, Option.map_eq_some_iff] at is
  obtain ⟨scope, there, same⟩ := is
  have symbols : scope.vars.map Symbol.bare =
      (xs.filterMap Declared.declaration?).map (Declaration.symbol .var) := by
    rw [← Scope.vars_bare, same, Declared.vars_extend, none, List.nil_append]
  let ofBare (symbol : Symbol) : Variable := ⟨symbol.name, (symbol.written.map typeName).getD ""⟩
  have each : ∀ v ∈ scope.vars, f.declared v = ofBare v.bare := by
    intro v member
    have bare : v.bare ∈ scope.vars.map Symbol.bare := List.mem_map_of_mem member
    rw [symbols] at bare
    obtain ⟨d, -, is⟩ := List.mem_map.1 bare
    have written : v.written = some d.type.base := congrArg Symbol.written is.symm
    simp [declared, typeText?, ofBare, Symbol.bare, written]
  have all : scope.vars.filter (!drops false ·) = scope.vars := List.filter_eq_self.2 fun _ _ => rfl
  calc (f.varSection false id).kept
    _ = scope.vars.map f.declared := by simp only [varSection, there, all]
    _ = (scope.vars.map Symbol.bare).map ofBare := by rw [List.map_congr_left each, List.map_map]; rfl
    _ = Declared.vars xs := by rw [symbols, List.map_map]; rfl

namespace Declared

theorem nodup_vars {xs : List Declared} (distinct : (xs.map name).Nodup) :
    ((vars xs).map Variable.name).Nodup := by
  refine List.Sublist.nodup ?_ distinct
  clear distinct
  induction xs with
  | nil => exact .slnil
  | cons x xs ih =>
    cases x with
    | var decl => exact ih.cons_cons _
    | function => exact ih.cons _

/-- A section comes from a function that is declared. -/
theorem of_mem_sectionsAll {xs : List Declared} {s : Section} (member : s ∈ sectionsAll xs) :
    ∃ d inside, function d inside ∈ xs ∧
      s = .mk (headingOf d.returns d.name d.params) (vars inside) (sectionsAll inside) := by
  induction xs with
  | nil => nomatch member
  | cons x xs ih =>
    rw [sectionsAll, List.mem_append] at member
    obtain here | later := member
    · cases x with
      | var => nomatch here
      | function d inside =>
        rw [sections, List.mem_singleton] at here
        exact ⟨d, inside, List.mem_cons_self, here⟩
    · obtain ⟨d, inside, inXs, is⟩ := ih later
      exact ⟨d, inside, List.mem_cons_of_mem x inXs, is⟩

/-- A scope with nothing but parameters has no variables. -/
theorem vars_params (d : Definition) (outer : List ScopeId) :
    BareScope.vars ⟨d.name, outer, d.params.map (Declaration.symbol .parameter), []⟩ = [] := by
  simp [BareScope.vars, Declaration.symbol, Symbol.isVariable]

mutual

/-- **The routines of a function** show the sections of what it declares, if its scope is laid out by it.
-/
theorem sections_of_laid {f : Forest} {outer : List ScopeId} {outside n : ScopeId} : (x : Declared) →
    x.Laid f outer n → (x.scopings outside n).map (fun s => (s.routine f false).toSection) = x.sections
  | var _, _ => rfl
  | function d inside, laid => by
    have vars := Forest.kept_varSection laid.1 (vars_params d outer)
    have inner : (scopingsAll n (n + 1) inside).map (fun s => (s.routine f false).toSection) = _ :=
      sectionsAll_of_laid inside laid.2
    simp only [scopings, List.map_singleton, Scoping.routine, Routine.toSection, Scoping.routines_eq_map,
      Routine.toSections_eq_map, List.map_map, Function.comp_def, inner, sections]
    simp [vars]

/-- The sections of the routines for functions are made of what is declared. -/
theorem sectionsAll_of_laid {f : Forest} {outer : List ScopeId} {outside n : ScopeId} :
    (xs : List Declared) → LaidAll f outer n xs →
      (scopingsAll outside n xs).map (fun s => (s.routine f false).toSection) = sectionsAll xs
  | [], _ => rfl
  | x :: rest, laid => by
    rw [scopingsAll, List.map_append, sections_of_laid x laid.1, sectionsAll_of_laid rest laid.2,
      sectionsAll]

end

end Declared

/-! ## Declarations can be read -/

/-- What is declared has words for names and types, and in functions there are statements. -/
inductive Declared.Proper : Declared → Prop where
  | var {decl : Declaration} (proper : decl.Proper) : Proper (.var decl)
  | function {d : Definition} {inside : List Declared}
      (headed : (headingOf d.returns d.name d.params).Legible)
      (statements : ∀ s ∈ d.body, s.IsStatement) (each : ∀ x ∈ inside, Proper x) :
      Proper (.function d inside)

namespace Node

/-- What holds of what each statement declares holds of all that is declared. -/
theorem forall_mem_declaredAll {P : Declared → Prop} {nodes : List Node}
    (h : ∀ s ∈ nodes, ∀ x ∈ s.declared, P x) : ∀ x ∈ declaredAll nodes, P x := by
  rw [declaredAll_eq_flatMap, List.forall_mem_flatMap]
  exact h

theorem IsDeclared.proper_declared {x : Node} (h : x.IsDeclared) : ∀ y ∈ x.declared, y.Proper := by
  cases h with
  | declaration proper =>
    rw [declared]
    exact List.forall_mem_singleton.2 (.var proper)
  | assignment _ _ _ is =>
    rw [declared, declared, is.declared]
    simp

/-- What a statement declares has names that can be read back, by induction on the statement. -/
theorem IsStatement.proper_declared {s : Node} (h : s.IsStatement) : ∀ x ∈ s.declared, x.Proper := by
  induction h with
  | declaration proper => exact (IsDeclared.declaration proper).proper_declared
  | declarations _ first _ each =>
    rw [declared]
    refine forall_mem_declaredAll (List.forall_mem_cons.2 ⟨?_, ?_⟩)
    · exact (IsDeclared.declaration first).proper_declared
    · exact fun x member => (each x member).proper_declared
  | function _ typed named parameters statements ih =>
    rw [declared]
    exact List.forall_mem_singleton.2
      (.function (legible_headingOf typed named parameters) statements (forall_mem_declaredAll ih))
  | conditional _ test _ ih | loop _ test _ ih =>
    rw [declared, test.declared]
    exact forall_mem_declaredAll ih
  | alternative _ _ ih =>
    rw [declared]
    exact forall_mem_declaredAll ih
  | assignment _ _ _ is =>
    rw [declared, declared, is.declared]
    simp
  | call _ _ items =>
    rw [declared, declaredAll_eq_nil fun e member => (items e member).declared]
    simp
  | result _ is =>
    rw [declared, is.declared]
    simp
  | input _ _ each =>
    rw [declared, declaredAll_eq_nil fun e member => (each e member).declared]
    simp
  | output _ _ each =>
    rw [declared, declaredAll_eq_nil fun e member => (each e member).elim (·.declared)
      fun is => (IsExpression.literal is).declared]
    simp
  | comment => simp [declared]

end Node

theorem Declared.legible_vars {xs : List Declared} (h : ∀ x ∈ xs, x.Proper) :
    ∀ v ∈ vars xs, v.Legible := by
  intro v member
  obtain ⟨decl, isDecl, rfl⟩ := List.mem_map.1 member
  obtain ⟨x, inXs, is⟩ := List.mem_filterMap.1 isDecl
  cases h x inXs with
  | var proper =>
    obtain rfl := Option.some.inj is
    exact proper.legible
  | function => nomatch is

/-- Leaving out variables adds none. -/
theorem Forest.kept_subset (f : Forest) (optimize : Bool) (id : ScopeId) :
    (f.varSection optimize id).kept ⊆ (f.varSection false id).kept := by
  simp only [varSection]
  split
  · exact List.Subset.refl _
  · refine List.map_subset _ fun v member => List.mem_filter.2 ⟨(List.mem_filter.1 member).1, rfl⟩

/-- The routine for a function whose scope is known can be read. -/
theorem Declared.Proper.legible {x : Declared} (h : x.Proper) {f : Forest} (optimize : Bool) :
    ∀ {outer : List ScopeId} {outside n : ScopeId}, x.Laid f outer n →
      ∀ s ∈ x.scopings outside n, (s.routine f optimize).Legible := by
  induction h with
  | var => exact fun _ _ member => nomatch member
  | @function d inside headed statements each ih =>
    intro outer outside n laid s member
    obtain rfl := List.mem_singleton.1 member
    have vars := Forest.kept_varSection laid.1 (vars_params d outer)
    refine .mk headed ?_ ?_ (Node.says_linesAll statements)
    · intro v isKept
      exact legible_vars each v (vars ▸ Forest.kept_subset f optimize n isKept)
    · rw [Scoping.routines_eq_map]
      refine List.forall_mem_map.2 fun t inner => ?_
      obtain ⟨d', inside', own, rfl, inXs, there⟩ := of_mem_scopingsAll laid.2 inner
      exact ih _ inXs there _ (List.mem_singleton_self _)

namespace Scoping

variable {f : Forest} {optimize : Bool} {s t : Scoping}

theorem legible_inner (h : (s.routine f optimize).Legible) (member : t ∈ s.inner) :
    (t.routine f optimize).Legible := by
  obtain ⟨d, outside, own, inner⟩ := s
  cases h with
  | mk _ _ routines =>
    rw [routines_eq_map] at routines
    exact routines _ (List.mem_map_of_mem member)

/-- The variables that are written can be read back. -/
theorem legible_kept (h : (s.routine f optimize).Legible) {own : ScopeId} (is : s.own = some own) :
    ∀ v ∈ (f.varSection optimize own).kept, v.Legible := by
  obtain ⟨d, outside, own', inner⟩ := s
  obtain rfl : own' = some own := is
  cases h with
  | mk _ declared => exact declared

/-- A routine that is moved out of `main` was inside it. -/
theorem of_mem_hoist {l : List Scoping} (member : s ∈ hoist l) :
    s ∈ l ∨ ∃ main, l.find? (·.name = mainName) = some main ∧ s ∈ main.inner := by
  rw [hoist, List.mem_append] at member
  obtain atTop | inMain := member
  · exact .inl (List.mem_filter.1 atTop).1
  · have inside := (List.mem_filter.1 inMain).1
    cases found : l.find? (·.name = mainName) with
    | none => simp [found] at inside
    | some main => exact .inr ⟨main, rfl, by simpa [found] using inside⟩

end Scoping

/-! ## Programs -/

namespace Program

/-- The sections of the functions at the top of a program. -/
def sections (program : Program) : List Section :=
  Declared.sectionsAll program.declared

/-- The section that `main` would have. -/
def mainSection? (program : Program) : Option Section :=
  program.sections.find? (·.name = mainName)

/-- The variables at the top of a program. -/
def globals (program : Program) : List Variable :=
  Declared.vars program.declared

/-- The variables of `main`. -/
def locals (program : Program) : List Variable :=
  (program.mainSection?.map Section.vars).getD []

/-- The sections of the functions inside `main`. -/
def inMain (program : Program) : List Section :=
  (program.mainSection?.map Section.inner).getD []

variable {source : String} {program : Program}

/-- The sections of a program are those of its routines as the analysis has met them. -/
theorem sections_eq_met (clear : program.analyze.Clear) :
    program.sections = program.met.map fun s => (s.routine program.analyze.forest false).toSection := by
  rw [met_eq]
  exact (Declared.sectionsAll_of_laid program.declared (laidAll_analyze clear)).symm

theorem mainSection?_eq_met (clear : program.analyze.Clear) :
    program.mainSection? = (program.met.find? (·.name = mainName)).map
      fun s => (s.routine program.analyze.forest false).toSection := by
  rw [mainSection?, sections_eq_met clear, List.find?_map]
  simp only [Function.comp_def, Routine.name_toSection, Scoping.name_routine]

/-- Without optimization all variables of the program are kept. -/
theorem kept_globals (clear : program.analyze.Clear) :
    (program.analyze.forest.varSection false Forest.global).kept = program.globals :=
  Forest.kept_varSection (bare_global clear) rfl

/-- So are those of `main`. -/
theorem kept_locals (parsed : parse source = .ok program) (clear : program.analyze.Clear) :
    (((program.mainScope? program.analyze.forest).map
      (program.analyze.forest.varSection false)).getD {}).kept = program.locals := by
  rw [mainScope?_eq_met parsed clear, locals, mainSection?_eq_met clear]
  cases program.met.find? (·.name = mainName) with
  | none => rfl
  | some s =>
    obtain ⟨d, outside, own, inner⟩ := s
    cases own <;> rfl

theorem sections_mainRoutines (parsed : parse source = .ok program) (clear : program.analyze.Clear) :
    (program.mainRoutines program.analyze.forest false).map Routine.toSection = program.inMain := by
  rw [mainRoutines_eq_lookup, mainLookup?, lookups_eq_met parsed clear, inMain, mainSection?_eq_met clear]
  cases program.met.find? (·.name = mainName) with
  | none => rfl
  | some s =>
    obtain ⟨d, outside, own, inner⟩ := s
    simp [Scoping.routine, Scoping.inner, Routine.toSection, Section.inner, Scoping.routines_eq_map,
      Routine.toSections_eq_map]

theorem sections_routinesAll (parsed : parse source = .ok program) (clear : program.analyze.Clear) :
    (Node.routinesAll program.analyze.forest false Forest.global program.statements).map
      Routine.toSection = program.sections := by
  rw [Node.routinesAll_eq_lookups, Scoping.routines_eq_map, sections_eq_met clear, List.map_map,
    ← lookups_eq_met parsed clear]
  rfl

theorem proper_declared (parsed : parse source = .ok program) : ∀ x ∈ program.declared, x.Proper :=
  Node.forall_mem_declaredAll fun s member => (isStatement_of_parse parsed s member).proper_declared

/-- All routines of a program can be read back. -/
theorem legible_met (parsed : parse source = .ok program) (clear : program.analyze.Clear)
    (optimize : Bool) : ∀ s ∈ program.met, (s.routine program.analyze.forest optimize).Legible := by
  intro s member
  obtain ⟨d, inside, own, rfl, inXs, laid⟩ := of_mem_met clear member
  exact (proper_declared parsed _ inXs).legible optimize laid _ (List.mem_singleton_self _)

/-- The lines of a parsed program can be read. -/
theorem legible_pascal (parsed : parse source = .ok program) (clear : program.analyze.Clear)
    (options : Options) : (program.pascal program.analyze.forest options).Legible where
  vars := by
    intro v member
    simp only [pascal, List.mem_append, List.mem_filter] at member
    obtain ⟨isGlobal, -⟩ | isLocal := member
    · have kept := Forest.kept_subset _ _ _ isGlobal
      rw [kept_globals clear] at kept
      exact Declared.legible_vars (proper_declared parsed) v kept
    · cases is : program.mainScope? program.analyze.forest with
      | none => simp [is] at isLocal
      | some own =>
        have isMain := (mainScope?_eq_met parsed clear).symm.trans is
        obtain ⟨main, found, isOwn⟩ := Option.bind_eq_some_iff.1 isMain
        have legible := legible_met parsed clear options.optimize main (List.mem_of_find?_eq_some found)
        rw [is] at isLocal
        exact Scoping.legible_kept legible isOwn v isLocal
  routines := by
    rw [routines_pascal, lookups_eq_met parsed clear]
    refine List.forall_mem_map.2 fun s member => ?_
    have legible := legible_met parsed clear options.optimize
    obtain atTop | ⟨main, found, inside⟩ := Scoping.of_mem_hoist member
    · exact legible s atTop
    · exact Scoping.legible_inner (legible main (List.mem_of_find?_eq_some found)) inside
  body := Node.says_linesAll (Emits.isStatement parsed (.body program.analyze.forest options))

/-- Whether a variable of `main` has that name. -/
def isLocal (program : Program) (name : String) : Bool :=
  program.locals.any (·.name = name)

/-- Whether a function at the top other than `main` has that name. -/
def isTop (program : Program) (name : String) : Bool :=
  (program.sections.filter (·.name ≠ mainName)).any (·.name = name)

/-- **The variables of a program** are the global ones that `main` has no variable for, and those of
`main`. -/
theorem vars_pascal (parsed : parse source = .ok program) (clear : program.analyze.Clear)
    (title : String) : (program.pascal program.analyze.forest ⟨false, title⟩).vars =
      program.globals.filter (!program.isLocal ·.name) ++ program.locals := by
  simp only [pascal, isLocal, ← kept_globals clear, ← kept_locals parsed clear]
  cases program.mainScope? program.analyze.forest <;> rfl

/-- **The routines of a program** are the outer ones but `main`, and those inside `main` that no outer
one has the name of. -/
theorem sections_pascal (parsed : parse source = .ok program) (clear : program.analyze.Clear)
    (title : String) :
    (program.pascal program.analyze.forest ⟨false, title⟩).routines.map Routine.toSection =
      program.sections.filter (·.name ≠ mainName) ++ program.inMain.filter (!program.isTop ·.name) := by
  simp only [pascal, isTop, ← sections_routinesAll parsed clear, ← sections_mainRoutines parsed clear,
    List.map_append, List.filter_map, List.any_map, Function.comp_def, Routine.name_toSection]

/-- What is left out is warned about. -/
theorem warnings_pascal (parsed : parse source = .ok program) (clear : program.analyze.Clear)
    (title : String) : (program.pascal program.analyze.forest ⟨false, title⟩).warnings =
      (program.globals.filter (program.isLocal ·.name)).map (fun v => Warning.shadowedGlobal v.name) ++
      (program.inMain.filter (program.isTop ·.name)).map (fun s => Warning.duplicateFunction s.name) := by
  simp only [pascal, isLocal, isTop, ← kept_globals clear, ← kept_locals parsed clear,
    ← sections_routinesAll parsed clear, ← sections_mainRoutines parsed clear, List.filter_map,
    List.any_map, List.map_map, Function.comp_def, Routine.name_toSection]
  cases program.mainScope? program.analyze.forest <;> rfl

theorem isLocal_iff {name : String} :
    program.isLocal name = true ↔ name ∈ program.locals.map Variable.name := by
  simp [isLocal]

theorem isTop_iff {name : String} :
    program.isTop name = true ↔ name ≠ mainName ∧ name ∈ program.sections.map Section.name := by
  simp only [isTop, List.any_eq_true, List.mem_filter, List.mem_map, decide_eq_true_eq]
  constructor
  · rintro ⟨s, ⟨member, other⟩, rfl⟩
    exact ⟨other, s, member, rfl⟩
  · rintro ⟨other, s, member, rfl⟩
    exact ⟨s, ⟨member, other⟩, rfl⟩

theorem shadowedGlobal_iff (parsed : parse source = .ok program) (clear : program.analyze.Clear)
    (title name : String) :
    .shadowedGlobal name ∈ (program.pascal program.analyze.forest ⟨false, title⟩).warnings ↔
      name ∈ program.globals.map Variable.name ∧ program.isLocal name = true := by
  rw [warnings_pascal parsed clear]
  simp only [List.mem_append, List.mem_map, List.mem_filter, Warning.shadowedGlobal.injEq, reduceCtorEq,
    and_false, exists_false, or_false]
  constructor
  · rintro ⟨v, ⟨member, isLocal⟩, rfl⟩
    exact ⟨⟨v, member, rfl⟩, isLocal⟩
  · rintro ⟨⟨v, member, rfl⟩, isLocal⟩
    exact ⟨v, ⟨member, isLocal⟩, rfl⟩

theorem duplicateFunction_iff (parsed : parse source = .ok program) (clear : program.analyze.Clear)
    (title name : String) :
    .duplicateFunction name ∈ (program.pascal program.analyze.forest ⟨false, title⟩).warnings ↔
      name ∈ program.inMain.map Section.name ∧ program.isTop name = true := by
  rw [warnings_pascal parsed clear]
  simp only [List.mem_append, List.mem_map, List.mem_filter, Warning.duplicateFunction.injEq, reduceCtorEq,
    and_false, exists_false, false_or]
  constructor
  · rintro ⟨s, ⟨member, isTop⟩, rfl⟩
    exact ⟨⟨s, member, rfl⟩, isTop⟩
  · rintro ⟨⟨s, member, rfl⟩, isTop⟩
    exact ⟨s, ⟨member, isTop⟩, rfl⟩

theorem nodup_globals (clear : program.analyze.Clear) : (program.globals.map Variable.name).Nodup :=
  Declared.nodup_vars (program.titled_analyze.nodup_declared (bare_global clear))

theorem nodup_locals (clear : program.analyze.Clear) : (program.locals.map Variable.name).Nodup := by
  rw [locals]
  cases found : program.mainSection? with
  | none => exact List.nodup_nil
  | some s =>
    obtain ⟨d, inside, member, rfl⟩ := Declared.of_mem_sectionsAll (List.mem_of_find?_eq_some found)
    obtain ⟨n, laid⟩ := Declared.laid_of_mem (laidAll_analyze clear) member
    exact Declared.nodup_vars (program.titled_analyze.nodup_declared laid.1)

/-- No variable is declared twice, as a global one gives way to one of `main`. -/
theorem nodup_vars (parsed : parse source = .ok program) (clear : program.analyze.Clear)
    (title : String) :
    ((program.pascal program.analyze.forest ⟨false, title⟩).vars.map Variable.name).Nodup := by
  rw [vars_pascal parsed clear, List.map_append, List.nodup_append]
  refine ⟨(List.filter_sublist.map _).nodup (nodup_globals clear), nodup_locals clear, ?_⟩
  intro name member name' member' same
  obtain ⟨v, inside, rfl⟩ := List.mem_map.1 member
  have isLocal : program.isLocal v.name = true := isLocal_iff.2 (same ▸ member')
  simp [isLocal] at inside

/-- **Nothing declared is lost or doubled**: let a parsed program declare no name twice, and let nothing
be left out. In the text of its Pascal every function has one heading and one end of its name, inside
those of the function around it; functions at the top come first and then those inside `main`, but for
those that a warning names. Right below its heading stand the variables declared in it, in order. The
program has the global variables, but for those that a warning names, and then those of `main`, each name
once. A warning names a global variable iff `main` has a variable of its name, and a function inside
`main` iff one at the top has its name. -/
theorem readProgram_pascal (parsed : parse source = .ok program) (clear : program.analyze.Clear)
    (title : String) :
    let listing := program.pascal program.analyze.forest ⟨false, title⟩
    let vars := program.globals.filter (.shadowedGlobal ·.name ∉ listing.warnings) ++ program.locals
    readProgram (listing.lines.map Line.text) = some ⟨title, vars,
      program.sections.filter (·.name ≠ mainName) ++
        program.inMain.filter (.duplicateFunction ·.name ∉ listing.warnings)⟩ ∧
    (vars.map Variable.name).Nodup ∧
    (∀ name, .shadowedGlobal name ∈ listing.warnings ↔
      name ∈ program.globals.map Variable.name ∧ name ∈ program.locals.map Variable.name) ∧
    (∀ name, .duplicateFunction name ∈ listing.warnings ↔
      name ∈ program.inMain.map Section.name ∧ name ≠ mainName ∧
        name ∈ program.sections.map Section.name) := by
  intro listing vars
  have sameVars : vars = listing.vars := by
    rw [vars_pascal parsed clear]
    refine congrArg (· ++ program.locals) (List.filter_congr fun v member => ?_)
    have named : v.name ∈ program.globals.map Variable.name := List.mem_map_of_mem member
    simp [listing, shadowedGlobal_iff parsed clear, named]
  have sameSections : listing.routines.map Routine.toSection =
      program.sections.filter (·.name ≠ mainName) ++
        program.inMain.filter (.duplicateFunction ·.name ∉ listing.warnings) := by
    rw [sections_pascal parsed clear]
    refine congrArg (program.sections.filter (·.name ≠ mainName) ++ ·)
      (List.filter_congr fun s member => ?_)
    have named : s.name ∈ program.inMain.map Section.name := List.mem_map_of_mem member
    simp [listing, duplicateFunction_iff parsed clear, named]
  refine ⟨?_, ?_, fun name => ?_, fun name => ?_⟩
  · rw [sameVars, ← sameSections]
    exact (legible_pascal parsed clear _).readProgram_lines
  · rw [sameVars]
    exact nodup_vars parsed clear title
  · rw [shadowedGlobal_iff parsed clear, isLocal_iff]
  · rw [duplicateFunction_iff parsed clear, isTop_iff]

/-- A variable and a function of `main` that warnings name, and a function in one of its blocks. -/
theorem readProgram_of_clashes : ∃ program : Program,
    parse "int a; void f() { int b; } int main() { int a; void f() { } if (a) { void g() { } } }" =
      .ok program ∧
    program.analyze.Clear ∧
    (program.pascal program.analyze.forest ⟨false, "clashes"⟩).warnings =
      [.shadowedGlobal "a", .duplicateFunction "f"] ∧
    readProgram ((program.pascal program.analyze.forest ⟨false, "clashes"⟩).lines.map Line.text) =
      some ⟨"clashes", [⟨"a", "integer"⟩],
        [.mk ⟨"f", [], none⟩ [⟨"b", "integer"⟩] [], .mk ⟨"g", [], none⟩ [] []]⟩ := by
  let int (column : Nat) : TypeName := ⟨"int", none, ⟨1, column⟩⟩
  let program : Program := ⟨[
    .declaration ⟨int 1, "a", false, ⟨1, 5⟩⟩,
    .function "void" "f" [] [.declaration ⟨int 19, "b", false, ⟨1, 23⟩⟩] ⟨1, 13⟩,
    .function "int" "main" [] [.declaration ⟨int 41, "a", false, ⟨1, 45⟩⟩,
      .function "void" "f" [] [] ⟨1, 53⟩,
      .conditional (.var "a" ⟨1, 65⟩) [.function "void" "g" [] [] ⟨1, 75⟩] ⟨1, 61⟩] ⟨1, 32⟩], ⟨1, 86⟩⟩
  have parsed : parse
      "int a; void f() { int b; } int main() { int a; void f() { } if (a) { void g() { } } }" =
        .ok program :=
    (parse_ofList _).trans (by decide +kernel)
  have clear : program.analyze.Clear := by decide
  have warnings : (program.pascal program.analyze.forest ⟨false, "clashes"⟩).warnings =
      [.shadowedGlobal "a", .duplicateFunction "f"] := by decide
  obtain ⟨read, -⟩ := readProgram_pascal parsed clear "clashes"
  rw [warnings] at read
  exact ⟨program, parsed, clear, warnings, read⟩

end Program

end Pascalize
