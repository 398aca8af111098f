import Pascalize.Proofs.ProgramLevel

/-!
# What names bind to in Pascal

A Pascal block declares parameters, variables and routines, all of them ahead of its statements, and a
name binds to what the innermost block declares under it (`binding?`). The analysis resolves a name
among what was declared before it. The two differ where a name is used and then declared in a scope
nearer than the one it was found in: the declaration moves ahead of the use and takes it
(`Program.binds_declared_later`). They differ nowhere else (`Program.binding_pascal`): a name binds to the
declaration of the symbol that is found for it when all is declared.
-/

namespace Pascalize

namespace Pascal

/-- What a block declares. -/
inductive Item where
  | param (v : Variable)
  | var (v : Variable)
  | routine (heading : Heading)
deriving DecidableEq, Repr, Inhabited

namespace Item

def name : Item → String
  | param v | var v => v.name
  | routine heading => heading.name

/-- Whether the item declares what a symbol of that role names. -/
def fits : Item → Role → Bool
  | param _, .parameter | var _, .var | routine _, .function .. => true
  | _, _ => false

/-- An item fits a function whatever parameters it has. -/
theorem fits_bare (item : Item) (role : Role) : item.fits role.bare = item.fits role := by
  cases item <;> cases role <;> rfl

end Item

/-- What the block of a routine declares. -/
def Section.items (s : Section) : List Item :=
  s.heading.params.map .param ++ s.vars.map .var ++ s.inner.map (.routine ·.heading)

/-- What a program declares. -/
def Sections.items (p : Sections) : List Item :=
  p.vars.map .var ++ p.inner.map (.routine ·.heading)

end Pascal

open Pascal

/-- A declaration in Pascal with the scope of the symbol that it is written for. -/
structure Site where
  scope : ScopeId
  item : Item
deriving DecidableEq, Repr, Inhabited

namespace Site

def name (s : Site) : String :=
  s.item.name

/-- The declaration is written for that symbol. -/
def IsFor (f : Forest) (s : Site) (ref : SymbolId) : Prop :=
  f.find? s.scope s.name = some ref ∧ (f.symbol? ref).any (s.item.fits ·.role) = true

instance (f : Forest) (s : Site) (ref : SymbolId) : Decidable (s.IsFor f ref) :=
  inferInstanceAs (Decidable (_ ∧ _))

end Site

/-- What a name binds to in blocks, the innermost first: the declaration of that name in the first block
that has one, unless it has several. -/
def binding? (name : String) : List (List Site) → Option Site
  | [] => none
  | block :: outer =>
    match block.filter (·.name = name) with
    | [] => binding? name outer
    | [site] => some site
    | _ => none

/-- A thing and those around it, up to one of `top`. -/
inductive Nested {α : Type} (inner : α → List α) (top : List α) : List α → Prop where
  | top {x : α} (member : x ∈ top) : Nested inner top [x]
  | inside {x y : α} {outer : List α} (around : Nested inner top (x :: outer)) (member : y ∈ inner x) :
    Nested inner top (y :: x :: outer)

/-- A path stays one when the tree is mapped node by node. -/
theorem Nested.map {α β : Type} {inner : α → List α} {inner' : β → List β} {top path : List α} {g : α → β}
    (h : Nested inner top path) (same : ∀ x, (inner x).map g = inner' (g x)) :
    Nested inner' (top.map g) (path.map g) := by
  induction h with
  | top member => exact .top (List.mem_map_of_mem member)
  | inside _ member ih => exact .inside ih (same _ ▸ List.mem_map_of_mem member)

namespace Scoping

/-- The scope of a function, if it was found. -/
def scope (s : Scoping) : ScopeId :=
  s.own.getD Forest.global

/-- The section of the routine for a function, with nothing left out. -/
def toSection (f : Forest) (s : Scoping) : Section :=
  (s.routine f false).toSection

/-- What the block of a function declares is written for the symbols of its scope. -/
def block (f : Forest) (s : Scoping) : List Site :=
  (s.toSection f).items.map (⟨s.scope, ·⟩)

theorem inner_toSection (f : Forest) (s : Scoping) : s.inner.map (toSection f) = (s.toSection f).inner := by
  cases s
  simp only [toSection, routine, Routine.toSection, Section.inner, inner, routines_eq_map,
    Routine.toSections_eq_map, List.map_map]
  rfl

end Scoping

/-- What is declared at the program level, written for the symbols of the global scope and of `main`. -/
def Program.sites (program : Program) (f : Forest) : List Site :=
  let main := (program.mainScope? f).getD Forest.global
  (program.globals.filter (!program.isLocal ·.name)).map (⟨Forest.global, .var ·⟩) ++
    program.locals.map (⟨main, .var ·⟩) ++
    (program.sections.filter (·.name ≠ mainName)).map (⟨Forest.global, .routine ·.heading⟩) ++
    (program.inMain.filter (!program.isTop ·.name)).map (⟨main, .routine ·.heading⟩)

/-! ## Blocks and scopes -/

/-- Where names are told apart, a name is that of one site. -/
theorem filter_eq_singleton {l : List Site} (distinct : (l.map Site.name).Nodup) {x : Site}
    (member : x ∈ l) : l.filter (·.name = x.name) = [x] := by
  induction l with
  | nil => nomatch member
  | cons y l ih =>
    rw [List.map_cons, List.nodup_cons] at distinct
    obtain rfl | later := List.mem_cons.1 member
    · rw [List.filter_cons_of_pos (by simp), List.filter_eq_nil_iff.2]
      intro z inside same
      exact distinct.1 (of_decide_eq_true same ▸ List.mem_map_of_mem inside)
    · rw [List.filter_cons_of_neg, ih distinct.2 later]
      intro same
      exact distinct.1 (of_decide_eq_true same ▸ List.mem_map_of_mem later)

theorem eq_singleton_of_mem {l : List Site} {x : Site} (member : x ∈ l) (once : l.length ≤ 1) :
    l = [x] := by
  match l, member, once with
  | [], member, _ => nomatch member
  | [y], member, _ => rw [List.mem_singleton.1 member]
  | _ :: _ :: _, _, once => simp at once

/-- A block declares what a scope holds, and each name once. -/
structure Shows (f : Forest) (id : ScopeId) (block : List Site) : Prop where
  distinct : (block.map Site.name).Nodup
  sound : ∀ site ∈ block, ∃ ref, f.find? id site.name = some ref ∧ site.IsFor f ref
  complete : ∀ name ref, f.find? id name = some ref → ∃ site ∈ block, site.name = name

namespace Shows

variable {f : Forest} {id : ScopeId} {block : List Site} {name : String}

/-- A name that a scope has binds in the block that shows the scope. -/
theorem binding?_of_find? (h : Shows f id block) {ref : SymbolId} (found : f.find? id name = some ref)
    (outer : List (List Site)) :
    ∃ site, binding? name (block :: outer) = some site ∧ site.IsFor f ref := by
  obtain ⟨site, member, rfl⟩ := h.complete name ref found
  obtain ⟨ref', found', isFor⟩ := h.sound site member
  obtain rfl := Option.some.inj (found.symm.trans found')
  refine ⟨site, ?_, isFor⟩
  rw [binding?, filter_eq_singleton h.distinct member]

/-- A name that a scope does not have binds further out. -/
theorem binding?_of_none (h : Shows f id block) (free : f.find? id name = none)
    (outer : List (List Site)) : binding? name (block :: outer) = binding? name outer := by
  have none : block.filter (·.name = name) = [] := by
    rw [List.filter_eq_nil_iff]
    intro site member same
    obtain ⟨ref, found, -⟩ := h.sound site member
    rw [of_decide_eq_true same, free] at found
    nomatch found
  rw [binding?, none]

end Shows

/-- Along blocks that show their scopes, a name binds to what is found for it, or to what it binds to
outside of them. -/
theorem binding?_append {f : Forest} {blocks : List (ScopeId × List Site)}
    (shows : ∀ b ∈ blocks, Shows f b.1 b.2) (name : String) (outer : List (List Site)) :
    (∃ last site, (blocks.map Prod.fst).findSome? (f.find? · name) = some last ∧
      binding? name (blocks.map Prod.snd ++ outer) = some site ∧ site.IsFor f last) ∨
    (blocks.map Prod.fst).findSome? (f.find? · name) = none ∧
      binding? name (blocks.map Prod.snd ++ outer) = binding? name outer := by
  induction blocks with
  | nil => exact .inr ⟨rfl, rfl⟩
  | cons b blocks ih =>
    rw [List.forall_mem_cons] at shows
    simp only [List.map_cons, List.findSome?_cons, List.cons_append]
    cases found : f.find? b.1 name with
    | some ref =>
      obtain ⟨site, binds, isFor⟩ := shows.1.binding?_of_find? found (blocks.map Prod.snd ++ outer)
      exact .inl ⟨ref, site, rfl, binds, isFor⟩
    | none =>
      rw [shows.1.binding?_of_none found]
      exact ih shows.2

namespace Declared

/-- What is declared is declared as a variable or as a routine. -/
theorem perm_names (xs : List Declared) : ((vars xs).map Variable.name ++
    (sectionsAll xs).map Section.name).Perm (xs.map name) := by
  induction xs with
  | nil => exact .nil
  | cons x xs ih =>
    cases x with
    | var decl => exact ih.cons _
    | function d inside => exact List.perm_middle.trans (ih.cons _)

theorem mem_vars {xs : List Declared} {decl : Declaration} (member : var decl ∈ xs) :
    decl.pascal ∈ vars xs :=
  List.mem_map_of_mem (List.mem_filterMap.2 ⟨_, member, rfl⟩)

theorem mem_sectionsAll {xs : List Declared} {d : Definition} {inside : List Declared}
    (member : function d inside ∈ xs) :
    .mk (headingOf d.returns d.name d.params) (vars inside) (sectionsAll inside) ∈ sectionsAll xs := by
  induction xs with
  | nil => nomatch member
  | cons x xs ih =>
    rw [sectionsAll]
    obtain rfl | later := List.mem_cons.1 member
    · exact List.mem_append_left _ (List.mem_singleton_self _)
    · exact List.mem_append_right _ (ih later)

/-- The items that a function with its parameters and what is inside it declares. -/
def items (d : Definition) (inside : List Declared) : List Item :=
  d.params.map (.param ·.pascal) ++ (vars inside).map .var ++ (sectionsAll inside).map (.routine ·.heading)

variable {f : Forest} {outer : List ScopeId} {outside own : ScopeId} {d : Definition}
  {inside : List Declared}

/-- A function that is laid out has the section of its declarations. -/
theorem toSection_of_laid (laid : (function d inside).Laid f outer own) :
    Scoping.toSection f (.mk d outside (some own) (scopingsAll own (own + 1) inside)) =
      .mk (headingOf d.returns d.name d.params) (vars inside) (sectionsAll inside) :=
  List.singleton_inj.1 (sections_of_laid (function d inside) laid)

/-- Its block holds the items of its declarations. -/
theorem block_of_laid (laid : (function d inside).Laid f outer own) :
    Scoping.block f (.mk d outside (some own) (scopingsAll own (own + 1) inside)) =
      (items d inside).map (⟨own, ·⟩) := by
  rw [Scoping.block, toSection_of_laid laid, items]
  simp [Section.items, Section.heading, Section.vars, Section.inner, headingOf, Scoping.scope,
    Scoping.own, Declaration.pascal]

/-- The items of a function have the names of its parameters and declarations, in another order. -/
theorem name_items (d : Definition) (inside : List Declared) :
    ((items d inside).map Item.name).Perm (d.params.map (·.name) ++ inside.map name) := by
  have names : (items d inside).map Item.name = d.params.map (·.name) ++
      ((vars inside).map Variable.name ++ (sectionsAll inside).map Section.name) := by
    simp only [items, List.map_append, List.map_map, List.append_assoc]
    rfl
  rw [names]
  exact (perm_names inside).append_left _

/-- An item that a symbol of a scope fits is written for it. -/
theorem isFor_of_symbol (titled : f.Titled) {scope : BareScope} (is : f.bare[own]? = some scope)
    {symbol : Symbol} (member : symbol ∈ scope.symbols) {item : Item} (same : symbol.name = item.name)
    (fits : item.fits symbol.role = true) :
    ∃ ref, f.find? own item.name = some ref ∧ (⟨own, item⟩ : Site).IsFor f ref := by
  obtain ⟨full, named, bare⟩ := titled.named?_of_bare is member
  rw [same] at named
  obtain ⟨ref, found, there⟩ := Option.bind_eq_some_iff.1 named
  refine ⟨ref, found, found, ?_⟩
  rw [← bare, Symbol.bare, Item.fits_bare] at fits
  simpa [there] using fits

/-- The block of a function shows its scope. -/
theorem shows_of_laid (titled : f.Titled) (laid : (function d inside).Laid f outer own) :
    Shows f own ((items d inside).map (⟨own, ·⟩)) where
  distinct := by
    have titles := titled.nodup_of_bare laid.1
    rw [scopeOf, Forest.names_extend] at titles
    have names : ((items d inside).map (⟨own, ·⟩ : Item → Site)).map Site.name =
        (items d inside).map Item.name := List.map_map
    rw [names, (name_items d inside).nodup_iff]
    simpa [Declaration.symbol, Function.comp_def] using titles
  sound site member := by
    obtain ⟨item, inItems, rfl⟩ := List.mem_map.1 member
    have written {symbol : Symbol} (inside : symbol ∈ (scopeOf outer (own + 1) d inside).symbols)
        (same : symbol.name = item.name) (fits : item.fits symbol.role = true) :=
      isFor_of_symbol titled laid.1 inside same fits
    simp only [items, List.mem_append, List.mem_map] at inItems
    obtain (⟨decl, param, rfl⟩ | ⟨v, isVar, rfl⟩) | ⟨s, isSection, rfl⟩ := inItems
    · exact written (List.mem_append_left _ (List.mem_map_of_mem param)) rfl rfl
    · obtain ⟨decl, isDecl, rfl⟩ := List.mem_map.1 isVar
      obtain ⟨x, inXs, is⟩ := List.mem_filterMap.1 isDecl
      cases x with
      | var decl' =>
        cases is
        exact written (List.mem_append_right _ (List.mem_map_of_mem inXs)) rfl rfl
      | function => cases is
    · obtain ⟨d', inside', inXs, rfl⟩ := of_mem_sectionsAll isSection
      exact written (List.mem_append_right _ (List.mem_map_of_mem inXs)) rfl rfl
  complete name ref found := by
    have shown (item : Item) (inItems : item ∈ items d inside) (same : item.name = name) :
        ∃ site ∈ (items d inside).map (⟨own, ·⟩ : Item → Site), site.name = name :=
      ⟨⟨own, item⟩, List.mem_map_of_mem inItems, same⟩
    obtain ⟨symbol, is⟩ := titled.indexed.symbol?_of_find? found
    have named : f.named? own name = some symbol := Forest.named?_of_find? found is
    obtain ⟨parameter | ⟨x, inXs, declared⟩, title⟩ := of_named? titled laid.1 named
    · obtain ⟨decl, inParams, same⟩ := List.mem_map.1 parameter
      have isName : decl.name = symbol.name := by
        rw [show symbol.name = symbol.bare.name from rfl, ← same]
        rfl
      refine shown (.param decl.pascal) ?_ (isName.trans title)
      exact List.mem_append_left _ (List.mem_append_left _ (List.mem_map_of_mem inParams))
    · obtain ⟨same, ⟨decl, rfl, -⟩ | ⟨d', inside', _, _, rfl, -⟩⟩ := has_of_symbol declared
      · refine shown (.var decl.pascal) ?_ (same.trans title)
        exact List.mem_append_left _ (List.mem_append_right _ (List.mem_map_of_mem (mem_vars inXs)))
      · refine shown (.routine (headingOf d'.returns d'.name d'.params)) ?_ (same.trans title)
        exact List.mem_append_right _ (List.mem_map_of_mem (mem_sectionsAll inXs))

end Declared

/-! ## Functions around a reference -/

namespace Program

variable {source : String} {program : Program}

/-- The scopes around the functions at the program level: the global one, after that of `main` for those
that stand in it. -/
def IsOutermost (program : Program) (scopes : List ScopeId) : Prop :=
  scopes = [Forest.global] ∨
    ∃ main, program.mainScope? program.analyze.forest = some main ∧ scopes = [main, Forest.global]

/-- A function that is written has a scope of its own in the scopes of the functions around it. -/
def Placed (program : Program) (s : Scoping) (outer : List ScopeId) : Prop :=
  ∃ d inside outside own, s = .mk d outside (some own) (Declared.scopingsAll own (own + 1) inside) ∧
    (Declared.function d inside).Laid program.analyze.forest outer own

/-- A function inside a placed one is placed, one scope further in. -/
theorem Placed.inner {s t : Scoping} {outer : List ScopeId} (h : program.Placed s outer)
    (member : t ∈ s.inner) : program.Placed t (s.scope :: outer) := by
  obtain ⟨d, inside, outside, own, rfl, laid⟩ := h
  obtain ⟨d', inside', own', rfl, -, laid'⟩ := Declared.of_mem_scopingsAll laid.2 member
  exact ⟨d', inside', own, own', rfl, laid'⟩

/-- The scopes around a placed function are those that it is placed in. -/
theorem Placed.chain {s : Scoping} {outer : List ScopeId} (h : program.Placed s outer) :
    program.analyze.forest.chain s.scope = s.scope :: outer := by
  obtain ⟨d, inside, outside, own, rfl, laid⟩ := h
  exact Declared.chain_of_laid program.rooted_analyze laid

/-- **The block of a placed function shows its scope.** -/
theorem Placed.shows {s : Scoping} {outer : List ScopeId} (h : program.Placed s outer) :
    Shows program.analyze.forest s.scope (s.block program.analyze.forest) := by
  obtain ⟨d, inside, outside, own, rfl, laid⟩ := h
  rw [Declared.block_of_laid laid]
  exact Declared.shows_of_laid program.titled_analyze laid

/-- The outermost functions are placed in the global scope. -/
theorem placed_of_met (clear : program.analyze.Clear) {s : Scoping} (member : s ∈ program.met) :
    program.Placed s [Forest.global] := by
  obtain ⟨d, inside, own, rfl, -, laid⟩ := of_mem_met clear member
  exact ⟨d, inside, Forest.global, own, rfl, laid⟩

/-- A function that is moved out of `main` stays placed in the scope of `main`. -/
theorem placed_of_hoist (parsed : parse source = .ok program) (clear : program.analyze.Clear)
    {s : Scoping} (member : s ∈ Scoping.hoist program.met) :
    ∃ outer, program.IsOutermost outer ∧ program.Placed s outer := by
  obtain atTop | ⟨main, found, inside⟩ := Scoping.of_mem_hoist member
  · exact ⟨[Forest.global], .inl rfl, placed_of_met clear atTop⟩
  · have placed := placed_of_met clear (List.mem_of_find?_eq_some found)
    have isMain : program.mainScope? program.analyze.forest = some main.scope := by
      obtain ⟨d, within, outside, own, rfl, -⟩ := placed
      rw [mainScope?_eq_met parsed clear, found]
      rfl
    exact ⟨[main.scope, Forest.global], .inr ⟨_, isMain, rfl⟩, placed.inner inside⟩

/-- The scopes around a function that is written are those of the functions around it and then those
around the program level. -/
theorem placed_of_nested (parsed : parse source = .ok program) (clear : program.analyze.Clear)
    {path : List Scoping} (nested : Nested Scoping.inner (Scoping.hoist program.met) path) :
    ∃ outermost, program.IsOutermost outermost ∧ (∀ s ∈ path, ∃ outer, program.Placed s outer) ∧
      ∀ s outer, path = s :: outer → program.Placed s (outer.map Scoping.scope ++ outermost) := by
  induction nested with
  | top member =>
    obtain ⟨outermost, is, placed⟩ := placed_of_hoist parsed clear member
    refine ⟨outermost, is, by simpa using ⟨outermost, placed⟩, ?_⟩
    rintro s outer same
    cases same
    exact placed
  | inside _ member ih =>
    obtain ⟨outermost, is, all, first⟩ := ih
    have placed := (first _ _ rfl).inner member
    refine ⟨outermost, is, List.forall_mem_cons.2 ⟨⟨_, placed⟩, all⟩, ?_⟩
    rintro s outer same
    cases same
    exact placed

/-! ## Declarations at the program level -/

/-- The sites of a program are what its Pascal declares. -/
theorem item_sites (parsed : parse source = .ok program) (clear : program.analyze.Clear)
    (title : String) : (program.sites program.analyze.forest).map Site.item =
      Sections.items ⟨title, (program.pascal program.analyze.forest ⟨false, title⟩).vars,
        (program.pascal program.analyze.forest ⟨false, title⟩).routines.map Routine.toSection⟩ := by
  rw [Sections.items, vars_pascal parsed clear, sections_pascal parsed clear]
  simp [sites, Function.comp_def]

theorem name_sites (parsed : parse source = .ok program) (clear : program.analyze.Clear)
    (title : String) : (program.sites program.analyze.forest).map Site.name =
      (program.pascal program.analyze.forest ⟨false, title⟩).vars.map Variable.name ++
        (program.pascal program.analyze.forest ⟨false, title⟩).routines.map Routine.name := by
  have items := congrArg (List.map Item.name) (item_sites parsed clear title)
  rw [List.map_map] at items
  refine items.trans ?_
  simp only [Sections.items, List.map_append, List.map_map]
  congr 1
  exact List.map_congr_left fun r _ => r.name_toSection

variable {name : String} {ref : SymbolId} {symbol : Symbol} {main : ScopeId}

/-- A symbol of the global scope, but for `main`, has a declaration at the program level. -/
theorem site_of_global (parsed : parse source = .ok program) (clear : program.analyze.Clear)
    {title : String} (unwarned : (program.pascal program.analyze.forest ⟨false, title⟩).warnings = [])
    (found : program.analyze.forest.find? Forest.global name = some ref)
    (is : program.analyze.forest.symbol? ref = some symbol) (noType : symbol.isType = false)
    (other : name ≠ mainName) : ∃ site ∈ program.sites program.analyze.forest,
      site.scope = Forest.global ∧ site.name = name ∧ site.IsFor program.analyze.forest ref := by
  have named : program.analyze.forest.named? Forest.global name = some symbol :=
    Forest.named?_of_find? found is
  obtain ⟨x, member, rfl, ⟨decl, rfl, role⟩ | ⟨d, inside, _, _, rfl, role⟩⟩ :=
    of_named_global clear named noType
  · have isGlobal : decl.pascal ∈ program.globals := Declared.mem_vars member
    have notLocal : program.isLocal decl.name = false := by
      rw [← Bool.not_eq_true]
      intro isLocal
      have warned := (shadowedGlobal_iff parsed clear title decl.name).2
        ⟨List.mem_map.2 ⟨_, isGlobal, rfl⟩, isLocal⟩
      rw [unwarned] at warned
      nomatch warned
    refine ⟨⟨Forest.global, .var decl.pascal⟩, ?_, rfl, rfl, found, by simp [is, Item.fits, role]⟩
    simp only [sites, List.mem_append, List.mem_map, List.mem_filter]
    exact .inl (.inl (.inl ⟨_, ⟨isGlobal, congrArg not notLocal⟩, rfl⟩))
  · have isSection := Declared.mem_sectionsAll member
    refine ⟨⟨Forest.global, .routine (headingOf d.returns d.name d.params)⟩, ?_, rfl, rfl, found,
      by simp [is, Item.fits, role]⟩
    simp only [sites, List.mem_append, List.mem_map, List.mem_filter]
    exact .inl (.inr ⟨_, ⟨isSection, decide_eq_true other⟩, rfl⟩)

/-- What is declared in `main` are its variables and the sections inside it. -/
theorem locals_of_mainScope? (parsed : parse source = .ok program) (clear : program.analyze.Clear)
    (isMain : program.mainScope? program.analyze.forest = some main) : ∃ d inside,
      (Declared.function d inside).Laid program.analyze.forest [Forest.global] main ∧
      program.locals = Declared.vars inside ∧ program.inMain = Declared.sectionsAll inside := by
  obtain ⟨d, inside, found, -, laid⟩ := of_mainScope? parsed clear isMain
  have is : program.mainSection? = some (.mk (headingOf d.returns d.name d.params)
      (Declared.vars inside) (Declared.sectionsAll inside)) := by
    rw [mainSection?_eq_met clear, found]
    exact congrArg some (Declared.toSection_of_laid laid)
  exact ⟨d, inside, laid, by rw [locals, is]; rfl, by rw [inMain, is]; rfl⟩

/-- A symbol of the scope of `main`, but for its parameters, has a declaration at the program level. -/
theorem site_of_main (parsed : parse source = .ok program) (clear : program.analyze.Clear)
    {title : String} (unwarned : (program.pascal program.analyze.forest ⟨false, title⟩).warnings = [])
    (isMain : program.mainScope? program.analyze.forest = some main)
    (found : program.analyze.forest.find? main name = some ref)
    (is : program.analyze.forest.symbol? ref = some symbol) (noParameter : symbol.role ≠ .parameter) :
    ∃ site ∈ program.sites program.analyze.forest,
      site.scope = main ∧ site.name = name ∧ site.IsFor program.analyze.forest ref := by
  have named : program.analyze.forest.named? main name = some symbol :=
    Forest.named?_of_find? found is
  obtain ⟨d, inside, laid, locals, inMain⟩ := locals_of_mainScope? parsed clear isMain
  obtain ⟨x, member, rfl, ⟨decl, rfl, role⟩ | ⟨d', inside', _, _, rfl, role⟩⟩ :=
    of_named_laid laid named noParameter
  · have isLocal : decl.pascal ∈ program.locals := locals ▸ Declared.mem_vars member
    refine ⟨⟨main, .var decl.pascal⟩, ?_, rfl, rfl, found, by simp [is, Item.fits, role]⟩
    simp only [sites, List.mem_append, List.mem_map, isMain, Option.getD_some]
    exact .inl (.inl (.inr ⟨_, isLocal, rfl⟩))
  · have isSection := inMain ▸ Declared.mem_sectionsAll member
    have notTop : program.isTop d'.name = false := by
      rw [← Bool.not_eq_true]
      intro isTop
      have warned := (duplicateFunction_iff parsed clear title d'.name).2
        ⟨List.mem_map.2 ⟨_, isSection, rfl⟩, isTop⟩
      rw [unwarned] at warned
      cases warned
    refine ⟨⟨main, .routine (headingOf d'.returns d'.name d'.params)⟩, ?_, rfl, rfl, found,
      by simp [is, Item.fits, role]⟩
    simp only [sites, List.mem_append, List.mem_map, List.mem_filter, isMain, Option.getD_some]
    exact .inr ⟨_, ⟨isSection, congrArg not notTop⟩, rfl⟩

/-- The scope of `main` is one of its own. -/
theorem main_ne_global (parsed : parse source = .ok program) (clear : program.analyze.Clear)
    (isMain : program.mainScope? program.analyze.forest = some main) : main ≠ Forest.global := by
  rintro rfl
  exact nomatch (chain_main parsed clear isMain).symm.trans program.rooted_analyze.chain_global

/-- The names that are declared at the program level. -/
def levelNames (program : Program) (title : String) : List String :=
  (program.pascal program.analyze.forest ⟨false, title⟩).vars.map Variable.name ++
    (program.pascal program.analyze.forest ⟨false, title⟩).routines.map Routine.name

/-- A reference that was resolved to a variable, a parameter or a function. What the program level has no
declaration for, `main` and its parameters, is left aside, and so are names that it declares twice. -/
structure Reference.Names (r : program.Reference) (title : String) (ref : SymbolId) (symbol : Symbol) :
    Prop where
  resolved : r.resolved? = some ref
  is : program.analyze.forest.symbol? ref = some symbol
  noType : symbol.isType = false
  notMain : ¬ (ref.scope = Forest.global ∧ r.name = mainName)
  noParameter : ¬ (program.mainScope? program.analyze.forest = some ref.scope ∧ symbol.role = .parameter)
  once : ref.scope = Forest.global ∨ program.mainScope? program.analyze.forest = some ref.scope →
    (program.levelNames title).count r.name ≤ 1

/-- A name that the program level has once binds to its declaration there. -/
theorem binding_of_mem {title : String} (parsed : parse source = .ok program)
    (clear : program.analyze.Clear) (once : (program.levelNames title).count name ≤ 1)
    {site : Site} (member : site ∈ program.sites program.analyze.forest) (same : site.name = name) :
    binding? name [program.sites program.analyze.forest] = some site := by
  subst same
  rw [levelNames, ← name_sites parsed clear, List.count_eq_countP, List.countP_map,
    List.countP_eq_length_filter] at once
  have only : (program.sites program.analyze.forest).filter (·.name = site.name) = [site] :=
    eq_singleton_of_mem (List.mem_filter.2 ⟨member, decide_eq_true rfl⟩) once
  rw [binding?, only]

section

variable {title : String} {r : program.Reference} (parsed : parse source = .ok program)
  (clear : program.analyze.Clear)
  (unwarned : (program.pascal program.analyze.forest ⟨false, title⟩).warnings = [])
  (h : r.Names title ref symbol)

include parsed clear unwarned h

theorem binding_global (found : program.analyze.forest.find? Forest.global r.name = some ref) :
    ∃ site, site.scope = Forest.global ∧
      binding? r.name [program.sites program.analyze.forest] = some site ∧
        site.IsFor program.analyze.forest ref := by
  obtain ⟨here, -⟩ := Forest.of_find? found
  obtain ⟨site, member, scope, named, isFor⟩ :=
    site_of_global parsed clear unwarned found h.is h.noType fun same => h.notMain ⟨here, same⟩
  exact ⟨site, scope, binding_of_mem parsed clear (h.once (.inl here)) member named, isFor⟩

/-- A name of `main` wins over a global one of that name. -/
theorem binding_main (isMain : program.mainScope? program.analyze.forest = some main)
    (found : program.analyze.forest.find? main r.name = some ref) :
    ∃ site, binding? r.name [program.sites program.analyze.forest] = some site ∧
      site.IsFor program.analyze.forest ref := by
  obtain ⟨rfl, -⟩ := Forest.of_find? found
  obtain ⟨site, member, -, named, isFor⟩ :=
    site_of_main parsed clear unwarned isMain found h.is fun role => h.noParameter ⟨isMain, role⟩
  exact ⟨site, binding_of_mem parsed clear (h.once (.inr isMain)) member named, isFor⟩

/-- A name of the global scope that is not in the scope of `main` then is not there later: it would have
two declarations at the program level. -/
theorem free_main (isMain : program.mainScope? program.analyze.forest = some main)
    (known : main < r.analysis.forest.scopes.length)
    (free : r.analysis.forest.find? main r.name = none)
    (found : program.analyze.forest.find? Forest.global r.name = some ref) :
    program.analyze.forest.find? main r.name = none := by
  cases later : program.analyze.forest.find? main r.name with
  | none => rfl
  | some ref' =>
    exfalso
    obtain ⟨symbol', is'⟩ := program.titled_analyze.indexed.symbol?_of_find? later
    have noParameter : symbol'.role ≠ .parameter := by
      intro role
      cases free.symm.trans (r.find?_of_parameter known later is' role)
    obtain ⟨site, global, binds, -⟩ := binding_global parsed clear unwarned h found
    obtain ⟨here, -⟩ := Forest.of_find? found
    obtain ⟨site', member, scope, sameName, -⟩ :=
      site_of_main parsed clear unwarned isMain later is' noParameter
    have binds' := binding_of_mem parsed clear (h.once (.inl here)) member sameName
    have same := Option.some.inj (binds.symm.trans binds')
    exact main_ne_global parsed clear isMain (by rw [← scope, ← same, global])

/-- A reference whose name no function around it declares: its symbol stays the one that is found, and
the name binds to its declaration at the program level. -/
theorem binding_sites {scopes outermost : List ScopeId} (isOutermost : program.IsOutermost outermost)
    (chain : program.analyze.forest.chain r.scope = scopes ++ outermost)
    (free : scopes.findSome? (program.analyze.forest.find? · r.name) = none) :
    program.analyze.forest.lookup r.scope r.name = some ref ∧
    ∃ site, binding? r.name [program.sites program.analyze.forest] = some site ∧
      site.IsFor program.analyze.forest ref := by
  have resolved := h.resolved
  have known := r.chain_analyze.symm.trans chain
  -- What is not found at the end was not found before.
  have freeThen : scopes.findSome? (r.analysis.forest.find? · r.name) = none := by
    rw [List.findSome?_eq_none_iff] at free ⊢
    intro s member
    cases found : r.analysis.forest.find? s r.name with
    | none => rfl
    | some ref' => exact nomatch (free s member).symm.trans (r.precedes.names _ _ _ found)
  rw [Reference.resolved?, Forest.lookup, known, List.findSome?_append, freeThen, Option.none_or] at resolved
  rw [Forest.lookup, chain, List.findSome?_append, free, Option.none_or]
  obtain rfl | ⟨main, isMain, rfl⟩ := isOutermost
  · have then' : r.analysis.forest.find? Forest.global r.name = some ref := by simpa using resolved
    have found := r.precedes.names _ _ _ then'
    obtain ⟨site, -, binds, isFor⟩ := binding_global parsed clear unwarned h found
    exact ⟨by simpa using found, site, binds, isFor⟩
  · rw [List.findSome?_cons] at resolved ⊢
    cases inMain : r.analysis.forest.find? main r.name with
    | some ref' =>
      rw [inMain] at resolved
      obtain rfl := Option.some.inj resolved
      have found := r.precedes.names _ _ _ inMain
      rw [found]
      exact ⟨rfl, binding_main parsed clear unwarned h isMain found⟩
    | none =>
      have then' : r.analysis.forest.find? Forest.global r.name = some ref := by
        simpa [inMain] using resolved
      have found := r.precedes.names _ _ _ then'
      have inside : main < r.analysis.forest.scopes.length := by
        have around := r.standing.rooted.chain_of_chain known
        exact Forest.scope?_isSome_iff.1 (Forest.scope?_of_chain around)
      obtain ⟨site, -, binds, isFor⟩ := binding_global parsed clear unwarned h found
      rw [free_main parsed clear unwarned h isMain inside inMain found]
      exact ⟨by simpa using found, site, binds, isFor⟩

end

/-- **Names bind as they are found at the end**: let a parsed program declare no name twice and be written
without warnings and with nothing left out. Let a reference stand in a function that is written, `s`, with
the functions `outer` around it. The text reads as sections in which the sections of these functions stand
in each other, and what its blocks declare is written for symbols. In these blocks the name binds to the
declaration that is written for the symbol found for it when all is declared. This is the symbol that the
reference was resolved to, unless the name was declared only later in the nearer scope it is found in. -/
theorem binding_pascal (parsed : parse source = .ok program) (clear : program.analyze.Clear)
    (title : String) (unwarned : (program.pascal program.analyze.forest ⟨false, title⟩).warnings = [])
    {s : Scoping} {outer : List Scoping}
    (written : Nested Scoping.inner (Scoping.hoist (program.lookups program.analyze.forest)) (s :: outer))
    {r : program.Reference} (inside : s.own = some r.scope) (h : r.Names title ref symbol) :
    ∃ text, readProgram ((program.pascal program.analyze.forest ⟨false, title⟩).lines.map Line.text) =
        some text ∧
      Nested Section.inner text.inner ((s :: outer).map (Scoping.toSection program.analyze.forest)) ∧
      text.items = (program.sites program.analyze.forest).map Site.item ∧
    ∃ last site, program.analyze.forest.lookup r.scope r.name = some last ∧
      binding? r.name ((s :: outer).map (Scoping.block program.analyze.forest) ++
        [program.sites program.analyze.forest]) = some site ∧
      site.IsFor program.analyze.forest last ∧
      (last = ref ↔ r.analysis.forest.find? last.scope r.name ≠ none) := by
  rw [lookups_eq_met parsed clear] at written
  refine ⟨_, (legible_pascal parsed clear ⟨false, title⟩).readProgram_lines, ?_,
    (item_sites parsed clear title).symm, ?_⟩
  · rw [routines_pascal, lookups_eq_met parsed clear, List.map_map]
    exact written.map (Scoping.inner_toSection program.analyze.forest)
  obtain ⟨outermost, isOutermost, placed, first⟩ := placed_of_nested parsed clear written
  have chain : program.analyze.forest.chain r.scope =
      (s :: outer).map Scoping.scope ++ outermost := by
    have here : s.scope = r.scope := by rw [Scoping.scope, inside]; rfl
    rw [← here]
    exact (first s outer rfl).chain
  obtain ⟨last, lookup, -, iff⟩ := Reference.lookup_analyze h.resolved
  let blocks := (s :: outer).map fun t => (t.scope, t.block program.analyze.forest)
  have shows : ∀ b ∈ blocks, Shows program.analyze.forest b.1 b.2 := by
    intro b member
    obtain ⟨t, inPath, rfl⟩ := List.mem_map.1 member
    obtain ⟨_, at'⟩ := placed t inPath
    exact at'.shows
  have scopes : blocks.map Prod.fst = (s :: outer).map Scoping.scope := by simp [blocks]
  have parts : blocks.map Prod.snd = (s :: outer).map (Scoping.block program.analyze.forest) := by
    simp [blocks]
  have along := binding?_append shows r.name [program.sites program.analyze.forest]
  rw [scopes, parts] at along
  obtain ⟨last', site, found, binds, isFor⟩ | ⟨free, binds⟩ := along
  · rw [Forest.lookup, chain, List.findSome?_append, found, Option.some_or] at lookup
    obtain rfl := Option.some.inj lookup
    refine ⟨last', site, ?_, binds, isFor, iff⟩
    rw [Forest.lookup, chain, List.findSome?_append, found, Option.some_or]
  · obtain ⟨lookup', site, binds', isFor⟩ := binding_sites parsed clear unwarned h isOutermost chain free
    obtain rfl := Option.some.inj (lookup.symm.trans lookup')
    exact ⟨last, site, lookup, binds.trans binds', isFor, iff⟩

/-- A parameter that is used in a function inside its own, under the name of a global variable. -/
theorem binding_of_parameter : ∃ (program : Program) (f g : Scoping) (r : program.Reference),
    parse "int x; void f(int x) { void g() { x = 1; } } int main() { }" = .ok program ∧
    program.analyze.Clear ∧ (program.pascal program.analyze.forest ⟨false, "nested"⟩).warnings = [] ∧
    Nested Scoping.inner (Scoping.hoist (program.lookups program.analyze.forest)) [g, f] ∧
    g.own = some r.scope ∧ r.resolved? = some ⟨1, 0⟩ ∧
    ∃ site, binding? "x" ([g, f].map (Scoping.block program.analyze.forest) ++
      [program.sites program.analyze.forest]) = some site ∧
      site.IsFor program.analyze.forest ⟨1, 0⟩ := by
  let int (column : Nat) : TypeName := ⟨"int", none, ⟨1, column⟩⟩
  let x : Declaration := ⟨int 1, "x", false, ⟨1, 5⟩⟩
  let x' : Declaration := ⟨int 15, "x", false, ⟨1, 19⟩⟩
  let inG : List Node := [.assignment (.var "x" ⟨1, 35⟩) (.intLiteral "1" ⟨1, 39⟩) ⟨1, 37⟩]
  let inF : List Node := [.function "void" "g" [] inG ⟨1, 29⟩]
  let program : Program := ⟨[.declaration x, .function "void" "f" [x'] inF ⟨1, 13⟩,
    .function "int" "main" [] [] ⟨1, 50⟩], ⟨1, 60⟩⟩
  let f : Definition := ⟨"void", "f", [x'], inF⟩
  let g : Definition := ⟨"void", "g", [], inG⟩
  let forest := program.analyze.forest
  let r : program.Reference := ⟨[.declare x, .enter "void" "f" [x'] ⟨1, 13⟩,
    .enter "void" "g" [] ⟨1, 29⟩], "x", ⟨1, 35⟩,
    [.leave, .leave, .enter "int" "main" [] ⟨1, 50⟩, .leave], rfl⟩
  have parsed : parse "int x; void f(int x) { void g() { x = 1; } } int main() { }" = .ok program :=
    (parse_ofList _).trans (by decide +kernel)
  have clear : program.analyze.Clear := by decide
  have unwarned : (program.pascal program.analyze.forest ⟨false, "nested"⟩).warnings = [] := by decide
  have written : Nested Scoping.inner (Scoping.hoist (program.lookups forest))
      [g.lookup forest 1, f.lookup forest 0] :=
    .inside (.top (Scoping.mem_hoist (Node.mem_lookupsAll (.head _)) (by decide)))
      (Definition.mem_inner_lookup (by decide) (.head _))
  have inside : (g.lookup forest 1).own = some r.scope := by decide
  have names : r.Names "nested" ⟨1, 0⟩ ⟨"x", .parameter, some ⟨0, 0⟩, some "int", 1⟩ :=
    ⟨by decide, by decide, rfl, by decide, by decide, by decide⟩
  obtain ⟨-, -, -, -, last, site, lookup, binds, isFor, -⟩ :=
    binding_pascal parsed clear "nested" unwarned written inside names
  have found : program.analyze.forest.lookup r.scope r.name = some ⟨1, 0⟩ := by decide
  obtain rfl := Option.some.inj (lookup.symm.trans found)
  exact ⟨program, f.lookup forest 0, g.lookup forest 1, r, parsed, clear, unwarned, written, inside,
    names.resolved, site, binds, isFor⟩

/-- A use of a global variable binds to the variable of the same name that its function declares later. -/
theorem binds_declared_later : ∃ (program : Program) (f : Scoping) (r : program.Reference)
    (ref : SymbolId) (symbol : Symbol) (site : Site),
    parse "int x; void f() { x = 1; int x; } int main() { f(); }" = .ok program ∧
    program.analyze.diagnostics = [] ∧
    (program.pascal program.analyze.forest ⟨false, "capture"⟩).warnings = [] ∧
    Nested Scoping.inner (Scoping.hoist (program.lookups program.analyze.forest)) [f] ∧
    f.own = some r.scope ∧ r.Names "capture" ref symbol ∧
    binding? r.name ([f].map (Scoping.block program.analyze.forest) ++
      [program.sites program.analyze.forest]) = some site ∧
    ¬ site.IsFor program.analyze.forest ref := by
  let int (column : Nat) : TypeName := ⟨"int", none, ⟨1, column⟩⟩
  let x : Declaration := ⟨int 1, "x", false, ⟨1, 5⟩⟩
  let x' : Declaration := ⟨int 26, "x", false, ⟨1, 30⟩⟩
  let inF : List Node := [.assignment (.var "x" ⟨1, 19⟩) (.intLiteral "1" ⟨1, 23⟩) ⟨1, 21⟩,
    .declaration x']
  let program : Program := ⟨[.declaration x, .function "void" "f" [] inF ⟨1, 13⟩,
    .function "int" "main" [] [.call "f" [] ⟨1, 48⟩] ⟨1, 39⟩], ⟨1, 54⟩⟩
  let f := (⟨"void", "f", [], inF⟩ : Definition).lookup program.analyze.forest Forest.global
  let r : program.Reference := ⟨[.declare x, .enter "void" "f" [] ⟨1, 13⟩], "x", ⟨1, 19⟩,
    [.declare x', .leave, .enter "int" "main" [] ⟨1, 39⟩, .refer "f" ⟨1, 48⟩, .leave], rfl⟩
  have parsed : parse "int x; void f() { x = 1; int x; } int main() { f(); }" = .ok program :=
    (parse_ofList _).trans (by decide +kernel)
  have written : Nested Scoping.inner (Scoping.hoist (program.lookups program.analyze.forest)) [f] :=
    .top (Scoping.mem_hoist (Node.mem_lookupsAll (.head _)) (by decide))
  have names : r.Names "capture" ⟨0, 5⟩ ⟨"x", .var, some ⟨0, 0⟩, some "int", 1⟩ :=
    ⟨by decide, by decide, rfl, by decide, by decide, by decide⟩
  exact ⟨program, f, r, ⟨0, 5⟩, ⟨"x", .var, some ⟨0, 0⟩, some "int", 1⟩, ⟨1, .var ⟨"x", "integer"⟩⟩, parsed,
    by decide, by decide, written, by decide, names, by decide, by decide⟩

end Program

end Pascalize
