import Pascalize.Pascal.Listing
import Pascalize.Proofs.ScopeLayout

/-!
# Functions and their scopes

The analysis opens a scope when it comes to a function, and the Pascal writer later asks for it by the
function's name. `Node.metAll` are the functions with scopes that the analysis meets, `Node.lookupsAll`
those that the writer finds, and in a parsed program that declares no name twice they are the same
(`Program.scopings_agree`).
-/

namespace Pascalize

open Pascal

namespace Scoping

mutual

/-- The routine for a function, with the variables of its own scope. -/
def routine (f : Forest) (optimize : Bool) : Scoping → Routine
  | mk d _ own inner =>
    .mk (headingOf d.returns d.name d.params) ((own.map (f.varSection optimize)).getD {})
      (routines f optimize inner) (!(Node.functionsAll d.body).isEmpty) (Node.linesAll d.body)

def routines (f : Forest) (optimize : Bool) : List Scoping → List Routine
  | [] => []
  | s :: rest => s.routine f optimize :: routines f optimize rest

end

/-- What stands at the program level: the functions at the top but `main`, and those inside `main` whose
names none of them has. -/
def hoist (functions : List Scoping) : List Scoping :=
  let top := functions.filter (·.name ≠ mainName)
  let inMain := ((functions.find? (·.name = mainName)).map inner).getD []
  top ++ inMain.filter fun s => !top.any (·.name = s.name)

end Scoping

mutual

/-- The functions of a statement in scope `id`, each with the scope that is found under its name. -/
def Node.lookups (f : Forest) (id : ScopeId) : Node → List Scoping
  | .function returns name params body _ =>
    let inner := match f.child? id name with
      | some own => lookupsAll f own body
      | none => []
    [.mk ⟨returns, name, params, body⟩ id (f.child? id name) inner]
  | .conditional _ body _ | .loop _ body _ | .alternative body _ => lookupsAll f id body
  | _ => []

/-- The functions of statements in scope `id`. -/
def Node.lookupsAll (f : Forest) (id : ScopeId) : List Node → List Scoping
  | [] => []
  | node :: rest => node.lookups f id ++ lookupsAll f id rest

end

/-! ## What the writer looks up -/

/-- A function in scope `id` with the scope that is found under its name. -/
def Definition.lookup (f : Forest) (id : ScopeId) (d : Definition) : Scoping :=
  .mk d id (f.child? id d.name) (((f.child? id d.name).map (Node.lookupsAll f · d.body)).getD [])

namespace Scoping

theorem routines_eq_map (f : Forest) (optimize : Bool) (l : List Scoping) :
    routines f optimize l = l.map (routine f optimize) := by
  induction l with
  | nil => rfl
  | cons s rest ih => rw [routines, ih, List.map_cons]

@[simp] theorem name_routine (f : Forest) (optimize : Bool) (s : Scoping) :
    (s.routine f optimize).name = s.name := by
  cases s
  rfl

end Scoping

namespace Node

open Scoping

mutual

/-- Every function of a statement is looked up. -/
theorem lookups_eq_map (f : Forest) (id : ScopeId) (node : Node) :
    node.lookups f id = node.functions.map (·.lookup f id) := by
  cases node with
  | function returns name params body location =>
    rw [lookups, functions]
    cases found : f.child? id name <;> simp [Definition.lookup, found]
  | conditional _ body _ | loop _ body _ | alternative body _ =>
    rw [lookups, functions]
    exact lookupsAll_eq_map f id body
  | _ => rfl

theorem lookupsAll_eq_map (f : Forest) (id : ScopeId) (nodes : List Node) :
    lookupsAll f id nodes = (functionsAll nodes).map (·.lookup f id) := by
  cases nodes with
  | nil => rfl
  | cons node rest =>
    rw [lookupsAll, functionsAll, List.map_append, lookups_eq_map f id node, lookupsAll_eq_map f id rest]

end

theorem mem_lookupsAll {f : Forest} {id : ScopeId} {nodes : List Node} {d : Definition}
    (member : d ∈ functionsAll nodes) : d.lookup f id ∈ lookupsAll f id nodes := by
  rw [lookupsAll_eq_map]
  exact List.mem_map_of_mem member

theorem functionsAll_eq_lookups (f : Forest) (id : ScopeId) (nodes : List Node) :
    functionsAll nodes = (lookupsAll f id nodes).map definition := by
  rw [lookupsAll_eq_map, List.map_map]
  exact (List.map_id' _).symm

mutual

/-- The routines for a statement are those for the functions that are looked up. -/
theorem routines_eq_lookups (f : Forest) (optimize : Bool) (id : ScopeId) (node : Node) :
    node.routines f optimize id = Scoping.routines f optimize (node.lookups f id) := by
  cases node with
  | function returns name params body location =>
    rw [routines, lookups]
    cases f.child? id name with
    | none => rfl
    | some own =>
      simp only [Scoping.routines, routine, ← routinesAll_eq_lookups f optimize own body]
      rfl
  | conditional _ body _ | loop _ body _ | alternative body _ =>
    rw [routines, lookups]
    exact routinesAll_eq_lookups f optimize id body
  | _ => rfl

/-- The routines of statements are those of the functions looked up in their scope. -/
theorem routinesAll_eq_lookups (f : Forest) (optimize : Bool) (id : ScopeId) (nodes : List Node) :
    routinesAll f optimize id nodes = Scoping.routines f optimize (lookupsAll f id nodes) := by
  cases nodes with
  | nil => rfl
  | cons node rest =>
    rw [routinesAll, lookupsAll, routines_eq_map, List.map_append, ← routines_eq_map, ← routines_eq_map,
      routines_eq_lookups f optimize id node, routinesAll_eq_lookups f optimize id rest]

end

mutual

/-- At any depth, functions are looked up in the scopes of those around them. -/
theorem of_mem_all_lookups {f : Forest} {s : Scoping} (id : ScopeId) (node : Node)
    (member : s ∈ allOf (node.lookups f id)) : ∃ (d : Definition) (outside : ScopeId),
      s = d.lookup f outside := by
  cases node with
  | function returns name params body location =>
    rw [lookups_eq_map, functions, List.map_singleton, allOf, allOf, List.append_nil, Definition.lookup,
      all, List.mem_cons] at member
    obtain rfl | within := member
    · exact ⟨_, id, rfl⟩
    · cases found : f.child? id name with
      | none => simp [found, allOf] at within
      | some own => exact of_mem_all_lookupsAll own body (by simpa [found] using within)
  | conditional _ body _ | loop _ body _ | alternative body _ =>
    rw [lookups] at member
    exact of_mem_all_lookupsAll id body member
  | _ => nomatch member

/-- Every function inside, at any depth, was looked up in some scope. -/
theorem of_mem_all_lookupsAll {f : Forest} {s : Scoping} (id : ScopeId) (nodes : List Node)
    (member : s ∈ allOf (lookupsAll f id nodes)) : ∃ (d : Definition) (outside : ScopeId),
      s = d.lookup f outside := by
  cases nodes with
  | nil => nomatch member
  | cons node rest =>
    rw [lookupsAll, allOf_append, List.mem_append] at member
    obtain here | later := member
    · exact of_mem_all_lookups id node here
    · exact of_mem_all_lookupsAll id rest later

end

end Node

/-- The functions in a body are looked up in the scope of its function. -/
theorem Definition.mem_inner_lookup {f : Forest} {id own : ScopeId} {d d' : Definition}
    (is : f.child? id d.name = some own) (member : d' ∈ Node.functionsAll d.body) :
    d'.lookup f own ∈ (d.lookup f id).inner := by
  rw [Definition.lookup, Scoping.inner, is]
  exact Node.mem_lookupsAll member

namespace Program

open Scoping

/-- The functions at the top of a program, looked up in the global scope. -/
def lookups (program : Program) (f : Forest) : List Scoping :=
  Node.lookupsAll f Forest.global program.statements

/-- The function `main` with the scope that is found for it. -/
def mainLookup? (program : Program) (f : Forest) : Option Scoping :=
  (program.lookups f).find? (·.name = mainName)

theorem mainLookup?_eq (program : Program) (f : Forest) :
    program.mainLookup? f = program.main?.map (·.lookup f Forest.global) := by
  rw [mainLookup?, lookups, Node.lookupsAll_eq_map, List.find?_map]
  rfl

theorem name_of_main? {program : Program} {d : Definition} (is : program.main? = some d) :
    d.name = mainName := by
  simpa using List.find?_some is

theorem main?_eq_lookup (program : Program) (f : Forest) :
    program.main? = (program.mainLookup? f).map definition := by
  rw [mainLookup?_eq]
  cases program.main? <;> rfl

/-- The scope of `main` is the one it is looked up with. -/
theorem mainScope?_eq_lookup (program : Program) (f : Forest) :
    program.mainScope? f = (program.mainLookup? f).bind own := by
  rw [mainLookup?_eq, mainScope?]
  cases is : program.main? with
  | none => rfl
  | some d => simp [Definition.lookup, Scoping.own, name_of_main? is]

theorem mainRoutines_eq_lookup (program : Program) (f : Forest) (optimize : Bool) :
    program.mainRoutines f optimize =
      (((program.mainLookup? f).map inner).getD []).map (routine f optimize) := by
  rw [mainRoutines, mainLookup?_eq, mainScope?]
  cases is : program.main? with
  | none => rfl
  | some d =>
    cases found : f.child? Forest.global mainName with
    | none => simp [Definition.lookup, Scoping.inner, name_of_main? is, found]
    | some own =>
      simp [Definition.lookup, Scoping.inner, name_of_main? is, found, Node.routinesAll_eq_lookups,
        routines_eq_map]

/-- The routines of a program are written for the functions that are looked up. -/
theorem routines_pascal (program : Program) (f : Forest) (options : Options) :
    (program.pascal f options).routines =
      (hoist (program.lookups f)).map (routine f options.optimize) := by
  simp only [pascal, mainRoutines_eq_lookup, Node.routinesAll_eq_lookups, routines_eq_map, hoist,
    List.map_append, List.filter_map, List.any_filter, List.any_map, mainLookup?, lookups,
    Function.comp_def, name_routine]

end Program

/-! ## Numbers of scopes -/

namespace Declared

mutual

/-- The functions in what is declared, in scope `outside` and with scopes numbered from `n` on. -/
def scopings (outside n : ScopeId) : Declared → List Scoping
  | var _ => []
  | function d inside => [.mk d outside (some n) (scopingsAll n (n + 1) inside)]

def scopingsAll (outside n : ScopeId) : List Declared → List Scoping
  | [] => []
  | x :: rest => x.scopings outside n ++ scopingsAll outside (n + x.count) rest

end

mutual

/-- The functions in what is declared in scope `id`, each with the scope found under its name. -/
def lookups (f : Forest) (id : ScopeId) : Declared → List Scoping
  | var _ => []
  | function d inside =>
    let inner := match f.child? id d.name with
      | some own => lookupsAll f own inside
      | none => []
    [.mk d id (f.child? id d.name) inner]

def lookupsAll (f : Forest) (id : ScopeId) : List Declared → List Scoping
  | [] => []
  | x :: rest => x.lookups f id ++ lookupsAll f id rest

end

/-- The functions behind others get the numbers behind theirs. -/
theorem scopingsAll_append (outside n : ScopeId) (xs ys : List Declared) :
    scopingsAll outside n (xs ++ ys) =
      scopingsAll outside n xs ++ scopingsAll outside (n + countAll xs) ys := by
  induction xs generalizing n with
  | nil => simp [scopingsAll, countAll]
  | cons x xs ih => simp [scopingsAll, countAll, ih, Nat.add_assoc]

theorem lookupsAll_append (f : Forest) (id : ScopeId) (xs ys : List Declared) :
    lookupsAll f id (xs ++ ys) = lookupsAll f id xs ++ lookupsAll f id ys := by
  induction xs with
  | nil => simp [lookupsAll]
  | cons x xs ih => simp [lookupsAll, ih]

/-- A function in what is declared has its number and its scope. -/
theorem of_mem_scopingsAll {f : Forest} {outer : List ScopeId} {outside n : ScopeId}
    {xs : List Declared} (laid : LaidAll f outer n xs) {s : Scoping}
    (member : s ∈ scopingsAll outside n xs) : ∃ d inside own,
      s = .mk d outside (some own) (scopingsAll own (own + 1) inside) ∧ function d inside ∈ xs ∧
        (function d inside).Laid f outer own := by
  induction xs generalizing n with
  | nil => nomatch member
  | cons x xs ih =>
    rw [scopingsAll, List.mem_append] at member
    obtain here | later := member
    · cases x with
      | var => nomatch here
      | function d inside =>
        rw [scopings, List.mem_singleton] at here
        exact ⟨d, inside, n, here, List.mem_cons_self, laid.1⟩
    · obtain ⟨d, inside, own, is, inXs, there⟩ := ih laid.2 later
      exact ⟨d, inside, own, is, List.mem_cons_of_mem x inXs, there⟩

end Declared

/-- An analysis comes back to the scope it was in, with a scope more for each function, and numbers scopes in
the order of the text. -/
structure Analysis.Numbers (a a' : Analysis) (xs : List Declared) (met : List Scoping) : Prop where
  opened : a'.opened = a.opened
  length : a'.forest.scopes.length = a.forest.scopes.length + Declared.countAll xs
  met : met = Declared.scopingsAll a.active a.forest.scopes.length xs

theorem Analysis.Numbers.active {a a' : Analysis} {xs : List Declared} {met : List Scoping}
    (h : a.Numbers a' xs met) : a'.active = a.active := by
  rw [Analysis.active, Analysis.active, h.opened]

/-- **Scopes are numbered in the order of the text**, along any tree. -/
theorem Analysis.carried_numbers :
    Carried fun a events xs met => a.Numbers (a.play events) xs met where
  none a := ⟨rfl, rfl, rfl⟩
  append {a before after _ _ _ _} _ h h' := by
    rw [play_append]
    refine ⟨h'.opened.trans h.opened, ?_, ?_⟩
    · rw [h'.length, h.length, Declared.countAll_append, Nat.add_assoc]
    · rw [h.met, h'.met, h.active, h.length, Declared.scopingsAll_append]
  refer a name location := by
    have stays := a.stays_refer name location
    exact ⟨stays.opened, stays.length, rfl⟩
  declare standing decl := by
    have stays := standing.stays_declare .var decl
    exact ⟨stays.opened, stays.length, rfl⟩
  function {a _ _} standing returns name params body location h := by
    obtain ⟨-, -, opened, length⟩ := standing.enter returns name params location
    have active := standing.active_enter returns name params location
    rw [play_append]
    refine ⟨?_, ?_, ?_⟩
    · exact (congrArg List.tail h.opened).trans (by rw [opened]; rfl)
    · refine h.length.trans ?_
      rw [length, Declared.countAll, Declared.count, Declared.countAll]
      omega
    · rw [h.met, active, length]
      rfl

/-- A tree leaves the active scope as it was. -/
theorem Analysis.Standing.active_play_events {a : Analysis} (h : a.Standing) (node : Node) :
    (a.play node.events).active = a.active :=
  (carried_numbers.events h node).active

theorem Program.met_eq (program : Program) :
    program.met = Declared.scopingsAll Forest.global 1 program.declared :=
  (Analysis.carried_numbers.program program).met

/-! ## Scopes are found under the names of their functions -/

namespace Node

theorem lookupsAll_eq_declared {f : Forest} {nodes : List Node}
    (each : ∀ s ∈ nodes, ∀ id, s.lookups f id = Declared.lookupsAll f id s.declared) (id : ScopeId) :
    lookupsAll f id nodes = Declared.lookupsAll f id (declaredAll nodes) := by
  induction nodes with
  | nil => rfl
  | cons node rest ih =>
    rw [List.forall_mem_cons] at each
    rw [lookupsAll, declaredAll, Declared.lookupsAll_append, each.1, ih each.2]

/-- A declaration is no function. -/
theorem lookupsAll_declared_eq_nil {f : Forest} {items : List Node} (h : ∀ x ∈ items, x.IsDeclared)
    (id : ScopeId) : Declared.lookupsAll f id (declaredAll items) = [] := by
  induction items with
  | nil => rfl
  | cons x items ih =>
    rw [List.forall_mem_cons] at h
    rw [declaredAll, Declared.lookupsAll_append, ih h.2, List.append_nil]
    cases h.1 with
    | declaration => rfl
    | assignment _ _ _ is => rw [declared, is.declared, declared]; rfl

/-- In statements functions stand where they are looked up: in blocks. -/
theorem IsStatement.lookups {f : Forest} {s : Node} (h : s.IsStatement) :
    ∀ id, s.lookups f id = Declared.lookupsAll f id s.declared := by
  induction h with
  | declaration => exact fun _ => rfl
  | declarations location first _ each =>
    intro id
    rw [Node.declared, lookupsAll_declared_eq_nil (List.forall_mem_cons.2 ⟨.declaration first, each⟩)]
    rfl
  | function _ _ _ _ _ ih =>
    intro id
    rw [Node.lookups, Node.declared, Declared.lookupsAll, Declared.lookupsAll, Declared.lookups]
    simp only [lookupsAll_eq_declared ih]
    rfl
  | assignment _ _ _ is =>
    rw [Node.declared, Node.declared, is.declared]
    exact fun _ => rfl
  | call _ _ items =>
    rw [Node.declared, declaredAll_eq_nil fun e member => (items e member).declared]
    exact fun _ => rfl
  | conditional _ test _ ih | loop _ test _ ih =>
    intro id
    rw [Node.lookups, Node.declared, test.declared, List.nil_append]
    exact lookupsAll_eq_declared ih id
  | alternative _ _ ih =>
    intro id
    rw [Node.lookups, Node.declared]
    exact lookupsAll_eq_declared ih id
  | result _ is =>
    rw [Node.declared, is.declared]
    exact fun _ => rfl
  | input _ _ each =>
    rw [Node.declared, declaredAll_eq_nil fun e member => (each e member).declared]
    exact fun _ => rfl
  | output _ _ each =>
    rw [Node.declared, declaredAll_eq_nil fun e member => (each e member).elim (·.declared)
      fun is => (IsExpression.literal is).declared]
    exact fun _ => rfl
  | comment => exact fun _ => rfl

end Node

namespace Declared

mutual

/-- **Looking functions up by name finds the scopes that were made for them**, if the forest is laid out
by what is declared. -/
theorem lookups_eq_scopings {f : Forest} (titled : f.Titled) {outer : List ScopeId} {id n : ScopeId} :
    (x : Declared) → x.Laid f outer n → (∀ p ∈ numbered n [x], f.child? id p.1 = some p.2) →
      x.lookups f id = x.scopings id n
  | var _, _, _ => rfl
  | function d inside, laid, child => by
    have found : f.child? id d.name = some n := child (d.name, n) (by simp [numbered])
    have inner := lookupsAll_eq_scopings titled inside laid.2 fun p member =>
      titled.child?_of_bare laid.1 rfl member
    rw [lookups, scopings, found]
    simp only [inner]

/-- Looking scopes up by name finds them by number. -/
theorem lookupsAll_eq_scopings {f : Forest} (titled : f.Titled) {outer : List ScopeId}
    {id n : ScopeId} : (xs : List Declared) → LaidAll f outer n xs →
      (∀ p ∈ numbered n xs, f.child? id p.1 = some p.2) → lookupsAll f id xs = scopingsAll id n xs
  | [], _, _ => rfl
  | x :: rest, laid, child => by
    have split : numbered n (x :: rest) = numbered n [x] ++ numbered (n + x.count) rest := by
      have := numbered_append n [x] rest
      simpa [countAll] using this
    rw [split] at child
    rw [List.forall_mem_append] at child
    rw [lookupsAll, scopingsAll, lookups_eq_scopings titled x laid.1 child.1,
      lookupsAll_eq_scopings titled rest laid.2 child.2]

end

end Declared

namespace Program

/-- The functions that the analysis meets are found again under their names. -/
theorem lookups_eq_met {source : String} {program : Program} (parsed : parse source = .ok program)
    (clear : program.analyze.Clear) : program.lookups program.analyze.forest = program.met := by
  rw [lookups, met_eq, Node.lookupsAll_eq_declared fun s member =>
    (isStatement_of_parse parsed s member).lookups]
  exact Declared.lookupsAll_eq_scopings program.titled_analyze _ (laidAll_analyze clear)
    fun p member => program.titled_analyze.child?_of_bare (bare_global clear) rfl member

theorem mainScope?_eq_met {source : String} {program : Program} (parsed : parse source = .ok program)
    (clear : program.analyze.Clear) : program.mainScope? program.analyze.forest =
      (program.met.find? (·.name = mainName)).bind Scoping.own := by
  rw [mainScope?_eq_lookup, mainLookup?, lookups_eq_met parsed clear]

/-- A function at the top has a number and the scope with this number. -/
theorem of_mem_met {program : Program} (clear : program.analyze.Clear) {s : Scoping}
    (member : s ∈ program.met) : ∃ d inside own,
      s = .mk d Forest.global (some own) (Declared.scopingsAll own (own + 1) inside) ∧
        Declared.function d inside ∈ program.declared ∧
        (Declared.function d inside).Laid program.analyze.forest [Forest.global] own := by
  rw [met_eq] at member
  exact Declared.of_mem_scopingsAll (laidAll_analyze clear) member

end Program

/-! ## Which functions stand in a scope -/

namespace Declared

open Scoping

mutual

/-- The functions in what is declared stand in `outside` or in a scope of their own number. -/
theorem outside_of_mem_all {outside n k : Nat} : (x : Declared) →
    ∀ s ∈ allOf (x.scopings outside n), s.outside = k → k = outside ∨ n ≤ k ∧ k < n + x.count
  | var _, _, member, _ => nomatch member
  | function d inside, s, member, is => by
    rw [scopings, allOf, all, allOf, List.append_nil, List.mem_cons] at member
    obtain rfl | member := member
    · exact .inl is.symm
    · obtain rfl | ⟨ge, lt⟩ := outside_of_mem_allOf inside s member is
      · exact .inr ⟨Nat.le_refl _, by simp [count]⟩
      · refine .inr ⟨by omega, ?_⟩
        rw [count]
        omega

/-- A function stands in a scope from outside or in one that was made for a function before it. -/
theorem outside_of_mem_allOf {outside n k : Nat} : (xs : List Declared) →
    ∀ s ∈ allOf (scopingsAll outside n xs), s.outside = k →
      k = outside ∨ n ≤ k ∧ k < n + countAll xs
  | [], _, member, _ => nomatch member
  | x :: rest, s, member, is => by
    rw [scopingsAll, allOf_append, List.mem_append] at member
    rw [countAll]
    obtain member | member := member
    · obtain same | ⟨ge, lt⟩ := outside_of_mem_all x s member is
      · exact .inl same
      · exact .inr ⟨ge, by omega⟩
    · obtain same | ⟨ge, lt⟩ := outside_of_mem_allOf rest s member is
      · exact .inl same
      · exact .inr ⟨by omega, by omega⟩

end

/-- No function stands in a scope of another number. -/
theorem filter_eq_nil {outside n k : Nat} (xs : List Declared) (other : k ≠ outside)
    (beyond : k < n ∨ n + countAll xs ≤ k) :
    (allOf (scopingsAll outside n xs)).filter (·.outside = k) = [] := by
  rw [List.filter_eq_nil_iff]
  intro s member is
  obtain same | ⟨ge, lt⟩ := outside_of_mem_allOf xs s member (of_decide_eq_true is)
  · exact other same
  · omega

theorem allOf_function (outside n : ScopeId) (d : Definition) (inside rest : List Declared) :
    allOf (scopingsAll outside n (function d inside :: rest)) =
      .mk d outside (some n) (scopingsAll n (n + 1) inside) ::
        (allOf (scopingsAll n (n + 1) inside) ++
          allOf (scopingsAll outside (n + (countAll inside + 1)) rest)) := by
  rw [scopingsAll, allOf_append, scopings, allOf, all, allOf, List.append_nil, List.cons_append, count]

/-- The functions that stand in the scope itself are those that are declared there. -/
theorem filter_outside {outside : Nat} (xs : List Declared) {n : Nat} (before : outside < n) :
    (allOf (scopingsAll outside n xs)).filter (·.outside = outside) = scopingsAll outside n xs := by
  induction xs generalizing n with
  | nil => rfl
  | cons x rest ih =>
    cases x with
    | var => exact ih before
    | function d inside =>
      have inner := filter_eq_nil (n := n + 1) inside (Nat.ne_of_lt before)
        (.inl (Nat.lt_succ_of_lt before))
      have others := ih (n := n + (countAll inside + 1)) (by omega)
      rw [allOf_function, List.filter_cons_of_pos (by simp [Scoping.outside]), List.filter_append, inner,
        others, List.nil_append]
      rfl

/-- The functions that stand in the scope of a function are those inside it. -/
theorem filter_own {outside n : Nat} (before : outside < n) : (xs : List Declared) →
    ∀ s ∈ allOf (scopingsAll outside n xs), ∃ k : Nat, s.own = some k ∧ n ≤ k ∧ k < n + countAll xs ∧
      (allOf (scopingsAll outside n xs)).filter (·.outside = k) = s.inner
  | [], _, member => nomatch member
  | var _ :: rest, s, member => by
    obtain ⟨k, own, ge, lt, inner⟩ := filter_own before rest s member
    exact ⟨k, own, ge, by simpa [countAll, count] using lt, inner⟩
  | function d inside :: rest, s, member => by
    have parts {k : Nat} (other : outside ≠ k) :
        (allOf (scopingsAll outside n (function d inside :: rest))).filter (·.outside = k) =
          (allOf (scopingsAll n (n + 1) inside)).filter (·.outside = k) ++
          (allOf (scopingsAll outside (n + (countAll inside + 1)) rest)).filter (·.outside = k) := by
      rw [allOf_function, List.filter_cons_of_neg ?_, List.filter_append]
      exact fun is => other (of_decide_eq_true is)
    simp only [countAll, count]
    rw [allOf_function, List.mem_cons, List.mem_append] at member
    obtain rfl | within | later := member
    · refine ⟨n, rfl, Nat.le_refl n, by omega, ?_⟩
      rw [parts (by omega), filter_outside inside (Nat.lt_succ_self n),
        filter_eq_nil rest (by omega) (.inl (by omega)), List.append_nil]
      rfl
    · obtain ⟨k, own, ge, lt, inner⟩ := filter_own (Nat.lt_succ_self n) inside s within
      refine ⟨k, own, by omega, by omega, ?_⟩
      rw [parts (by omega), inner, filter_eq_nil rest (by omega) (.inl (by omega)), List.append_nil]
    · obtain ⟨k, own, ge, lt, inner⟩ := filter_own (by omega) rest s later
      refine ⟨k, own, by omega, by omega, ?_⟩
      rw [parts (by omega), inner, filter_eq_nil inside (by omega) (.inr (by omega)), List.nil_append]
termination_by xs => xs

end Declared

/-! ## The function `main` -/

theorem Symbol.isFunction_bare (s : Symbol) : s.bare.isFunction = s.isFunction := by
  rcases s with ⟨_, role, _, _, _⟩
  cases role <;> rfl

namespace Forest

variable {f : Forest} {s : ScopeId} {scope : BareScope}

/-- A symbol of a bare scope is found under its name. -/
theorem Titled.named?_of_bare (h : f.Titled) (is : f.bare[s]? = some scope) {symbol : Symbol}
    (member : symbol ∈ scope.symbols) :
    ∃ full, f.named? s symbol.name = some full ∧ full.bare = symbol := by
  rw [getElem?_bare, Option.map_eq_some_iff] at is
  obtain ⟨scope', there, rfl⟩ := is
  obtain ⟨full, member', rfl⟩ := List.mem_map.1 member
  exact ⟨full, h.named? there member', rfl⟩

/-- What is found under a name is a symbol of the bare scope. -/
theorem Titled.mem_bare_of_named? (h : f.Titled) (is : f.bare[s]? = some scope) {name : String}
    {symbol : Symbol} (named : f.named? s name = some symbol) :
    symbol.bare ∈ scope.symbols ∧ symbol.name = name := by
  obtain ⟨full, there, member, title⟩ := h.mem_of_named? named
  rw [getElem?_bare, there, Option.map_some, Option.some.injEq] at is
  rw [← is]
  exact ⟨List.mem_map_of_mem member, title⟩

end Forest

namespace Declared

/-- The functions are those among what is declared, in order. -/
theorem definition_scopingsAll (outside n : ScopeId) (xs : List Declared) :
    (scopingsAll outside n xs).map Scoping.definition = xs.filterMap definition? := by
  induction xs generalizing n with
  | nil => rfl
  | cons x rest ih =>
    cases x with
    | var => exact ih n
    | function d inside => exact congrArg (d :: ·) (ih _)

end Declared

namespace Program

variable {program : Program}

/-- The analysis finds `main` in the global scope if a function of this name is declared there. -/
theorem hasMain_iff (clear : program.analyze.Clear) : program.analyze.hasMain = true ↔
    ∃ d ∈ program.declared.filterMap Declared.definition?, d.name = mainName := by
  have global := bare_global clear
  have titled := program.titled_analyze
  have unfolded : program.analyze.hasMain =
    (program.analyze.forest.named? Forest.global mainName).any Symbol.isFunction := rfl
  rw [unfolded, Option.any_eq_true]
  constructor
  · rintro ⟨symbol, named, isFunction⟩
    obtain ⟨member, title⟩ := titled.mem_bare_of_named? global named
    rw [← Symbol.isFunction_bare] at isFunction
    rw [Declared.extend, List.mem_append] at member
    obtain builtin | declared := member
    · obtain ⟨type, -, same⟩ := List.mem_map.1 builtin
      rw [← same] at isFunction
      cases isFunction
    · obtain ⟨x, inside, same⟩ := List.mem_map.1 declared
      cases x with
      | var decl =>
        rw [← same] at isFunction
        cases isFunction
      | function d inner =>
        exact ⟨d, List.mem_filterMap.2 ⟨_, inside, rfl⟩, (congrArg Symbol.name same).trans title⟩
  · rintro ⟨d, member, named⟩
    obtain ⟨x, inside, is⟩ := List.mem_filterMap.1 member
    cases x with
    | var => cases is
    | function d' inner =>
      obtain rfl := Option.some.inj is
      have there : (Declared.function d' inner).symbol ∈
          (Declared.extend 1 program.declared Forest.globalScope).symbols :=
        List.mem_append_right _ (List.mem_map_of_mem inside)
      obtain ⟨symbol, found, same⟩ := titled.named?_of_bare global there
      refine ⟨symbol, named ▸ found, ?_⟩
      rw [← Symbol.isFunction_bare, same]
      rfl

/-- The complaint about a missing `main` is made iff the analysis finds none. -/
theorem missingMain_iff (program : Program) :
    (∃ d ∈ program.analyze.diagnostics, d.complaint = .missingMain) ↔
      program.analyze.hasMain = false := by
  obtain ⟨more, same, named⟩ :=
    (Analysis.Standing.start.precedes_play (Node.eventsAll program.statements)).adds
  have none : ∀ d ∈ (({} : Analysis).play (Node.eventsAll program.statements)).diagnostics,
      d.complaint ≠ .missingMain := by
    rw [same]
    exact named
  rw [analyze]
  split
  next has =>
    rw [has]
    simpa using none
  next lacks =>
    rw [Bool.not_eq_true] at lacks
    exact ⟨fun _ => lacks, fun _ => ⟨⟨.missingMain, program.finish⟩, by simp [Analysis.report], rfl⟩⟩

open Scoping

/-- **Functions and scopes agree**: let a parsed program declare no name twice. Then the functions of the
statements at the top, and of the body of every function, are those that the analysis meets with the
scope of the statements active, in the same order. Looking scopes up by the names of functions finds,
function by function, the scope that the analysis opened for it; the routines are written with these
scopes, and so is the body of `main`. And `main` is missing for the analysis iff it is for the writer. -/
theorem scopings_agree {source : String} (parsed : parse source = .ok program)
    (clear : program.analyze.Clear) :
    (((allOf program.met).filter (·.outside = Forest.global)).map definition =
      Node.functionsAll program.statements) ∧
    (∀ s ∈ allOf program.met, ((allOf program.met).filter (s.own = some ·.outside)).map definition =
      Node.functionsAll s.definition.body) ∧
    program.lookups program.analyze.forest = program.met ∧
    (∀ s ∈ allOf program.met, ∃ id, s.own = some id ∧
      program.analyze.forest.child? s.outside s.name = some id) ∧
    (∀ options, (program.pascal program.analyze.forest options).routines =
      (hoist program.met).map (routine program.analyze.forest options.optimize)) ∧
    program.main? = (program.met.find? (·.name = mainName)).map definition ∧
    program.mainScope? program.analyze.forest =
      (program.met.find? (·.name = mainName)).bind own ∧
    ((∃ d ∈ program.analyze.diagnostics, d.complaint = .missingMain) ↔ program.main? = none) := by
  have same := lookups_eq_met parsed clear
  have top : Node.functionsAll program.statements = program.met.map definition := by
    rw [← same, lookups, ← Node.functionsAll_eq_lookups]
  have looked (s : Scoping) (member : s ∈ allOf program.met) : ∃ (d : Definition) (outside : ScopeId),
      s = d.lookup program.analyze.forest outside := by
    rw [← same] at member
    exact Node.of_mem_all_lookupsAll _ _ member
  have numbered (s : Scoping) (member : s ∈ allOf program.met) : ∃ id : Nat, s.own = some id ∧
      (allOf program.met).filter (·.outside = id) = s.inner := by
    rw [met_eq] at member ⊢
    obtain ⟨id, own, -, -, inner⟩ := Declared.filter_own Nat.zero_lt_one program.declared s member
    exact ⟨id, own, inner⟩
  refine ⟨?_, fun s member => ?_, same, fun s member => ?_, fun options => ?_, ?_, ?_, ?_⟩
  · rw [top, met_eq]
    exact congrArg (List.map definition) (Declared.filter_outside program.declared Nat.zero_lt_one)
  · obtain ⟨d, outside, rfl⟩ := looked s member
    obtain ⟨id, own, inner⟩ := numbered _ member
    have filtered : (allOf program.met).filter
        ((d.lookup program.analyze.forest outside).own = some ·.outside) =
          (d.lookup program.analyze.forest outside).inner := by
      rw [← inner, own]
      exact List.filter_congr fun t _ => by simp [eq_comm]
    have found : program.analyze.forest.child? outside d.name = some id := own
    rw [filtered, Definition.lookup, Scoping.inner, found]
    exact (Node.functionsAll_eq_lookups program.analyze.forest id d.body).symm
  · obtain ⟨d, outside, rfl⟩ := looked s member
    obtain ⟨id, own, -⟩ := numbered _ member
    exact ⟨id, own, own⟩
  · rw [routines_pascal, same]
  · rw [main?_eq_lookup program program.analyze.forest, mainLookup?, same]
  · exact mainScope?_eq_met parsed clear
  · rw [missingMain_iff, ← Bool.not_eq_true, hasMain_iff clear, main?, List.find?_eq_none, top, met_eq,
      Declared.definition_scopingsAll]
    simp

/-- Three functions of one name in different scopes, one of them in a block of `main`. -/
theorem scopings_agree_of_namesakes : ∃ program : Program,
    parse "int f() { int f() { } } int main() { if (1) { int f() { } } }" = .ok program ∧
    program.analyze.Clear ∧
    (allOf program.met).map (fun s => (s.name, s.outside, s.own)) =
      [("f", 0, some 1), ("f", 1, some 2), ("main", 0, some 3), ("f", 3, some 4)] ∧
    program.lookups program.analyze.forest = program.met ∧
    program.mainScope? program.analyze.forest = some 3 := by
  let program : Program := ⟨[
    .function "int" "f" [] [.function "int" "f" [] [] ⟨1, 15⟩] ⟨1, 5⟩,
    .function "int" "main" [] [.conditional (.intLiteral "1" ⟨1, 42⟩)
      [.function "int" "f" [] [] ⟨1, 51⟩] ⟨1, 38⟩] ⟨1, 29⟩], ⟨1, 62⟩⟩
  have parsed : parse "int f() { int f() { } } int main() { if (1) { int f() { } } }" = .ok program :=
    (parse_ofList _).trans (by decide +kernel)
  have clear : program.analyze.Clear := by decide
  obtain ⟨-, -, same, -, -, -, main, -⟩ := scopings_agree parsed clear
  exact ⟨program, parsed, clear, by decide, same, main⟩

end Program

end Pascalize
