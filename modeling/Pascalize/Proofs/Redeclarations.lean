import Pascalize.Proofs.NameResolution
import Pascalize.Proofs.ScopeLayout

/-!
# Names that are declared twice

The walk over a program introduces names for variables, parameters and functions, each into a scope. A name
is taken if the scope has it already (`Introduction.Clashes`). The analysis complains about just the
introductions of names that are taken, and the scopes hold just the others (`Records`). This is tracked along
the walk, so it holds after a program (`Program.analyze_redeclares`).
-/

namespace Pascalize

namespace Introduction

/-- The name is taken: by something introduced before into the same scope, or by a builtin type. -/
def Clashes (x : Introduction) (past : List Introduction) : Prop :=
  (∃ y ∈ past, y.scope = x.scope ∧ y.name = x.name) ∨
    x.scope = Forest.global ∧ x.name ∈ Forest.builtinTypes

instance (x : Introduction) (past : List Introduction) : Decidable (x.Clashes past) :=
  inferInstanceAs (Decidable (_ ∨ _))

/-- Each introduction, and whether its name is taken where it stands. -/
def marked (xs : List Introduction) : List (Introduction × Bool) :=
  xs.zipIdx.map fun p => (p.1, decide (p.1.Clashes (xs.take p.2)))

/-- The introductions of names that are taken. -/
def repeated (xs : List Introduction) : List Introduction :=
  ((marked xs).filter (·.2)).map Prod.fst

/-- The introductions of names that are not taken. -/
def firsts (xs : List Introduction) : List Introduction :=
  ((marked xs).filter (!·.2)).map Prod.fst

/-- The bare symbols that a scope holds: the builtin types in the global scope, then the first
introductions of each name. -/
def held (s : ScopeId) (xs : List Introduction) : List Symbol :=
  (if s = Forest.global then Forest.globalScope.symbols else []) ++
    ((firsts xs).filter (·.scope = s)).map symbol

variable {x : Introduction} {xs : List Introduction}

theorem marked_concat (xs : List Introduction) (x : Introduction) :
    marked (xs ++ [x]) = marked xs ++ [(x, decide (x.Clashes xs))] := by
  have before : ∀ p ∈ xs.zipIdx, (xs ++ [x]).take p.2 = xs.take p.2 := by
    intro p member
    have lt := (List.mem_zipIdx member).2.1
    exact List.take_append_of_le_length (by omega)
  rw [marked, List.zipIdx_append, List.map_append, marked]
  congr 1
  · apply List.map_congr_left
    intro p member
    rw [before p member]
  · simp

theorem repeated_of_clash (clash : x.Clashes xs) : repeated (xs ++ [x]) = repeated xs ++ [x] := by
  simp [repeated, marked_concat, clash]

theorem repeated_of_free (free : ¬ x.Clashes xs) : repeated (xs ++ [x]) = repeated xs := by
  simp [repeated, marked_concat, free]

theorem firsts_of_clash (clash : x.Clashes xs) : firsts (xs ++ [x]) = firsts xs := by
  simp [firsts, marked_concat, clash]

theorem firsts_of_free (free : ¬ x.Clashes xs) : firsts (xs ++ [x]) = firsts xs ++ [x] := by
  simp [firsts, marked_concat, free]

/-- Each introduction is the first of its name or a repetition. -/
theorem length_firsts_add_repeated (xs : List Introduction) :
    (firsts xs).length + (repeated xs).length = xs.length := by
  induction xs using List.reverseRecOn with
  | nil => rfl
  | append_singleton xs x ih =>
    by_cases clash : x.Clashes xs
    · rw [firsts_of_clash clash, repeated_of_clash clash]
      simp only [List.length_append, List.length_singleton]
      omega
    · rw [firsts_of_free clash, repeated_of_free clash]
      simp only [List.length_append, List.length_singleton]
      omega

theorem firsts_subset (xs : List Introduction) : firsts xs ⊆ xs := by
  induction xs using List.reverseRecOn with
  | nil => exact List.Subset.refl _
  | append_singleton xs x ih =>
    by_cases clash : x.Clashes xs
    · rw [firsts_of_clash clash]
      exact List.subset_append_of_subset_left _ ih
    · rw [firsts_of_free clash]
      exact List.append_subset.2 ⟨List.subset_append_of_subset_left _ ih, List.subset_append_right _ _⟩

theorem Clashes.of_same {z : Introduction} (h : z.Clashes xs) (sameScope : z.scope = x.scope)
    (sameName : z.name = x.name) : x.Clashes xs := by
  rw [Clashes, ← sameScope, ← sameName]
  exact h

theorem Clashes.mono {ys : List Introduction} (h : x.Clashes xs) (subset : xs ⊆ ys) : x.Clashes ys :=
  Or.imp_left (fun ⟨y, member, same⟩ => ⟨y, subset member, same⟩) h

/-- A name that is taken is taken by the first introduction of it. -/
theorem clashes_firsts_iff : x.Clashes (firsts xs) ↔ x.Clashes xs := by
  refine ⟨fun h => h.mono (firsts_subset xs), ?_⟩
  induction xs using List.reverseRecOn with
  | nil => exact id
  | append_singleton xs z ih =>
    intro h
    -- Either the last introduction has the name or the ones before it do.
    obtain old | ⟨sameScope, sameName⟩ : x.Clashes xs ∨ z.scope = x.scope ∧ z.name = x.name := by
      obtain ⟨y, member, same⟩ | builtin := h
      · obtain old | last := List.mem_append.1 member
        · exact .inl (.inl ⟨y, old, same⟩)
        · exact .inr (List.mem_singleton.1 last ▸ same)
      · exact .inl (.inr builtin)
    · refine (ih old).mono ?_
      by_cases clash : z.Clashes xs
      · rw [firsts_of_clash clash]
        exact List.Subset.refl _
      · rw [firsts_of_free clash]
        exact List.subset_append_left _ _
    · by_cases clash : z.Clashes xs
      · rw [firsts_of_clash clash]
        exact ih (clash.of_same sameScope sameName)
      · rw [firsts_of_free clash]
        exact .inl ⟨z, by simp, sameScope, sameName⟩

/-- A name is taken iff the scope holds it. -/
theorem clashes_iff_held : x.Clashes xs ↔ x.name ∈ (held x.scope xs).map Symbol.name := by
  have builtin : Forest.globalScope.symbols.map Symbol.name = Forest.builtinTypes := rfl
  rw [← clashes_firsts_iff, held, List.map_append, List.mem_append, Clashes, or_comm, List.map_map]
  refine or_congr ?_ ?_
  · split
    next is => rw [builtin, is, eq_self_iff_true, true_and]
    next other => simp [other]
  · constructor
    · rintro ⟨y, member, sameScope, sameName⟩
      refine List.mem_map.2 ⟨y, List.mem_filter.2 ⟨member, by simpa using sameScope⟩, ?_⟩
      exact y.name_symbol.trans sameName
    · intro member
      obtain ⟨y, inside, same⟩ := List.mem_map.1 member
      obtain ⟨first, sameScope⟩ := List.mem_filter.1 inside
      exact ⟨y, first, by simpa using sameScope, y.name_symbol.symm.trans same⟩

theorem held_of_clash (clash : x.Clashes xs) (s : ScopeId) : held s (xs ++ [x]) = held s xs := by
  rw [held, firsts_of_clash clash, held]

theorem held_of_free (free : ¬ x.Clashes xs) :
    held x.scope (xs ++ [x]) = held x.scope xs ++ [x.symbol] := by
  simp [held, firsts_of_free free]

theorem held_of_other {s : ScopeId} (other : x.scope ≠ s) : held s (xs ++ [x]) = held s xs := by
  by_cases clash : x.Clashes xs
  · exact held_of_clash clash s
  · simp [held, firsts_of_free clash, other]

end Introduction

/-- What a program introduces. -/
def Program.introductions (program : Program) : List Introduction :=
  Moment.introductions program.moments

/-- A complaint about a name that is taken. -/
def Diagnostic.redeclared? (d : Diagnostic) : Option (String × Location) :=
  match d.complaint with
  | .redeclared name => some (name, d.location)
  | _ => none

/-! ## What the analysis records -/

open Introduction

theorem Introduction.bare_symbol (x : Introduction) : x.symbol.bare = x.symbol := by
  cases x <;> rfl

/-- The scopes hold the first introductions of each name, and there are complaints about the others. -/
structure Records (a : Analysis) (w : Walk) : Prop where
  scopes : ∀ s scope, a.forest.bare[s]? = some scope → scope.symbols = held s (Moment.introductions w.moments)
  redeclared : a.diagnostics.filterMap Diagnostic.redeclared? =
    (repeated (Moment.introductions w.moments)).map fun x => (x.name, x.location)
  inside : ∀ x ∈ Moment.introductions w.moments, x.scope < a.forest.scopes.length

namespace Records

variable {a a' : Analysis} {w w' : Walk}

/-- What shows of the analysis in its bare scopes and its complaints about names that are taken is all
that counts. -/
theorem of_same (h : Records a w) (bare : a'.forest.bare = a.forest.bare)
    (same : a'.diagnostics.filterMap Diagnostic.redeclared? =
      a.diagnostics.filterMap Diagnostic.redeclared?)
    (introductions : Moment.introductions w'.moments = Moment.introductions w.moments) : Records a' w' where
  scopes := by
    rw [bare, introductions]
    exact h.scopes
  redeclared := by
    rw [same, introductions]
    exact h.redeclared
  inside := by
    rw [introductions, ← Forest.length_bare, bare, Forest.length_bare]
    exact h.inside

/-- A scope has a name iff the introduction of the name clashes. -/
theorem find?_eq_none_iff (h : Records a w) (standing : a.Standing) {x : Introduction}
    (scope : x.scope = a.active) : a.forest.find? a.active x.name = none ↔
      ¬ x.Clashes (Moment.introductions w.moments) := by
  obtain ⟨s, there⟩ := standing.scope
  have symbols : s.symbols.map Symbol.bare = held a.active (Moment.introductions w.moments) :=
    h.scopes _ _ (by rw [Forest.getElem?_bare, there]; rfl)
  have names : s.symbols.map Symbol.name =
      (held a.active (Moment.introductions w.moments)).map Symbol.name := by
    rw [← symbols, List.map_map]
    rfl
  rw [Forest.find?_eq, there, Option.bind_some, Option.map_eq_none_iff,
    (standing.titled a.active s there).position?_eq_none_iff, names, clashes_iff_held, scope]

/-- What is introduced comes into a scope that there is. -/
theorem inside_add (h : Records a w) (standing : a.Standing) {x : Introduction} (scope : x.scope = a.active) :
    ∀ y ∈ Moment.introductions w.moments ++ [x], y.scope < a.forest.scopes.length := by
  refine List.forall_mem_append.2 ⟨h.inside, List.forall_mem_singleton.2 ?_⟩
  rw [scope]
  exact standing.known

/-- A name that is taken gives a complaint. -/
theorem clash (h : Records a w) (standing : a.Standing) {x : Introduction} (scope : x.scope = a.active)
    (taken : x.Clashes (Moment.introductions w.moments)) :
    Records (a.report (.redeclared x.name) x.location) (w.add (.introduction x)) := by
  have inside := h.inside_add standing scope
  have added : Moment.introductions (w.add (.introduction x)).moments =
      Moment.introductions w.moments ++ [x] :=
    Moment.introductions_introduction _ _
  rw [← added] at inside
  refine ⟨fun s scope there => ?_, ?_, inside⟩
  · rw [added, held_of_clash taken]
    exact h.scopes s scope there
  · simp [Analysis.filterMap_report, Diagnostic.redeclared?, added, repeated_of_clash taken, h.redeclared]

/-- A symbol whose name is free comes into its scope. -/
theorem push (h : Records a w) (standing : a.Standing) {x : Introduction} (scope : x.scope = a.active)
    (free : ¬ x.Clashes (Moment.introductions w.moments)) {symbol : Symbol} (bare : symbol.bare = x.symbol) :
    Records { a with forest := a.forest.modifyScope a.active (·.push symbol) }
      (w.add (.introduction x)) := by
  have inside := h.inside_add standing scope
  have added : Moment.introductions (w.add (.introduction x)).moments =
      Moment.introductions w.moments ++ [x] :=
    Moment.introductions_introduction _ _
  rw [← added, ← Forest.length_modifyScope a.forest a.active (·.push symbol)] at inside
  refine ⟨fun s s' there => ?_, ?_, inside⟩
  · rw [Forest.bare_push, List.getElem?_modify] at there
    rw [added]
    by_cases here : a.active = s
    · subst here
      obtain ⟨old, is, rfl⟩ := Option.map_eq_some_iff.1 (by simpa using there)
      have more := held_of_free free
      rw [scope, ← bare, ← h.scopes _ _ is] at more
      exact more.symm
    · rw [held_of_other (by rw [scope]; exact here)]
      exact h.scopes s s' (by simpa [here] using there)
  · rw [added, repeated_of_free free]
    exact h.redeclared

/-- The scope holds the first introductions so far, so its names are those that clash. -/
theorem insert (h : Records a w) (standing : a.Standing) {x : Introduction} (scope : x.scope = a.active)
    {symbol : Symbol} (same : { symbol with type := none } = x.symbol) :
    Records (a.insert symbol x.location).2 (w.add (.introduction x)) := by
  have name : symbol.name = x.name := by rw [← x.name_symbol, ← same]
  have free := h.find?_eq_none_iff standing scope
  rw [← name] at free
  cases found : a.forest.find? a.active symbol.name with
  | some existing =>
    rw [Analysis.insert_of_taken found, name]
    refine h.clash standing scope ?_
    by_contra none
    rw [free.2 none] at found
    cases found
  | none =>
    obtain ⟨full, there⟩ := standing.scope
    rw [Analysis.insert_of_free there found]
    refine h.push standing scope (free.1 found) ?_
    rw [← x.bare_symbol, ← same]
    rfl

/-- A new scope holds nothing. -/
theorem openScope (h : Records a w) (standing : a.Standing) (name : String) :
    Records (a.openScope name) w.openScope where
  scopes s scope there := by
    rw [Analysis.openScope, standing.rooted.bare_openScope standing.known] at there
    by_cases old : s < a.forest.scopes.length
    · rw [List.getElem?_append_left (by simpa using old), List.getElem?_modify] at there
      obtain ⟨before, is, rfl⟩ := Option.map_eq_some_iff.1 there
      rw [Walk.openScope, ← h.scopes s before is]
      split <;> rfl
    · rw [List.getElem?_append_right (by simpa using old), List.getElem?_singleton] at there
      split at there
      next last =>
        obtain rfl := Option.some.inj there
        have fresh : a.forest.scopes.length = s := by
          rw [List.length_modify, Forest.length_bare] at last
          exact Nat.le_antisymm (Nat.le_of_not_lt old) (Nat.sub_eq_zero_iff_le.1 last)
        have inner : s ≠ Forest.global := fresh ▸ Nat.ne_of_gt (Nat.zero_lt_of_lt standing.known)
        -- What was introduced so far went to older scopes.
        have none : (firsts (Moment.introductions w.moments)).filter (·.scope = s) = [] := by
          refine List.filter_eq_nil_iff.2 fun x member => ?_
          rw [decide_eq_true_eq, ← fresh]
          exact Nat.ne_of_lt (h.inside x (firsts_subset _ member))
        rw [Walk.openScope, held, none, if_neg inner]
        rfl
      next => cases there
  redeclared := h.redeclared
  inside x member := by
    rw [Analysis.openScope, Forest.length_openScope]
    exact Nat.lt_succ_of_lt (h.inside x member)

theorem start : Records {} .start where
  scopes s scope there := by
    cases s with
    | zero =>
      obtain rfl := Option.some.inj there
      rfl
    | succ s => cases there
  redeclared := rfl
  inside := by simp [Moment.introductions, Walk.start, Moment.introduction?]

end Records

theorem tracked_records : Tracked Records where
  refer {a w} _ h name location := by
    refine h.of_same (a.bare_refer name location) ?_ (Moment.introductions_reference _ _ _ _)
    rw [Analysis.refer]
    split
    · rfl
    · simp [Analysis.filterMap_report, Diagnostic.redeclared?]
  useType {a w} _ h type := by
    refine h.of_same (a.bare_useType type) ?_ (Moment.introductions_typeName _ _ _ _)
    rw [Analysis.useType]
    simp only
    split
    · rfl
    · simp [Analysis.filterMap_report, Diagnostic.redeclared?]
  insert follows h _ _ scope same := h.insert follows.standing scope same
  openScope follows h name := h.openScope follows.standing name
  sign _ h _ _ _ _ _ is params := h.of_same (Analysis.bare_sign is params) rfl rfl
  leave _ h := h.of_same rfl rfl rfl

/-! ## How many names and scopes there are -/

mutual

/-- All nodes below a node, in the order of the text. -/
def Node.beneath : Node → List Node
  | .assignment first second _ | .binary _ first second _ | .index first second _ =>
    first :: first.beneath ++ second :: second.beneath
  | .conditional condition body _ | .loop condition body _ =>
    condition :: condition.beneath ++ withBeneath body
  | .function _ _ _ items _ | .declarations items _ | .alternative items _ | .input items _
  | .output items _ | .sequence items _ | .call _ items _ => withBeneath items
  | .result inner _ | .negation inner _ | .complement inner _ => inner :: inner.beneath
  | .declaration _ | .comment .. | .var .. | .reference .. | .stringLiteral .. | .intLiteral ..
  | .floatLiteral .. => []

/-- Nodes with all nodes below them. -/
def Node.withBeneath : List Node → List Node
  | [] => []
  | node :: rest => node :: node.beneath ++ withBeneath rest

end

/-- Whether an event declares something. -/
def Event.declares : Event → Bool
  | .declare _ | .enter .. => true
  | .refer .. | .leave => false

def Event.isEnter : Event → Bool
  | .enter .. => true
  | _ => false

/-- How many names an event introduces. -/
def Event.tally : Event → Nat
  | .declare _ => 1
  | .enter _ _ params _ => params.length + 1
  | .refer .. | .leave => 0

namespace Node

def isDeclaration : Node → Bool
  | .declaration _ => true
  | _ => false

def isFunction : Node → Bool
  | .function .. => true
  | _ => false

/-- The parameters of a function. -/
def params : Node → List Declaration
  | .function _ _ params _ _ => params
  | _ => []

/-- What a node declares itself. -/
def event? : Node → Option Event
  | .declaration decl => some (.declare decl)
  | .function returns name params _ location => some (.enter returns name params location)
  | _ => none

mutual

/-- What the events of a node declare is declared by the node and those below it, in this order. -/
theorem filter_events : (node : Node) →
    node.events.filter Event.declares = (node :: node.beneath).filterMap event?
  | .declaration decl => rfl
  | .function returns name params body location => by
    rw [events, beneath, List.filter_cons_of_pos rfl, List.filter_append, filter_eventsAll body]
    exact congrArg _ (List.append_nil _)
  | .assignment first second _ | .binary _ first second _ | .index first second _ => by
    rw [events, beneath, List.filter_append, filter_events first, filter_events second,
      ← List.filterMap_append]
    rfl
  | .conditional condition body _ | .loop condition body _ => by
    rw [events, beneath, List.filter_append, filter_events condition, filter_eventsAll body,
      ← List.filterMap_append]
    rfl
  | .declarations items _ | .alternative items _ | .input items _ | .output items _
  | .sequence items _ | .call _ items _ => by
    rw [events, beneath]
    exact filter_eventsAll items
  | .result inner _ | .negation inner _ | .complement inner _ => by
    rw [events, beneath]
    exact filter_events inner
  | .comment .. | .var .. | .reference .. | .stringLiteral .. | .intLiteral .. | .floatLiteral .. => rfl

theorem filter_eventsAll : (nodes : List Node) →
    (eventsAll nodes).filter Event.declares = (withBeneath nodes).filterMap event?
  | [] => rfl
  | node :: rest => by
    rw [eventsAll, withBeneath, List.filter_append, filter_events node, filter_eventsAll rest,
      List.filterMap_append]

end

/-- A scope is entered for each function. -/
theorem countP_isEnter (nodes : List Node) :
    (eventsAll nodes).countP Event.isEnter = (withBeneath nodes).countP isFunction := by
  have declares : (eventsAll nodes).countP Event.isEnter =
      ((eventsAll nodes).filter Event.declares).countP Event.isEnter := by
    rw [List.countP_filter]
    refine List.countP_congr fun e _ => ?_
    cases e <;> simp [Event.isEnter, Event.declares]
  rw [declares, filter_eventsAll, List.countP_filterMap]
  refine List.countP_congr fun node _ => ?_
  cases node <;> simp [event?, Event.isEnter, isFunction]

/-- One name is introduced for each declaration, parameter and function. -/
theorem sum_tally (nodes : List Node) : ((eventsAll nodes).map Event.tally).sum =
    (withBeneath nodes).countP isDeclaration + ((withBeneath nodes).map (·.params.length)).sum +
      (withBeneath nodes).countP isFunction := by
  have declares (events : List Event) :
      (events.map Event.tally).sum = ((events.filter Event.declares).map Event.tally).sum := by
    induction events with
    | nil => rfl
    | cons e events ih =>
      cases e with
      | declare | enter => rw [List.filter_cons_of_pos rfl, List.map_cons, List.sum_cons, ih]; rfl
      | refer | leave =>
        rw [List.filter_cons_of_neg Bool.false_ne_true, ← ih]
        exact Nat.zero_add _
  rw [declares, filter_eventsAll]
  induction withBeneath nodes with
  | nil => rfl
  | cons node rest ih =>
    rw [List.countP_cons, List.countP_cons, List.map_cons, List.sum_cons]
    have own : (((node :: rest).filterMap event?).map Event.tally).sum =
        (node.event?.map Event.tally).getD 0 + ((rest.filterMap event?).map Event.tally).sum := by
      cases is : node.event? <;> simp [is]
    rw [own, ih]
    cases node <;> simp [event?, Event.tally, isDeclaration, isFunction, Node.params] <;> omega

end Node

namespace Walk

theorem introductions_declare (w : Walk) (introduces : ScopeId → Declaration → Introduction)
    (decl : Declaration) : Moment.introductions (w.declare introduces decl).moments =
      Moment.introductions w.moments ++ [introduces w.here decl] := by
  rw [declare, add, Moment.introductions_introduction, useType, add, Moment.introductions_typeName]

theorem length_declareParams (w : Walk) (params : List Declaration) :
    (Moment.introductions (w.declareParams params).moments).length =
      (Moment.introductions w.moments).length + params.length ∧
    (w.declareParams params).fresh = w.fresh := by
  induction params generalizing w with
  | nil => exact ⟨rfl, rfl⟩
  | cons decl params ih =>
    obtain ⟨length, fresh⟩ := ih (w.declare .parameter decl)
    refine ⟨length.trans ?_, fresh⟩
    rw [introductions_declare, List.length_append, List.length_singleton, List.length_cons, Nat.add_assoc,
      Nat.add_comm 1]

/-- One event. -/
theorem length_step (w : Walk) (e : Event) :
    (Moment.introductions (w.step e).moments).length =
      (Moment.introductions w.moments).length + e.tally ∧
    (w.step e).fresh = w.fresh + if e.isEnter then 1 else 0 := by
  cases e with
  | refer => simp [step, refer, add, Event.tally, Event.isEnter]
  | declare decl =>
    rw [step, introductions_declare]
    exact ⟨List.length_append, rfl⟩
  | leave => exact ⟨rfl, rfl⟩
  | enter returns name params location =>
    obtain ⟨length, fresh⟩ := length_declareParams
      (w.add (.introduction (.function w.here returns name location))).openScope params
    refine ⟨length.trans ?_, fresh⟩
    rw [Walk.openScope, Walk.add, Moment.introductions_introduction, List.length_append, Event.tally,
      List.length_singleton, Nat.add_assoc, Nat.add_comm 1]

/-- Events in turn. -/
theorem length_play (w : Walk) (events : List Event) :
    (Moment.introductions (w.play events).moments).length =
      (Moment.introductions w.moments).length + (events.map Event.tally).sum ∧
    (w.play events).fresh = w.fresh + events.countP Event.isEnter := by
  induction events generalizing w with
  | nil => exact ⟨rfl, rfl⟩
  | cons e events ih =>
    obtain ⟨length, fresh⟩ := w.length_step e
    obtain ⟨length', fresh'⟩ := ih (w.step e)
    refine ⟨length'.trans ?_, fresh'.trans ?_⟩
    · rw [length, List.map_cons, List.sum_cons, Nat.add_assoc]
    · rw [fresh, List.countP_cons, Nat.add_assoc]
      exact congrArg (w.fresh + ·) (Nat.add_comm _ _)

end Walk

namespace Introduction

/-- Introductions are counted scope by scope. -/
theorem sum_length_filter {xs : List Introduction} {n : Nat} (inside : ∀ x ∈ xs, x.scope < n) :
    ∑ s ∈ Finset.range n, (xs.filter (·.scope = s)).length = xs.length := by
  induction xs with
  | nil => simp
  | cons x xs ih =>
    obtain ⟨here, rest⟩ := List.forall_mem_cons.1 inside
    have each (s : Nat) : ((x :: xs).filter (·.scope = s)).length =
        (if x.scope = s then 1 else 0) + (xs.filter (·.scope = s)).length := by
      by_cases same : x.scope = s <;> simp [same, Nat.add_comm]
    simp only [each, Finset.sum_add_distrib, ih rest]
    rw [Finset.sum_ite_eq, if_pos (Finset.mem_range.2 here), List.length_cons, Nat.add_comm]

theorem role_symbol (x : Introduction) : x.symbol.role ≠ .builtin := by
  cases x <;> simp [symbol, Declaration.symbol, Symbol.ofFunction]

/-- What a scope holds beside builtin types are the first introductions. -/
theorem countP_held (s : ScopeId) (xs : List Introduction) :
    (held s xs).countP (·.role ≠ .builtin) = ((firsts xs).filter (·.scope = s)).length := by
  have builtin : (if s = Forest.global then Forest.globalScope.symbols else []).countP
      (·.role ≠ .builtin) = 0 := by
    split <;> rfl
  rw [held, List.countP_append, builtin, Nat.zero_add, List.countP_map, List.countP_eq_length]
  intro x _
  exact decide_eq_true (role_symbol x)

end Introduction

/-- The symbols that are no builtin types are the first introductions. -/
theorem Records.countP_symbols {a : Analysis} {w : Walk} (h : Records a w) :
    (a.forest.scopes.flatMap Scope.symbols).countP (·.role ≠ .builtin) =
      (firsts (Moment.introductions w.moments)).length := by
  have each : a.forest.scopes.map (fun s => s.symbols.countP (·.role ≠ .builtin)) =
      (List.range a.forest.scopes.length).map
        fun s => ((firsts (Moment.introductions w.moments)).filter (·.scope = s)).length := by
    apply List.ext_getElem (by simp)
    intro i inside _
    have lt : i < a.forest.scopes.length := by simpa using inside
    have there : a.forest.bare[i]? = some (a.forest.scopes[i].bare (a.forest.chain i).tail) := by
      rw [Forest.getElem?_bare, Forest.scope?, List.getElem?_eq_getElem lt]
      rfl
    rw [List.getElem_map, List.getElem_map, List.getElem_range, ← countP_held, ← h.scopes i _ there,
      Scope.bare, List.countP_map]
    apply List.countP_congr
    intro symbol _
    simp [Symbol.bare, Role.bare_eq_builtin]
  have all := sum_length_filter fun x member => h.inside x (firsts_subset _ member)
  rw [List.countP_flatMap]
  exact (congrArg List.sum each).trans all

/-- **Redeclarations**: the complaints about names that are taken are one for each introduction of a name
that its scope has already, in the order of the walk. Each scope holds the first introductions of its
names, the global scope after the builtin types. There is one scope for each function besides the global
one, and every declaration, parameter and function has a symbol or a complaint. -/
theorem Program.analyze_redeclares (program : Program) :
    program.analyze.diagnostics.filterMap Diagnostic.redeclared? =
      (repeated program.introductions).map (fun x => (x.name, x.location)) ∧
    (∀ s scope, program.analyze.forest.scope? s = some scope →
      scope.symbols.map Symbol.bare = held s program.introductions) ∧
    program.analyze.forest.scopes.length =
      1 + (Node.withBeneath program.statements).countP Node.isFunction ∧
    (program.analyze.forest.scopes.flatMap Scope.symbols).countP (·.role ≠ .builtin) +
        (program.analyze.diagnostics.filterMap Diagnostic.redeclared?).length =
      (Node.withBeneath program.statements).countP Node.isDeclaration +
        ((Node.withBeneath program.statements).map (·.params.length)).sum +
        (Node.withBeneath program.statements).countP Node.isFunction := by
  obtain ⟨follows, records⟩ := tracked_records.play .start .start (Node.eventsAll program.statements)
  obtain ⟨length, fresh⟩ := Walk.start.length_play (Node.eventsAll program.statements)
  have diagnostics : program.analyze.diagnostics.filterMap Diagnostic.redeclared? =
      (({} : Analysis).play (Node.eventsAll program.statements)).diagnostics.filterMap
        Diagnostic.redeclared? := by
    rw [Program.analyze]
    split
    · rfl
    · simp [Analysis.filterMap_report, Diagnostic.redeclared?]
  rw [diagnostics, program.forest_analyze, introductions, moments_eq_play]
  refine ⟨records.redeclared, fun s scope there => ?_, ?_, ?_⟩
  · exact records.scopes s (scope.bare _) (by rw [Forest.getElem?_bare, there]; rfl)
  · rw [← follows.fresh, fresh, Node.countP_isEnter]
    rfl
  · rw [records.countP_symbols, records.redeclared, List.length_map, length_firsts_add_repeated, length,
      Node.sum_tally]
    exact Nat.zero_add _

end Pascalize
