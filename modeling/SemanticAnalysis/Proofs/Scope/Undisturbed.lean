import SemanticAnalysis.Proofs.Scope.Rooted
/-!
What happens to scopes that are there already when a tree grows. A new scope is on no chain but its own, and it is
empty, so nothing is found differently. A new entry is found only where the search comes to its scope before it comes
to another entry of that name, and of two entries of one scope the older one counts.
-/
namespace SemanticAnalysis

/-- A search over changed values. Only one of them changed, and it was given a value if it had none. -/
structure Filled {α β : Type} (f g : α → Option β) (place : α) (value : β) : Prop where
  there : g place = (f place).or (some value)
  elsewhere : ∀ a, a ≠ place → g a = f a

/-- A search comes to a place without finding anything before it or there. -/
def Reaches {α β : Type} (f : α → Option β) (order : List α) (place : α) : Prop :=
  ∃ before after, order = before ++ place :: after ∧ (∀ a ∈ before, f a = none) ∧ f place = none

namespace Filled
variable {α β : Type} {f g : α → Option β} {place : α} {value : β} (filled : Filled f g place value)
include filled

theorem found_before {a : α} (found : f a ≠ none) : g a = f a := by
  by_cases same : a = place
  · subst same
    obtain ⟨b, found⟩ := Option.ne_none_iff_exists'.mp found
    rw [filled.there, found]
    rfl
  · exact filled.elsewhere a same

theorem find_reached {order : List α} (reaches : Reaches f order place) : order.findSome? g = some value := by
  obtain ⟨before, after, rfl, nothing, free⟩ := reaches
  induction before with
  | nil => rw [List.nil_append, List.findSome?_cons, filled.there, free]; rfl
  | cons a before ih =>
    have rest := ih (fun b member => nothing b (List.mem_cons_of_mem _ member))
    have empty := nothing a (List.mem_cons_self ..)
    by_cases same : a = place
    · rw [List.cons_append, List.findSome?_cons, same, filled.there, free]
      rfl
    · rw [List.cons_append, List.findSome?_cons, filled.elsewhere a same, empty]
      exact rest

theorem find_unreached {order : List α} (unreached : ¬Reaches f order place) :
    order.findSome? g = order.findSome? f := by
  induction order with
  | nil => rfl
  | cons a order ih =>
    rw [List.findSome?_cons, List.findSome?_cons]
    cases found : f a with
    | some b => rw [filled.found_before (by rw [found]; simp), found]
    | none =>
      have other : a ≠ place := by
        rintro rfl
        exact unreached ⟨[], order, rfl, by simp, found⟩
      have later : ¬Reaches f order place := by
        rintro ⟨before, after, rfl, nothing, free⟩
        refine unreached ⟨a :: before, after, rfl, ?_, free⟩
        simpa [found] using nothing
      rw [filled.elsewhere a other, found]
      exact ih later

end Filled

theorem lookup_filled {β : Type} (entries : List (String × β)) (name : String) (value : β) :
    (entries ++ [(name, value)]).lookup name = (entries.lookup name).or (some value) := by
  rw [List.lookup_append, List.lookup_cons_self]

theorem lookup_other {β : Type} (entries : List (String × β)) {name key : String} (other : key ≠ name) (value : β) :
    (entries ++ [(name, value)]).lookup key = entries.lookup key := by
  rw [List.lookup_append, List.lookup_cons, beq_eq_false_iff_ne.mpr other]
  simp

namespace ScopeTree
variable {t : ScopeTree}

/-- The scopes in which names are looked for, in this order: the chain, then the modules imported along it. -/
def searched (t : ScopeTree) (id : ScopeId) : List ScopeId := t.path id ++ t.imported id

theorem find_variable_searched (id : ScopeId) (name : String) :
    t.findVariable? id name = (t.searched id).findSome? (fun j => t.ownVariable? j name) := by
  rw [find_variable_path, searched, List.findSome?_append]

theorem find_type_searched (id : ScopeId) (name : String) :
    t.findType? id name = (t.searched id).findSome? (fun j => t.ownType? j name) := by
  rw [find_type_path, searched, List.findSome?_append]

/-- Everything that can be asked about names in a scope has the same answer in both trees. -/
structure SameSight (t u : ScopeTree) (id : ScopeId) : Prop where
  vars : ∀ name, u.findVariable? id name = t.findVariable? id name
  ownVars : ∀ name, u.ownVariable? id name = t.ownVariable? id name
  within : ∀ v boundary, u.isWithin id v boundary = t.isWithin id v boundary
  types : ∀ name, u.findType? id name = t.findType? id name
  ownTypes : ∀ name, u.ownType? id name = t.ownType? id name
  functions : ∀ name, u.findFunctions id name = t.findFunctions id name
  ownFunctions : ∀ name, u.ownFunctions id name = t.ownFunctions id name

theorem same_sight_refl (t : ScopeTree) (id : ScopeId) : t.SameSight t id :=
  ⟨fun _ => rfl, fun _ => rfl, fun _ _ => rfl, fun _ => rfl, fun _ => rfl, fun _ => rfl, fun _ => rfl⟩

structure Widened (t u : ScopeTree) (s : Scope) : Prop where
  size : u.size = t.size + 1
  get : ∀ id, u.get? id = if id.index = t.size then some s else t.get? id
  vars : s.vars = []
  functions : s.functions = []
  types : s.types = []

section Widened
variable {u : ScopeTree} {s : Scope} (widened : Widened t u s)
include widened

theorem widened_cases (j : ScopeId) : u.get? j = t.get? j ∨ t.get? j = none ∧ u.get? j = some s := by
  rw [widened.get]
  split
  · rename_i last
    exact .inr ⟨Array.getElem?_eq_none (Nat.le_of_eq last.symm), rfl⟩
  · exact .inl rfl

theorem own_variable_widened (j : ScopeId) (name : String) : u.ownVariable? j name = t.ownVariable? j name := by
  unfold ownVariable?
  rcases widened_cases widened j with same | ⟨missing, new⟩
  · rw [same]
  · simp [missing, new, Scope.findVariable?, widened.vars]

theorem own_type_widened (j : ScopeId) (name : String) : u.ownType? j name = t.ownType? j name := by
  unfold ownType?
  rcases widened_cases widened j with same | ⟨missing, new⟩
  · rw [same]
  · simp [missing, new, Scope.findType?, widened.types]

theorem own_functions_widened (j : ScopeId) (name : String) : u.ownFunctions j name = t.ownFunctions j name := by
  unfold ownFunctions
  rcases widened_cases widened j with same | ⟨missing, new⟩
  · rw [same]
  · simp [missing, new, Scope.functionsNamed, widened.functions]

theorem climb_widened (ordered : t.Ordered) (bound : Nat) {id : ScopeId} (there : id.index < t.size) :
    u.climb bound (some id) = t.climb bound (some id) := by
  induction bound generalizing id with
  | zero => rfl
  | succ bound ih =>
    rw [climb, climb, widened.get, if_neg (Nat.ne_of_lt there)]
    cases found : t.get? id with
    | none => rfl
    | some r =>
      dsimp only
      cases up : r.parent with
      | none => rw [climb_none, climb_none]
      | some parent =>
        have smaller := ordered id r found parent up
        rw [ih (Nat.lt_trans smaller there)]

theorem chain_widened (ordered : t.Ordered) {id : ScopeId} (there : id.index < t.size) : u.chain id = t.chain id := by
  unfold chain
  rw [widened.size, climb_widened widened ordered _ there]
  exact climb_bound_irrelevant ordered _ _ id (by omega) there

theorem same_sight_widened (ordered : t.Ordered) {id : ScopeId} (there : id.index < t.size) : t.SameSight u id := by
  have chain := chain_widened widened ordered there
  have imported : u.imported id = t.imported id := by
    unfold ScopeTree.imported
    rw [chain]
  constructor
  · intro name
    unfold findVariable?
    simp only [chain, imported, own_variable_widened widened]
  · exact own_variable_widened widened id
  · intro v boundary
    unfold isWithin
    rw [chain]
  · intro name
    unfold findType?
    simp only [chain, imported, own_type_widened widened]
  · exact own_type_widened widened id
  · intro name
    unfold findFunctions
    simp only [chain, imported, own_functions_widened widened]
  · exact own_functions_widened widened id

end Widened

theorem same_sight_derive (ordered : t.Ordered) (parent : ScopeId) (kind : ScopeKind) {id : ScopeId}
    (there : id.index < t.size) : t.SameSight (t.derive parent kind).2 id := by
  refine same_sight_widened (s := { kind, parent := some parent, home := (t.get? parent).bind Scope.home })
    ⟨?_, fun j => get_push _ j, rfl, rfl, rfl⟩ ordered there
  simp [push, size]

theorem same_sight_module_scope (ordered : t.Ordered) (name : String) (parent : ScopeId) {id : ScopeId}
    (there : id.index < t.size) : t.SameSight (t.moduleScope name parent).2 id := by
  cases known : t.findModule? name with
  | some module =>
    rw [module_scope_known known]
    exact same_sight_refl t id
  | none =>
    have scopes := module_scope_new known parent
    refine same_sight_widened (s := { kind := .module, parent := some parent, home := some ⟨t.size⟩ })
      ⟨?_, fun j => ?_, rfl, rfl, rfl⟩ ordered there
    · unfold size
      rw [scopes]
      simp [push]
    · rw [← get_push]
      unfold get?
      rw [scopes]

structure Settles (f : Scope → Scope) : Prop where
  parent : ∀ s, (f s).parent = s.parent
  imports : ∀ s, (f s).imports = s.imports

section Modify
variable {f : Scope → Scope} (c : ScopeId) (settles : Settles f)

section Place
include settles

theorem chain_modify (id : ScopeId) : (t.modify c f).chain id =
    (t.chain id).map (fun entry => (entry.1, if entry.1 = c then f entry.2 else entry.2)) := by
  have climbs : ∀ bound start, (t.modify c f).climb bound start =
      (t.climb bound start).map (fun entry => (entry.1, if entry.1 = c then f entry.2 else entry.2)) := by
    intro bound
    induction bound with
    | zero => intro start; cases start <;> rfl
    | succ bound ih =>
      intro start
      cases start with
      | none => rfl
      | some id =>
        rw [climb, climb, get_modify]
        cases t.get? id with
        | none => simp
        | some s =>
          by_cases same : id = c
          · simp [same, settles.parent, ih]
          · simp [same, ih]
  have size : (t.modify c f).size = t.size := by simp [modify, ScopeTree.size]
  unfold chain
  rw [size, climbs]

theorem searched_modify (id : ScopeId) : (t.modify c f).searched id = t.searched id := by
  have path : (t.modify c f).path id = t.path id := by
    unfold ScopeTree.path
    rw [chain_modify c settles, List.map_map]
    rfl
  have imported : (t.modify c f).imported id = t.imported id := by
    unfold ScopeTree.imported
    rw [chain_modify c settles, List.flatMap_map]
    congr 2
    funext entry
    split
    · rw [settles.imports]
    · rfl
  unfold searched
  rw [path, imported]

theorem is_within_modify {v : VariableId} (declares : ∀ s, (f s).declares v = s.declares v) (id boundary : ScopeId) :
    (t.modify c f).isWithin id v boundary = t.isWithin id v boundary := by
  unfold isWithin
  rw [chain_modify c settles]
  induction t.chain id with
  | nil => rfl
  | cons entry rest ih =>
    rw [List.map_cons, declaredBefore, declaredBefore, ih]
    split
    · rw [declares]
    · rfl

end Place

theorem own_modify {β : Type} (own : Scope → Option β) (same : ∀ s, own (f s) = own s) (j : ScopeId) :
    ((t.modify c f).get? j).bind own = (t.get? j).bind own := by
  rw [get_modify]
  split
  · cases t.get? j with
    | none => rfl
    | some s => exact same s
  · rfl

include settles in
theorem find_functions_modify (functions : ∀ s, (f s).functions = s.functions) (id : ScopeId) (name : String) :
    (t.modify c f).findFunctions id name = t.findFunctions id name := by
  have own : ∀ j, (t.modify c f).ownFunctions j name = t.ownFunctions j name := by
    intro j
    have same : ∀ u : ScopeTree, u.ownFunctions j name = ((u.get? j).map (fun s => s.functionsNamed name)).getD [] := by
      intro u
      unfold ownFunctions
      cases u.get? j <;> rfl
    have kept := own_modify (t := t) (f := f) c (fun s => some (s.functionsNamed name))
      (fun s => by rw [Scope.functionsNamed, functions]; rfl) j
    rw [same, same, Option.map_eq_bind, Option.map_eq_bind]
    exact congrArg (Option.getD · []) kept
  have order := searched_modify (t := t) c settles id
  unfold searched path at order
  unfold findFunctions
  simp only [order, own]

end Modify

/-- What is found under names after an entry was added to a scope: the new value where the search comes to that scope
and finds nothing before, and all else as it was. -/
structure Entered {β : Type} (order : List ScopeId) (own : ScopeId → String → Option β)
    (before after : String → Option β) (c : ScopeId) (name : String) (value : β) : Prop where
  found : Reaches (fun j => own j name) order c → after name = some value
  kept : ∀ other, ¬(other = name ∧ Reaches (fun j => own j name) order c) → after other = before other

theorem entered_modify {β : Type} {f : Scope → Scope} (own : String → Scope → Option β) {c : ScopeId} {name : String}
    {value : β} (settles : Settles f) (entry : ∀ s, own name (f s) = (own name s).or (some value))
    (others : ∀ other, other ≠ name → ∀ s, own other (f s) = own other s) (there : c.index < t.size) (id : ScopeId) :
    Entered (t.searched id) (fun j name => (t.get? j).bind (own name))
      (fun name => (t.searched id).findSome? (fun j => (t.get? j).bind (own name)))
      (fun name => ((t.modify c f).searched id).findSome? (fun j => ((t.modify c f).get? j).bind (own name)))
      c name value := by
  obtain ⟨s, scope⟩ := get_of_index there
  have filled : Filled (fun j => (t.get? j).bind (own name)) (fun j => ((t.modify c f).get? j).bind (own name)) c
      value := by
    constructor
    · rw [get_modify, if_pos rfl, scope]
      exact entry s
    · intro j other
      rw [get_modify, if_neg other]
  constructor
  · intro reaches
    rw [searched_modify c settles]
    exact filled.find_reached reaches
  · intro other unreached
    rw [searched_modify c settles]
    by_cases same : other = name
    · subst same
      exact filled.find_unreached (fun reaches => unreached ⟨rfl, reaches⟩)
    · exact congrArg (t.searched id).findSome? (funext (own_modify c _ (others other same)))

theorem variable_settles (name : String) (v : VariableId) :
    Settles (fun s => { s with vars := s.vars ++ [(name, v)] }) := ⟨fun _ => rfl, fun _ => rfl⟩

theorem type_settles (name : String) (type : TypeId) :
    Settles (fun s => { s with types := s.types ++ [(name, type)] }) := ⟨fun _ => rfl, fun _ => rfl⟩

section Entries
variable {c : ScopeId} (id : ScopeId) (name : String)

theorem add_variable_entered (there : c.index < t.size) (v : VariableId) :
    Entered (t.searched id) t.ownVariable? (t.findVariable? id) ((t.addVariable c name v).findVariable? id)
      c name v := by
  have entered := entered_modify (fun name s => s.findVariable? name) (variable_settles name v)
    (fun s => lookup_filled s.vars name v) (fun other different s => lookup_other s.vars different v) there id
  rw [funext (find_variable_searched id), funext (find_variable_searched id)]
  exact entered

theorem add_type_entered (there : c.index < t.size) (type : TypeId) :
    Entered (t.searched id) t.ownType? (t.findType? id) ((t.addType c name type).findType? id) c name type := by
  have entered := entered_modify (fun name s => s.findType? name) (type_settles name type)
    (fun s => lookup_filled s.types name type) (fun other different s => lookup_other s.types different type) there id
  rw [funext (find_type_searched id), funext (find_type_searched id)]
  exact entered

theorem find_type_add_variable (v : VariableId) (other : String) :
    (t.addVariable c name v).findType? id other = t.findType? id other := by
  unfold addVariable
  rw [find_type_searched, find_type_searched, searched_modify c (variable_settles name v)]
  exact congrArg (t.searched id).findSome? (funext (own_modify c _ (fun _ => rfl)))

theorem find_variable_add_type (type : TypeId) (other : String) :
    (t.addType c name type).findVariable? id other = t.findVariable? id other := by
  unfold addType
  rw [find_variable_searched, find_variable_searched, searched_modify c (type_settles name type)]
  exact congrArg (t.searched id).findSome? (funext (own_modify c _ (fun _ => rfl)))

theorem is_within_add_variable {v w : VariableId} (other : w ≠ v) (boundary : ScopeId) :
    (t.addVariable c name v).isWithin id w boundary = t.isWithin id w boundary := by
  refine is_within_modify c (variable_settles name v) (fun s => ?_) id boundary
  simp [Scope.declares, other.symm]

end Entries

/-- The growth of a tree leaves the scopes alone that are there. New scopes change nothing that is found from them. A
new variable is found from a scope only under its own name, if its scope is searched from there, and if nothing is
declared under the name in that scope or in one that is searched earlier. Types are the same. -/
theorem scopes_are_undisturbed (t : ScopeTree) (ordered : t.Ordered) (id : ScopeId) (there : id.index < t.size) :
    (∀ parent kind, t.SameSight (t.derive parent kind).2 id) ∧
    (∀ module parent, t.SameSight (t.moduleScope module parent).2 id) ∧
    ∀ c name, c.index < t.size →
      (∀ v,
        Entered (t.searched id) t.ownVariable? (t.findVariable? id) ((t.addVariable c name v).findVariable? id)
          c name v ∧
        (∀ w boundary, w ≠ v → (t.addVariable c name v).isWithin id w boundary = t.isWithin id w boundary) ∧
        (∀ other, (t.addVariable c name v).findType? id other = t.findType? id other) ∧
        ∀ other, (t.addVariable c name v).findFunctions id other = t.findFunctions id other) ∧
      ∀ type,
        Entered (t.searched id) t.ownType? (t.findType? id) ((t.addType c name type).findType? id) c name type ∧
        (∀ other, (t.addType c name type).findVariable? id other = t.findVariable? id other) ∧
        (∀ w boundary, (t.addType c name type).isWithin id w boundary = t.isWithin id w boundary) ∧
        ∀ other, (t.addType c name type).findFunctions id other = t.findFunctions id other := by
  refine ⟨fun parent kind => same_sight_derive ordered parent kind there,
    fun module parent => same_sight_module_scope ordered module parent there, ?_⟩
  intro c name scope
  constructor
  · intro v
    refine ⟨add_variable_entered id name scope v, ?_, find_type_add_variable id name v, ?_⟩
    · intro w boundary other
      exact is_within_add_variable id name other boundary
    · exact find_functions_modify c (variable_settles name v) (fun _ => rfl) id
  · intro type
    refine ⟨add_type_entered id name scope type, find_variable_add_type id name type, ?_, ?_⟩
    · intro w boundary
      exact is_within_modify c (type_settles name type) (fun _ => rfl) id boundary
    · exact find_functions_modify c (type_settles name type) (fun _ => rfl) id

theorem apply_all_planted {changes : List Change} (planted : t.Planted) (founded : AllFounded t changes) :
    (t.applyAll changes).Planted := by
  induction changes generalizing t with
  | nil => exact planted
  | cons change rest ih => exact ih (apply_planted planted founded.1) founded.2

def importing : ScopeTree := initial.applyAll
  [.openModule "a" .builtin, .openModule "b" .builtin, .addImport ⟨3⟩ ⟨4⟩, .addVariable ⟨4⟩ "x" ⟨0⟩, .derive ⟨3⟩ .block]

theorem importing_is_undisturbed : importing.Ordered ∧ importing.findVariable? ⟨5⟩ "x" = some ⟨0⟩ ∧
    (importing.addVariable ⟨3⟩ "x" ⟨1⟩).findVariable? ⟨5⟩ "x" = some ⟨1⟩ ∧
    (importing.addVariable ⟨4⟩ "x" ⟨1⟩).findVariable? ⟨5⟩ "x" = importing.findVariable? ⟨5⟩ "x" ∧
    importing.SameSight (importing.derive ⟨5⟩ .binding).2 ⟨5⟩ := by
  have founded : AllFounded initial [.openModule "a" .builtin, .openModule "b" .builtin, .addImport ⟨3⟩ ⟨4⟩,
      .addVariable ⟨4⟩ "x" ⟨0⟩, .derive ⟨3⟩ .block] :=
    ⟨fun _ => by decide, fun _ => by decide, trivial, trivial, (by decide : 3 < 5), trivial⟩
  have ordered : importing.Ordered := (apply_all_planted planted_initial founded).ordered
  obtain ⟨derived, _, entries⟩ := scopes_are_undisturbed importing ordered ⟨5⟩ (by decide)
  refine ⟨ordered, by decide, ?_, ?_, derived ⟨5⟩ .binding⟩
  · have nearer := ((entries ⟨3⟩ "x" (by decide)).1 ⟨1⟩).1
    exact nearer.found ⟨[⟨5⟩], [⟨2⟩, ⟨1⟩, ⟨0⟩, ⟨4⟩], by decide, by decide, by decide⟩
  · have second := ((entries ⟨4⟩ "x" (by decide)).1 ⟨1⟩).1
    refine second.kept "x" ?_
    rintro ⟨_, _, _, _, _, free⟩
    exact absurd free (by decide)

end ScopeTree

end SemanticAnalysis
