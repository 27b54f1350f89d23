import SemanticAnalysis.Proofs.Analysis.Consistency
import SemanticAnalysis.Proofs.Construction.Declaring
import SemanticAnalysis.Proofs.Fragments
import SemanticAnalysis.Proofs.Scope.Frames
/-!
What construction keeps of the form of a program. Scopes, functions and variables stay where they were put, so whatever
refers to them goes on to be right. Each step only has to account for what it adds: a scope below one that is there, a
function with its scope, a variable that is listed at once, and a body whose nodes lie inside the function.
-/
namespace SemanticAnalysis
open SemanticAnalysis.Bound Construction ScopeTree

def Scope.varEntries (s : Scope) : List (String × Nat) := s.vars.map (fun entry => (entry.1, entry.2.index))

def Scope.functionEntries (s : Scope) : List (String × Nat) := s.functions.map (fun entry => (entry.1, entry.2.index))

namespace Program

/-- What was made for the first program is in the second one. -/
structure Extends (p q : Program) : Prop where
  scopes : p.scopes.Stays q.scopes
  vars : ∀ (k : Nat) (v : Variable), p.vars[k]? = some v → q.vars[k]? = some v
  functions : ∀ (k : Nat) (f : Function), p.functions[k]? = some f →
    ∃ g, q.functions[k]? = some g ∧ g.home = f.home ∧ g.scope = f.scope
  structs : p.structs.size ≤ q.structs.size

theorem extends_refl (p : Program) : p.Extends p :=
  ⟨stays_refl _, fun _ _ found => found, fun _ f found => ⟨f, found, rfl, rfl⟩, Nat.le_refl _⟩

theorem extends_trans {p q r : Program} (first : p.Extends q) (second : q.Extends r) : p.Extends r where
  scopes := stays_trans first.scopes second.scopes
  vars k v found := second.vars k v (first.vars k v found)
  functions k f found := by
    obtain ⟨g, found', home, scope⟩ := first.functions k f found
    obtain ⟨h, found'', home', scope'⟩ := second.functions k g found'
    exact ⟨h, found'', home'.trans home, scope'.trans scope⟩
  structs := Nat.le_trans first.structs second.structs

def HasKind (p : Program) : ScopeKind → Prop
  | .function g => p.HasFunction g
  | .struct k => k.index < p.structs.size
  | _ => True

structure Enclosed (p : Program) (boundary : ScopeId) (sites : List Site) (steps : List Step) : Prop where
  sites : ∀ site ∈ sites, p.scopes.Inner boundary site.scope
  locals : ∀ k ∈ introduced steps, ∃ v, p.vars[k]? = some v ∧ p.scopes.Inner boundary v.scope

/-- All of a fragment lies inside the scope where the fragment stands. -/
def Surrounds (p : Program) (n : Fragment) : Prop := p.Enclosed n.site.scope n.sites n.steps

structure Seated (p : Program) (k : Nat) (f : Function) : Prop where
  scope : ∃ s, p.scopes.get? f.scope = some s ∧ s.kind = .function ⟨k⟩ ∧ s.parent = some f.home
  home : p.scopes.IsModule f.home
  parameters : ∀ v ∈ f.parameters, p.HasVariable v
  body : p.Enclosed f.scope (Block.optionSites f.body) (Block.optionSteps f.body)
  nested : ∀ b, f.body = some b → ∀ n, (Fragment.block b).Inside n → p.Surrounds n

structure Stands (p : Program) (k : Nat) (v : Variable) : Prop where
  id : v.id = ⟨k⟩
  scope : v.scope.index < p.scopes.size
  initializer : AllAt v.scope (Expr.optionSites v.initializer)

structure Spans (p : Program) (k : Nat) (s : Struct) : Prop where
  id : s.id = ⟨k⟩
  scope : s.scope.index < p.scopes.size
  defaults : AllAt s.scope (Expr.allSites s.defaults)

structure Gathers (p : Program) (m : Module) : Prop where
  scope : p.scopes.IsModule m.scope
  functions : ∀ g, .function g ∈ m.declarations → ∃ f, p.functions[g.index]? = some f ∧ f.home = m.scope

/-- A program in which everything stands where construction puts it. -/
structure Formed (p : Program) : Prop where
  framed : p.scopes.Framed
  kinds : p.scopes.All (fun s => p.HasKind s.kind)
  functions : ∀ (k : Nat) (f : Function), p.functions[k]? = some f → p.Seated k f
  vars : ∀ (k : Nat) (v : Variable), p.vars[k]? = some v → p.Stands k v
  structs : ∀ (k : Nat) (s : Struct), p.structs[k]? = some s → p.Spans k s
  modules : ∀ m ∈ p.modules, p.Gathers m
  variablesListed : p.scopes.Registers Scope.varEntries (p.vars.toList.map Variable.name)
  functionsListed : p.scopes.Registers Scope.functionEntries (p.functions.toList.map Function.name)

section Extended
variable {p q : Program} (grows : p.Extends q)
include grows

theorem has_function_extends {g : FunctionId} (there : p.HasFunction g) : q.HasFunction g := by
  obtain ⟨f, found, _⟩ := grows.functions g.index _ (Array.getElem?_eq_getElem there)
  exact (Array.getElem?_eq_some_iff.mp found).1

theorem has_variable_extends {v : VariableId} (there : p.HasVariable v) : q.HasVariable v :=
  (Array.getElem?_eq_some_iff.mp (grows.vars v.index _ (Array.getElem?_eq_getElem there))).1

theorem has_kind_extends {kind : ScopeKind} (has : p.HasKind kind) : q.HasKind kind := by
  cases kind with
  | function g => exact has_function_extends grows has
  | struct k => exact Nat.lt_of_lt_of_le has grows.structs
  | _ => trivial

theorem enclosed_extends {boundary : ScopeId} {sites : List Site} {steps : List Step}
    (enclosed : p.Enclosed boundary sites steps) : q.Enclosed boundary sites steps := by
  constructor
  · intro site member
    exact inner_stays grows.scopes (enclosed.sites site member)
  · intro k member
    obtain ⟨v, found, inner⟩ := enclosed.locals k member
    exact ⟨v, grows.vars k v found, inner_stays grows.scopes inner⟩

theorem seated_extends {k : Nat} {f : Function} (seated : p.Seated k f) : q.Seated k f := by
  constructor
  · obtain ⟨s, found, kind, up⟩ := seated.scope
    obtain ⟨r, found', kind', up', _⟩ := grows.scopes _ s found
    exact ⟨r, found', kind'.trans kind, up'.trans up⟩
  · exact is_module_stays grows.scopes seated.home
  · exact fun v member => has_variable_extends grows (seated.parameters v member)
  · exact enclosed_extends grows seated.body
  · exact fun b written n inside => enclosed_extends grows (seated.nested b written n inside)

theorem stands_extends {k : Nat} {v : Variable} (stands : p.Stands k v) : q.Stands k v :=
  ⟨stands.id, stays_there grows.scopes stands.scope, stands.initializer⟩

theorem spans_extends {k : Nat} {s : Struct} (spans : p.Spans k s) : q.Spans k s :=
  ⟨spans.id, stays_there grows.scopes spans.scope, spans.defaults⟩

theorem gathers_extends {m : Module} (gathers : p.Gathers m) : q.Gathers m := by
  constructor
  · exact is_module_stays grows.scopes gathers.scope
  · intro g member
    obtain ⟨f, found, home⟩ := gathers.functions g member
    obtain ⟨h, found', home', _⟩ := grows.functions g.index f found
    exact ⟨h, found', home'.trans home⟩

theorem formed_step (formed : p.Formed) (framed : q.scopes.Framed)
    (kinds : ∀ id s, q.scopes.get? id = some s → (∃ r, p.scopes.get? id = some r ∧ s.kind = r.kind) ∨ q.HasKind s.kind)
    (functions : ∀ (k : Nat) (f : Function), q.functions[k]? = some f → p.functions[k]? = some f ∨ q.Seated k f)
    (vars : ∀ (k : Nat) (v : Variable), q.vars[k]? = some v → p.vars[k]? = some v ∨ q.Stands k v)
    (structs : ∀ (k : Nat) (s : Struct), q.structs[k]? = some s → p.structs[k]? = some s ∨ q.Spans k s)
    (modules : ∀ m ∈ q.modules, m ∈ p.modules ∨ q.Gathers m)
    (variablesListed : q.scopes.Registers Scope.varEntries (q.vars.toList.map Variable.name))
    (functionsListed : q.scopes.Registers Scope.functionEntries (q.functions.toList.map Function.name)) :
    q.Formed where
  framed := framed
  kinds id s found := by
    rcases kinds id s found with ⟨r, old, same⟩ | new
    · have has := has_kind_extends grows (formed.kinds id r old)
      rw [← same] at has
      exact has
    · exact new
  functions k f found := (functions k f found).elim (fun old => seated_extends grows (formed.functions k f old)) id
  vars k v found := (vars k v found).elim (fun old => stands_extends grows (formed.vars k v old)) id
  structs k s found := (structs k s found).elim (fun old => spans_extends grows (formed.structs k s old)) id
  modules m member := (modules m member).elim (fun old => gathers_extends grows (formed.modules m old)) id
  variablesListed := variablesListed
  functionsListed := functionsListed

end Extended

structure Develops (p q : Program) : Prop where
  grows : p.Extends q
  formed : q.Formed

theorem develops_refl {p : Program} (formed : p.Formed) : p.Develops p := ⟨extends_refl p, formed⟩

theorem develops_trans {p q r : Program} (first : p.Develops q) (second : q.Develops r) : p.Develops r :=
  ⟨extends_trans first.grows second.grows, second.formed⟩

theorem get_push_array {α : Type} {xs : Array α} {x y : α} {k : Nat} (found : (xs.push x)[k]? = some y) :
    xs[k]? = some y ∨ k = xs.size ∧ y = x := by
  rw [Array.getElem?_push] at found
  split at found
  · rename_i last
    cases found
    exact .inr ⟨last, rfl⟩
  · exact .inl found

section Steps
variable {p : Program} (formed : p.Formed)
include formed

theorem develops_scopes {q : Program} (same : q = { p with scopes := q.scopes, types := q.types, nodes := q.nodes })
    (stays : p.scopes.Stays q.scopes) (framed : q.scopes.Framed)
    (kinds : ∀ id s, q.scopes.get? id = some s → (∃ r, p.scopes.get? id = some r ∧ s.kind = r.kind) ∨ q.HasKind s.kind)
    (vars : q.scopes.Registers Scope.varEntries (p.vars.toList.map Variable.name))
    (functions : q.scopes.Registers Scope.functionEntries (p.functions.toList.map Function.name)) : p.Develops q := by
  have vars' : q.vars = p.vars := by rw [same]
  have functions' : q.functions = p.functions := by rw [same]
  have structs' : q.structs = p.structs := by rw [same]
  have modules' : q.modules = p.modules := by rw [same]
  have grows : p.Extends q := by
    constructor
    · exact stays
    · rw [vars']
      exact fun _ _ found => found
    · rw [functions']
      exact fun _ f found => ⟨f, found, rfl, rfl⟩
    · exact Nat.le_of_eq (by rw [structs'])
  refine ⟨grows, formed_step grows formed framed kinds ?_ ?_ ?_ ?_ ?_ ?_⟩
  · rw [functions']
    exact fun _ _ found => .inl found
  · rw [vars']
    exact fun _ _ found => .inl found
  · rw [structs']
    exact fun _ _ found => .inl found
  · rw [modules']
    exact fun _ member => .inl member
  · rw [vars']
    exact vars
  · rw [functions']
    exact functions

theorem develops_nodes {q : Program} (same : q = { p with types := q.types, nodes := q.nodes }) : p.Develops q := by
  have scopes : q.scopes = p.scopes := by rw [same]
  apply develops_scopes formed
  · rw [scopes]
    exact same
  · rw [scopes]
    exact stays_refl _
  · rw [scopes]
    exact formed.framed
  · rw [scopes]
    exact fun _ s found => .inl ⟨s, found, rfl⟩
  · rw [scopes]
    exact formed.variablesListed
  · rw [scopes]
    exact formed.functionsListed

theorem develops_modify {id : ScopeId} (module : p.scopes.IsModule id) {f : Scope → Scope}
    (same : ∀ s, (f s).kind = s.kind ∧ (f s).parent = s.parent ∧ (f s).home = s.home)
    (imports : ∀ s, ∀ module ∈ (f s).imports, module ∈ s.imports ∨ p.scopes.IsModule module)
    (lists : ∀ s, (f s).vars = s.vars ∧ (f s).functions = s.functions) :
    p.Develops { p with scopes := p.scopes.modify id f } := by
  have framed := framed_modify formed.framed id same imports
    (fun s found other => absurd (module_kind module found) other)
  refine develops_scopes formed rfl (stays_modify id same) framed ?_ ?_ ?_
  · intro j s found
    rcases get_modify_split found with ⟨_, old⟩ | ⟨rfl, r, old, rfl⟩
    · exact .inl ⟨s, old, rfl⟩
    · exact .inl ⟨r, old, (same r).1⟩
  · exact registers_modify formed.variablesListed id (fun s => by rw [Scope.varEntries, (lists s).1]; rfl)
  · exact registers_modify formed.functionsListed id
      (fun s => by rw [Scope.functionEntries, (lists s).2]; rfl)

theorem develops_derive {parent m : ScopeId} (housed : p.scopes.Housed m parent) {kind : ScopeKind}
    (inner : kind ≠ .module) (has : p.HasKind kind) :
    p.Develops { p with scopes := (p.scopes.derive parent kind).2 } := by
  refine develops_scopes formed rfl (stays_push _) (framed_derive formed.framed housed inner) ?_
    (registers_push formed.variablesListed rfl) (registers_push formed.functionsListed rfl)
  intro id s found
  rcases get_push_split found with old | ⟨_, rfl⟩
  · exact .inl ⟨s, old, rfl⟩
  · exact .inr has

theorem develops_module_scope (name : String) {parent : ScopeId} (there : parent.index < p.scopes.size) :
    p.Develops { p with scopes := (p.scopes.moduleScope name parent).2 } := by
  cases known : p.scopes.findModule? name with
  | some id =>
    rw [module_scope_known known]
    exact develops_refl formed
  | none =>
    obtain ⟨framed, _⟩ := framed_module_scope formed.framed name there
    have scopes := module_scope_new known parent
    have get : ∀ id, (p.scopes.moduleScope name parent).2.get? id
        = (p.scopes.push { kind := .module, parent := some parent, home := some ⟨p.scopes.size⟩ }).2.get? id := by
      intro id
      unfold ScopeTree.get?
      rw [scopes]
    have registers : ∀ {entries names}, (p.scopes.push
        { kind := .module, parent := some parent, home := some ⟨p.scopes.size⟩ }).2.Registers entries names →
        (p.scopes.moduleScope name parent).2.Registers entries names := by
      intro entries names pushed
      constructor
      · intro id s found
        rw [get] at found
        exact pushed.bound id s found
      · intro k name named
        obtain ⟨id, s, found, single, others⟩ := pushed.once k name named
        refine ⟨id, s, by rw [get]; exact found, single, ?_⟩
        intro j r found'
        rw [get] at found'
        exact others j r found'
    refine develops_scopes formed rfl (stays_module_scope name parent) framed ?_
      (registers (registers_push formed.variablesListed rfl))
      (registers (registers_push formed.functionsListed rfl))
    intro id s found
    rw [get] at found
    rcases get_push_split found with old | ⟨_, rfl⟩
    · exact .inl ⟨s, old, rfl⟩
    · exact .inr trivial

theorem develops_variable {v : Variable} {scope : ScopeId} {s : Scope} (id : v.id = ⟨p.vars.size⟩)
    (there : v.scope.index < p.scopes.size) (initializer : AllAt v.scope (Expr.optionSites v.initializer))
    (found : p.scopes.get? scope = some s) :
    p.Develops { p with vars := p.vars.push v, scopes := p.scopes.addVariable scope v.name ⟨p.vars.size⟩ } := by
  have stays : p.scopes.Stays (p.scopes.addVariable scope v.name ⟨p.vars.size⟩) :=
    stays_modify scope (fun _ => ⟨rfl, rfl, rfl⟩)
  have grows : p.Extends
      { p with vars := p.vars.push v, scopes := p.scopes.addVariable scope v.name ⟨p.vars.size⟩ } :=
    ⟨stays, fun _ _ old => push_keeps v old, fun _ f old => ⟨f, old, rfl, rfl⟩, Nat.le_refl _⟩
  refine ⟨grows, formed_step grows formed ?_ ?_ (fun _ _ old => .inl old) ?_ (fun _ _ old => .inl old)
    (fun _ old => .inl old) ?_ ?_⟩
  · exact framed_modify formed.framed scope (fun _ => ⟨rfl, rfl, rfl⟩) (fun _ _ member => .inl member)
      (fun _ _ _ plain => ⟨plain.functions, plain.types, plain.imports⟩)
  · intro j r found'
    rcases get_modify_split found' with ⟨_, old⟩ | ⟨rfl, r', old, rfl⟩
    · exact .inl ⟨r, old, rfl⟩
    · exact .inl ⟨r', old, rfl⟩
  · intro k w found'
    rcases get_push_array found' with old | ⟨rfl, rfl⟩
    · exact .inl old
    · exact .inr ⟨id, stays_there stays there, initializer⟩
  · rw [Array.toList_push, List.map_append, List.map_singleton]
    refine registers_add formed.variablesListed found (fun r => ?_)
    simp [Scope.varEntries]
  · exact registers_modify formed.functionsListed scope (fun _ => rfl)

theorem develops_function {home : ScopeId} (module : p.scopes.IsModule home) (origin : Function.Origin) :
    let id : FunctionId := ⟨p.functions.size⟩
    let f : Function := { id, origin, home, scope := ⟨p.scopes.size⟩ }
    p.Develops { p with
      functions := p.functions.push f
      scopes := (p.scopes.derive home (.function id)).2.addFunction home f.name id } := by
  intro id f
  have housed := framed_module formed.framed module
  have derived : (p.scopes.derive home (.function id)).2.Framed :=
    framed_derive formed.framed housed (by simp)
  have first : p.scopes.Stays (p.scopes.derive home (.function id)).2 := stays_push _
  have second : (p.scopes.derive home (.function id)).2.Stays
      ((p.scopes.derive home (.function id)).2.addFunction home f.name id) :=
    stays_modify home (fun _ => ⟨rfl, rfl, rfl⟩)
  have stays := stays_trans first second
  let q : Program := { p with
    functions := p.functions.push f
    scopes := (p.scopes.derive home (.function id)).2.addFunction home f.name id }
  have new : q.functions[p.functions.size]? = some f := Array.getElem?_push_size
  have grows : p.Extends q :=
    ⟨stays, fun _ _ old => old, fun _ g old => ⟨g, push_keeps f old, rfl, rfl⟩, Nat.le_refl _⟩
  obtain ⟨s, found, homeKind⟩ := is_module_stays first module
  refine ⟨grows, formed_step grows formed ?_ ?_ ?_ (fun _ _ old => .inl old) (fun _ _ old => .inl old)
    (fun _ old => .inl old) ?_ ?_⟩
  · exact framed_modify derived home (fun _ => ⟨rfl, rfl, rfl⟩) (fun _ _ member => .inl member)
      (fun _ found' other => absurd (module_kind ⟨s, found, homeKind⟩ found') other)
  · intro j r found'
    have kept : ∃ r', (p.scopes.derive home (.function id)).2.get? j = some r' ∧ r.kind = r'.kind := by
      rcases get_modify_split found' with ⟨_, old⟩ | ⟨rfl, r', old, rfl⟩
      · exact ⟨r, old, rfl⟩
      · exact ⟨r', old, rfl⟩
    obtain ⟨r', found'', same⟩ := kept
    rcases get_push_split found'' with old | ⟨_, rfl⟩
    · exact .inl ⟨r', old, same⟩
    · right
      rw [same]
      change p.functions.size < (p.functions.push f).size
      simp
  · intro k g found'
    rcases get_push_array found' with old | ⟨rfl, rfl⟩
    · exact .inl old
    · refine .inr ⟨?_, is_module_stays stays module, by simp [f], ⟨by simp [f, Block.optionSites],
        by simp [f, Block.optionSteps, introduced]⟩, by simp [f]⟩
      obtain ⟨r, there, kind, up, _⟩ := second ⟨p.scopes.size⟩ _ (get_push_new _)
      exact ⟨r, there, kind, up⟩
  · exact registers_modify (registers_push formed.variablesListed rfl) home (fun _ => rfl)
  · rw [Array.toList_push, List.map_append, List.map_singleton]
    refine registers_add (registers_push formed.functionsListed rfl) found (fun r => ?_)
    simp [Scope.functionEntries, id]

theorem develops_struct {home : ScopeId} (module : p.scopes.IsModule home) {s : Struct} {nodes : Nat}
    {structTypes : Table TypeId StructId}
    (id : s.id = ⟨p.structs.size⟩) (scope : s.scope = ⟨p.scopes.size⟩)
    (defaults : AllAt s.scope (Expr.allSites s.defaults)) :
    p.Develops { p with
      structs := p.structs.push s
      structTypes
      scopes := (p.scopes.derive home (.struct ⟨p.structs.size⟩)).2
      nodes } := by
  have housed := framed_module formed.framed module
  have stays : p.scopes.Stays (p.scopes.derive home (.struct ⟨p.structs.size⟩)).2 := stays_push _
  let q : Program := { p with
    structs := p.structs.push s
    structTypes
    scopes := (p.scopes.derive home (.struct ⟨p.structs.size⟩)).2
    nodes }
  have grows : p.Extends q :=
    ⟨stays, fun _ _ old => old, fun _ f old => ⟨f, old, rfl, rfl⟩, by simp [q]⟩
  refine ⟨grows, formed_step grows formed ?_ ?_ (fun _ _ old => .inl old) (fun _ _ old => .inl old) ?_
    (fun _ old => .inl old) ?_ ?_⟩
  · exact framed_derive formed.framed housed (by simp)
  · intro j r found
    rcases get_push_split found with old | ⟨_, rfl⟩
    · exact .inl ⟨r, old, rfl⟩
    · right
      change p.structs.size < (p.structs.push s).size
      simp
  · intro k r found
    rcases get_push_array found with old | ⟨rfl, rfl⟩
    · exact .inl old
    · refine .inr ⟨id, ?_, defaults⟩
      rw [scope]
      exact get_some_index (get_push_new _)
  · exact registers_push formed.variablesListed rfl
  · exact registers_push formed.functionsListed rfl

theorem develops_list_module {m : Module} (gathers : p.Gathers m) :
    p.Develops { p with modules := p.modules ++ [m] } := by
  have grows : p.Extends { p with modules := p.modules ++ [m] } :=
    ⟨stays_refl _, fun _ _ old => old, fun _ f old => ⟨f, old, rfl, rfl⟩, Nat.le_refl _⟩
  refine ⟨grows, formed_step grows formed formed.framed (fun _ s found => .inl ⟨s, found, rfl⟩)
    (fun _ _ old => .inl old) (fun _ _ old => .inl old) (fun _ _ old => .inl old) ?_ formed.variablesListed
    formed.functionsListed⟩
  exact each_snoc (fun m' old => .inl old) (.inr (gathers_extends grows gathers))

theorem develops_body {id : FunctionId} {f : Function} (found : p.functions[id.index]? = some f)
    {parameters : List VariableId} {body : Option Block} (there : ∀ v ∈ parameters, p.HasVariable v)
    (enclosed : p.Enclosed f.scope (Block.optionSites body) (Block.optionSteps body))
    (nested : ∀ b, body = some b → ∀ n, (Fragment.block b).Inside n → p.Surrounds n) :
    p.Develops { p with functions := p.functions.modify id.index (fun f => { f with parameters, body }) } := by
  let q : Program := { p with functions := p.functions.modify id.index (fun f => { f with parameters, body }) }
  have get : ∀ k g, q.functions[k]? = some g →
      p.functions[k]? = some g ∨ k = id.index ∧ g = { f with parameters, body } := by
    intro k g here
    change (p.functions.modify id.index _)[k]? = some g at here
    rw [Array.getElem?_modify] at here
    split at here
    · rename_i same
      subst same
      rw [found] at here
      cases here
      exact .inr ⟨rfl, rfl⟩
    · exact .inl here
  have grows : p.Extends q := by
    refine ⟨stays_refl _, fun _ _ old => old, ?_, Nat.le_refl _⟩
    intro k g old
    change ∃ h, (p.functions.modify id.index _)[k]? = some h ∧ _
    rw [Array.getElem?_modify, old]
    split
    · exact ⟨_, rfl, rfl, rfl⟩
    · exact ⟨g, rfl, rfl, rfl⟩
  refine ⟨grows, formed_step grows formed formed.framed (fun _ s found => .inl ⟨s, found, rfl⟩) ?_
    (fun _ _ old => .inl old) (fun _ _ old => .inl old) (fun _ old => .inl old) formed.variablesListed ?_⟩
  · intro k g here
    rcases get k g here with old | ⟨rfl, rfl⟩
    · exact .inl old
    · have seated := formed.functions id.index f found
      exact .inr ⟨seated.scope, seated.home, there, enclosed_extends grows enclosed,
        fun b written n inside => enclosed_extends grows (nested b written n inside)⟩
  · have names : q.functions.toList.map Function.name = p.functions.toList.map Function.name := by
      apply List.ext_getElem?
      intro k
      simp only [List.getElem?_map, Array.getElem?_toList, q, Array.getElem?_modify]
      split <;> cases p.functions[k]? <;> rfl
    rw [names]
    exact formed.functionsListed

end Steps

end Program

end SemanticAnalysis
