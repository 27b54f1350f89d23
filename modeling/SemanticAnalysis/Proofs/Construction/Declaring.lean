import SemanticAnalysis.Proofs.Construction.Bodies
import SemanticAnalysis.Proofs.Scope.Modules
/-!
Declarations of modules. When all items are declared, every module scope holds the variables of all modules of its
name in the order of the text, and everything outside of functions is bound in a scope that sees what its module sees.
Imports and supertypes come afterwards and change nothing of this.
-/
namespace SemanticAnalysis
open SemanticAnalysis.Bound Construction ScopeTree

namespace Tree

theorem globals_append (xs ys : List Placed) : globals (xs ++ ys) = globals xs ++ globals ys := List.filterMap_append

theorem globals_variable (module : String) (decl : VariableDecl) :
    globals [⟨module, .variable decl⟩] = [(module, decl)] := rfl

theorem globals_other {i : Placed} (other : i.item.global? = none) : globals [i] = [] := by
  simp [globals, other]

theorem visible_in_variable (items : List Placed) (module name : String) (decl : VariableDecl) :
    visibleIn (items ++ [⟨module, .variable decl⟩]) name = visibleIn items name ++
      (if module = name then [(decl.name.name, ⟨(globals items).length⟩)] else []) := by
  unfold visibleIn
  rw [globals_append, globals_variable, List.zipIdx_append, List.filter_append, List.map_append]
  congr 1
  by_cases same : module = name <;> simp [same]

theorem visible_in_other (items : List Placed) {i : Placed} (other : i.item.global? = none) (name : String) :
    visibleIn (items ++ [i]) name = visibleIn items name := by
  unfold visibleIn
  rw [globals_append, globals_other other, List.append_nil]

theorem visible_in_member {items : List Placed} {module : String} {entry : String × VariableId}
    (member : entry ∈ visibleIn items module) : ∃ i ∈ items, i.module = module := by
  obtain ⟨numbered, kept, _⟩ := List.mem_map.mp member
  obtain ⟨listed, named⟩ := List.mem_filter.mp kept
  have global := List.fst_mem_of_mem_zipIdx listed
  obtain ⟨i, there, declares⟩ := List.mem_filterMap.mp global
  obtain ⟨decl, _, same⟩ := Option.map_eq_some_iff.mp declares
  rw [← same] at named
  exact ⟨i, there, by simpa using named⟩

def Placed.origin? (i : Placed) : Option Bound.Function.Origin :=
  match i.item with
  | .function decl => some (.declared decl)
  | _ => none

end Tree

namespace Construction.Declared

def functionNumber? : Declared → Option Nat
  | .function id _ => some id.index
  | _ => none

def variableNumber? : Declared → Option Nat
  | .variable id => some id.index
  | _ => none

def structNumber? : Declared → Option Nat
  | .struct id _ _ _ => some id.index
  | _ => none

end Construction.Declared

namespace Program

def above (p : Program) : ScopeId := if p.options.implicitBuiltinImport then .builtin else .program

/-- An item of the module `home` was declared. Whatever it has outside of a function body is bound. -/
inductive Laid (p : Program) (home : ScopeId) : Tree.Item → Declared → Prop where
  | ofFunction {id : FunctionId} {decl : Tree.FunctionDecl} {f : Function} (opened : p.Opened home id f [])
      (origin : f.origin = .declared decl) : Laid p home (.function decl) (.function id decl)
  | ofVariable {id : VariableId} {decl : Tree.VariableDecl} {v : Variable} (found : p.vars[id.index]? = some v)
      (origin : v.origin = .declared decl) (scope : v.scope = home)
      (places : (Expr.optionIdentifiers v.initializer).map Identifier.place
        = (Tree.Expr.optionNames decl.initializer).map (·, home)) :
      Laid p home (.variable decl) (.variable id)
  | ofStruct {id : StructId} {type : TypeId} {decl : Tree.StructDecl} {s : Struct} {scope : Scope}
      (found : p.structs[id.index]? = some s) (origin : s.decl = decl)
      (places : (Expr.allIdentifiers s.defaults).map Identifier.place
        = (decl.members.flatMap (fun m => Tree.Expr.optionNames m.default)).map (·, s.scope))
      (scope_found : p.scopes.get? s.scope = some scope) (kind : scope.kind = .struct id)
      (parent : scope.parent = some home) (vars : scope.vars = []) (imports : scope.imports = []) :
      Laid p home (.struct decl) (.struct id type home decl)

def LaidIn (p : Program) (i : Tree.Placed) (d : Declared) : Prop :=
  ∃ home, p.scopes.findModule? i.module = some home ∧ p.Laid home i.item d

def outerNodes (p : Program) (d : Declared) : List Node :=
  match d with
  | .function .. => []
  | d => p.nodesOf d.declaration

section Kept
variable {p q : Program} {touched : ScopeKind → Prop} (keeps : p.Keeps touched q) {home : ScopeId} {item : Tree.Item}
  {d : Declared}
include keeps

theorem laid_keeps (structs : ∀ id, ¬touched (.struct id))
    (functions : ∀ id decl, d = .function id decl → ¬touched (.function id)) (laid : p.Laid home item d) :
    q.Laid home item d := by
  cases laid with
  | ofFunction opened origin => exact .ofFunction (opened_keeps keeps (functions _ _ rfl) opened) origin
  | ofVariable found origin scope places => exact .ofVariable (keeps.vars _ _ found) origin scope places
  | ofStruct found origin places scope_found kind parent vars imports =>
    exact .ofStruct (keeps.structs _ _ found) origin places
      (keeps.scopes _ _ (by rw [kind]; exact structs _) scope_found) kind parent vars imports

theorem outer_nodes_keep (laid : p.Laid home item d) : q.outerNodes d = p.outerNodes d := by
  cases laid with
  | ofFunction opened origin => rfl
  | ofVariable found origin scope places =>
    simp only [outerNodes, Declared.declaration, nodesOf, initialNodes]
    rw [found, keeps.vars _ _ found]
  | ofStruct found origin places scope_found kind parent vars imports =>
    simp only [outerNodes, Declared.declaration, nodesOf]
    rw [found, keeps.structs _ _ found]

end Kept

structure Lays (p : Program) (items : List Tree.Placed) (ds : List Declared) (imports : String → List ScopeId) :
    Prop where
  grounded : p.scopes.Grounded p.above (Tree.visibleIn items) imports
  binders : p.vars.toList.map Variable.binder = (Tree.globals items).map (fun entry => .declaration entry.2)
  laid : List.Forall₂ p.LaidIn items ds
  functions : List.range BuiltinFunction.all.length ++ ds.filterMap Declared.functionNumber?
    = List.range p.functions.size
  origins : p.functions.toList.map Function.origin
    = BuiltinFunction.all.map .builtin ++ items.filterMap Tree.Placed.origin?
  globals : ds.filterMap Declared.variableNumber? = List.range p.vars.size
  structs : ds.filterMap Declared.structNumber? = List.range p.structs.size
  bodies : ∀ (k : Nat) (f : Function), p.functions[k]? = some f → f.body = none
  nodes : Numbered 0 p.nodes (ds.flatMap p.outerNodes)

section Lays
variable {p q : Program} {items : List Tree.Placed} {ds : List Declared} {imports : String → List ScopeId}

theorem lays_size (lays : p.Lays items ds imports) : p.vars.size = (Tree.globals items).length := by
  have lengths := congrArg List.length lays.binders
  simpa using lengths

theorem lays_absent (lays : p.Lays items ds imports) {module : String} (absent : p.scopes.findModule? module = none) :
    Tree.visibleIn items module = [] := by
  apply List.eq_nil_iff_forall_not_mem.mpr
  intro entry member
  obtain ⟨i, there, same⟩ := Tree.visible_in_member member
  obtain ⟨d, _, home, found, _⟩ := related_left lays.laid there
  rw [same, absent] at found
  cases found

theorem laid_in_keeps (keeps : p.Keeps (· = .module) q) {i : Tree.Placed} {d : Declared} (laid : p.LaidIn i d) :
    q.LaidIn i d := by
  obtain ⟨home, named, there⟩ := laid
  exact ⟨home, keeps.modules _ _ named, laid_keeps keeps (by simp) (by simp) there⟩

theorem outer_all_keep {touched : ScopeKind → Prop} (keeps : p.Keeps touched q)
    (laid : List.Forall₂ p.LaidIn items ds) : ds.flatMap q.outerNodes = ds.flatMap p.outerNodes := by
  induction laid with
  | nil => rfl
  | cons head tail ih =>
    obtain ⟨home, _, there⟩ := head
    rw [List.flatMap_cons, List.flatMap_cons, ih, outer_nodes_keep keeps there]

theorem lays_snoc {i : Tree.Placed} {d : Declared} (lays : p.Lays items ds imports) (keeps : p.Keeps (· = .module) q)
    (laid : q.LaidIn i d) (grounded : q.scopes.Grounded q.above (Tree.visibleIn (items ++ [i])) imports)
    (binders : q.vars.toList.map Variable.binder = p.vars.toList.map Variable.binder
      ++ (Tree.globals [i]).map (fun entry => .declaration entry.2))
    (functions : List.range p.functions.size ++ d.functionNumber?.toList = List.range q.functions.size)
    (origins : q.functions.toList.map Function.origin
      = p.functions.toList.map Function.origin ++ i.origin?.toList)
    (globals : List.range p.vars.size ++ d.variableNumber?.toList = List.range q.vars.size)
    (structs : List.range p.structs.size ++ d.structNumber?.toList = List.range q.structs.size)
    (bodies : ∀ (k : Nat) (f : Function), q.functions[k]? = some f → f.body = none)
    (nodes : Numbered p.nodes q.nodes (q.outerNodes d)) :
    q.Lays (items ++ [i]) (ds ++ [d]) imports := by
  have last : ∀ f : Declared → Option Nat, [d].filterMap f = (f d).toList := by
    intro f
    cases h : f d <;> simp [h]
  have final : [i].filterMap Tree.Placed.origin? = i.origin?.toList := by
    cases h : i.origin? <;> simp [h]
  constructor
  · exact grounded
  · rw [binders, lays.binders, Tree.globals_append, List.map_append]
  · exact List.rel_append (lays.laid.imp (fun _ _ => laid_in_keeps keeps)) (.cons laid .nil)
  · rw [List.filterMap_append, last, ← List.append_assoc, lays.functions, functions]
  · rw [origins, lays.origins, List.filterMap_append, final, List.append_assoc]
  · rw [List.filterMap_append, last, lays.globals, globals]
  · rw [List.filterMap_append, last, lays.structs, structs]
  · exact bodies
  · rw [List.flatMap_append, outer_all_keep keeps lays.laid, List.flatMap_singleton]
    exact lays.nodes.append nodes

end Lays

end Program

namespace Construction
open Program

variable {p : Program} {items : List Tree.Placed} {ds : List Declared} {imports : String → List ScopeId}
  {module : String} {home : ScopeId}

variable {above : ScopeId} {visible : String → Tree.Visible} {t : ScopeTree}

theorem home_kind
    (grounded : t.Grounded above visible imports) (named : t.findModule? module = some home) :
    ∀ s, t.get? home = some s → s.kind = .module := by
  obtain ⟨s, found, kind, _⟩ := grounded.modules module home named
  intro s' found'
  rw [found] at found'
  cases found'
  exact kind

theorem home_there
    (grounded : t.Grounded above visible imports) (named : t.findModule? module = some home) :
    home.index < t.size := by
  obtain ⟨s, found, _⟩ := grounded.modules module home named
  exact get_some_index found

theorem grounded_derive
    (grounded : t.Grounded above visible imports) (named : t.findModule? module = some home) (kind : ScopeKind) :
    (t.derive home kind).2.Grounded above visible imports := by
  apply grounded_push grounded
  intro parent up
  cases up
  exact home_there grounded named

theorem new_function_yields (grounded : p.scopes.Grounded p.above visible imports)
    (named : p.scopes.findModule? module = some home) (name : String) (origin : Function.Origin) :
    Yields (newFunction home name origin) p (fun id q => ∃ f, id = ⟨p.functions.size⟩ ∧ f.body = none ∧
      f.origin = origin ∧ q = { p with functions := p.functions.push f, scopes := q.scopes } ∧ p.Keeps (· = .module) q ∧
      q.Opened home id f [] ∧ q.scopes.Grounded p.above visible imports) := by
  let id : FunctionId := ⟨p.functions.size⟩
  let f : Function := { id, origin, home, scope := ⟨p.scopes.size⟩ }
  let q : Program := { p with
    functions := p.functions.push f
    scopes := (p.scopes.derive home (.function id)).2.addFunction home name id }
  have opened := grounded_derive grounded named (.function id)
  have renamed : (p.scopes.derive home (.function id)).2.findModule? module = some home := named
  have keeps : p.Keeps (· = .module) q :=
    keeps_trans (keeps_push_scope _)
      (keeps_trans (keeps_modify_scope home (home_kind opened renamed)) (keeps_push_function f rfl))
  refine yields_done (a := id) (t := q) rfl ⟨f, rfl, rfl, rfl, rfl, keeps, ⟨Array.getElem?_push_size, ?_⟩, ?_⟩
  · refine ⟨{ kind := .function id, parent := some home, home := (p.scopes.get? home).bind Scope.home }, ?_, rfl, rfl,
      rfl, rfl⟩
    change ((p.scopes.derive home (.function id)).2.modify home _).get? ⟨p.scopes.size⟩ = _
    have different : (⟨p.scopes.size⟩ : ScopeId) ≠ home := by
      rintro rfl
      exact Nat.lt_irrefl _ (home_there grounded named)
    rw [get_modify, if_neg different]
    unfold ScopeTree.derive
    rw [get_push, if_pos rfl]
  · exact grounded_modify opened renamed (fun s => ⟨rfl, rfl⟩) (fun s vars => vars)
      (fun s imported => imported) (fun other _ => ⟨rfl, rfl⟩)

theorem bodies_push {q : Program} {f : Function} (pushed : q.functions = p.functions.push f) (empty : f.body = none)
    (bodies : ∀ (k : Nat) (f : Function), p.functions[k]? = some f → f.body = none) (k : Nat) (g : Function)
    (found : q.functions[k]? = some g) : g.body = none := by
  rw [pushed, Array.getElem?_push] at found
  split at found
  · cases found
    exact empty
  · exact bodies k g found

theorem declare_function_yields (lays : p.Lays items ds imports) (named : p.scopes.findModule? module = some home)
    (package : List String) (decl : Tree.FunctionDecl) :
    Yields (declareItem package home (.function decl)) p (fun d q =>
      q.Lays (items ++ [⟨module, .function decl⟩]) (ds ++ [d]) imports ∧ p.Keeps (· = .module) q ∧
        q.modules = p.modules) := by
  refine yields_bind (new_function_yields lays.grounded named decl.name.name (.declared decl)) ?_
  rintro id q ⟨f, rfl, empty, origin, same, keeps, opened, grounded⟩
  have vars : q.vars = p.vars := by rw [same]
  have structs : q.structs = p.structs := by rw [same]
  have functions : q.functions = p.functions.push f := by rw [same]
  have nodes : q.nodes = p.nodes := by rw [same]
  refine yields_pure ⟨?_, keeps, by rw [same]⟩
  apply lays_snoc lays keeps
  · exact ⟨home, keeps.modules _ _ named, .ofFunction opened origin⟩
  · have unchanged : Tree.visibleIn (items ++ [⟨module, .function decl⟩]) = Tree.visibleIn items :=
      funext (Tree.visible_in_other items (i := ⟨module, .function decl⟩) rfl)
    rw [unchanged, above, keeps.options]
    exact grounded
  · simp [vars, Tree.globals, Tree.Item.global?]
  · simp [functions, Declared.functionNumber?, List.range_succ]
  · simp [functions, origin, Tree.Placed.origin?]
  · simp [vars, Declared.variableNumber?]
  · simp [structs, Declared.structNumber?]
  · exact bodies_push functions empty lays.bodies
  · rw [nodes]
    exact .none (Nat.le_refl _)

theorem declare_variable_yields (lays : p.Lays items ds imports) (named : p.scopes.findModule? module = some home)
    (package : List String) (decl : Tree.VariableDecl) :
    Yields (declareItem package home (.variable decl)) p (fun d q =>
      q.Lays (items ++ [⟨module, .variable decl⟩]) (ds ++ [d]) imports ∧ p.Keeps (· = .module) q ∧
        q.modules = p.modules) := by
  refine yields_bind (bind_option_places home decl.initializer) ?_
  rintro initializer r ⟨same, places⟩
  have scopes : r.scopes = p.scopes := by rw [same]
  have vars : r.vars = p.vars := by rw [same]
  have functions : r.functions = p.functions := by rw [same]
  have kept : p.Keeps (· = .module) r := by
    rw [same]
    exact keeps_nodes places.nodes.grows
  let id : VariableId := ⟨r.vars.size⟩
  let v : Variable := { id, origin := .declared decl, scope := home, initializer }
  let q : Program := { r with
    vars := r.vars.push v
    scopes := r.scopes.addVariable home decl.name.name id }
  have grounded : r.scopes.Grounded r.above (Tree.visibleIn items) imports := by
    rw [scopes, above, kept.options]
    exact lays.grounded
  have renamed : r.scopes.findModule? module = some home := by
    rw [scopes]
    exact named
  have keeps : p.Keeps (· = .module) q := by
    apply keeps_trans kept
    apply keeps_trans (keeps_push_variable v)
    exact keeps_modify_scope home (home_kind grounded renamed)
  have size : (Tree.globals items).length = r.vars.size := by
    rw [vars, lays_size lays]
  refine yields_step (a := id) rfl (yields_step (a := PUnit.unit) (t := q) rfl (yields_pure ⟨?_, keeps, ?_⟩))
  · have here : q.vars[id.index]? = some v := Array.getElem?_push_size
    apply lays_snoc lays keeps
    · exact ⟨home, renamed, .ofVariable here rfl rfl places.places⟩
    · refine grounded_modify grounded renamed (fun s => ⟨rfl, rfl⟩) ?_ (fun s imported => imported) ?_
      · intro s own
        rw [Tree.visible_in_variable, if_pos rfl, size, ← own]
      · intro other different
        rw [Tree.visible_in_variable, if_neg (Ne.symm different), List.append_nil]
        exact ⟨rfl, rfl⟩
    · simp [q, v, vars, Tree.globals_variable, Variable.binder]
    · simp [q, functions, Declared.functionNumber?]
    · simp [q, functions, Tree.Placed.origin?]
    · simp [q, id, vars, Declared.variableNumber?, List.range_succ]
    · change _ = List.range r.structs.size
      rw [same]
      simp [Declared.structNumber?]
    · intro k g found
      rw [functions] at found
      exact lays.bodies k g found
    · have outer : q.outerNodes (.variable id) = Expr.optionNodes initializer := by
        simp only [outerNodes, Declared.declaration, nodesOf, initialNodes]
        rw [here]
        rfl
      rw [outer]
      exact places.nodes
  · change r.modules = p.modules
    rw [same]

theorem all_nodes_append (xs ys : List Expr) :
    Expr.allNodes (xs ++ ys) = Expr.allNodes xs ++ Expr.allNodes ys := by
  induction xs with
  | nil => rfl
  | cons e rest ih => rw [List.cons_append, Expr.allNodes, ih, Expr.allNodes, List.append_assoc]

theorem bind_members_yield (scope : ScopeId) (members : List Tree.MemberDecl) :
    Yields (members.mapM (bindMember scope)) p (fun bound q =>
      q = { p with nodes := q.nodes } ∧
        Places scope p.nodes q.nodes (Expr.allNodes (bound.filterMap Member.default))
          (Expr.allSites (bound.filterMap Member.default)) (members.flatMap (fun m => Tree.Expr.optionNames m.default))
          ((members.flatMap Tree.MemberDecl.contents).map Tree.Content.span)) := by
  let J : List Tree.MemberDecl → List Member → Program → Prop := fun done bound q =>
    q = { p with nodes := q.nodes } ∧
      Places scope p.nodes q.nodes (Expr.allNodes (bound.filterMap Member.default))
        (Expr.allSites (bound.filterMap Member.default)) (done.flatMap (fun m => Tree.Expr.optionNames m.default))
        ((done.flatMap Tree.MemberDecl.contents).map Tree.Content.span)
  refine yields_map (J := J) members ⟨rfl, .none (Nat.le_refl _)⟩ ?_
  rintro done m rest bound q _ ⟨same, places⟩
  refine yields_bind (bind_option_places scope m.default) (fun default r ⟨same', here⟩ => yields_pure ⟨?_, ?_⟩)
  · rw [same', same]
  · have last : Expr.allNodes ([(⟨m, default⟩ : Member)].filterMap Member.default) = Expr.optionNodes default ∧
        Expr.allSites ([(⟨m, default⟩ : Member)].filterMap Member.default) = Expr.optionSites default := by
      cases default with
      | none => exact ⟨rfl, rfl⟩
      | some e => simp [Expr.allNodes, Expr.optionNodes, Expr.allSites, Expr.optionSites]
    rw [List.filterMap_append, all_nodes_append, last.1, all_sites_append, last.2, List.flatMap_append,
      List.flatMap_singleton, List.flatMap_append, List.flatMap_singleton, List.map_append]
    exact places.append here

theorem declare_struct_yields (lays : p.Lays items ds imports) (named : p.scopes.findModule? module = some home)
    (package : List String) (decl : Tree.StructDecl) :
    Yields (declareItem package home (.struct decl)) p (fun d q =>
      q.Lays (items ++ [⟨module, .struct decl⟩]) (ds ++ [d]) imports ∧ p.Keeps (· = .module) q ∧
        q.modules = p.modules) := by
  change Yields (declareStruct package home decl) p _
  refine yields_step (a := p) (t := p) rfl ?_
  let id : StructId := ⟨p.structs.size⟩
  let type := (p.types.declare ⟨decl.name.name, package⟩).1
  let named' : Program := { p with
    types := (p.types.declare ⟨decl.name.name, package⟩).2
    scopes := p.scopes.addType home decl.name.name type }
  have grounded : named'.scopes.Grounded p.above (Tree.visibleIn items) imports :=
    grounded_modify lays.grounded named (fun s => ⟨rfl, rfl⟩) (fun s vars => vars)
      (fun s imported => imported) (fun other _ => ⟨rfl, rfl⟩)
  have kept : p.Keeps (· = .module) named' :=
    keeps_trans (keeps_modify_scope home (home_kind lays.grounded named)) (keeps_types _ rfl)
  refine yields_step (a := type) (t := named') rfl ?_
  let scope : Scope := {
    kind := .struct id
    parent := some home
    home := (named'.scopes.get? home).bind Scope.home }
  let opened : Program := { named' with scopes := (named'.scopes.push scope).2 }
  have grounded' : opened.scopes.Grounded p.above (Tree.visibleIn items) imports := grounded_derive grounded named _
  refine yields_step (a := ⟨named'.scopes.size⟩) (t := opened) rfl ?_
  refine yields_bind (bind_members_yield ⟨named'.scopes.size⟩ decl.members) ?_
  rintro members r ⟨same, places⟩
  let s : Struct := { id, decl, type, scope := ⟨named'.scopes.size⟩, members }
  let q : Program := { r with structs := r.structs.push s, structTypes := r.structTypes.insert type id }
  have further : opened.Keeps (· = .module) r := by
    rw [same]
    exact keeps_nodes places.nodes.grows
  have scopes : r.scopes = opened.scopes := by rw [same]
  have structs : r.structs = p.structs := by rw [same]
  have vars : r.vars = p.vars := by rw [same]
  have functions : r.functions = p.functions := by rw [same]
  have keeps : p.Keeps (· = .module) q :=
    keeps_trans kept (keeps_trans (keeps_push_scope scope) (keeps_trans further (keeps_push_struct s _ rfl)))
  have here : q.structs[id.index]? = some s := by
    change (r.structs.push s)[p.structs.size]? = some s
    rw [structs]
    exact Array.getElem?_push_size
  refine yields_step (a := PUnit.unit) (t := q) rfl (yields_pure ⟨?_, keeps, ?_⟩)
  · apply lays_snoc lays keeps
    · have own : q.scopes.get? s.scope = some scope := by
        rw [scopes]
        rw [get_push, if_pos rfl]
      exact ⟨home, keeps.modules module home named, .ofStruct here rfl places.places own rfl rfl rfl rfl⟩
    · have unchanged : Tree.visibleIn (items ++ [⟨module, .struct decl⟩]) = Tree.visibleIn items :=
        funext (Tree.visible_in_other items (i := ⟨module, .struct decl⟩) rfl)
      rw [unchanged, above, keeps.options]
      rw [scopes]
      exact grounded'
    · simp [q, vars, Tree.globals, Tree.Item.global?]
    · simp [q, functions, Declared.functionNumber?]
    · simp [q, functions, Tree.Placed.origin?]
    · simp [q, vars, Declared.variableNumber?]
    · simp [q, structs, Declared.structNumber?, List.range_succ]
    · intro k g found
      rw [functions] at found
      exact lays.bodies k g found
    · have outer : q.outerNodes (.struct id type home decl) = Expr.allNodes (members.filterMap Member.default) := by
        simp only [outerNodes, Declared.declaration, nodesOf]
        rw [here]
        rfl
      rw [outer]
      exact places.nodes
  · change r.modules = p.modules
    rw [same]

theorem declare_item_yields (lays : p.Lays items ds imports) (named : p.scopes.findModule? module = some home)
    (package : List String) (item : Tree.Item) :
    Yields (declareItem package home item) p (fun d q =>
      q.Lays (items ++ [⟨module, item⟩]) (ds ++ [d]) imports ∧ p.Keeps (· = .module) q ∧ q.modules = p.modules) :=
  match item with
  | .function decl => declare_function_yields lays named package decl
  | .variable decl => declare_variable_yields lays named package decl
  | .struct decl => declare_struct_yields lays named package decl

theorem lays_frame {q : Program} {imports' : String → List ScopeId} (lays : p.Lays items ds imports)
    (keeps : p.Keeps (· = .module) q) (grounded : q.scopes.Grounded q.above (Tree.visibleIn items) imports')
    (vars : q.vars = p.vars) (structs : q.structs = p.structs) (functions : q.functions = p.functions)
    (nodes : q.nodes = p.nodes) : q.Lays items ds imports' := by
  constructor
  · exact grounded
  · rw [vars]
    exact lays.binders
  · exact lays.laid.imp (fun _ _ => laid_in_keeps keeps)
  · rw [functions]
    exact lays.functions
  · rw [functions]
    exact lays.origins
  · rw [vars]
    exact lays.globals
  · rw [structs]
    exact lays.structs
  · rw [functions]
    exact lays.bodies
  · rw [nodes, outer_all_keep keeps lays.laid]
    exact lays.nodes

theorem keeps_module_scope (name : String) (parent : ScopeId) :
    p.Keeps (· = .module) { p with scopes := (p.scopes.moduleScope name parent).2 } := by
  unfold ScopeTree.moduleScope
  split
  · exact keeps_refl _ p
  · exact keeps_trans (keeps_push_scope _) (keeps_name_module name _ rfl)

/-- What holds of the declared items and goes on to hold while modules are declared. -/
structure Carried (I : List Tree.Placed → List Declared → Program → Prop) : Prop where
  opened : ∀ {is es q} (m : Tree.Module), q.Lays is es (fun _ => []) → I is es q →
    I is es { q with scopes := (q.scopes.moduleScope m.name q.above).2 }
  item : ∀ {is es q home} (m : Tree.Module) (item : Tree.Item), q.Lays is es (fun _ => []) →
    q.scopes.findModule? m.name = some home → I is es q → Yields (declareItem m.package home item) q
      (fun d r => q.Keeps (· = .module) r → I (is ++ [⟨m.name, item⟩]) (es ++ [d]) r)
  listed : ∀ {is es q} (modules : List Bound.Module), I is es q → I is es { q with modules }

structure Declares (options : Options) (modules : List Tree.Module) (rs : List (ScopeId × List Declared))
    (q : Program) : Prop where
  lays : q.Lays (Tree.placed modules) (rs.flatMap Prod.snd) (fun _ => [])
  named : List.Forall₂ (fun m r => q.scopes.findModule? m.name = some r.1) modules rs
  listed : List.Forall₂ (fun m b => q.scopes.findModule? m.name = some b.scope) modules q.modules
  declared : q.declarations = (rs.flatMap Prod.snd).map Declared.declaration
  options : q.options = options

section Modules
variable {I : List Tree.Placed → List Declared → Program → Prop} (carried : Carried I)
include carried

theorem declare_module_carries (lays : p.Lays items ds (fun _ => [])) (holds : I items ds p) (m : Tree.Module) :
    Yields (declareModule m) p (fun r q =>
      q.Lays (items ++ m.items.map (⟨m.name, ·⟩)) (ds ++ r.2) (fun _ => []) ∧ p.Keeps (· = .module) q ∧
        q.scopes.findModule? m.name = some r.1 ∧
        q.modules = p.modules ++ [⟨m.name, r.1, r.2.map Declared.declaration⟩] ∧
        I (items ++ m.items.map (⟨m.name, ·⟩)) (ds ++ r.2) q) := by
  obtain ⟨grounded, named⟩ := grounded_module_scope lays.grounded m.name
    (fun absent => ⟨lays_absent lays absent, rfl⟩)
  have kept := keeps_module_scope (p := p) m.name p.above
  have start := lays_frame lays kept grounded rfl rfl rfl rfl
  have begun := carried.opened m lays holds
  generalize scope_eq : (p.scopes.moduleScope m.name p.above).1 = scope at named
  refine yields_step (a := scope) (t := { p with scopes := (p.scopes.moduleScope m.name p.above).2 })
    (by rw [← scope_eq]; rfl) ?_
  let opened : Program := { p with scopes := (p.scopes.moduleScope m.name p.above).2 }
  let J : List Tree.Item → List Declared → Program → Prop := fun done declared q =>
    q.Lays (items ++ done.map (⟨m.name, ·⟩)) (ds ++ declared) (fun _ => []) ∧ opened.Keeps (· = .module) q ∧
      q.modules = opened.modules ∧ I (items ++ done.map (⟨m.name, ·⟩)) (ds ++ declared) q
  have base : J [] [] opened := by
    simp only [J, List.map_nil, List.append_nil]
    exact ⟨start, keeps_refl _ opened, trivial, begun⟩
  refine yields_bind (yields_map (J := J) m.items base ?_) ?_
  · rintro done item rest declared q _ ⟨lays', keeps, listed, holds'⟩
    have home := keeps.modules _ _ named
    refine yields_weaken (yields_and (declare_item_yields lays' home m.package item)
      (carried.item m item lays' home holds')) ?_
    rintro d r ⟨⟨lays'', keeps', listed'⟩, holds''⟩
    simp only [J, List.map_append, ← List.append_assoc]
    exact ⟨lays'', keeps_trans keeps keeps', listed'.trans listed, holds'' keeps'⟩
  · rintro declared q ⟨lays', keeps, listed, holds'⟩
    refine yields_step rfl (yields_pure ⟨?_, ?_, ?_, ?_, carried.listed _ holds'⟩)
    · exact lays_frame lays' (keeps_listed _ rfl) lays'.grounded rfl rfl rfl rfl
    · exact keeps_trans kept (keeps_trans keeps (keeps_listed _ rfl))
    · exact keeps.modules _ _ named
    · change q.modules ++ _ = _
      rw [listed]

theorem declare_modules_carry (lays : p.Lays [] [] (fun _ => [])) (none : p.modules = []) (holds : I [] [] p)
    (modules : List Tree.Module) :
    Yields (modules.mapM declareModule) p (fun rs q => Declares p.options modules rs q ∧
      I (Tree.placed modules) (rs.flatMap Prod.snd) q) := by
  let J : List Tree.Module → List (ScopeId × List Declared) → Program → Prop := fun done rs q =>
    Declares p.options done rs q ∧ I (Tree.placed done) (rs.flatMap Prod.snd) q
  have start : Declares p.options [] [] p := by
    refine ⟨lays, .nil, ?_, ?_, rfl⟩
    · rw [none]
      exact .nil
    · rw [declarations, none]
      rfl
  refine yields_map (J := J) modules ⟨start, holds⟩ ?_
  rintro done m rest rs q _ ⟨⟨lays', named, listed, declared, options⟩, holds'⟩
  refine yields_weaken (declare_module_carries carried lays' holds' m) ?_
  rintro r q' ⟨lays'', keeps, named', listed', holds''⟩
  have placed : Tree.placed (done ++ [m]) = Tree.placed done ++ m.items.map (⟨m.name, ·⟩) := by
    rw [Tree.placed, List.flatMap_append, List.flatMap_singleton]
    rfl
  refine ⟨⟨?_, ?_, ?_, ?_, keeps.options.trans options⟩, ?_⟩
  · rw [placed, List.flatMap_append, List.flatMap_singleton]
    exact lays''
  · exact List.rel_append (named.imp (fun m r there => keeps.modules _ _ there)) (.cons named' .nil)
  · rw [listed']
    exact List.rel_append (listed.imp (fun m r there => keeps.modules _ _ there)) (.cons named' .nil)
  · unfold declarations at declared ⊢
    rw [listed', List.flatMap_append, declared, List.flatMap_append, List.map_append, List.flatMap_singleton,
      List.flatMap_singleton]
  · rw [placed, List.flatMap_append, List.flatMap_singleton]
    exact holds''

end Modules

theorem declare_modules_yield (lays : p.Lays [] [] (fun _ => [])) (none : p.modules = []) (modules : List Tree.Module) :
    Yields (modules.mapM declareModule) p (Declares p.options modules) := by
  have nothing : Carried (fun _ _ _ => True) :=
    ⟨fun _ _ _ => trivial, fun _ _ _ _ _ _ _ _ _ => trivial, fun _ _ => trivial⟩
  exact yields_weaken (declare_modules_carry nothing lays none trivial modules) (fun rs q holds => holds.1)

theorem add_types_yield
    (entries : List (TypeDef × Nat)) (grounded : t.Grounded above visible imports) :
    (entries.foldl (fun scopes entry => scopes.addType .builtin entry.1.name.name ⟨entry.2⟩) t).Grounded above visible
      imports := by
  induction entries generalizing t with
  | nil => exact grounded
  | cons entry rest ih =>
    apply ih
    exact grounded_modify grounded grounded.builtin (fun s => ⟨rfl, rfl⟩) (fun s vars => vars)
      (fun s imported => imported) (fun other _ => ⟨rfl, rfl⟩)

theorem declare_builtins_yield (options : Options) :
    Yields declareBuiltins ({ options } : Program) (fun _ q =>
      q.Lays [] [] (fun _ => []) ∧ q.modules = [] ∧ q.options = options) := by
  -- there is nothing yet but some of the functions
  let J : List BuiltinFunction → Program → Prop := fun done q =>
    q.scopes.Grounded q.above (Tree.visibleIn []) (fun _ => []) ∧ q.vars = #[] ∧ q.structs = #[] ∧ q.modules = [] ∧
      q.options = options ∧ q.functions.toList.map Function.origin = done.map .builtin ∧
      ∀ (k : Nat) (f : Function), q.functions[k]? = some f → f.body = none
  refine yields_step rfl (yields_weaken (yields_for (J := J) BuiltinFunction.all ?_ ?_) ?_)
  · refine ⟨add_types_yield _ (grounded_initial ?_), rfl, rfl, rfl, rfl, rfl, by simp⟩
    unfold above
    split
    · exact .inr rfl
    · exact .inl rfl
  · rintro done b rest q _ ⟨grounded, vars, structs, listed, chosen, origins, bodies⟩
    refine yields_bind (new_function_yields grounded grounded.builtin b.name (.builtin b)) ?_
    rintro id r ⟨f, _, empty, origin, same, keeps, _, grounded'⟩
    have functions : r.functions = q.functions.push f := by rw [same]
    refine yields_pure ⟨?_, ?_, ?_, ?_, keeps.options.trans chosen, ?_, bodies_push functions empty bodies⟩
    · rw [above, keeps.options]
      exact grounded'
    · rw [same]
      exact vars
    · rw [same]
      exact structs
    · rw [same]
      exact listed
    · simp [functions, origin, origins]
  · rintro _ q ⟨grounded, vars, structs, listed, chosen, origins, bodies⟩
    have size : q.functions.size = BuiltinFunction.all.length := by
      have lengths := congrArg List.length origins
      simpa using lengths
    refine ⟨⟨grounded, ?_, .nil, ?_, ?_, ?_, ?_, bodies, .none (Nat.zero_le _)⟩, listed, chosen⟩
    · simp [vars, Tree.globals]
    · simp [size]
    · simp [origins]
    · simp [vars]
    · simp [structs]

/-- The scopes of some modules that are imported, each once. -/
def linked (t : ScopeTree) (targets : String → List String) (module : String) : List ScopeId :=
  ((targets module).filterMap t.findModule?).eraseDups

theorem resolve_import_yields {targets : String → List String} (lays : p.Lays items ds (linked p.scopes targets))
    (named : p.scopes.findModule? module = some home) (i : Tree.Import) :
    Yields (resolveImport home i) p (fun _ q =>
      q.Lays items ds (linked q.scopes (fun m => targets m ++ (if module = m then [i.target] else []))) ∧
        p.Keeps (· = .module) q ∧ q.modules = p.modules) := by
  refine yields_import home i ?_ ?_
  · intro found
    refine ⟨?_, keeps_refl _ p, rfl⟩
    have same : linked p.scopes (fun m => targets m ++ (if module = m then [i.target] else []))
        = linked p.scopes targets := by
      funext m
      unfold linked
      dsimp only
      split <;> simp [found]
    rw [same]
    exact lays
  · intro imported found
    have keeps : p.Keeps (· = .module) { p with scopes := p.scopes.addImport home imported } :=
      keeps_modify_scope home (home_kind lays.grounded named)
    refine ⟨lays_frame lays keeps ?_ rfl rfl rfl rfl, keeps, rfl⟩
    refine grounded_modify lays.grounded named ?_ ?_ ?_ ?_
    · intro s
      split <;> exact ⟨rfl, rfl⟩
    · intro s vars
      split <;> exact vars
    · intro s linkedHere
      change _ = ((targets module ++ _).filterMap p.scopes.findModule?).eraseDups
      rw [if_pos rfl, List.filterMap_append]
      have last : [i.target].filterMap p.scopes.findModule? = [imported] := by simp [found]
      unfold linked at linkedHere
      rw [last, erase_dups_snoc, ← linkedHere]
      split <;> rfl
    · intro other different
      refine ⟨rfl, ?_⟩
      change ((targets other ++ _).filterMap p.scopes.findModule?).eraseDups = _
      rw [if_neg (Ne.symm different), List.append_nil]
      rfl

theorem imports_of_snoc (modules : List Tree.Module) (m : Tree.Module) (name : String) :
    Tree.importsOf (modules ++ [m]) name = Tree.importsOf modules name ++
      (if m.name = name then m.imports.map Tree.Import.target else []) := by
  unfold Tree.importsOf
  rw [List.filter_append, List.flatMap_append]
  congr 1
  by_cases same : m.name = name <;> simp [same]

theorem resolve_imports_yield {modules : List Tree.Module} {rs : List (ScopeId × List Declared)}
    (lays : p.Lays items ds (fun _ => []))
    (named : List.Forall₂ (fun m r => p.scopes.findModule? m.name = some r.1) modules rs) :
    Yields ((modules.zip rs).mapM (fun entry => entry.1.imports.mapM (resolveImport entry.2.1))) p (fun _ q =>
      q.Lays items ds (linked q.scopes (Tree.importsOf modules)) ∧ p.Keeps (· = .module) q ∧
        q.modules = p.modules) := by
  let J : List (Tree.Module × (ScopeId × List Declared)) → List (List (List Diagnostic)) → Program → Prop :=
    fun done _ q => q.Lays items ds (linked q.scopes (Tree.importsOf (done.map Prod.fst))) ∧
      p.Keeps (· = .module) q ∧ q.modules = p.modules
  refine yields_weaken (yields_map (J := J) (modules.zip rs) ⟨lays, keeps_refl _ p, rfl⟩ ?_) ?_
  · rintro done ⟨m, scope, own⟩ rest _ q whole ⟨lays', keeps, listed⟩
    have member : (m, (scope, own)) ∈ modules.zip rs := by
      rw [whole]
      simp
    have here := keeps.modules _ _ (List.forall₂_zip named member)
    let K : List Tree.Import → List (List Diagnostic) → Program → Prop := fun part _ r =>
      r.Lays items ds (linked r.scopes (fun n => Tree.importsOf (done.map Prod.fst) n ++
        (if m.name = n then part.map Tree.Import.target else []))) ∧ q.Keeps (· = .module) r ∧ r.modules = q.modules
    have start : K [] [] q := by
      refine ⟨?_, keeps_refl _ q, rfl⟩
      simpa using lays'
    refine yields_weaken (yields_map (J := K) m.imports start ?_) ?_
    · rintro part i others _ r _ ⟨lays'', keeps', listed'⟩
      refine yields_weaken (resolve_import_yields lays'' (keeps'.modules _ _ here) i) ?_
      rintro _ r' ⟨final, keeps'', listed''⟩
      refine ⟨?_, keeps_trans keeps' keeps'', listed''.trans listed'⟩
      have same : (fun n => Tree.importsOf (done.map Prod.fst) n ++
          (if m.name = n then (part ++ [i]).map Tree.Import.target else []))
          = fun n => (Tree.importsOf (done.map Prod.fst) n ++ (if m.name = n then part.map Tree.Import.target else []))
            ++ (if m.name = n then [i.target] else []) := by
        funext n
        split <;> simp
      rw [same]
      exact final
    · rintro _ r ⟨lays'', keeps', listed'⟩
      refine ⟨?_, keeps_trans keeps keeps', listed'.trans listed⟩
      rw [List.map_append, List.map_singleton, funext (imports_of_snoc (done.map Prod.fst) m)]
      exact lays''
  · rintro _ q ⟨lays', rest⟩
    rw [List.map_fst_zip (Nat.le_of_eq named.length_eq)] at lays'
    exact ⟨lays', rest⟩

theorem yields_lift {α β : Type} {x : Except InternalError α} {f : α → Construction β} {Q : β → Program → Prop}
    (rest : ∀ a, Yields (f a) p Q) : Yields ((liftM x : Construction α) >>= f) p Q := by
  cases x with
  | error e =>
    intro b q ran
    cases ran
  | ok a => exact yields_step (a := a) (t := p) rfl (rest a)

theorem seal_declared_yields (d : Declared) :
    Yields (sealDeclared d) p (fun _ q => q = { p with types := q.types }) := by
  have attach : ∀ type home name written {q : Program}, q = { p with types := q.types } →
      Yields (attachSupertype type home name written) q (fun _ r => r = { p with types := r.types }) := by
    intro type home name written q same
    refine yields_step (a := q) (t := q) rfl ?_
    split
    · exact yields_pure same
    · refine yields_lift (fun outcome => ?_)
      cases outcome with
      | none => exact yields_pure same
      | some types =>
        refine yields_step rfl (yields_pure ?_)
        rw [same]
  match d with
  | .function .. => exact yields_pure rfl
  | .variable _ => exact yields_pure rfl
  | .struct id type home decl =>
    change Yields (sealStruct type home decl) p _
    refine yields_bind (yields_map (J := fun _ _ (q : Program) => q = { p with types := q.types }) decl.supertypes rfl
      (fun _ written _ _ q _ same => attach type home decl.name.name written same)) (fun left q same => ?_)
    split
    · refine yields_bind (P := fun _ r => r = { p with types := r.types }) ?_ (fun _ r same' => yields_pure same')
      refine yields_step (a := q) (t := q) rfl (yields_lift (fun outcome => ?_))
      cases outcome with
      | none => exact yields_pure same
      | some types =>
        refine yields_done rfl ?_
        rw [same]
    · exact yields_pure same

theorem seal_items_yield (ds : List Declared) :
    Yields (ds.mapM sealDeclared) p (fun _ q => q = { p with types := q.types }) := by
  refine yields_map (J := fun _ _ (q : Program) => q = { p with types := q.types }) ds rfl ?_
  rintro done d rest _ q _ sealed
  refine yields_weaken (seal_declared_yields d) ?_
  rintro _ r further
  rw [further, sealed]

theorem lays_types {q : Program} (lays : p.Lays items ds imports) (same : q = { p with types := q.types }) :
    q.Lays items ds imports := by
  rw [same]
  exact lays_frame lays (keeps_types _ rfl) lays.grounded rfl rfl rfl rfl

end Construction

end SemanticAnalysis
