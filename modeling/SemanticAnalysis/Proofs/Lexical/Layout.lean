import SemanticAnalysis.Proofs.Construction.Declaring
/-!
The layout of constructed programs. At the end of construction every name that is used stands in a scope from which one
sees what lexical scoping makes visible there, up to the scope of the module; variables and nodes are numbered in order.
-/
namespace SemanticAnalysis
open SemanticAnalysis.Bound Construction

namespace Program

/-- An item of the module `home` is completely bound. -/
inductive Settled (p : Program) (home : ScopeId) (next : Nat) : Tree.Item → Declared → Prop where
  | inner {id : FunctionId} {decl : Tree.FunctionDecl} {f : Function} (closed : p.Closed home id next decl f) :
      Settled p home next (.function decl) (.function id decl)
  | outer {item : Tree.Item} {d : Declared} (laid : p.Laid home item d) (other : d.functionNumber? = none) :
      Settled p home next item d

def SettledIn (p : Program) (entry : Nat × Tree.Placed) (d : Declared) : Prop :=
  ∃ home, p.scopes.findModule? entry.2.module = some home ∧ p.Settled home entry.1 entry.2.item d

def innerNodes (p : Program) (d : Declared) : List Node :=
  match d with
  | .function id _ => p.nodesOf (.function id)
  | _ => []

theorem inner_nodes_none {p : Program} {d : Declared} (other : d.functionNumber? = none) : p.innerNodes d = [] := by
  unfold innerNodes
  split
  · cases other
  · rfl

def ScopesOf (ds : List Declared) (kind : ScopeKind) : Prop :=
  ∃ n ∈ ds.filterMap Declared.functionNumber?, kind = .function ⟨n⟩

section Kept
variable {p q : Program} {ds : List Declared} (keeps : p.Keeps (ScopesOf ds) q)
include keeps

theorem settled_keeps {entry : Nat × Tree.Placed} {d : Declared}
    (apart : ∀ n, d.functionNumber? = some n → n ∉ ds.filterMap Declared.functionNumber?)
    (settled : p.SettledIn entry d) : q.SettledIn entry d ∧ q.innerNodes d = p.innerNodes d := by
  obtain ⟨next, module, item⟩ := entry
  obtain ⟨home, named, there⟩ := settled
  have named' := keeps.modules _ _ named
  cases there with
  | @inner id decl f closed =>
    have other : ∀ kind : ScopeKind, kind.Inside id → ¬ScopesOf ds kind := by
      rintro kind inside ⟨n, member, rfl⟩
      cases inside
      exact apart n rfl member
    have closed' := closed_keeps keeps other closed
    refine ⟨⟨home, named', .inner closed'⟩, ?_⟩
    change q.nodesOf (.function id) = p.nodesOf (.function id)
    rw [nodes_function closed'.opened.found, nodes_function closed.opened.found, closed_nodes_keep keeps closed]
  | @outer item d laid other =>
    refine ⟨⟨home, named', .outer (laid_keeps keeps ?_ ?_ laid) other⟩, ?_⟩
    · rintro id ⟨n, _, same⟩
      cases same
    · rintro id decl rfl
      cases other
    · rw [inner_nodes_none other, inner_nodes_none other]

theorem laid_rest_keeps {items : List Tree.Placed} {rest : List Declared}
    (apart : ∀ n ∈ rest.filterMap Declared.functionNumber?, n ∉ ds.filterMap Declared.functionNumber?)
    (laid : List.Forall₂ p.LaidIn items rest) : List.Forall₂ q.LaidIn items rest := by
  induction laid with
  | nil => exact .nil
  | @cons i d items rest head _ ih =>
    obtain ⟨home, named, there⟩ := head
    have unlike : ∀ n, d.functionNumber? = some n → n ∉ ds.filterMap Declared.functionNumber? := by
      intro n same
      exact apart n (by rw [List.filterMap_cons, same]; exact List.mem_cons_self ..)
    refine .cons ⟨home, keeps.modules _ _ named, laid_keeps keeps ?_ ?_ there⟩ (ih ?_)
    · rintro id ⟨n, _, same⟩
      cases same
    · rintro id decl rfl ⟨n, member, same⟩
      cases same
      exact unlike n rfl member
    · intro n member
      apply apart n
      rw [List.filterMap_cons]
      cases d.functionNumber? with
      | none => exact member
      | some k => exact List.mem_cons_of_mem k member

end Kept

end Program

namespace Construction
open Program

variable {p : Program}

theorem bind_item_yields {i : Tree.Placed} {d : Declared} (ordered : p.scopes.Ordered) (laid : p.LaidIn i d) :
    Yields (bindDeclared d) p (fun _ q => q.scopes.Ordered ∧ p.Keeps (ScopesOf [d]) q ∧
      q.vars.toList.map Variable.binder = p.vars.toList.map Variable.binder ++ i.item.binders ∧
      q.SettledIn (p.vars.size, i) d ∧ Numbered p.nodes q.nodes (q.innerNodes d) ∧
      q.functions.toList.map Function.origin = p.functions.toList.map Function.origin) := by
  obtain ⟨module, item⟩ := i
  obtain ⟨home, named, there⟩ := laid
  cases there with
  | @ofFunction id decl f opened origin =>
    refine yields_weaken (bind_function_yields decl ordered opened origin) ?_
    rintro _ q ⟨ordered', keeps, binders, nodes, origins, g, closed⟩
    refine ⟨ordered', ?_, binders, ⟨home, keeps.modules _ _ named, .inner closed⟩, nodes, origins⟩
    apply keeps_weaken _ keeps
    rintro kind rfl
    exact ⟨id.index, List.mem_cons_self .., rfl⟩
  | ofVariable found origin scope places =>
    refine yields_pure ⟨ordered, keeps_refl _ p, ?_, ⟨home, named, .outer (.ofVariable found origin scope places) rfl⟩,
      .none (Nat.le_refl _), rfl⟩
    simp [Tree.Item.binders]
  | ofStruct found origin places scope_found kind parent vars imports =>
    refine yields_pure ⟨ordered, keeps_refl _ p, ?_,
      ⟨home, named, .outer (.ofStruct found origin places scope_found kind parent vars imports) rfl⟩,
      .none (Nat.le_refl _), rfl⟩
    simp [Tree.Item.binders]

structure Ends (p q : Program) (items : List Tree.Placed) (ds : List Declared) : Prop where
  ordered : q.scopes.Ordered
  keeps : p.Keeps (ScopesOf ds) q
  binders : q.vars.toList.map Variable.binder
    = p.vars.toList.map Variable.binder ++ items.flatMap (fun i => i.item.binders)
  settled : List.Forall₂ q.SettledIn (Tree.numbered p.vars.size items) ds
  nodes : Numbered p.nodes q.nodes (ds.flatMap q.innerNodes)
  origins : q.functions.toList.map Function.origin = p.functions.toList.map Function.origin

theorem bind_items_yield (items : List Tree.Placed) {ds : List Declared} (ordered : p.scopes.Ordered)
    (laid : List.Forall₂ p.LaidIn items ds) (apart : (ds.filterMap Declared.functionNumber?).Nodup) :
    Yields (ds.forM bindDeclared) p (fun _ q => Ends p q items ds) := by
  induction items generalizing ds p with
  | nil =>
    cases laid
    exact yields_pure ⟨ordered, keeps_refl _ p, by simp, .nil, .none (Nat.le_refl _), rfl⟩
  | cons i items ih =>
    cases laid with
    | @cons _ d _ ds head tail =>
      have split : (d :: ds).filterMap Declared.functionNumber?
          = d.functionNumber?.toList ++ ds.filterMap Declared.functionNumber? := by
        rw [List.filterMap_cons]
        cases d.functionNumber? <;> rfl
      rw [split] at apart
      obtain ⟨_, others, disjoint⟩ := List.nodup_append.mp apart
      have last : [d].filterMap Declared.functionNumber? = d.functionNumber?.toList := by
        cases h : d.functionNumber? <;> simp [h]
      refine yields_bind (bind_item_yields ordered head) ?_
      rintro _ q ⟨ordered', keeps, binders, settled, nodes, origins⟩
      have laid' : List.Forall₂ q.LaidIn items ds := by
        apply laid_rest_keeps keeps _ tail
        intro n member own
        rw [last] at own
        exact disjoint n own n member rfl
      refine yields_weaken (ih ordered' laid' others) ?_
      rintro _ r ends
      obtain ⟨settled', same⟩ := settled_keeps ends.keeps (fun n own member =>
        disjoint n (by rw [own]; exact List.mem_singleton.mpr rfl) n member rfl) settled
      have size : q.vars.size = p.vars.size + i.item.binders.length := by
        have lengths := congrArg List.length binders
        simpa using lengths
      constructor
      · exact ends.ordered
      · apply keeps_trans (q := q)
        · apply keeps_weaken _ keeps
          rintro kind ⟨n, member, same⟩
          rw [last] at member
          exact ⟨n, by rw [split]; exact List.mem_append_left _ member, same⟩
        · apply keeps_weaken _ ends.keeps
          rintro kind ⟨n, member, same⟩
          exact ⟨n, by rw [split]; exact List.mem_append_right _ member, same⟩
      · rw [ends.binders, binders, List.flatMap_cons, List.append_assoc]
      · rw [Tree.numbered, ← size]
        exact .cons settled' ends.settled
      · rw [List.flatMap_cons, same]
        exact nodes.append ends.nodes
      · exact ends.origins.trans origins

theorem bind_laid_yield {items : List Tree.Placed} {ds : List Declared} {imports : String → List ScopeId}
    (lays : p.Lays items ds imports) : Yields (ds.forM bindDeclared) p (fun _ q => Ends p q items ds) := by
  have distinct : (List.range p.functions.size).Nodup := List.nodup_range
  rw [← lays.functions] at distinct
  exact bind_items_yield items lays.grounded.ordered lays.laid (List.nodup_append.mp distinct).2.1

end Construction

namespace Program

/-- A program in which names are found as lexical scoping tells. -/
structure Lexical (p : Program) (modules : List Tree.Module) (ds : List Declared) : Prop where
  grounded : p.scopes.Grounded p.above (Tree.visibleIn (Tree.placed modules)) (linked p.scopes (Tree.importsOf modules))
  absent : ∀ module, p.scopes.findModule? module = none → Tree.visibleIn (Tree.placed modules) module = []
  declarations : p.declarations = ds.map Declared.declaration
  binders : p.vars.toList.map Variable.binder = Tree.allBinders modules
  settled : List.Forall₂ p.SettledIn
    (Tree.numbered (Tree.globals (Tree.placed modules)).length (Tree.placed modules)) ds
  globals : ds.filterMap Declared.variableNumber? = List.range (Tree.globals (Tree.placed modules)).length
  structs : ds.filterMap Declared.structNumber? = List.range p.structs.size
  bodies : ∀ (k : Nat) (f : Function), p.functions[k]? = some f → f.body ≠ none →
    k ∈ ds.filterMap Declared.functionNumber?
  nodes : Numbered 0 p.nodes (ds.flatMap p.outerNodes ++ ds.flatMap p.innerNodes)
  functions : List.range BuiltinFunction.all.length ++ ds.filterMap Declared.functionNumber?
    = List.range p.functions.size
  origins : p.functions.toList.map Function.origin
    = BuiltinFunction.all.map .builtin ++ (Tree.placed modules).filterMap Tree.Placed.origin?

theorem grounded_keeps {p q : Program} {touched : ScopeKind → Prop} {above : ScopeId} {visible : String → Tree.Visible}
    {imports : String → List ScopeId} (keeps : p.Keeps touched q) (ordered : q.scopes.Ordered)
    (others : ¬touched .root ∧ ¬touched .program ∧ ¬touched .module)
    (grounded : p.scopes.Grounded above visible imports) : q.scopes.Grounded above visible imports := by
  have names : ∀ name, q.scopes.findModule? name = p.scopes.findModule? name := by
    intro name
    unfold ScopeTree.findModule?
    rw [(keeps.outline others.2.2).names]
  constructor
  · exact ordered
  · exact grounded.place
  · exact keeps.scopes _ _ others.1 grounded.root
  · exact keeps.scopes _ _ others.2.1 grounded.program
  · rw [names]
    exact grounded.builtin
  · intro name id named
    rw [names] at named
    obtain ⟨s, found, kind, rest⟩ := grounded.modules name id named
    exact ⟨s, keeps.scopes id s (by rw [kind]; exact others.2.2) found, kind, rest⟩
  · intro name other id first second
    rw [names] at first second
    exact grounded.apart name other id first second

theorem lexical_of_ends {p q : Program} {modules : List Tree.Module} {ds : List Declared}
    (lays : p.Lays (Tree.placed modules) ds (linked p.scopes (Tree.importsOf modules)))
    (declared : p.declarations = ds.map Declared.declaration) (ends : Ends p q (Tree.placed modules) ds) :
    q.Lexical modules ds := by
  have other : ∀ kind, (∀ id, kind ≠ .function id) → ¬ScopesOf ds kind := by
    rintro kind unlike ⟨n, _, same⟩
    exact unlike _ same
  have outline := ends.keeps.outline (other _ (by simp))
  have names : ∀ name, q.scopes.findModule? name = p.scopes.findModule? name := by
    intro name
    unfold ScopeTree.findModule?
    rw [outline.names]
  have size := lays_size lays
  constructor
  · have links : linked q.scopes (Tree.importsOf modules) = linked p.scopes (Tree.importsOf modules) := by
      unfold linked
      rw [funext names]
    rw [links, above, ends.keeps.options]
    exact grounded_keeps ends.keeps ends.ordered ⟨other _ (by simp), other _ (by simp), other _ (by simp)⟩ lays.grounded
  · intro module absent
    rw [names] at absent
    exact lays_absent lays absent
  · unfold declarations at declared ⊢
    rw [outline.listed, declared]
  · rw [ends.binders, lays.binders]
    rfl
  · rw [← size]
    exact ends.settled
  · rw [← size]
    exact lays.globals
  · rw [outline.structs]
    exact lays.structs
  · intro k f found body
    by_contra untouched
    have there : k < p.functions.size := by
      rw [← outline.functions]
      exact (Array.getElem?_eq_some_iff.mp found).1
    have before := Array.getElem?_eq_getElem there
    have same := ends.keeps.functions k _ (by
      rintro ⟨n, member, equal⟩
      cases equal
      exact untouched member) before
    rw [found] at same
    cases same
    exact body (lays.bodies k _ before)
  · rw [outer_all_keep ends.keeps lays.laid]
    exact lays.nodes.append ends.nodes
  · rw [outline.functions]
    exact lays.functions
  · rw [ends.origins, lays.origins]

end Program

namespace Construction
open Program

theorem build_yields (options : Options) (modules : List Tree.Module) :
    Yields (build modules) ({ options } : Program) (fun _ q => (q.options = options ∧ ∃ ds, q.Lexical modules ds) ∧
      List.Forall₂ (fun m b => q.scopes.findModule? m.name = some b.scope) modules q.modules) := by
  refine yields_bind (declare_builtins_yield options) ?_
  rintro _ p ⟨start, none, same⟩
  refine yields_bind (declare_modules_yield start none modules) ?_
  rintro rs q ⟨lays, named, listed, declared, same'⟩
  refine yields_bind (resolve_imports_yield lays named) ?_
  rintro unresolved r ⟨lays', keeps, listed'⟩
  refine yields_bind (seal_items_yield (rs.flatMap Prod.snd)) ?_
  rintro rejected u sealed
  have final := lays_types lays' sealed
  refine yields_bind (bind_laid_yield final) ?_
  rintro _ w ends
  have modules' : u.modules = q.modules := by rw [sealed, listed']
  have scopes : u.scopes = r.scopes := by rw [sealed]
  refine yields_pure ⟨⟨?_, rs.flatMap Prod.snd, ?_⟩, ?_⟩
  · rw [ends.keeps.options, sealed]
    exact (keeps.options.trans same').trans same
  · rw [← scopes] at final
    apply lexical_of_ends final _ ends
    unfold declarations at declared ⊢
    rw [modules', declared]
  · have untouched : ¬ScopesOf (rs.flatMap Prod.snd) .module := by
      rintro ⟨n, _, same⟩
      cases same
    rw [(ends.keeps.outline untouched).listed, modules']
    refine listed.imp (fun m b there => ends.keeps.modules _ _ ?_)
    rw [scopes]
    exact keeps.modules _ _ there

end Construction

theorem construct_yields {options : Options} {modules : List Tree.Module} {p : Program} {findings : List Diagnostic}
    {P : List Diagnostic → Program → Prop} (yields : Yields (build modules) ({ options } : Program) P)
    (built : Program.construct options modules = .ok (p, findings)) : P findings p := by
  unfold Program.construct StateT.run at built
  cases outcome : build modules { options } with
  | error e =>
    rw [outcome] at built
    cases built
  | ok result =>
    obtain ⟨found, q⟩ := result
    rw [outcome] at built
    cases built
    exact yields _ _ outcome

theorem construct_lexical {options : Options} {modules : List Tree.Module} {p : Program} {findings : List Diagnostic}
    (built : Program.construct options modules = .ok (p, findings)) :
    p.options = options ∧ ∃ ds, p.Lexical modules ds :=
  (construct_yields (build_yields options modules) built).1

end SemanticAnalysis
