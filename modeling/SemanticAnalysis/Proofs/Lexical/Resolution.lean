import SemanticAnalysis.Proofs.Compilation.Failure
import SemanticAnalysis.Proofs.Lexical.Layout
/-!
What names are found to mean. In a constructed program, looking up a name from where it stands gives the variable that
lexical scoping gives.
-/
namespace SemanticAnalysis
open SemanticAnalysis.Bound Construction ScopeTree

theorem find_some_flat_map {α β γ : Type} (f : α → List β) (g : β → Option γ) (xs : List α) :
    (xs.flatMap f).findSome? g = xs.findSome? (fun x => (f x).findSome? g) := by
  induction xs with
  | nil => rfl
  | cons x rest ih =>
    rw [List.flatMap_cons, List.findSome?_append, List.findSome?_cons, ih]
    cases (f x).findSome? g <;> rfl

theorem find_some_linked {β : Type} (t : ScopeTree) (targets : String → List String) (module : String)
    (own : ScopeId → Option β) : (linked t targets module).findSome? own
      = (targets module).findSome? (fun target => (t.findModule? target).bind own) := by
  rw [linked, find_some_erase_dups, find_some_filter_map]

namespace Program

theorem places_meanings {p : Program} {modules : List Tree.Module} {module : String} {scope : ScopeId}
    {used : List Identifier} {names : List String}
    (sees : ∀ name, p.scopes.findVariable? scope name = Tree.inModule p.options modules module name)
    (places : used.map Identifier.place = names.map (·, scope)) :
    used.map (fun i => (i.name, p.scopes.findVariable? i.site.scope i.name))
      = (names.map (fun name => (⟨name, []⟩ : Tree.Use))).map (fun use =>
        (use.name, (use.visible.lookup use.name).or (Tree.inModule p.options modules module use.name))) := by
  have located := congrArg (List.map (fun place => (place.1, p.scopes.findVariable? place.2 place.1))) places
  rw [List.map_map, List.map_map] at located
  refine located.trans ?_
  rw [List.map_map]
  apply List.map_congr_left
  intro name _
  simp [sees]

section Lexical
variable {p : Program} {modules : List Tree.Module} {ds : List Declared} (lexical : p.Lexical modules ds)
include lexical

theorem find_linked (module name : String) :
    (linked p.scopes (Tree.importsOf modules) module).findSome? (fun id => p.scopes.ownVariable? id name)
      = (Tree.importsOf modules module).findSome? (fun m => (Tree.visibleIn (Tree.placed modules) m).lookup name) := by
  rw [find_some_linked]
  apply find_some_congr
  intro target _
  cases found : p.scopes.findModule? target with
  | none =>
    rw [lexical.absent target found]
    rfl
  | some id => rw [Option.bind_some, own_variable_module lexical.grounded found]

theorem find_variable_home {module : String} {home : ScopeId} (named : p.scopes.findModule? module = some home)
    (name : String) : p.scopes.findVariable? home name = Tree.inModule p.options modules module name := by
  have near : ScopeTree.near p.above module
      = if p.options.implicitBuiltinImport then [module, ScopeTree.builtinModule] else [module] := by
    unfold above ScopeTree.near
    cases p.options.implicitBuiltinImport
    · rw [if_neg (by decide)]
      rfl
    · rfl
  have found := find_variable_module lexical.grounded named name
  rw [near, find_some_flat_map, funext (fun m => find_linked lexical m name), ← find_some_flat_map] at found
  exact found

theorem settled_meanings {entry : Nat × Tree.Placed} {d : Declared} (settled : p.SettledIn entry d) :
    p.meanings d.declaration = Tree.meanings p.options modules entry.1 entry.2 := by
  obtain ⟨next, module, item⟩ := entry
  obtain ⟨home, named, there⟩ := settled
  have sees := find_variable_home lexical named
  unfold meanings Tree.meanings
  cases there with
  | @inner id decl f closed =>
    obtain ⟨s, found, _, parent, _⟩ := closed.opened.scope
    change List.map _ (p.identifiers (.function id)) = _
    rw [identifiers_function closed.opened.found, ← List.forall₂_eq_eq_eq, List.forall₂_map_left_iff,
      List.forall₂_map_right_iff]
    apply closed.meets.imp
    rintro i use ⟨name, within⟩
    rw [find_variable_within lexical.grounded.ordered found parent within, sees, name]
  | outer laid other =>
    cases laid with
    | ofFunction opened origin => cases other
    | @ofVariable id decl v found origin scope places =>
      have listed : p.identifiers (.variable id) = Expr.optionIdentifiers v.initializer := by
        rw [identifiers, found]
        rfl
      change List.map _ (p.identifiers (.variable id)) = _
      rw [listed]
      exact places_meanings sees places
    | @ofStruct id type decl s scope found origin places scope_found kind parent vars imports =>
      have listed : p.identifiers (.struct id) = Expr.allIdentifiers s.defaults := by
        rw [identifiers, found]
        rfl
      change List.map _ (p.identifiers (.struct id)) = _
      rw [listed]
      apply places_meanings _ places
      intro name
      rw [find_variable_below lexical.grounded.ordered scope_found parent imports, vars, sees]
      rfl

end Lexical

end Program

/-- If all calls are well-formed, a program is constructed. Its variables are those of the modules in the order of the
text, and every name that is used in it is found to mean the variable that lexical scoping tells. -/
theorem names_are_found_lexically (options : Options) (modules : List Tree.Module)
    (well_formed : ∀ call ∈ Tree.calls modules, call.target.isCallable = true) :
    ∃ p findings, Program.construct options modules = .ok (p, findings) ∧
      p.vars.toList.map Variable.binder = Tree.allBinders modules ∧
      p.declarations.map p.meanings = Tree.allMeanings options modules := by
  rcases Compilation.construct_outcome options modules with ⟨span, rest, faulty, _⟩ | ⟨_, p, findings, built, _⟩
  · have none : Tree.faults (Tree.calls modules) = [] := by
      simpa [Tree.faults, Tree.Call.isMalformed] using well_formed
    rw [none] at faulty
    cases faulty
  · obtain ⟨rfl, ds, lexical⟩ := construct_lexical built
    refine ⟨p, findings, built, lexical.binders, ?_⟩
    rw [lexical.declarations, List.map_map, Tree.allMeanings, ← List.forall₂_eq_eq_eq, List.forall₂_map_left_iff,
      List.forall₂_map_right_iff]
    exact lexical.settled.flip.imp (fun d entry settled => Program.settled_meanings lexical settled)

def Tree.assigned (text value : String) : Tree.VariableDecl :=
  ⟨⟨text, {}⟩, false, none, some (.name ⟨value, {}⟩ {}), {}⟩

def Tree.used (text : String) : Tree.Stmt := .expr (.name ⟨text, {}⟩ {}) {}

/-- Here `x` is a variable of a module, two parameters, and a variable of a block and of a block inside it. The module
imports `z`. -/
def Tree.shadowing : List Tree.Module :=
  let inner : Tree.Block := .mk [.variable (assigned "x" "x"), used "x"] {}
  let body : Tree.Block := .mk [.variable (assigned "x" "x"), .block inner, used "x", used "z"] {}
  let params : List Tree.Param := [⟨⟨"x", {}⟩, none, {}⟩, ⟨⟨"x", {}⟩, none, {}⟩]
  [{ path := [⟨"a", {}⟩]
     imports := [⟨[⟨"b", {}⟩], {}⟩]
     items := [.variable (assigned "x" "z"), .function ⟨⟨"f", {}⟩, {}, none, params, none, some body, {}⟩]
     notices := []
     span := {} },
   { path := [⟨"b", {}⟩]
     imports := []
     items := [.variable ⟨⟨"z", {}⟩, false, none, none, {}⟩]
     notices := []
     span := {} }]

theorem shadowing_is_lexical :
    (∀ call ∈ Tree.calls Tree.shadowing, call.target.isCallable = true) ∧
      ∃ p findings, Program.construct {} Tree.shadowing = .ok (p, findings) ∧
        p.declarations.map p.meanings = [[("z", some ⟨1⟩)],
          [("x", some ⟨2⟩), ("x", some ⟨4⟩), ("x", some ⟨5⟩), ("x", some ⟨4⟩), ("z", some ⟨1⟩)], []] := by
  have well_formed : ∀ call ∈ Tree.calls Tree.shadowing, call.target.isCallable = true := by
    intro call member
    cases member
  obtain ⟨p, findings, built, _, meanings⟩ := names_are_found_lexically {} Tree.shadowing well_formed
  refine ⟨well_formed, p, findings, built, ?_⟩
  rw [meanings]
  rfl

end SemanticAnalysis
