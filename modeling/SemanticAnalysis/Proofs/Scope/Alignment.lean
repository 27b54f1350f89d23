import Mathlib.Data.List.Sort
import SemanticAnalysis.Proofs.Scope.Modules
/-!
Two ways to see the built-in module. In one tree of scopes it lies above the other modules, in the other they import it
first. The trees grow side by side and stay the same but for what lies above modules and what modules import, and every
name means the same in both.
-/
namespace SemanticAnalysis

structure Scope.Moved (s s' : Scope) : Prop where
  kind : s'.kind = s.kind
  home : s'.home = s.home
  vars : s'.vars = s.vars
  functions : s'.functions = s.functions
  types : s'.types = s.types
  inner : s.kind ≠ .module → s'.parent = s.parent ∧ s.imports = [] ∧ s'.imports = []

namespace ScopeTree

structure Aligned (named : String → Prop) (t u : ScopeTree) : Prop where
  modules : u.modules = t.modules
  size : u.size = t.size
  scopes : ∀ id s, t.get? id = some s → ∃ s', u.get? id = some s' ∧ s.Moved s'
  homes : ∀ id s, t.get? id = some s → s.kind = .module → ∃ name, t.findModule? name = some id
  kinds : ∀ name id, t.findModule? name = some id → ∃ s, t.get? id = some s ∧ s.kind = .module
  names : ∀ name id, t.findModule? name = some id → name = builtinModule ∨ named name

variable {named : String → Prop} {t u : ScopeTree}

theorem aligned_initial : initial.Aligned named initial where
  modules := rfl
  size := rfl
  scopes id s found := by
    refine ⟨s, found, rfl, rfl, rfl, rfl, rfl, fun _ => ?_⟩
    have there := get_some_index found
    obtain ⟨index⟩ := id
    match index, there with
    | 0, _ => cases found; exact ⟨rfl, rfl, rfl⟩
    | 1, _ => cases found; exact ⟨rfl, rfl, rfl⟩
    | 2, _ => cases found; exact ⟨rfl, rfl, rfl⟩
  homes id s found module := by
    have there := get_some_index found
    obtain ⟨index⟩ := id
    match index, there with
    | 0, _ => cases found; cases module
    | 1, _ => cases found; cases module
    | 2, _ => exact ⟨builtinModule, by simp [findModule?, initial, ScopeId.builtin]⟩
  kinds name id found := by
    obtain ⟨-, rfl⟩ : name = builtinModule ∧ id = .builtin := by simpa [initial] using lookup_member found
    exact ⟨_, rfl, rfl⟩
  names name id found := by
    obtain ⟨same, -⟩ : name = builtinModule ∧ id = .builtin := by simpa [initial] using lookup_member found
    exact .inl same

theorem modify_nothing (id : ScopeId) : t.modify id (fun s => s) = t := by
  unfold modify
  congr 1
  apply Array.ext_getElem?
  intro i
  rw [Array.getElem?_modify]
  split <;> simp

theorem import_keeps (imported : ScopeId) (s : Scope) :
    (if imported ∈ s.imports then s else { s with imports := s.imports ++ [imported] }) =
      { s with
        imports := (if imported ∈ s.imports then s else { s with imports := s.imports ++ [imported] }).imports } := by
  split <;> rfl

section Growth
variable (aligned : t.Aligned named u)
include aligned

theorem size_push (s s' : Scope) : (u.push s').2.size = (t.push s).2.size := by
  change (u.scopes.push s').size = (t.scopes.push s).size
  rw [Array.size_push, Array.size_push]
  exact congrArg (· + 1) aligned.size

theorem moved_push {s s' : Scope} (moved : s.Moved s') (id : ScopeId) (r : Scope)
    (found : (t.push s).2.get? id = some r) : ∃ r', (u.push s').2.get? id = some r' ∧ r.Moved r' := by
  rw [get_push] at found
  rw [get_push, aligned.size]
  split at found
  · cases found
    exact ⟨s', if_pos ‹_›, moved⟩
  · rw [if_neg ‹_›]
    exact aligned.scopes id r found

variable {id : ScopeId}

theorem missing_aligned (missing : t.get? id = none) : u.get? id = none := by
  unfold get? at missing ⊢
  rw [Array.getElem?_eq_none_iff] at missing ⊢
  exact (Nat.le_of_eq aligned.size).trans missing

theorem aligned_derive (parent : ScopeId) {kind : ScopeKind} (inner : kind ≠ .module) :
    (u.derive parent kind).1 = (t.derive parent kind).1 ∧
      (t.derive parent kind).2.Aligned named (u.derive parent kind).2 := by
  have home : (u.get? parent).bind Scope.home = (t.get? parent).bind Scope.home := by
    cases found : t.get? parent with
    | none => rw [missing_aligned aligned found]
    | some s =>
      obtain ⟨s', found', moved⟩ := aligned.scopes parent s found
      rw [found', Option.bind_some, Option.bind_some, moved.home]
  refine ⟨congrArg ScopeId.mk aligned.size, aligned.modules, ?_, ?_, ?_, ?_, aligned.names⟩
  · exact size_push aligned _ _
  · exact moved_push aligned ⟨rfl, home, rfl, rfl, rfl, fun _ => ⟨rfl, rfl, rfl⟩⟩
  · intro id s found module
    unfold derive at found
    rw [get_push] at found
    split at found
    · cases found
      exact absurd module inner
    · exact aligned.homes id s found module
  · intro name id found
    obtain ⟨s, there, module⟩ := aligned.kinds name id found
    refine ⟨s, ?_, module⟩
    unfold derive
    rw [get_push, if_neg (Nat.ne_of_lt (get_some_index there))]
    exact there

variable {name : String}

theorem aligned_module_scope (allowed : named name) (above above' : ScopeId) :
    (u.moduleScope name above').1 = (t.moduleScope name above).1 ∧
      (t.moduleScope name above).2.Aligned named (u.moduleScope name above').2 := by
  have same : u.findModule? name = t.findModule? name := by
    unfold findModule?
    rw [aligned.modules]
  unfold moduleScope
  rw [same]
  cases known : t.findModule? name with
  | some id => exact ⟨rfl, aligned⟩
  | none =>
    have size : (⟨u.size⟩ : ScopeId) = ⟨t.size⟩ := congrArg ScopeId.mk aligned.size
    refine ⟨size, ?_, ?_, ?_, ?_, ?_, ?_⟩
    · change u.modules ++ [(name, ⟨u.size⟩)] = t.modules ++ [(name, ⟨t.size⟩)]
      rw [aligned.modules, size]
    · exact size_push aligned _ _
    · exact moved_push aligned ⟨rfl, congrArg some size, rfl, rfl, rfl, fun other => absurd rfl other⟩
    · intro id s found module
      change (t.push _).2.get? id = some s at found
      rw [get_push] at found
      split at found
      · rename_i last
        refine ⟨name, ?_⟩
        change (t.modules ++ [(name, _)]).lookup name = _
        rw [List.lookup_append, show t.modules.lookup name = none from known]
        simp [← last]
      · obtain ⟨other, listed⟩ := aligned.homes id s found module
        refine ⟨other, ?_⟩
        change (t.modules ++ [(name, _)]).lookup other = _
        rw [List.lookup_append, show t.modules.lookup other = some id from listed]
        rfl
    · intro name' id found
      rcases lookup_snoc found with old | ⟨rfl, rfl⟩
      · obtain ⟨s, there, module⟩ := aligned.kinds name' id old
        refine ⟨s, ?_, module⟩
        change (t.push _).2.get? id = some s
        rw [get_push, if_neg (Nat.ne_of_lt (get_some_index there))]
        exact there
      · exact ⟨_, by change (t.push _).2.get? _ = _; rw [get_push, if_pos rfl], rfl⟩
    · intro name' id found
      rcases lookup_snoc found with old | ⟨rfl, rfl⟩
      · exact aligned.names name' id old
      · exact .inr allowed

variable {f : Scope → Scope}

theorem aligned_modify (id : ScopeId) {g : Scope → Scope} (kind : ∀ s, (f s).kind = s.kind)
    (moves : ∀ s s', t.get? id = some s → s.Moved s' → (f s).Moved (g s')) :
    (t.modify id f).Aligned named (u.modify id g) where
  modules := aligned.modules
  size := by
    change (u.scopes.modify id.index g).size = (t.scopes.modify id.index f).size
    rw [Array.size_modify, Array.size_modify]
    exact aligned.size
  scopes j s found := by
    rw [get_modify] at found ⊢
    split at found
    · rename_i same
      obtain ⟨old, there, rfl⟩ := Option.map_eq_some_iff.mp found
      obtain ⟨old', there', moved⟩ := aligned.scopes j old there
      subst same
      exact ⟨g old', by rw [if_pos rfl, there', Option.map_some], moves old old' there moved⟩
    · rw [if_neg ‹_›]
      exact aligned.scopes j s found
  homes j s found module := by
    rw [get_modify] at found
    split at found
    · obtain ⟨old, there, rfl⟩ := Option.map_eq_some_iff.mp found
      exact aligned.homes j old there (kind old ▸ module)
    · exact aligned.homes j s found module
  kinds name j found := by
    obtain ⟨s, there, module⟩ := aligned.kinds name j found
    rw [get_modify]
    split
    · exact ⟨f s, by rw [there, Option.map_some], (kind s).trans module⟩
    · exact ⟨s, there, module⟩
  names := aligned.names

theorem aligned_declare (id : ScopeId)
    (outline : ∀ s, (f s).kind = s.kind ∧ (f s).home = s.home ∧ (f s).parent = s.parent ∧ (f s).imports = s.imports)
    (declares : ∀ s s', s'.vars = s.vars → s'.functions = s.functions → s'.types = s.types →
      (f s').vars = (f s).vars ∧ (f s').functions = (f s).functions ∧ (f s').types = (f s).types) :
    (t.modify id f).Aligned named (u.modify id f) := by
  refine aligned_modify aligned id (fun s => (outline s).1) (fun s s' _ moved => ?_)
  obtain ⟨kind, home, parent, imports⟩ := outline s
  obtain ⟨kind', home', parent', imports'⟩ := outline s'
  obtain ⟨vars, functions, types⟩ := declares s s' moved.vars moved.functions moved.types
  refine ⟨by rw [kind, kind', moved.kind], by rw [home, home', moved.home], vars, functions, types, fun other => ?_⟩
  obtain ⟨up, closed, closed'⟩ := moved.inner (kind ▸ other)
  exact ⟨by rw [parent, parent', up], imports.trans closed, imports'.trans closed'⟩

theorem aligned_imports (module : t.findModule? name = some id) {g : Scope → Scope}
    (first : ∀ s, f s = { s with imports := (f s).imports }) (second : ∀ s, g s = { s with imports := (g s).imports }) :
    (t.modify id f).Aligned named (u.modify id g) := by
  refine aligned_modify aligned id (fun s => by rw [first s]) (fun s s' found moved => ?_)
  obtain ⟨own, there, kind⟩ := aligned.kinds name id module
  cases found.symm.trans there
  rw [first s, second s']
  exact ⟨moved.kind, moved.home, moved.vars, moved.functions, moved.types, fun other => absurd kind other⟩

theorem aligned_import (module : t.findModule? name = some id) (imported : ScopeId) :
    (t.addImport id imported).Aligned named (u.addImport id imported) :=
  aligned_imports aligned module (import_keeps imported) (import_keeps imported)

theorem aligned_further_import (module : t.findModule? name = some id)
    (imported : ScopeId) : t.Aligned named (u.addImport id imported) := by
  have same := aligned_imports aligned module (f := fun s => s) (fun _ => rfl) (import_keeps imported)
  rwa [modify_nothing] at same

end Growth

/-- In the first tree the built-in module lies above the other modules, in the second they import it first. -/
structure Rearranged (named : String → Prop) (t u : ScopeTree) : Prop where
  aligned : t.Aligned named u
  ordered : t.Ordered
  ordered' : u.Ordered
  root : t.get? .root = some { kind := .root, parent := none, home := none }
  program : t.get? .program = some { kind := .program, parent := some .root, home := none }
  builtin : t.findModule? builtinModule = some .builtin
  itself : ∃ s s', t.get? .builtin = some s ∧ u.get? .builtin = some s' ∧ s.parent = some .program ∧
    s'.parent = some .program ∧ s.vars = [] ∧ s.imports = [] ∧ s'.imports = []
  others : ∀ name id, t.findModule? name = some id → name ≠ builtinModule → ∃ s s' all, t.get? id = some s ∧
    u.get? id = some s' ∧ s.parent = some .builtin ∧ s'.parent = some .program ∧ s.imports = all.eraseDups ∧
    s'.imports = (ScopeId.builtin :: all).eraseDups

inductive Ways (t u : ScopeTree) : List ScopeId → List ScopeId → Prop
  | outside : Ways t u [] []
  | module {m : ScopeId} {all : List ScopeId} : t.importsOf m = all.eraseDups →
    u.importsOf m = (ScopeId.builtin :: all).eraseDups → Ways t u [m, .builtin, .program, .root] [m, .program, .root]
  | inner {id : ScopeId} {first second : List ScopeId} : t.importsOf id = [] → u.importsOf id = [] →
    Ways t u first second → Ways t u (id :: first) (id :: second)

theorem ways_same {ids : List ScopeId} (closed : ∀ id ∈ ids, t.importsOf id = [] ∧ u.importsOf id = []) :
    Ways t u ids ids := by
  induction ids with
  | nil => exact .outside
  | cons id ids ih =>
    obtain ⟨here, there⟩ := closed id List.mem_cons_self
    exact .inner here there (ih fun j member => closed j (List.mem_cons_of_mem id member))

section Meaning
variable (rearranged : t.Rearranged named u)
include rearranged

theorem root_same : u.get? .root = some { kind := .root, parent := none, home := none } := by
  obtain ⟨s', found, moved⟩ := rearranged.aligned.scopes _ _ rearranged.root
  obtain ⟨up, -, closed⟩ := moved.inner (by simp)
  obtain ⟨kind, home, vars, functions, types, -⟩ := moved
  cases s'
  simp_all

theorem program_same : u.get? .program = some { kind := .program, parent := some .root, home := none } := by
  obtain ⟨s', found, moved⟩ := rearranged.aligned.scopes _ _ rearranged.program
  obtain ⟨up, -, closed⟩ := moved.inner (by simp)
  obtain ⟨kind, home, vars, functions, types, -⟩ := moved
  cases s'
  simp_all

theorem program_paths : t.path .program = [.program, .root] ∧ u.path .program = [.program, .root] := by
  rw [path_eq rearranged.ordered rearranged.program, Option.elim_some, path_eq rearranged.ordered rearranged.root,
    path_eq rearranged.ordered' (program_same rearranged), Option.elim_some,
    path_eq rearranged.ordered' (root_same rearranged)]
  exact ⟨rfl, rfl⟩

theorem builtin_paths :
    t.path .builtin = [.builtin, .program, .root] ∧ u.path .builtin = [.builtin, .program, .root] := by
  obtain ⟨s, s', found, found', up, up', -⟩ := rearranged.itself
  obtain ⟨first, second⟩ := program_paths rearranged
  rw [path_eq rearranged.ordered found, path_eq rearranged.ordered' found', up, up', Option.elim_some, Option.elim_some,
    first, second]
  exact ⟨rfl, rfl⟩

theorem outer_closed : ∀ id ∈ [ScopeId.builtin, .program, .root], t.importsOf id = [] ∧ u.importsOf id = [] := by
  obtain ⟨s, s', found, found', -, -, -, closed, closed'⟩ := rearranged.itself
  simp [imports_of_found found, imports_of_found found', imports_of_found rearranged.program,
    imports_of_found (program_same rearranged), imports_of_found rearranged.root,
    imports_of_found (root_same rearranged), closed, closed']

theorem path_ways (id : ScopeId) : Ways t u (t.path id) (u.path id) := by
  induction index : id.index using Nat.strongRecOn generalizing id with
  | ind n ih =>
    cases found : t.get? id with
    | none =>
      have missing : u.get? id = none := missing_aligned rearranged.aligned found
      rw [path_missing found, path_missing missing]
      exact .outside
    | some s =>
      obtain ⟨s', found', moved⟩ := rearranged.aligned.scopes id s found
      by_cases module : s.kind = .module
      · obtain ⟨name, listed⟩ := rearranged.aligned.homes id s found module
        by_cases itself : name = builtinModule
        · rw [itself, rearranged.builtin] at listed
          cases listed
          rw [(builtin_paths rearranged).1, (builtin_paths rearranged).2]
          exact ways_same (outer_closed rearranged)
        · obtain ⟨_, _, all, here, there, up, up', imports, imports'⟩ := rearranged.others name id listed itself
          rw [path_eq rearranged.ordered here, path_eq rearranged.ordered' there, up, up', Option.elim_some,
            Option.elim_some, (builtin_paths rearranged).1, (program_paths rearranged).2]
          exact .module ((imports_of_found here).trans imports) ((imports_of_found there).trans imports')
      · obtain ⟨up, closed, closed'⟩ := moved.inner module
        rw [path_eq rearranged.ordered found, path_eq rearranged.ordered' found', up]
        refine .inner ((imports_of_found found).trans closed) ((imports_of_found found').trans closed') ?_
        cases above : s.parent with
        | none => exact .outside
        | some parent =>
          have smaller := rearranged.ordered id s found parent above
          exact ih parent.index (by omega) parent rfl

section Searches
variable {first second : List ScopeId} (ways : Ways t u first second)
include ways

theorem ways_find {β : Type} {own : ScopeId → Option β} (program : own .program = none) (root : own .root = none) :
    (first.findSome? own).or ((first.flatMap t.importsOf).findSome? own) =
      (second.findSome? own).or ((second.flatMap u.importsOf).findSome? own) := by
  obtain ⟨⟨builtin, -⟩, ⟨closed, closed'⟩, ⟨rooted, rooted'⟩, -⟩ := by
    simpa only [List.forall_mem_cons] using outer_closed rearranged
  induction ways with
  | outside => rfl
  | @module m all imports imports' =>
    simp only [List.flatMap_cons, List.flatMap_nil, List.append_nil, imports, imports', builtin, closed, closed',
      rooted, rooted', find_some_erase_dups, List.findSome?_cons, List.findSome?_nil, program, root]
    cases own m <;> cases own .builtin <;> rfl
  | inner closed closed' _ ih =>
    simp only [List.findSome?_cons, List.flatMap_cons, closed, closed', List.nil_append]
    cases own _ <;> simp [ih]

theorem ways_members (j : ScopeId) :
    j ∈ first ++ first.flatMap t.importsOf ↔ j ∈ second ++ second.flatMap u.importsOf := by
  obtain ⟨⟨builtin, -⟩, ⟨program, program'⟩, ⟨root, root'⟩, -⟩ := by
    simpa only [List.forall_mem_cons] using outer_closed rearranged
  induction ways with
  | outside => rfl
  | module imports imports' =>
    simp only [List.flatMap_cons, List.flatMap_nil, imports, imports', builtin, program, program', root, root',
      List.mem_append, List.mem_cons, List.mem_eraseDups, List.not_mem_nil, or_false]
    tauto
  | inner closed closed' _ ih =>
    simp only [List.flatMap_cons, closed, closed', List.nil_append, List.cons_append, List.mem_cons, ih]

end Searches

theorem own_variable_same (id : ScopeId) (name : String) : u.ownVariable? id name = t.ownVariable? id name := by
  unfold ownVariable? Scope.findVariable?
  cases found : t.get? id with
  | none => rw [missing_aligned rearranged.aligned found]
  | some s =>
    obtain ⟨s', found', moved⟩ := rearranged.aligned.scopes id s found
    rw [found', Option.bind_some, Option.bind_some, moved.vars]

theorem own_type_same (id : ScopeId) (name : String) : u.ownType? id name = t.ownType? id name := by
  unfold ownType? Scope.findType?
  cases found : t.get? id with
  | none => rw [missing_aligned rearranged.aligned found]
  | some s =>
    obtain ⟨s', found', moved⟩ := rearranged.aligned.scopes id s found
    rw [found', Option.bind_some, Option.bind_some, moved.types]

theorem holds_same (id : ScopeId) (name : String) (f : FunctionId) : u.Holds id name f ↔ t.Holds id name f := by
  unfold Holds
  cases found : t.get? id with
  | none => rw [missing_aligned rearranged.aligned found]
  | some s =>
    obtain ⟨s', found', moved⟩ := rearranged.aligned.scopes id s found
    simp [found', moved.functions]

theorem find_variable_same (id : ScopeId) (name : String) : u.findVariable? id name = t.findVariable? id name := by
  rw [find_variable_path, find_variable_path, imported_path, imported_path, find_some_erase_dups, find_some_erase_dups]
  simp only [own_variable_same rearranged]
  refine (ways_find rearranged (path_ways rearranged id) ?_ ?_).symm
  · simp [ownVariable?, rearranged.program, Scope.findVariable?]
  · simp [ownVariable?, rearranged.root, Scope.findVariable?]

theorem find_type_same (id : ScopeId) (name : String) : u.findType? id name = t.findType? id name := by
  rw [find_type_path, find_type_path, imported_path, imported_path, find_some_erase_dups, find_some_erase_dups]
  simp only [own_type_same rearranged]
  refine (ways_find rearranged (path_ways rearranged id) ?_ ?_).symm
  · simp [ownType?, rearranged.program, Scope.findType?]
  · simp [ownType?, rearranged.root, Scope.findType?]

theorem find_functions_same (id : ScopeId) (name : String) : u.findFunctions id name = t.findFunctions id name := by
  have irreflexive : Std.Irrefl (fun f g : FunctionId => f.index < g.index) := ⟨fun f => Nat.lt_irrefl f.index⟩
  have antisymmetric : Std.Antisymm (fun f g : FunctionId => f.index < g.index) :=
    ⟨fun f g less more => absurd more (Nat.lt_asymm less)⟩
  refine (find_functions_sorted id name).eq_of_mem_iff (find_functions_sorted id name) (fun f => ?_)
  rw [find_functions_path, find_functions_path, imported_path, imported_path]
  simp only [holds_same rearranged]
  have members := ways_members rearranged (path_ways rearranged id)
  simp only [List.mem_append] at members
  simp only [List.mem_append, List.mem_eraseDups, members]

theorem outer_within (v : VariableId) (boundary : ScopeId) : ∀ id ∈ [ScopeId.builtin, .program, .root],
    t.isWithin id v boundary = false ∧ u.isWithin id v boundary = false := by
  have root : t.isWithin .root v boundary = false ∧ u.isWithin .root v boundary = false := by
    unfold isWithin
    rw [chain_eq rearranged.ordered rearranged.root, chain_eq rearranged.ordered' (root_same rearranged)]
    simp [declaredBefore, Scope.declares]
  have program : t.isWithin .program v boundary = false ∧ u.isWithin .program v boundary = false := by
    rw [is_within_below rearranged.ordered rearranged.program rfl, root.1,
      is_within_below rearranged.ordered' (program_same rearranged) rfl, root.2]
    simp [Scope.declares]
  have builtin : t.isWithin .builtin v boundary = false ∧ u.isWithin .builtin v boundary = false := by
    obtain ⟨s, s', found, found', up, up', vars, -⟩ := rearranged.itself
    obtain ⟨_, there, moved⟩ := rearranged.aligned.scopes _ _ found
    cases found'.symm.trans there
    rw [is_within_below rearranged.ordered found up, program.1, is_within_below rearranged.ordered' found' up',
      program.2]
    simp [Scope.declares, moved.vars, vars]
  simpa using ⟨builtin, program, root⟩

theorem is_within_same (id : ScopeId) (v : VariableId) (boundary : ScopeId) :
    u.isWithin id v boundary = t.isWithin id v boundary := by
  have outer := outer_within rearranged v boundary
  induction index : id.index using Nat.strongRecOn generalizing id with
  | ind n ih =>
    cases found : t.get? id with
    | none =>
      unfold isWithin
      rw [chain_missing found, chain_missing (missing_aligned rearranged.aligned found)]
    | some s =>
      obtain ⟨s', found', moved⟩ := rearranged.aligned.scopes id s found
      have own : s'.declares v = s.declares v := by
        unfold Scope.declares
        rw [moved.vars]
      by_cases module : s.kind = .module
      · obtain ⟨name, listed⟩ := rearranged.aligned.homes id s found module
        by_cases itself : name = builtinModule
        · rw [itself, rearranged.builtin] at listed
          cases listed
          rw [(outer .builtin (by simp)).1, (outer .builtin (by simp)).2]
        · obtain ⟨_, _, _, here, there, up, up', -⟩ := rearranged.others name id listed itself
          cases here.symm.trans found
          cases there.symm.trans found'
          rw [is_within_below rearranged.ordered found up, is_within_below rearranged.ordered' found' up', own,
            (outer .builtin (by simp)).1, (outer .program (by simp)).2]
      · obtain ⟨up, -⟩ := moved.inner module
        cases above : s.parent with
        | none =>
          unfold isWithin
          rw [chain_eq rearranged.ordered found, chain_eq rearranged.ordered' found', up, above]
          simp [declaredBefore, own]
        | some parent =>
          have smaller := rearranged.ordered id s found parent above
          rw [is_within_below rearranged.ordered found above,
            is_within_below rearranged.ordered' found' (up.trans above), own, ih parent.index (by omega) parent rfl]

end Meaning

end ScopeTree

end SemanticAnalysis
