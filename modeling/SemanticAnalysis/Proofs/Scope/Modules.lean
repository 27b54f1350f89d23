import SemanticAnalysis.Proofs.Scope.Sight
/-!
Module scopes. Above them there are only the built-in module, if it is imported implicitly, and two scopes that hold
nothing. So a name in a module means a variable of the module, or of the built-in one, or of a module that one of these
two imports.
-/
namespace SemanticAnalysis.ScopeTree

/-- The modules of a tree, with the variables and the imports that they have. New modules are made below `above`. -/
structure Grounded (t : ScopeTree) (above : ScopeId) (visible : String → List (String × VariableId))
    (imports : String → List ScopeId) : Prop where
  ordered : t.Ordered
  place : above = .program ∨ above = .builtin
  root : t.get? .root = some { kind := .root, parent := none, home := none }
  program : t.get? .program = some { kind := .program, parent := some .root, home := none }
  builtin : t.findModule? builtinModule = some .builtin
  modules : ∀ name id, t.findModule? name = some id → ∃ s, t.get? id = some s ∧ s.kind = .module ∧
    s.parent = some (if name = builtinModule then .program else above) ∧ s.vars = visible name ∧
    s.imports = imports name
  apart : ∀ name other id, t.findModule? name = some id → t.findModule? other = some id → name = other

variable {t : ScopeTree} {above : ScopeId} {visible visible' : String → List (String × VariableId)}
  {imports imports' : String → List ScopeId}

theorem grounded_initial (place : above = .program ∨ above = .builtin) :
    initial.Grounded above (fun _ => []) (fun _ => []) where
  ordered := by
    intro id s found parent up
    have there := get_some_index found
    obtain ⟨index⟩ := id
    match index, there with
    | 0, _ => cases found; cases up
    | 1, _ => cases found; cases up; decide
    | 2, _ => cases found; cases up; decide
  place := place
  root := rfl
  program := rfl
  builtin := by
    simp [findModule?, initial]
  modules name id found := by
    obtain ⟨same, rfl⟩ : name = builtinModule ∧ id = .builtin := by
      have := lookup_member found
      simpa [initial] using this
    refine ⟨{ kind := .module, parent := some .program, home := some .builtin }, rfl, rfl, ?_, rfl, rfl⟩
    rw [if_pos same]
  apart name other id first second := by
    have here := lookup_member first
    have there := lookup_member second
    simp only [initial, List.mem_singleton, Prod.mk.injEq] at here there
    rw [here.1, there.1]

theorem grounded_push {s : Scope} (grounded : t.Grounded above visible imports)
    (parent : ∀ parent, s.parent = some parent → parent.index < t.size) :
    (t.push s).2.Grounded above visible imports := by
  have kept : ∀ id s', t.get? id = some s' → (t.push s).2.get? id = some s' := by
    intro id s' found
    have there := get_some_index found
    rw [get_push, if_neg (by omega)]
    exact found
  constructor
  · exact ordered_push grounded.ordered parent
  · exact grounded.place
  · exact kept _ _ grounded.root
  · exact kept _ _ grounded.program
  · exact grounded.builtin
  · intro name id named
    obtain ⟨s', found, rest⟩ := grounded.modules name id named
    exact ⟨s', kept id s' found, rest⟩
  · exact grounded.apart

variable {id : ScopeId}

theorem grounded_modify {name : String} {f : Scope → Scope} (grounded : t.Grounded above visible imports)
    (named : t.findModule? name = some id) (same : ∀ s, (f s).kind = s.kind ∧ (f s).parent = s.parent)
    (vars : ∀ s, s.vars = visible name → (f s).vars = visible' name)
    (imported : ∀ s, s.imports = imports name → (f s).imports = imports' name)
    (others : ∀ other, other ≠ name → visible' other = visible other ∧ imports' other = imports other) :
    (t.modify id f).Grounded above visible' imports' := by
  obtain ⟨s, found, kind, parent, own, modules⟩ := grounded.modules name id named
  have kept : ∀ j s', s'.kind ≠ .module → t.get? j = some s' → (t.modify id f).get? j = some s' := by
    intro j s' different there
    rw [get_modify, if_neg]
    · exact there
    · rintro rfl
      rw [found] at there
      cases there
      exact different kind
  constructor
  · exact ordered_modify id grounded.ordered (fun s => (same s).2)
  · exact grounded.place
  · exact kept _ _ (by simp) grounded.root
  · exact kept _ _ (by simp) grounded.program
  · exact grounded.builtin
  · intro other j there
    by_cases equal : other = name
    · subst equal
      change t.findModule? other = some j at there
      rw [named] at there
      cases there
      refine ⟨f s, ?_, (same s).1.trans kind, (same s).2.trans parent, vars s own, imported s modules⟩
      rw [get_modify, if_pos rfl, found]
      rfl
    · obtain ⟨s', found', kind', parent', own', modules'⟩ := grounded.modules other j there
      have different : j ≠ id := by
        rintro rfl
        exact equal (grounded.apart other name j there named)
      refine ⟨s', ?_, kind', parent', ?_, ?_⟩
      · rw [get_modify, if_neg different]
        exact found'
      · rw [own', (others other equal).1]
      · rw [modules', (others other equal).2]
  · exact grounded.apart

theorem grounded_module_scope (grounded : t.Grounded above visible imports) (name : String)
    (new : t.findModule? name = none → visible name = [] ∧ imports name = []) :
    (t.moduleScope name above).2.Grounded above visible imports ∧
      (t.moduleScope name above).2.findModule? name = some (t.moduleScope name above).1 := by
  unfold moduleScope
  cases known : t.findModule? name with
  | some id => exact ⟨grounded, known⟩
  | none =>
    obtain ⟨empty, alone⟩ := new known
    let s : Scope := { kind := .module, parent := some above, home := some ⟨t.size⟩ }
    have inTree : above.index < t.size := by
      rcases grounded.place with rfl | rfl
      · exact get_some_index grounded.program
      · obtain ⟨s', found, _⟩ := grounded.modules _ _ grounded.builtin
        exact get_some_index found
    have pushed : (t.push s).2.Grounded above visible imports := by
      apply grounded_push grounded
      intro parent up
      cases up
      exact inTree
    have here : (t.push s).2.get? ⟨t.size⟩ = some s := by rw [get_push, if_pos rfl]
    have other : name ≠ builtinModule := by
      rintro rfl
      rw [grounded.builtin] at known
      cases known
    have old : ∀ name' id, t.findModule? name' = some id → id.index < t.size := by
      intro name' id found
      obtain ⟨s', there, _⟩ := grounded.modules name' id found
      exact get_some_index there
    constructor
    · constructor
      · exact pushed.ordered
      · exact pushed.place
      · exact pushed.root
      · exact pushed.program
      · change (t.modules ++ [(name, _)]).lookup builtinModule = _
        rw [List.lookup_append, show t.modules.lookup builtinModule = _ from grounded.builtin]
        rfl
      · intro name' id found
        rcases lookup_snoc found with known' | ⟨rfl, rfl⟩
        · exact pushed.modules name' id known'
        · exact ⟨s, here, rfl, by rw [if_neg other], empty.symm, alone.symm⟩
      · intro first second id one two
        rcases lookup_snoc one with known1 | ⟨rfl, rfl⟩ <;> rcases lookup_snoc two with known2 | ⟨rfl, same⟩
        · exact grounded.apart first second id known1 known2
        · have := old first id known1
          rw [same] at this
          exact absurd this (Nat.lt_irrefl _)
        · exact absurd (old second _ known2) (Nat.lt_irrefl _)
        · rfl
    · change (t.modules ++ [(name, _)]).lookup name = _
      rw [List.lookup_append, show t.modules.lookup name = none from known]
      simp

variable {module : String}

theorem own_variable_module (grounded : t.Grounded above visible imports)
    (named : t.findModule? module = some id) (name : String) :
    t.ownVariable? id name = (visible module).lookup name := by
  obtain ⟨s, found, _, _, vars, _⟩ := grounded.modules module id named
  unfold ownVariable? Scope.findVariable?
  rw [found, Option.bind_some, vars]

theorem imports_of_module (grounded : t.Grounded above visible imports)
    (named : t.findModule? module = some id) : t.importsOf id = imports module := by
  obtain ⟨s, found, _, _, _, imported⟩ := grounded.modules module id named
  unfold importsOf
  rw [found, Option.map_some, Option.getD_some, imported]

theorem path_module (grounded : t.Grounded above visible imports)
    (named : t.findModule? module = some id) :
    t.path id = id :: t.path (if module = builtinModule then .program else above) := by
  obtain ⟨s, found, _, parent, _, _⟩ := grounded.modules module id named
  rw [path_eq grounded.ordered found, parent, Option.elim_some]

theorem path_program (grounded : t.Grounded above visible imports) : t.path .program = [.program, .root] := by
  rw [path_eq grounded.ordered grounded.program, Option.elim_some, path_eq grounded.ordered grounded.root]
  rfl

/-- The modules whose names are visible in a module without being imported there. -/
def near (above : ScopeId) (module : String) : List String :=
  if above = .builtin then [module, builtinModule] else [module]

variable {home : ScopeId}

theorem near_named (grounded : t.Grounded above visible imports)
    (named : t.findModule? module = some home) {m : String} (member : m ∈ near above module) :
    ∃ id, t.findModule? m = some id := by
  unfold near at member
  split at member
  · rcases List.mem_cons.mp member with rfl | last
    · exact ⟨home, named⟩
    · rw [List.mem_singleton.mp last]
      exact ⟨_, grounded.builtin⟩
  · rw [List.mem_singleton.mp member]
    exact ⟨home, named⟩

theorem path_near (grounded : t.Grounded above visible imports)
    (named : t.findModule? module = some home) :
    t.path home = ((near above module).filterMap t.findModule?).eraseDups ++ [.program, .root] := by
  have up := path_module grounded named
  have builtin := grounded.builtin
  have builtinUp := path_module grounded builtin
  rw [if_pos rfl, path_program grounded] at builtinUp
  unfold near
  by_cases itself : module = builtinModule
  · -- the built-in module has nothing above it, so it is listed twice at most
    subst itself
    rw [if_pos rfl, path_program grounded] at up
    rw [up]
    split <;> simp [named, List.eraseDups_cons]
  · rw [if_neg itself] at up
    rcases grounded.place with rfl | rfl
    · rw [path_program grounded] at up
      rw [up, if_neg (by decide)]
      simp [named, List.eraseDups_cons]
    · have other : ScopeId.builtin ≠ home := by
        rintro rfl
        exact itself (grounded.apart _ _ _ named builtin)
      rw [builtinUp] at up
      rw [up, if_pos rfl]
      simp [named, builtin, List.eraseDups_cons, other]

theorem erase_dups_append_self {α : Type} [BEq α] [LawfulBEq α] (xs : List α) :
    (xs ++ xs).eraseDups = xs.eraseDups := by
  rw [List.eraseDups_append, List.removeAll, List.filter_eq_nil_iff.mpr (by simp)]
  simp

section Search
variable (grounded : t.Grounded above visible imports) {module : String} {home : ScopeId}
  (named : t.findModule? module = some home) {id : ScopeId} {before : List ScopeId}
  (path : t.path id = before ++ t.path home)
include grounded named path

theorem imported_near (closed : ∀ j ∈ before, t.importsOf j = []) :
    t.imported id = ((near above module).flatMap imports).eraseDups := by
  have own := imports_of_module grounded named
  have builtin := imports_of_module grounded grounded.builtin
  have first : before.flatMap t.importsOf = [] := List.flatMap_eq_nil_iff.mpr closed
  have last : [ScopeId.program, ScopeId.root].flatMap t.importsOf = [] := by
    simp [importsOf, grounded.program, grounded.root]
  rw [imported_path, path, path_near grounded named, List.flatMap_append, List.flatMap_append, first, last,
    List.append_nil, List.nil_append]
  unfold near
  split
  · by_cases itself : home = .builtin
    · have same := grounded.apart _ _ _ named (itself ▸ grounded.builtin)
      subst same
      simp [named, List.eraseDups_cons, own, erase_dups_append_self]
    · simp [named, grounded.builtin, List.eraseDups_cons, Ne.symm itself, own, builtin]
  · simp [named, List.eraseDups_cons, own]

theorem search_near {β : Type} {own : ScopeId → Option β} (silent : ∀ j ∈ before, own j = none)
    (closed : ∀ j ∈ before, t.importsOf j = []) (program : own .program = none) (root : own .root = none) :
    ((t.path id).findSome? own).or ((t.imported id).findSome? own)
      = ((near above module).findSome? (fun m => (t.findModule? m).bind own)).or
        (((near above module).flatMap imports).findSome? own) := by
  have first : before.findSome? own = none := List.findSome?_eq_none_iff.mpr silent
  have last : [ScopeId.program, ScopeId.root].findSome? own = none := by
    simp [program, root]
  rw [imported_near grounded named path closed, find_some_erase_dups, path, path_near grounded named,
    List.findSome?_append, List.findSome?_append, first, last, Option.none_or, Option.or_none, find_some_erase_dups,
    find_some_filter_map]

end Search

theorem find_variable_module (grounded : t.Grounded above visible imports)
    (named : t.findModule? module = some home) (name : String) :
    t.findVariable? home name = ((near above module).findSome? (fun m => (visible m).lookup name)).or
      (((near above module).flatMap imports).findSome? (fun id => t.ownVariable? id name)) := by
  have found : ∀ m ∈ near above module, (t.findModule? m).bind (fun id => t.ownVariable? id name)
      = (visible m).lookup name := by
    intro m member
    obtain ⟨id, known⟩ := near_named grounded named member
    rw [known, Option.bind_some, own_variable_module grounded known]
  rw [find_variable_path, search_near grounded named (List.nil_append _).symm (by simp) (by simp),
    find_some_congr found]
  · rw [ownVariable?, grounded.program]
    rfl
  · rw [ownVariable?, grounded.root]
    rfl

end SemanticAnalysis.ScopeTree
