import SemanticAnalysis.Proofs.Scope.Rooted
/-!
The frame of a tree of scopes: what kind of scope stands where, below which one, and in which module. A scope never
changes in this, so what holds of a frame goes on to hold when the tree grows. What scopes list is another matter. There
each new entry gets the next number, so every number is listed once and in one place.
-/
namespace SemanticAnalysis

structure Scope.Plain (s : Scope) : Prop where
  functions : s.functions = []
  types : s.types = []
  imports : s.imports = []

namespace ScopeTree

variable {t u w : ScopeTree} {m id parent boundary : ScopeId}

/-- The scopes of the first tree have the same places in the second one. They may list more there. -/
def Stays (t u : ScopeTree) : Prop :=
  ∀ id s, t.get? id = some s → ∃ r, u.get? id = some r ∧ r.kind = s.kind ∧ r.parent = s.parent ∧ r.home = s.home

theorem stays_refl (t : ScopeTree) : t.Stays t := fun _ s found => ⟨s, found, rfl, rfl, rfl⟩

theorem stays_trans (first : t.Stays u) (second : u.Stays w) : t.Stays w := by
  intro id s found
  obtain ⟨r, found', kind, parent, home⟩ := first id s found
  obtain ⟨q, found'', kind', parent', home'⟩ := second id r found'
  exact ⟨q, found'', kind'.trans kind, parent'.trans parent, home'.trans home⟩

variable {s : Scope}

theorem get_push_old {r : Scope} (found : t.get? id = some r) : (t.push s).2.get? id = some r := by
  have there := get_some_index found
  rw [get_push, if_neg (by omega)]
  exact found

theorem get_push_new (s : Scope) : (t.push s).2.get? ⟨t.size⟩ = some s := by
  rw [get_push, if_pos rfl]

theorem stays_push (s : Scope) : t.Stays (t.push s).2 := fun _ r found => ⟨r, get_push_old found, rfl, rfl, rfl⟩

variable {f : Scope → Scope}

theorem stays_modify (id : ScopeId)
    (same : ∀ s, (f s).kind = s.kind ∧ (f s).parent = s.parent ∧ (f s).home = s.home) : t.Stays (t.modify id f) := by
  intro j s found
  rw [get_modify]
  split
  · exact ⟨f s, by rw [found]; rfl, same s⟩
  · exact ⟨s, found, rfl, rfl, rfl⟩

theorem stays_there (stays : t.Stays u) (there : id.index < t.size) : id.index < u.size := by
  obtain ⟨s, found⟩ := get_of_index there
  obtain ⟨r, found', _⟩ := stays id s found
  exact get_some_index found'

theorem get_modify_split {j : ScopeId} (found : (t.modify id f).get? j = some s) :
    (j ≠ id ∧ t.get? j = some s) ∨ j = id ∧ ∃ r, t.get? id = some r ∧ s = f r := by
  rw [get_modify] at found
  split at found
  · rename_i same
    subst same
    obtain ⟨r, here, rfl⟩ := Option.map_eq_some_iff.mp found
    exact .inr ⟨rfl, r, here, rfl⟩
  · rename_i other
    exact .inl ⟨other, found⟩

theorem get_push_split {r : Scope} (found : (t.push s).2.get? id = some r) :
    t.get? id = some r ∨ id = ⟨t.size⟩ ∧ r = s := by
  rw [get_push] at found
  split at found
  · rename_i last
    cases found
    obtain ⟨index⟩ := id
    cases last
    exact .inr ⟨rfl, rfl⟩
  · exact .inl found

def IsModule (t : ScopeTree) (id : ScopeId) : Prop := ∃ s, t.get? id = some s ∧ s.kind = .module

theorem module_kind (module : t.IsModule id) (found : t.get? id = some s) : s.kind = .module := by
  obtain ⟨r, found', kind⟩ := module
  rw [found] at found'
  cases found'
  exact kind

theorem is_module_stays (stays : t.Stays u) (module : t.IsModule id) : u.IsModule id := by
  obtain ⟨s, found, kind⟩ := module
  obtain ⟨r, found', same, _⟩ := stays id s found
  exact ⟨r, found', same.trans kind⟩

/-- The scope belongs to the module `m`: all scopes on the way there say so, and none of them is a module. -/
inductive Housed (t : ScopeTree) (m : ScopeId) : ScopeId → Prop where
  | itself {s : Scope} (found : t.get? m = some s) (kind : s.kind = .module) (home : s.home = some m) : Housed t m m
  | inside {id parent : ScopeId} {s : Scope} (found : t.get? id = some s) (kind : s.kind ≠ .module)
      (up : s.parent = some parent) (home : s.home = some m) (further : Housed t m parent) : Housed t m id

theorem housed_stays (stays : t.Stays u) (housed : t.Housed m id) : u.Housed m id := by
  induction housed with
  | itself found kind home =>
    obtain ⟨r, found', kind', _, home'⟩ := stays _ _ found
    exact .itself found' (kind'.trans kind) (home'.trans home)
  | inside found kind up home _ ih =>
    obtain ⟨r, found', kind', up', home'⟩ := stays _ _ found
    exact .inside found' (by rw [kind']; exact kind) (up'.trans up) (home'.trans home) ih

theorem housed_home (housed : t.Housed m id) : ∃ s, t.get? id = some s ∧ s.home = some m := by
  cases housed with
  | itself found _ home => exact ⟨_, found, home⟩
  | inside found _ _ home _ => exact ⟨_, found, home⟩

inductive Inner (t : ScopeTree) (boundary : ScopeId) : ScopeId → Prop where
  | own : Inner t boundary boundary
  | step {id parent : ScopeId} {s : Scope} (found : t.get? id = some s) (kind : s.kind = .block ∨ s.kind = .binding)
      (up : s.parent = some parent) (further : Inner t boundary parent) : Inner t boundary id

theorem inner_stays (stays : t.Stays u) (inner : t.Inner boundary id) : u.Inner boundary id := by
  induction inner with
  | own => exact .own
  | step found kind up _ ih =>
    obtain ⟨r, found', kind', up', _⟩ := stays _ _ found
    exact .step found' (by rw [kind']; exact kind) (up'.trans up) ih

theorem inner_path (ordered : t.Ordered) (inner : t.Inner boundary id) :
    ∃ before, t.path id = before ++ t.path boundary ∧
      ∀ j ∈ before, ∃ s, t.get? j = some s ∧ (s.kind = .block ∨ s.kind = .binding) := by
  induction inner with
  | own => exact ⟨[], rfl, by simp⟩
  | @step id parent s found kind up _ ih =>
    obtain ⟨before, path, kinds⟩ := ih
    refine ⟨id :: before, ?_, ?_⟩
    · rw [path_eq ordered found, up, Option.elim_some, path]
      rfl
    · intro j member
      rcases List.mem_cons.mp member with rfl | later
      · exact ⟨s, found, kind⟩
      · exact kinds j later

/-- A tree in which scopes stand where construction puts them. Functions, types and imports belong to modules. -/
structure Framed (t : ScopeTree) : Prop where
  planted : t.Planted
  homes : ∀ id s, t.get? id = some s →
    s.kind = .root ∧ id = .root ∨ s.kind = .program ∧ id = .program ∨ ∃ m, t.Housed m id
  imports : ∀ id s, t.get? id = some s → ∀ module ∈ s.imports, t.IsModule module
  plain : ∀ id s, t.get? id = some s → s.kind ≠ .module → s.Plain
  named : ∀ entry ∈ t.modules, t.IsModule entry.2

theorem framed_housed (framed : t.Framed) (found : t.get? id = some s) (inside : s.kind ≠ .root)
    (below : s.kind ≠ .program) : ∃ m, t.Housed m id := by
  rcases framed.homes id s found with ⟨kind, _⟩ | ⟨kind, _⟩ | housed
  · exact absurd kind inside
  · exact absurd kind below
  · exact housed

theorem framed_module (framed : t.Framed) (module : t.IsModule id) : t.Housed id id := by
  obtain ⟨s, found, kind⟩ := module
  obtain ⟨m, housed⟩ := framed_housed framed found (by simp [kind]) (by simp [kind])
  cases housed with
  | itself found' kind' home => exact .itself found' kind' home
  | inside found' other =>
    rw [found] at found'
    cases found'
    exact absurd kind other

theorem framed_initial : initial.Framed := by
  have builtin : initial.IsModule .builtin := ⟨_, rfl, rfl⟩
  constructor
  · exact planted_initial
  · rintro ⟨index⟩ s found
    have there : index < 3 := get_some_index found
    obtain rfl | rfl | rfl : index = 0 ∨ index = 1 ∨ index = 2 := by omega
    · cases found
      exact .inl ⟨rfl, rfl⟩
    · cases found
      exact .inr (.inl ⟨rfl, rfl⟩)
    · exact .inr (.inr ⟨.builtin, .itself found (by cases found; rfl) (by cases found; rfl)⟩)
  · rintro ⟨index⟩ s found
    have there : index < 3 := get_some_index found
    obtain rfl | rfl | rfl : index = 0 ∨ index = 1 ∨ index = 2 := by omega
    all_goals
      cases found
      exact fun _ member => absurd member List.not_mem_nil
  · rintro ⟨index⟩ s found other
    have there : index < 3 := get_some_index found
    obtain rfl | rfl | rfl : index = 0 ∨ index = 1 ∨ index = 2 := by omega
    all_goals
      cases found
      exact ⟨rfl, rfl, rfl⟩
  · intro entry member
    rw [List.mem_singleton.mp member]
    exact builtin

theorem framed_push (framed : t.Framed) (up : s.parent = some parent) (there : parent.index < t.size)
    (home : s.kind = .module ∧ s.home = some ⟨t.size⟩ ∨ s.kind ≠ .module ∧ ∃ m, s.home = some m ∧ t.Housed m parent)
    (plain : s.Plain) : (t.push s).2.Framed := by
  have stays : t.Stays (t.push s).2 := stays_push s
  constructor
  · exact planted_push framed.planted up there
  · intro id r found
    rcases get_push_split found with old | ⟨rfl, rfl⟩
    · rcases framed.homes id r old with root | program | ⟨m, housed⟩
      · exact .inl root
      · exact .inr (.inl program)
      · exact .inr (.inr ⟨m, housed_stays stays housed⟩)
    · rcases home with ⟨kind, itself⟩ | ⟨kind, m, belongs, housed⟩
      · exact .inr (.inr ⟨_, .itself found kind itself⟩)
      · exact .inr (.inr ⟨m, .inside found kind up belongs (housed_stays stays housed)⟩)
  · intro id r found module member
    rcases get_push_split found with old | ⟨rfl, rfl⟩
    · exact is_module_stays stays (framed.imports id r old module member)
    · rw [plain.imports] at member
      cases member
  · intro id r found other
    rcases get_push_split found with old | ⟨rfl, rfl⟩
    · exact framed.plain id r old other
    · exact plain
  · intro entry member
    exact is_module_stays stays (framed.named entry member)

theorem framed_derive (framed : t.Framed) (housed : t.Housed m parent) {kind : ScopeKind} (inner : kind ≠ .module) :
    (t.derive parent kind).2.Framed := by
  obtain ⟨s, found, home⟩ := housed_home housed
  apply framed_push framed rfl (get_some_index found) (.inr ⟨inner, m, ?_, housed⟩) ⟨rfl, rfl, rfl⟩
  rw [found]
  exact home

theorem framed_modify (framed : t.Framed) (id : ScopeId)
    (same : ∀ s, (f s).kind = s.kind ∧ (f s).parent = s.parent ∧ (f s).home = s.home)
    (imports : ∀ s, ∀ module ∈ (f s).imports, module ∈ s.imports ∨ t.IsModule module)
    (plain : ∀ s, t.get? id = some s → s.kind ≠ .module → s.Plain → (f s).Plain) : (t.modify id f).Framed := by
  have stays : t.Stays (t.modify id f) := stays_modify id same
  constructor
  · exact planted_modify id framed.planted (fun s => (same s).2.1)
  · intro j s found
    have old : ∃ r, t.get? j = some r ∧ s.kind = r.kind := by
      rcases get_modify_split found with ⟨_, old⟩ | ⟨rfl, r, old, rfl⟩
      · exact ⟨s, old, rfl⟩
      · exact ⟨r, old, (same r).1⟩
    obtain ⟨r, old, kind⟩ := old
    rw [kind]
    rcases framed.homes j r old with root | program | ⟨m, housed⟩
    · exact .inl root
    · exact .inr (.inl program)
    · exact .inr (.inr ⟨m, housed_stays stays housed⟩)
  · intro j s found module member
    apply is_module_stays stays
    rcases get_modify_split found with ⟨_, old⟩ | ⟨rfl, r, old, rfl⟩
    · exact framed.imports j s old module member
    · rcases imports r module member with before | new
      · exact framed.imports j r old module before
      · exact new
  · intro j s found other
    rcases get_modify_split found with ⟨_, old⟩ | ⟨rfl, r, old, rfl⟩
    · exact framed.plain j s old other
    · rw [(same r).1] at other
      exact plain r old other (framed.plain j r old other)
  · intro entry member
    exact is_module_stays stays (framed.named entry member)

theorem stays_module_scope (name : String) (parent : ScopeId) : t.Stays (t.moduleScope name parent).2 := by
  cases known : t.findModule? name with
  | some id =>
    rw [module_scope_known known]
    exact stays_refl t
  | none =>
    intro j s found
    refine ⟨s, ?_, rfl, rfl, rfl⟩
    unfold get?
    rw [module_scope_new known]
    exact get_push_old found

theorem framed_module_scope (framed : t.Framed) (name : String) (there : parent.index < t.size) :
    (t.moduleScope name parent).2.Framed ∧
      (t.moduleScope name parent).2.IsModule (t.moduleScope name parent).1 := by
  unfold moduleScope
  cases known : t.findModule? name with
  | some id => exact ⟨framed, framed.named (name, id) (lookup_member known)⟩
  | none =>
    let s : Scope := { kind := .module, parent := some parent, home := some ⟨t.size⟩ }
    have pushed : (t.push s).2.Framed := framed_push framed rfl there (.inl ⟨rfl, rfl⟩) ⟨rfl, rfl, rfl⟩
    have here : (t.push s).2.IsModule ⟨t.size⟩ := ⟨s, get_push_new s, rfl⟩
    let u : ScopeTree := { (t.push s).2 with modules := t.modules ++ [(name, ⟨t.size⟩)] }
    have stays : (t.push s).2.Stays u := fun _ r found => ⟨r, found, rfl, rfl, rfl⟩
    have framed' : u.Framed := by
      constructor
      · exact planted_scopes pushed.planted rfl
      · intro id r found
        rcases pushed.homes id r found with root | program | ⟨m, housed⟩
        · exact .inl root
        · exact .inr (.inl program)
        · exact .inr (.inr ⟨m, housed_stays stays housed⟩)
      · intro id r found module member
        exact is_module_stays stays (pushed.imports id r found module member)
      · exact fun id r found => pushed.plain id r found
      · intro entry member
        apply is_module_stays stays
        rcases List.mem_append.mp member with old | last
        · exact pushed.named entry old
        · rw [List.mem_singleton.mp last]
          exact here
    exact ⟨framed', is_module_stays stays here⟩

/-- A number is listed in one scope, once and under one name. -/
def ListsOnce (t : ScopeTree) (entries : Scope → List (String × Nat)) (name : String) (k : Nat) : Prop :=
  ∃ id s, t.get? id = some s ∧ (entries s).filter (fun entry => entry.2 == k) = [(name, k)] ∧
    ∀ j r, t.get? j = some r → j ≠ id → ∀ entry ∈ entries r, entry.2 ≠ k

/-- The scopes list the numbers of some names, each once, and no others. -/
structure Registers (t : ScopeTree) (entries : Scope → List (String × Nat)) (names : List String) : Prop where
  bound : ∀ id s, t.get? id = some s → ∀ entry ∈ entries s, entry.2 < names.length
  once : ∀ (k : Nat) (name : String), names[k]? = some name → t.ListsOnce entries name k

variable {entries : Scope → List (String × Nat)} {names : List String}

theorem registers_push (registers : t.Registers entries names) (empty : entries s = []) :
    (t.push s).2.Registers entries names := by
  constructor
  · intro id r found
    rcases get_push_split found with old | ⟨_, rfl⟩
    · exact registers.bound id r old
    · simp [empty]
  · intro k name named
    obtain ⟨id, r, found, single, others⟩ := registers.once k name named
    refine ⟨id, r, get_push_old found, single, ?_⟩
    intro j q found' different
    rcases get_push_split found' with old | ⟨_, rfl⟩
    · exact others j q old different
    · simp [empty]

theorem registers_modify (registers : t.Registers entries names) (id : ScopeId)
    (same : ∀ s, entries (f s) = entries s) : (t.modify id f).Registers entries names := by
  have old : ∀ {j s}, (t.modify id f).get? j = some s → ∃ r, t.get? j = some r ∧ entries s = entries r := by
    intro j s found
    rcases get_modify_split found with ⟨_, old⟩ | ⟨rfl, r, old, rfl⟩
    · exact ⟨s, old, rfl⟩
    · exact ⟨r, old, same r⟩
  constructor
  · intro j s found
    obtain ⟨r, before, equal⟩ := old found
    rw [equal]
    exact registers.bound j r before
  · intro k name named
    obtain ⟨i, s, found, single, others⟩ := registers.once k name named
    obtain ⟨s', found', equal⟩ : ∃ s', (t.modify id f).get? i = some s' ∧ entries s' = entries s := by
      rw [get_modify]
      split
      · exact ⟨f s, by rw [found]; rfl, same s⟩
      · exact ⟨s, found, rfl⟩
    refine ⟨i, s', found', by rw [equal]; exact single, ?_⟩
    intro j r found'' different
    obtain ⟨r', before, equal'⟩ := old found''
    rw [equal']
    exact others j r' before different

theorem registers_add {name : String} (registers : t.Registers entries names)
    (found : t.get? id = some s) (adds : ∀ s, entries (f s) = entries s ++ [(name, names.length)]) :
    (t.modify id f).Registers entries (names ++ [name]) := by
  have changed : (t.modify id f).get? id = some (f s) := by
    rw [get_modify, if_pos rfl, found]
    rfl
  constructor
  · intro j r found' entry member
    rw [List.length_append, List.length_singleton]
    rcases get_modify_split found' with ⟨_, old⟩ | ⟨rfl, r', old, rfl⟩
    · have := registers.bound j r old entry member
      omega
    · rw [adds] at member
      rcases List.mem_append.mp member with before | last
      · have := registers.bound j r' old entry before
        omega
      · rw [List.mem_singleton.mp last]
        exact Nat.lt_succ_self _
  · intro k name' named
    rcases Nat.lt_or_ge k names.length with earlier | last
    · -- an earlier number is not the one that is added
      rw [List.getElem?_append_left earlier] at named
      obtain ⟨i, q, found', single, others⟩ := registers.once k name' named
      have apart : names.length ≠ k := by omega
      by_cases same : i = id
      · subst same
        rw [found] at found'
        cases found'
        refine ⟨i, f s, changed, ?_, ?_⟩
        · rw [adds, List.filter_append, single]
          simp [apart]
        · intro j r there different
          rcases get_modify_split there with ⟨_, old⟩ | ⟨rfl, _⟩
          · exact others j r old different
          · exact absurd rfl different
      · refine ⟨i, q, by rw [get_modify, if_neg same]; exact found', single, ?_⟩
        intro j r there different entry member
        rcases get_modify_split there with ⟨_, old⟩ | ⟨rfl, r', old, rfl⟩
        · exact others j r old different entry member
        · rw [adds] at member
          rcases List.mem_append.mp member with before | new
          · exact others j r' old different entry before
          · rw [List.mem_singleton.mp new]
            exact apart
    · obtain ⟨rfl, rfl⟩ : k = names.length ∧ name' = name := by
        have inside : k < (names ++ [name]).length := (List.getElem?_eq_some_iff.mp named).1
        rw [List.length_append, List.length_singleton] at inside
        have index : k = names.length := by omega
        subst index
        simpa using named.symm
      refine ⟨id, f s, changed, ?_, ?_⟩
      · have none : (entries s).filter (fun entry => entry.2 == names.length) = [] := by
          apply List.filter_eq_nil_iff.mpr
          intro entry member
          have := registers.bound id s found entry member
          simp
          omega
        rw [adds, List.filter_append, none]
        simp
      · intro j r there different entry member
        rcases get_modify_split there with ⟨_, old⟩ | ⟨rfl, _⟩
        · have := registers.bound j r old entry member
          omega
        · exact absurd rfl different

end ScopeTree

end SemanticAnalysis
