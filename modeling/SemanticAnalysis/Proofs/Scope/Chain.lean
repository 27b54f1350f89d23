import SemanticAnalysis.Scope
/-!
Chains of scopes. Where every parent comes before its children, the chain of a scope is the scope followed by the
chain of its parent, and the bound of the climb plays no part. A chain only depends on the scopes on it, so scopes
that are added or changed elsewhere leave it alone.
-/
namespace SemanticAnalysis

theorem erase_dups_nodup {α : Type} [BEq α] [LawfulBEq α] (xs : List α) : xs.eraseDups.Nodup := by
  induction length : xs.length using Nat.strongRecOn generalizing xs with
  | ind n ih =>
    cases xs with
    | nil => simp
    | cons x rest =>
      have shorter : (rest.filter (fun y => !y == x)).length < n := by
        have fewer := List.length_filter_le (fun y => !y == x) rest
        rw [List.length_cons] at length
        omega
      rw [List.eraseDups_cons, List.nodup_cons]
      constructor
      · simp
      · exact ih _ shorter _ rfl

theorem erase_dups_snoc {α : Type} [BEq α] [LawfulBEq α] [DecidableEq α] (xs : List α) (x : α) :
    (xs ++ [x]).eraseDups = if x ∈ xs.eraseDups then xs.eraseDups else xs.eraseDups ++ [x] := by
  rw [List.eraseDups_append]
  by_cases known : x ∈ xs
  · simp [known, List.removeAll]
  · simp [known, List.removeAll, List.eraseDups_cons]

namespace ScopeTree

def Ordered (t : ScopeTree) : Prop :=
  ∀ id s, t.get? id = some s → ∀ parent, s.parent = some parent → parent.index < id.index

def All (P : Scope → Prop) (t : ScopeTree) : Prop := ∀ id s, t.get? id = some s → P s

variable {t u : ScopeTree}

theorem get_push (s : Scope) (id : ScopeId) :
    (t.push s).2.get? id = if id.index = t.size then some s else t.get? id := by
  exact Array.getElem?_push

theorem get_modify (id : ScopeId) (f : Scope → Scope) (j : ScopeId) :
    (t.modify id f).get? j = if j = id then (t.get? j).map f else t.get? j := by
  unfold modify get?
  rw [Array.getElem?_modify]
  by_cases same : j = id
  · simp [same]
  · have different : id.index ≠ j.index := by
      intro equal
      obtain ⟨i⟩ := id
      obtain ⟨k⟩ := j
      exact same (by simpa using equal.symm)
    simp [same, different]

variable {s : Scope}

theorem all_push {P : Scope → Prop} (old : t.All P) (new : P s) : (t.push s).2.All P := by
  intro id s' found
  rw [get_push] at found
  split at found
  · cases found
    exact new
  · exact old id s' found

theorem all_modify {P : Scope → Prop} {f : Scope → Scope} (id : ScopeId) (old : t.All P) (keeps : ∀ s, P s → P (f s)) :
    (t.modify id f).All P := by
  intro j s found
  rw [get_modify] at found
  split at found
  · obtain ⟨s', here, rfl⟩ := Option.map_eq_some_iff.mp found
    exact keeps s' (old j s' here)
  · exact old j s found

variable {id : ScopeId}

theorem get_some_index (found : t.get? id = some s) : id.index < t.size :=
  (Array.getElem?_eq_some_iff.mp found).1

theorem climb_none (bound : Nat) : t.climb bound none = [] := by
  cases bound <;> rfl

variable {entry : ScopeId × Scope}

theorem climb_member (bound : Nat) (start : Option ScopeId)
    (member : entry ∈ t.climb bound start) : t.get? entry.1 = some entry.2 := by
  induction bound generalizing start with
  | zero => cases start <;> simp [climb] at member
  | succ bound ih =>
    cases start with
    | none => simp [climb_none] at member
    | some id =>
      rw [climb] at member
      cases found : t.get? id with
      | none => simp [found] at member
      | some s =>
        simp only [found, List.mem_cons] at member
        rcases member with rfl | later
        · exact found
        · exact ih s.parent later

theorem chain_member (member : entry ∈ t.chain id) :
    t.get? entry.1 = some entry.2 := climb_member _ _ member

theorem climb_bound_irrelevant (ordered : t.Ordered) (n m : Nat) (id : ScopeId) (first : id.index < n)
    (second : id.index < m) : t.climb n (some id) = t.climb m (some id) := by
  induction n generalizing m id with
  | zero => exact absurd first (Nat.not_lt_zero _)
  | succ n ih =>
    cases m with
    | zero => exact absurd second (Nat.not_lt_zero _)
    | succ m =>
      rw [climb, climb]
      cases found : t.get? id with
      | none => rfl
      | some s =>
        dsimp only
        cases up : s.parent with
        | none => rw [climb_none, climb_none]
        | some parent =>
          have smaller := ordered id s found parent up
          rw [ih m parent (by omega) (by omega)]

def path (t : ScopeTree) (id : ScopeId) : List ScopeId := (t.chain id).map Prod.fst

theorem chain_eq (ordered : t.Ordered) (found : t.get? id = some s) :
    t.chain id = (id, s) :: (s.parent.elim [] t.chain) := by
  have there := get_some_index found
  unfold chain
  obtain ⟨n, size⟩ : ∃ n, t.size = n + 1 := ⟨t.size - 1, by omega⟩
  rw [size, climb, found]
  dsimp only
  cases up : s.parent with
  | none => rw [climb_none, Option.elim_none]
  | some parent =>
    have smaller := ordered id s found parent up
    rw [Option.elim_some, climb_bound_irrelevant ordered n (n + 1) parent (by omega) (by omega)]

theorem path_eq (ordered : t.Ordered) (found : t.get? id = some s) :
    t.path id = id :: (s.parent.elim [] t.path) := by
  unfold path
  rw [chain_eq ordered found]
  cases s.parent <;> rfl

theorem chain_missing (missing : t.get? id = none) : t.chain id = [] := by
  unfold chain
  cases t.size with
  | zero => rfl
  | succ n => rw [climb, missing]

theorem path_missing (missing : t.get? id = none) : t.path id = [] := by
  rw [path, chain_missing missing, List.map_nil]

theorem path_member {j : ScopeId} (member : j ∈ t.path id) : ∃ s, t.get? j = some s := by
  obtain ⟨entry, listed, rfl⟩ := List.mem_map.mp member
  exact ⟨entry.2, chain_member listed⟩

theorem path_cons (ordered : t.Ordered) {first : ScopeId} {rest : List ScopeId} (path : t.path id = first :: rest) :
    first = id ∧ ∃ s, t.get? id = some s ∧ rest = s.parent.elim [] t.path := by
  cases found : t.get? id with
  | none =>
    rw [path_missing found] at path
    cases path
  | some s =>
    rw [path_eq ordered found] at path
    obtain ⟨rfl, rfl⟩ := List.cons.inj path
    exact ⟨rfl, s, rfl, rfl⟩

theorem path_from (ordered : t.Ordered) {m : ScopeId} {before after : List ScopeId}
    (path : t.path id = before ++ m :: after) : t.path m = m :: after := by
  induction before generalizing id with
  | nil =>
    obtain ⟨rfl, _⟩ := path_cons ordered path
    exact path
  | cons first before ih =>
    obtain ⟨_, s, _, rest⟩ := path_cons ordered path
    cases up : s.parent with
    | none => simp [up] at rest
    | some parent =>
      rw [up, Option.elim_some] at rest
      exact ih rest.symm

theorem chain_find_path {β : Type} (f : Scope → Option β) (id : ScopeId) :
    (t.chain id).findSome? (fun entry => f entry.2) = (t.path id).findSome? (fun j => (t.get? j).bind f) := by
  have entries : ∀ l : List (ScopeId × Scope), (∀ entry ∈ l, t.get? entry.1 = some entry.2) →
      l.findSome? (fun entry => f entry.2) = (l.map Prod.fst).findSome? (fun j => (t.get? j).bind f) := by
    intro l known
    induction l with
    | nil => rfl
    | cons entry rest ih =>
      have head := known entry (by simp)
      simp only [List.findSome?_cons, List.map_cons, head, Option.bind_some]
      rw [ih (fun e member => known e (List.mem_cons_of_mem _ member))]
  exact entries (t.chain id) (fun entry member => chain_member member)

theorem find_variable_path (id : ScopeId) (name : String) :
    t.findVariable? id name = ((t.path id).findSome? (fun j => t.ownVariable? j name)).or
      ((t.imported id).findSome? (fun module => t.ownVariable? module name)) := by
  unfold findVariable?
  rw [chain_find_path (fun s => s.findVariable? name)]
  rfl

theorem find_type_path (id : ScopeId) (name : String) :
    t.findType? id name = ((t.path id).findSome? (fun j => t.ownType? j name)).or
      ((t.imported id).findSome? (fun module => t.ownType? module name)) := by
  unfold findType?
  rw [chain_find_path (fun s => s.findType? name)]
  rfl

def importsOf (t : ScopeTree) (id : ScopeId) : List ScopeId := ((t.get? id).map Scope.imports).getD []

theorem imports_of_found (found : t.get? id = some s) : t.importsOf id = s.imports := by
  unfold importsOf
  rw [found, Option.map_some, Option.getD_some]

theorem imported_path (id : ScopeId) : t.imported id = ((t.path id).flatMap t.importsOf).eraseDups := by
  have entries : ∀ l : List (ScopeId × Scope), (∀ entry ∈ l, t.get? entry.1 = some entry.2) →
      l.flatMap (fun entry => entry.2.imports) = (l.map Prod.fst).flatMap t.importsOf := by
    intro l known
    induction l with
    | nil => rfl
    | cons entry rest ih =>
      have head := known entry (by simp)
      simp only [List.flatMap_cons, List.map_cons]
      rw [ih (fun e member => known e (List.mem_cons_of_mem _ member))]
      simp [importsOf, head]
  unfold imported path
  rw [entries (t.chain id) (fun entry member => chain_member member)]

/-- The two trees have the same scopes at some places, from which parents and imports lead to such places again. -/
def Shared (t u : ScopeTree) (place : ScopeId → Prop) : Prop :=
  ∀ id, place id → ∃ s, t.get? id = some s ∧ u.get? id = some s ∧ (∀ parent, s.parent = some parent → place parent) ∧
    ∀ module ∈ s.imports, place module

theorem chain_shared {place : ScopeId → Prop} (first : t.Ordered) (second : u.Ordered) (shared : t.Shared u place)
    (here : place id) : t.chain id = u.chain id ∧ ∀ entry ∈ t.chain id, place entry.1 := by
  induction index : id.index using Nat.strongRecOn generalizing id with
  | ind n ih =>
    obtain ⟨s, found, found', up, _⟩ := shared id here
    rw [chain_eq first found, chain_eq second found']
    cases parent_eq : s.parent with
    | none => simpa using here
    | some parent =>
      obtain ⟨same, members⟩ := ih parent.index (by
        have smaller := first id s found parent parent_eq
        omega) (up parent parent_eq) rfl
      rw [Option.elim_some, Option.elim_some, same]
      refine ⟨rfl, ?_⟩
      rw [← same]
      simpa using ⟨here, fun id s => members (id, s)⟩

theorem find_type_shared {place : ScopeId → Prop} (first : t.Ordered) (second : u.Ordered) (shared : t.Shared u place)
    (here : place id) (name : String) : t.findType? id name = u.findType? id name := by
  obtain ⟨same, members⟩ := chain_shared first second shared here
  have modules : ∀ m ∈ t.imported id, t.ownType? m name = u.ownType? m name := by
    intro m member
    unfold imported at member
    rw [List.mem_eraseDups, List.mem_flatMap] at member
    obtain ⟨entry, listed, imports⟩ := member
    obtain ⟨s, found, _, _, closed⟩ := shared entry.1 (members entry listed)
    cases found.symm.trans (chain_member listed)
    obtain ⟨r, there, there', _⟩ := shared m (closed m imports)
    unfold ownType?
    rw [there, there']
  have imported_same : t.imported id = u.imported id := by
    unfold imported
    rw [same]
  unfold findType?
  rw [← imported_same, ← same]
  congr 1
  generalize t.imported id = imported at modules
  induction imported with
  | nil => rfl
  | cons m rest ih =>
    rw [List.findSome?_cons, List.findSome?_cons, modules m (List.mem_cons_self ..),
      ih (fun n member => modules n (List.mem_cons_of_mem _ member))]

variable {name : String}

theorem own_variable_member {v : VariableId} (found : t.ownVariable? id name = some v) :
    ∃ s, t.get? id = some s ∧ (name, v) ∈ s.vars := by
  obtain ⟨s, here, lookup⟩ := Option.bind_eq_some_iff.mp found
  obtain ⟨before, after, split, _⟩ := List.lookup_eq_some_iff.mp lookup
  exact ⟨s, here, by rw [split]; simp⟩

theorem own_type_member {type : TypeId} (found : t.ownType? id name = some type) :
    ∃ s, t.get? id = some s ∧ (name, type) ∈ s.types := by
  obtain ⟨s, here, lookup⟩ := Option.bind_eq_some_iff.mp found
  obtain ⟨before, after, split, _⟩ := List.lookup_eq_some_iff.mp lookup
  exact ⟨s, here, by rw [split]; simp⟩

theorem find_some_or {α β : Type} {xs ys : List α} {f : α → Option β} {b : β}
    (found : (xs.findSome? f).or (ys.findSome? f) = some b) : ∃ x, f x = some b := by
  rw [← List.findSome?_append] at found
  obtain ⟨x, _, here⟩ := List.exists_of_findSome?_eq_some found
  exact ⟨x, here⟩

theorem find_variable_member {v : VariableId}
    (found : t.findVariable? id name = some v) : ∃ j s, t.get? j = some s ∧ (name, v) ∈ s.vars := by
  rw [find_variable_path] at found
  obtain ⟨j, here⟩ := find_some_or found
  obtain ⟨s, there, member⟩ := own_variable_member here
  exact ⟨j, s, there, member⟩

theorem find_type_member {type : TypeId}
    (found : t.findType? id name = some type) : ∃ j s, t.get? j = some s ∧ (name, type) ∈ s.types := by
  rw [find_type_path] at found
  obtain ⟨j, here⟩ := find_some_or found
  obtain ⟨s, there, member⟩ := own_type_member here
  exact ⟨j, s, there, member⟩

def Holds (t : ScopeTree) (id : ScopeId) (name : String) (f : FunctionId) : Prop :=
  ∃ s, t.get? id = some s ∧ (name, f) ∈ s.functions

variable {f : FunctionId}

theorem own_functions_iff :
    f ∈ t.ownFunctions id name ↔ t.Holds id name f := by
  unfold ownFunctions Holds
  cases t.get? id with
  | none => simp
  | some s => simp [Scope.functionsNamed]

theorem find_functions_path :
    f ∈ t.findFunctions id name ↔ ∃ j ∈ t.path id ++ t.imported id, t.Holds j name f := by
  unfold findFunctions
  rw [(stable_sort_perm _ _).mem_iff, List.mem_eraseDups, List.mem_flatMap]
  simp only [own_functions_iff, path]

theorem find_functions_member
    (found : f ∈ t.findFunctions id name) : ∃ j s, t.get? j = some s ∧ (name, f) ∈ s.functions := by
  obtain ⟨j, _, holds⟩ := find_functions_path.mp found
  exact ⟨j, holds⟩

theorem find_functions_sorted (id : ScopeId) (name : String) :
    (t.findFunctions id name).Pairwise (fun f g => f.index < g.index) := by
  apply (stable_sort_pairwise FunctionId.index (erase_dups_nodup _)).imp
  rintro ⟨f⟩ ⟨g⟩ (less | ⟨equal, different⟩)
  · exact less
  · exact absurd (congrArg FunctionId.mk equal) different

inductive Around (t : ScopeTree) : ScopeId → ScopeId → Prop where
  | here (id : ScopeId) : Around t id id
  | up {id parent j : ScopeId} {s : Scope} (found : t.get? id = some s) (above : s.parent = some parent)
      (further : Around t parent j) : Around t id j

/-- A function is seen where it is declared, inside of that, and where something imports the module. -/
def Sees (t : ScopeTree) (id : ScopeId) (name : String) (f : FunctionId) : Prop :=
  ∃ j, t.Around id j ∧ (t.Holds j name f ∨ ∃ s, t.get? j = some s ∧ ∃ module ∈ s.imports, t.Holds module name f)

theorem climb_around (bound : Nat)
    (member : entry ∈ t.climb bound (some id)) : t.Around id entry.1 := by
  induction bound generalizing id with
  | zero => simp [climb] at member
  | succ bound ih =>
    rw [climb] at member
    cases found : t.get? id with
    | none => simp [found] at member
    | some s =>
      simp only [found, List.mem_cons] at member
      rcases member with rfl | later
      · exact .here id
      · cases above : s.parent with
        | none => simp [above, climb_none] at later
        | some parent =>
          rw [above] at later
          exact .up found above (ih later)

theorem path_around {j : ScopeId} (member : j ∈ t.path id) : t.Around id j := by
  obtain ⟨entry, listed, rfl⟩ := List.mem_map.mp member
  exact climb_around _ listed

theorem path_iff_around (ordered : t.Ordered) {j : ScopeId} (there : t.get? j = some s) :
    j ∈ t.path id ↔ t.Around id j := by
  constructor
  · exact path_around
  · intro around
    induction around with
    | here id =>
      rw [path_eq ordered there]
      exact List.mem_cons_self ..
    | up found above _ ih =>
      rw [path_eq ordered found, above]
      exact List.mem_cons_of_mem _ (ih there)

theorem find_functions_iff_sees (ordered : t.Ordered) :
    f ∈ t.findFunctions id name ↔ t.Sees id name f := by
  rw [find_functions_path]
  constructor
  · rintro ⟨j, listed, holds⟩
    rcases List.mem_append.mp listed with onPath | imported
    · have ⟨s, there, _⟩ := holds
      exact ⟨j, (path_iff_around ordered there).mp onPath, .inl holds⟩
    · rw [imported_path, List.mem_eraseDups, List.mem_flatMap] at imported
      obtain ⟨k, onPath, imports⟩ := imported
      unfold importsOf at imports
      cases there : t.get? k with
      | none => simp [there] at imports
      | some s =>
        rw [there] at imports
        exact ⟨k, (path_iff_around ordered there).mp onPath, .inr ⟨s, there, j, imports, holds⟩⟩
  · rintro ⟨j, around, holds | ⟨s, there, module, imports, holds⟩⟩
    · have ⟨s, there, _⟩ := holds
      exact ⟨j, List.mem_append_left _ ((path_iff_around ordered there).mpr around), holds⟩
    · refine ⟨module, List.mem_append_right _ ?_, holds⟩
      rw [imported_path, List.mem_eraseDups, List.mem_flatMap]
      refine ⟨j, (path_iff_around ordered there).mpr around, ?_⟩
      rw [importsOf, there]
      exact imports

end ScopeTree

end SemanticAnalysis
