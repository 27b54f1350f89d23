import SemanticAnalysis.Proofs.Scope.Chain
/-!
What is seen from a scope. From a scope that imports nothing one sees its own variables and what its parent sees. So
from inside a function one sees the variables of the scopes around, nearest first, up to the scope of the function, and
then what the module sees.
-/
namespace SemanticAnalysis

theorem lookup_member {β : Type} {entries : List (String × β)} {name : String} {value : β}
    (found : entries.lookup name = some value) : (name, value) ∈ entries := by
  obtain ⟨before, after, split, _⟩ := List.lookup_eq_some_iff.mp found
  rw [split]
  simp

theorem lookup_snoc {β : Type} {entries : List (String × β)} {name key : String} {last value : β}
    (found : (entries ++ [(name, last)]).lookup key = some value) :
    entries.lookup key = some value ∨ key = name ∧ value = last := by
  rw [List.lookup_append] at found
  rcases Option.or_eq_some_iff.mp found with old | ⟨_, new⟩
  · exact .inl old
  · exact .inr (by simpa using lookup_member new)

theorem find_some_congr {α β : Type} {f g : α → Option β} {xs : List α} (same : ∀ x ∈ xs, f x = g x) :
    xs.findSome? f = xs.findSome? g := by
  induction xs with
  | nil => rfl
  | cons x rest ih =>
    rw [List.findSome?_cons, List.findSome?_cons, same x (List.mem_cons_self ..),
      ih (fun y member => same y (List.mem_cons_of_mem x member))]

theorem find_some_filter_map {α β γ : Type} (f : α → Option β) (g : β → Option γ) (xs : List α) :
    (xs.filterMap f).findSome? g = xs.findSome? (fun x => (f x).bind g) := by
  induction xs with
  | nil => rfl
  | cons x rest ih =>
    cases here : f x with
    | none => rw [List.filterMap_cons_none here, ih, List.findSome?_cons, here, Option.bind_none]
    | some y => rw [List.filterMap_cons_some here, List.findSome?_cons, ih, List.findSome?_cons, here, Option.bind_some]

theorem find_some_erase_dups {α β : Type} [BEq α] [LawfulBEq α] (f : α → Option β) (xs : List α) :
    xs.eraseDups.findSome? f = xs.findSome? f := by
  induction h : xs.length using Nat.strongRecOn generalizing xs with
  | ind n ih =>
    cases xs with
    | nil => simp
    | cons x rest =>
      rw [List.eraseDups_cons, List.findSome?_cons, List.findSome?_cons]
      cases here : f x with
      | some value => rfl
      | none =>
        have shorter : (rest.filter (fun y => !y == x)).length < n := by
          have := List.length_filter_le (fun y => !y == x) rest
          rw [List.length_cons] at h
          omega
        dsimp only
        rw [ih _ shorter _ rfl]
        clear ih shorter h
        induction rest with
        | nil => rfl
        | cons y rest ih =>
          by_cases same : y = x
          · subst same
            simp [here, ih]
          · rw [List.filter_cons_of_pos (by simp [same]), List.findSome?_cons, List.findSome?_cons, ih]

namespace ScopeTree
variable {t u : ScopeTree}

theorem ordered_push {s : Scope} (ordered : t.Ordered)
    (above : ∀ parent, s.parent = some parent → parent.index < t.size) : (t.push s).2.Ordered := by
  intro id s' found parent up
  rw [get_push] at found
  split at found
  · rename_i last
    cases found
    have := above parent up
    omega
  · exact ordered id s' found parent up

theorem ordered_modify {f : Scope → Scope} (id : ScopeId) (ordered : t.Ordered) (same : ∀ s, (f s).parent = s.parent) :
    (t.modify id f).Ordered := by
  intro j s found parent up
  rw [get_modify] at found
  split at found
  · obtain ⟨s', here, rfl⟩ := Option.map_eq_some_iff.mp found
    exact ordered j s' here parent (by rw [← up, same])
  · exact ordered j s found parent up

theorem push_modify (s : Scope) (f : Scope → Scope) : (t.push s).2.modify ⟨t.size⟩ f = (t.push (f s)).2 := by
  unfold push modify size
  congr 1
  apply Array.ext_getElem?
  intro k
  rw [Array.getElem?_modify, Array.getElem?_push, Array.getElem?_push]
  by_cases last : k = t.scopes.size
  · simp [last]
  · have other : t.scopes.size ≠ k := fun same => last same.symm
    simp [last, other]

section Below
variable {id parent : ScopeId} {s : Scope}

theorem chain_below (ordered : t.Ordered) (found : t.get? id = some s) (up : s.parent = some parent)
    (closed : s.imports = []) : t.chain id = (id, s) :: t.chain parent ∧ t.imported id = t.imported parent := by
  have chain : t.chain id = (id, s) :: t.chain parent := by
    rw [chain_eq ordered found, up, Option.elim_some]
  refine ⟨chain, ?_⟩
  unfold imported
  rw [chain, List.flatMap_cons, closed, List.nil_append]

theorem find_variable_below (ordered : t.Ordered) (found : t.get? id = some s) (up : s.parent = some parent)
    (closed : s.imports = []) (name : String) :
    t.findVariable? id name = (s.vars.lookup name).or (t.findVariable? parent name) := by
  obtain ⟨chain, imported⟩ := chain_below ordered found up closed
  unfold findVariable?
  rw [chain, imported, List.findSome?_cons]
  dsimp only [Scope.findVariable?]
  cases s.vars.lookup name <;> rfl

theorem find_type_below (ordered : t.Ordered) (found : t.get? id = some s) (up : s.parent = some parent)
    (closed : s.imports = []) (name : String) :
    t.findType? id name = (s.types.lookup name).or (t.findType? parent name) := by
  obtain ⟨chain, imported⟩ := chain_below ordered found up closed
  unfold findType?
  rw [chain, imported, List.findSome?_cons]
  dsimp only [Scope.findType?]
  cases s.types.lookup name <;> rfl

theorem is_within_below (ordered : t.Ordered) (found : t.get? id = some s) (up : s.parent = some parent)
    (v : VariableId) (boundary : ScopeId) :
    t.isWithin id v boundary = (s.declares v || (id != boundary && t.isWithin parent v boundary)) := by
  unfold isWithin
  rw [chain_eq ordered found, up, Option.elim_some, declaredBefore]

end Below

theorem declares_iff (s : Scope) (v : VariableId) : s.declares v = true ↔ v ∈ s.vars.map Prod.snd := by
  unfold Scope.declares
  simp

end ScopeTree

def ScopeKind.Inside (f : FunctionId) : ScopeKind → Prop
  | .function g => g = f
  | .block => True
  | .binding => True
  | _ => False

namespace ScopeTree
variable {t u : ScopeTree}

/-- What is seen from a scope inside a function, up to the function's own scope. -/
inductive Within (t : ScopeTree) (f : FunctionId) (boundary : ScopeId) :
    ScopeId → List (String × VariableId) → Prop where
  | own {s : Scope} : t.get? boundary = some s → s.kind.Inside f → s.imports = [] → Within t f boundary boundary s.vars
  | inner {id parent : ScopeId} {s : Scope} {visible : List (String × VariableId)} :
      id ≠ boundary → t.get? id = some s → s.kind.Inside f → s.parent = some parent → s.imports = [] →
      Within t f boundary parent visible → Within t f boundary id (s.vars ++ visible)

variable {f : FunctionId} {boundary id : ScopeId} {visible : List (String × VariableId)}

theorem within_there (within : t.Within f boundary id visible) : id.index < t.size := by
  cases within with
  | own found => exact get_some_index found
  | inner _ found => exact get_some_index found

theorem within_boundary (within : t.Within f boundary id visible) : boundary.index < t.size := by
  induction within with
  | own found => exact get_some_index found
  | inner _ _ _ _ _ _ ih => exact ih

theorem within_keeps (kept : ∀ id s, s.kind.Inside f → t.get? id = some s → u.get? id = some s)
    (within : t.Within f boundary id visible) : u.Within f boundary id visible := by
  induction within with
  | own found inside closed => exact .own (kept _ _ inside found) inside closed
  | inner other found inside up closed _ ih => exact .inner other (kept _ _ inside found) inside up closed ih

theorem within_push {s : Scope} (inside : s.kind.Inside f) (up : s.parent = some id) (closed : s.imports = [])
    (within : t.Within f boundary id visible) : (t.push s).2.Within f boundary ⟨t.size⟩ (s.vars ++ visible) := by
  have earlier := within_boundary within
  have kept : (t.push s).2.Within f boundary id visible := by
    apply within_keeps _ within
    intro j s' _ found
    have there := get_some_index found
    rw [get_push, if_neg (by omega)]
    exact found
  apply Within.inner _ _ inside up closed kept
  · rintro rfl
    exact Nat.lt_irrefl _ earlier
  · rw [get_push, if_pos rfl]

theorem find_variable_within (ordered : t.Ordered) {home : ScopeId} {b : Scope} (outer : t.get? boundary = some b)
    (up : b.parent = some home) (within : t.Within f boundary id visible) (name : String) :
    t.findVariable? id name = (visible.lookup name).or (t.findVariable? home name) := by
  induction within with
  | own found _ closed =>
    rw [outer] at found
    cases found
    exact find_variable_below ordered outer up closed name
  | inner _ found _ step closed _ ih =>
    rw [find_variable_below ordered found step closed, ih, List.lookup_append, Option.or_assoc]

theorem is_within_iff (ordered : t.Ordered) (within : t.Within f boundary id visible) (v : VariableId) :
    t.isWithin id v boundary = true ↔ v ∈ visible.map Prod.snd := by
  induction within with
  | @own s found _ closed =>
    cases up : s.parent with
    | none =>
      unfold isWithin
      rw [chain_eq ordered found, up, Option.elim_none, declaredBefore, ← declares_iff]
      simp [declaredBefore]
    | some parent =>
      rw [is_within_below ordered found up, ← declares_iff]
      simp
  | inner other found _ up closed _ ih =>
    rw [is_within_below ordered found up, List.map_append, List.mem_append, ← declares_iff, ← ih]
    simp [other]

end ScopeTree

end SemanticAnalysis
