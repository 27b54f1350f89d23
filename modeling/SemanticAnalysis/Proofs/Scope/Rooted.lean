import Mathlib.Logic.Relation
import SemanticAnalysis.Proofs.Scope.Modules
/-!
Where chains end. A chain is followed from scope to parent for as long as there is one, so it comes to an end only if no
scope lies around itself, and it ends at the root only if nothing on it stands below a scope that is not there. Both
hold of a tree in which every scope was made below one that was there already.
-/
namespace SemanticAnalysis.ScopeTree
open Relation

variable {t u : ScopeTree}

def ChildOf (t : ScopeTree) (id parent : ScopeId) : Prop := ∃ s, t.get? id = some s ∧ s.parent = some parent

inductive Walks (t : ScopeTree) : Option ScopeId → List (ScopeId × Scope) → Prop where
  | past : Walks t none []
  | gap {id : ScopeId} (missing : t.get? id = none) : Walks t (some id) []
  | scope {id : ScopeId} {s : Scope} {rest : List (ScopeId × Scope)} (found : t.get? id = some s)
      (further : Walks t s.parent rest) : Walks t (some id) ((id, s) :: rest)

variable {xs : List (ScopeId × Scope)}

theorem walks_unique {start : Option ScopeId} {ys : List (ScopeId × Scope)} (first : t.Walks start xs)
    (second : t.Walks start ys) : xs = ys := by
  induction first generalizing ys with
  | past =>
    cases second
    rfl
  | gap missing =>
    cases second with
    | gap => rfl
    | scope found =>
      rw [missing] at found
      cases found
  | scope found _ ih =>
    cases second with
    | gap missing =>
      rw [found] at missing
      cases missing
    | scope found' further =>
      rw [found] at found'
      cases found'
      rw [ih further]

variable {id : ScopeId}

theorem walks_shorter {j : ScopeId} (around : TransGen t.ChildOf id j)
    (walk : t.Walks (some id) xs) : ∃ ys, t.Walks (some j) ys ∧ ys.length < xs.length := by
  have step : ∀ {i parent : ScopeId} {zs : List (ScopeId × Scope)}, t.ChildOf i parent → t.Walks (some i) zs →
      ∃ ys, t.Walks (some parent) ys ∧ ys.length < zs.length := by
    rintro i parent zs ⟨s, found, up⟩ walk
    cases walk with
    | gap missing =>
      rw [found] at missing
      cases missing
    | scope found' further =>
      rw [found] at found'
      cases found'
      rw [up] at further
      exact ⟨_, further, Nat.lt_succ_self _⟩
  induction around with
  | single child => exact step child walk
  | tail _ child ih =>
    obtain ⟨ys, walk', shorter⟩ := ih
    obtain ⟨zs, walk'', shorter'⟩ := step child walk'
    exact ⟨zs, walk'', Nat.lt_trans shorter' shorter⟩

theorem walks_apart (walk : t.Walks (some id) xs) :
    ¬ TransGen t.ChildOf id id := by
  intro around
  obtain ⟨ys, walk', shorter⟩ := walks_shorter around walk
  rw [walks_unique walk' walk] at shorter
  exact Nat.lt_irrefl _ shorter

theorem walks_chain (ordered : t.Ordered) (id : ScopeId) : t.Walks (some id) (t.chain id) := by
  induction index : id.index using Nat.strongRecOn generalizing id with
  | ind n ih =>
    cases found : t.get? id with
    | none =>
      rw [chain_missing found]
      exact .gap found
    | some s =>
      rw [chain_eq ordered found]
      refine .scope found ?_
      cases up : s.parent with
      | none => exact .past
      | some parent =>
        have smaller := ordered id s found parent up
        exact ih parent.index (by omega) parent rfl

/-- Every scope but the root has a parent, which comes before it. -/
structure Planted (t : ScopeTree) : Prop where
  ordered : t.Ordered
  orphans : ∀ id s, t.get? id = some s → s.parent = none → id = .root

/-- From every scope there is a way that leads to the root. It is the chain that all look-ups go along. -/
structure Rooted (t : ScopeTree) : Prop where
  acyclic : ∀ id, ¬ TransGen t.ChildOf id id
  walks : ∀ id, t.Walks (some id) (t.chain id)
  ends : ∀ id, id.index < t.size → (t.path id).getLast? = some .root

theorem get_of_index (there : id.index < t.size) : ∃ s, t.get? id = some s :=
  ⟨_, Array.getElem?_eq_getElem there⟩

theorem path_ends (planted : t.Planted) (there : id.index < t.size) :
    (t.path id).getLast? = some .root := by
  induction index : id.index using Nat.strongRecOn generalizing id with
  | ind n ih =>
    obtain ⟨s, found⟩ := get_of_index there
    rw [path_eq planted.ordered found]
    cases up : s.parent with
    | none => rw [planted.orphans id s found up]; rfl
    | some parent =>
      have smaller := planted.ordered id s found parent up
      have last := ih parent.index (by omega) (by omega) rfl
      rw [Option.elim_some, List.getLast?_cons, last]
      rfl

theorem planted_rooted (planted : t.Planted) : t.Rooted where
  acyclic id := walks_apart (walks_chain planted.ordered id)
  walks := walks_chain planted.ordered
  ends _ there := path_ends planted there

theorem planted_initial : initial.Planted := by
  constructor
  · exact (grounded_initial (.inl rfl)).ordered
  · rintro ⟨index⟩ s found none
    have there : index < 3 := get_some_index found
    obtain rfl | rfl | rfl : index = 0 ∨ index = 1 ∨ index = 2 := by omega
    · rfl
    · cases found
      cases none
    · cases found
      cases none

theorem planted_push {s : Scope} {parent : ScopeId} (planted : t.Planted) (up : s.parent = some parent)
    (there : parent.index < t.size) : (t.push s).2.Planted := by
  constructor
  · apply ordered_push planted.ordered
    intro parent' up'
    rw [up] at up'
    cases up'
    exact there
  · intro id s' found none
    rw [get_push] at found
    split at found
    · cases found
      rw [up] at none
      cases none
    · exact planted.orphans id s' found none

theorem planted_modify {f : Scope → Scope} (id : ScopeId) (planted : t.Planted) (same : ∀ s, (f s).parent = s.parent) :
    (t.modify id f).Planted := by
  constructor
  · exact ordered_modify id planted.ordered same
  · intro j s found none
    rw [get_modify] at found
    split at found
    · obtain ⟨s', here, rfl⟩ := Option.map_eq_some_iff.mp found
      exact planted.orphans j s' here (by rw [← none, same])
    · exact planted.orphans j s found none

theorem planted_scopes (planted : t.Planted) (same : u.scopes = t.scopes) : u.Planted := by
  have found : ∀ id, u.get? id = t.get? id := by
    intro id
    unfold get?
    rw [same]
  constructor
  · intro id s there
    exact planted.ordered id s (by rw [← found, there])
  · intro id s there
    exact planted.orphans id s (by rw [← found, there])

/-- What can be done to a tree. The places are arbitrary. -/
inductive Change where
  | openModule (name : String) (parent : ScopeId)
  | derive (parent : ScopeId) (kind : ScopeKind)
  | addVariable (id : ScopeId) (name : String) (v : VariableId)
  | addFunction (id : ScopeId) (name : String) (f : FunctionId)
  | addType (id : ScopeId) (name : String) (type : TypeId)
  | addImport (id imported : ScopeId)

def apply (t : ScopeTree) : Change → ScopeTree
  | .openModule name parent => (t.moduleScope name parent).2
  | .derive parent kind => (t.derive parent kind).2
  | .addVariable id name v => t.addVariable id name v
  | .addFunction id name f => t.addFunction id name f
  | .addType id name type => t.addType id name type
  | .addImport id imported => t.addImport id imported

def applyAll (t : ScopeTree) (changes : List Change) : ScopeTree := changes.foldl apply t

/-- If the change makes a scope, it makes it below one that is there. -/
def Change.Founded (t : ScopeTree) : Change → Prop
  | .openModule name parent => t.findModule? name = none → parent.index < t.size
  | .derive parent _ => parent.index < t.size
  | _ => True

def AllFounded : ScopeTree → List Change → Prop
  | _, [] => True
  | t, change :: rest => change.Founded t ∧ AllFounded (t.apply change) rest

theorem module_scope_known {name : String} (known : t.findModule? name = some id) (parent : ScopeId) :
    (t.moduleScope name parent).2 = t := by
  unfold moduleScope
  rw [known]

theorem module_scope_new {name : String} (new : t.findModule? name = none) (parent : ScopeId) :
    (t.moduleScope name parent).2.scopes
      = (t.push { kind := .module, parent := some parent, home := some ⟨t.size⟩ }).2.scopes := by
  unfold moduleScope
  rw [new]

/-- What a change does: it makes one scope, or it leaves all scopes where they are. -/
theorem apply_cases (t : ScopeTree) (change : Change) :
    (∃ s parent, s.parent = some parent ∧ (t.apply change).scopes = (t.push s).2.scopes ∧
        (change.Founded t ↔ parent.index < t.size)) ∨
      (change.Founded t ∧ ((t.apply change) = t ∨ ∃ id f, t.apply change = t.modify id f ∧
        ∀ s : Scope, (f s).parent = s.parent)) := by
  cases change with
  | openModule name parent =>
    cases known : t.findModule? name with
    | none =>
      refine .inl ⟨_, parent, rfl, module_scope_new known parent, ?_⟩
      exact ⟨fun founded => founded known, fun there _ => there⟩
    | some id =>
      refine .inr ⟨?_, .inl (module_scope_known known parent)⟩
      intro new
      rw [known] at new
      cases new
  | derive parent kind => exact .inl ⟨_, parent, rfl, rfl, Iff.rfl⟩
  | addVariable id name v => exact .inr ⟨trivial, .inr ⟨id, _, rfl, fun _ => rfl⟩⟩
  | addFunction id name f => exact .inr ⟨trivial, .inr ⟨id, _, rfl, fun _ => rfl⟩⟩
  | addType id name type => exact .inr ⟨trivial, .inr ⟨id, _, rfl, fun _ => rfl⟩⟩
  | addImport id imported =>
    refine .inr ⟨trivial, .inr ⟨id, _, rfl, ?_⟩⟩
    intro s
    split <;> rfl

theorem apply_planted (planted : t.Planted) {change : Change} (founded : change.Founded t) :
    (t.apply change).Planted := by
  rcases apply_cases t change with ⟨s, parent, up, scopes, iff⟩ | ⟨_, same | ⟨id, f, changed, kept⟩⟩
  · exact planted_scopes (planted_push planted up (iff.mp founded)) scopes
  · rw [same]
    exact planted
  · rw [changed]
    exact planted_modify id planted kept

theorem size_apply (t : ScopeTree) (change : Change) : t.size ≤ (t.apply change).size := by
  rcases apply_cases t change with ⟨s, parent, _, scopes, _⟩ | ⟨_, same | ⟨id, f, changed, _⟩⟩
  · unfold size
    rw [scopes]
    simp [push]
  · exact Nat.le_of_eq (by rw [same])
  · rw [changed]
    simp [size, modify]

theorem apply_unfounded (some_there : 0 < t.size) {change : Change} (unfounded : ¬ change.Founded t) :
    ¬ (t.apply change).Rooted := by
  rcases apply_cases t change with ⟨s, parent, up, scopes, iff⟩ | ⟨founded, _⟩
  · have missing : t.size ≤ parent.index := Nat.not_lt.mp (fun there => unfounded (iff.mpr there))
    have get : ∀ id, (t.apply change).get? id = if id.index = t.size then some s else t.get? id := by
      intro id
      rw [← get_push]
      unfold get?
      rw [scopes]
    have new : (t.apply change).get? ⟨t.size⟩ = some s := by rw [get, if_pos rfl]
    intro rooted
    by_cases itself : parent.index = t.size
    · obtain ⟨index⟩ := parent
      cases itself
      exact rooted.acyclic ⟨t.size⟩ (.single ⟨s, new, up⟩)
    · have outside : (t.apply change).get? parent = none := by
        rw [get, if_neg itself]
        exact Array.getElem?_eq_none missing
      have short : (t.apply change).chain ⟨t.size⟩ = [(⟨t.size⟩, s)] := by
        refine walks_unique (rooted.walks _) (.scope new ?_)
        rw [up]
        exact .gap outside
      have last := rooted.ends ⟨t.size⟩ (get_some_index new)
      unfold path at last
      rw [short] at last
      have zero : t.size = 0 := congrArg ScopeId.index (Option.some.inj last)
      omega
  · exact absurd founded unfounded

/-- The induction over a run. What is kept is that the tree so far is planted. -/
theorem all_founded_iff (changes : List Change) (planted : t.Planted) (some_there : 0 < t.size) :
    AllFounded t changes ↔ ∀ done rest, changes = done ++ rest → (t.applyAll done).Rooted := by
  induction changes generalizing t with
  | nil =>
    refine ⟨fun _ done rest whole => ?_, fun _ => trivial⟩
    rw [(List.append_eq_nil_iff.mp whole.symm).1]
    exact planted_rooted planted
  | cons change later ih =>
    have further := Nat.lt_of_lt_of_le some_there (size_apply t change)
    constructor
    · rintro ⟨founded, others⟩ done rest whole
      cases done with
      | nil => exact planted_rooted planted
      | cons first done =>
        obtain ⟨rfl, whole'⟩ := List.cons.inj whole
        exact (ih (apply_planted planted founded) further).mp others done rest whole'
    · intro always
      have founded : change.Founded t := Classical.byContradiction fun unfounded =>
        apply_unfounded some_there unfounded (always [change] later rfl)
      refine ⟨founded, (ih (apply_planted planted founded) further).mpr ?_⟩
      intro done rest whole
      exact always (change :: done) rest (by rw [whole]; rfl)

/-- All chains lead to the root all the time, and look-ups along them come to an end, if and only if every scope is made
below one that is there. -/
theorem chains_lead_to_the_root (changes : List Change) :
    AllFounded initial changes ↔ ∀ done rest, changes = done ++ rest → (initial.applyAll done).Rooted :=
  all_founded_iff changes planted_initial (by decide)

/-- A scope is made below one that is not there. Its chain ends where it begins, until the missing scope is made below
it in turn. Then both lie around themselves, and the way from them has no end. -/
theorem scopes_around_each_other :
    (initial.applyAll [.derive ⟨4⟩ .block]).path ⟨3⟩ = [⟨3⟩] ∧
      (∀ id ∈ ([⟨3⟩, ⟨4⟩] : List ScopeId), TransGen
        (initial.applyAll [.derive ⟨4⟩ .block, .derive ⟨3⟩ .binding]).ChildOf id id) ∧
      ∀ entries, ¬ (initial.applyAll [.derive ⟨4⟩ .block, .derive ⟨3⟩ .binding]).Walks (some ⟨3⟩) entries := by
  have up : (initial.applyAll [.derive ⟨4⟩ .block, .derive ⟨3⟩ .binding]).ChildOf ⟨3⟩ ⟨4⟩ := ⟨_, rfl, rfl⟩
  have back : (initial.applyAll [.derive ⟨4⟩ .block, .derive ⟨3⟩ .binding]).ChildOf ⟨4⟩ ⟨3⟩ := ⟨_, rfl, rfl⟩
  refine ⟨by decide, ?_, fun entries walk => walks_apart walk (.tail (.single up) back)⟩
  intro id member
  rcases List.mem_cons.mp member with rfl | last
  · exact .tail (.single up) back
  · rw [List.mem_singleton.mp last]
    exact .tail (.single back) up

end SemanticAnalysis.ScopeTree
