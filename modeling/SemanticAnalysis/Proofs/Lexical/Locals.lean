import Mathlib.Data.List.Nodup
import SemanticAnalysis.Proofs.Lexical.Resolution
/-!
Local variables. The variables of a function are numbered without gaps, so a variable that a name in its body means is
a parameter or declared in the body exactly if it lies within the scope of the function. Every name that is used has a
node of its own.
-/
namespace SemanticAnalysis
open SemanticAnalysis.Bound Construction

namespace Tree

def Ranged (lo hi : Nat) (visible : Visible) : Prop := ∀ entry ∈ visible, lo ≤ entry.2.index ∧ entry.2.index < hi

section Ranges
variable {lo : Nat} {visible : Visible}

theorem ranged_higher {hi hi' : Nat} (above : hi ≤ hi') (ranged : Ranged lo hi visible) : Ranged lo hi' visible := by
  intro entry member
  have := ranged entry member
  omega

theorem ranged_names {hi : Nat} (names : List String) (ranged : Ranged lo hi visible) :
    ∀ use ∈ names.map (fun name => (⟨name, visible⟩ : Use)), Ranged lo hi use.visible := by
  intro use member
  obtain ⟨name, _, rfl⟩ := List.mem_map.mp member
  exact ranged

theorem ranged_after {next : Nat} (s : Stmt) (below : lo ≤ next) (ranged : Ranged lo next visible) :
    Ranged lo (next + s.locals.length) (s.after visible next) := by
  cases s with
  | «variable» decl =>
    intro entry member
    simp only [Stmt.locals, List.length_singleton]
    rcases List.mem_cons.mp member with rfl | old
    · dsimp only
      omega
    · have := ranged entry old
      omega
  | _ => exact ranged_higher (Nat.le_add_right _ _) ranged

mutual

theorem Stmt.uses_ranged (s : Stmt) {visible : Visible} {next : Nat} (below : lo ≤ next)
    (ranged : Ranged lo next visible) :
    ∀ use ∈ s.uses visible next, Ranged lo (next + s.locals.length) use.visible :=
  match s with
  | .expr value _ => by
    rw [Stmt.uses, Stmt.locals]
    exact ranged_names _ ranged
  | .variable decl => by
    rw [Stmt.uses, Stmt.locals]
    exact ranged_names _ (ranged_higher (Nat.le_succ next) ranged)
  | .assign target value _ => by
    rw [Stmt.uses, Stmt.locals]
    exact ranged_names _ ranged
  | .ret value _ => by
    rw [Stmt.uses, Stmt.locals]
    exact ranged_names _ ranged
  | .branch condition thenBranch elseBranch _ => by
    rw [Stmt.uses, Stmt.locals]
    have ofThen := Block.uses_ranged thenBranch below ranged
    have later : lo ≤ next + thenBranch.locals.length := by omega
    have ofElse := Block.option_uses_ranged elseBranch later (ranged_higher (by omega) ranged)
    have counted : (thenBranch.locals ++ Block.optionLocals elseBranch).length
        = thenBranch.locals.length + (Block.optionLocals elseBranch).length := List.length_append
    intro use member
    rcases List.mem_append.mp member with first | third
    · rcases List.mem_append.mp first with here | second
      · exact ranged_higher (Nat.le_add_right _ _) (ranged_names _ ranged use here)
      · exact ranged_higher (by omega) (ofThen use second)
    · exact ranged_higher (by omega) (ofElse use third)
  | .block body => by
    rw [Stmt.uses, Stmt.locals]
    exact Block.uses_ranged body below ranged

theorem Block.uses_ranged (b : Block) {visible : Visible} {next : Nat} (below : lo ≤ next)
    (ranged : Ranged lo next visible) : ∀ use ∈ b.uses visible next, Ranged lo (next + b.locals.length) use.visible :=
  match b with
  | .mk stmts _ => by
    rw [Block.uses, Block.locals]
    exact Stmt.all_uses_ranged stmts below ranged

theorem Block.option_uses_ranged (b : Option Block) {visible : Visible} {next : Nat} (below : lo ≤ next)
    (ranged : Ranged lo next visible) :
    ∀ use ∈ Block.optionUses visible next b, Ranged lo (next + (Block.optionLocals b).length) use.visible :=
  match b with
  | none => by
    rw [Block.optionUses]
    simp
  | some block => by
    rw [Block.optionUses, Block.optionLocals]
    exact Block.uses_ranged block below ranged

theorem Stmt.all_uses_ranged (ss : List Stmt) {visible : Visible} {next : Nat} (below : lo ≤ next)
    (ranged : Ranged lo next visible) :
    ∀ use ∈ Stmt.allUses visible next ss, Ranged lo (next + (Stmt.allLocals ss).length) use.visible :=
  match ss with
  | [] => by
    rw [Stmt.allUses]
    simp
  | s :: rest => by
    rw [Stmt.allUses, Stmt.allLocals, List.length_append]
    have first := Stmt.uses_ranged s below ranged
    have later : lo ≤ next + s.locals.length := by omega
    have others := Stmt.all_uses_ranged rest later (ranged_after s below ranged)
    intro use member
    rcases List.mem_append.mp member with here | later
    · exact ranged_higher (by omega) (first use here)
    · exact ranged_higher (by omega) (others use later)

end

theorem function_uses_ranged (decl : FunctionDecl) (next : Nat) :
    ∀ use ∈ (Item.function decl).uses next, Ranged next (next + (Item.function decl).binders.length) use.visible := by
  have params : Ranged next (next + decl.params.length) (decl.visibleParams next) := by
    intro entry member
    obtain ⟨param, listed, rfl⟩ := List.mem_map.mp member
    have := List.snd_lt_of_mem_zipIdx listed
    dsimp only
    omega
  have inside := Block.option_uses_ranged decl.body (Nat.le_add_right next decl.params.length) params
  intro use member
  apply ranged_higher _ (inside use member)
  simp only [Item.binders, List.length_append, List.length_map]
  omega

end Ranges

variable {items : List Placed}

theorem numbered_lower {next : Nat} {entry : Nat × Placed}
    (member : entry ∈ numbered next items) : next ≤ entry.1 := by
  induction items generalizing next with
  | nil => simp [numbered] at member
  | cons i rest ih =>
    rw [numbered] at member
    rcases List.mem_cons.mp member with rfl | later
    · exact Nat.le_refl _
    · have := ih later
      omega

theorem numbered_cover {next k : Nat} (below : next ≤ k)
    (above : k < next + (items.flatMap (fun i => i.item.binders)).length) :
    ∃ entry ∈ numbered next items, entry.1 ≤ k ∧ k < entry.1 + entry.2.item.binders.length := by
  induction items generalizing next with
  | nil =>
    simp at above
    omega
  | cons i rest ih =>
    rw [List.flatMap_cons, List.length_append] at above
    by_cases here : k < next + i.item.binders.length
    · exact ⟨(next, i), List.mem_cons_self .., below, here⟩
    · have later : next + i.item.binders.length ≤ k := by omega
      obtain ⟨entry, member, bounds⟩ := ih later (by omega)
      exact ⟨entry, List.mem_cons_of_mem _ member, bounds⟩

theorem visible_in_lower {module : String} {entry : String × VariableId}
    (member : entry ∈ visibleIn items module) : entry.2.index < (globals items).length := by
  obtain ⟨numbered, kept, rfl⟩ := List.mem_map.mp member
  have := List.snd_lt_of_mem_zipIdx (List.mem_filter.mp kept).1
  omega

theorem in_module_lower {options : Options} {modules : List Module} {module name : String} {v : VariableId}
    (means : inModule options modules module name = some v) : v.index < (globals (placed modules)).length := by
  obtain ⟨m, found⟩ := ScopeTree.find_some_or means
  exact visible_in_lower (lookup_member found)

end Tree

theorem filter_map_injective {α β : Type} {f : α → Option β} {xs : List α} {x y : α} {b : β}
    (distinct : (xs.filterMap f).Nodup) (first : x ∈ xs) (second : y ∈ xs) (one : f x = some b)
    (other : f y = some b) : x = y := by
  induction xs with
  | nil => cases first
  | cons z rest ih =>
    have member : ∀ {w}, w ∈ rest → f w = some b → b ∈ rest.filterMap f :=
      fun there value => List.mem_filterMap.mpr ⟨_, there, value⟩
    rcases List.mem_cons.mp first with rfl | here
    · rcases List.mem_cons.mp second with rfl | there
      · rfl
      · rw [List.filterMap_cons, one] at distinct
        exact absurd (member there other) (List.nodup_cons.mp distinct).1
    · rcases List.mem_cons.mp second with rfl | there
      · rw [List.filterMap_cons, other] at distinct
        exact absurd (member here one) (List.nodup_cons.mp distinct).1
      · apply ih _ here there
        rw [List.filterMap_cons] at distinct
        cases value : f z with
        | none => rwa [value] at distinct
        | some c =>
          rw [value] at distinct
          exact (List.nodup_cons.mp distinct).2

namespace Program

def Mentions (p : Program) (i : Identifier) : Prop := ∃ d, i ∈ p.identifiers d

def HasNode (p : Program) (n : Node) : Prop := ∃ d, n ∈ p.nodesOf d

variable {p : Program}

theorem identifiers_variable {id : VariableId} {v : Variable} (found : p.vars[id.index]? = some v) :
    p.identifiers (.variable id) = Expr.optionIdentifiers v.initializer := by
  rw [identifiers, found]
  rfl

theorem identifiers_struct {id : StructId} {s : Struct} (found : p.structs[id.index]? = some s) :
    p.identifiers (.struct id) = Expr.allIdentifiers s.defaults := by
  rw [identifiers, found]
  rfl

theorem nodes_variable {id : VariableId} {v : Variable} (found : p.vars[id.index]? = some v) :
    p.nodesOf (.variable id) = Expr.optionNodes v.initializer := by
  rw [nodesOf, initialNodes, found]
  rfl

theorem nodes_struct {id : StructId} {s : Struct} (found : p.structs[id.index]? = some s) :
    p.nodesOf (.struct id) = Expr.allNodes s.defaults := by
  rw [nodesOf, found]
  rfl

theorem identifiers_eq (p : Program) (d : Declaration) : p.identifiers d = (p.nodesOf d).filterMap Node.identifier? := by
  cases d with
  | function id =>
    cases found : p.functions[id.index]? with
    | none => simp [identifiers, nodesOf, found]
    | some f => rw [identifiers_function found, nodes_function found, steps_identifiers_eq]
  | «variable» id =>
    cases found : p.vars[id.index]? with
    | none => simp [identifiers, nodesOf, initialNodes, found]
    | some v =>
      rw [identifiers_variable found, nodes_variable found]
      rfl
  | struct id =>
    cases found : p.structs[id.index]? with
    | none => simp [identifiers, nodesOf, found]
    | some s =>
      rw [identifiers_struct found, nodes_struct found]
      rfl

theorem mentions_iff {i : Identifier} : p.Mentions i ↔ p.HasNode (.identifier i.node i.name i.site) := by
  constructor
  · rintro ⟨d, member⟩
    rw [identifiers_eq] at member
    obtain ⟨n, there, same⟩ := List.mem_filterMap.mp member
    cases n with
    | identifier node name site =>
      cases same
      exact ⟨d, there⟩
    | _ => cases same
  · rintro ⟨d, member⟩
    refine ⟨d, ?_⟩
    rw [identifiers_eq]
    exact List.mem_filterMap.mpr ⟨_, member, rfl⟩

theorem introduced_nodes_member {steps : List Step} {v : VariableId} (introduced : .introduce v ∈ steps) :
    p.nodesOf (.variable v) ⊆ p.stepsNodes steps := by
  intro n member
  exact List.mem_flatMap.mpr ⟨_, introduced, member⟩

section Lexical
variable {p : Program} {modules : List Tree.Module} {ds : List Declared} (lexical : p.Lexical modules ds)
include lexical

theorem lexical_size : p.vars.size = (Tree.globals (Tree.placed modules)).length
    + ((Tree.placed modules).flatMap (fun i => i.item.binders)).length := by
  have lengths := congrArg List.length lexical.binders
  simpa [Tree.allBinders] using lengths

theorem body_closed {id : FunctionId} {f : Function} (found : p.functions[id.index]? = some f) (body : f.body ≠ none) :
    ∃ module home next decl, p.scopes.findModule? module = some home ∧
      (Tree.globals (Tree.placed modules)).length ≤ next ∧ p.Closed home id next decl f ∧ .function id decl ∈ ds ∧
      ⟨module, .function decl⟩ ∈ Tree.placed modules := by
  obtain ⟨d, listed, number⟩ := List.mem_filterMap.mp (lexical.bodies id.index f found body)
  obtain ⟨⟨next, module, item⟩, entry, home, named, settled⟩ := related_right lexical.settled listed
  cases settled with
  | @inner id' decl g closed =>
    obtain ⟨k⟩ := id
    obtain ⟨k'⟩ := id'
    cases number
    have same := closed.opened.found
    rw [found] at same
    cases same
    have placed : ⟨module, .function decl⟩ ∈ Tree.placed modules :=
      Tree.numbered_items _ (Tree.placed modules) ▸ List.mem_map_of_mem entry
    exact ⟨module, home, next, decl, named, Tree.numbered_lower entry, closed, listed, placed⟩
  | outer laid other =>
    rw [other] at number
    cases number

theorem variable_places {v : VariableId} (there : p.HasVariable v) :
    .variable v ∈ ds ∨ p.Plain v ∨
      ∃ id f decl, .function id decl ∈ ds ∧ p.functions[id.index]? = some f ∧
        .introduce v ∈ Block.optionSteps f.body := by
  obtain ⟨k⟩ := v
  change k < p.vars.size at there
  rw [lexical_size lexical] at there
  by_cases global : k < (Tree.globals (Tree.placed modules)).length
  · rw [← List.mem_range, ← lexical.globals] at global
    obtain ⟨d, listed, number⟩ := List.mem_filterMap.mp global
    cases d with
    | «variable» id =>
      obtain ⟨k'⟩ := id
      cases number
      exact .inl listed
    | _ => cases number
  · obtain ⟨⟨next, module, item⟩, entry, lower, upper⟩ := Tree.numbered_cover (Nat.le_of_not_lt global) there
    obtain ⟨d, listed, home, named, settled⟩ := related_left lexical.settled entry
    cases settled with
    | @inner id decl f closed =>
      simp only [Tree.Item.binders, List.length_append, List.length_map] at upper
      right
      by_cases parameter : k < next + decl.params.length
      · left
        apply closed.plain
        rw [closed.parameters]
        exact List.mem_map.mpr ⟨k, List.mem_range'_1.mpr ⟨lower, parameter⟩, rfl⟩
      · right
        refine ⟨id, f, decl, listed, closed.opened.found, introduce_mem.mpr ?_⟩
        rw [closed.introduced, List.mem_range'_1]
        dsimp only
        omega
    | outer laid other =>
      exfalso
      cases laid with
      | ofFunction opened origin => cases other
      | _ => simp [Tree.Item.binders] at upper; omega

theorem node_declared {n : Node} (has : p.HasNode n) : ∃ d ∈ ds, n ∈ p.nodesOf d.declaration := by
  obtain ⟨d, member⟩ := has
  cases d with
  | function id =>
    cases found : p.functions[id.index]? with
    | none => simp [nodesOf, found] at member
    | some f =>
      have body : f.body ≠ none := by
        intro none
        rw [nodes_function found, none] at member
        cases member
      obtain ⟨_, _, _, decl, _, _, _, listed, _⟩ := body_closed lexical found body
      exact ⟨_, listed, member⟩
  | «variable» v =>
    cases found : p.vars[v.index]? with
    | none => simp [nodesOf, initialNodes, found] at member
    | some w =>
      have there : p.HasVariable v := (Array.getElem?_eq_some_iff.mp found).1
      rcases variable_places lexical there with global | plain | ⟨id, f, decl, listed, here, introduced⟩
      · exact ⟨_, global, member⟩
      · obtain ⟨w', found', none, _⟩ := plain
        rw [nodes_variable found', none] at member
        cases member
      · refine ⟨_, listed, ?_⟩
        rw [Declared.declaration, nodes_function here]
        exact introduced_nodes_member introduced member
  | struct id =>
    cases found : p.structs[id.index]? with
    | none => simp [nodesOf, found] at member
    | some s =>
      have there := (Array.getElem?_eq_some_iff.mp found).1
      rw [← List.mem_range, ← lexical.structs] at there
      obtain ⟨d, listed, number⟩ := List.mem_filterMap.mp there
      cases d with
      | struct id' type home decl =>
        obtain ⟨k⟩ := id
        obtain ⟨k'⟩ := id'
        cases number
        exact ⟨_, listed, member⟩
      | _ => cases number

theorem node_listed {n : Node} (has : p.HasNode n) : n ∈ ds.flatMap p.outerNodes ++ ds.flatMap p.innerNodes := by
  obtain ⟨d, listed, member⟩ := node_declared lexical has
  rw [List.mem_append, List.mem_flatMap, List.mem_flatMap]
  cases d with
  | function id decl => exact .inr ⟨_, listed, member⟩
  | _ => exact .inl ⟨_, listed, member⟩

theorem node_unique {n m : Node} {id : NodeId} (first : p.HasNode n) (second : p.HasNode m) (one : n.id? = some id)
    (other : m.id? = some id) : n = m := by
  have number : ∀ {k : Node}, k.id? = some id → k.number? = some id.index := by
    intro k same
    rw [Node.number?, same]
    rfl
  exact filter_map_injective lexical.nodes.ascends.nodup (node_listed lexical first) (node_listed lexical second)
    (number one) (number other)

theorem mentions_unique {i j : Identifier} (first : p.Mentions i) (second : p.Mentions j) (same : i.node = j.node) :
    i = j := by
  have equal := node_unique lexical (mentions_iff.mp first) (mentions_iff.mp second) rfl (congrArg some same.symm)
  obtain ⟨node, name, site⟩ := i
  cases equal
  rfl

theorem own_variable_iff {id : FunctionId} {f : Function} (found : p.functions[id.index]? = some f) {i : Identifier}
    (used : i ∈ p.stepsIdentifiers (Block.optionSteps f.body)) {v : VariableId}
    (means : p.scopes.findVariable? i.site.scope i.name = some v) :
    p.scopes.isWithin i.site.scope v f.scope = true ↔ v ∈ f.parameters ∨ .introduce v ∈ Block.optionSteps f.body := by
  have body : f.body ≠ none := by
    intro none
    rw [none] at used
    cases used
  obtain ⟨module, home, next, decl, named, above, closed, _⟩ := body_closed lexical found body
  obtain ⟨use, listed, name, within⟩ := related_left closed.meets used
  obtain ⟨s, outer, _, up, _⟩ := closed.opened.scope
  have ordered := lexical.grounded.ordered
  have ranged := Tree.function_uses_ranged decl next use listed
  -- the function's own variables are those with its numbers
  have own : v ∈ f.parameters ∨ .introduce v ∈ Block.optionSteps f.body ↔
      next ≤ v.index ∧ v.index < next + (Tree.Item.function decl).binders.length := by
    obtain ⟨k⟩ := v
    have counted : (Tree.Item.function decl).binders.length
        = decl.params.length + (Tree.Block.optionLocals decl.body).length := by
      simp [Tree.Item.binders]
    rw [closed.parameters, introduce_mem, closed.introduced, counted, List.mem_range'_1, List.mem_map]
    constructor
    · rintro (⟨k', member, same⟩ | bounds)
      · cases same
        rw [List.mem_range'_1] at member
        dsimp only
        omega
      · dsimp only at bounds ⊢
        omega
    · rintro ⟨lower, upper⟩
      dsimp only at lower upper
      by_cases parameter : k < next + decl.params.length
      · exact .inl ⟨k, List.mem_range'_1.mpr ⟨lower, parameter⟩, rfl⟩
      · exact .inr (by dsimp only; omega)
  rw [own, ScopeTree.is_within_iff ordered within]
  constructor
  · intro member
    obtain ⟨entry, there, rfl⟩ := List.mem_map.mp member
    exact ranged entry there
  · rintro ⟨lower, _⟩
    rw [ScopeTree.find_variable_within ordered outer up within, find_variable_home lexical named] at means
    rcases Option.or_eq_some_iff.mp means with inside | ⟨_, outside⟩
    · exact List.mem_map.mpr ⟨_, lookup_member inside, rfl⟩
    · have := Tree.in_module_lower outside
      omega

end Lexical

end Program

end SemanticAnalysis
