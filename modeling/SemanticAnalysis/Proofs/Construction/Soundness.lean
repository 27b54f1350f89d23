import SemanticAnalysis.Proofs.Analysis.Consistency
import SemanticAnalysis.Proofs.Construction.Logic
/-!
Construction gives consistent programs, and it fails only at malformed calls. Each step leaves a consistent program
that has everything it had before, so identities given out early stay good until the end.
-/
namespace SemanticAnalysis
open Construction SemanticAnalysis.Tree ScopeTree TypeHierarchy

namespace Program

structure Grows (p q : Program) : Prop where
  functions : p.functions.size ≤ q.functions.size
  vars : p.vars.size ≤ q.vars.size
  structs : p.structs.size ≤ q.structs.size
  types : p.types.size ≤ q.types.size

theorem grows_refl (p : Program) : p.Grows p := ⟨Nat.le_refl _, Nat.le_refl _, Nat.le_refl _, Nat.le_refl _⟩

theorem grows_trans {p q r : Program} (first : p.Grows q) (second : q.Grows r) : p.Grows r :=
  ⟨Nat.le_trans first.functions second.functions, Nat.le_trans first.vars second.vars,
    Nat.le_trans first.structs second.structs, Nat.le_trans first.types second.types⟩

section Growth
variable {p q : Program} (grows : p.Grows q)
include grows

theorem has_function_grows {f : FunctionId} (there : p.HasFunction f) : q.HasFunction f :=
  Nat.lt_of_lt_of_le there grows.functions

theorem has_variable_grows {v : VariableId} (there : p.HasVariable v) : q.HasVariable v :=
  Nat.lt_of_lt_of_le there grows.vars

theorem has_type_grows {t : TypeId} (there : p.types.Has t) : q.types.Has t :=
  Nat.lt_of_lt_of_le there grows.types

theorem has_declaration_grows {d : Declaration} (there : p.HasDeclaration d) : q.HasDeclaration d :=
  match d, there with
  | .function _, there => has_function_grows grows there
  | .variable _, there => has_variable_grows grows there
  | .struct _, there => Nat.lt_of_lt_of_le there grows.structs

theorem has_entries_grows {s : Scope} (there : p.HasEntries s) : q.HasEntries s :=
  ⟨fun e member => has_variable_grows grows (there.vars e member),
    fun e member => has_function_grows grows (there.functions e member),
    fun e member => has_type_grows grows (there.types e member)⟩

theorem scopes_grow {scopes : ScopeTree} (all : scopes.All p.HasEntries) : scopes.All q.HasEntries :=
  fun id s found => has_entries_grows grows (all id s found)

end Growth

/-- The second program is consistent and has everything that the first one has. -/
structure Evolves (p q : Program) : Prop where
  grows : p.Grows q
  consistent : q.Consistent

theorem evolves_trans {p q r : Program} (first : p.Grows q) (second : q.Evolves r) : p.Evolves r :=
  ⟨grows_trans first second.grows, second.consistent⟩

section Steps
variable {p : Program} (consistent : p.Consistent)
include consistent

theorem evolves_refl : p.Evolves p := ⟨grows_refl p, consistent⟩

theorem evolves_nodes (nodes : Nat) : p.Evolves { p with nodes } := by
  have grows : p.Grows { p with nodes } := ⟨Nat.le_refl _, Nat.le_refl _, Nat.le_refl _, Nat.le_refl _⟩
  exact ⟨grows, { consistent with scopes := scopes_grow grows consistent.scopes }⟩

theorem evolves_scopes {scopes : ScopeTree} (all : scopes.All p.HasEntries) : p.Evolves { p with scopes } := by
  have grows : p.Grows { p with scopes } := ⟨Nat.le_refl _, Nat.le_refl _, Nat.le_refl _, Nat.le_refl _⟩
  exact ⟨grows, { consistent with scopes := scopes_grow grows all }⟩

theorem evolves_push_function {f : Bound.Function} (id : f.id = ⟨p.functions.size⟩) (body : f.body = none) :
    p.Evolves { p with functions := p.functions.push f } := by
  have grows : p.Grows { p with functions := p.functions.push f } :=
    ⟨by simp, Nat.le_refl _, Nat.le_refl _, Nat.le_refl _⟩
  refine ⟨grows, { consistent with
    scopes := scopes_grow grows consistent.scopes, functionIds := ?_, bodies := ?_, owners := ?_, declared := ?_ }⟩
  · intro i g found
    rw [Array.getElem?_push] at found
    split at found
    · rename_i last
      cases found
      rw [id, last]
    · exact consistent.functionIds i g found
  · intro i g found
    rw [Array.getElem?_push] at found
    split at found
    · cases found
      rw [body]
      simp [Bound.Block.optionSteps]
    · exact consistent.bodies i g found
  · intro i v found g index param origin
    exact has_function_grows grows (consistent.owners i v found g index param origin)
  · exact fun d member => has_declaration_grows grows (consistent.declared d member)

theorem evolves_push_variable {v : Bound.Variable}
    (owner : ∀ f index param, v.origin = .parameter f index param → p.HasFunction f) :
    p.Evolves { p with vars := p.vars.push v } := by
  have grows : p.Grows { p with vars := p.vars.push v } :=
    ⟨Nat.le_refl _, by simp, Nat.le_refl _, Nat.le_refl _⟩
  refine ⟨grows, { consistent with
    scopes := scopes_grow grows consistent.scopes, bodies := ?_, owners := ?_, declared := ?_ }⟩
  · exact fun i f found id member => has_variable_grows grows (consistent.bodies i f found id member)
  · intro i w found
    rw [Array.getElem?_push] at found
    split at found
    · cases found
      exact owner
    · exact consistent.owners i w found
  · exact fun d member => has_declaration_grows grows (consistent.declared d member)

theorem evolves_push_struct {s : Bound.Struct} (id : s.id.index ≤ p.structs.size) :
    p.Evolves { p with structs := p.structs.push s, structTypes := p.structTypes.insert s.type s.id } := by
  let q : Program := { p with structs := p.structs.push s, structTypes := p.structTypes.insert s.type s.id }
  have grows : p.Grows q := ⟨Nat.le_refl _, Nat.le_refl _, by simp [q], Nat.le_refl _⟩
  refine ⟨grows, { consistent with
    scopes := scopes_grow grows consistent.scopes, declared := ?_, structTypes := ?_ }⟩
  · exact fun d member => has_declaration_grows grows (consistent.declared d member)
  · intro type k entry
    rw [Table.find_insert] at entry
    split at entry
    · cases entry
      change s.id.index < (p.structs.push s).size
      simpa [Nat.lt_succ_iff] using id
    · exact has_declaration_grows (d := .struct k) grows (consistent.structTypes type k entry)

theorem evolves_types {types : TypeHierarchy} (sealed : types.Sealed) (size : p.types.size ≤ types.size)
    (implied : ∀ t, p.types.Has t → types.implied t = p.types.implied t) : p.Evolves { p with types } := by
  have grows : p.Grows { p with types } := ⟨Nat.le_refl _, Nat.le_refl _, Nat.le_refl _, size⟩
  exact ⟨grows, { consistent with
    hierarchy := sealed
    builtinTypes := Nat.le_trans consistent.builtinTypes size
    implied := fun t builtin =>
      (implied t (has_builtin consistent builtin)).trans (consistent.implied t builtin)
    scopes := scopes_grow grows consistent.scopes }⟩

theorem evolves_push_module {m : Bound.Module} (there : ∀ d ∈ m.declarations, p.HasDeclaration d) :
    p.Evolves { p with modules := p.modules ++ [m] } := by
  have grows : p.Grows { p with modules := p.modules ++ [m] } :=
    ⟨Nat.le_refl _, Nat.le_refl _, Nat.le_refl _, Nat.le_refl _⟩
  refine ⟨grows, { consistent with scopes := scopes_grow grows consistent.scopes, declared := ?_ }⟩
  intro d member
  simp only [declarations, List.flatMap_append, List.mem_append, List.flatMap_cons, List.flatMap_nil,
    List.append_nil] at member
  exact member.elim (consistent.declared d) (there d)

theorem evolves_set_body (id : FunctionId) (parameters : List VariableId) {body : Option Bound.Block}
    (locals : ∀ v, .introduce v ∈ Bound.Block.optionSteps body → p.HasVariable v) :
    p.Evolves { p with functions := p.functions.modify id.index (fun f => { f with parameters, body }) } := by
  have grows : p.Grows
      { p with functions := p.functions.modify id.index (fun f => { f with parameters, body }) } :=
    ⟨by simp, Nat.le_refl _, Nat.le_refl _, Nat.le_refl _⟩
  refine ⟨grows, { consistent with
    scopes := scopes_grow grows consistent.scopes, functionIds := ?_, bodies := ?_, owners := ?_, declared := ?_ }⟩
  · intro i g found
    rw [Array.getElem?_modify] at found
    split at found
    · obtain ⟨f, here, rfl⟩ := Option.map_eq_some_iff.mp found
      exact consistent.functionIds i f here
    · exact consistent.functionIds i g found
  · intro i g found
    rw [Array.getElem?_modify] at found
    split at found
    · obtain ⟨f, here, rfl⟩ := Option.map_eq_some_iff.mp found
      exact locals
    · exact consistent.bodies i g found
  · intro i v found g index param origin
    exact has_function_grows grows (consistent.owners i v found g index param origin)
  · exact fun d member => has_declaration_grows grows (consistent.declared d member)

end Steps

end Program

mutual

theorem Bound.Expr.bind_builds (scope : ScopeId) :
    ∀ (e : Tree.Expr) (n : Nat), Builds (Bound.Expr.bind scope e) n (faults e.calls) (fun _ _ => True)
  | .name .., n => builds_step (t := n + 1) rfl (builds_pure trivial)
  | .number .., _ => builds_pure trivial
  | .null _, _ => builds_pure trivial
  | .invocation (.name _ _) args _, n => by
    rw [Tree.Expr.calls, faults_well_formed rfl, Tree.Expr.calls, List.nil_append, Bound.Expr.bind]
    refine builds_last (Bound.Expr.bind_all_builds scope args n) (fun args t _ => ?_)
    exact builds_step (t := t + 1) rfl (builds_pure trivial)
  | .invocation (.member object _ _ _) args _, n => by
    rw [Tree.Expr.calls, faults_well_formed rfl, Tree.Expr.calls, faults_append, Bound.Expr.bind]
    refine builds_bind (Bound.Expr.bind_builds scope object n) (fun object t _ => ?_)
    refine builds_last (Bound.Expr.bind_all_builds scope args t) (fun args u _ => ?_)
    exact builds_step (t := u + 1) rfl (builds_pure trivial)
  | .invocation (.number ..) _ _, _ => rfl
  | .invocation (.null _) _ _, _ => rfl
  | .invocation (.invocation ..) _ _, _ => rfl
  | .invocation (.binary ..) _ _, _ => rfl
  | .invocation (.unary ..) _ _, _ => rfl
  | .invocation (.paren ..) _ _, _ => rfl
  | .member object _ _ _, n => by
    rw [Tree.Expr.calls, Bound.Expr.bind]
    refine builds_last (Bound.Expr.bind_builds scope object n) (fun object t _ => ?_)
    exact builds_step (t := t + 1) rfl (builds_pure trivial)
  | .binary left _ right _, n => by
    rw [Tree.Expr.calls, faults_append, Bound.Expr.bind]
    refine builds_bind (Bound.Expr.bind_builds scope left n) (fun left t _ => ?_)
    refine builds_last (Bound.Expr.bind_builds scope right t) (fun right u _ => ?_)
    exact builds_step (t := u + 1) rfl (builds_pure trivial)
  | .unary _ operand _, n => by
    rw [Tree.Expr.calls, Bound.Expr.bind]
    refine builds_last (Bound.Expr.bind_builds scope operand n) (fun operand t _ => ?_)
    exact builds_step (t := t + 1) rfl (builds_pure trivial)
  | .paren inner _, n => by
    rw [Tree.Expr.calls, Bound.Expr.bind]
    exact builds_last (Bound.Expr.bind_builds scope inner n) (fun inner t _ => builds_pure trivial)

theorem Bound.Expr.bind_all_builds (scope : ScopeId) :
    ∀ (es : List Tree.Expr) (n : Nat),
      Builds (Bound.Expr.bindAll scope es) n (faults (Tree.Expr.allCalls es)) (fun _ _ => True)
  | [], _ => builds_pure trivial
  | e :: rest, n => by
    rw [Tree.Expr.allCalls, faults_append, Bound.Expr.bindAll]
    refine builds_bind (Bound.Expr.bind_builds scope e n) (fun e t _ => ?_)
    exact builds_last (Bound.Expr.bind_all_builds scope rest t) (fun rest u _ => builds_pure trivial)

end

namespace Construction
open Program

variable {p : Program}

theorem binding_builds {α : Type} {x : Bound.Binding α} {faults : List Span} (consistent : p.Consistent)
    (inner : Builds x p.nodes faults (fun _ _ => True)) :
    Builds (fun p => do
      let (a, nodes) ← x p.nodes
      pure (a, { p with nodes }) : Construction α) p faults (fun _ q => p.Evolves q) := by
  cases faults with
  | nil =>
    obtain ⟨a, nodes, ran, _⟩ := inner
    refine ⟨a, { p with nodes }, ?_, evolves_nodes consistent nodes⟩
    dsimp only
    rw [ran]
    rfl
  | cons span rest =>
    unfold Builds
    dsimp only
    rw [inner]
    rfl

section Pieces
variable (consistent : p.Consistent)
include consistent

theorem bind_expr_builds (scope : ScopeId) (e : Tree.Expr) :
    Builds (bindExpr scope e) p (faults e.calls) (fun _ q => p.Evolves q) :=
  binding_builds consistent (Bound.Expr.bind_builds scope e p.nodes)

theorem bind_option_builds (scope : ScopeId) (e : Option Tree.Expr) :
    Builds (bindOption scope e) p (faults (Tree.Expr.optionCalls e)) (fun _ q => p.Evolves q) := by
  refine binding_builds consistent ?_
  cases e with
  | none => exact builds_pure trivial
  | some e =>
    rw [Bound.Expr.bindOption, map_eq_pure_bind]
    exact builds_last (Bound.Expr.bind_builds scope e p.nodes) (fun e t _ => builds_pure trivial)

theorem evolves_new_scope (parent : ScopeId) (kind : ScopeKind) :
    p.Evolves { p with scopes := (p.scopes.derive parent kind).2 } :=
  evolves_scopes consistent (all_push consistent.scopes ⟨by simp, by simp, by simp⟩)

theorem evolves_reveal (scope : ScopeId) (name : String) {v : VariableId} (there : p.HasVariable v) :
    p.Evolves { p with scopes := p.scopes.addVariable scope name v } := by
  refine evolves_scopes consistent (all_modify scope consistent.scopes (fun s entries => ?_))
  exact ⟨each_snoc entries.vars there, entries.functions, entries.types⟩

theorem evolves_add_function (scope : ScopeId) (name : String) {f : FunctionId} (there : p.HasFunction f) :
    p.Evolves { p with scopes := p.scopes.addFunction scope name f } := by
  refine evolves_scopes consistent (all_modify scope consistent.scopes (fun s entries => ?_))
  exact ⟨entries.vars, each_snoc entries.functions there, entries.types⟩

theorem evolves_add_type (scope : ScopeId) (name : String) {t : TypeId} (there : p.types.Has t) :
    p.Evolves { p with scopes := p.scopes.addType scope name t } := by
  refine evolves_scopes consistent (all_modify scope consistent.scopes (fun s entries => ?_))
  exact ⟨entries.vars, entries.functions, each_snoc entries.types there⟩

theorem new_function_builds (home : ScopeId) (name : String) (origin : Bound.Function.Origin) :
    Builds (newFunction home name origin) p [] (fun id q => p.Evolves q ∧ q.HasFunction id) := by
  have opened := evolves_new_scope consistent home (.function ⟨p.functions.size⟩)
  have pushed := evolves_push_function opened.consistent
    (f := { id := ⟨p.functions.size⟩, origin, home, scope := ⟨p.scopes.size⟩ }) rfl rfl
  have named := evolves_add_function (f := ⟨p.functions.size⟩) pushed.consistent home name (by simp [HasFunction])
  refine builds_done rfl ⟨evolves_trans (grows_trans opened.grows pushed.grows) named, ?_⟩
  simp [HasFunction]

theorem new_variable_builds (scope : ScopeId) {origin : Bound.Variable.Origin} (initializer : Option Bound.Expr)
    (owner : ∀ f index param, origin = .parameter f index param → p.HasFunction f) :
    Builds (newVariable scope origin initializer) p [] (fun id q => p.Evolves q ∧ q.HasVariable id) := by
  have pushed := evolves_push_variable consistent
    (v := { id := ⟨p.vars.size⟩, origin, scope, initializer }) owner
  exact builds_done rfl ⟨pushed, by simp [HasVariable]⟩

theorem declare_type_builds (package : List String) (home : ScopeId) (name : String) :
    Builds (declareType package home name) p [] (fun t q => p.Evolves q ∧ q.types.Has t) := by
  have size : (p.types.declare ⟨name, package⟩).2.size = p.types.size + 1 := by
    simp [TypeHierarchy.declare, TypeHierarchy.push, TypeHierarchy.size]
  have declared := evolves_types consistent
    (declare_sealed consistent.hierarchy ⟨name, package⟩) (by omega)
    (fun t there => implied_push _ there)
  have there : (p.types.declare ⟨name, package⟩).2.Has ⟨p.types.size⟩ := by
    change p.types.size < _
    omega
  have named := evolves_add_type declared.consistent home name there
  exact builds_done rfl ⟨evolves_trans declared.grows named, there⟩

theorem builds_each {α β : Type} {g : α → Construction β} (xs : List α)
    (each : ∀ x ∈ xs, ∀ q, p.Evolves q → Builds (g x) q [] (fun _ r => q.Evolves r)) :
    Builds (xs.mapM g) p [] (fun _ q => p.Evolves q) := by
  refine builds_map_clear (J := fun _ _ q => p.Evolves q) xs (evolves_refl consistent) ?_
  intro done x rest results q whole evolved
  have member : x ∈ xs := by
    rw [whole]
    simp
  exact builds_weaken (each x member q evolved) (fun _ _ further => evolves_trans evolved.grows further)

def Declared.Known (p : Program) (d : Declared) : Prop :=
  p.HasDeclaration d.declaration ∧ ∀ id type home decl, d = .struct id type home decl → p.types.Has type

def Declared.bodyFaults : Declared → List Span
  | .function _ decl => faults (Tree.Block.optionCalls decl.body)
  | _ => []

theorem declare_struct_builds (package : List String) (home : ScopeId) (decl : Tree.StructDecl) :
    Builds (declareStruct package home decl) p (faults (Item.outerCalls (.struct decl)))
      (fun d q => p.Evolves q ∧ d.Known q ∧ d.bodyFaults = []) := by
  have members : ∀ {q : Program} (scope : ScopeId), q.Consistent →
      Builds (decl.members.mapM (bindMember scope)) q (faults (Item.outerCalls (.struct decl)))
        (fun _ r => q.Evolves r) := by
    intro q scope consistent
    rw [Item.outerCalls, faults_flat_map]
    refine builds_map (J := fun _ _ r => q.Evolves r) decl.members (evolves_refl consistent) ?_
    intro done m rest results r _ evolved
    refine builds_last (bind_option_builds evolved.consistent scope m.default) (fun default r' further => ?_)
    exact builds_pure (evolves_trans evolved.grows further)
  refine builds_step (a := p) (t := p) rfl ?_
  refine builds_clear (declare_type_builds consistent package home decl.name.name)
    (fun type q ⟨evolved, there⟩ => ?_)
  refine builds_step rfl ?_
  have opened := evolves_new_scope evolved.consistent home (.struct ⟨p.structs.size⟩)
  refine builds_last (members _ opened.consistent) (fun bound r grown => ?_)
  have grows := grows_trans evolved.grows (grows_trans opened.grows grown.grows)
  have pushed := evolves_push_struct grown.consistent
    (s := { id := ⟨p.structs.size⟩, decl, type, scope := ⟨q.scopes.size⟩, members := bound }) grows.structs
  refine builds_step rfl (builds_pure ⟨evolves_trans grows pushed, ⟨?_, ?_⟩, rfl⟩)
  · change p.structs.size < _
    rw [Array.size_push]
    exact Nat.lt_succ_of_le grows.structs
  · intro id type' home' decl' same
    cases same
    exact has_type_grows (grows_trans opened.grows grown.grows) there

theorem declare_item_builds (package : List String) (home : ScopeId) (item : Tree.Item) :
    Builds (declareItem package home item) p (faults item.outerCalls)
      (fun d q => p.Evolves q ∧ d.Known q ∧ d.bodyFaults = faults item.bodyCalls) :=
  match item with
  | .function decl => by
    refine builds_clear (new_function_builds consistent home decl.name.name (.declared decl))
      (fun id q ⟨evolved, there⟩ => builds_pure ⟨evolved, ⟨there, ?_⟩, rfl⟩)
    intro _ _ _ _ impossible
    cases impossible
  | .variable decl => by
    refine builds_last (bind_option_builds consistent home decl.initializer) (fun initializer q evolved => ?_)
    refine builds_clear (new_variable_builds evolved.consistent home initializer (by simp))
      (fun id r ⟨grown, there⟩ => ?_)
    have named := evolves_reveal grown.consistent home decl.name.name there
    refine builds_step rfl
      (builds_pure ⟨evolves_trans (grows_trans evolved.grows grown.grows) named, ⟨there, ?_⟩, rfl⟩)
    intro _ _ _ _ impossible
    cases impossible
  | .struct decl => declare_struct_builds consistent package home decl

end Pieces

theorem known_grows {q : Program} {d : Declared} (grows : p.Grows q) (known : d.Known p) : d.Known q :=
  ⟨has_declaration_grows grows known.1,
    fun id type home decl same => has_type_grows grows (known.2 id type home decl same)⟩

theorem declare_module_builds (consistent : p.Consistent) (m : Tree.Module) :
    Builds (declareModule m) p (m.items.flatMap (fun item => faults item.outerCalls))
      (fun declared q => p.Evolves q ∧ (∀ d ∈ declared.2, d.Known q) ∧
        declared.2.flatMap Declared.bodyFaults = m.items.flatMap (fun item => faults item.bodyCalls)) := by
  have opened : ∀ name parent, p.Evolves { p with scopes := (p.scopes.moduleScope name parent).2 } := by
    intro name parent
    unfold ScopeTree.moduleScope
    split
    · exact evolves_refl consistent
    · refine evolves_scopes consistent ?_
      exact all_push consistent.scopes ⟨by simp, by simp, by simp⟩
  generalize parent_eq : (if p.options.implicitBuiltinImport then ScopeId.builtin else ScopeId.program) = parent
  have start := opened m.name parent
  refine builds_step (a := (p.scopes.moduleScope m.name parent).1)
    (t := { p with scopes := (p.scopes.moduleScope m.name parent).2 }) (by rw [← parent_eq]; rfl) ?_
  generalize ({ p with scopes := (p.scopes.moduleScope m.name parent).2 } : Program) = q at start ⊢
  refine builds_last (builds_map
    (J := fun done (declared : List Declared) r => q.Evolves r ∧ (∀ d ∈ declared, d.Known r) ∧
      declared.flatMap Declared.bodyFaults = done.flatMap (fun item => faults item.bodyCalls))
    m.items ⟨evolves_refl start.consistent, by simp, rfl⟩ ?_) ?_
  · rintro done item rest results r _ ⟨evolved, known, same⟩
    refine builds_weaken (declare_item_builds evolved.consistent m.package _ item) ?_
    rintro d r' ⟨further, new, same'⟩
    refine ⟨evolves_trans evolved.grows further, ?_, by simp [same, same']⟩
    exact each_snoc (fun e old => known_grows further.grows (known e old)) new
  · rintro declared r ⟨evolved, known, same⟩
    have grows := grows_trans start.grows evolved.grows
    refine builds_step rfl (builds_pure ⟨evolves_trans grows (evolves_push_module evolved.consistent ?_), ?_, same⟩)
    · intro d member
      obtain ⟨e, listed, rfl⟩ := List.mem_map.mp member
      exact (known e listed).1
    · exact fun d member => known_grows ⟨Nat.le_refl _, Nat.le_refl _, Nat.le_refl _, Nat.le_refl _⟩ (known d member)

theorem resolve_import_builds (consistent : p.Consistent) (scope : ScopeId) (i : Tree.Import) :
    Builds (resolveImport scope i) p [] (fun _ q => p.Evolves q) := by
  have added : ∀ imported, p.Evolves { p with scopes := p.scopes.addImport scope imported } := by
    intro imported
    refine evolves_scopes consistent (all_modify scope consistent.scopes (fun s entries => ?_))
    split
    · exact entries
    · exact ⟨entries.vars, entries.functions, entries.types⟩
  refine builds_done rfl ?_
  split
  · exact added _
  · exact evolves_refl consistent

theorem add_supertype_evolves (consistent : p.Consistent) {type supertype : TypeId} (lower : p.types.Has type)
    (upper : p.types.Has supertype) :
    ∃ outcome, p.types.addSupertype type supertype = .ok outcome ∧
      ∀ types, outcome = some types → p.Evolves { p with types } := by
  rcases add_supertype_ok consistent.hierarchy lower upper with ⟨_, refused⟩ | ⟨apart, accepted⟩
  · exact ⟨none, refused, by simp⟩
  · refine ⟨_, accepted, ?_⟩
    intro types same
    cases same
    refine evolves_types consistent (attach_sealed consistent.hierarchy lower upper apart) ?_
      (fun t _ => implied_attach _ _ t)
    simp [TypeHierarchy.attach, TypeHierarchy.size]

theorem attach_supertype_builds (consistent : p.Consistent) {type : TypeId} (home : ScopeId) (name : String)
    (written : Tree.TypeExpr) (lower : p.types.Has type) :
    Builds (attachSupertype type home name written) p [] (fun _ q => p.Evolves q) := by
  refine builds_step (a := p) (t := p) rfl ?_
  split
  · exact builds_pure (evolves_refl consistent)
  · rename_i supertype found
    obtain ⟨outcome, ran, evolves⟩ := add_supertype_evolves consistent lower
      (Program.found_type_there consistent found)
    refine builds_step (a := outcome) (t := p) (by rw [ran]; rfl) ?_
    cases outcome with
    | none => exact builds_pure (evolves_refl consistent)
    | some types => exact builds_step rfl (builds_pure (evolves types rfl))

theorem attach_any_builds (consistent : p.Consistent) {type : TypeId} (lower : p.types.Has type) :
    Builds (attachAny type) p [] (fun _ q => p.Evolves q) := by
  refine builds_step (a := p) (t := p) rfl ?_
  obtain ⟨outcome, ran, evolves⟩ := add_supertype_evolves consistent lower
    (Program.has_builtin (t := .any) consistent (by decide))
  refine builds_step (a := outcome) (t := p) (by rw [ran]; rfl) ?_
  cases outcome with
  | none => exact builds_pure (evolves_refl consistent)
  | some types => exact builds_done rfl (evolves types rfl)

theorem seal_declared_builds (consistent : p.Consistent) {d : Declared} (known : d.Known p) :
    Builds (sealDeclared d) p [] (fun _ q => p.Evolves q) :=
  match d, known with
  | .function .., _ => builds_pure (evolves_refl consistent)
  | .variable _, _ => builds_pure (evolves_refl consistent)
  | .struct id type home decl, known => by
    have there := known.2 id type home decl rfl
    change Builds (sealStruct type home decl) p [] _
    refine builds_clear (builds_each consistent decl.supertypes (fun written _ q evolved =>
      attach_supertype_builds evolved.consistent home _ written (has_type_grows evolved.grows there)))
      (fun left q evolved => ?_)
    split
    · refine builds_clear (attach_any_builds evolved.consistent (has_type_grows evolved.grows there))
        (fun _ r further => ?_)
      exact builds_pure (evolves_trans evolved.grows further)
    · exact builds_pure evolved

def Introduces (q : Program) (steps : List Bound.Step) : Prop := ∀ v, .introduce v ∈ steps → q.HasVariable v

theorem introduces_nodes (q : Program) (ns : List Bound.Node) : Introduces q (ns.map .node) := by
  intro v member
  obtain ⟨n, _, impossible⟩ := List.mem_map.mp member
  cases impossible

theorem introduces_append {q : Program} {xs ys : List Bound.Step} (first : Introduces q xs)
    (second : Introduces q ys) : Introduces q (xs ++ ys) :=
  fun v member => (List.mem_append.mp member).elim (first v) (second v)

theorem introduces_grows {q r : Program} {steps : List Bound.Step} (grows : q.Grows r) (there : Introduces q steps) :
    Introduces r steps := fun v member => has_variable_grows grows (there v member)

mutual

theorem bind_stmt_builds (scope : ScopeId) (s : Tree.Stmt) {p : Program} (consistent : p.Consistent) :
    Builds (bindStmt scope s) p (faults s.calls) (fun b q => p.Evolves q ∧ Introduces q b.1.steps) :=
  match s with
  | .expr value span => by
    rw [bindStmt, Tree.Stmt.calls]
    refine builds_last (bind_expr_builds consistent scope value) (fun value q evolved => ?_)
    refine builds_pure ⟨evolved, ?_⟩
    rw [Bound.Stmt.steps]
    exact introduces_nodes q _
  | .variable decl => by
    rw [bindStmt, Tree.Stmt.calls]
    refine builds_last (bind_option_builds consistent scope decl.initializer) (fun initializer q evolved => ?_)
    refine builds_clear (new_variable_builds evolved.consistent scope initializer (by simp))
      (fun id r ⟨grown, there⟩ => ?_)
    have opened := evolves_new_scope grown.consistent scope .binding
    have named := evolves_reveal opened.consistent ⟨r.scopes.size⟩ decl.name.name there
    refine builds_step rfl (builds_step rfl (builds_pure ⟨?_, ?_⟩))
    · exact evolves_trans (grows_trans evolved.grows (grows_trans grown.grows opened.grows)) named
    · intro v member
      rw [Bound.Stmt.steps, List.mem_singleton] at member
      cases member
      exact there
  | .assign target value span => by
    rw [bindStmt, Tree.Stmt.calls, faults_append]
    refine builds_bind (bind_expr_builds consistent scope target) (fun target q evolved => ?_)
    refine builds_last (bind_expr_builds evolved.consistent scope value) (fun value r further => ?_)
    refine builds_pure ⟨evolves_trans evolved.grows further, ?_⟩
    intro v member
    rw [Bound.Stmt.steps, List.mem_singleton] at member
    cases member
  | .ret value span => by
    rw [bindStmt, Tree.Stmt.calls]
    refine builds_last (bind_option_builds consistent scope value) (fun value q evolved => ?_)
    refine builds_pure ⟨evolved, ?_⟩
    rw [Bound.Stmt.steps]
    exact introduces_nodes q _
  | .branch condition thenBranch elseBranch span => by
    rw [bindStmt, Tree.Stmt.calls, faults_append, faults_append]
    refine builds_bind (bind_expr_builds consistent scope condition) (fun condition q evolved => ?_)
    refine builds_bind (bind_block_builds scope thenBranch evolved.consistent)
      (fun thenBranch r ⟨second, ofThen⟩ => ?_)
    refine builds_last (bind_option_block_builds scope elseBranch second.consistent)
      (fun elseBranch u ⟨third, ofElse⟩ => ?_)
    refine builds_pure ⟨evolves_trans (grows_trans evolved.grows second.grows) third, ?_⟩
    rw [Bound.Stmt.steps]
    exact introduces_append
      (introduces_append (introduces_nodes u _) (introduces_grows third.grows ofThen)) ofElse
  | .block body => by
    rw [bindStmt, Tree.Stmt.calls]
    refine builds_last (bind_block_builds scope body consistent) (fun body q ⟨evolved, inside⟩ => ?_)
    refine builds_pure ⟨evolved, ?_⟩
    rw [Bound.Stmt.steps]
    exact inside

theorem bind_block_builds (parent : ScopeId) (b : Tree.Block) {p : Program} (consistent : p.Consistent) :
    Builds (bindBlock parent b) p (faults b.calls) (fun bound q => p.Evolves q ∧ Introduces q bound.steps) :=
  match b with
  | .mk stmts span => by
    rw [bindBlock, Tree.Block.calls]
    have opened := evolves_new_scope consistent parent .block
    refine builds_step rfl ?_
    refine builds_last (bind_stmts_builds ⟨p.scopes.size⟩ stmts opened.consistent) (fun bound q ⟨evolved, inside⟩ => ?_)
    refine builds_pure ⟨evolves_trans opened.grows evolved, ?_⟩
    rw [Bound.Block.steps]
    exact inside

theorem bind_option_block_builds (parent : ScopeId) (b : Option Tree.Block) {p : Program}
    (consistent : p.Consistent) :
    Builds (bindOptionBlock parent b) p (faults (Tree.Block.optionCalls b))
      (fun bound q => p.Evolves q ∧ Introduces q (Bound.Block.optionSteps bound)) :=
  match b with
  | none => by
    rw [bindOptionBlock, Tree.Block.optionCalls]
    refine builds_pure ⟨evolves_refl consistent, ?_⟩
    rw [Bound.Block.optionSteps]
    exact introduces_nodes p []
  | some block => by
    rw [bindOptionBlock, Tree.Block.optionCalls]
    refine builds_last (bind_block_builds parent block consistent) (fun bound q ⟨evolved, inside⟩ => ?_)
    refine builds_pure ⟨evolved, ?_⟩
    rw [Bound.Block.optionSteps]
    exact inside

theorem bind_stmts_builds (scope : ScopeId) (ss : List Tree.Stmt) {p : Program} (consistent : p.Consistent) :
    Builds (bindStmts scope ss) p (faults (Tree.Stmt.allCalls ss))
      (fun bound q => p.Evolves q ∧ Introduces q (Bound.Stmt.allSteps bound)) :=
  match ss with
  | [] => by
    rw [bindStmts, Tree.Stmt.allCalls]
    refine builds_pure ⟨evolves_refl consistent, ?_⟩
    rw [Bound.Stmt.allSteps]
    exact introduces_nodes p []
  | s :: rest => by
    rw [bindStmts, Tree.Stmt.allCalls, faults_append]
    refine builds_bind (bind_stmt_builds scope s consistent) (fun b q ⟨evolved, first⟩ => ?_)
    refine builds_last (bind_stmts_builds b.2 rest evolved.consistent) (fun bound r ⟨further, others⟩ => ?_)
    refine builds_pure ⟨evolves_trans evolved.grows further, ?_⟩
    rw [Bound.Stmt.allSteps]
    exact introduces_append (introduces_grows further.grows first) others

end

theorem bind_declared_builds (consistent : p.Consistent) {d : Declared} (known : d.Known p) :
    Builds (bindDeclared d) p d.bodyFaults (fun _ q => p.Evolves q) :=
  match d, known with
  | .variable _, _ => builds_pure (evolves_refl consistent)
  | .struct .., _ => builds_pure (evolves_refl consistent)
  | .function id decl, known => by
    obtain ⟨f, found, _⟩ := Program.function_at_ok known.1
    change Builds (bindFunction id decl) p (faults (Tree.Block.optionCalls decl.body)) _
    refine builds_step (a := p) (t := p) rfl ?_
    refine builds_step (a := f) (t := p) (by rw [found]; rfl) ?_
    have params : ∀ param ∈ decl.params.zipIdx, ∀ q, p.Evolves q →
        Builds (bindParam id f.scope param) q [] (fun _ r => q.Evolves r) := by
      intro param _ q evolved
      refine builds_clear (new_variable_builds evolved.consistent f.scope none ?_)
        (fun v r ⟨grown, there⟩ => ?_)
      · intro g index param' same
        cases same
        exact has_function_grows evolved.grows known.1
      · have named := evolves_reveal grown.consistent f.scope param.1.name.name there
        exact builds_step rfl (builds_pure (evolves_trans grown.grows named))
    refine builds_clear (builds_each consistent decl.params.zipIdx params)
      (fun parameters q evolved => ?_)
    refine builds_last (bind_option_block_builds f.scope decl.body evolved.consistent)
      (fun body r ⟨further, inside⟩ => ?_)
    have stored := evolves_set_body further.consistent id parameters inside
    exact builds_done rfl (evolves_trans (grows_trans evolved.grows further.grows) stored)

theorem initial_consistent (options : Options) : ({ options } : Program).Consistent where
  hierarchy := builtins_sealed
  builtinTypes := Nat.le_refl 6
  implied t _ := rfl
  scopes := by
    intro id s found
    have listed : s ∈ ScopeTree.initial.scopes := Array.mem_of_getElem? found
    simp only [ScopeTree.initial, List.mem_toArray, List.mem_cons, List.not_mem_nil, or_false] at listed
    rcases listed with rfl | rfl | rfl <;> exact ⟨by simp, by simp, by simp⟩
  functionIds i f found := by simp at found
  bodies i f found := by simp at found
  owners i v found := by simp at found
  declared d member := by simp [Program.declarations] at member
  structTypes type id entry := by simp at entry

theorem add_types_consistent (entries : List (TypeDef × Nat)) (consistent : p.Consistent)
    (there : ∀ entry ∈ entries, entry.2 < p.types.size) :
    Program.Consistent { p with
      scopes := entries.foldl
        (fun scopes entry => scopes.addType .builtin entry.1.name.name ⟨entry.2⟩) p.scopes } := by
  induction entries generalizing p with
  | nil => exact consistent
  | cons entry rest ih =>
    have first := evolves_add_type consistent .builtin entry.1.name.name (t := ⟨entry.2⟩) (there entry (by simp))
    exact ih first.consistent (fun e member => there e (List.mem_cons_of_mem _ member))

theorem declare_builtins_builds (consistent : p.Consistent) :
    Builds declareBuiltins p [] (fun _ q => q.Consistent) := by
  have start := add_types_consistent p.types.defs.toList.zipIdx consistent (fun entry member => by
    simpa [TypeHierarchy.size] using List.snd_lt_of_mem_zipIdx member)
  refine builds_step rfl (builds_for_clear (J := fun _ (q : Program) => q.Consistent) BuiltinFunction.all start ?_)
  intro done b rest q _ consistent
  apply builds_clear (new_function_builds consistent .builtin b.name (.builtin b))
  rintro _ r ⟨evolved, _⟩
  exact builds_pure evolved.consistent

theorem declare_modules_builds (consistent : p.Consistent) (modules : List Tree.Module) :
    Builds (modules.mapM declareModule) p
      (modules.flatMap (fun m => m.items.flatMap (fun item => faults item.outerCalls)))
      (fun declared q => p.Evolves q ∧ (∀ d ∈ declared.flatMap Prod.snd, d.Known q) ∧
        (declared.flatMap Prod.snd).flatMap Declared.bodyFaults =
          modules.flatMap (fun m => m.items.flatMap (fun item => faults item.bodyCalls))) := by
  refine builds_map
    (J := fun done (declared : List (ScopeId × List Declared)) q => p.Evolves q ∧
      (∀ d ∈ declared.flatMap Prod.snd, d.Known q) ∧ (declared.flatMap Prod.snd).flatMap Declared.bodyFaults =
        done.flatMap (fun m => m.items.flatMap (fun item => faults item.bodyCalls)))
    modules ⟨evolves_refl consistent, by simp, rfl⟩ ?_
  rintro done m rest results q _ ⟨evolved, known, same⟩
  refine builds_weaken (declare_module_builds evolved.consistent m) ?_
  rintro declared r ⟨further, new, same'⟩
  refine ⟨evolves_trans evolved.grows further, fun d member => ?_, ?_⟩
  · rw [List.flatMap_append, List.mem_append] at member
    rcases member with old | last
    · exact known_grows further.grows (known d old)
    · exact new d (by simpa using last)
  · simp only [List.flatMap_append, same, List.flatMap_cons, List.flatMap_nil, List.append_nil, same']

theorem resolve_imports_build (consistent : p.Consistent) (entries : List (Tree.Module × (ScopeId × List Declared))) :
    Builds (entries.mapM (fun entry => entry.1.imports.mapM (resolveImport entry.2.1))) p []
      (fun _ q => p.Evolves q) :=
  builds_each consistent entries (fun entry _ _ grown =>
    builds_each grown.consistent entry.1.imports (fun i _ _ further =>
      resolve_import_builds further.consistent entry.2.1 i))

/-- Construction comes to the malformed calls and nothing else, and otherwise gives a consistent program. -/
theorem build_builds (options : Options) (modules : List Tree.Module) :
    Builds (build modules) ({ options } : Program) (faults (Tree.calls modules)) (fun _ q => q.Consistent) := by
  have outer : faults (Tree.calls modules) =
      modules.flatMap (fun m => m.items.flatMap (fun item => faults item.outerCalls)) ++
        modules.flatMap (fun m => m.items.flatMap (fun item => faults item.bodyCalls)) := by
    rw [Tree.calls, faults_append, faults_flat_map, faults_flat_map, List.flatMap_assoc, List.flatMap_assoc]
  rw [outer]
  refine builds_clear (declare_builtins_builds (initial_consistent options))
    (fun _ p consistent => ?_)
  refine builds_bind (declare_modules_builds consistent modules) ?_
  rintro declared q ⟨evolved, known, same⟩
  refine builds_clear (resolve_imports_build evolved.consistent (modules.zip declared)) (fun unresolved r grown => ?_)
  refine builds_clear (builds_each grown.consistent (declared.flatMap Prod.snd) (fun d member u further =>
    seal_declared_builds further.consistent (known_grows (grows_trans grown.grows further.grows) (known d member))))
    (fun rejected u further => ?_)
  have bodies := builds_for Declared.bodyFaults (J := fun _ w => u.Evolves w) (g := bindDeclared)
    (declared.flatMap Prod.snd) (s := u) (evolves_refl further.consistent) (by
      intro done d rest w whole last
      have there : d ∈ declared.flatMap Prod.snd := by rw [whole]; simp
      exact builds_weaken
        (bind_declared_builds last.consistent
          (known_grows (grows_trans (grows_trans grown.grows further.grows) last.grows) (known d there)))
        (fun _ _ final => evolves_trans last.grows final))
  rw [same] at bodies
  exact builds_last bodies (fun _ w last => builds_pure last.consistent)

end Construction

theorem construct_consistent {options : Options} {modules : List Tree.Module} {p : Program}
    {findings : List Diagnostic} (built : Program.construct options modules = .ok (p, findings)) : p.Consistent := by
  have builds := build_builds options modules
  unfold Program.construct StateT.run at built
  unfold Builds at builds
  split at builds
  · obtain ⟨found, q, ran, consistent⟩ := builds
    rw [ran] at built
    cases built
    exact consistent
  · rw [builds] at built
    cases built

end SemanticAnalysis
