import SemanticAnalysis.Proofs.Analysis.Asking
import SemanticAnalysis.Proofs.Scope.Chain
import SemanticAnalysis.Proofs.Types.Applicability
/-!
Programs in which every identity means something, and facts that speak only of what is there. What is looked up in such
a program is found, so choosing an overload and comparing types cannot fail.
-/
namespace SemanticAnalysis
open Running ScopeTree

namespace Program

def KnowsType (p : Program) (t : Option TypeRef) : Prop := ∀ known, t = some known → p.types.Has known.base

def HasFunction (p : Program) (f : FunctionId) : Prop := f.index < p.functions.size

def HasVariable (p : Program) (v : VariableId) : Prop := v.index < p.vars.size

def HasReferent (p : Program) : Referral → Prop
  | .literal _ => True
  | .variable v => p.HasVariable v
  | .typeName t => p.types.Has t

def HasDeclaration (p : Program) : Declaration → Prop
  | .function id => p.HasFunction id
  | .variable id => p.HasVariable id
  | .struct id => id.index < p.structs.size

structure HasEntries (p : Program) (s : Scope) : Prop where
  vars : ∀ entry ∈ s.vars, p.HasVariable entry.2
  functions : ∀ entry ∈ s.functions, p.HasFunction entry.2
  types : ∀ entry ∈ s.types, p.types.Has entry.2

/-- Every identity in the program is one that it gave out. -/
structure Consistent (p : Program) : Prop where
  hierarchy : p.types.Sealed
  builtinTypes : 6 ≤ p.types.size
  implied : ∀ t : TypeId, t.index < 6 → p.types.implied t = TypeHierarchy.builtins.implied t
  scopes : p.scopes.All p.HasEntries
  functionIds : ∀ (i : Nat) (f : Bound.Function), p.functions[i]? = some f → f.id = ⟨i⟩
  bodies : ∀ (i : Nat) (f : Bound.Function), p.functions[i]? = some f →
    ∀ id, .introduce id ∈ Bound.Block.optionSteps f.body → p.HasVariable id
  owners : ∀ (i : Nat) (v : Bound.Variable), p.vars[i]? = some v →
    ∀ f index param, v.origin = .parameter f index param → p.HasFunction f
  declared : ∀ d ∈ p.declarations, p.HasDeclaration d
  structTypes : ∀ type id, p.structTypes.find? type = some id → p.HasDeclaration (.struct id)

/-- The functions that a call may mean, as far as they are there. -/
def offered (p : Program) (call : Bound.Invocation) : List FunctionId :=
  let visible := p.scopes.findFunctions call.site.scope call.name
  match call.kind with
  | .call => visible
  | _ => visible.filter (fun id => p.functions[id.index]?.any (fun f => f.modifiers.operator))

variable {p : Program}

theorem function_at_ok {id : FunctionId} (there : p.HasFunction id) :
    ∃ f, p.functionAt id = .ok f ∧ p.functions[id.index]? = some f :=
  ⟨p.functions[id.index], function_at_ok_iff.mpr (Array.getElem?_eq_getElem there), Array.getElem?_eq_getElem there⟩

theorem variable_at_ok {id : VariableId} (there : p.HasVariable id) :
    ∃ v, p.variableAt id = .ok v ∧ p.vars[id.index]? = some v :=
  ⟨p.vars[id.index], variable_at_ok_iff.mpr (Array.getElem?_eq_getElem there), Array.getElem?_eq_getElem there⟩

theorem struct_at_ok {id : StructId} (there : id.index < p.structs.size) :
    ∃ s, p.structAt id = .ok s ∧ p.structs[id.index]? = some s :=
  ⟨p.structs[id.index], struct_at_ok_iff.mpr (Array.getElem?_eq_getElem there), Array.getElem?_eq_getElem there⟩

theorem knows_none : p.KnowsType none := by
  intro known impossible
  cases impossible

theorem knows_some {t : TypeRef} : p.KnowsType (some t) ↔ p.types.Has t.base := by
  constructor
  · exact fun knows => knows t rfl
  · intro there known same
    cases same
    exact there

theorem knows_map {t : Option TypeRef} {f : TypeRef → TypeRef} (knows : p.KnowsType t)
    (keeps : ∀ t, (f t).base = t.base) : p.KnowsType (t.map f) := by
  intro known mapped
  obtain ⟨t', same, rfl⟩ := Option.map_eq_some_iff.mp mapped
  rw [keeps]
  exact knows t' same

theorem implied_modifier_base (h : TypeHierarchy) (t : TypeRef) : (h.withImpliedModifier t).base = t.base := by
  unfold TypeHierarchy.withImpliedModifier
  split <;> rfl

section Consistent
variable (consistent : p.Consistent)
include consistent

theorem has_builtin {t : TypeId} (builtin : t.index < 6) : p.types.Has t :=
  Nat.lt_of_lt_of_le builtin consistent.builtinTypes

variable {scope : ScopeId} {name : String}

theorem found_variable_there {v : VariableId}
    (found : p.scopes.findVariable? scope name = some v) : p.HasVariable v := by
  obtain ⟨j, s, here, member⟩ := find_variable_member found
  exact (consistent.scopes j s here).vars (name, v) member

theorem found_type_there {t : TypeId}
    (found : p.scopes.findType? scope name = some t) : p.types.Has t := by
  obtain ⟨j, s, here, member⟩ := find_type_member found
  exact (consistent.scopes j s here).types (name, t) member

theorem found_function_there {f : FunctionId}
    (found : f ∈ p.scopes.findFunctions scope name) : p.HasFunction f := by
  obtain ⟨j, s, here, member⟩ := find_functions_member found
  exact (consistent.scopes j s here).functions (name, f) member

theorem referral_there {r : Referral} (found : p.referral? scope name = some r) :
    p.HasReferent r := by
  unfold referral? at found
  split at found
  · cases found
    trivial
  · split at found
    · cases found
      trivial
    · rcases Option.or_eq_some_iff.mp found with v | ⟨_, t⟩
      · obtain ⟨v, here, rfl⟩ := Option.map_eq_some_iff.mp v
        exact found_variable_there consistent here
      · obtain ⟨t, here, rfl⟩ := Option.map_eq_some_iff.mp t
        exact found_type_there consistent here

theorem resolved_type_known (scope : ScopeId) (t : Option Tree.TypeExpr) : p.KnowsType (p.resolvedType scope t) := by
  intro known resolved
  obtain ⟨written, _, option⟩ := Option.bind_eq_some_iff.mp resolved
  unfold resolveType at option
  split at option
  · rename_i base found
    cases option
    rw [implied_modifier_base]
    exact found_type_there consistent found
  · cases option

theorem signature_params_known (f : Bound.Function) (i : Nat) :
    p.KnowsType (p.signature f).params[i]?.join := by
  intro known found
  have listed := List.mem_of_getElem? (Option.join_eq_some_iff.mp found)
  have all : ∀ scope receiver params returnType, ∀ t ∈ (p.signatureOf scope receiver params returnType).params,
      p.KnowsType t := by
    intro scope receiver params returnType t member
    obtain ⟨written, _, rfl⟩ := List.mem_map.mp member
    exact resolved_type_known consistent scope written
  unfold signature at listed
  split at listed
  · exact all _ _ _ _ _ listed known rfl
  · exact all _ _ _ _ _ listed known rfl

theorem declared_return_known (f : Bound.Function) : p.KnowsType (p.signature f).declaredReturn := by
  unfold signature
  split
  · exact resolved_type_known consistent _ _
  · exact resolved_type_known consistent .builtin (some (builtinType _ false))

theorem declared_type_known (v : Bound.Variable) : p.KnowsType (p.declaredType v) := by
  unfold declaredType
  split
  · exact resolved_type_known consistent _ _
  · exact knows_none

theorem member_type_known (s : Bound.Struct) (name : String) : p.KnowsType (p.memberType s name) := by
  unfold memberType
  cases s.member? name with
  | none => exact knows_none
  | some m => exact resolved_type_known consistent s.scope (some m.decl.type)

theorem receiver_known {receiver : Option (Option TypeRef)} (knows : ∀ t, receiver = some t → p.KnowsType t) :
    p.KnowsType (receiver.map (fun t => t.getD .nullableAny)) := by
  intro t mapped
  obtain ⟨t', here, rfl⟩ := Option.map_eq_some_iff.mp mapped
  cases t' with
  | none => exact has_builtin consistent (by decide)
  | some t' => exact knows _ here t' rfl

/-- A function applies to a receiver and arguments, at a total distance. -/
def Applicable (p : Program) (receiver : Option TypeRef) (arguments : List (Option TypeRef)) (g : FunctionId)
    (d : Nat) : Prop :=
  ∃ f, p.functions[g.index]? = some f ∧ Overload.Applies p.types (p.signature f) receiver arguments d

variable {receiver : Option TypeRef} {arguments : List (Option TypeRef)}

theorem match_applies (knows : p.KnowsType receiver)
    (known : ∀ t ∈ arguments, p.KnowsType t) {g : FunctionId} (there : p.HasFunction g) :
    ∃ found, p.match? receiver arguments g = .ok found ∧
      ∀ m, found = some m ↔ m.function = g ∧ p.Applicable receiver arguments g m.distance := by
  obtain ⟨f, looked, here⟩ := function_at_ok there
  obtain ⟨distance, counted, applies⟩ :=
    Overload.candidate_distance_applies (s := p.signature f) consistent.hierarchy knows known
  refine ⟨distance.map (fun d => ⟨g, d⟩), ?_, ?_⟩
  · rw [match?, looked, ok_bind, counted]
    rfl
  · intro m
    constructor
    · intro mapped
      obtain ⟨d, same, rfl⟩ := Option.map_eq_some_iff.mp mapped
      exact ⟨rfl, f, here, (applies d).mp same⟩
    · rintro ⟨rfl, f', here', fits⟩
      cases here.symm.trans here'
      rw [(applies m.distance).mpr fits]
      rfl

theorem matches_kept {candidates : List FunctionId}
    (there : ∀ f ∈ candidates, p.HasFunction f) (knows : p.KnowsType receiver)
    (known : ∀ t ∈ arguments, p.KnowsType t) :
    ∃ found, candidates.mapM (p.match? receiver arguments) = .ok found ∧
      ((found.filterMap id).map Overload.Match.function).Sublist candidates ∧
      ∀ m, m ∈ found.filterMap id ↔
        m.function ∈ candidates ∧ p.Applicable receiver arguments m.function m.distance := by
  obtain ⟨found, mapped, related⟩ := map_ok candidates
    (fun f member => match_applies consistent knows known (there f member))
  refine ⟨found, mapped, ?_⟩
  clear mapped there
  induction related with
  | nil => exact ⟨.slnil, by simp⟩
  | @cons g first rest others meaning _ ih =>
    obtain ⟨sublist, members⟩ := ih
    cases first with
    | none =>
      rw [List.filterMap_cons_none rfl]
      refine ⟨sublist.cons g, ?_⟩
      intro m
      rw [members, List.mem_cons, or_and_right, or_iff_right]
      rintro ⟨same, fits⟩
      cases (meaning m).mpr ⟨same, same ▸ fits⟩
    | some best =>
      obtain ⟨same, fits⟩ := (meaning best).mp rfl
      subst same
      rw [List.filterMap_cons_some (f := id) rfl]
      refine ⟨sublist.cons_cons best.function, ?_⟩
      intro m
      rw [List.mem_cons, members, List.mem_cons, or_and_right]
      apply or_congr_left
      constructor
      · rintro rfl
        exact ⟨rfl, fits⟩
      · rintro ⟨same, applies⟩
        exact (Option.some.inj ((meaning m).mpr ⟨same, same ▸ applies⟩)).symm

theorem resolve_overload_ok {candidates : List FunctionId}
    (there : ∀ f ∈ candidates, p.HasFunction f) (knows : p.KnowsType receiver)
    (known : ∀ t ∈ arguments, p.KnowsType t) (sorted : candidates.Pairwise (fun f g => f.index < g.index)) :
    ∃ ranked, p.resolveOverload candidates receiver arguments = .ok ranked ∧
      (∀ m, m ∈ ranked ↔ m.function ∈ candidates ∧ p.Applicable receiver arguments m.function m.distance) ∧
      ranked.Pairwise (Precedes Overload.Match.distance (fun m n => m.function.index < n.function.index)) := by
  obtain ⟨found, mapped, sublist, members⟩ := matches_kept consistent there knows known
  refine ⟨Overload.rank (found.filterMap id), ?_, ?_, ?_⟩
  · rw [resolveOverload, mapped]
    rfl
  · intro m
    rw [Overload.rank, (stable_sort_perm _ _).mem_iff, members]
  · have kept := sorted.sublist sublist
    rw [List.pairwise_map] at kept
    exact stable_sort_pairwise Overload.Match.distance kept

theorem struct_of_ok (type : TypeId) : ∃ s, p.structOf? type = .ok s := by
  unfold structOf?
  cases entry : p.structTypes.find? type with
  | none => exact ⟨none, rfl⟩
  | some id =>
    obtain ⟨s, found, _⟩ := struct_at_ok (consistent.structTypes type id entry)
    dsimp only
    rw [found]
    exact ⟨some s, rfl⟩

omit consistent in
theorem offered_sorted (call : Bound.Invocation) :
    (p.offered call).Pairwise (fun f g => f.index < g.index) := by
  have sorted := find_functions_sorted (t := p.scopes) call.site.scope call.name
  unfold offered
  split
  · exact sorted
  · exact sorted.filter _

theorem offered_there (call : Bound.Invocation) : ∀ f ∈ p.offered call, p.HasFunction f := by
  intro f member
  unfold offered at member
  split at member
  · exact found_function_there consistent member
  · exact found_function_there consistent (List.mem_filter.mp member).1

theorem candidates_ok (call : Bound.Invocation) : p.candidates call = .ok (p.offered call) := by
  have operators := filter_ok (f := fun id => do let f ← p.functionAt id; pure f.modifiers.operator)
    (g := fun id => p.functions[id.index]?.any (fun f => f.modifiers.operator))
    (p.scopes.findFunctions call.site.scope call.name) (fun id member => by
      obtain ⟨f, found, here⟩ := function_at_ok (found_function_there consistent member)
      rw [found, here]
      rfl)
  unfold candidates offered
  cases call.kind with
  | call => rfl
  | binary op => exact operators
  | unary op => exact operators

theorem ranked_ok (call : Bound.Invocation) {receiver : Option (Option TypeRef)}
    (knows : ∀ t, receiver = some t → p.KnowsType t) (known : ∀ t ∈ arguments, p.KnowsType t) :
    ∃ ranked, p.ranked call receiver arguments = .ok ranked ∧
      (∀ m, m ∈ ranked ↔ m.function ∈ p.offered call ∧
        p.Applicable (receiver.map (fun t => t.getD .nullableAny)) arguments m.function m.distance) ∧
      ranked.Pairwise (Precedes Overload.Match.distance (fun m n => m.function.index < n.function.index)) := by
  rw [ranked, candidates_ok consistent, ok_bind]
  exact resolve_overload_ok consistent (offered_there consistent call) (receiver_known consistent knows) known
    (offered_sorted call)

omit consistent in
theorem ambiguity_ok (name : String) {best : Overload.Match} {rest : List Overload.Match}
    (there : ∀ m ∈ best :: rest, p.HasFunction m.function) :
    p.ambiguity name (best :: rest) = .ok (.ambiguousInvocation name (" and ".intercalate
      ((((best :: rest).takeWhile (fun m => m.distance == best.distance)).map Overload.Match.function).map
        (fun g => (p.candidateText g).toOption.getD "")))) := by
  have texts : ∀ m ∈ (best :: rest).takeWhile (fun m => m.distance == best.distance), ∃ text,
      p.candidateText m.function = .ok text ∧ (p.candidateText m.function).toOption.getD "" = text := by
    intro m tied
    obtain ⟨f, found, _⟩ := function_at_ok (there m ((List.takeWhile_sublist _).subset tied))
    rw [candidateText, found, ok_bind]
    exact ⟨_, rfl, rfl⟩
  obtain ⟨shown, mapped, related⟩ := map_ok _ texts
  have same := List.forall₂_eq_eq_eq ▸ List.forall₂_map_left_iff.mpr related
  unfold ambiguity
  dsimp only
  rw [mapped, ok_bind, List.map_map, ← same]
  rfl

end Consistent

end Program

end SemanticAnalysis
