import SemanticAnalysis.Proofs.Analysis.Invariant
/-!
Analysis of a consistent program does not fail. The work on a node succeeds provided that the types it asks for can
be given; and they can, as long as some cells are idle. Entering a declaration leaves one idle cell less, so answers
that may go one declaration deeper than there are idle cells never come to their bound. The effects of functions are
treated in the same way.
-/
namespace SemanticAnalysis
open Running Analysis Facts Program TypeHierarchy

variable {p : Program} {base : Facts}

section Resolution
variable (consistent : p.Consistent)
include consistent

theorem resolve_node_runs (n : Bound.Node) : Runs (Sound p base) (n.resolve p) := by
  cases n with
  | identifier node name site =>
    simp only [Bound.Node.resolve, Program.resolveIdentifier]
    split
    · rename_i r found
      have there := referral_there consistent found
      exact runs_bind (succeeds_modify (fun _ sound => sound_record_referral sound there)) (fun _ => runs_pure _)
    · exact runs_pure _
  | _ => exact runs_pure _

theorem resolve_nodes_run (ns : List Bound.Node) : Runs (Sound p base) (collect (Bound.Node.resolve p) ns) :=
  runs_collect ns (fun n _ => resolve_node_runs consistent n)

theorem resolve_variable_runs {id : VariableId} (there : p.HasVariable id) :
    Runs (Sound p base) (p.resolveVariable id) := by
  obtain ⟨v, found, _⟩ := variable_at_ok there
  refine succeeds_look_up found (runs_once (fun _ => ?_))
  rw [Bound.Expr.resolve_option_collect]
  exact runs_bind (resolve_nodes_run consistent _) (fun _ => runs_pure _)

theorem resolve_step_runs {s : Bound.Step} (there : ∀ id, s = .introduce id → p.HasVariable id) :
    Runs (Sound p base) (s.resolve p) := by
  cases s with
  | node n => exact resolve_node_runs consistent n
  | introduce id => exact resolve_variable_runs consistent (there id rfl)
  | assign target value site =>
    rw [Bound.Step.resolve_assign]
    exact resolve_nodes_run consistent _

theorem resolve_steps_run {steps : List Bound.Step} (there : ∀ id, .introduce id ∈ steps → p.HasVariable id) :
    Runs (Sound p base) (collect (Bound.Step.resolve p) steps) :=
  runs_collect steps (fun _ member => resolve_step_runs consistent (fun id same => there id (same ▸ member)))

theorem resolve_function_runs {id : FunctionId} (there : p.HasFunction id) :
    Runs (Sound p base) (p.resolveFunction id) := by
  obtain ⟨f, found, here⟩ := function_at_ok there
  refine succeeds_look_up found (runs_once (fun _ => ?_))
  rw [Bound.Block.resolve_option_collect]
  exact runs_bind (resolve_steps_run consistent (consistent.bodies _ _ here)) (fun _ => runs_pure _)

theorem resolve_struct_runs {id : StructId} (there : id.index < p.structs.size) :
    Runs (Sound p base) (p.resolveStruct id) := by
  obtain ⟨s, found, _⟩ := struct_at_ok there
  refine succeeds_look_up found (runs_once (fun _ => ?_))
  rw [Bound.Expr.resolve_all_collect]
  exact runs_bind (resolve_nodes_run consistent _) (fun _ => runs_pure _)

end Resolution

/-- The source gives a known type wherever fewer than `k` cells are idle. -/
structure TypeSource.Answers (p : Program) (k : Nat) (ask : TypeSource) : Prop where
  variableType : ∀ base, p.idleTypings base < k → ∀ v, p.HasVariable v →
    Succeeds (Sound p base) (ask.variableType v) p.KnowsType
  returnType : ∀ base, p.idleTypings base < k → ∀ f, p.HasFunction f →
    Succeeds (Sound p base) (ask.returnType f) p.KnowsType

theorem idle_typings_enter {d : Declaration} (member : (d, .typing) ∈ p.typingKeys)
    (outside : base.phases.state (d, .typing) ≠ .inProgress) :
    p.idleTypings ((phaseCell d .typing).write .inProgress base) < p.idleTypings base :=
  Cells.idle_enter member outside

section Typing
variable (consistent : p.Consistent) {k : Nat} {ask : TypeSource} (answers : ask.Answers p k)
include consistent answers

theorem settle_type_runs (few : p.idleTypings base < k) (node : NodeId) :
    Runs (Sound p base) (Program.settleType ask node) := by
  refine succeeds_bind succeeds_get (fun facts sound => ?_)
  split
  · exact runs_pure _
  · have typed : Succeeds (Sound p base) (Program.referredType ask (facts.referrals.find? node)) p.KnowsType := by
      unfold Program.referredType
      split
      · exact succeeds_pure (knows_some.mpr (has_builtin consistent (by decide)))
      · rename_i v found
        exact answers.variableType base few v (sound.valid.referrals node _ found)
      · rename_i t found
        exact succeeds_pure (knows_some.mpr (sound.valid.referrals node _ found))
      · exact succeeds_pure knows_none
    exact succeeds_bind typed (fun t known => succeeds_modify (fun _ sound => sound_record_type sound known))

theorem type_identifier_runs (few : p.idleTypings base < k) (node : NodeId) (name : String) (site : Site) :
    Runs (Sound p base) (p.typeIdentifier ask node name site) := by
  have settled : Runs (Sound p base) (p.settleReferral node name site) := by
    refine succeeds_bind succeeds_get (fun facts sound => ?_)
    split
    · exact runs_pure _
    · split
      · rename_i v found
        have there := found_variable_there consistent found
        exact runs_bind (succeeds_modify (fun _ sound => sound_record_referral sound there)) (fun _ => runs_pure _)
      · exact runs_pure _
  exact runs_bind settled (fun _ => runs_bind (settle_type_runs consistent answers few node) (fun _ => runs_pure _))

theorem settle_dispatch_runs (few : p.idleTypings base < k) (call : Bound.Invocation) {f : FunctionId}
    (there : p.HasFunction f) (receiver : Option TypeRef) :
    Runs (Sound p base) (p.settleDispatch ask call f receiver) := by
  have typed : Succeeds (Sound p base) (p.resultType ask call f receiver) p.KnowsType := by
    have value : Succeeds (Sound p base) (p.valueType ask call f) p.KnowsType := by
      unfold Program.valueType
      split
      · refine succeeds_pure (knows_some.mpr ?_)
        rw [implied_modifier_base]
        exact has_builtin consistent (by decide)
      · exact answers.returnType base few f there
    refine succeeds_bind value (fun t known => succeeds_pure (knows_map known (fun t => ?_)))
    split <;> rfl
  refine succeeds_bind succeeds_get (fun facts sound => ?_)
  split
  · exact runs_pure _
  · refine succeeds_bind typed (fun t known => ?_)
    exact runs_bind (succeeds_modify (fun _ sound => sound_record_dispatch sound there))
      (fun _ => succeeds_modify (fun _ sound => sound_record_type sound known))

theorem type_invocation_runs (few : p.idleTypings base < k) (call : Bound.Invocation)
    {receiver : Option (Option TypeRef)} {arguments : List (Option TypeRef)}
    (knows : ∀ t, receiver = some t → p.KnowsType t) (known : ∀ t ∈ arguments, p.KnowsType t) :
    Runs (Sound p base) (p.typeInvocation ask call receiver arguments) := by
  obtain ⟨ranked, chosen, members, -⟩ := ranked_ok consistent call knows known
  have there : ∀ m ∈ ranked, p.HasFunction m.function :=
    fun m member => offered_there consistent call _ ((members m).mp member).1
  refine succeeds_look_up chosen ?_
  split
  · exact runs_bind (succeeds_modify (fun _ sound => sound_record_type sound knows_none))
      (fun _ => runs_pure _)
  · rename_i best others
    have ambiguous : ∀ known, ∃ findings, p.ambiguityFindings call known (best :: others) = .ok findings := by
      intro known
      unfold Program.ambiguityFindings
      split
      · rw [ambiguity_ok call.name there]
        exact ⟨_, rfl⟩
      · exact ⟨_, rfl⟩
    obtain ⟨findings, found⟩ := ambiguous (receiver.all Option.isSome && arguments.all Option.isSome)
    refine succeeds_look_up found ?_
    exact runs_bind (settle_dispatch_runs consistent answers few call (there best (by simp)) _)
      (fun _ => runs_pure _)

theorem type_node_runs (few : p.idleTypings base < k) (n : Bound.Node) :
    Runs (Sound p base) (n.assignTypes p ask) := by
  cases n with
  | identifier node name site => exact type_identifier_runs consistent answers few node name site
  | number => exact runs_pure _
  | call call receiver args =>
    simp only [Bound.Node.assignTypes]
    refine succeeds_bind succeeds_get (fun facts sound => ?_)
    apply type_invocation_runs consistent answers few call
    · intro t mapped
      obtain ⟨e, _, rfl⟩ := Option.map_eq_some_iff.mp mapped
      exact expression_type_known sound.valid consistent e
    · intro t member
      obtain ⟨e, _, rfl⟩ := List.mem_map.mp member
      exact expression_type_known sound.valid consistent e
  | member node object name nullSafe site =>
    simp only [Bound.Node.assignTypes]
    refine succeeds_bind succeeds_get (fun facts sound => ?_)
    have records : ∀ t, p.KnowsType t → Runs (Sound p base) (modify (recordType node t)) :=
      fun t known => succeeds_modify (fun _ sound => sound_record_type sound known)
    unfold Program.typeMember
    split
    · exact runs_bind (records _ knows_none) (fun _ => runs_pure _)
    · rename_i object _
      obtain ⟨struct, looked⟩ := struct_of_ok consistent object.base
      refine succeeds_look_up looked ?_
      split
      · rename_i t accessed
        refine runs_bind (records t ?_) (fun _ => runs_pure _)
        unfold Program.accessedType at accessed
        split at accessed
        · cases accessed
        · cases accessed
          refine knows_map (member_type_known consistent _ _) (fun t => ?_)
          split <;> rfl
      · exact runs_bind (records _ knows_none) (fun _ => runs_pure _)

theorem type_nodes_run (few : p.idleTypings base < k) (ns : List Bound.Node) :
    Runs (Sound p base) (collect (Bound.Node.assignTypes p ask) ns) :=
  runs_collect ns (fun n _ => type_node_runs consistent answers few n)

theorem type_variable_runs (few : p.idleTypings base < k + 1) {id : VariableId} (there : p.HasVariable id) :
    Runs (Sound p base) (p.typeVariable ask id) := by
  obtain ⟨v, found, _⟩ := variable_at_ok there
  refine succeeds_look_up found (runs_once (fun outside => ?_))
  have fewer := idle_typings_enter (variable_typing_key there) outside
  rw [Bound.Expr.types_option_collect]
  refine runs_bind (type_nodes_run consistent answers (by omega) _) (fun ofInitializer => ?_)
  refine succeeds_bind succeeds_get (fun facts sound => ?_)
  have known := expression_type_known sound.valid consistent
  have own : ∃ findings, p.initializerFindings v facts = .ok findings := by
    unfold Program.initializerFindings
    split
    · rename_i declared initializer _ _
      unfold Program.initializerFault
      split
      · exact ⟨_, rfl⟩
      · split
        · exact ⟨_, rfl⟩
        · rename_i actual typed
          obtain ⟨answer, asked, _⟩ := is_assignable_iff_accepts consistent.hierarchy actual declared
            (known initializer actual typed)
          rw [asked, ok_bind]
          cases answer <;> exact ⟨_, rfl⟩
    · exact ⟨_, rfl⟩
  obtain ⟨findings, found⟩ := own
  refine succeeds_look_up found (runs_bind (succeeds_modify (fun _ sound => ?_)) (fun _ => runs_pure _))
  refine sound_record_variable_type sound ?_
  intro t settled
  rcases Option.or_eq_some_iff.mp settled with declared | ⟨_, initial⟩
  · exact declared_type_known consistent v t declared
  · obtain ⟨e, _, typed⟩ := Option.bind_eq_some_iff.mp initial
    exact known e t typed

theorem type_step_runs (few : p.idleTypings base < k) {s : Bound.Step}
    (there : ∀ id, s = .introduce id → p.HasVariable id) : Runs (Sound p base) (s.assignTypes p ask) := by
  cases s with
  | node n => exact type_node_runs consistent answers few n
  | introduce id => exact type_variable_runs consistent answers (by omega) (there id rfl)
  | assign target value site =>
    have own : Runs (Sound p base) (p.assignmentFindings target site) := by
      unfold Program.assignmentFindings
      split
      · refine succeeds_bind succeeds_get (fun facts sound => ?_)
        split
        · rename_i id found
          obtain ⟨v, here, _⟩ := variable_at_ok (sound.valid.referrals _ _ found)
          exact succeeds_look_up here (runs_pure _)
        · exact runs_pure _
      · exact runs_pure _
    simp only [Bound.Step.assignTypes, Bound.Expr.types_collect]
    refine runs_bind (type_nodes_run consistent answers few _) (fun _ => ?_)
    refine runs_bind (type_nodes_run consistent answers few _) (fun _ => ?_)
    exact runs_bind own (fun _ => runs_pure _)

theorem type_steps_run (few : p.idleTypings base < k) {steps : List Bound.Step}
    (there : ∀ id, .introduce id ∈ steps → p.HasVariable id) :
    Runs (Sound p base) (collect (Bound.Step.assignTypes p ask) steps) :=
  runs_collect steps (fun _ member => type_step_runs consistent answers few (fun id same => there id (same ▸ member)))

omit answers in
theorem infer_return_type_ok {facts : Facts} (valid : facts.Valid p) (values : List Bound.Expr) :
    ∃ t, p.inferReturnType facts values = .ok t ∧ p.KnowsType t := by
  unfold Program.inferReturnType
  split
  · exact ⟨_, rfl, knows_some.mpr (has_builtin consistent (by decide))⟩
  · split
    · exact ⟨_, rfl, knows_none⟩
    · rename_i nonempty
      have there : ∀ t ∈ (values.filterMap (Bound.Expr.type facts)).map TypeRef.base, p.types.Has t := by
        intro t member
        obtain ⟨typed, listed, rfl⟩ := List.mem_map.mp member
        obtain ⟨e, _, known⟩ := List.mem_filterMap.mp listed
        exact expression_type_known valid consistent e typed known
      have some_type : (values.filterMap (Bound.Expr.type facts)).map TypeRef.base ≠ [] := by
        simpa using nonempty
      obtain ⟨t, found, above⟩ := common_ancestor_ok consistent.hierarchy some_type there
      rw [found]
      refine ⟨_, rfl, knows_some.mpr ?_⟩
      rw [implied_modifier_base]
      rcases above with rfl | above
      · exact has_builtin (t := .any) consistent (by decide)
      · obtain ⟨first, member⟩ := List.exists_mem_of_ne_nil _ some_type
        exact below_has consistent.hierarchy (above first member) (there first member)

theorem type_function_runs (few : p.idleTypings base < k + 1) {id : FunctionId} (there : p.HasFunction id) :
    Runs (Sound p base) (p.typeFunction ask id) := by
  obtain ⟨f, found, here⟩ := function_at_ok there
  refine succeeds_look_up found (runs_once (fun outside => ?_))
  have fewer := idle_typings_enter (function_typing_key there) outside
  rw [Bound.Block.types_option_collect]
  refine runs_bind (type_steps_run consistent answers (by omega) (consistent.bodies _ _ here)) (fun findings => ?_)
  refine succeeds_bind succeeds_get (fun facts sound => ?_)
  obtain ⟨t, inferred, known⟩ := infer_return_type_ok consistent sound.valid (Program.returnedValues f)
  refine succeeds_look_up inferred (runs_bind (succeeds_modify (fun _ sound => ?_)) (fun _ => runs_pure _))
  exact sound_record_return_type sound known

theorem type_struct_runs (few : p.idleTypings base < k) {id : StructId} (there : id.index < p.structs.size) :
    Runs (Sound p base) (p.typeStruct ask id) := by
  obtain ⟨s, found, _⟩ := struct_at_ok there
  refine succeeds_look_up found (runs_once (fun _ => ?_))
  have fewer : p.idleTypings ((phaseCell (.struct id) .typing).write .inProgress base) ≤ p.idleTypings base :=
    Cells.idle_enter_le _ _ _
  rw [Bound.Expr.types_all_collect]
  exact type_nodes_run consistent answers (by omega) _

theorem types_using_answer : TypeSource.Answers p (k + 1) ⟨p.variableTypeUsing ask, p.returnTypeUsing ask⟩ where
  variableType base few id there := by
    obtain ⟨v, found, here⟩ := variable_at_ok there
    refine succeeds_look_up found ?_
    split
    · rename_i owner index param origin
      obtain ⟨f, there', _⟩ := function_at_ok (consistent.owners _ _ here _ _ _ origin)
      exact succeeds_look_up there' (succeeds_pure (signature_params_known consistent f index))
    · split
      · rename_i t declared
        exact succeeds_pure (declared ▸ declared_type_known consistent v)
      · unfold Program.inferredVariableType
        refine succeeds_bind succeeds_get (fun facts sound => ?_)
        split
        · rename_i t known
          exact succeeds_pure (sound.valid.variableTypes _ _ known)
        · refine runs_bind (resolve_variable_runs consistent there) (fun _ => ?_)
          refine runs_bind (type_variable_runs consistent answers few there) (fun _ => ?_)
          refine succeeds_bind succeeds_get (fun facts sound => succeeds_pure (fun t known => ?_))
          exact sound.valid.variableTypes _ _ (Option.join_eq_some_iff.mp known) t rfl
  returnType base few id there := by
    obtain ⟨f, found, _⟩ := function_at_ok there
    refine succeeds_look_up found ?_
    split
    · exact succeeds_pure (declared_return_known consistent f)
    · unfold Program.inferredReturnType
      refine succeeds_bind succeeds_get (fun facts sound => ?_)
      split
      · rename_i t known
        exact succeeds_pure (sound.valid.returnTypes _ _ known)
      · refine runs_bind (resolve_function_runs consistent there) (fun _ => ?_)
        refine runs_bind (type_function_runs consistent answers few there) (fun _ => ?_)
        refine succeeds_bind succeeds_get (fun facts sound => succeeds_pure (fun t known => ?_))
        exact sound.valid.returnTypes _ _ (Option.join_eq_some_iff.mp known) t rfl

end Typing

theorem types_within_answer (consistent : p.Consistent) (depth : Nat) : (p.typesWithin depth).Answers p depth := by
  induction depth with
  | zero => exact ⟨fun _ few => absurd few (Nat.not_lt_zero _), fun _ few => absurd few (Nat.not_lt_zero _)⟩
  | succ depth ih => exact types_using_answer consistent ih

theorem few_typings (base : Facts) : p.idleTypings base < p.functions.size + p.vars.size + 1 :=
  Nat.lt_succ_of_le (idle_typings_bounded base)

section Source
variable (consistent : p.Consistent)
include consistent

theorem type_source_answers : p.typeSource.Answers p (p.functions.size + p.vars.size + 1) :=
  types_within_answer consistent _

theorem type_function_succeeds {id : FunctionId} (there : p.HasFunction id) :
    Runs (Sound p base) (p.typeFunction p.typeSource id) :=
  type_function_runs consistent (type_source_answers consistent) (Nat.lt_succ_of_lt (few_typings base)) there

end Source

def Effect.Known (p : Program) (e : Effect) : Prop := ∀ f, e.cause = .recursiveInvocation f → p.HasFunction f

def SummarySource.Answers (p : Program) (access : Access) (k : Nat) (ask : SummarySource) : Prop :=
  ∀ base, p.idleSummaries access base < k → ∀ f, p.HasFunction f →
    Succeeds (Sound p base) (ask f) (fun answer => ∀ s, answer = some s → s.Known p)

theorem outside_effects_known (source : EffectSource) (span : Span) {cause : VariableId → EffectCause}
    (kind : ∀ v f, cause v ≠ .recursiveInvocation f) (found : Option VariableId) :
    ∀ e ∈ found.toList.map (fun v => Effect.mk source span (cause v)), e.Known p := by
  intro e member f same
  obtain ⟨v, _, rfl⟩ := List.mem_map.mp member
  exact absurd same (kind v f)

theorem callee_effects_known (access : Access) (call : Bound.Invocation) {f : FunctionId} (there : p.HasFunction f)
    (summary : Option EffectSummary) : ∀ e ∈ calleeEffects access call f summary, e.Known p := by
  intro e member g same
  unfold calleeEffects at member
  split at member
  · split at member
    · simp at member
    · rw [List.mem_singleton.mp member] at same
      cases access <;> cases same
  · rw [List.mem_singleton.mp member] at same
    cases same
    exact there

theorem of_effects_known {effects : List Effect} (known : ∀ e ∈ effects, e.Known p) :
    (EffectSummary.ofEffects effects).Known p := by
  intro call member
  obtain ⟨e, listed, recursive⟩ := List.mem_filterMap.mp member
  unfold EffectSummary.recursiveCall? at recursive
  split at recursive
  · rename_i f cause
    cases recursive
    exact known e listed f cause
  · cases recursive

section Effects
variable {access : Access} {k : Nat} {ask : SummarySource} (answers : SummarySource.Answers p access k ask)
include answers

theorem node_effects_succeed (few : p.idleSummaries access base < k) (boundary : ScopeId) (n : Bound.Node) :
    Succeeds (Sound p base) (n.effects p access ask boundary) (fun es => ∀ e ∈ es, e.Known p) := by
  cases n with
  | identifier node name site =>
    simp only [Bound.Node.effects]
    refine succeeds_bind succeeds_get (fun facts sound => succeeds_pure ?_)
    unfold Program.identifierEffects
    split
    · exact outside_effects_known _ _ (by simp) _
    · simp
  | call call receiver args =>
    simp only [Bound.Node.effects, Program.callEffects]
    refine succeeds_bind succeeds_get (fun facts sound => ?_)
    split
    · exact succeeds_pure (by simp)
    · rename_i f dispatched
      have there := sound.valid.dispatched _ _ dispatched
      refine succeeds_bind (answers base few f there) (fun summary _ => succeeds_pure ?_)
      exact callee_effects_known access call there summary
  | _ => exact succeeds_pure (by simp)

theorem nodes_effects_succeed (few : p.idleSummaries access base < k) (boundary : ScopeId) (ns : List Bound.Node) :
    Succeeds (Sound p base) (collect (Bound.Node.effects p access ask boundary) ns)
      (fun es => ∀ e ∈ es, e.Known p) :=
  succeeds_collect ns (fun n _ => node_effects_succeed answers few boundary n)

theorem variable_effects_succeed (few : p.idleSummaries access base < k) (boundary : ScopeId) {id : VariableId}
    (there : p.HasVariable id) :
    Succeeds (Sound p base) (p.variableEffects access ask boundary id) (fun es => ∀ e ∈ es, e.Known p) := by
  obtain ⟨v, found, _⟩ := variable_at_ok there
  refine succeeds_look_up found ?_
  rw [Bound.Expr.effects_option_collect]
  exact nodes_effects_succeed answers few boundary _

theorem step_effects_succeed (few : p.idleSummaries access base < k) (boundary : ScopeId) {s : Bound.Step}
    (there : ∀ id, s = .introduce id → p.HasVariable id) :
    Succeeds (Sound p base) (s.effects p access ask boundary) (fun es => ∀ e ∈ es, e.Known p) := by
  cases s with
  | node n => exact node_effects_succeed answers few boundary n
  | introduce id => exact variable_effects_succeed answers few boundary (there id rfl)
  | assign target value site =>
    have own : ∀ facts, ∀ e ∈ p.assignmentEffects facts access boundary target site, e.Known p := by
      intro facts
      unfold Program.assignmentEffects
      split
      · exact outside_effects_known _ _ (by simp) _
      · simp
    have ofTarget : Succeeds (Sound p base) (target.targetEffects p access ask boundary)
        (fun es => ∀ e ∈ es, e.Known p) := by
      unfold Bound.Expr.targetEffects
      split
      · exact succeeds_pure (by simp)
      · rw [Bound.Expr.effects_collect]
        exact nodes_effects_succeed answers few boundary _
    simp only [Bound.Step.effects, Bound.Expr.effects_collect p access ask boundary value]
    refine succeeds_bind succeeds_get (fun facts sound => ?_)
    refine succeeds_bind ofTarget (fun first known => ?_)
    refine succeeds_bind (nodes_effects_succeed answers few boundary _) (fun second known' => succeeds_pure ?_)
    intro e member
    rcases List.mem_append.mp member with left | right
    · exact (List.mem_append.mp left).elim (own facts e) (known e)
    · exact known' e right

theorem steps_effects_succeed (few : p.idleSummaries access base < k) (boundary : ScopeId)
    {steps : List Bound.Step} (there : ∀ id, .introduce id ∈ steps → p.HasVariable id) :
    Succeeds (Sound p base) (collect (Bound.Step.effects p access ask boundary) steps)
      (fun es => ∀ e ∈ es, e.Known p) :=
  succeeds_collect steps
    (fun _ member => step_effects_succeed answers few boundary (fun id same => there id (same ▸ member)))

theorem summary_using_answers (consistent : p.Consistent) :
    SummarySource.Answers p access (k + 1) (p.summaryUsing access ask) := by
  intro base few id there
  obtain ⟨f, found, here⟩ := function_at_ok there
  refine succeeds_look_up found (succeeds_summary (fun outside => ?_))
  have fewer : p.idleSummaries access ((summaryCell access id).write .inProgress base) < p.idleSummaries access base :=
    Cells.idle_enter (summary_key there) outside
  have same : f.id = id := consistent.functionIds _ _ here
  unfold Program.summarise
  split
  · refine succeeds_pure ?_
    intro call member
    simp [EffectSummary.assumed] at member
  · rename_i body written
    have locals := consistent.bodies _ _ here
    rw [written] at locals
    rw [same, Bound.Block.effects_collect]
    refine runs_bind (resolve_function_runs consistent there) (fun _ => ?_)
    refine runs_bind (type_function_succeeds consistent there) (fun _ => ?_)
    refine succeeds_bind (steps_effects_succeed answers (by omega) f.scope locals) (fun effects known => ?_)
    exact succeeds_pure (of_effects_known known)

end Effects

theorem summaries_within_answer (consistent : p.Consistent) (access : Access) (depth : Nat) :
    SummarySource.Answers p access depth (p.summariesWithin access depth) := by
  induction depth with
  | zero => exact fun _ few => absurd few (Nat.not_lt_zero _)
  | succ depth ih => exact summary_using_answers ih consistent

theorem few_summaries (access : Access) (base : Facts) : p.idleSummaries access base < p.functions.size + 1 :=
  Nat.lt_succ_of_le (idle_summaries_bounded access base)

theorem summary_succeeds (consistent : p.Consistent) (access : Access) {f : FunctionId} (there : p.HasFunction f) :
    Succeeds (Sound p base) (p.summary access f) (fun answer => ∀ s, answer = some s → s.Known p) :=
  summaries_within_answer consistent access _ base (few_summaries access base) f there

section Validation
variable (consistent : p.Consistent)
include consistent

omit consistent in
theorem validate_variable_runs {id : VariableId} (there : p.HasVariable id) :
    Runs (Sound p base) (p.validateVariable id) := by
  obtain ⟨v, found, _⟩ := variable_at_ok there
  exact succeeds_look_up found (runs_once (fun _ => runs_pure _))

omit consistent in
theorem validate_steps_run {steps : List Bound.Step} (there : ∀ id, .introduce id ∈ steps → p.HasVariable id) :
    Runs (Sound p base) (collect (Bound.Step.validate p) steps) := by
  refine runs_collect steps (fun s member => ?_)
  cases s with
  | introduce id => exact validate_variable_runs (there id member)
  | _ => exact runs_pure _

theorem violation_succeeds (access : Access) {f : Bound.Function} (there : p.HasFunction f.id) :
    Succeeds (Sound p base) (p.violation? access f)
      (fun violation => ∀ v, violation = some v → ∀ call ∈ v.recursive, p.HasFunction call.1) := by
  unfold Program.violation?
  split
  · refine succeeds_bind (summary_succeeds consistent access there) (fun summary known => ?_)
    split
    · exact succeeds_pure (by simp)
    · split
      · exact succeeds_pure (by simp)
      · refine succeeds_pure ?_
        intro v same
        cases same
        exact known _ rfl
  · exact succeeds_pure (by simp)

omit consistent in
theorem drop_repeats_member {α : Type} [DecidableEq α] {x : α} :
    ∀ {xs : List α}, x ∈ dropRepeats xs → x ∈ xs
  | [], member => by simp [dropRepeats] at member
  | [_], member => member
  | y :: z :: rest, member => by
    rw [dropRepeats] at member
    split at member
    · exact List.mem_cons_of_mem _ (drop_repeats_member member)
    · rcases List.mem_cons.mp member with rfl | later
      · exact List.mem_cons_self ..
      · exact List.mem_cons_of_mem _ (drop_repeats_member later)

omit consistent in
theorem recursion_warnings_ok {calls : List (FunctionId × Span)} (there : ∀ call ∈ calls, p.HasFunction call.1) :
    ∃ warnings, p.recursionWarnings calls = .ok warnings := by
  unfold Program.recursionWarnings
  split
  · obtain ⟨warnings, mapped, _⟩ := map_ok (R := fun _ _ => True) (f := p.recursionWarning)
      (dropRepeats (stableSort (fun a b => a.2.startsBy b.2) calls)) (fun call member => by
        have original := (stable_sort_perm _ _).mem_iff.mp (drop_repeats_member member)
        obtain ⟨f, found, _⟩ := function_at_ok (there call original)
        exact ⟨_, by rw [Program.recursionWarning, found]; rfl, trivial⟩)
    exact ⟨warnings, mapped⟩
  · exact ⟨_, rfl⟩

theorem validate_claims_run {f : Bound.Function} (there : p.HasFunction f.id) :
    Runs (Sound p base) (p.validateClaims f) := by
  refine succeeds_bind (violation_succeeds consistent .read there) (fun reads known => ?_)
  refine succeeds_bind (violation_succeeds consistent .write there) (fun writes known' => ?_)
  have all : ∀ call ∈ (reads.toList ++ writes.toList).flatMap Program.Violation.recursive, p.HasFunction call.1 := by
    intro call member
    obtain ⟨v, listed, called⟩ := List.mem_flatMap.mp member
    rcases List.mem_append.mp listed with left | right
    · exact known v (Option.mem_toList.mp left) call called
    · exact known' v (Option.mem_toList.mp right) call called
  obtain ⟨warnings, found⟩ := recursion_warnings_ok all
  exact succeeds_look_up found (runs_pure _)

theorem validate_function_runs {id : FunctionId} (there : p.HasFunction id) :
    Runs (Sound p base) (p.validateFunction id) := by
  obtain ⟨f, found, here⟩ := function_at_ok there
  have same : f.id = id := consistent.functionIds _ _ here
  refine succeeds_look_up found (runs_once (fun _ => ?_))
  unfold Program.validateBody
  split
  · exact runs_pure _
  · rename_i body written
    have locals := consistent.bodies _ _ here
    rw [written] at locals
    rw [Bound.Block.validate_collect]
    refine runs_bind (validate_steps_run locals) (fun _ => ?_)
    exact runs_bind (validate_claims_run consistent (same ▸ there)) (fun _ => runs_pure _)

theorem run_phase_runs {d : Declaration} (there : p.HasDeclaration d) (phase : Phase) :
    Runs (Sound p base) (p.runPhase d phase) :=
  have sources := type_source_answers consistent
  match d, phase, there with
  | .function _, .resolution, there => resolve_function_runs consistent there
  | .function _, .typing, there => type_function_succeeds consistent there
  | .function _, .validation, there => validate_function_runs consistent there
  | .variable _, .resolution, there => resolve_variable_runs consistent there
  | .variable _, .typing, there => type_variable_runs consistent sources (Nat.lt_succ_of_lt (few_typings base)) there
  | .variable _, .validation, there => validate_variable_runs there
  | .struct _, .resolution, there => resolve_struct_runs consistent there
  | .struct _, .typing, there => type_struct_runs consistent sources (few_typings base) there
  | .struct id, .validation, there => by
    obtain ⟨s, found, _⟩ := struct_at_ok there
    change Runs (Sound p base) (p.validateStruct id)
    exact succeeds_look_up found (runs_once (fun _ => runs_pure _))

theorem analyse_runs : Runs (Sound p base) p.analyse := by
  rw [analyse_collect]
  refine runs_collect _ (fun phase _ => ?_)
  rw [run_phase_all_collect]
  exact runs_collect _ (fun d declared => run_phase_runs consistent (consistent.declared d declared) phase)

end Validation

end SemanticAnalysis
