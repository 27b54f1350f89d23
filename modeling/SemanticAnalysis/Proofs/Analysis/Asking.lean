import SemanticAnalysis.Proofs.Analysis.Growth
/-!
The states in which analysis asks. Typing asks for types only from inside a declaration whose typing is in progress,
and summing up effects asks for effects only from inside a function whose summing up is in progress. Both are said by
agreement: sources that agree on those states cannot be told apart.
-/
namespace SemanticAnalysis
open Analysis

section Lookup
variable {p : Program}

theorem function_at_ok_iff {id : FunctionId} {f : Bound.Function} :
    p.functionAt id = .ok f ↔ p.functions[id.index]? = some f := by
  unfold Program.functionAt
  split <;> simp_all

theorem variable_at_ok_iff {id : VariableId} {v : Bound.Variable} :
    p.variableAt id = .ok v ↔ p.vars[id.index]? = some v := by
  unfold Program.variableAt
  split <;> simp_all

theorem struct_at_ok_iff {id : StructId} {s : Bound.Struct} :
    p.structAt id = .ok s ↔ p.structs[id.index]? = some s := by
  unfold Program.structAt
  split <;> simp_all

theorem function_at_index {id : FunctionId} {f : Bound.Function} (found : p.functionAt id = .ok f) :
    id.index < p.functions.size :=
  (Array.getElem?_eq_some_iff.mp (function_at_ok_iff.mp found)).1

theorem variable_at_index {id : VariableId} {v : Bound.Variable} (found : p.variableAt id = .ok v) :
    id.index < p.vars.size :=
  (Array.getElem?_eq_some_iff.mp (variable_at_ok_iff.mp found)).1

end Lookup

section Resolution
variable (p : Program)

theorem resolve_node_grows (n : Bound.Node) : Grows (n.resolve p) := by
  cases n with
  | identifier node name site =>
    change Grows (p.resolveIdentifier node name site)
    unfold Program.resolveIdentifier
    split
    · exact grows_bind (fun facts => facts.extends_record_referral _ _) (fun _ => grows_pure _)
    · exact grows_pure _
  | _ => exact grows_pure _

theorem resolve_nodes_grow (ns : List Bound.Node) : Grows (collect (Bound.Node.resolve p) ns) :=
  grows_collect ns (fun n _ => resolve_node_grows p n)

theorem resolve_variable_grows (id : VariableId) : Grows (p.resolveVariable id) := by
  refine grows_bind (grows_lift _) (fun v => grows_once ?_)
  rw [Bound.Expr.resolve_option_collect]
  exact grows_bind (resolve_nodes_grow p _) (fun _ => grows_pure _)

theorem resolve_step_grows (s : Bound.Step) : Grows (s.resolve p) := by
  cases s with
  | node n => exact resolve_node_grows p n
  | introduce id => exact resolve_variable_grows p id
  | assign target value site =>
    rw [Bound.Step.resolve_assign]
    exact resolve_nodes_grow p _

theorem resolve_function_grows (id : FunctionId) : Grows (p.resolveFunction id) := by
  refine grows_bind (grows_lift _) (fun f => grows_once ?_)
  rw [Bound.Block.resolve_option_collect]
  exact grows_bind (grows_collect _ (fun s _ => resolve_step_grows p s)) (fun _ => grows_pure _)

theorem resolve_struct_grows (id : StructId) : Grows (p.resolveStruct id) := by
  refine grows_bind (grows_lift _) (fun s => grows_once ?_)
  rw [Bound.Expr.resolve_all_collect]
  exact grows_bind (resolve_nodes_grow p _) (fun _ => grows_pure _)

end Resolution

def TypeSource.Agree (region : Facts → Prop) (ask ask' : TypeSource) : Prop :=
  (∀ v, Analysis.Agree region (ask.variableType v) (ask'.variableType v)) ∧
    ∀ f, Analysis.Agree region (ask.returnType f) (ask'.returnType f)

/-- A region that is left neither by finding something out nor by entering a phase of a declaration. -/
structure Analysis.Region (region : Facts → Prop) : Prop where
  stable : Stable region
  enters : ∀ (facts : Facts) d phase, region facts → (Facts.phaseCell d phase).read facts = .unknown →
    region ((Facts.phaseCell d phase).write .inProgress facts)

theorem Analysis.region_true : Region (fun _ => True) := ⟨fun _ _ _ _ => trivial, fun _ _ _ _ _ => trivial⟩

section Typing
variable {p : Program} {region outer : Facts → Prop} {ask ask' : TypeSource}

theorem settle_referral_grows (node : NodeId) (name : String) (site : Site) :
    Grows (p.settleReferral node name site) := by
  refine grows_bind grows_get (fun facts => ?_)
  split
  · exact grows_pure _
  · split
    · exact grows_bind (fun facts => facts.extends_record_referral _ _) (fun _ => grows_pure _)
    · exact grows_pure _

theorem settle_type_agrees (stable : Stable region) (sources : ask.Agree region ask') (node : NodeId) :
    Analysis.Agree region (Program.settleType ask node) (Program.settleType ask' node) := by
  refine agree_bind stable agree_get (fun facts => ?_)
  split
  · exact agree_pure _
  · refine agree_bind stable ?_ (fun type => agree_modify (fun facts => facts.extends_record_type _ _))
    unfold Program.referredType
    split
    · exact agree_pure _
    · exact sources.1 _
    · exact agree_pure _
    · exact agree_pure _

theorem settle_dispatch_agrees (stable : Stable region) (sources : ask.Agree region ask') (call : Bound.Invocation)
    (f : FunctionId) (receiver : Option TypeRef) :
    Analysis.Agree region (p.settleDispatch ask call f receiver) (p.settleDispatch ask' call f receiver) := by
  refine agree_bind stable agree_get (fun facts => ?_)
  split
  · exact agree_pure _
  · refine agree_bind stable ?_ (fun type => ?_)
    · unfold Program.resultType
      refine agree_bind stable ?_ (fun type => agree_pure _)
      unfold Program.valueType
      split
      · exact agree_pure _
      · exact sources.2 f
    · exact agree_bind stable (agree_modify (fun facts => facts.extends_record_dispatch _ _))
        (fun _ => agree_modify (fun facts => facts.extends_record_type _ _))

theorem type_invocation_agrees (stable : Stable region) (sources : ask.Agree region ask') (call : Bound.Invocation)
    (receiver : Option (Option TypeRef)) (arguments : List (Option TypeRef)) :
    Analysis.Agree region (p.typeInvocation ask call receiver arguments)
      (p.typeInvocation ask' call receiver arguments) := by
  refine agree_bind stable (agree_lift _) (fun ranked => ?_)
  split
  · exact agree_bind stable (agree_modify (fun facts => facts.extends_record_type _ _)) (fun _ => agree_pure _)
  · refine agree_bind stable (agree_lift _) (fun ambiguous => ?_)
    exact agree_bind stable (settle_dispatch_agrees stable sources call _ _) (fun _ => agree_pure _)

theorem type_member_grows (node : NodeId) (object : Option TypeRef) (member : Ident) (nullSafe : Bool) (site : Site) :
    Grows (p.typeMember node object member nullSafe site) := by
  have records : ∀ t, Grows (modify (Facts.recordType node t)) := fun t facts => facts.extends_record_type _ _
  unfold Program.typeMember
  split
  · exact grows_bind (records _) (fun _ => grows_pure _)
  · refine grows_bind (grows_lift _) (fun struct => ?_)
    split
    · exact grows_bind (records _) (fun _ => grows_pure _)
    · exact grows_bind (records _) (fun _ => grows_pure _)

theorem type_node_agrees (stable : Stable region) (sources : ask.Agree region ask') (n : Bound.Node) :
    Analysis.Agree region (n.assignTypes p ask) (n.assignTypes p ask') := by
  cases n with
  | identifier node name site =>
    simp only [Bound.Node.assignTypes, Program.typeIdentifier]
    refine agree_bind stable (agree_of_grows (settle_referral_grows _ _ _)) (fun findings => ?_)
    exact agree_bind stable (settle_type_agrees stable sources node) (fun _ => agree_pure _)
  | number => exact agree_pure _
  | call call receiver args =>
    simp only [Bound.Node.assignTypes]
    exact agree_bind stable agree_get (fun facts => type_invocation_agrees stable sources call _ _)
  | member node object name nullSafe site =>
    simp only [Bound.Node.assignTypes]
    exact agree_bind stable agree_get (fun facts => agree_of_grows (type_member_grows _ _ _ _ _))

theorem type_nodes_agree (stable : Stable region) (sources : ask.Agree region ask') (ns : List Bound.Node) :
    Analysis.Agree region (collect (Bound.Node.assignTypes p ask) ns) (collect (Bound.Node.assignTypes p ask') ns) :=
  agree_collect stable ns (fun n _ => type_node_agrees stable sources n)

theorem type_variable_agrees (within : Region region) (outside : Stable outer) (sources : ask.Agree region ask')
    (id : VariableId)
    (enter : ∀ facts, id.index < p.vars.size → outer facts →
      (Facts.phaseCell (.variable id) .typing).read facts = .unknown →
      region ((Facts.phaseCell (.variable id) .typing).write .inProgress facts)) :
    Analysis.Agree outer (p.typeVariable ask id) (p.typeVariable ask' id) := by
  refine agree_lift_bind (fun v found => ?_)
  refine agree_once outside (fun facts => enter facts (variable_at_index found)) ?_
  rw [Bound.Expr.types_option_collect, Bound.Expr.types_option_collect]
  refine agree_bind within.stable (type_nodes_agree within.stable sources _) (fun ofInitializer => ?_)
  refine agree_bind within.stable agree_get (fun facts => ?_)
  refine agree_bind within.stable (agree_lift _) (fun own => ?_)
  exact agree_bind within.stable (agree_modify (fun facts => facts.extends_record_variable_type _ _))
    (fun _ => agree_pure _)

theorem assignment_findings_grow (target : Bound.Expr) (site : Site) : Grows (p.assignmentFindings target site) := by
  unfold Program.assignmentFindings
  split
  · refine grows_bind grows_get (fun facts => ?_)
    split
    · exact grows_bind (grows_lift _) (fun v => grows_pure _)
    · exact grows_pure _
  · exact grows_pure _

theorem type_step_agrees (within : Region region) (sources : ask.Agree region ask') (s : Bound.Step) :
    Analysis.Agree region (s.assignTypes p ask) (s.assignTypes p ask') := by
  cases s with
  | node n => exact type_node_agrees within.stable sources n
  | introduce id => exact type_variable_agrees within within.stable sources id (fun facts _ => within.enters facts _ _)
  | assign target value site =>
    simp only [Bound.Step.assignTypes, Bound.Expr.types_collect]
    refine agree_bind within.stable (type_nodes_agree within.stable sources _) (fun _ => ?_)
    refine agree_bind within.stable (type_nodes_agree within.stable sources _) (fun _ => ?_)
    exact agree_bind within.stable (agree_of_grows (assignment_findings_grow _ _)) (fun _ => agree_pure _)

theorem type_function_agrees (within : Region region) (outside : Stable outer) (sources : ask.Agree region ask')
    (id : FunctionId)
    (enter : ∀ facts, id.index < p.functions.size → outer facts →
      (Facts.phaseCell (.function id) .typing).read facts = .unknown →
      region ((Facts.phaseCell (.function id) .typing).write .inProgress facts)) :
    Analysis.Agree outer (p.typeFunction ask id) (p.typeFunction ask' id) := by
  refine agree_lift_bind (fun f found => ?_)
  refine agree_once outside (fun facts => enter facts (function_at_index found)) ?_
  rw [Bound.Block.types_option_collect, Bound.Block.types_option_collect]
  refine agree_bind within.stable (agree_collect within.stable _ (fun s _ => type_step_agrees within sources s))
    (fun findings => ?_)
  refine agree_bind within.stable agree_get (fun facts => ?_)
  refine agree_bind within.stable (agree_lift _) (fun inferred => ?_)
  exact agree_bind within.stable (agree_modify (fun facts => facts.extends_record_return_type _ _))
    (fun _ => agree_pure _)

theorem type_struct_agrees (within : Region region) (sources : ask.Agree region ask') (id : StructId) :
    Analysis.Agree region (p.typeStruct ask id) (p.typeStruct ask' id) := by
  refine agree_bind within.stable (agree_lift _) (fun s => ?_)
  refine agree_once within.stable (fun facts => within.enters facts _ _) ?_
  rw [Bound.Expr.types_all_collect, Bound.Expr.types_all_collect]
  exact type_nodes_agree within.stable sources _

theorem variable_type_agrees (within : Region region) (outside : Stable outer) (sources : ask.Agree region ask')
    (id : VariableId)
    (enter : ∀ facts, id.index < p.vars.size → outer facts →
      (Facts.phaseCell (.variable id) .typing).read facts = .unknown →
      region ((Facts.phaseCell (.variable id) .typing).write .inProgress facts)) :
    Analysis.Agree outer (p.variableTypeUsing ask id) (p.variableTypeUsing ask' id) := by
  refine agree_bind outside (agree_lift _) (fun v => ?_)
  split
  · exact agree_bind outside (agree_lift _) (fun f => agree_pure _)
  · split
    · exact agree_pure _
    · unfold Program.inferredVariableType
      refine agree_bind outside agree_get (fun facts => ?_)
      split
      · exact agree_pure _
      · refine agree_bind outside (agree_of_grows (resolve_variable_grows p id)) (fun _ => ?_)
        refine agree_bind outside (type_variable_agrees within outside sources id enter) (fun _ => ?_)
        exact agree_bind outside agree_get (fun facts => agree_pure _)

theorem return_type_agrees (within : Region region) (outside : Stable outer) (sources : ask.Agree region ask')
    (id : FunctionId)
    (enter : ∀ facts, id.index < p.functions.size → outer facts →
      (Facts.phaseCell (.function id) .typing).read facts = .unknown →
      region ((Facts.phaseCell (.function id) .typing).write .inProgress facts)) :
    Analysis.Agree outer (p.returnTypeUsing ask id) (p.returnTypeUsing ask' id) := by
  refine agree_bind outside (agree_lift _) (fun f => ?_)
  split
  · exact agree_pure _
  · unfold Program.inferredReturnType
    refine agree_bind outside agree_get (fun facts => ?_)
    split
    · exact agree_pure _
    · refine agree_bind outside (agree_of_grows (resolve_function_grows p id)) (fun _ => ?_)
      refine agree_bind outside (type_function_agrees within outside sources id enter) (fun _ => ?_)
      exact agree_bind outside agree_get (fun facts => agree_pure _)

end Typing

theorem types_within_grow (p : Program) (depth : Nat) :
    (p.typesWithin depth).Agree (fun _ => True) (p.typesWithin depth) := by
  induction depth with
  | zero => exact ⟨fun _ => agree_throw _, fun _ => agree_throw _⟩
  | succ depth ih =>
    have everywhere := region_true
    exact ⟨fun v => variable_type_agrees everywhere everywhere.stable ih v (fun _ _ _ _ => trivial),
      fun f => return_type_agrees everywhere everywhere.stable ih f (fun _ _ _ _ => trivial)⟩

section
variable (p : Program)

theorem type_function_grows (id : FunctionId) : Grows (p.typeFunction p.typeSource id) :=
  grows_iff_agree.mpr (type_function_agrees region_true region_true.stable (types_within_grow p _) id
    (fun _ _ _ _ => trivial))

theorem type_variable_grows (id : VariableId) : Grows (p.typeVariable p.typeSource id) :=
  grows_iff_agree.mpr (type_variable_agrees region_true region_true.stable (types_within_grow p _) id
    (fun _ _ _ _ => trivial))

end

section Effects
variable {p : Program} {region outer : Facts → Prop} {access : Access} {ask ask' : SummarySource}

theorem node_effects_agree (stable : Stable region) (sources : ∀ f, Analysis.Agree region (ask f) (ask' f))
    (boundary : ScopeId) (n : Bound.Node) :
    Analysis.Agree region (n.effects p access ask boundary) (n.effects p access ask' boundary) := by
  cases n with
  | identifier node name site =>
    simp only [Bound.Node.effects]
    exact agree_bind stable agree_get (fun facts => agree_pure _)
  | call call receiver args =>
    simp only [Bound.Node.effects, Program.callEffects]
    refine agree_bind stable agree_get (fun facts => ?_)
    split
    · exact agree_pure _
    · exact agree_bind stable (sources _) (fun summary => agree_pure _)
  | _ => exact agree_pure _

theorem nodes_effects_agree (stable : Stable region) (sources : ∀ f, Analysis.Agree region (ask f) (ask' f))
    (boundary : ScopeId) (ns : List Bound.Node) :
    Analysis.Agree region (collect (Bound.Node.effects p access ask boundary) ns)
      (collect (Bound.Node.effects p access ask' boundary) ns) :=
  agree_collect stable ns (fun n _ => node_effects_agree stable sources boundary n)

theorem variable_effects_agree (stable : Stable region) (sources : ∀ f, Analysis.Agree region (ask f) (ask' f))
    (boundary : ScopeId) (id : VariableId) :
    Analysis.Agree region (p.variableEffects access ask boundary id) (p.variableEffects access ask' boundary id) := by
  refine agree_bind stable (agree_lift _) (fun v => ?_)
  rw [Bound.Expr.effects_option_collect, Bound.Expr.effects_option_collect]
  exact nodes_effects_agree stable sources boundary _

theorem step_effects_agree (stable : Stable region) (sources : ∀ f, Analysis.Agree region (ask f) (ask' f))
    (boundary : ScopeId) (s : Bound.Step) :
    Analysis.Agree region (s.effects p access ask boundary) (s.effects p access ask' boundary) := by
  cases s with
  | node n => exact node_effects_agree stable sources boundary n
  | introduce id => exact variable_effects_agree stable sources boundary id
  | assign target value site =>
    simp only [Bound.Step.effects, Bound.Expr.targetEffects, Bound.Expr.effects_collect]
    refine agree_bind stable agree_get (fun facts => ?_)
    refine agree_bind stable ?_ (fun ofTarget => ?_)
    · split
      · exact agree_pure _
      · exact nodes_effects_agree stable sources boundary _
    · exact agree_bind stable (nodes_effects_agree stable sources boundary _) (fun ofValue => agree_pure _)

theorem block_effects_agree (stable : Stable region) (sources : ∀ f, Analysis.Agree region (ask f) (ask' f))
    (boundary : ScopeId) (b : Bound.Block) :
    Analysis.Agree region (b.effects p access ask boundary) (b.effects p access ask' boundary) := by
  rw [Bound.Block.effects_collect, Bound.Block.effects_collect]
  exact agree_collect stable _ (fun s _ => step_effects_agree stable sources boundary s)

theorem summary_agrees (within : Stable region) (sources : ∀ f, Analysis.Agree region (ask f) (ask' f))
    (id : FunctionId)
    (enter : ∀ facts, id.index < p.functions.size → outer facts →
      (Facts.summaryCell access id).read facts = .unknown →
      region ((Facts.summaryCell access id).write .inProgress facts)) :
    Analysis.Agree outer (p.summaryUsing access ask id) (p.summaryUsing access ask' id) := by
  refine agree_lift_bind (fun f found => ?_)
  refine agree_compute (fun facts after m => Facts.extends_through_summary)
    (fun facts => enter facts (function_at_index found)) ?_
  unfold Program.summarise
  split
  · exact agree_pure _
  · refine agree_bind within (agree_of_grows (resolve_function_grows p _)) (fun _ => ?_)
    refine agree_bind within (agree_of_grows (type_function_grows p _)) (fun _ => ?_)
    exact agree_bind within (block_effects_agree within sources _ _) (fun effects => agree_pure _)

end Effects

theorem summaries_within_grow (p : Program) (access : Access) (depth : Nat) (f : FunctionId) :
    Grows (p.summariesWithin access depth f) := by
  induction depth generalizing f with
  | zero => exact grows_throw _
  | succ depth ih =>
    exact grows_iff_agree.mpr (summary_agrees region_true.stable
      (fun f => agree_of_grows (ih f)) f (fun _ _ _ _ => trivial))

section Questions
variable (p : Program)

theorem summary_grows (access : Access) (f : FunctionId) : Grows (p.summary access f) :=
  summaries_within_grow p access _ f

theorem validate_variable_grows (id : VariableId) : Grows (p.validateVariable id) :=
  grows_bind (grows_lift _) (fun _ => grows_once (grows_pure _))

theorem validate_step_grows (s : Bound.Step) : Grows (s.validate p) := by
  cases s with
  | introduce id => exact validate_variable_grows p id
  | _ => exact grows_pure _

theorem violation_grows (access : Access) (f : Bound.Function) : Grows (p.violation? access f) := by
  unfold Program.violation?
  split
  · refine grows_bind (summary_grows p access _) (fun summary => ?_)
    split
    · exact grows_pure _
    · split
      · exact grows_pure _
      · exact grows_pure _
  · exact grows_pure _

theorem validate_claims_grow (f : Bound.Function) : Grows (p.validateClaims f) :=
  grows_bind (violation_grows p .read f) (fun _ => grows_bind (violation_grows p .write f)
    (fun _ => grows_bind (grows_lift _) (fun _ => grows_pure _)))

theorem validate_function_grows (id : FunctionId) : Grows (p.validateFunction id) := by
  refine grows_bind (grows_lift _) (fun f => grows_once ?_)
  unfold Program.validateBody
  split
  · exact grows_pure _
  · rw [Bound.Block.validate_collect]
    exact grows_bind (grows_collect _ (fun s _ => validate_step_grows p s))
      (fun _ => grows_bind (validate_claims_grow p f) (fun _ => grows_pure _))

theorem run_phase_grows (d : Declaration) (phase : Phase) : Grows (p.runPhase d phase) :=
  match d, phase with
  | .function id, .resolution => resolve_function_grows p id
  | .function id, .typing => type_function_grows p id
  | .function id, .validation => validate_function_grows p id
  | .variable id, .resolution => resolve_variable_grows p id
  | .variable id, .typing => type_variable_grows p id
  | .variable id, .validation => validate_variable_grows p id
  | .struct id, .resolution => resolve_struct_grows p id
  | .struct id, .typing => grows_iff_agree.mpr (type_struct_agrees region_true (types_within_grow p _) id)
  | .struct _, .validation => grows_bind (grows_lift _) (fun _ => grows_once (grows_pure _))

end Questions

end SemanticAnalysis
