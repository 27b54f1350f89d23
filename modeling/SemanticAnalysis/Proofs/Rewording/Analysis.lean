import SemanticAnalysis.Proofs.Rewording.Logic
/-!
Analysis of a program in other words. It finds out the same facts. Its findings are those of the first analysis as far
as they are kept and looked at: an option may hold findings back, and the place of a finding may be worded differently.
-/
namespace SemanticAnalysis
open Running Analysis SemanticAnalysis.Bound

def Cause.isOptional : Cause → Bool
  | .ambiguousInvocation _ _ => true
  | .recursivePurityCheck _ => true
  | _ => false

theorem Cause.optional_topic {cause : Cause} (optional : cause.isOptional = true) :
    cause.topic = .node ∨ cause.topic = .declaration := by
  unfold isOptional at optional
  split at optional
  · exact .inl rfl
  · exact .inr rfl
  · cases optional

/-- Of the findings, those that are kept are told, in that order and as far as one can see. -/
def Diagnostics.Retells {β : Type} (keep : Diagnostic → Bool) (view : Diagnostic → β) (found told : List Diagnostic) :
    Prop := told.map view = (found.filter keep).map view

/-- A program in other words, in which names mean the same. -/
structure Program.Mirrors (r : Rewording) (p q : Program) : Prop where
  types : q.types = p.types
  functions : q.functions = p.functions.map r.boundFunction
  vars : q.vars = p.vars.map r.boundVariable
  structs : q.structs = p.structs.map r.boundStruct
  structTypes : q.structTypes = p.structTypes
  modules : q.modules = p.modules
  findVariable : ∀ id name, q.scopes.findVariable? id name = p.scopes.findVariable? id name
  findType : ∀ id name, q.scopes.findType? id name = p.scopes.findType? id name
  findFunctions : ∀ id name, q.scopes.findFunctions id name = p.scopes.findFunctions id name
  isWithin : ∀ id v boundary, q.scopes.isWithin id v boundary = p.scopes.isWithin id v boundary

/-- Two settings of the options differ only in findings that are not kept, and no one looks at what is worded
differently. -/
structure Options.Reports {β : Type} (r : Rewording) (keep : Diagnostic → Bool) (view : Diagnostic → β)
    (options options' : Options) : Prop where
  plain : ∀ d, d.error.cause.isOptional = false → keep d = true
  ambiguous : ∀ name candidates span,
    (options.reportAmbiguousOverloads && keep (.ofError (.ambiguousInvocation name candidates) span))
      = options'.reportAmbiguousOverloads
  recursive : ∀ callee span,
    (options.warnOnRecursivePurity && keep (.ofWarning (.recursivePurityCheck callee) span))
      = options'.warnOnRecursivePurity
  initializer : ∀ cause e,
    view (.ofError cause (r.boundValue e).site.span) = view (.ofError cause e.site.span)

namespace Diagnostics
variable {β : Type} {keep : Diagnostic → Bool} {view : Diagnostic → β}

theorem retells_nil : Retells keep view [] [] := rfl

theorem retells_append (xs ys xs' ys' : List Diagnostic) (first : Retells keep view xs ys)
    (second : Retells keep view xs' ys') : Retells keep view (xs ++ xs') (ys ++ ys') := by
  unfold Retells at first second ⊢
  rw [List.map_append, List.filter_append, List.map_append, first, second]

theorem retells_kept {found : List Diagnostic} (kept : ∀ d ∈ found, keep d = true) : Retells keep view found found := by
  unfold Retells
  rw [List.filter_eq_self.mpr kept]

end Diagnostics

namespace Program
open Diagnostics

variable {r : Rewording} {p q : Program}

section Same
variable (mirrors : p.Mirrors r q)
include mirrors

theorem function_at_mirrors (id : FunctionId) : q.functionAt id = (p.functionAt id).map r.boundFunction :=
  r.function_at_map mirrors.functions id

theorem variable_at_mirrors (id : VariableId) : q.variableAt id = (p.variableAt id).map r.boundVariable := by
  unfold variableAt
  rw [mirrors.vars, Array.getElem?_map]
  cases p.vars[id.index]? <;> rfl

theorem struct_at_mirrors (id : StructId) : q.structAt id = (p.structAt id).map r.boundStruct := by
  unfold structAt
  rw [mirrors.structs, Array.getElem?_map]
  cases p.structs[id.index]? <;> rfl

theorem declarations_mirror : q.declarations = p.declarations := by
  unfold declarations
  rw [mirrors.modules]

theorem referral_mirrors (scope : ScopeId) (name : String) : q.referral? scope name = p.referral? scope name := by
  unfold referral?
  rw [mirrors.findVariable, mirrors.findType]

theorem resolve_type_mirrors (scope : ScopeId) (t : Tree.TypeExpr) : q.resolveType scope t = p.resolveType scope t := by
  unfold resolveType
  rw [mirrors.findType, mirrors.types]

theorem resolved_type_mirrors : q.resolvedType = p.resolvedType := by
  funext scope t
  unfold resolvedType
  simp only [resolve_type_mirrors mirrors]

theorem type_error_mirrors : q.typeError? = p.typeError? := by
  funext scope t
  unfold typeError?
  simp only [resolve_type_mirrors mirrors]

theorem signature_mirrors (f : Function) : q.signature (r.boundFunction f) = p.signature f := by
  unfold signature signatureOf Rewording.boundFunction
  cases f.origin <;> simp only [resolved_type_mirrors mirrors, type_error_mirrors mirrors, Rewording.functionDecl]

theorem declared_type_mirrors (v : Variable) : q.declaredType (r.boundVariable v) = p.declaredType v := by
  unfold declaredType Rewording.boundVariable
  cases v.origin <;> simp only [resolved_type_mirrors mirrors, Rewording.variableDecl]

theorem declared_type_error_mirrors (v : Variable) :
    q.declaredTypeError? (r.boundVariable v) = p.declaredTypeError? v := by
  unfold declaredTypeError? Rewording.boundVariable
  cases v.origin <;> simp only [type_error_mirrors mirrors, Rewording.variableDecl]

omit mirrors in
theorem member_mirrors (s : Struct) (name : String) :
    (r.boundStruct s).member? name = (s.member? name).map r.boundMember := by
  unfold Struct.member? Rewording.boundStruct
  rw [List.find?_map]
  rfl

theorem member_type_mirrors (s : Struct) (name : String) :
    q.memberType (r.boundStruct s) name = p.memberType s name := by
  unfold memberType
  rw [member_mirrors, resolved_type_mirrors mirrors]
  cases s.member? name <;> rfl

theorem struct_of_mirrors (type : TypeId) :
    q.structOf? type = (p.structOf? type).map (Option.map r.boundStruct) := by
  unfold structOf?
  rw [mirrors.structTypes]
  cases p.structTypes.find? type with
  | none => rfl
  | some id =>
    dsimp only
    rw [struct_at_mirrors mirrors]
    cases p.structAt id <;> rfl

theorem accessed_type_mirrors (object : TypeRef) (member : Ident) (struct : Option Struct) :
    q.accessedType object member (struct.map r.boundStruct) = p.accessedType object member struct := by
  unfold accessedType
  rw [mirrors.types]
  cases struct with
  | none => rfl
  | some s =>
    simp only [Option.map_some, Option.bind_some, member_mirrors]
    cases s.member? member.name with
    | none => rfl
    | some m => simp only [Option.map_some, member_type_mirrors mirrors]

omit mirrors in
theorem name_mirrors (f : Function) : (r.boundFunction f).name = f.name := by
  unfold Function.name Rewording.boundFunction
  cases f.origin <;> rfl

omit mirrors in
theorem name_span_mirrors (f : Function) : (r.boundFunction f).nameSpan = f.nameSpan := by
  unfold Function.nameSpan Rewording.boundFunction
  cases f.origin <;> rfl

omit mirrors in
theorem operator_mirrors (f : Function) : (r.boundFunction f).modifiers.operator = f.modifiers.operator := by
  unfold Function.modifiers Rewording.boundFunction
  cases f.origin with
  | builtin b => rfl
  | declared decl =>
    dsimp only [Rewording.functionDecl]
    split
    · exact r.operator decl.modifiers
    · rfl

theorem candidates_mirror (call : Invocation) : q.candidates call = p.candidates call := by
  have same : ∀ id : FunctionId, (do let f ← q.functionAt id; pure f.modifiers.operator : Except InternalError Bool)
      = (do let f ← p.functionAt id; pure f.modifiers.operator) := by
    intro id
    rw [function_at_mirrors mirrors]
    cases p.functionAt id with
    | error e => rfl
    | ok f => exact congrArg Except.ok (operator_mirrors f)
  unfold candidates
  rw [mirrors.findFunctions, funext same]

theorem match_mirrors (receiver : Option TypeRef) (arguments : List (Option TypeRef)) (id : FunctionId) :
    q.match? receiver arguments id = p.match? receiver arguments id := by
  unfold match?
  rw [function_at_mirrors mirrors, mirrors.types]
  cases p.functionAt id with
  | error e => rfl
  | ok f =>
    change (do let distance ← Overload.candidateDistance p.types (q.signature (r.boundFunction f)) receiver arguments; _)
      = _
    rw [signature_mirrors mirrors]
    rfl

theorem resolve_overload_mirrors (candidates : List FunctionId) (receiver : Option TypeRef)
    (arguments : List (Option TypeRef)) :
    q.resolveOverload candidates receiver arguments = p.resolveOverload candidates receiver arguments := by
  have same : q.match? receiver arguments = p.match? receiver arguments := funext (match_mirrors mirrors _ _)
  unfold resolveOverload
  rw [same]

theorem ranked_mirrors (call : Invocation) (receiver : Option (Option TypeRef)) (arguments : List (Option TypeRef)) :
    q.ranked call receiver arguments = p.ranked call receiver arguments := by
  unfold ranked
  rw [candidates_mirror mirrors]
  simp only [resolve_overload_mirrors mirrors]

theorem ambiguity_mirrors (name : String) (ranked : List Overload.Match) :
    q.ambiguity name ranked = p.ambiguity name ranked := by
  have text : ∀ id, q.candidateText id = p.candidateText id := by
    intro id
    unfold candidateText
    rw [function_at_mirrors mirrors, mirrors.types]
    cases p.functionAt id with
    | error e => rfl
    | ok f =>
      change Except.ok (callText _ (r.boundFunction f).name _) = Except.ok (callText _ f.name _)
      rw [signature_mirrors mirrors, name_mirrors]
  unfold ambiguity
  simp only [text]

theorem unresolvable_mirrors (call : Invocation) (receiver : Option TypeRef) (arguments : List (Option TypeRef)) :
    q.unresolvable call receiver arguments = p.unresolvable call receiver arguments := by
  unfold unresolvable
  rw [mirrors.types]

theorem outside_mirrors {facts other : Facts} (same : other.referrals = facts.referrals) (boundary : ScopeId)
    (node : NodeId) (scope : ScopeId) :
    q.outside? other boundary node scope = p.outside? facts boundary node scope := by
  unfold outside?
  simp only [same, mirrors.isWithin]

end Same

variable {β : Type} {keep : Diagnostic → Bool} {view : Diagnostic → β}

section Findings
variable (reports : p.options.Reports r keep view q.options)
include reports

theorem plain_retold {found : List Diagnostic} (plain : ∀ d ∈ found, d.error.cause.isOptional = false) :
    Retells keep view found found := retells_kept fun d member => reports.plain d (plain d member)

theorem single_retold {d : Diagnostic} (plain : d.error.cause.isOptional = false) : Retells keep view [d] [d] :=
  plain_retold reports fun e member => by rw [List.mem_singleton.mp member]; exact plain

theorem topic_retold {topic : Topic} {found : List Diagnostic} (only : Only topic found)
    (plain : topic = .type ∨ topic = .text) : Retells keep view found found := by
  refine plain_retold reports (fun d member => ?_)
  cases optional : d.error.cause.isOptional with
  | false => rfl
  | true =>
    have about := Cause.optional_topic optional
    rw [only d member] at about
    rcases plain with rfl | rfl <;> simp at about

theorem duplicates_retold (s : Struct) : Retells keep view s.duplicates s.duplicates := by
  refine plain_retold reports (fun d member => ?_)
  obtain ⟨name, count, span, rfl⟩ := Struct.mem_duplicates member
  rfl

end Findings

section Resolution
variable (mirrors : p.Mirrors r q) (reports : p.options.Reports r keep view q.options)
include mirrors reports

theorem resolve_node_accords (n : Node) :
    Accords (Retells keep view) (Retells keep view) (n.resolve p) ((n.reword r.bound).resolve q) := by
  cases n with
  | identifier node name site =>
    change Accords _ _ (p.resolveIdentifier node name site) (q.resolveIdentifier node name site)
    unfold resolveIdentifier
    rw [referral_mirrors mirrors]
    cases p.referral? site.scope name with
    | none => exact accords_pure (single_retold reports rfl)
    | some referral =>
      refine accords_bind (accords_modify fun facts other matched => ?_) (fun _ _ _ => accords_pure retells_nil)
      exact { matched with referrals := by unfold Facts.recordReferral; dsimp only; rw [matched.referrals] }
  | number numeral site =>
    have text : Only .text (numeral.findings site.span) := by
      cases numeral with
      | malformed text => exact only_single rfl
      | int value => exact only_nil
      | float => exact only_nil
    exact accords_pure (topic_retold reports text (.inr rfl))
  | _ => exact accords_pure retells_nil

theorem resolve_nodes_accord (nodes : List Node) :
    Accords (Retells keep view) (Retells keep view) (collect (Node.resolve p) nodes)
      (collect (Node.resolve q) (nodes.map (Node.reword r.bound))) :=
  accords_collect _ retells_nil retells_append nodes fun n _ => resolve_node_accords mirrors reports n

theorem resolve_variable_accords (id : VariableId) :
    Accords (Retells keep view) (Retells keep view) (p.resolveVariable id) (q.resolveVariable id) := by
  refine accords_look_up (variable_at_mirrors mirrors id) (fun v _ => accords_once retells_nil ?_)
  rw [Expr.resolve_option_collect, Expr.resolve_option_collect, declared_type_error_mirrors mirrors]
  change Accords _ _ _ (collect _ (Expr.optionNodes (v.initializer.map r.boundValue)) >>= _)
  rw [r.option_nodes]
  refine accords_bind (resolve_nodes_accord mirrors reports _) (fun found told related => accords_pure ?_)
  exact retells_append _ _ _ _ (topic_retold reports (variable_type_findings_topic v) (.inl rfl)) related

theorem resolve_step_accords (s : Step) :
    Accords (Retells keep view) (Retells keep view) (s.resolve p) ((r.step s).resolve q) := by
  cases s with
  | node n => exact resolve_node_accords mirrors reports n
  | introduce id => exact resolve_variable_accords mirrors reports id
  | assign target value site =>
    change Accords _ _ _ ((Step.assign (r.boundTarget target) (r.bound value) site).resolve q)
    rw [Step.resolve_assign, Step.resolve_assign, r.nodes,
      show (r.boundTarget target).nodes = _ from r.keeping_nodes _ target, ← List.map_append]
    exact resolve_nodes_accord mirrors reports _

theorem resolve_steps_accord (steps : List Step) :
    Accords (Retells keep view) (Retells keep view) (collect (Step.resolve p) steps)
      (collect (Step.resolve q) (steps.map r.step)) :=
  accords_collect _ retells_nil retells_append steps fun s _ => resolve_step_accords mirrors reports s

theorem resolve_function_accords (id : FunctionId) :
    Accords (Retells keep view) (Retells keep view) (p.resolveFunction id) (q.resolveFunction id) := by
  refine accords_look_up (function_at_mirrors mirrors id) (fun f _ => accords_once retells_nil ?_)
  rw [Block.resolve_option_collect, Block.resolve_option_collect, signature_mirrors mirrors]
  change Accords _ _ _ (collect _ (Block.optionSteps (r.boundOption f.body)) >>= _)
  rw [r.option_steps]
  refine accords_bind (resolve_steps_accord mirrors reports _) (fun found told related => accords_pure ?_)
  exact retells_append _ _ _ _ (topic_retold reports (signature_findings_topic f) (.inl rfl)) related

omit reports in
theorem member_type_errors_mirror (s : Struct) : q.memberTypeErrors (r.boundStruct s) = p.memberTypeErrors s := by
  unfold memberTypeErrors Rewording.boundStruct
  rw [List.filterMap_map, type_error_mirrors mirrors]
  rfl

omit mirrors reports in
theorem duplicates_mirror (s : Struct) : (r.boundStruct s).duplicates = s.duplicates := by
  unfold Struct.duplicates Rewording.boundStruct
  rw [List.foldl_map]
  rfl

omit mirrors reports in
theorem defaults_mirror (s : Struct) : (r.boundStruct s).defaults = s.defaults.map r.bound := by
  unfold Struct.defaults Rewording.boundStruct
  rw [List.filterMap_map, List.map_filterMap]
  rfl

theorem resolve_struct_accords (id : StructId) :
    Accords (Retells keep view) (Retells keep view) (p.resolveStruct id) (q.resolveStruct id) := by
  refine accords_look_up (struct_at_mirrors mirrors id) (fun s _ => accords_once retells_nil ?_)
  rw [Expr.resolve_all_collect, Expr.resolve_all_collect, duplicates_mirror, member_type_errors_mirror mirrors,
    defaults_mirror, r.all_nodes]
  refine accords_bind (resolve_nodes_accord mirrors reports _) (fun found told related => accords_pure ?_)
  refine retells_append _ _ _ _ (retells_append _ _ _ _ (duplicates_retold reports s) ?_) related
  exact topic_retold reports (member_type_errors_topic s) (.inl rfl)

end Resolution

end Program

structure TypeSource.Accords (rel : List Diagnostic → List Diagnostic → Prop) (ask ask' : TypeSource) : Prop where
  variableType : ∀ v, Analysis.Accords rel Eq (ask.variableType v) (ask'.variableType v)
  returnType : ∀ f, Analysis.Accords rel Eq (ask.returnType f) (ask'.returnType f)

namespace Program
open Diagnostics

variable {r : Rewording} {p q : Program} {β : Type} {keep : Diagnostic → Bool} {view : Diagnostic → β}

section Typing
variable (mirrors : p.Mirrors r q) (reports : p.options.Reports r keep view q.options) {ask ask' : TypeSource}
  (source : ask.Accords (Retells keep view) ask')

section Recording
variable {rel : List Diagnostic → List Diagnostic → Prop}

theorem record_referral_accords (node : NodeId) (referral : Referral) :
    Accords rel Eq (modify (Facts.recordReferral node referral)) (modify (Facts.recordReferral node referral)) :=
  accords_modify fun _ _ matched =>
    { matched with referrals := congrArg (fun t => Table.insertNew t node referral) matched.referrals }

theorem record_type_accords (node : NodeId) (type : Option TypeRef) :
    Accords rel Eq (modify (Facts.recordType node type)) (modify (Facts.recordType node type)) :=
  accords_modify fun _ _ matched =>
    { matched with types := congrArg (fun t => Table.insertNew t node type) matched.types }

theorem record_dispatch_accords (node : NodeId) (f : FunctionId) :
    Accords rel Eq (modify (Facts.recordDispatch node f)) (modify (Facts.recordDispatch node f)) :=
  accords_modify fun _ _ matched =>
    { matched with dispatched := congrArg (fun t => Table.insertNew t node f) matched.dispatched }

theorem record_variable_type_accords (v : VariableId) (type : Option TypeRef) :
    Accords rel Eq (modify (Facts.recordVariableType v type)) (modify (Facts.recordVariableType v type)) :=
  accords_modify fun _ _ matched =>
    { matched with variableTypes := congrArg (fun t => Table.insertNew t v type) matched.variableTypes }

theorem record_return_type_accords (f : FunctionId) (type : Option TypeRef) :
    Accords rel Eq (modify (Facts.recordReturnType f type)) (modify (Facts.recordReturnType f type)) :=
  accords_modify fun _ _ matched =>
    { matched with returnTypes := congrArg (fun t => Table.insertNew t f type) matched.returnTypes }

end Recording

include mirrors reports in
theorem settle_referral_accords (node : NodeId) (name : String) (site : Site) :
    Accords (Retells keep view) (Retells keep view) (p.settleReferral node name site)
      (q.settleReferral node name site) := by
  refine accords_get (fun facts other matched => ?_)
  rw [matched.referrals]
  cases facts.referrals.find? node with
  | some referral => exact accords_pure retells_nil
  | none =>
    rw [mirrors.findVariable]
    cases p.scopes.findVariable? site.scope name with
    | none => exact accords_pure (single_retold reports rfl)
    | some v => exact accords_bind (record_referral_accords node _) fun _ _ _ => accords_pure retells_nil

include source in
theorem settle_type_accords (node : NodeId) :
    Accords (Retells keep view) Eq (settleType ask node) (settleType ask' node) := by
  refine accords_get (fun facts other matched => ?_)
  rw [matched.types, matched.referrals]
  cases facts.types.find? node with
  | some type => exact accords_pure rfl
  | none =>
    have referred : Accords (Retells keep view) Eq (referredType ask (facts.referrals.find? node))
        (referredType ask' (facts.referrals.find? node)) := by
      cases facts.referrals.find? node with
      | none => exact accords_pure rfl
      | some referral =>
        cases referral with
        | «variable» v => exact source.variableType v
        | _ => exact accords_pure rfl
    refine accords_bind referred (fun type type' same => ?_)
    rw [same]
    exact record_type_accords node type'

theorem traversal_plain {object : TypeRef} {nullSafe : Bool} {cause : Cause}
    (fault : traversalFault object nullSafe = some cause) : cause.isOptional = false := by
  unfold traversalFault at fault
  split at fault <;> cases fault <;> rfl

include mirrors reports in
theorem type_member_accords (node : NodeId) (object : Option TypeRef) (member : Ident) (nullSafe : Bool) (site : Site) :
    Accords (Retells keep view) (Retells keep view) (p.typeMember node object member nullSafe site)
      (q.typeMember node object member nullSafe site) := by
  cases object with
  | none => exact accords_bind (record_type_accords node none) fun _ _ _ => accords_pure retells_nil
  | some object =>
    have traversal : ∀ d ∈ (traversalFault object nullSafe).toList.map (fun c => Diagnostic.ofError c site.span),
        d.error.cause.isOptional = false := by
      intro d member
      obtain ⟨cause, listed, rfl⟩ := List.mem_map.mp member
      exact traversal_plain (Option.mem_toList.mp listed)
    refine accords_look_up (struct_of_mirrors mirrors object.base) (fun struct _ => ?_)
    rw [accessed_type_mirrors mirrors]
    split
    · exact accords_bind (record_type_accords node _) fun _ _ _ => accords_pure (plain_retold reports traversal)
    · rename_i cause refused
      refine accords_bind (record_type_accords node none) (fun _ _ _ => accords_pure ?_)
      refine retells_append _ _ _ _ (plain_retold reports traversal) (single_retold reports ?_)
      unfold accessedType at refused
      split at refused
      · cases refused
        rfl
      · cases refused

include mirrors source in
theorem settle_dispatch_accords (call : Invocation) (f : FunctionId) (receiver : Option TypeRef) :
    Accords (Retells keep view) Eq (p.settleDispatch ask call f receiver) (q.settleDispatch ask' call f receiver) := by
  refine accords_get (fun facts other matched => ?_)
  rw [matched.dispatched]
  cases facts.dispatched.find? call.node with
  | some g => exact accords_pure rfl
  | none =>
    have value : Accords (Retells keep view) Eq (p.valueType ask call f) (q.valueType ask' call f) := by
      unfold valueType
      rw [mirrors.types]
      split
      · exact accords_pure rfl
      · exact source.returnType f
    have result : Accords (Retells keep view) Eq (p.resultType ask call f receiver)
        (q.resultType ask' call f receiver) :=
      accords_bind value fun type type' same => by rw [same]; exact accords_pure rfl
    refine accords_bind result (fun type type' same => ?_)
    rw [same]
    exact accords_bind (record_dispatch_accords call.node f) fun _ _ _ => record_type_accords call.node type'

omit mirrors reports source in
theorem ambiguity_cause {name : String} {ranked : List Overload.Match} {cause : Cause}
    (ran : p.ambiguity name ranked = .ok cause) : ∃ candidates, cause = .ambiguousInvocation name candidates := by
  unfold ambiguity at ran
  simp only [bind, Except.bind] at ran
  split at ran
  · cases ran
  · cases ran
    exact ⟨_, rfl⟩

include mirrors reports in
theorem ambiguity_findings_retold {call : Invocation} {known : Bool} {ranked : List Overload.Match}
    {found : List Diagnostic} (ran : p.ambiguityFindings call known ranked = .ok found) :
    ∃ told, q.ambiguityFindings call known ranked = .ok told ∧ Retells keep view found told := by
  unfold ambiguityFindings at ran ⊢
  rw [Bool.and_assoc] at ran ⊢
  generalize (known && Overload.isAmbiguous ranked) = tied at ran ⊢
  cases tied with
  | false =>
    rw [Bool.and_false] at ran ⊢
    cases ran
    exact ⟨[], rfl, retells_nil⟩
  | true =>
    rw [Bool.and_true] at ran ⊢
    cases shown : p.options.reportAmbiguousOverloads with
    | false =>
      have hidden := reports.ambiguous "" "" {}
      rw [shown, Bool.false_and] at hidden
      rw [shown] at ran
      cases ran
      exact ⟨[], by rw [← hidden]; rfl, retells_nil⟩
    | true =>
      rw [shown, if_pos rfl] at ran
      rw [ambiguity_mirrors mirrors]
      cases told : p.ambiguity call.name ranked with
      | error e =>
        rw [told] at ran
        cases ran
      | ok cause =>
        rw [told] at ran
        cases ran
        obtain ⟨candidates, rfl⟩ := ambiguity_cause told
        have kept := reports.ambiguous call.name candidates call.site.span
        rw [shown, Bool.true_and] at kept
        cases visible : q.options.reportAmbiguousOverloads with
        | false =>
          rw [visible] at kept
          exact ⟨[], rfl, by simp [Retells, kept]⟩
        | true =>
          rw [visible] at kept
          exact ⟨_, rfl, by simp [Retells, kept]⟩

include mirrors reports source in
theorem type_invocation_accords (call : Invocation) (receiver : Option (Option TypeRef))
    (arguments : List (Option TypeRef)) :
    Accords (Retells keep view) (Retells keep view) (p.typeInvocation ask call receiver arguments)
      (q.typeInvocation ask' call receiver arguments) := by
  have traversal : ∀ d ∈ (callTraversal call receiver.join).map (fun c => Diagnostic.ofError c call.site.span),
      d.error.cause.isOptional = false := by
    intro d member
    obtain ⟨cause, listed, rfl⟩ := List.mem_map.mp member
    unfold callTraversal at listed
    split at listed
    · obtain ⟨t, _, fault⟩ := Option.bind_eq_some_iff.mp (Option.mem_toList.mp listed)
      exact traversal_plain fault
    · cases listed
  unfold typeInvocation
  dsimp only
  rw [ranked_mirrors mirrors]
  refine accords_lift (fun ranked found => ⟨ranked, found, ?_⟩)
  cases ranked with
  | nil =>
    refine accords_bind (record_type_accords call.node none) (fun _ _ _ => accords_pure ?_)
    rw [unresolvable_mirrors mirrors]
    refine retells_append _ _ _ _ (plain_retold reports traversal) (single_retold reports ?_)
    unfold unresolvable
    split <;> rfl
  | cons best others =>
    refine accords_lift (fun found ran => ?_)
    obtain ⟨told, ran', related⟩ := ambiguity_findings_retold mirrors reports ran
    refine ⟨told, ran', ?_⟩
    refine accords_bind (settle_dispatch_accords mirrors source call best.function _) (fun _ _ _ => accords_pure ?_)
    exact retells_append _ _ _ _ (plain_retold reports traversal) related

section Nodes
include mirrors reports source

theorem type_node_accords (n : Node) :
    Accords (Retells keep view) (Retells keep view) (n.assignTypes p ask) ((n.reword r.bound).assignTypes q ask') := by
  cases n with
  | identifier node name site =>
    refine accords_bind (settle_referral_accords mirrors reports node name site) (fun found told related => ?_)
    exact accords_bind (settle_type_accords source node) fun _ _ _ => accords_pure related
  | number numeral site => exact accords_pure retells_nil
  | call invocation receiver args =>
    refine accords_get (fun facts other matched => ?_)
    have same : (fun e => (r.bound e).type other) = Expr.type facts :=
      funext fun e => by rw [r.type, Facts.matches_type matched]
    rw [Option.map_map, List.map_map]
    change Accords _ _ _ (q.typeInvocation ask' invocation (receiver.map fun e => (r.bound e).type other)
      (args.map fun e => (r.bound e).type other))
    rw [same]
    exact type_invocation_accords mirrors reports source invocation _ _
  | member node object name nullSafe site =>
    refine accords_get (fun facts other matched => ?_)
    rw [r.type, Facts.matches_type matched]
    exact type_member_accords mirrors reports node _ name nullSafe site

theorem type_nodes_accord (nodes : List Node) :
    Accords (Retells keep view) (Retells keep view) (collect (Node.assignTypes p ask) nodes)
      (collect (Node.assignTypes q ask') (nodes.map (Node.reword r.bound))) :=
  accords_collect _ retells_nil retells_append nodes fun n _ => type_node_accords mirrors reports source n

end Nodes

theorem initializer_fault_plain {facts : Facts} {declared : TypeRef} {e : Expr} {cause : Cause}
    (ran : p.initializerFault facts declared e = .ok (some cause)) : cause.isOptional = false := by
  unfold initializerFault at ran
  split at ran
  · split at ran
    · cases ran
    · cases ran
      rfl
  · split at ran
    · cases ran
    · rename_i actual _
      cases accepted : p.types.isAssignable actual declared with
      | error e =>
        rw [accepted] at ran
        cases ran
      | ok fits =>
        rw [accepted, ok_bind] at ran
        cases fits <;> cases ran
        rfl

section Variables
variable {facts other : Facts} (matched : facts.Matches (Retells keep view) other)
include matched

theorem value_type_matches (e : Expr) : (r.boundValue e).type other = e.type facts := by
  rw [show (r.boundValue e).type other = e.type other from r.keeping_type _ e other, Facts.matches_type matched]

include mirrors

theorem initializer_fault_mirrors (declared : TypeRef) (e : Expr) :
    q.initializerFault other declared (r.boundValue e) = p.initializerFault facts declared e := by
  unfold initializerFault
  rw [r.value_is_null, value_type_matches matched, mirrors.types]

theorem settled_type_mirrors (v : Variable) : q.settledType (r.boundVariable v) other = p.settledType v facts := by
  unfold settledType
  rw [declared_type_mirrors mirrors]
  change (p.declaredType v).or ((v.initializer.map r.boundValue).bind (Expr.type other)) = _
  cases v.initializer with
  | none => rfl
  | some e => exact congrArg _ (value_type_matches matched e)

include reports

theorem initializer_findings_retold {v : Variable} {found : List Diagnostic}
    (ran : p.initializerFindings v facts = .ok found) :
    ∃ told, q.initializerFindings (r.boundVariable v) other = .ok told ∧ Retells keep view found told := by
  unfold initializerFindings at ran ⊢
  rw [declared_type_mirrors mirrors, show (r.boundVariable v).initializer = v.initializer.map r.boundValue from rfl]
  generalize p.declaredType v = written at ran ⊢
  generalize v.initializer = initializer at ran ⊢
  cases written with
  | none =>
    cases ran
    exact ⟨[], rfl, retells_nil⟩
  | some declared =>
    cases initializer with
    | none =>
      cases ran
      exact ⟨[], rfl, retells_nil⟩
    | some e =>
      dsimp only [Option.map_some] at ran ⊢
      rw [initializer_fault_mirrors mirrors matched]
      cases fault : p.initializerFault facts declared e with
      | error fault' =>
        rw [fault] at ran
        cases ran
      | ok cause =>
        rw [fault] at ran
        cases ran
        refine ⟨_, rfl, ?_⟩
        cases cause with
        | none => exact retells_nil
        | some cause =>
          have plain : cause.isOptional = false := initializer_fault_plain fault
          have kept := reports.plain (.ofError cause e.site.span) plain
          simp [Retells, kept, reports.initializer]

end Variables

section Declarations
include mirrors reports source

theorem type_variable_accords (id : VariableId) :
    Accords (Retells keep view) (Retells keep view) (p.typeVariable ask id) (q.typeVariable ask' id) := by
  refine accords_look_up (variable_at_mirrors mirrors id) (fun v _ => accords_once retells_nil ?_)
  rw [Expr.types_option_collect, Expr.types_option_collect]
  change Accords _ _ _ (collect _ (Expr.optionNodes (v.initializer.map r.boundValue)) >>= _)
  rw [r.option_nodes]
  refine accords_bind (type_nodes_accord mirrors reports source _) (fun found told related => ?_)
  refine accords_get (fun facts other matched => accords_lift fun own ran => ?_)
  obtain ⟨own', ran', related'⟩ := initializer_findings_retold mirrors reports matched ran
  refine ⟨own', ran', ?_⟩
  rw [settled_type_mirrors mirrors matched]
  refine accords_bind (record_variable_type_accords id _) (fun _ _ _ => accords_pure ?_)
  exact retells_append _ _ _ _ related related'

omit source in
theorem assignment_findings_accord (target : Expr) (site : Site) :
    Accords (Retells keep view) (Retells keep view) (p.assignmentFindings target site)
      (q.assignmentFindings (r.boundTarget target) site) := by
  cases bare : target.isIdentifier with
  | false =>
    have quiet : ∀ (p : Program) (e : Expr), e.isIdentifier = false → p.assignmentFindings e site = pure [] := by
      intro p e other
      cases e with
      | identifier node name site => cases other
      | _ => rfl
    rw [quiet p target bare, quiet q _ ((r.target_is_identifier target).trans bare)]
    exact accords_pure retells_nil
  | true =>
    cases target with
    | identifier node name place =>
      rw [r.target_identifier]
      refine accords_get (fun facts other matched => ?_)
      rw [matched.referrals]
      split
      · refine accords_look_up (variable_at_mirrors mirrors _) (fun v _ => ?_)
        have same : (r.boundVariable v).isMutable = v.isMutable := by
          unfold Variable.isMutable Rewording.boundVariable
          cases v.origin <;> rfl
        rw [same]
        split
        · exact accords_pure retells_nil
        · exact accords_pure (single_retold reports rfl)
      · exact accords_pure retells_nil
    | _ => cases bare

theorem type_step_accords (s : Step) :
    Accords (Retells keep view) (Retells keep view) (s.assignTypes p ask) ((r.step s).assignTypes q ask') := by
  cases s with
  | node n => exact type_node_accords mirrors reports source n
  | introduce id => exact type_variable_accords mirrors reports source id
  | assign target value site =>
    change Accords _ _
      (do
        let a ← target.assignTypes p ask
        let b ← value.assignTypes p ask
        let own ← p.assignmentFindings target site
        pure (a ++ b ++ own))
      (do
        let a ← (r.boundTarget target).assignTypes q ask'
        let b ← (r.bound value).assignTypes q ask'
        let own ← q.assignmentFindings (r.boundTarget target) site
        pure (a ++ b ++ own))
    rw [Expr.types_collect, Expr.types_collect, Expr.types_collect, Expr.types_collect, r.nodes]
    rw [show (r.boundTarget target).nodes = _ from r.keeping_nodes _ target]
    refine accords_bind (type_nodes_accord mirrors reports source _) (fun found told related => ?_)
    refine accords_bind (type_nodes_accord mirrors reports source _) (fun found' told' related' => ?_)
    refine accords_bind (assignment_findings_accord mirrors reports target site) (fun own own' related'' => ?_)
    exact accords_pure (retells_append _ _ _ _ (retells_append _ _ _ _ related related') related'')

theorem type_steps_accord (steps : List Step) :
    Accords (Retells keep view) (Retells keep view) (collect (Step.assignTypes p ask) steps)
      (collect (Step.assignTypes q ask') (steps.map r.step)) :=
  accords_collect _ retells_nil retells_append steps fun s _ => type_step_accords mirrors reports source s

omit reports source in
theorem infer_return_mirrors {facts other : Facts} (matched : facts.Matches (Retells keep view) other)
    (values : List Expr) : q.inferReturnType other (values.map r.boundValue) = p.inferReturnType facts values := by
  have types : (values.map r.boundValue).filterMap (Expr.type other) = values.filterMap (Expr.type facts) := by
    rw [List.filterMap_map]
    exact List.filterMap_congr fun e _ => value_type_matches matched e
  have nulls : (values.map r.boundValue).any Expr.isNull = values.any Expr.isNull := by
    rw [List.any_map]
    exact congrArg values.any (funext r.value_is_null)
  unfold inferReturnType
  rw [types, nulls, List.isEmpty_map, mirrors.types]

theorem type_function_accords (id : FunctionId) :
    Accords (Retells keep view) (Retells keep view) (p.typeFunction ask id) (q.typeFunction ask' id) := by
  refine accords_look_up (function_at_mirrors mirrors id) (fun f _ => accords_once retells_nil ?_)
  rw [Block.types_option_collect, Block.types_option_collect, r.returned_values]
  change Accords _ _ _ (collect _ (Block.optionSteps (r.boundOption f.body)) >>= _)
  rw [r.option_steps]
  refine accords_bind (type_steps_accord mirrors reports source _) (fun found told related => ?_)
  refine accords_get (fun facts other matched => accords_lift fun inferred ran => ?_)
  refine ⟨inferred, by rw [infer_return_mirrors mirrors matched]; exact ran, ?_⟩
  exact accords_bind (record_return_type_accords id inferred) fun _ _ _ => accords_pure related

theorem type_struct_accords (id : StructId) :
    Accords (Retells keep view) (Retells keep view) (p.typeStruct ask id) (q.typeStruct ask' id) := by
  refine accords_look_up (struct_at_mirrors mirrors id) (fun s _ => accords_once retells_nil ?_)
  rw [Expr.types_all_collect, Expr.types_all_collect, defaults_mirror, r.all_nodes]
  exact type_nodes_accord mirrors reports source _

theorem variable_type_accords (id : VariableId) :
    Accords (Retells keep view) Eq (p.variableTypeUsing ask id) (q.variableTypeUsing ask' id) := by
  refine accords_look_up (variable_at_mirrors mirrors id) (fun v _ => ?_)
  rw [declared_type_mirrors mirrors]
  unfold Rewording.boundVariable
  cases v.origin with
  | parameter function index param =>
    refine accords_look_up (function_at_mirrors mirrors function) (fun f _ => ?_)
    rw [signature_mirrors mirrors]
    exact accords_pure rfl
  | declared decl =>
    cases p.declaredType v with
    | some type => exact accords_pure rfl
    | none =>
      refine accords_get (fun facts other matched => ?_)
      rw [matched.variableTypes]
      cases facts.variableTypes.find? id with
      | some type => exact accords_pure rfl
      | none =>
        refine accords_bind (resolve_variable_accords mirrors reports id) (fun _ _ _ => ?_)
        refine accords_bind (type_variable_accords mirrors reports source id) (fun _ _ _ => ?_)
        exact accords_get fun facts other matched => by rw [matched.variableTypes]; exact accords_pure rfl

theorem return_type_accords (id : FunctionId) :
    Accords (Retells keep view) Eq (p.returnTypeUsing ask id) (q.returnTypeUsing ask' id) := by
  refine accords_look_up (function_at_mirrors mirrors id) (fun f _ => ?_)
  have same : (r.boundFunction f).statesReturnType = f.statesReturnType := by
    unfold Function.statesReturnType Rewording.boundFunction
    cases f.origin <;> rfl
  rw [same, signature_mirrors mirrors]
  split
  · exact accords_pure rfl
  · refine accords_get (fun facts other matched => ?_)
    rw [matched.returnTypes]
    cases facts.returnTypes.find? id with
    | some type => exact accords_pure rfl
    | none =>
      refine accords_bind (resolve_function_accords mirrors reports id) (fun _ _ _ => ?_)
      refine accords_bind (type_function_accords mirrors reports source id) (fun _ _ _ => ?_)
      exact accords_get fun facts other matched => by rw [matched.returnTypes]; exact accords_pure rfl

omit source in
theorem types_within_accord (depth : Nat) :
    (p.typesWithin depth).Accords (Retells keep view) (q.typesWithin depth) := by
  induction depth with
  | zero => exact ⟨fun _ => accords_throw _ _, fun _ => accords_throw _ _⟩
  | succ depth ih => exact ⟨variable_type_accords mirrors reports ih, return_type_accords mirrors reports ih⟩

omit source in
theorem type_source_accords : p.typeSource.Accords (Retells keep view) q.typeSource := by
  unfold typeSource
  rw [mirrors.functions, mirrors.vars, Array.size_map, Array.size_map]
  exact types_within_accord mirrors reports _

end Declarations

end Typing

section Effects
variable (mirrors : p.Mirrors r q) {rel : List Diagnostic → List Diagnostic → Prop} {access : Access}
  {ask ask' : SummarySource} (source : ∀ f, Accords rel Eq (ask f) (ask' f)) (boundary : ScopeId)

include source in
theorem call_effects_accord (call : Invocation) :
    Accords rel Eq (callEffects access ask call) (callEffects access ask' call) := by
  refine accords_get (fun facts other matched => ?_)
  rw [matched.dispatched]
  cases facts.dispatched.find? call.node with
  | none => exact accords_pure rfl
  | some f => exact accords_bind (source f) fun summary summary' same => by rw [same]; exact accords_pure rfl

include mirrors source

theorem node_effects_accord (n : Node) :
    Accords rel Eq (n.effects p access ask boundary) ((n.reword r.bound).effects q access ask' boundary) := by
  cases n with
  | identifier node name site =>
    refine accords_get (fun facts other matched => accords_pure ?_)
    unfold identifierEffects
    rw [outside_mirrors mirrors matched.referrals]
  | call invocation receiver args => exact call_effects_accord source invocation
  | _ => exact accords_pure rfl

theorem nodes_effects_accord (nodes : List Node) :
    Accords rel Eq (collect (Node.effects p access ask boundary) nodes)
      (collect (Node.effects q access ask' boundary) (nodes.map (Node.reword r.bound))) :=
  accords_collect _ rfl (by rintro _ _ _ _ rfl rfl; rfl) nodes fun n _ => node_effects_accord mirrors source boundary n

theorem variable_effects_accord (id : VariableId) :
    Accords rel Eq (p.variableEffects access ask boundary id) (q.variableEffects access ask' boundary id) := by
  refine accords_look_up (variable_at_mirrors mirrors id) (fun v _ => ?_)
  rw [Expr.effects_option_collect, Expr.effects_option_collect]
  change Accords rel Eq _ (collect _ (Expr.optionNodes (v.initializer.map r.boundValue)))
  rw [r.option_nodes]
  exact nodes_effects_accord mirrors source boundary _

theorem target_effects_accord (target : Expr) :
    Accords rel Eq (target.targetEffects p access ask boundary)
      ((r.boundTarget target).targetEffects q access ask' boundary) := by
  unfold Expr.targetEffects
  rw [r.target_is_identifier]
  split
  · exact accords_pure rfl
  · rw [Expr.effects_collect, Expr.effects_collect, show (r.boundTarget target).nodes = _ from r.keeping_nodes _ target]
    exact nodes_effects_accord mirrors source boundary _

theorem step_effects_accord (s : Step) :
    Accords rel Eq (s.effects p access ask boundary) ((r.step s).effects q access ask' boundary) := by
  cases s with
  | node n => exact node_effects_accord mirrors source boundary n
  | introduce id => exact variable_effects_accord mirrors source boundary id
  | assign target value site =>
    refine accords_get (fun facts other matched => ?_)
    have own : q.assignmentEffects other access boundary (r.boundTarget target) site
        = p.assignmentEffects facts access boundary target site := by
      unfold assignmentEffects
      rw [show (r.boundTarget target).root? = target.root? from r.keeping_root _ target]
      simp only [outside_mirrors mirrors matched.referrals]
    rw [own, Expr.effects_collect p access ask boundary value, Expr.effects_collect q access ask' boundary, r.nodes]
    refine accords_bind (target_effects_accord mirrors source boundary target) (fun _ _ same => ?_)
    refine accords_bind (nodes_effects_accord mirrors source boundary _) (fun _ _ same' => ?_)
    rw [same, same']
    exact accords_pure rfl

theorem steps_effects_accord (steps : List Step) :
    Accords rel Eq (collect (Step.effects p access ask boundary) steps)
      (collect (Step.effects q access ask' boundary) (steps.map r.step)) :=
  accords_collect _ rfl (by rintro _ _ _ _ rfl rfl; rfl) steps fun s _ => step_effects_accord mirrors source boundary s

end Effects

section Claims
variable (mirrors : p.Mirrors r q) (reports : p.options.Reports r keep view q.options) (claims : ∀ m, r.modifiers m = m)

include claims in
theorem modifiers_mirror (f : Function) : (r.boundFunction f).modifiers = f.modifiers := by
  unfold Function.modifiers Rewording.boundFunction
  cases f.origin with
  | builtin b => rfl
  | declared decl =>
    dsimp only [Rewording.functionDecl]
    split
    · exact claims decl.modifiers
    · rfl

include mirrors reports claims

theorem summary_using_accords {access : Access} {ask ask' : SummarySource}
    (source : ∀ f, Accords (Retells keep view) Eq (ask f) (ask' f)) (id : FunctionId) :
    Accords (Retells keep view) Eq (p.summaryUsing access ask id) (q.summaryUsing access ask' id) := by
  refine accords_look_up (function_at_mirrors mirrors id) (fun f _ => accords_summary ?_)
  unfold summarise
  rw [modifiers_mirror claims, show (r.boundFunction f).body = r.boundOption f.body from rfl]
  cases f.body with
  | none => exact accords_pure rfl
  | some body =>
    refine accords_bind (resolve_function_accords mirrors reports f.id) (fun _ _ _ => ?_)
    refine accords_bind (type_function_accords mirrors reports (type_source_accords mirrors reports) f.id)
      (fun _ _ _ => ?_)
    have effects : Accords (Retells keep view) Eq (body.effects p access ask f.scope)
        ((r.boundBlock body).effects q access ask' f.scope) := by
      rw [Block.effects_collect, Block.effects_collect, r.block_steps]
      exact steps_effects_accord mirrors source f.scope body.steps
    exact accords_bind effects fun _ _ same => by rw [same]; exact accords_pure rfl

theorem summaries_within_accord (access : Access) (depth : Nat) (f : FunctionId) :
    Accords (Retells keep view) Eq (p.summariesWithin access depth f) (q.summariesWithin access depth f) := by
  induction depth generalizing f with
  | zero => exact accords_throw _ _
  | succ depth ih => exact summary_using_accords mirrors reports claims ih f

theorem summary_accords (access : Access) (f : FunctionId) :
    Accords (Retells keep view) Eq (p.summary access f) (q.summary access f) := by
  unfold summary
  rw [mirrors.functions, Array.size_map]
  exact summaries_within_accord mirrors reports claims access _ f

theorem violation_accords (access : Access) (f : Function) :
    Accords (Retells keep view) (fun a b => b = a ∧ ∀ v ∈ a.toList, v.cause.isOptional = false) (p.violation? access f)
      (q.violation? access (r.boundFunction f)) := by
  have name : violationCause (r.boundFunction f) = violationCause f := by
    funext offending access
    unfold violationCause
    rw [name_mirrors]
  unfold violation?
  rw [modifiers_mirror claims]
  split
  · refine accords_bind (summary_accords mirrors reports claims access f.id) (fun summary _ same => ?_)
    rw [← same, name]
    cases summary with
    | none => exact accords_pure ⟨rfl, fun _ member => absurd member List.not_mem_nil⟩
    | some summary =>
      dsimp only
      split
      · exact accords_pure ⟨rfl, fun _ member => absurd member List.not_mem_nil⟩
      · refine accords_pure ⟨rfl, fun v member => ?_⟩
        rw [Option.toList_some, List.mem_singleton] at member
        rw [member]
        cases access <;> rfl
  · exact accords_pure ⟨rfl, fun _ member => absurd member List.not_mem_nil⟩

omit reports claims in
theorem recursion_warning_mirrors : q.recursionWarning = p.recursionWarning := by
  funext call
  unfold recursionWarning
  rw [function_at_mirrors mirrors]
  cases p.functionAt call.1 with
  | error e => rfl
  | ok callee =>
    change Except.ok (Diagnostic.ofWarning (.recursivePurityCheck (r.boundFunction callee).name) call.2) = _
    rw [name_mirrors]
    rfl

omit mirrors reports claims in
theorem recursion_warning_cause {call : FunctionId × Span} {d : Diagnostic} (ran : p.recursionWarning call = .ok d) :
    ∃ callee span, d = .ofWarning (.recursivePurityCheck callee) span := by
  unfold recursionWarning at ran
  cases found : p.functionAt call.1 with
  | error e =>
    rw [found] at ran
    cases ran
  | ok callee =>
    rw [found] at ran
    cases ran
    exact ⟨_, _, rfl⟩

omit claims in
theorem recursion_warnings_retold {calls : List (FunctionId × Span)} {found : List Diagnostic}
    (ran : p.recursionWarnings calls = .ok found) :
    ∃ told, q.recursionWarnings calls = .ok told ∧ Retells keep view found told := by
  unfold recursionWarnings at ran ⊢
  cases shown : p.options.warnOnRecursivePurity with
  | false =>
    have hidden := reports.recursive "" {}
    rw [shown, Bool.false_and] at hidden
    rw [shown] at ran
    cases ran
    exact ⟨[], by rw [← hidden]; rfl, retells_nil⟩
  | true =>
    rw [shown, if_pos rfl] at ran
    have kept : ∀ d ∈ found, keep d = q.options.warnOnRecursivePurity := by
      intro d member
      obtain ⟨call, _, told⟩ := map_ok_member ran member
      obtain ⟨callee, span, rfl⟩ := recursion_warning_cause told
      have same := reports.recursive callee span
      rwa [shown, Bool.true_and] at same
    cases visible : q.options.warnOnRecursivePurity with
    | false =>
      refine ⟨[], rfl, ?_⟩
      unfold Retells
      rw [List.filter_eq_nil_iff.mpr fun d member => by rw [kept d member, visible]; simp]
    | true =>
      refine ⟨found, ?_, retells_kept fun d member => (kept d member).trans visible⟩
      rw [if_pos rfl, recursion_warning_mirrors mirrors]
      exact ran

theorem validate_claims_accord (f : Function) :
    Accords (Retells keep view) (Retells keep view) (p.validateClaims f) (q.validateClaims (r.boundFunction f)) := by
  refine accords_bind (violation_accords mirrors reports claims .read f) (fun reads _ first => ?_)
  refine accords_bind (violation_accords mirrors reports claims .write f) (fun writes _ second => ?_)
  rw [first.1, second.1, name_span_mirrors]
  refine accords_lift (fun warnings ran => ?_)
  obtain ⟨told, ran', related⟩ := recursion_warnings_retold mirrors reports ran
  refine ⟨told, ran', accords_pure (retells_append _ _ _ _ (plain_retold reports fun d member => ?_) related)⟩
  obtain ⟨v, listed, rfl⟩ := List.mem_map.mp member
  exact (List.mem_append.mp listed).elim (first.2 v) (second.2 v)

omit reports claims in
theorem validate_step_accords (s : Step) :
    Accords (Retells keep view) (Retells keep view) (s.validate p) ((r.step s).validate q) := by
  cases s with
  | introduce id =>
    exact accords_look_up (variable_at_mirrors mirrors id) fun v _ =>
      accords_once retells_nil (accords_pure retells_nil)
  | _ => exact accords_pure retells_nil

theorem validate_function_accords (id : FunctionId) :
    Accords (Retells keep view) (Retells keep view) (p.validateFunction id) (q.validateFunction id) := by
  refine accords_look_up (function_at_mirrors mirrors id) (fun f _ => accords_once retells_nil ?_)
  unfold validateBody
  rw [show (r.boundFunction f).body = r.boundOption f.body from rfl]
  cases f.body with
  | none => exact accords_pure retells_nil
  | some body =>
    have inside :
        Accords (Retells keep view) (Retells keep view) (body.validate p) ((r.boundBlock body).validate q) := by
      rw [Block.validate_collect, Block.validate_collect, r.block_steps]
      exact accords_collect _ retells_nil retells_append _ fun s _ => validate_step_accords mirrors s
    refine accords_bind inside (fun found told related => ?_)
    refine accords_bind (validate_claims_accord mirrors reports claims f) (fun found' told' related' => ?_)
    exact accords_pure (retells_append _ _ _ _ related related')

omit claims in
theorem early_phase_accords (d : Declaration) {phase : Phase} (early : phase ≠ .validation) :
    Accords (Retells keep view) (Retells keep view) (p.runPhase d phase) (q.runPhase d phase) := by
  have source : p.typeSource.Accords (Retells keep view) q.typeSource := type_source_accords mirrors reports
  cases phase with
  | resolution =>
    cases d with
    | function id => exact resolve_function_accords mirrors reports id
    | «variable» id => exact resolve_variable_accords mirrors reports id
    | struct id => exact resolve_struct_accords mirrors reports id
  | typing =>
    cases d with
    | function id => exact type_function_accords mirrors reports source id
    | «variable» id => exact type_variable_accords mirrors reports source id
    | struct id => exact type_struct_accords mirrors reports source id
  | validation => exact absurd rfl early

theorem run_phase_accords (d : Declaration) (phase : Phase) :
    Accords (Retells keep view) (Retells keep view) (p.runPhase d phase) (q.runPhase d phase) := by
  by_cases last : phase = .validation
  · rw [last]
    cases d with
    | function id => exact validate_function_accords mirrors reports claims id
    | «variable» id =>
      exact accords_look_up (variable_at_mirrors mirrors id) fun v _ =>
        accords_once retells_nil (accords_pure retells_nil)
    | struct id =>
      exact accords_look_up (struct_at_mirrors mirrors id) fun s _ =>
        accords_once retells_nil (accords_pure retells_nil)
  · exact early_phase_accords mirrors reports d last

omit mirrors reports claims in
theorem run_phase_all_accords {phase : Phase}
    (each : ∀ d, Accords (Retells keep view) (Retells keep view) (p.runPhase d phase) (q.runPhase d phase))
    (ds : List Declaration) :
    Accords (Retells keep view) (Retells keep view) (p.runPhaseAll phase ds) (q.runPhaseAll phase ds) := by
  rw [run_phase_all_collect, run_phase_all_collect]
  simpa only [List.map_id] using accords_collect id retells_nil retells_append ds (fun d _ => each d)

theorem analyse_accords : Accords (Retells keep view) (Retells keep view) p.analyse q.analyse := by
  rw [analyse_collect, analyse_collect, declarations_mirror mirrors]
  have each (phase : Phase) := run_phase_all_accords
    (fun d => run_phase_accords mirrors reports claims d phase) p.declarations
  simpa only [List.map_id] using accords_collect id retells_nil retells_append Phase.all (fun phase _ => each phase)

end Claims

end Program

end SemanticAnalysis
