import SemanticAnalysis.Proofs.Analysis.Success
import SemanticAnalysis.Proofs.Lexical.Locals
/-!
What the first two phases leave behind. Whatever an identifier was found to mean, it is what its name means where it
stands; nothing is known about effects yet; and both phases of every function with a body are done.
-/
namespace SemanticAnalysis
open Running Analysis Program

namespace Analysis
variable {α β : Type} {I : Facts → Prop} {P : α → Prop} {Q : β → Prop}

/-- If from a state with the invariant the work ends with a result, it ends in a state with the invariant. -/
def Ensures (I : Facts → Prop) (x : Analysis α) (P : α → Prop) : Prop :=
  ∀ facts, I facts → ∀ a after, x facts = (.ok a, after) → I after ∧ P a

def Maintains (I : Facts → Prop) (x : Analysis α) : Prop := Ensures I x (fun _ => True)

theorem ensures_pure {a : α} (holds : P a) : Ensures I (pure a) P := by
  intro facts inv b after ran
  cases ran
  exact ⟨inv, holds⟩

theorem maintains_pure (a : α) : Maintains I (pure a) := ensures_pure trivial

theorem maintains_throw (e : InternalError) : Maintains I (throw e : Analysis α) := by
  intro facts inv b after ran
  cases ran

theorem ensures_bind {x : Analysis α} {f : α → Analysis β} (first : Ensures I x P)
    (second : ∀ a, P a → Ensures I (f a) Q) : Ensures I (x >>= f) Q := by
  intro facts inv b after ran
  obtain ⟨a, middle, step, rest⟩ := bind_ok_split ran
  obtain ⟨inv', holds⟩ := first facts inv a middle step
  exact second a holds middle inv' b after rest

theorem maintains_bind {x : Analysis α} {f : α → Analysis β} (first : Maintains I x)
    (second : ∀ a, Ensures I (f a) Q) : Ensures I (x >>= f) Q :=
  ensures_bind first (fun a _ => second a)

theorem maintains_map {x : Analysis α} {f : α → β} (work : Maintains I x) : Maintains I (f <$> x) := by
  rw [map_eq_pure_bind]
  exact maintains_bind work (fun _ => maintains_pure _)

theorem ensures_get : Ensures I get I := by
  intro facts inv a after ran
  cases ran
  exact ⟨inv, inv⟩

theorem ensures_look_up {x : Except InternalError α} {f : α → Analysis β}
    (rest : ∀ a, x = .ok a → Ensures I (f a) Q) : Ensures I (liftM x >>= f) Q := by
  intro facts inv b after ran
  cases x with
  | error e => cases ran
  | ok a => exact rest a rfl facts inv b after ran

theorem maintains_modify {f : Facts → Facts} (keeps : ∀ facts, I facts → I (f facts)) : Maintains I (modify f) := by
  intro facts inv a after ran
  cases ran
  exact ⟨keeps facts inv, trivial⟩

theorem maintains_collect {f : α → Analysis (List β)} (xs : List α) (each : ∀ x ∈ xs, Maintains I (f x)) :
    Maintains I (collect f xs) := by
  induction xs with
  | nil => exact maintains_pure _
  | cons x xs ih =>
    apply maintains_bind (each x (List.mem_cons_self ..))
    intro first
    apply maintains_bind (ih (fun y member => each y (List.mem_cons_of_mem _ member)))
    intro others
    exact maintains_pure _

theorem collect_carries {α β : Type} {f : α → Analysis (List β)} {K : List α → List β → Facts → Prop} {xs : List α}
    {facts after : Facts}
    (each : ∀ done x rest facts found new after, xs = done ++ x :: rest → K done found facts →
      f x facts = (.ok new, after) → K (done ++ [x]) (found ++ new) after)
    {found : List β} (start : K [] [] facts) (ran : collect f xs facts = (.ok found, after)) :
    K xs found after := by
  induction xs generalizing K facts found with
  | nil =>
    cases ran
    exact start
  | cons x rest ih =>
    obtain ⟨new, middle, step, others⟩ := bind_ok_split ran
    obtain ⟨more, last, later, ended⟩ := bind_ok_split others
    cases ended
    refine ih (K := fun done found => K (x :: done) (new ++ found)) ?_ ?_ later
    · intro done y others facts found more after whole holds ran
      rw [← List.append_assoc]
      exact each (x :: done) y others facts (new ++ found) more after (by rw [whole]; rfl) holds ran
    · rw [List.append_nil]
      exact each [] x rest facts [] new middle rfl start step

/-- A cell keeps an invariant that survives entering it, and leaving it as the work inside does. -/
theorem maintains_compute_ending {cell : Cell Facts α} {body : Analysis α} {E : α → Facts → Prop}
    (enter : ∀ facts, I facts → I (cell.write .inProgress facts))
    (leave : ∀ value facts, I facts → E value facts → I (cell.write (.computed value) facts))
    (inside : Maintains I body) (ends : ∀ facts value after, body facts = (.ok value, after) → E value after) :
    Maintains I (cell.compute body) := by
  intro facts inv a after ran
  unfold Cell.compute at ran
  split at ran
  · cases ran
    exact ⟨inv, trivial⟩
  · cases ran
    exact ⟨inv, trivial⟩
  · split at ran
    · rename_i value middle step
      cases ran
      exact ⟨leave value middle (inside _ (enter facts inv) value middle step).1 (ends _ _ _ step), trivial⟩
    · cases ran

theorem maintains_compute {cell : Cell Facts α} {body : Analysis α}
    (keeps : ∀ m facts, I facts → I (cell.write m facts)) (inside : Maintains I body) : Maintains I (cell.compute body) :=
  maintains_compute_ending (E := fun _ _ => True) (keeps _) (fun _ facts inv _ => keeps _ facts inv) inside
    (fun _ _ _ _ => trivial)

theorem maintains_once {d : Declaration} {phase : Phase} {body : Analysis (List Diagnostic)}
    (keeps : ∀ m facts, I facts → I ((Facts.phaseCell d phase).write m facts)) (inside : Maintains I body) :
    Maintains I (once d phase body) :=
  maintains_bind (maintains_compute keeps inside) (fun _ => maintains_pure _)

end Analysis

/-- Identifiers mean what their names mean where they stand, and nothing is known about effects. -/
structure Facts.Faithful (p : Program) (facts : Facts) : Prop where
  referrals : ∀ node v, facts.referrals.find? node = some (.variable v) →
    ∃ i, p.Mentions i ∧ i.node = node ∧ p.scopes.findVariable? i.site.scope i.name = some v
  summaries : facts.summaries = {}

namespace Facts
variable {p : Program} {facts : Facts}

theorem faithful_empty : Faithful p {} := by
  constructor
  · intro node v found
    simp at found
  · rfl

theorem faithful_record_referral {i : Bound.Identifier} {r : Referral} (mentioned : p.Mentions i)
    (means : ∀ v, r = .variable v → p.scopes.findVariable? i.site.scope i.name = some v)
    (faithful : facts.Faithful p) : (facts.recordReferral i.node r).Faithful p := by
  constructor
  · intro node v found
    change (facts.referrals.insertNew i.node r).find? node = _ at found
    rw [Table.find_insert_new] at found
    split at found
    · rename_i same
      cases here : facts.referrals.find? i.node with
      | some old =>
        rw [here] at found
        apply faithful.referrals node v
        rw [same, here]
        exact found
      | none =>
        rw [here] at found
        cases found
        exact ⟨i, mentioned, same.symm, means v rfl⟩
    · exact faithful.referrals node v found
  · exact faithful.summaries

end Facts

theorem Program.referral_variable {p : Program} {scope : ScopeId} {name : String} {v : VariableId}
    (found : p.referral? scope name = some (.variable v)) : p.scopes.findVariable? scope name = some v := by
  unfold referral? at found
  split at found
  · cases found
  · split at found
    · cases found
    · rcases Option.or_eq_some_iff.mp found with first | ⟨_, second⟩
      · obtain ⟨w, here, same⟩ := Option.map_eq_some_iff.mp first
        cases same
        exact here
      · obtain ⟨t, _, same⟩ := Option.map_eq_some_iff.mp second
        cases same

def Facts.HasRecord (facts : Facts) : Declaration → Prop
  | .function g => ∃ t, facts.returnTypes.find? g = some t
  | .variable v => ∃ t, facts.variableTypes.find? v = some t
  | .struct _ => True

/-- What the first phase finds at a node. -/
def Bound.Node.nameFindings (p : Program) : Bound.Node → List Diagnostic
  | .identifier _ name site =>
    if p.referral? site.scope name = none then [.ofError (.undefinedIdentifier name) site.span] else []
  | .number numeral site => numeral.findings site.span
  | _ => []

def Program.structFindings (p : Program) (s : Bound.Struct) : List Diagnostic :=
  s.duplicates ++ p.memberTypeErrors s ++ (Bound.Expr.allNodes s.defaults).flatMap (Bound.Node.nameFindings p)

/-- What the first phase may find in a declaration. In a struct it follows from the program alone. -/
def Program.MayFind (p : Program) (d : Declaration) (found : List Diagnostic) : Prop :=
  ∀ id s, d = .struct id → p.structs[id.index]? = some s → found = p.structFindings s

/-- An invariant that each single step of the first phase keeps. The names that may be looked up include those of the
program. -/
structure Lasting (p : Program) (M : Bound.Identifier → Prop) (I : Facts → Prop) : Prop where
  mentioned : ∀ i, p.Mentions i → M i
  referral : ∀ i r, M i → (∀ v, r = .variable v → p.scopes.findVariable? i.site.scope i.name = some v) →
    ∀ facts, I facts → I (facts.recordReferral i.node r)
  enterNames : ∀ d facts, I facts → I ((Facts.phaseCell d .resolution).write .inProgress facts)
  leaveNames : ∀ d found facts, I facts → p.MayFind d found →
    I ((Facts.phaseCell d .resolution).write (.computed found) facts)

/-- An invariant that each single step of the first two phases keeps. The typing of a declaration ends with its type on
record. -/
structure Robust (p : Program) (M : Bound.Identifier → Prop) (I : Facts → Prop) : Prop extends Lasting p M I where
  type : ∀ node t facts, I facts → I (facts.recordType node t)
  dispatch : ∀ node f facts, I facts → I (facts.recordDispatch node f)
  variableType : ∀ v t facts, I facts → I (facts.recordVariableType v t)
  returnType : ∀ g t facts, I facts → I (facts.recordReturnType g t)
  enter : ∀ d facts, I facts → I ((Facts.phaseCell d .typing).write .inProgress facts)
  leave : ∀ d found facts, I facts → facts.HasRecord d → I ((Facts.phaseCell d .typing).write (.computed found) facts)

variable {p : Program} {M : Bound.Identifier → Prop} {I : Facts → Prop}

variable {d : Declaration}

theorem Lasting.once (lasting : Lasting p M I) {body : Analysis (List Diagnostic)}
    (inside : Maintains I body)
    (finds : ∀ facts found after, body facts = (.ok found, after) → p.MayFind d found) :
    Maintains I (once d .resolution body) :=
  maintains_bind (maintains_compute_ending (lasting.enterNames d) (lasting.leaveNames d) inside finds)
    (fun _ => maintains_pure _)

theorem Robust.once (robust : Robust p M I) {body : Analysis (List Diagnostic)}
    (inside : Maintains I body)
    (records : ∀ facts found after, body facts = (.ok found, after) → after.HasRecord d) :
    Maintains I (once d .typing body) :=
  maintains_bind (maintains_compute_ending (E := fun _ facts => facts.HasRecord d) (robust.enter d) (robust.leave d)
    inside records) (fun _ => maintains_pure _)

variable {n : Bound.Node}

theorem node_mentions {ns : List Bound.Node} (mentioned : ∀ i ∈ ns.filterMap Bound.Node.identifier?, M i)
    (member : n ∈ ns) : ∀ i ∈ n.identifier?.toList, M i := by
  intro i here
  exact mentioned i (List.mem_filterMap.mpr ⟨n, member, Option.mem_toList.mp here⟩)

theorem variable_mentions {id : VariableId} {v : Bound.Variable} (found : p.variableAt id = .ok v) :
    ∀ i ∈ Bound.Expr.optionIdentifiers v.initializer, p.Mentions i := by
  intro i member
  refine ⟨.variable id, ?_⟩
  rw [identifiers_variable (variable_at_ok_iff.mp found)]
  exact member

theorem function_mentions {id : FunctionId} {f : Bound.Function} (found : p.functionAt id = .ok f) :
    ∀ i ∈ p.stepsIdentifiers (Bound.Block.optionSteps f.body), p.Mentions i := by
  intro i member
  refine ⟨.function id, ?_⟩
  rw [identifiers_function (function_at_ok_iff.mp found)]
  exact member

theorem struct_mentions {id : StructId} {s : Bound.Struct} (found : p.structAt id = .ok s) :
    ∀ i ∈ Bound.Expr.allIdentifiers s.defaults, p.Mentions i := by
  intro i member
  refine ⟨.struct id, ?_⟩
  rw [identifiers_struct (struct_at_ok_iff.mp found)]
  exact member

variable {facts after : Facts}

theorem resolve_node_finds {found : List Diagnostic}
    (ran : n.resolve p facts = (.ok found, after)) : found = n.nameFindings p := by
  cases n with
  | identifier node name site =>
    simp only [Bound.Node.resolve, Program.resolveIdentifier] at ran
    cases means : p.referral? site.scope name with
    | some r =>
      simp only [means] at ran
      cases ran
      simp [Bound.Node.nameFindings, means]
    | none =>
      simp only [means] at ran
      cases ran
      simp [Bound.Node.nameFindings, means]
  | _ => cases ran; rfl

/-- Whatever is known before, names are looked up with the same findings. -/
theorem resolve_nodes_find {ns : List Bound.Node} {found : List Diagnostic}
    (ran : collect (Bound.Node.resolve p) ns facts = (.ok found, after)) :
    found = ns.flatMap (Bound.Node.nameFindings p) := by
  refine collect_carries (K := fun done before _ => before = done.flatMap (Bound.Node.nameFindings p)) ?_ rfl ran
  intro done n rest now before new later _ findings step
  rw [findings, resolve_node_finds step, List.flatMap_append, List.flatMap_singleton]

section Resolving
variable (lasting : Lasting p M I)
include lasting

theorem resolve_node_maintains {n : Bound.Node} (mentioned : ∀ i ∈ n.identifier?.toList, M i) :
    Maintains I (n.resolve p) := by
  cases n with
  | identifier node name site =>
    have here := mentioned ⟨node, name, site⟩ (List.mem_singleton_self _)
    simp only [Bound.Node.resolve, Program.resolveIdentifier]
    split
    · rename_i r found
      apply maintains_bind _ (fun _ => maintains_pure _)
      apply maintains_modify
      apply lasting.referral ⟨node, name, site⟩ r here
      rintro v rfl
      exact referral_variable found
    · exact maintains_pure _
  | _ => exact maintains_pure _

theorem resolve_nodes_maintain {ns : List Bound.Node}
    (mentioned : ∀ i ∈ ns.filterMap Bound.Node.identifier?, M i) :
    Maintains I (collect (Bound.Node.resolve p) ns) :=
  maintains_collect ns (fun _ member => resolve_node_maintains lasting (node_mentions mentioned member))

theorem resolve_variable_maintains (id : VariableId) : Maintains I (p.resolveVariable id) := by
  apply ensures_look_up
  intro v found
  refine lasting.once ?_ (fun _ _ _ _ _ _ same => by cases same)
  rw [Bound.Expr.resolve_option_collect]
  apply maintains_bind _ (fun _ => maintains_pure _)
  exact resolve_nodes_maintain lasting (fun i member => lasting.mentioned i (variable_mentions found i member))

theorem resolve_steps_maintain {steps : List Bound.Step} (mentioned : ∀ i ∈ p.stepsIdentifiers steps, M i) :
    Maintains I (collect (Bound.Step.resolve p) steps) := by
  apply maintains_collect
  intro s member
  have inside : ∀ i ∈ p.stepIdentifiers s, M i := by
    intro i here
    exact mentioned i (List.mem_flatMap.mpr ⟨s, member, here⟩)
  cases s with
  | node n => exact resolve_node_maintains lasting inside
  | introduce id => exact resolve_variable_maintains lasting id
  | assign target value site =>
    rw [Bound.Step.resolve_assign]
    apply resolve_nodes_maintain lasting
    rw [List.filterMap_append]
    exact inside

theorem resolve_function_maintains (id : FunctionId) : Maintains I (p.resolveFunction id) := by
  apply ensures_look_up
  intro f found
  refine lasting.once ?_ (fun _ _ _ _ _ _ same => by cases same)
  rw [Bound.Block.resolve_option_collect]
  apply maintains_bind _ (fun _ => maintains_pure _)
  exact resolve_steps_maintain lasting (fun i member => lasting.mentioned i (function_mentions found i member))

theorem resolve_struct_maintains (id : StructId) : Maintains I (p.resolveStruct id) := by
  apply ensures_look_up
  intro s found
  rw [Bound.Expr.resolve_all_collect]
  apply lasting.once
  · apply maintains_bind _ (fun _ => maintains_pure _)
    exact resolve_nodes_maintain lasting (fun i member => lasting.mentioned i (struct_mentions found i member))
  · intro facts told after ran id' s' same here
    cases same
    cases here.symm.trans (struct_at_ok_iff.mp found)
    obtain ⟨ofDefaults, _, work, ended⟩ := bind_ok_split ran
    cases ended
    rw [resolve_nodes_find work]
    rfl

theorem run_names_maintains (d : Declaration) : Maintains I (p.runPhase d .resolution) :=
  match d with
  | .function id => resolve_function_maintains lasting id
  | .variable id => resolve_variable_maintains lasting id
  | .struct id => resolve_struct_maintains lasting id

end Resolving

structure TypeSource.Maintains (I : Facts → Prop) (ask : TypeSource) : Prop where
  variableType : ∀ v, Analysis.Maintains I (ask.variableType v)
  returnType : ∀ f, Analysis.Maintains I (ask.returnType f)

theorem assignment_findings_maintain (target : Bound.Expr) (site : Site) :
    Maintains I (p.assignmentFindings target site) := by
  unfold Program.assignmentFindings
  split
  · apply ensures_bind ensures_get
    intro facts _
    split
    · exact ensures_look_up (fun _ _ => maintains_pure _)
    · exact maintains_pure _
  · exact maintains_pure _

structure Tolerates (p : Program) (I : Facts → Prop) (n : Bound.Node) : Prop where
  referral : ∀ i ∈ n.identifier?.toList, ∀ v, p.scopes.findVariable? i.site.scope i.name = some v →
    ∀ facts, I facts → I (facts.recordReferral i.node (.variable v))
  type : ∀ id, n.id? = some id → ∀ t facts, I facts → I (facts.recordType id t)
  dispatch : ∀ id, n.id? = some id → ∀ f facts, I facts → I (facts.recordDispatch id f)

theorem Robust.tolerates (robust : Robust p M I) (mentioned : ∀ i ∈ n.identifier?.toList, M i) :
    Tolerates p I n := by
  refine ⟨?_, fun id _ t => robust.type id t, fun id _ f => robust.dispatch id f⟩
  intro i member v found
  apply robust.referral i _ (mentioned i member)
  intro w same
  cases same
  exact found

section Nodes
variable {ask : TypeSource} (source : ask.Maintains I)
include source

theorem type_identifier_maintains {node : NodeId} {name : String} {site : Site}
    (tolerates : Tolerates p I (.identifier node name site)) : Maintains I (p.typeIdentifier ask node name site) := by
  apply maintains_bind
  · unfold Program.settleReferral
    apply ensures_bind ensures_get
    intro facts _
    split
    · exact maintains_pure _
    · split
      · rename_i v found
        apply maintains_bind _ (fun _ => maintains_pure _)
        exact maintains_modify (tolerates.referral ⟨node, name, site⟩ (List.mem_singleton_self _) v found)
      · exact maintains_pure _
  · intro findings
    apply maintains_bind _ (fun _ => maintains_pure _)
    apply ensures_bind ensures_get
    intro facts _
    split
    · exact maintains_pure _
    · apply maintains_bind _ (fun t => maintains_modify (tolerates.type node rfl t))
      unfold Program.referredType
      split
      · exact maintains_pure _
      · exact source.variableType _
      · exact maintains_pure _
      · exact maintains_pure _

theorem type_invocation_maintains {call : Bound.Invocation} {operand : Option Bound.Expr} {args : List Bound.Expr}
    (tolerates : Tolerates p I (.call call operand args)) (receiver : Option (Option TypeRef))
    (arguments : List (Option TypeRef)) : Maintains I (p.typeInvocation ask call receiver arguments) := by
  have record : ∀ t, Maintains I (modify (Facts.recordType call.node t)) :=
    fun t => maintains_modify (tolerates.type call.node rfl t)
  apply ensures_look_up
  intro ranked _
  split
  · exact maintains_bind (record _) (fun _ => maintains_pure _)
  · apply ensures_look_up
    intro ambiguous _
    apply maintains_bind _ (fun _ => maintains_pure _)
    apply ensures_bind ensures_get
    intro facts _
    split
    · exact maintains_pure _
    · apply maintains_bind
      · unfold Program.resultType Program.valueType
        apply maintains_bind _ (fun _ => maintains_pure _)
        split
        · exact maintains_pure _
        · exact source.returnType _
      · intro t
        apply maintains_bind _ (fun _ => record _)
        exact maintains_modify (tolerates.dispatch call.node rfl _)

theorem type_node_tolerated {n : Bound.Node} (tolerates : Tolerates p I n) : Maintains I (n.assignTypes p ask) := by
  cases n with
  | identifier node name site => exact type_identifier_maintains source tolerates
  | number => exact maintains_pure _
  | call call receiver args =>
    apply ensures_bind ensures_get
    intro facts _
    exact type_invocation_maintains source tolerates _ _
  | member node object name nullSafe site =>
    have record : ∀ t, Maintains I (modify (Facts.recordType node t)) :=
      fun t => maintains_modify (tolerates.type node rfl t)
    apply ensures_bind ensures_get
    intro facts _
    unfold Program.typeMember
    split
    · exact maintains_bind (record _) (fun _ => maintains_pure _)
    · refine ensures_look_up (fun struct _ => ?_)
      split
      · exact maintains_bind (record _) (fun _ => maintains_pure _)
      · exact maintains_bind (record _) (fun _ => maintains_pure _)

end Nodes

section Typing
variable (robust : Robust p M I) {ask : TypeSource} (source : ask.Maintains I)
include robust source

theorem type_nodes_maintain {ns : List Bound.Node}
    (mentioned : ∀ i ∈ ns.filterMap Bound.Node.identifier?, M i) :
    Maintains I (collect (Bound.Node.assignTypes p ask) ns) :=
  maintains_collect ns (fun _ member => type_node_tolerated source (robust.tolerates (node_mentions mentioned member)))

theorem type_variable_maintains (id : VariableId) : Maintains I (p.typeVariable ask id) := by
  apply ensures_look_up
  intro v found
  apply robust.once
  · rw [Bound.Expr.types_option_collect]
    apply maintains_bind (type_nodes_maintain robust source
      (fun i member => robust.mentioned i (variable_mentions found i member)))
    intro ofInitializer
    apply ensures_bind ensures_get
    intro facts _
    apply ensures_look_up
    intro own _
    exact maintains_bind (maintains_modify (robust.variableType _ _)) (fun _ => maintains_pure _)
  · intro facts found after ran
    obtain ⟨_, middle, _, rest⟩ := bind_ok_split ran
    obtain ⟨now, _, got, rest⟩ := bind_ok_split rest
    obtain ⟨_, _, told, rest⟩ := bind_ok_split rest
    obtain ⟨_, rfl⟩ := Prod.mk.inj told
    cases rest
    exact Table.insert_new_recorded _ _ _

theorem type_steps_maintain {steps : List Bound.Step} (mentioned : ∀ i ∈ p.stepsIdentifiers steps, M i) :
    Maintains I (collect (Bound.Step.assignTypes p ask) steps) := by
  apply maintains_collect
  intro s member
  have inside : ∀ i ∈ p.stepIdentifiers s, M i := by
    intro i here
    exact mentioned i (List.mem_flatMap.mpr ⟨s, member, here⟩)
  cases s with
  | node n => exact type_node_tolerated source (robust.tolerates inside)
  | introduce id => exact type_variable_maintains robust source id
  | assign target value site =>
    simp only [Bound.Step.assignTypes, Bound.Expr.types_collect]
    apply maintains_bind
    · exact type_nodes_maintain robust source (fun i here => inside i (List.mem_append_left _ here))
    · intro ofTarget
      apply maintains_bind
      · exact type_nodes_maintain robust source (fun i here => inside i (List.mem_append_right _ here))
      · intro ofValue
        exact maintains_bind (assignment_findings_maintain target site) (fun _ => maintains_pure _)

theorem type_function_maintains (id : FunctionId) : Maintains I (p.typeFunction ask id) := by
  apply ensures_look_up
  intro f found
  apply robust.once
  · rw [Bound.Block.types_option_collect]
    apply maintains_bind (type_steps_maintain robust source
      (fun i member => robust.mentioned i (function_mentions found i member)))
    intro findings
    apply ensures_bind ensures_get
    intro facts _
    apply ensures_look_up
    intro inferred _
    exact maintains_bind (maintains_modify (robust.returnType _ _)) (fun _ => maintains_pure _)
  · intro facts found after ran
    obtain ⟨_, middle, _, rest⟩ := bind_ok_split ran
    obtain ⟨now, _, got, rest⟩ := bind_ok_split rest
    obtain ⟨_, _, told, rest⟩ := bind_ok_split rest
    obtain ⟨_, rfl⟩ := Prod.mk.inj told
    cases rest
    exact Table.insert_new_recorded _ _ _

theorem type_struct_maintains (id : StructId) : Maintains I (p.typeStruct ask id) := by
  apply ensures_look_up
  intro s found
  apply robust.once
  · rw [Bound.Expr.types_all_collect]
    exact type_nodes_maintain robust source (fun i member => robust.mentioned i (struct_mentions found i member))
  · exact fun _ _ _ _ => trivial

theorem types_using_maintain :
    TypeSource.Maintains I ⟨p.variableTypeUsing ask, p.returnTypeUsing ask⟩ := by
  constructor
  · intro id
    apply ensures_look_up
    intro v _
    split
    · exact ensures_look_up (fun _ _ => maintains_pure _)
    · split
      · exact maintains_pure _
      · unfold Program.inferredVariableType
        apply ensures_bind ensures_get
        intro facts _
        split
        · exact maintains_pure _
        · apply maintains_bind (resolve_variable_maintains robust.toLasting id)
          intro _
          apply maintains_bind (type_variable_maintains robust source id)
          intro _
          exact ensures_bind ensures_get (fun _ _ => maintains_pure _)
  · intro id
    apply ensures_look_up
    intro f _
    split
    · exact maintains_pure _
    · unfold Program.inferredReturnType
      apply ensures_bind ensures_get
      intro facts _
      split
      · exact maintains_pure _
      · apply maintains_bind (resolve_function_maintains robust.toLasting id)
        intro _
        apply maintains_bind (type_function_maintains robust source id)
        intro _
        exact ensures_bind ensures_get (fun _ _ => maintains_pure _)

omit source in
theorem types_within_maintain (depth : Nat) : (p.typesWithin depth).Maintains I := by
  induction depth with
  | zero => exact ⟨fun _ => maintains_throw _, fun _ => maintains_throw _⟩
  | succ depth ih => exact types_using_maintain robust ih

omit source in
theorem run_phase_maintains (d : Declaration) {phase : Phase} (early : phase ≠ .validation) :
    Maintains I (p.runPhase d phase) :=
  have source := types_within_maintain robust (p.functions.size + p.vars.size + 1)
  match d, phase, early with
  | d, .resolution, _ => run_names_maintains robust.toLasting d
  | .function id, .typing, _ => type_function_maintains robust source id
  | .variable id, .typing, _ => type_variable_maintains robust source id
  | .struct id, .typing, _ => type_struct_maintains robust source id

end Typing

theorem faithful_robust (p : Program) : Robust p p.Mentions (Facts.Faithful p) where
  mentioned _ mentioned := mentioned
  referral _ _ mentioned means _ faithful := Facts.faithful_record_referral mentioned means faithful
  type _ _ _ faithful := ⟨faithful.referrals, faithful.summaries⟩
  dispatch _ _ _ faithful := ⟨faithful.referrals, faithful.summaries⟩
  variableType _ _ _ faithful := ⟨faithful.referrals, faithful.summaries⟩
  returnType _ _ _ faithful := ⟨faithful.referrals, faithful.summaries⟩
  enterNames _ _ faithful := ⟨faithful.referrals, faithful.summaries⟩
  leaveNames _ _ _ faithful _ := ⟨faithful.referrals, faithful.summaries⟩
  enter _ _ faithful := ⟨faithful.referrals, faithful.summaries⟩
  leave _ _ _ faithful _ := ⟨faithful.referrals, faithful.summaries⟩

theorem summaries_robust (p : Program) (summaries : Cells (Access × FunctionId) EffectSummary) :
    Robust p (fun _ => True) (fun facts => facts.summaries = summaries) where
  mentioned _ _ := trivial
  referral _ _ _ _ _ same := same
  type _ _ _ same := same
  dispatch _ _ _ same := same
  variableType _ _ _ same := same
  returnType _ _ _ same := same
  enterNames _ _ same := same
  leaveNames _ _ _ same _ := same
  enter _ _ same := same
  leave _ _ _ same _ := same

variable {phase : Phase}

theorem run_phase_all_maintains {ds : List Declaration}
    (each : ∀ d ∈ ds, Maintains I (p.runPhase d phase)) : Maintains I (p.runPhaseAll phase ds) := by
  rw [run_phase_all_collect]
  exact maintains_collect ds each

def Facts.Done (facts : Facts) (d : Declaration) (phase : Phase) : Prop :=
  ∃ findings, facts.phases.state (d, phase) = .computed findings

theorem done_extends (grows : facts.Extends after)
    (done : facts.Done d phase) : after.Done d phase := by
  obtain ⟨findings, here⟩ := done
  exact ⟨findings, grows.phases.computed _ _ here⟩

variable {findings : List Diagnostic}

theorem once_done {α : Type} {x : Except InternalError α}
    {body : α → Analysis (List Diagnostic)}
    (outside : facts.phases.state (d, phase) ≠ .inProgress)
    (ran : (liftM x >>= fun a => once d phase (body a)) facts = (.ok findings, after)) : after.Done d phase := by
  obtain ⟨a, middle, looked, rest⟩ := bind_ok_split ran
  cases looked
  obtain ⟨value, last, computed, done⟩ := bind_ok_split rest
  cases done
  unfold Cell.compute at computed
  split at computed
  · rename_i value here
    cases computed
    exact ⟨value, here⟩
  · rename_i here
    exact absurd here outside
  · split at computed
    · rename_i value inner _
      cases computed
      refine ⟨value, ?_⟩
      change Cells.state (inner.phases.insert (d, phase) _) (d, phase) = _
      rw [Cells.state_insert, if_pos rfl]
    · cases computed

theorem run_phase_done
    (outside : facts.phases.state (d, phase) ≠ .inProgress) (ran : p.runPhase d phase facts = (.ok findings, after)) :
    after.Done d phase :=
  match d, phase, outside, ran with
  | .function _, .resolution, outside, ran => once_done outside ran
  | .function _, .typing, outside, ran => once_done outside ran
  | .function _, .validation, outside, ran => once_done outside ran
  | .variable _, .resolution, outside, ran => once_done outside ran
  | .variable _, .typing, outside, ran => once_done outside ran
  | .variable _, .validation, outside, ran => once_done outside ran
  | .struct _, .resolution, outside, ran => once_done outside ran
  | .struct _, .typing, outside, ran => once_done outside ran
  | .struct _, .validation, outside, ran => once_done outside ran

theorem run_phase_all_grows (p : Program) (phase : Phase) (ds : List Declaration) : Grows (p.runPhaseAll phase ds) := by
  rw [run_phase_all_collect]
  exact grows_collect ds (fun d _ => run_phase_grows p d phase)

theorem analyse_grows (p : Program) : Grows p.analyse := by
  rw [analyse_collect]
  exact grows_collect _ (fun phase _ => run_phase_all_grows p phase _)

theorem run_phase_all_done {ds : List Declaration}
    (idle : ∀ k, facts.phases.state k ≠ .inProgress)
    (ran : p.runPhaseAll phase ds facts = (.ok findings, after)) : ∀ d ∈ ds, after.Done d phase := by
  rw [run_phase_all_collect] at ran
  let K : List Declaration → List Diagnostic → Facts → Prop := fun done _ now =>
    facts.Extends now ∧ ∀ d ∈ done, now.Done d phase
  refine (collect_carries (K := K) ?_ ⟨Facts.extends_refl facts, by simp⟩ ran).2
  rintro done d rest now _ first later _ ⟨grows, known⟩ step
  have further := run_phase_grows p d phase now
  rw [step] at further
  have new := run_phase_done (fun running => idle _ ((grows.phases.running _).mp running)) step
  exact ⟨Facts.extends_trans grows further, each_snoc (fun e earlier => done_extends further (known e earlier)) new⟩

/-- A whole analysis goes through the phases one after another. -/
theorem analyse_phases {base : Facts}
    (ran : p.analyse base = (.ok findings, facts)) :
    ∃ first resolved second typed third, p.runPhaseAll .resolution p.declarations base = (.ok first, resolved) ∧
      p.runPhaseAll .typing p.declarations resolved = (.ok second, typed) ∧
      p.runPhaseAll .validation p.declarations typed = (.ok third, facts) ∧ findings = first ++ (second ++ third) := by
  obtain ⟨first, resolved, ran₁, rest⟩ := bind_ok_split ran
  obtain ⟨others, _, rest, ended⟩ := bind_ok_split rest
  cases ended
  obtain ⟨second, typed, ran₂, rest⟩ := bind_ok_split rest
  obtain ⟨others', _, rest, ended⟩ := bind_ok_split rest
  cases ended
  obtain ⟨third, validated, ran₃, rest⟩ := bind_ok_split rest
  obtain ⟨others'', _, rest, ended⟩ := bind_ok_split rest
  cases ended
  cases rest
  exact ⟨first, resolved, second, typed, third, ran₁, ran₂, ran₃, by rw [List.append_nil]⟩

theorem early_phases_maintain {M : Bound.Identifier → Prop} {I : Facts → Prop} (robust : Robust p M I)
    {base resolved typed : Facts} {first second : List Diagnostic} (start : I base)
    (ran : p.runPhaseAll .resolution p.declarations base = (.ok first, resolved))
    (ran' : p.runPhaseAll .typing p.declarations resolved = (.ok second, typed)) : I typed := by
  have each : ∀ phase, phase ≠ Phase.validation → ∀ d ∈ p.declarations, Maintains I (p.runPhase d phase) :=
    fun phase early d _ => run_phase_maintains robust d early
  have middle := (run_phase_all_maintains (each .resolution (by decide)) base start first resolved ran).1
  exact (run_phase_all_maintains (each .typing (by decide)) resolved middle second typed ran').1

/-- What is known before the effects are found out. -/
structure Facts.Ready (p : Program) (facts : Facts) : Prop where
  faithful : facts.Faithful p
  done : ∀ (id : FunctionId) (f : Bound.Function), p.functions[id.index]? = some f → f.body ≠ none →
    facts.Done (.function id) .resolution ∧ facts.Done (.function id) .typing

theorem early_phases_ready {modules : List Tree.Module} {ds : List Construction.Declared}
    (lexical : p.Lexical modules ds) {resolved typed : Facts} {first second : List Diagnostic}
    (ran₁ : p.runPhaseAll .resolution p.declarations {} = (.ok first, resolved))
    (ran₂ : p.runPhaseAll .typing p.declarations resolved = (.ok second, typed)) : typed.Ready p := by
  have idle : ∀ k, (({} : Facts).phases.state k) ≠ .inProgress := by
    intro k
    simp [Cells.state]
  have idle' : ∀ k, resolved.phases.state k ≠ .inProgress := by
    have grows := run_phase_all_grows p .resolution p.declarations {}
    rw [ran₁] at grows
    intro k running
    exact idle k ((grows.phases.running k).mp running)
  have grows := run_phase_all_grows p .typing p.declarations resolved
  rw [ran₂] at grows
  constructor
  · exact early_phases_maintain (faithful_robust p) Facts.faithful_empty ran₁ ran₂
  · intro id f found body
    obtain ⟨_, _, _, decl, _, _, _, listed, _⟩ := body_closed lexical found body
    have declared : Declaration.function id ∈ p.declarations := by
      rw [lexical.declarations]
      exact List.mem_map.mpr ⟨_, listed, rfl⟩
    constructor
    · exact done_extends grows (run_phase_all_done idle ran₁ _ declared)
    · exact run_phase_all_done idle' ran₂ _ declared

end SemanticAnalysis
