import SemanticAnalysis.Proofs.Analysis.Referrals
import SemanticAnalysis.Proofs.Lexical.Owners
/-!
What the first phase leaves behind. After it every name in the program has been looked up, and the findings of every
declaration are those that follow from the program alone: one for each name that means nothing, for each malformed
numeral and for each written type that is not known.
-/
namespace SemanticAnalysis
open Running Analysis SemanticAnalysis.Bound Program Facts

theorem Facts.state_write (d : Declaration) (phase : Phase) (m : Memo (List Diagnostic)) (facts : Facts)
    (k : Declaration × Phase) :
    ((Facts.phaseCell d phase).write m facts).phases.state k = if k = (d, phase) then m else facts.phases.state k :=
  Cells.state_insert _ _ _ _

namespace Analysis

variable {d : Declaration} {facts after : Facts} {found : List Diagnostic}

theorem once_cases {phase : Phase} {body : Analysis (List Diagnostic)}
    (ran : once d phase body facts = (.ok found, after)) :
    (facts.phases.state (d, phase) = .computed found ∧ after = facts) ∨
      (facts.phases.state (d, phase) = .inProgress ∧ found = [] ∧ after = facts) ∨
      (facts.phases.state (d, phase) = .unknown ∧ ∃ inside,
        body ((Facts.phaseCell d phase).write .inProgress facts) = (.ok found, inside) ∧
        after = (Facts.phaseCell d phase).write (.computed found) inside) := by
  obtain ⟨value, last, computed, ended⟩ := bind_ok_split ran
  cases ended
  unfold Cell.compute at computed
  split at computed
  · rename_i known
    cases computed
    exact .inl ⟨known, rfl⟩
  · rename_i running
    cases computed
    exact .inr (.inl ⟨running, rfl, rfl⟩)
  · rename_i unknown
    split at computed
    · rename_i inside step
      cases computed
      exact .inr (.inr ⟨unknown, inside, step, rfl⟩)
    · cases computed

theorem once_enters {phase : Phase} {body : Analysis (List Diagnostic)}
    (unknown : facts.phases.state (d, phase) = .unknown)
    (ran : once d phase body facts = (.ok found, after)) :
    ∃ inside, body ((Facts.phaseCell d phase).write .inProgress facts) = (.ok found, inside) ∧
      after = (Facts.phaseCell d phase).write (.computed found) inside := by
  rcases once_cases ran with ⟨known, _⟩ | ⟨running, _, _⟩ | ⟨_, entered⟩
  · rw [unknown] at known
    cases known
  · rw [unknown] at running
    cases running
  · exact entered

theorem once_reports {α : Type} {phase : Phase} {x : Except InternalError α}
    {body : α → Analysis (List Diagnostic)}
    (outside : facts.phases.state (d, phase) ≠ .inProgress)
    (ran : (liftM x >>= fun a => once d phase (body a)) facts = (.ok found, after)) :
    after.phases.state (d, phase) = .computed found := by
  obtain ⟨_, _, rest⟩ := look_up_split ran
  rcases once_cases rest with ⟨state, rfl⟩ | ⟨running, _⟩ | ⟨_, last, _, rfl⟩
  · exact state
  · exact absurd running outside
  · rw [state_write, if_pos rfl]

end Analysis

namespace Bound

def Variable.nameFindings (p : Program) (v : Variable) : List Diagnostic :=
  (p.declaredTypeError? v).toList.map (fun e => ⟨.error, e⟩)
    ++ (Expr.optionNodes v.initializer).flatMap (Node.nameFindings p)

def Step.nameFindings (p : Program) : Step → List Diagnostic
  | .node n => n.nameFindings p
  | .introduce id => ((p.vars[id.index]?).map (Variable.nameFindings p)).getD []
  | .assign target value _ => (target.nodes ++ value.nodes).flatMap (Node.nameFindings p)

end Bound

def Program.signatureFindings (p : Program) (f : Function) : List Diagnostic :=
  (p.signature f).errors.map (fun e => ⟨.error, e⟩)

def Program.nameFindings (p : Program) : Declaration → List Diagnostic
  | .function id =>
    ((p.functions[id.index]?).map (fun f =>
      p.signatureFindings f ++ (Block.optionSteps f.body).flatMap (Step.nameFindings p))).getD []
  | .variable id => ((p.vars[id.index]?).map (Variable.nameFindings p)).getD []
  | .struct id =>
    ((p.structs[id.index]?).map (fun s =>
      s.duplicates ++ p.memberTypeErrors s ++ (Expr.allNodes s.defaults).flatMap (Node.nameFindings p))).getD []

namespace Facts

def Finds (p : Program) (facts : Facts) (i : Identifier) : Prop :=
  facts.referrals.find? i.node = p.referral? i.site.scope i.name

structure NamesDone (p : Program) (facts : Facts) (d : Declaration) (found : List Diagnostic) : Prop where
  findings : found = p.nameFindings d
  names : ∀ i ∈ p.identifiers d, facts.Finds p i
  locals : ∀ g, d = .function g → ∀ v, p.Local g v → facts.Done (.variable v) .resolution

structure Named (p : Program) (facts : Facts) : Prop where
  keys : ∀ node r, facts.referrals.find? node = some r → ∃ i, p.Mentions i ∧ i.node = node
  sound : ∀ i, p.Mentions i → ∀ r, facts.referrals.find? i.node = some r → p.referral? i.site.scope i.name = some r
  cells : ∀ d found, facts.phases.state (d, .resolution) = .computed found → facts.NamesDone p d found

structure NamesOnly (before after : Facts) : Prop where
  types : after.types = before.types
  dispatched : after.dispatched = before.dispatched
  variableTypes : after.variableTypes = before.variableTypes
  returnTypes : after.returnTypes = before.returnTypes
  summaries : after.summaries = before.summaries
  phases : ∀ d phase, phase ≠ .resolution → after.phases.state (d, phase) = before.phases.state (d, phase)

variable {p : Program} {facts after : Facts}

theorem unrecorded {i : Identifier}
    (sound : ∀ r, facts.referrals.find? i.node = some r → p.referral? i.site.scope i.name = some r)
    (means : p.referral? i.site.scope i.name = none) : facts.referrals.find? i.node = none := by
  cases stored : facts.referrals.find? i.node with
  | none => rfl
  | some r =>
    have contrary := sound r stored
    rw [means] at contrary
    cases contrary

theorem finds_extends {i : Identifier} (grows : facts.Extends after)
    (sound : ∀ r, after.referrals.find? i.node = some r → p.referral? i.site.scope i.name = some r)
    (finds : facts.Finds p i) : after.Finds p i := by
  unfold Finds at finds ⊢
  cases means : p.referral? i.site.scope i.name with
  | some r =>
    rw [means] at finds
    exact grows.referrals _ _ finds
  | none => exact unrecorded sound means

variable {d : Declaration}

theorem names_done_extends {found : List Diagnostic} (grows : facts.Extends after)
    (sound : ∀ i, p.Mentions i → facts.Finds p i → after.Finds p i) (done : facts.NamesDone p d found) :
    after.NamesDone p d found :=
  ⟨done.findings, fun i member => sound i ⟨d, member⟩ (done.names i member),
    fun g same v own => done_extends grows (done.locals g same v own)⟩

theorem named_empty : Named p {} := by
  constructor
  · intro node r found
    simp at found
  · intro i _ r found
    simp at found
  · intro d found state
    simp [Cells.state] at state

theorem named_same (named : facts.Named p) (referrals : after.referrals = facts.referrals)
    (phases : ∀ d, after.phases.state (d, .resolution) = facts.phases.state (d, .resolution)) : after.Named p := by
  constructor
  · rw [referrals]
    exact named.keys
  · rw [referrals]
    exact named.sound
  · intro d found state
    rw [phases] at state
    have done := named.cells d found state
    refine ⟨done.findings, ?_, ?_⟩
    · unfold Finds
      rw [referrals]
      exact done.names
    · intro g same v own
      obtain ⟨value, known⟩ := done.locals g same v own
      exact ⟨value, (phases _).trans known⟩

theorem names_only_refl (facts : Facts) : facts.NamesOnly facts := ⟨rfl, rfl, rfl, rfl, rfl, fun _ _ _ => rfl⟩

theorem names_only_write {base : Facts} {m : Memo (List Diagnostic)} (only : base.NamesOnly facts) :
    base.NamesOnly ((phaseCell d .resolution).write m facts) := by
  refine { only with phases := ?_ }
  intro e phase other
  rw [state_write, if_neg (fun same => other (Prod.mk.inj same).2)]
  exact only.phases e phase other

theorem named_enter (unknown : facts.phases.state (d, .resolution) = .unknown)
    (named : facts.Named p) : ((phaseCell d .resolution).write .inProgress facts).Named p := by
  refine ⟨named.keys, named.sound, ?_⟩
  intro e found state
  rw [state_write] at state
  split at state
  · cases state
  · have done := named.cells e found state
    refine ⟨done.findings, done.names, ?_⟩
    intro g same v own
    obtain ⟨value, known⟩ := done.locals g same v own
    refine ⟨value, ?_⟩
    rw [state_write, if_neg, known]
    intro equal
    rw [← equal, known] at unknown
    cases unknown

theorem named_leave {found : List Diagnostic} (named : facts.Named p)
    (done : facts.NamesDone p d found) : ((phaseCell d .resolution).write (.computed found) facts).Named p := by
  have kept : ∀ {e more}, facts.NamesDone p e more →
      ((phaseCell d .resolution).write (.computed found) facts).NamesDone p e more := by
    rintro e more ⟨findings, names, locals⟩
    refine ⟨findings, names, ?_⟩
    intro g same v own
    obtain ⟨value, known⟩ := locals g same v own
    by_cases equal : ((Declaration.variable v, Phase.resolution) : Declaration × Phase) = (d, .resolution)
    · exact ⟨found, by rw [state_write, if_pos equal]⟩
    · exact ⟨value, by rw [state_write, if_neg equal, known]⟩
  refine ⟨named.keys, named.sound, ?_⟩
  intro e more state
  rw [state_write] at state
  split at state
  · rename_i same
    cases same
    cases state
    exact kept done
  · exact kept (named.cells e more state)

end Facts

theorem names_only_lasting (p : Program) (base : Facts) : Lasting p (fun _ => True) base.NamesOnly where
  mentioned _ _ := trivial
  referral _ _ _ _ _ only := { only with }
  enterNames _ _ only := names_only_write only
  leaveNames _ _ _ only _ := names_only_write only

variable {p : Program}

section Resolving
variable {modules : List Tree.Module} {ds : List Construction.Declared} (lexical : p.Lexical modules ds)
  {facts after : Facts} {found : List Diagnostic}
include lexical

theorem record_referral_named {i : Identifier} {r : Referral} (here : p.Mentions i) (named : facts.Named p)
    (means : p.referral? i.site.scope i.name = some r) :
    (facts.recordReferral i.node r).Named p ∧ (facts.recordReferral i.node r).Finds p i := by
  -- what was recorded before under this number is about this name
  have recorded : (facts.recordReferral i.node r).referrals.find? i.node = some r := by
    unfold Facts.recordReferral
    rw [Table.find_insert_new, if_pos rfl]
    cases before : facts.referrals.find? i.node with
    | none => rfl
    | some old =>
      have same := named.sound i here old before
      rw [means] at same
      cases same
      rfl
  have sound : ∀ j, p.Mentions j → ∀ s, (facts.recordReferral i.node r).referrals.find? j.node = some s →
      p.referral? j.site.scope j.name = some s := by
    intro j other s stored
    by_cases same : j.node = i.node
    · rw [mentions_unique lexical other here same] at stored ⊢
      rw [recorded] at stored
      cases stored
      exact means
    · unfold Facts.recordReferral at stored
      rw [Table.find_insert_new, if_neg same] at stored
      exact named.sound j other s stored
  have keys : ∀ node s, (facts.recordReferral i.node r).referrals.find? node = some s →
      ∃ j, p.Mentions j ∧ j.node = node := by
    intro node s stored
    by_cases same : node = i.node
    · exact ⟨i, here, same.symm⟩
    · unfold Facts.recordReferral at stored
      rw [Table.find_insert_new, if_neg same] at stored
      exact named.keys node s stored
  have grows := extends_record_referral facts i.node r
  refine ⟨⟨keys, sound, ?_⟩, recorded.trans means.symm⟩
  intro d more state
  exact names_done_extends grows (fun j other => finds_extends grows (sound j other))
    (named.cells d more state)

theorem resolve_node_named {n : Node} (mentioned : ∀ i ∈ n.identifier?.toList, p.Mentions i) (named : facts.Named p)
    (ran : n.resolve p facts = (.ok found, after)) :
    after.Named p ∧ found = n.nameFindings p ∧ ∀ i ∈ n.identifier?.toList, after.Finds p i := by
  have findings := resolve_node_finds ran
  cases n with
  | identifier node name site =>
    let i : Identifier := ⟨node, name, site⟩
    have here : p.Mentions i := mentioned i (List.mem_singleton_self _)
    simp only [Node.resolve, Program.resolveIdentifier] at ran
    cases means : p.referral? site.scope name with
    | some r =>
      simp only [means] at ran
      cases ran
      obtain ⟨named', finds⟩ := record_referral_named (i := i) lexical here named means
      refine ⟨named', findings, ?_⟩
      intro j member
      rw [List.mem_singleton.mp member]
      exact finds
    | none =>
      simp only [means] at ran
      cases ran
      refine ⟨named, findings, ?_⟩
      intro j member
      rw [List.mem_singleton.mp member]
      exact (Facts.unrecorded (named.sound i here) means).trans means.symm
  | _ =>
    cases ran
    exact ⟨named, findings, by simp [Node.identifier?]⟩

theorem resolve_nodes_named {ns : List Node} (mentioned : ∀ i ∈ ns.filterMap Node.identifier?, p.Mentions i)
    (named : facts.Named p) (ran : collect (Node.resolve p) ns facts = (.ok found, after)) :
    after.Named p ∧ found = ns.flatMap (Node.nameFindings p) ∧
      ∀ i ∈ ns.filterMap Node.identifier?, after.Finds p i := by
  let K : List Node → List Diagnostic → Facts → Prop := fun done before now =>
    now.Named p ∧ before = done.flatMap (Node.nameFindings p) ∧ ∀ i ∈ done.filterMap Node.identifier?, now.Finds p i
  refine collect_carries (K := K) ?_ ⟨named, rfl, by simp⟩ ran
  rintro done n rest now before new later whole ⟨named', findings, names⟩ step
  have there : n ∈ ns := by
    rw [whole]
    simp
  have among : ∀ i ∈ done.filterMap Node.identifier?, p.Mentions i := by
    intro i member
    apply mentioned i
    rw [whole, List.filterMap_append]
    exact List.mem_append_left _ member
  obtain ⟨named'', own, here⟩ := resolve_node_named lexical (node_mentions mentioned there) named' step
  have grows := resolve_node_grows p n now
  rw [step] at grows
  refine ⟨named'', ?_, ?_⟩
  · rw [findings, own, List.flatMap_append, List.flatMap_singleton]
  · intro i member
    rw [List.filterMap_append] at member
    rcases List.mem_append.mp member with earlier | last
    · exact finds_extends grows (named''.sound i (among i earlier)) (names i earlier)
    · apply here i
      cases same : n.identifier? with
      | none => simp [same] at last
      | some j => simpa [same] using last

theorem resolve_variable_named {id : VariableId} (named : facts.Named p)
    (outside : facts.phases.state (.variable id, .resolution) ≠ .inProgress)
    (ran : p.resolveVariable id facts = (.ok found, after)) :
    after.Named p ∧ found = p.nameFindings (.variable id) ∧ after.Done (.variable id) .resolution := by
  have done := once_done outside ran
  obtain ⟨v, at_, rest⟩ := look_up_split ran
  have here := variable_at_ok_iff.mp at_
  rcases once_cases rest with ⟨known, rfl⟩ | ⟨running, _⟩ | ⟨unknown, inside, body, rfl⟩
  · exact ⟨named, (named.cells _ _ known).findings, done⟩
  · exact absurd running outside
  · obtain ⟨ofInitializer, middle, work, ended⟩ := bind_ok_split body
    cases ended
    rw [Expr.resolve_option_collect] at work
    obtain ⟨named', findings, names⟩ :=
      resolve_nodes_named lexical (variable_mentions at_) (named_enter unknown named) work
    have told : p.nameFindings (.variable id) = v.nameFindings p := by
      rw [Program.nameFindings, here]
      rfl
    have whole : ((p.declaredTypeError? v).toList.map (fun e => (⟨.error, e⟩ : Diagnostic)) ++ ofInitializer)
        = p.nameFindings (.variable id) := by
      rw [told, findings]
      rfl
    refine ⟨named_leave named' ⟨whole, ?_, ?_⟩, whole, done⟩
    · intro i member
      rw [identifiers_variable here] at member
      exact names i member
    · intro g same
      cases same

theorem resolve_step_named {s : Step} (mentioned : ∀ i ∈ p.stepIdentifiers s, p.Mentions i) (named : facts.Named p)
    (outside : ∀ v, facts.phases.state (.variable v, .resolution) ≠ .inProgress)
    (ran : s.resolve p facts = (.ok found, after)) :
    after.Named p ∧ found = s.nameFindings p ∧ (∀ i ∈ p.stepIdentifiers s, after.Finds p i) ∧
      ∀ v, s = .introduce v → after.Done (.variable v) .resolution := by
  cases s with
  | node n =>
    obtain ⟨named', findings, names⟩ := resolve_node_named lexical mentioned named ran
    exact ⟨named', findings, names, by simp⟩
  | introduce id =>
    obtain ⟨named', findings, done⟩ := resolve_variable_named lexical named (outside id) ran
    refine ⟨named', findings, ?_, ?_⟩
    · obtain ⟨value, known⟩ := done
      exact (named'.cells _ _ known).names
    · intro v same
      cases same
      exact done
  | assign target value site =>
    rw [Step.resolve_assign] at ran
    have inside : ∀ i ∈ (target.nodes ++ value.nodes).filterMap Node.identifier?, p.Mentions i := by
      rw [List.filterMap_append]
      exact mentioned
    obtain ⟨named', findings, names⟩ := resolve_nodes_named lexical inside named ran
    rw [List.filterMap_append] at names
    exact ⟨named', findings, names, by simp⟩

theorem resolve_steps_named {steps : List Step} (mentioned : ∀ i ∈ p.stepsIdentifiers steps, p.Mentions i)
    (named : facts.Named p) (outside : ∀ v, facts.phases.state (.variable v, .resolution) ≠ .inProgress)
    (ran : collect (Step.resolve p) steps facts = (.ok found, after)) :
    after.Named p ∧ found = steps.flatMap (Step.nameFindings p) ∧ (∀ i ∈ p.stepsIdentifiers steps, after.Finds p i) ∧
      ∀ v, .introduce v ∈ steps → after.Done (.variable v) .resolution := by
  let K : List Step → List Diagnostic → Facts → Prop := fun done before now =>
    facts.Extends now ∧ now.Named p ∧ before = done.flatMap (Step.nameFindings p) ∧
      (∀ i ∈ p.stepsIdentifiers done, now.Finds p i) ∧
      ∀ v, .introduce v ∈ done → now.Done (.variable v) .resolution
  have start : K [] [] facts := ⟨extends_refl facts, named, rfl, by simp [Program.stepsIdentifiers], by simp⟩
  refine (collect_carries (K := K) ?_ start ran).2
  rintro done s rest now before new later whole ⟨grows, named', findings, names, locals⟩ step
  have inside : ∀ i ∈ p.stepIdentifiers s, p.Mentions i := by
    intro i member
    exact mentioned i (List.mem_flatMap.mpr ⟨s, by rw [whole]; simp, member⟩)
  have among : ∀ i ∈ p.stepsIdentifiers done, p.Mentions i := by
    intro i member
    apply mentioned i
    rw [whole, Program.stepsIdentifiers, List.flatMap_append]
    exact List.mem_append_left _ member
  have outside' : ∀ v, now.phases.state (.variable v, .resolution) ≠ .inProgress :=
    fun v running => outside v ((grows.phases.running _).mp running)
  obtain ⟨named'', own, here, introduced⟩ := resolve_step_named lexical inside named' outside' step
  have further := resolve_step_grows p s now
  rw [step] at further
  refine ⟨extends_trans grows further, named'', ?_, ?_, ?_⟩
  · rw [findings, own, List.flatMap_append, List.flatMap_singleton]
  · intro i member
    rw [Program.stepsIdentifiers, List.flatMap_append, List.flatMap_singleton] at member
    rcases List.mem_append.mp member with earlier | last
    · exact finds_extends further (named''.sound i (among i earlier)) (names i earlier)
    · exact here i last
  · intro v member
    rcases List.mem_append.mp member with earlier | last
    · exact done_extends further (locals v earlier)
    · exact introduced v (List.mem_singleton.mp last).symm

theorem resolve_function_named {id : FunctionId} (named : facts.Named p)
    (outside : ∀ d, facts.phases.state (d, .resolution) ≠ .inProgress)
    (ran : p.resolveFunction id facts = (.ok found, after)) : after.Named p := by
  obtain ⟨f, at_, rest⟩ := look_up_split ran
  have here := function_at_ok_iff.mp at_
  rcases once_cases rest with ⟨known, rfl⟩ | ⟨running, _, rfl⟩ | ⟨unknown, inside, body, rfl⟩
  · exact named
  · exact named
  · obtain ⟨ofBody, middle, work, ended⟩ := bind_ok_split body
    cases ended
    rw [Block.resolve_option_collect] at work
    have outside' : ∀ v, ((Facts.phaseCell (.function id) .resolution).write .inProgress facts).phases.state
        (.variable v, .resolution) ≠ .inProgress := by
      intro v
      rw [state_write, if_neg (by simp)]
      exact outside _
    obtain ⟨named', findings, names, locals⟩ :=
      resolve_steps_named lexical (function_mentions at_) (named_enter unknown named) outside' work
    apply named_leave named'
    constructor
    · rw [Program.nameFindings, here, findings]
      rfl
    · intro i member
      rw [identifiers_function here] at member
      exact names i member
    · rintro g same v ⟨f', here', introduces⟩
      cases same
      rw [here] at here'
      cases here'
      exact locals v introduces

theorem resolve_struct_named {id : StructId} (named : facts.Named p)
    (ran : p.resolveStruct id facts = (.ok found, after)) : after.Named p := by
  obtain ⟨s, at_, rest⟩ := look_up_split ran
  have here := struct_at_ok_iff.mp at_
  rcases once_cases rest with ⟨known, rfl⟩ | ⟨running, _, rfl⟩ | ⟨unknown, inside, body, rfl⟩
  · exact named
  · exact named
  · obtain ⟨ofDefaults, middle, work, ended⟩ := bind_ok_split body
    cases ended
    rw [Expr.resolve_all_collect] at work
    obtain ⟨named', findings, names⟩ :=
      resolve_nodes_named lexical (struct_mentions at_) (named_enter unknown named) work
    apply named_leave named'
    constructor
    · rw [Program.nameFindings, here, findings]
      rfl
    · intro i member
      rw [identifiers_struct here] at member
      exact names i member
    · intro g same
      cases same

end Resolving

structure Facts.Resolved (p : Program) (facts : Facts) : Prop where
  named : facts.Named p
  idle : ∀ k, facts.phases.state k ≠ .inProgress
  done : ∀ d ∈ p.declarations, facts.Done d .resolution
  locals : ∀ g v, p.Local g v → facts.Done (.variable v) .resolution
  finds : ∀ i, p.Mentions i → facts.Finds p i

theorem resolution_resolves {modules : List Tree.Module} {ds : List Construction.Declared}
    (lexical : p.Lexical modules ds) {base facts : Facts} {found : List Diagnostic} (begun : base.Named p)
    (idle : ∀ k, base.phases.state k ≠ .inProgress)
    (ran : p.runPhaseAll .resolution p.declarations base = (.ok found, facts)) : facts.Resolved p := by
  let J : Facts → Prop := fun now => now.Named p ∧ ∀ k, now.phases.state k ≠ .inProgress
  have each : ∀ d ∈ p.declarations, Maintains J (p.runPhase d .resolution) := by
    rintro d _ now ⟨named, idle'⟩ new later step
    have grows := run_phase_grows p d .resolution now
    rw [step] at grows
    refine ⟨⟨?_, fun k running => idle' k ((grows.phases.running k).mp running)⟩, trivial⟩
    cases d with
    | function id => exact resolve_function_named lexical named (fun d => idle' _) step
    | «variable» id => exact (resolve_variable_named lexical named (idle' _) step).1
    | struct id => exact resolve_struct_named lexical named step
  obtain ⟨⟨named, idle'⟩, _⟩ := run_phase_all_maintains each base ⟨begun, idle⟩ found facts ran
  have done := run_phase_all_done idle ran
  have declared : ∀ {d}, d ∈ ds → facts.Done d.declaration .resolution := by
    intro d listed
    apply done
    rw [lexical.declarations]
    exact List.mem_map.mpr ⟨d, listed, rfl⟩
  refine ⟨named, idle', done, ?_, ?_⟩
  · intro g v own
    obtain ⟨decl, listed, _⟩ := local_owned lexical own
    obtain ⟨value, known⟩ := declared listed
    exact (named.cells _ _ known).locals g rfl v own
  · intro i mentioned
    obtain ⟨d, listed, member⟩ := node_declared lexical (mentions_iff.mp mentioned)
    obtain ⟨value, known⟩ := declared listed
    apply (named.cells _ _ known).names i
    rw [identifiers_eq]
    exact List.mem_filterMap.mpr ⟨_, member, rfl⟩

end SemanticAnalysis
