import SemanticAnalysis.Proofs.Analysis.Referrals
import SemanticAnalysis.Proofs.Effects.Clean
/-!
Summaries are right, in whatever order they are asked for. Every function that is being summed up leads by calls to the
function that is asked for. So one that is asked for while it is being summed up lies on a cycle, and to count the call
of it as an effect is right, whatever is found out about it later. What is kept was found in this way only.
-/
namespace SemanticAnalysis
open Running Analysis SemanticAnalysis.Bound Program

def Links.Faithful (p : Program) (links : Links) : Prop :=
  ∀ i v, p.Mentions i → links.referrals.find? i.node = some (.variable v) →
    p.scopes.findVariable? i.site.scope i.name = some v

/-- A summary that tells whether the function is clean, and where it has effects. -/
structure Program.Right (p : Program) (links : Links) (access : Access) (g : FunctionId) (s : EffectSummary) :
    Prop where
  clean : s.clean = true ↔ p.Clean links access g
  offending : ∀ f body, p.functions[g.index]? = some f → f.body = some body →
    s.offending = p.offending links access f body

def Program.Answers (p : Program) (links : Links) (access : Access) (g : FunctionId) : Option EffectSummary → Prop
  | some s => p.Right links access g s
  | none => ¬p.Clean links access g

def Facts.Prepared (facts : Facts) (g : FunctionId) : Prop :=
  facts.Done (.function g) .resolution ∧ facts.Done (.function g) .typing

theorem Facts.prepared_extends {facts after : Facts} {g : FunctionId} (grows : facts.Extends after)
    (prepared : facts.Prepared g) : after.Prepared g :=
  ⟨done_extends grows prepared.1, done_extends grows prepared.2⟩

structure Facts.Agrees (p : Program) (links : Links) (g : FunctionId) (facts : Facts) : Prop where
  names : ∀ i ∈ p.identifiers (.function g), facts.referrals.find? i.node = links.referrals.find? i.node
  calls : ∀ call receiver args, .call call receiver args ∈ p.nodesOf (.function g) →
    facts.dispatched.find? call.node = links.dispatched.find? call.node

/-- What holds while effects are found out. Functions are prepared one after another, and in every function that is
prepared the links hold. -/
structure Groundwork (p : Program) (links : Links) (I : Facts → Prop) : Prop where
  cells : ∀ access g m facts, I facts → I ((Facts.summaryCell access g).write m facts)
  validations : ∀ d m facts, I facts → I ((Facts.phaseCell d .validation).write m facts)
  prepares : ∀ {g f facts found after}, p.functions[g.index]? = some f → f.body ≠ none → I facts →
    (p.resolveFunction g >>= fun _ => p.typeFunction p.typeSource g) facts = (.ok found, after) →
    I after ∧ after.Prepared g
  agrees : ∀ {g f facts}, p.functions[g.index]? = some f → f.body ≠ none → I facts → facts.Prepared g →
    facts.Agrees p links g

structure Facts.Upright (p : Program) (links : Links) (I : Facts → Prop) (base facts : Facts) : Prop where
  ground : I facts
  running : ∀ k, facts.summaries.state k = .inProgress ↔ base.summaries.state k = .inProgress
  right : ∀ access g s, facts.summaries.state (access, g) = .computed s → p.Right links access g s

variable {p : Program} {links : Links} {I : Facts → Prop} {access : Access} {g : FunctionId} {f : Function}
  {base : Facts}

theorem Facts.upright_same {facts after : Facts} (upright : Facts.Upright p links I base facts)
    (same : after.summaries = facts.summaries) (ground : I after) : Facts.Upright p links I base after := by
  constructor
  · exact ground
  · rw [same]
    exact upright.running
  · rw [same]
    exact upright.right

theorem right_bodyless (found : p.functions[g.index]? = some f) (bodyless : f.body = none) :
    p.Right links access g (.assumed (Program.claimsNone access f.modifiers)) := by
  constructor
  · exact (clean_bodyless_iff found bodyless).symm
  · intro f' body found' written
    rw [found] at found'
    cases found'
    rw [bodyless] at written
    cases written

theorem right_body {body : Block} (found : p.functions[g.index]? = some f) (written : f.body = some body)
    {effects : List Effect}
    (spans : effects.map Effect.span = p.offences links access f (p.visits access body)) :
    p.Right links access g (.ofEffects effects) := by
  constructor
  · rw [clean_body_iff found written, ← offences_none_iff, ← spans]
    simp [EffectSummary.ofEffects]
  · intro f' body' found' written'
    rw [found] at found'
    cases found'
    rw [written] at written'
    cases written'
    unfold Program.offending
    rw [← spans]
    rfl

theorem Analysis.ensures_collect {α β γ : Type} {I : Facts → Prop} {work : α → Analysis (List β)} {view : β → γ}
    {result : α → List γ} (xs : List α) (each : ∀ x ∈ xs, Ensures I (work x) (fun ys => ys.map view = result x)) :
    Ensures I (collect work xs) (fun ys => ys.map view = xs.flatMap result) := by
  induction xs with
  | nil => exact ensures_pure rfl
  | cons x xs ih =>
    apply ensures_bind (each x (List.mem_cons_self ..))
    intro first viewed
    apply ensures_bind (ih (fun y member => each y (List.mem_cons_of_mem _ member)))
    intro others viewed'
    apply ensures_pure
    rw [List.map_append, viewed, viewed', List.flatMap_cons]

theorem root_identifier {node : NodeId} {name : String} {site : Site} :
    ∀ {e : Expr}, e.root? = some (node, name, site) → ⟨node, name, site⟩ ∈ e.identifiers
  | .identifier .., root => by
    cases root
    exact List.mem_singleton_self _
  | .member _ object _ _ _, root => by
    rw [Expr.identifiers, Expr.nodes, List.filterMap_append]
    exact List.mem_append_left _ (root_identifier (e := object) root)
  | .paren inner _, root => root_identifier (e := inner) root
  | .number .., root => by cases root
  | .null _, root => by cases root
  | .invocation .., root => by cases root

section Bodies
variable {modules : List Tree.Module} {ds : List Construction.Declared} (lexical : p.Lexical modules ds)
  (faithful : links.Faithful p) (found : p.functions[g.index]? = some f)
include lexical faithful found

theorem outside_spans {i : Identifier} (listed : i ∈ p.identifiers (.function g)) {facts : Facts}
    (agrees : facts.Agrees p links g) (span : Span) :
    (p.outside? facts f.scope i.node i.site.scope).toList.map (fun _ => span)
      = p.offences links access f [.touch i.node span] := by
  have used : i ∈ p.stepsIdentifiers (Block.optionSteps f.body) := by
    rw [← identifiers_function found]
    exact listed
  have innocent : ∀ r, links.referrals.find? i.node = r → (∀ v, r = some (.variable v) → f.Owns v) →
      p.offences links access f [.touch i.node span] = [] := by
    rintro r means own
    apply offences_single_none
    rintro ⟨v, here, other⟩
    rw [means] at here
    exact other (own v here)
  unfold Program.outside?
  rw [agrees.names i listed]
  cases means : links.referrals.find? i.node with
  | none => rw [innocent _ means (by simp)]; rfl
  | some r =>
    cases r with
    | «variable» v =>
      have own := own_variable_iff lexical found used (faithful i v ⟨_, listed⟩ means)
      dsimp only
      by_cases within : p.scopes.isWithin i.site.scope v f.scope = true
      · rw [if_pos within, innocent _ means (by rintro w same; cases same; exact own.mp within)]
        rfl
      · have offends : p.Offends links access f (.touch i.node span) := ⟨v, means, fun owned => within (own.mpr owned)⟩
        rw [if_neg within, offences_single offends]
        rfl
    | _ => rw [innocent _ means (by simp)]; rfl

variable {body : Block} (written : f.body = some body) {ask : SummarySource} {J : Facts → Prop}
  (agrees : ∀ facts, J facts → facts.Agrees p links g)
  (asks : ∀ h, p.Calls links access g h → Ensures J (ask h) (p.Answers links access h))
include written agrees asks

theorem node_spans {n : Node} (inside : n ∈ p.nodesOf (.function g)) (listed : n.visits access ⊆ p.visits access body) :
    Ensures J (n.effects p access ask f.scope)
      (fun es => es.map Effect.span = p.offences links access f (n.visits access)) := by
  cases n with
  | identifier node name site =>
    apply ensures_bind ensures_get
    intro facts holds
    apply ensures_pure
    cases access with
    | read =>
      unfold Program.identifierEffects
      rw [List.map_map]
      have used : ⟨node, name, site⟩ ∈ p.identifiers (.function g) := by
        rw [identifiers_eq]
        exact List.mem_filterMap.mpr ⟨_, inside, rfl⟩
      exact outside_spans lexical faithful found used (agrees facts holds) site.span
    | write => rfl
  | call invocation receiver args =>
    simp only [Node.effects, Program.callEffects, Node.visits]
    apply ensures_bind ensures_get
    intro facts holds
    rw [(agrees facts holds).calls invocation receiver args inside]
    split
    · rename_i none
      apply ensures_pure
      rw [offences_single_none]
      · rfl
      · rintro ⟨h, dispatched, _⟩
        rw [none] at dispatched
        cases dispatched
    · rename_i h dispatched
      apply ensures_bind (asks h ⟨f, body, invocation, found, written, listed (List.mem_singleton_self _), dispatched⟩)
      intro answer right
      apply ensures_pure
      have offends : ¬p.Clean links access h → p.Offends links access f (.call invocation) :=
        fun unclean => ⟨h, dispatched, unclean⟩
      cases answer with
      | none =>
        rw [offences_single (offends right)]
        rfl
      | some s =>
        dsimp only [calleeEffects]
        by_cases clean : s.clean = true
        · rw [if_pos clean, offences_single_none]
          · rfl
          · rintro ⟨h', dispatched', unclean⟩
            rw [dispatched] at dispatched'
            cases dispatched'
            exact unclean (right.clean.mp clean)
        · rw [if_neg clean, offences_single (offends (fun is => clean (right.clean.mpr is)))]
          rfl
  | _ => exact ensures_pure rfl

theorem nodes_spans {ns : List Node} (inside : ns ⊆ p.nodesOf (.function g))
    (listed : ns.flatMap (Node.visits access) ⊆ p.visits access body) :
    Ensures J (collect (Node.effects p access ask f.scope) ns)
      (fun es => es.map Effect.span = p.offences links access f (ns.flatMap (Node.visits access))) := by
  rw [offences_flat_map]
  apply ensures_collect
  intro n member
  apply node_spans lexical faithful found written agrees asks (inside member)
  intro visit here
  exact listed (List.mem_flatMap.mpr ⟨n, member, here⟩)

theorem step_spans {s : Step} (member : s ∈ body.steps) :
    Ensures J (s.effects p access ask f.scope)
      (fun es => es.map Effect.span = p.offences links access f (p.stepVisits access s)) := by
  have inside : p.stepNodes s ⊆ p.nodesOf (.function g) := by
    intro n here
    rw [nodes_function found, written]
    exact List.mem_flatMap.mpr ⟨s, member, here⟩
  have listed : p.stepVisits access s ⊆ p.visits access body := by
    intro visit here
    exact List.mem_flatMap.mpr ⟨s, member, here⟩
  cases s with
  | node n => exact node_spans lexical faithful found written agrees asks (inside (List.mem_singleton_self n)) listed
  | introduce id =>
    simp only [Step.effects, Program.variableEffects]
    apply ensures_look_up
    intro v at_
    have here := variable_at_ok_iff.mp at_
    have nodes : p.initialNodes id = Expr.optionNodes v.initializer := by
      unfold Program.initialNodes
      rw [here]
      rfl
    rw [Program.stepNodes, nodes] at inside
    rw [Program.stepVisits, nodes] at listed ⊢
    rw [Expr.effects_option_collect]
    exact nodes_spans lexical faithful found written agrees asks inside listed
  | assign target value site =>
    have whole : p.stepVisits access (.assign target value site) = target.written access site
        ++ (target.targetNodes.flatMap (Node.visits access) ++ value.nodes.flatMap (Node.visits access)) := by
      rw [Program.stepVisits, List.flatMap_append]
    rw [whole] at listed ⊢
    have ofTarget : Ensures J (target.targetEffects p access ask f.scope)
        (fun es => es.map Effect.span
          = p.offences links access f (target.targetNodes.flatMap (Node.visits access))) := by
      have evaluated : target.targetNodes.flatMap (Node.visits access) ⊆ p.visits access body := by
        intro visit here
        exact listed (List.mem_append_right _ (List.mem_append_left _ here))
      unfold Expr.targetEffects
      unfold Expr.targetNodes at evaluated ⊢
      split
      · exact ensures_pure rfl
      · rename_i other
        rw [if_neg other] at evaluated
        rw [Expr.effects_collect]
        exact nodes_spans lexical faithful found written agrees asks
          (fun n here => inside (List.mem_append_left _ here)) evaluated
    have ofValue : Ensures J (collect (Node.effects p access ask f.scope) value.nodes)
        (fun es => es.map Effect.span = p.offences links access f (value.nodes.flatMap (Node.visits access))) := by
      apply nodes_spans lexical faithful found written agrees asks
      · intro n here
        exact inside (List.mem_append_right _ here)
      · intro visit here
        exact listed (List.mem_append_right _ (List.mem_append_right _ here))
    have own : ∀ facts, J facts →
        (p.assignmentEffects facts access f.scope target site).map Effect.span
          = p.offences links access f (target.written access site) := by
      intro facts holds
      unfold Program.assignmentEffects Expr.written
      cases access with
      | read => rfl
      | write =>
        cases root : target.root? with
        | none => rfl
        | some entry =>
          obtain ⟨node, name, place⟩ := entry
          rw [List.map_map]
          have used : ⟨node, name, place⟩ ∈ p.identifiers (.function g) := by
            obtain ⟨n, among, same⟩ := List.mem_filterMap.mp (root_identifier root)
            rw [identifiers_eq]
            exact List.mem_filterMap.mpr ⟨n, inside (List.mem_append_left _ among), same⟩
          exact outside_spans lexical faithful found used (agrees facts holds) site.span
    simp only [Step.effects, Expr.effects_collect p access ask f.scope value]
    apply ensures_bind ensures_get
    intro facts holds
    apply ensures_bind ofTarget
    intro first spans
    apply ensures_bind ofValue
    intro second spans'
    apply ensures_pure
    rw [List.map_append, List.map_append, own facts holds, spans, spans', offences_append,
      offences_append, List.append_assoc]

theorem body_spans : Ensures J (body.effects p access ask f.scope)
    (fun es => es.map Effect.span = p.offences links access f (p.visits access body)) := by
  rw [Block.effects_collect, Program.visits, offences_flat_map]
  apply ensures_collect
  intro s member
  exact step_spans lexical faithful found written agrees asks member

end Bodies

theorem right_insert {cells : Cells (Access × FunctionId) EffectSummary} {m : Memo EffectSummary}
    (old : ∀ access g s, cells.state (access, g) = .computed s → p.Right links access g s)
    (new : ∀ s, m = .computed s → p.Right links access g s) :
    ∀ access' g' s, Cells.state (cells.insert (access, g) m) (access', g') = .computed s →
      p.Right links access' g' s := by
  intro access' g' s state
  rw [Cells.state_insert] at state
  split at state
  · rename_i same
    cases same
    exact new s state
  · exact old access' g' s state

section Truth
variable (ground : Groundwork p links I)
include ground

theorem ensures_summary {work : Analysis EffectSummary}
    (inside : base.summaries.state (access, g) ≠ .inProgress →
      Ensures (Facts.Upright p links I ((Facts.summaryCell access g).write .inProgress base)) work
        (p.Right links access g))
    (stuck : base.summaries.state (access, g) = .inProgress → ¬p.Clean links access g) :
    Ensures (Facts.Upright p links I base) ((Facts.summaryCell access g).compute work) (p.Answers links access g) := by
  intro facts upright answer after ran
  unfold Cell.compute at ran
  split at ran
  · rename_i s state
    cases ran
    exact ⟨upright, upright.right access g s state⟩
  · rename_i state
    cases ran
    exact ⟨upright, stuck ((upright.running _).mp state)⟩
  · rename_i state
    change facts.summaries.state (access, g) = .unknown at state
    have outside : base.summaries.state (access, g) ≠ .inProgress := by
      rw [Ne, ← upright.running, state]
      simp
    have entered : Facts.Upright p links I ((Facts.summaryCell access g).write .inProgress base)
        ((Facts.summaryCell access g).write .inProgress facts) := by
      constructor
      · exact ground.cells _ _ _ _ upright.ground
      · exact Cells.running_enter upright.running _
      · exact right_insert upright.right (by simp)
    split at ran
    · rename_i s middle step
      cases ran
      obtain ⟨upright', right⟩ := inside outside _ entered s middle step
      refine ⟨?_, right⟩
      constructor
      · exact ground.cells _ _ _ _ upright'.ground
      · exact Cells.running_leave outside (by simp) upright'.running
      · apply right_insert upright'.right
        intro t same
        cases same
        exact right
    · cases ran

theorem prepare_upright {facts after : Facts} {findings : List Diagnostic} (found : p.functions[g.index]? = some f)
    (written : f.body ≠ none) (upright : Facts.Upright p links I base facts)
    (ran : (p.resolveFunction g >>= fun _ => p.typeFunction p.typeSource g) facts = (.ok findings, after)) :
    Facts.Upright p links I base after ∧ after.Prepared g := by
  have keeps : Maintains (fun now => now.summaries = facts.summaries)
      (p.resolveFunction g >>= fun _ => p.typeFunction p.typeSource g) :=
    maintains_bind (resolve_function_maintains (summaries_robust p _).toLasting g) (fun _ =>
      type_function_maintains (summaries_robust p _) (types_within_maintain (summaries_robust p _) _) g)
  obtain ⟨ground', prepared⟩ := ground.prepares found written upright.ground ran
  exact ⟨Facts.upright_same upright (keeps facts rfl findings after ran).1 ground', prepared⟩

omit ground in
/-- The source is right about functions that all functions in progress lead to. -/
def SummarySource.Truthful (p : Program) (links : Links) (I : Facts → Prop) (access : Access) (ask : SummarySource) :
    Prop :=
  ∀ (base : Facts) (g : FunctionId),
    (∀ r, base.summaries.state (access, r) = .inProgress → Relation.TransGen (p.Calls links access) r g) →
    Ensures (Facts.Upright p links I base) (ask g) (p.Answers links access g)

variable (consistent : p.Consistent) {modules : List Tree.Module} {ds : List Construction.Declared}
  (lexical : p.Lexical modules ds) (faithful : links.Faithful p)
include consistent lexical faithful

theorem summary_using_truthful {ask : SummarySource} (grows : ∀ h, Grows (ask h))
    (truthful : ask.Truthful p links I access) :
    SummarySource.Truthful p links I access (p.summaryUsing access ask) := by
  intro base g leads
  apply ensures_look_up
  intro f at_
  have found := function_at_ok_iff.mp at_
  apply ensures_summary ground
  · intro outside
    unfold Program.summarise
    split
    · rename_i bodyless
      exact ensures_pure (right_bodyless found bodyless)
    · rename_i body written
      have some_body : f.body ≠ none := by simp [written]
      let J : Facts → Prop := fun now =>
        Facts.Upright p links I ((Facts.summaryCell access g).write .inProgress base) now ∧ now.Prepared g
      have agrees : ∀ now, J now → now.Agrees p links g :=
        fun now holds => ground.agrees found some_body holds.1.ground holds.2
      have asks : ∀ h, p.Calls links access g h → Ensures J (ask h) (p.Answers links access h) := by
        rintro h calls now ⟨upright, prepared⟩ answer after ran
        have further := grows h now
        rw [ran] at further
        have leads' : ∀ r, ((Facts.summaryCell access g).write .inProgress base).summaries.state (access, r)
            = .inProgress → Relation.TransGen (p.Calls links access) r h := by
          intro r running
          change Cells.state (base.summaries.insert (access, g) .inProgress) (access, r) = _ at running
          rw [Cells.state_insert] at running
          split at running
          · rename_i here
            cases here
            exact .single calls
          · exact .tail (leads r running) calls
        obtain ⟨upright', right⟩ := truthful _ h leads' now upright answer after ran
        exact ⟨⟨upright', Facts.prepared_extends further prepared⟩, right⟩
      rw [consistent.functionIds _ _ found]
      intro facts upright s after ran
      obtain ⟨first, named, resolved, rest⟩ := bind_ok_split ran
      obtain ⟨second, middle, typed, rest⟩ := bind_ok_split rest
      have prepared : (p.resolveFunction g >>= fun _ => p.typeFunction p.typeSource g) facts = (.ok second, middle) := by
        rw [run_bind_ok resolved]
        exact typed
      obtain ⟨effects, last, summed, ended⟩ := bind_ok_split rest
      cases ended
      obtain ⟨⟨upright', _⟩, spans⟩ := body_spans lexical faithful found written agrees asks middle
        (prepare_upright ground found some_body upright prepared) effects after summed
      exact ⟨upright', right_body found written spans⟩
  · intro running clean
    exact clean_acyclic clean (leads g running)

theorem summaries_within_truthful (access : Access) (depth : Nat) :
    SummarySource.Truthful p links I access (p.summariesWithin access depth) := by
  induction depth with
  | zero =>
    intro base g _ facts _ answer after ran
    cases ran
  | succ depth ih =>
    exact summary_using_truthful ground consistent lexical faithful (summaries_within_grow p access depth) ih

theorem summary_ensures (access : Access) (g : FunctionId) :
    Ensures (Facts.Upright p links I {}) (p.summary access g) (p.Answers links access g) := by
  apply summaries_within_truthful ground consistent lexical faithful
  intro r running
  simp [Cells.state] at running

omit ground consistent lexical faithful in
theorem summary_given {facts after : Facts} {answer : Option EffectSummary}
    (idle : facts.summaries.state (access, g) ≠ .inProgress)
    (ran : p.summary access g facts = (.ok answer, after)) : answer ≠ none := by
  obtain ⟨f, _, rest⟩ := look_up_split ran
  unfold Cell.compute at rest
  split at rest
  · cases rest
    simp
  · rename_i state
    exact absurd state idle
  · split at rest
    · cases rest
      simp
    · cases rest

/-- Where nothing is in progress there is always an answer, and it is right. -/
theorem summary_told (access : Access) (g : FunctionId) :
    Ensures (Facts.Upright p links I {}) (p.summary access g)
      (fun answer => ∃ s, answer = some s ∧ p.Right links access g s) := by
  intro facts upright answer after ran
  obtain ⟨upright', right⟩ := summary_ensures ground consistent lexical faithful access g facts upright answer after ran
  have idle : facts.summaries.state (access, g) ≠ .inProgress := by
    rw [Ne, upright.running]
    simp [Cells.state]
  cases answer with
  | none => exact absurd rfl (summary_given idle ran)
  | some s => exact ⟨upright', s, rfl, right⟩

omit consistent lexical faithful in
theorem upright_validation (d : Declaration) (m : Memo (List Diagnostic)) (facts : Facts)
    (upright : Facts.Upright p links I base facts) :
    Facts.Upright p links I base ((Facts.phaseCell d .validation).write m facts) :=
  ⟨ground.validations d m facts upright.ground, upright.running, upright.right⟩

omit consistent lexical faithful in
theorem validate_variable_maintains (id : VariableId) :
    Maintains (Facts.Upright p links I base) (p.validateVariable id) := by
  apply ensures_look_up
  intro v _
  exact maintains_once (upright_validation ground _) (maintains_pure _)

theorem violation_maintains (access : Access) (f : Function) :
    Maintains (Facts.Upright p links I {}) (p.violation? access f) := by
  unfold Program.violation?
  split
  · apply ensures_bind (summary_ensures ground consistent lexical faithful access f.id)
    intro summary _
    split
    · exact maintains_pure _
    · split
      · exact maintains_pure _
      · exact maintains_pure _
  · exact maintains_pure _

theorem validate_function_maintains (id : FunctionId) :
    Maintains (Facts.Upright p links I {}) (p.validateFunction id) := by
  apply ensures_look_up
  intro f _
  apply maintains_once (upright_validation ground _)
  unfold Program.validateBody
  split
  · exact maintains_pure _
  · rw [Block.validate_collect]
    apply maintains_bind
    · apply maintains_collect
      intro s _
      cases s with
      | introduce id => exact validate_variable_maintains ground id
      | _ => exact maintains_pure _
    · intro ofBody
      apply maintains_bind _ (fun _ => maintains_pure _)
      apply maintains_bind (violation_maintains ground consistent lexical faithful .read f)
      intro reads
      apply maintains_bind (violation_maintains ground consistent lexical faithful .write f)
      intro writes
      exact ensures_look_up (fun _ _ => maintains_pure _)

theorem validation_maintains (d : Declaration) :
    Maintains (Facts.Upright p links I {}) (p.runPhase d .validation) := by
  cases d with
  | function id => exact validate_function_maintains ground consistent lexical faithful id
  | «variable» id => exact validate_variable_maintains ground id
  | struct id =>
    change Maintains _ (p.validateStruct id)
    apply ensures_look_up
    intro s _
    exact maintains_once (upright_validation ground _) (maintains_pure _)

end Truth

structure Facts.Settled (p : Program) (links : Links) (facts : Facts) : Prop where
  tables : facts.links = links
  done : ∀ (id : FunctionId) (f : Function), p.functions[id.index]? = some f → f.body ≠ none →
    facts.Done (.function id) .resolution ∧ facts.Done (.function id) .typing

theorem done_maintains {α : Type} {I : Facts → Prop} {d : Declaration} {phase : Phase} {x : Except InternalError α}
    {work : α → Analysis (List Diagnostic)} (done : ∀ facts, I facts → facts.Done d phase) :
    Maintains I (liftM x >>= fun a => once d phase (work a)) := by
  apply ensures_look_up
  intro a _ facts inv findings after ran
  obtain ⟨value, state⟩ := done facts inv
  have read : (Facts.phaseCell d phase).read facts = .computed value := state
  obtain ⟨answer, middle, computed, ended⟩ := bind_ok_split ran
  cases ended
  unfold Cell.compute at computed
  rw [read] at computed
  cases computed
  exact ⟨inv, trivial⟩

theorem settled_groundwork (p : Program) (links : Links) : Groundwork p links (Facts.Settled p links) where
  cells _ _ _ _ settled := ⟨settled.tables, settled.done⟩
  validations d m facts settled := by
    have kept : ∀ {e phase}, phase ≠ .validation → facts.Done e phase →
        ((Facts.phaseCell d .validation).write m facts).Done e phase := by
      rintro e phase other ⟨findings, state⟩
      refine ⟨findings, ?_⟩
      change Cells.state (facts.phases.insert (d, .validation) m) (e, phase) = _
      rw [Cells.state_insert, if_neg, state]
      intro same
      cases same
      exact other rfl
    refine ⟨settled.tables, ?_⟩
    intro id f found body
    obtain ⟨resolved, typed⟩ := settled.done id f found body
    exact ⟨kept (by decide) resolved, kept (by decide) typed⟩
  prepares {g f facts found after} there written settled ran := by
    have keeps : Maintains (Facts.Settled p links)
        (p.resolveFunction g >>= fun _ => p.typeFunction p.typeSource g) :=
      maintains_bind (done_maintains (fun _ settled => (settled.done g f there written).1))
        (fun _ => done_maintains (fun _ settled => (settled.done g f there written).2))
    have settled' := (keeps facts settled found after ran).1
    exact ⟨settled', settled'.done g f there written⟩
  agrees _ _ settled _ := by
    refine ⟨fun i _ => ?_, fun call _ _ _ => ?_⟩
    · rw [← settled.tables]
      rfl
    · rw [← settled.tables]
      rfl

theorem ready_upright {facts : Facts} (ready : facts.Ready p) :
    Facts.Upright p facts.links (Facts.Settled p facts.links) {} facts := by
  have empty : ∀ k, facts.summaries.state k = .unknown := by
    intro k
    rw [ready.faithful.summaries]
    rfl
  constructor
  · exact ⟨rfl, ready.done⟩
  · intro k
    rw [empty]
    simp [Cells.state]
  · intro access g s state
    rw [empty] at state
    cases state

theorem ready_faithful {modules : List Tree.Module} {ds : List Construction.Declared} (lexical : p.Lexical modules ds)
    {facts : Facts} (ready : facts.Ready p) : facts.links.Faithful p := by
  intro i v mentioned means
  obtain ⟨j, mentioned', same, found⟩ := ready.faithful.referrals i.node v means
  rw [mentions_unique lexical mentioned mentioned' same.symm]
  exact found

end SemanticAnalysis
