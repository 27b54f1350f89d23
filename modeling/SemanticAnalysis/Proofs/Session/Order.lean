import SemanticAnalysis.Proofs.Compilation.Completion
import SemanticAnalysis.Proofs.Effects.Promises
import SemanticAnalysis.Proofs.Session.Constancy
import SemanticAnalysis.Proofs.Typing.Ranked
/-!
What was asked first does not matter. Questions about the facts of declarations may be asked before a program is analysed, and each
of them analyses what it needs on the spot. Where inference does not go in circles, the analysis of the whole program
finds the same afterwards: the same types, meanings and functions at all nodes, and the same findings but for warnings
about recursive calls.
-/
namespace SemanticAnalysis
open Running Analysis SemanticAnalysis.Bound Program Facts

variable {p : Program} {facts after final : Facts} {modules : List Tree.Module} {ds : List Construction.Declared}
  {rank : Declaration → Nat}

/-- Nothing is being typed, and all that is on record follows from the program. -/
structure Facts.Calm (p : Program) (facts : Facts) : Prop where
  typing : facts.Typing p False
  idle : ∀ d, facts.phases.state (d, .typing) ≠ .inProgress

theorem calm_empty : Facts.Calm p {} := by
  refine ⟨typing_empty, ?_⟩
  intro d
  simp [Cells.state]

theorem calm_unchanged (unchanged : facts.Unchanged after) (calm : facts.Calm p) : after.Calm p := by
  refine ⟨typing_unchanged unchanged calm.typing, ?_⟩
  intro d
  rw [unchanged.phases d .typing (by simp)]
  exact calm.idle d

theorem calm_extends (calm : facts.Calm p) (grows : facts.Extends after) (typing : after.Typing p False) :
    after.Calm p :=
  ⟨typing, fun d running => calm.idle d ((grows.phases.running _).mp running)⟩

section Ground
variable (lexical : p.Lexical modules ds) (consistent : p.Consistent) (ranked : p.Ranked rank)
include lexical ranked

theorem prepare_calm {g : FunctionId} {found : List Diagnostic} (calm : facts.Calm p)
    (ran : (p.resolveFunction g >>= fun _ => p.typeFunction p.typeSource g) facts = (.ok found, after)) :
    after.Calm p ∧ after.Prepared g := by
  obtain ⟨_, middle, resolved, typed⟩ := bind_ok_split ran
  obtain ⟨typing, grows, named⟩ := resolve_function_typing lexical calm.typing resolved
  have calm' := calm_extends calm grows typing
  have further := type_function_grows p g middle
  rw [typed] at further
  have regime := ranked_regime ranked
  have typing' := type_function_typed lexical (types_within_back lexical regime _) regime typing
    (primed_done typing.named named) (clear_idle calm'.idle _) typed
  exact ⟨calm_extends calm' further typing', done_extends further named, once_done (calm'.idle _) typed⟩

include consistent

theorem calm_groundwork (complete : final.Complete p) (settled : final.Typing p False) :
    Groundwork p final.links (Facts.Calm p) where
  cells access g m facts calm := calm_unchanged (unchanged_summary access g m facts) calm
  validations d m facts calm := calm_unchanged (unchanged_validation d m facts) calm
  prepares _ _ calm ran := prepare_calm lexical ranked calm ran
  agrees {g f facts} _ _ calm prepared := by
    obtain ⟨⟨_, named⟩, _, typed⟩ := prepared
    constructor
    · intro i member
      rw [(calm.typing.named.cells _ _ named).names i member]
      exact (complete.coherent.finds i ⟨_, member⟩).symm
    · intro call receiver args member
      have covers := (calm.typing.cells _ _ typed).nodes _ member
      exact (ranked_dispatch_agrees calm.typing.grounded settled.grounded consistent ranked ⟨_, member⟩ covers
        complete.covers).symm

omit lexical consistent ranked in
theorem complete_faithful (complete : final.Complete p) : final.links.Faithful p := by
  intro i v mentioned means
  apply referral_variable
  rw [← complete.coherent.finds i mentioned]
  exact means

end Ground

def Program.asked (p : Program) (facts : Facts) (questions : List Question) : Facts :=
  questions.foldl (fun facts q => (q.answer p facts).2) facts

section Facts
variable {q : Question} (asks : q.AsksFact)
include asks

theorem question_keeps {I : Facts → Prop} (ofFunctions : ∀ g, Maintains I (p.returnType g))
    (ofVariables : ∀ v, Maintains I (p.variableType v)) (summaries : ∀ access g, Maintains I (p.summary access g)) :
    Maintains I (q.answer p) := by
  cases q with
  | analyse => exact asks.elim
  | phase part step => exact asks.elim
  | effects part boundary => exact asks.elim
  | returnType g => exact maintains_map (ofFunctions g)
  | variableType v => exact maintains_map (ofVariables v)
  | summary access g => exact maintains_map (summaries access g)
  | isClean access g => exact maintains_map (maintains_bind (summaries access g) (fun _ => maintains_pure _))
  | _ => exact ensures_look_up (fun _ _ => maintains_pure _)

theorem question_keeps_validations (consistent : p.Consistent) (base : Facts) :
    Maintains (fun facts => ∀ d, facts.phases.state (d, .validation) = base.phases.state (d, .validation))
      (q.answer p) := by
  have source := types_within_maintain (validations_robust p base) (p.functions.size + p.vars.size + 1)
  exact question_keeps asks source.returnType source.variableType (summaries_keep_validations consistent base)

end Facts

/-- What is known before the analysis, whatever has been asked. -/
structure Facts.Informed (p : Program) (links : Links) (facts : Facts) : Prop where
  sound : Facts.Sound p {} facts
  upright : Facts.Upright p links (Facts.Calm p) {} facts
  vouched : facts.Vouched p

theorem informed_empty (links : Links) : Facts.Informed p links {} := by
  refine ⟨Compilation.start_sound p, ⟨calm_empty, fun _ => .rfl, ?_⟩, ?_⟩
  · intro access g s state
    simp [Cells.state] at state
  · intro d found state
    simp [Cells.state] at state

theorem informed_begun {links : Links} (informed : facts.Informed p links) : facts.Begun p False := by
  refine ⟨informed.upright.ground.typing, ?_, ?_, informed.vouched⟩
  · intro k running
    have impossible := (informed.sound.running.phases k).mp running
    simp [Cells.state] at impossible
  · intro k running
    have impossible := (informed.sound.running.summaries k).mp running
    simp [Cells.state] at impossible

section Queries
variable (lexical : p.Lexical modules ds) (consistent : p.Consistent) (ranked : p.Ranked rank) {links : Links}
include lexical ranked

theorem return_type_upright (g : FunctionId) :
    Maintains (Facts.Upright p links (Facts.Calm p) {}) (p.returnType g) := by
  intro facts upright t after ran
  have source := types_within_back lexical (ranked_regime ranked) (p.functions.size + p.vars.size + 1)
  have summaries := types_within_maintain (summaries_robust p facts.summaries) (p.functions.size + p.vars.size + 1)
  obtain ⟨typing, _⟩ := source.returnType g facts t after upright.ground.typing
    (fun _ => clear_idle upright.ground.idle _) ran
  have calm := calm_extends upright.ground (source.return_grows ran) typing
  exact ⟨upright_same upright (summaries.returnType g facts rfl t after ran).1 calm, trivial⟩

theorem variable_type_upright (v : VariableId) :
    Maintains (Facts.Upright p links (Facts.Calm p) {}) (p.variableType v) := by
  intro facts upright t after ran
  have source := types_within_back lexical (ranked_regime ranked) (p.functions.size + p.vars.size + 1)
  have summaries := types_within_maintain (summaries_robust p facts.summaries) (p.functions.size + p.vars.size + 1)
  obtain ⟨typing, _⟩ := source.variableType v facts t after upright.ground.typing
    (fun _ => clear_idle upright.ground.idle _) ran
  have calm := calm_extends upright.ground (source.variable_grows ran) typing
  exact ⟨upright_same upright (summaries.variableType v facts rfl t after ran).1 calm, trivial⟩

variable (ground : Groundwork p links (Facts.Calm p)) (faithful : links.Faithful p)
include consistent ground faithful

theorem question_upright {q : Question} (asks : q.AsksFact) :
    Maintains (Facts.Upright p links (Facts.Calm p) {}) (q.answer p) := by
  apply question_keeps asks (return_type_upright lexical ranked) (variable_type_upright lexical ranked)
  intro access g facts upright answer after ran
  exact ⟨(summary_ensures ground consistent lexical faithful access g facts upright answer after ran).1, trivial⟩

theorem question_informed (informed : facts.Informed p links) {q : Question} (asks : q.AsksFact) :
    (q.answer p facts).2.Informed p links := by
  by_cases known : q.Known p
  · obtain ⟨answer, after, ran, sound, _⟩ := known_question_runs consistent known facts informed.sound
    rw [ran]
    refine ⟨sound, ?_, ?_⟩
    · exact (question_upright lexical consistent ranked ground faithful asks facts informed.upright answer after ran).1
    · have grows := (question_tidy (recorded_steady p) consistent q).grows facts
      rw [ran] at grows
      have same := (question_keeps_validations asks consistent facts facts (fun _ => rfl) answer after ran).1
      exact vouched_extends grows same informed.vouched
  · -- the look-up fails before anything is written
    obtain ⟨_, _, fails⟩ := unknown_question_dangles known
    rw [fails]
    exact informed

theorem questions_informed (informed : facts.Informed p links) {questions : List Question}
    (asks : ∀ q ∈ questions, q.AsksFact) : (p.asked facts questions).Informed p links := by
  induction questions generalizing facts with
  | nil => exact informed
  | cons q rest ih =>
    have first := question_informed lexical consistent ranked ground faithful informed (asks q (by simp))
    exact ih first (fun r later => asks r (by simp [later]))

theorem analyse_upright (informed : facts.Informed p links) {found : List Diagnostic}
    (ran : p.analyse facts = (.ok found, after)) : Facts.Upright p links (Facts.Calm p) {} after := by
  obtain ⟨first, resolved, second, typed, third, ran₁, ran₂, ran₃, _⟩ := analyse_phases ran
  obtain ⟨_, typing, _, idle⟩ :=
    early_phases_settle lexical (ranked_regime ranked) (informed_begun informed) ran₁ ran₂
  -- the first two phases sum up nothing, so that what questions have summed up is still right
  have same := early_phases_maintain (summaries_robust p facts.summaries) rfl ran₁ ran₂
  have upright := upright_same informed.upright same ⟨typing, fun d => idle _⟩
  exact (run_phase_all_maintains (fun d _ => validation_maintains ground consistent lexical faithful d) typed upright
    third after ran₃).1

end Queries

/-- What an analysis leaves behind where inference does not go in circles. -/
structure Facts.Outcome (p : Program) (links : Links) (facts : Facts) : Prop where
  complete : facts.Complete p
  typing : facts.Typing p False
  upright : Facts.Upright p links (Facts.Calm p) {} facts

def Bound.Node.referral? (p : Program) : Node → Option Referral
  | .identifier _ name site => p.referral? site.scope name
  | _ => none

section Agreement
variable (lexical : p.Lexical modules ds) (consistent : p.Consistent) (ranked : p.Ranked rank) {n : Node} {id : NodeId}
  (has : p.HasNode n) (same : n.id? = some id)

include lexical has same in
theorem referral_told (complete : facts.Complete p) (named : facts.Named p) :
    facts.referrals.find? id = n.referral? p := by
  have other : (∀ node name site, n ≠ .identifier node name site) → facts.referrals.find? id = none := by
    intro other
    cases stored : facts.referrals.find? id with
    | none => rfl
    | some r =>
      obtain ⟨i, mentioned, rfl⟩ := named.keys id r stored
      have there := mentions_iff.mp mentioned
      exact absurd (node_unique lexical has there same rfl) (other _ _ _)
  cases n with
  | identifier node name site =>
    cases same
    exact complete.coherent.finds ⟨id, name, site⟩ (mentions_iff.mpr has)
  | number numeral site => cases same
  | _ => exact other (by simp)

include has same in
theorem dispatch_calls_only (grounded : facts.Grounded p False)
    (other : ∀ call receiver args, n ≠ .call call receiver args) : facts.dispatched.find? id = none := by
  cases stored : facts.dispatched.find? id with
  | none => rfl
  | some f =>
    obtain ⟨_, chosen⟩ := grounded.dispatched n id f has same stored
    cases n with
    | call call receiver args => exact absurd rfl (other call receiver args)
    | _ => cases chosen

variable {links : Links} (first : final.Outcome p links) (second : facts.Outcome p links)
include consistent ranked first second

include lexical has same in
theorem outcomes_agree : facts.types.find? id = final.types.find? id ∧
    facts.referrals.find? id = final.referrals.find? id ∧ facts.dispatched.find? id = final.dispatched.find? id := by
  have grounded := first.typing.grounded
  have grounded' := second.typing.grounded
  refine ⟨?_, ?_, ?_⟩
  · have agrees := ranked_nodes_agree grounded grounded' consistent ranked has
    exact node_agrees_same agrees (first.complete.covers n has).1 (second.complete.covers n has).1 id same
  · rw [referral_told lexical has same first.complete first.typing.named,
      referral_told lexical has same second.complete second.typing.named]
  · by_cases called : ∃ call receiver args, n = .call call receiver args
    · obtain ⟨call, receiver, args, rfl⟩ := called
      cases same
      exact ranked_dispatch_agrees grounded grounded' consistent ranked has (first.complete.covers _ has)
        second.complete.covers
    · have other : ∀ call receiver args, n ≠ .call call receiver args :=
        fun call receiver args equal => called ⟨call, receiver, args, equal⟩
      rw [dispatch_calls_only has same grounded other, dispatch_calls_only has same grounded' other]

end Agreement

noncomputable def Program.brokenPromises (p : Program) (links : Links) : Declaration → List Diagnostic
  | .function g => ((p.functions[g.index]?).bind (fun f => f.body.map (p.brokenClaims links f))).getD []
  | _ => []

theorem promises_reported {links : Links} {I : Facts → Prop} (ground : Groundwork p links I) (consistent : p.Consistent)
    (lexical : p.Lexical modules ds) (faithful : links.Faithful p) (complete : facts.Complete p)
    (upright : Facts.Upright p links I {} facts) {d : Declaration} (declared : d ∈ p.declarations) :
    Diagnostics.lasting (facts.report .validation d) = p.brokenPromises links d := by
  obtain ⟨found, state, done⟩ := complete.claims d (.inl declared)
  rw [report_of_state state]
  cases d with
  | function g =>
    obtain ⟨_, f, here, claims⟩ := done
    rw [Program.brokenPromises, here, Option.bind_some]
    cases written : f.body with
    | none =>
      rw [if_pos written] at claims
      rw [claims]
      rfl
    | some body =>
      rw [if_neg (by simp [written])] at claims
      -- to check the claims once more tells what was told, whenever that was
      exact claims_told ground consistent lexical faithful here written upright
        (claims facts (fun _ _ known => known))
  | _ =>
    rw [show found = [] from done]
    rfl

section Reports
variable (lexical : p.Lexical modules ds) (consistent : p.Consistent) (ranked : p.Ranked rank) {links : Links}
  (ground : Groundwork p links (Facts.Calm p)) (faithful : links.Faithful p) {d : Declaration}
  (declared : d ∈ p.declarations)
include lexical consistent

variable {final : Facts} (first : final.Outcome p links) (second : facts.Outcome p links)
include ranked ground faithful first second

include declared in
theorem reports_agree (phase : Phase) :
    Diagnostics.lasting (facts.report phase d) = Diagnostics.lasting (final.report phase d) := by
  cases phase with
  | resolution =>
    rw [report_of_state (first.complete.names d (.inl declared)),
      report_of_state (second.complete.names d (.inl declared))]
  | typing =>
    have grows := ranked_types_grow first.typing.grounded second.typing.grounded consistent ranked
      second.complete.covers
    have covers : ∀ n ∈ p.nodesOf d, final.Covers n := fun n inside => first.complete.covers n ⟨d, inside⟩
    rw [report_of_state (first.complete.types d (.inl declared)),
      report_of_state (second.complete.types d (.inl declared)),
      declaration_findings_extend grows covers]
  | validation =>
    rw [promises_reported ground consistent lexical faithful first.complete first.upright declared,
      promises_reported ground consistent lexical faithful second.complete second.upright declared]

theorem findings_agree :
    Diagnostics.lasting (Phase.all.flatMap (fun phase => p.declarations.flatMap (facts.report phase)))
      = Diagnostics.lasting (Phase.all.flatMap (fun phase => p.declarations.flatMap (final.report phase))) := by
  simp only [Diagnostics.lasting, List.filter_flatMap]
  apply List.flatMap_congr
  intro phase _
  apply List.flatMap_congr
  intro d declared
  exact reports_agree lexical consistent ranked ground faithful declared first second phase

end Reports

/-- The analysis succeeds after any questions, and all that it leaves behind is settled. -/
theorem informed_outcome (lexical : p.Lexical modules ds) (consistent : p.Consistent) (ranked : p.Ranked rank)
    {links : Links} (ground : Groundwork p links (Facts.Calm p)) (faithful : links.Faithful p)
    (informed : facts.Informed p links) :
    ∃ found after, p.analyse facts = (.ok found, after) ∧ after.Outcome p links ∧
      found = Phase.all.flatMap (fun phase => p.declarations.flatMap (after.report phase)) := by
  obtain ⟨found, after, ran, _⟩ := analyse_runs consistent facts informed.sound
  obtain ⟨complete, typing, whole⟩ :=
    analyse_completes lexical consistent (ranked_regime ranked) (informed_begun informed) ran
  exact ⟨found, after, ran,
    ⟨complete, typing, analyse_upright lexical consistent ranked ground faithful informed ran⟩, whole⟩

/-- Where inference does not go in circles, it makes no difference to the analysis what has been asked before it, but
for warnings about recursive calls. -/
theorem analysis_forgets_questions {options : Options} {ofConstruction : List Diagnostic}
    (built : Program.construct options modules = .ok (p, ofConstruction)) (ranked : p.Ranked rank)
    {questions : List Question} (asks : ∀ q ∈ questions, q.AsksFact) :
    ∃ plain final found facts, p.analyse {} = (.ok plain, final) ∧
      p.analyse (p.asked {} questions) = (.ok found, facts) ∧
      Diagnostics.lasting found = Diagnostics.lasting plain ∧
      ∀ n id, p.HasNode n → n.id? = some id →
        facts.types.find? id = final.types.find? id ∧ facts.referrals.find? id = final.referrals.find? id ∧
          facts.dispatched.find? id = final.dispatched.find? id := by
  obtain ⟨_, ds, lexical⟩ := construct_lexical built
  have consistent := construct_consistent built
  obtain ⟨plain, final, ran, _⟩ := Compilation.analyse_start_ok consistent
  obtain ⟨complete, typing, _⟩ :=
    analyse_completes lexical consistent (ranked_regime ranked) Facts.begun_empty ran
  -- What names and calls mean in the end is read off the analysis without questions.
  have ground := calm_groundwork lexical consistent ranked complete typing
  have faithful := complete_faithful complete
  have start := informed_empty (p := p) final.links
  obtain ⟨_, _, ran', first, whole⟩ := informed_outcome lexical consistent ranked ground faithful start
  cases ran.symm.trans ran'
  have asked := questions_informed lexical consistent ranked ground faithful start asks
  obtain ⟨found, facts, later, second, whole'⟩ := informed_outcome lexical consistent ranked ground faithful asked
  refine ⟨plain, final, found, facts, ran, later, ?_, ?_⟩
  · rw [whole, whole']
    exact findings_agree lexical consistent ranked ground faithful first second
  · intro n id has same
    exact outcomes_agree lexical consistent ranked has same first second

def Tree.promising (text : String) (value : Tree.Expr) : Tree.Item :=
  .function ⟨⟨text, {}⟩, { claimsPure := true }, none, [], some ⟨⟨"Int", {}⟩, false, none, {}⟩,
    some (.mk [.ret (some value) {}] {}), {}⟩

/-- `even` and `odd` claim to be pure and call each other. `double` is inferred from `base`, which returns a variable of
its own that is inferred from `total`. What `gap` starts as means nothing. -/
def Tree.layers : Tree.Module :=
  { path := []
    imports := []
    items := [Tree.promising "even" (.invocation (Tree.name "odd") [] { line := 1 }),
      Tree.promising "odd" (.invocation (Tree.name "even") [] { line := 2 }),
      Tree.initialized "double" (.binary (Tree.call "base") .add (Tree.call "base") {}),
      .function ⟨⟨"base", {}⟩, {}, none, [], none, some (.mk [
        .variable ⟨⟨"copy", {}⟩, false, none, some (Tree.name "total"), {}⟩,
        .ret (some (Tree.name "copy")) {}] {}), {}⟩,
      Tree.initialized "total" (.number (.int 0) {}), Tree.initialized "gap" (Tree.name "missing")]
    notices := []
    span := {} }

def Tree.layersRank : Declaration → Nat
  | .variable ⟨0⟩ => 3
  | .function _ => 2
  | .variable ⟨3⟩ => 1
  | _ => 0

def Tree.layersQuestions : List Question :=
  [.isClean .read ⟨22⟩, .variableType ⟨3⟩, .returnType ⟨99⟩, .variableType ⟨0⟩]

def Program.tally (p : Program) (facts : Facts) : Option (Nat × Nat) :=
  match (p.analyse facts).1 with
  | .ok found => some (found.length, (Diagnostics.lasting found).length)
  | .error _ => none

theorem layers_forget_questions : ∃ p ofConstruction plain final found facts,
    Program.construct {} [Tree.layers] = .ok (p, ofConstruction) ∧ p.Ranked Tree.layersRank ∧
      p.analyse {} = (.ok plain, final) ∧ p.analyse (p.asked {} Tree.layersQuestions) = (.ok found, facts) ∧
      plain.length = 7 ∧ found.length = 8 ∧ (Diagnostics.lasting plain).length = 6 ∧
      Diagnostics.lasting found = Diagnostics.lasting plain ∧
      ∀ n id, p.HasNode n → n.id? = some id →
        facts.types.find? id = final.types.find? id ∧ facts.referrals.find? id = final.referrals.find? id ∧
          facts.dispatched.find? id = final.dispatched.find? id := by
  have evaluated : (Program.construct {} [Tree.layers]).toOption.map (fun result =>
      (decide (result.1.Ranked Tree.layersRank), result.1.tally {},
        result.1.tally (result.1.asked {} Tree.layersQuestions)))
      = some (true, some (7, 6), some (8, 6)) := by decide +kernel
  cases built : Program.construct {} [Tree.layers] with
  | error e =>
    rw [built] at evaluated
    cases evaluated
  | ok result =>
    obtain ⟨p, ofConstruction⟩ := result
    rw [built] at evaluated
    simp only [Except.toOption, Option.map_some, Option.some.injEq, Prod.mk.injEq, decide_eq_true_eq] at evaluated
    obtain ⟨ranked, before, afterwards⟩ := evaluated
    have asks : ∀ q ∈ Tree.layersQuestions, q.AsksFact := by simp [Tree.layersQuestions, Question.AsksFact]
    obtain ⟨plain, final, found, facts, ran, ran', same, nodes⟩ := analysis_forgets_questions built ranked asks
    simp only [Program.tally, ran, ran', Option.some.injEq, Prod.mk.injEq] at before afterwards
    exact ⟨p, ofConstruction, plain, final, found, facts, rfl, ranked, ran, ran', before.1, afterwards.1, before.2,
      same, nodes⟩

end SemanticAnalysis
