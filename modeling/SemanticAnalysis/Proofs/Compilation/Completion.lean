import SemanticAnalysis.Proofs.Analysis.Claims
import SemanticAnalysis.Proofs.Effects.Purity
import SemanticAnalysis.Proofs.Typing.Runs
/-!
What binding leaves behind. When the three phases have run, every declaration and every variable inside a body has its
findings in each phase, every node has a type on record, and all records are backed. Nothing is left to find out but
effects that nobody has asked for.
-/
namespace SemanticAnalysis
open Running Analysis SemanticAnalysis.Bound Facts

variable {p : Program} {facts after : Facts} {found : List Diagnostic}

def Facts.report (facts : Facts) (phase : Phase) (d : Declaration) : List Diagnostic :=
  (facts.phases.state (d, phase)).value?.getD []

theorem Facts.report_of_state {d : Declaration} {phase : Phase}
    (state : facts.phases.state (d, phase) = .computed found) :
    facts.report phase d = found := by
  unfold report
  rw [state]
  rfl

theorem reports_extend {phase : Phase} {ds : List Declaration} (grows : facts.Extends after)
    (done : ∀ d ∈ ds, facts.Done d phase) : ds.flatMap (after.report phase) = ds.flatMap (facts.report phase) := by
  apply List.flatMap_congr
  intro d member
  obtain ⟨value, state⟩ := done d member
  rw [report_of_state state, report_of_state (grows.phases.computed _ _ state)]

theorem run_phase_once (p : Program) (d : Declaration) (phase : Phase) :
    ∃ (α : Type) (x : Except InternalError α) (body : α → Analysis (List Diagnostic)),
      p.runPhase d phase = (liftM x >>= fun a => once d phase (body a)) := by
  cases d <;> cases phase <;> exact ⟨_, _, _, rfl⟩

theorem run_phase_reports {d : Declaration} {phase : Phase} (outside : facts.phases.state (d, phase) ≠ .inProgress)
    (ran : p.runPhase d phase facts = (.ok found, after)) : after.phases.state (d, phase) = .computed found := by
  obtain ⟨α, x, body, same⟩ := run_phase_once p d phase
  rw [same] at ran
  exact once_reports outside ran

theorem run_phase_all_reports {phase : Phase} {ds : List Declaration} (idle : ∀ k, facts.phases.state k ≠ .inProgress)
    (ran : p.runPhaseAll phase ds facts = (.ok found, after)) : found = ds.flatMap (after.report phase) := by
  induction ds generalizing facts found with
  | nil =>
    cases ran
    rfl
  | cons d rest ih =>
    obtain ⟨first, middle, step, others⟩ := bind_ok_split ran
    obtain ⟨more, last, later, ended⟩ := bind_ok_split others
    cases ended
    have grows := run_phase_grows p d phase facts
    rw [step] at grows
    have further := run_phase_all_grows p phase rest middle
    rw [later] at further
    have state := further.phases.computed _ _ (run_phase_reports (idle _) step)
    rw [List.flatMap_cons, report_of_state state,
      ih (fun k running => idle k ((grows.phases.running k).mp running)) later]

/-- A state in which a whole analysis may begin. -/
structure Facts.Begun (p : Program) (lax : Prop) (facts : Facts) : Prop where
  typing : facts.Typing p lax
  idle : ∀ k, facts.phases.state k ≠ .inProgress
  rested : ∀ k, facts.summaries.state k ≠ .inProgress
  vouched : facts.Vouched p

theorem Facts.begun_empty {lax : Prop} : Begun p lax {} := by
  refine ⟨typing_empty, ?_, ?_, ?_⟩
  · intro k
    simp [Cells.state]
  · intro k
    simp [Cells.state]
  · intro d found state
    simp [Cells.state] at state

section Typing
variable {modules : List Tree.Module} {ds : List Construction.Declared} (lexical : p.Lexical modules ds) {lax : Prop}
  {Open : Facts → Declaration → Prop}
include lexical

omit lexical in
theorem resolution_typing (typing : facts.Typing p lax) (resolved : after.Resolved p)
    (ran : p.runPhaseAll .resolution p.declarations facts = (.ok found, after)) : after.Typing p lax := by
  have grows := run_phase_all_grows p .resolution p.declarations facts
  rw [ran] at grows
  have only := (run_phase_all_maintains (fun d _ => run_names_maintains (names_only_lasting p facts) d) facts
    (names_only_refl facts) found after ran).1
  exact typing_names typing grows only resolved.named

theorem typing_settles (regime : Regime p lax Open) (resolved : facts.Resolved p) (typing : facts.Typing p lax)
    (ran : p.runPhaseAll .typing p.declarations facts = (.ok found, after)) :
    after.Typing p lax ∧ ∀ d ∈ p.declarations, after.Done d .typing := by
  have source := types_within_back lexical regime (p.functions.size + p.vars.size + 1)
  let J : Facts → Prop := fun now => facts.Extends now ∧ now.Typing p lax
  have each : ∀ d ∈ p.declarations, Maintains J (p.runPhase d .typing) := by
    rintro d member now ⟨grows, typing'⟩ new later step
    have further := run_phase_grows p d .typing now
    rw [step] at further
    have primed := primed_done typing'.named (done_extends grows (resolved.done d member))
    have allowed : Open now d :=
      regime.idle member (fun e running => resolved.idle _ ((grows.phases.running _).mp running))
    refine ⟨⟨extends_trans grows further, ?_⟩, trivial⟩
    cases d with
    | function g => exact type_function_typed lexical source regime typing' primed allowed step
    | «variable» v => exact type_variable_typed lexical source regime typing' primed allowed step
    | struct s => exact type_struct_typed lexical source regime typing' primed allowed step
  obtain ⟨⟨_, typing'⟩, _⟩ :=
    run_phase_all_maintains each facts ⟨extends_refl facts, typing⟩ found after ran
  exact ⟨typing', run_phase_all_done resolved.idle ran⟩

theorem early_phases_settle (regime : Regime p lax Open) {base resolved typed : Facts} {first second : List Diagnostic}
    (begun : base.Begun p lax) (ran : p.runPhaseAll .resolution p.declarations base = (.ok first, resolved))
    (ran' : p.runPhaseAll .typing p.declarations resolved = (.ok second, typed)) :
    resolved.Resolved p ∧ typed.Typing p lax ∧ (∀ d ∈ p.declarations, typed.Done d .typing) ∧
      ∀ k, typed.phases.state k ≠ .inProgress := by
  have names := resolution_resolves lexical begun.typing.named begun.idle ran
  have typing := resolution_typing begun.typing names ran
  obtain ⟨typing', done⟩ := typing_settles lexical regime names typing ran'
  have grows := run_phase_all_grows p .typing p.declarations resolved
  rw [ran'] at grows
  exact ⟨names, typing', done, fun k running => names.idle k ((grows.phases.running k).mp running)⟩

end Typing

/-- A declaration of a module, or a variable inside a body. -/
def Program.Present (p : Program) (d : Declaration) : Prop :=
  d ∈ p.declarations ∨ ∃ g v, d = .variable v ∧ p.Local g v

/-- All has been found out but effects. -/
structure Facts.Complete (p : Program) (facts : Facts) : Prop where
  coherent : facts.Coherent p
  covers : ∀ n, p.HasNode n → facts.Covers n
  names : ∀ d, p.Present d → facts.phases.state (d, .resolution) = .computed (p.nameFindings d)
  types : ∀ d, p.Present d → facts.phases.state (d, .typing) = .computed (p.typeFindings facts d)
  variableTypes : ∀ v, p.Present (.variable v) → ∃ t, facts.variableTypes.find? v = some t
  returnTypes : ∀ g, p.Present (.function g) → ∃ t, facts.returnTypes.find? g = some t
  claims : ∀ d, p.Present d → ∃ found, facts.phases.state (d, .validation) = .computed found ∧
    facts.ClaimsDone p found d

section Phases
variable {modules : List Tree.Module} {ds : List Construction.Declared}

theorem present_done {d : Declaration} (present : p.Present d) (lexical : p.Lexical modules ds) {phase : Phase}
    (done : ∀ e ∈ p.declarations, facts.Done e phase)
    (locals : ∀ g, facts.Done (.function g) phase → ∀ v, p.Local g v → facts.Done (.variable v) phase) :
    facts.Done d phase := by
  rcases present with declared | ⟨g, v, rfl, own⟩
  · exact done d declared
  · obtain ⟨decl, member, _⟩ := Program.local_owned lexical own
    apply locals g _ v own
    apply done
    rw [lexical.declarations]
    exact List.mem_map.mpr ⟨_, member, rfl⟩

theorem unchanged_adds (unchanged : facts.Unchanged after) : facts.Adds after := by
  constructor
  · rw [unchanged.types]
    exact Table.grows_refl _
  · rw [unchanged.dispatched]
    exact Table.grows_refl _
  · rw [unchanged.variableTypes]
    exact Table.grows_refl _
  · rw [unchanged.returnTypes]
    exact Table.grows_refl _

theorem typing_unchanged {lax : Prop} (unchanged : facts.Unchanged after) (typing : facts.Typing p lax) :
    after.Typing p lax := by
  have names := fun d => unchanged.phases d .resolution (by simp)
  have types := fun d => unchanged.phases d .typing (by simp)
  refine ⟨named_same typing.named unchanged.referrals names, ?_, ?_, ?_, ?_⟩
  · intro d
    rw [names]
    exact typing.resting d
  · exact grounded_same typing.grounded unchanged.types unchanged.dispatched unchanged.variableTypes
      unchanged.returnTypes
  · unfold Facts.Typed Facts.Finds
    rw [unchanged.types, unchanged.referrals]
    exact typing.finds
  · intro d found state
    rw [types] at state
    refine types_done_extends (unchanged_adds unchanged) ?_ (typing.cells d found state)
    rintro v ⟨value, known⟩
    exact ⟨value, (types _).trans known⟩

theorem complete_of_phases (lexical : p.Lexical modules ds) {resolved typed : Facts} (after₁ : resolved.Resolved p)
    {lax : Prop} (grows₂ : resolved.Extends typed) (after₂ : typed.Typing p lax)
    (done₂ : ∀ d ∈ p.declarations, typed.Done d .typing) (grows₃ : typed.Extends facts)
    (after₃ : facts.Validating p typed.Unchanged)
    (done₃ : ∀ d ∈ p.declarations, facts.Done d .validation) : facts.Complete p := by
  have adds := grows₃.adds
  have typing : ∀ d, p.Present d → ∃ found, typed.phases.state (d, .typing) = .computed found ∧
      typed.TypesDone p d found := by
    intro d present
    obtain ⟨value, state⟩ := present_done present lexical done₂ (by
      rintro g ⟨value, state⟩
      exact (after₂.cells _ _ state).locals g rfl)
    exact ⟨value, state, after₂.cells _ _ state⟩
  constructor
  · refine ⟨grounded_relax (typing_unchanged after₃.frame after₂).grounded, ?_⟩
    intro i mentioned
    unfold Facts.Finds
    rw [after₃.frame.referrals]
    exact finds_extends grows₂ (after₂.named.sound i mentioned) (after₁.finds i mentioned)
  · intro n has
    obtain ⟨d, member, inside⟩ := Program.node_declared lexical has
    obtain ⟨_, _, done⟩ := typing d.declaration
      (.inl (by rw [lexical.declarations]; exact List.mem_map.mpr ⟨d, member, rfl⟩))
    exact covers_extends adds.types (done.nodes n inside)
  · intro d present
    obtain ⟨value, state⟩ := present_done present lexical after₁.done (fun g _ v own => after₁.locals g v own)
    rw [(after₁.named.cells _ _ state).findings] at state
    exact grows₃.phases.computed _ _ (grows₂.phases.computed _ _ state)
  · intro d present
    obtain ⟨value, state, done⟩ := typing d present
    rw [declaration_findings_extend adds.types done.nodes, ← done.findings]
    exact grows₃.phases.computed _ _ state
  · intro v present
    obtain ⟨_, _, done⟩ := typing _ present
    obtain ⟨t, known⟩ := done.variableType v rfl
    exact ⟨t, adds.variableTypes _ _ known⟩
  · intro g present
    obtain ⟨_, _, done⟩ := typing _ present
    obtain ⟨t, known⟩ := done.returnType g rfl
    exact ⟨t, adds.returnTypes _ _ known⟩
  · intro d present
    obtain ⟨value, state⟩ := present_done present lexical done₃ (by
      rintro g ⟨value, state⟩
      exact (after₃.vouched _ _ state).1)
    exact ⟨value, state, after₃.vouched _ _ state⟩

theorem analyse_completes (lexical : p.Lexical modules ds) (consistent : p.Consistent) {lax : Prop}
    {Open : Facts → Declaration → Prop} (regime : Regime p lax Open) {base : Facts} (begun : base.Begun p lax)
    (ran : p.analyse base = (.ok found, facts)) :
    facts.Complete p ∧ facts.Typing p lax ∧
      found = Phase.all.flatMap (fun phase => p.declarations.flatMap (facts.report phase)) := by
  obtain ⟨first, resolved, second, typed, third, ran₁, ran₂, ran₃, whole⟩ := analyse_phases ran
  obtain ⟨after₁, after₂, done₂, idle₂⟩ := early_phases_settle lexical regime begun ran₁ ran₂
  have grows₁ := run_phase_all_grows p .resolution p.declarations base
  rw [ran₁] at grows₁
  have grows₂ := run_phase_all_grows p .typing p.declarations resolved
  rw [ran₂] at grows₂
  have grows₃ := run_phase_all_grows p .validation p.declarations typed
  rw [ran₃] at grows₃
  have same := early_phases_maintain (validations_robust p base) (fun _ => rfl) ran₁ ran₂
  have start : typed.Validating p typed.Unchanged := by
    refine ⟨unchanged_refl typed, idle₂, ?_, ?_⟩
    · exact fun k running => begun.rested k (((extends_trans grows₁ grows₂).summaries.running k).mp running)
    · exact vouched_extends (extends_trans grows₁ grows₂) same begun.vouched
  have ready : ∀ (id : FunctionId) (f : Function), p.functions[id.index]? = some f → f.body ≠ none →
      typed.Done (.function id) .resolution ∧ typed.Done (.function id) .typing := by
    intro id f here written
    rcases Program.function_places lexical here with ⟨bodyless, _⟩ | ⟨decl, member, _⟩
    · exact absurd bodyless written
    · have declared : .function id ∈ p.declarations := by
        rw [lexical.declarations]
        exact List.mem_map.mpr ⟨_, member, rfl⟩
      exact ⟨done_extends grows₂ (after₁.done _ declared), done₂ _ declared⟩
  have quiet := claims_unchanged consistent ready
  have after₃ := (run_phase_all_maintains (fun d _ => validation_validates quiet consistent d) typed start third facts
    ran₃).1
  refine ⟨complete_of_phases lexical after₁ grows₂ after₂ done₂ grows₃ after₃ (run_phase_all_done idle₂ ran₃),
    typing_unchanged after₃.frame after₂, ?_⟩
  rw [whole, run_phase_all_reports begun.idle ran₁, run_phase_all_reports after₁.idle ran₂,
    run_phase_all_reports idle₂ ran₃, ← reports_extend (extends_trans grows₂ grows₃) after₁.done,
    ← reports_extend grows₃ done₂]
  simp [Phase.all]

end Phases

/-- What is known about a program that was bound, and how its findings are put together. -/
theorem Compilation.bind_completes {options : Options} {modules : List Tree.Module} {c : Compilation}
    (bound : Compilation.bind options modules = .ok c) :
    ∃ ds ofConstruction, Program.construct options modules = .ok (c.program, ofConstruction) ∧
      c.program.Lexical modules ds ∧ c.program.Consistent ∧ c.facts.Complete c.program ∧
      c.findings = Compilation.notices modules ++ ofConstruction
        ++ Phase.all.flatMap (fun phase => c.program.declarations.flatMap (c.facts.report phase)) := by
  obtain ⟨ofConstruction, ofPhases, built, ran, whole⟩ := Compilation.bind_ok_parts bound
  obtain ⟨_, ds, lexical⟩ := construct_lexical built
  have consistent := construct_consistent built
  obtain ⟨complete, _, phases⟩ :=
    analyse_completes lexical consistent (nested_regime lexical) begun_empty ran
  exact ⟨ds, ofConstruction, built, lexical, consistent, complete, by rw [whole, phases]⟩

theorem Compilation.bind_valid {options : Options} {modules : List Tree.Module} {c : Compilation}
    (bound : Compilation.bind options modules = .ok c) : c.facts.Valid c.program :=
  (Compilation.session_upright bound).2.2.2.sound.valid

end SemanticAnalysis
