import SemanticAnalysis.Proofs.Analysis.Naming
import SemanticAnalysis.Proofs.Effects.Summaries
/-!
What the third phase leaves behind. It finds out effects and checks claims; names, types and the findings of earlier
phases stay as they are. Once a function has been checked, the summaries behind its claims are known, so to check the
claims again finds the same and finds out nothing.
-/
namespace SemanticAnalysis
open Running Analysis SemanticAnalysis.Bound Facts

variable {p : Program}

section Frame
variable {I : Facts → Prop} {access : Access}

section Bodies
variable {ask : SummarySource} (asks : ∀ h, Maintains I (ask h)) (boundary : ScopeId)
include asks

theorem node_effects_maintain (n : Node) : Maintains I (n.effects p access ask boundary) := by
  cases n with
  | identifier node name site => exact ensures_bind ensures_get (fun _ _ => maintains_pure _)
  | call invocation receiver args =>
    simp only [Node.effects, Program.callEffects]
    apply ensures_bind ensures_get
    intro facts _
    split
    · exact maintains_pure _
    · exact maintains_bind (asks _) (fun _ => maintains_pure _)
  | _ => exact maintains_pure _

theorem nodes_effects_maintain (ns : List Node) : Maintains I (collect (Node.effects p access ask boundary) ns) :=
  maintains_collect ns (fun n _ => node_effects_maintain asks boundary n)

theorem step_effects_maintain (s : Step) : Maintains I (s.effects p access ask boundary) := by
  cases s with
  | node n => exact node_effects_maintain asks boundary n
  | introduce id =>
    apply ensures_look_up
    intro v _
    rw [Expr.effects_option_collect]
    exact nodes_effects_maintain asks boundary _
  | assign target value site =>
    simp only [Step.effects, Expr.targetEffects, Expr.effects_collect]
    apply ensures_bind ensures_get
    intro facts _
    apply maintains_bind
    · split
      · exact maintains_pure _
      · exact nodes_effects_maintain asks boundary _
    · intro ofTarget
      exact maintains_bind (nodes_effects_maintain asks boundary _) (fun _ => maintains_pure _)

end Bodies

variable (consistent : p.Consistent)
  (prepares : ∀ (id : FunctionId) (f : Function), p.functions[id.index]? = some f → f.body ≠ none →
    Maintains I (p.resolveFunction id) ∧ Maintains I (p.typeFunction p.typeSource id))
  (cells : ∀ access g m facts, I facts → I ((Facts.summaryCell access g).write m facts))
include consistent prepares cells

theorem summaries_within_maintain (depth : Nat) : ∀ g, Maintains I (p.summariesWithin access depth g) := by
  induction depth with
  | zero => exact fun g => maintains_throw _
  | succ depth ih =>
    intro g
    apply ensures_look_up
    intro f at_
    have found := function_at_ok_iff.mp at_
    apply maintains_compute (cells access g)
    unfold Program.summarise
    split
    · exact maintains_pure _
    · rename_i body written
      obtain ⟨resolves, types⟩ := prepares g f found (by simp [written])
      rw [consistent.functionIds _ _ found]
      apply maintains_bind resolves
      intro _
      apply maintains_bind types
      intro _
      rw [Block.effects_collect]
      exact maintains_bind (maintains_collect _ (fun s _ => step_effects_maintain ih _ s)) (fun _ => maintains_pure _)

theorem claims_maintain (f : Function) : Maintains I (p.validateClaims f) := by
  have each : ∀ access, Maintains I (p.violation? access f) := by
    intro access
    unfold Program.violation?
    split
    · apply maintains_bind (summaries_within_maintain consistent prepares cells _ _)
      intro summary
      split
      · exact maintains_pure _
      · split
        · exact maintains_pure _
        · exact maintains_pure _
    · exact maintains_pure _
  apply maintains_bind (each .read)
  intro reads
  apply maintains_bind (each .write)
  intro writes
  exact ensures_look_up (fun _ _ => maintains_pure _)

end Frame

def Facts.Sums (before after : Facts) : Prop :=
  ∀ k s, before.summaries.state k = .computed s → after.summaries.state k = .computed s

theorem Facts.sums_trans {facts middle after : Facts} (first : facts.Sums middle) (second : middle.Sums after) :
    facts.Sums after := fun k s known => second k s (first k s known)

theorem Facts.Extends.sums {facts after : Facts} (grows : facts.Extends after) : facts.Sums after :=
  grows.summaries.computed

def Facts.Checked (p : Program) (facts : Facts) (f : Function) (claims : List Diagnostic) : Prop :=
  ∀ later, facts.Sums later → p.validateClaims f later = (.ok claims, later)

section Checking
variable {facts after : Facts} {f : Function} {claims : List Diagnostic}

theorem summary_known {access : Access} {g : FunctionId} (found : p.functions[g.index]? = some f) {s : EffectSummary}
    (known : facts.summaries.state (access, g) = .computed s) : p.summary access g facts = (.ok (some s), facts) := by
  have here : p.functionAt g = .ok f := function_at_ok_iff.mpr found
  have read : (Facts.summaryCell access g).read facts = .computed s := known
  change (liftM (p.functionAt g) >>= fun f => (Facts.summaryCell access g).compute _ : Analysis _) facts = _
  rw [run_look_up here, Cell.compute, read]

theorem summary_kept {access : Access} {g : FunctionId} {answer : Option EffectSummary}
    (idle : facts.summaries.state (access, g) ≠ .inProgress) (ran : p.summary access g facts = (.ok answer, after)) :
    ∃ s, answer = some s ∧ after.summaries.state (access, g) = .computed s := by
  obtain ⟨f, _, rest⟩ := look_up_split ran
  unfold Cell.compute at rest
  split at rest
  · rename_i s state
    cases rest
    exact ⟨s, rfl, state⟩
  · rename_i state
    exact absurd state idle
  · split at rest
    · rename_i s last step
      cases rest
      exact ⟨s, rfl, (Cells.state_insert _ _ _ _).trans (if_pos rfl)⟩
    · cases rest

variable (consistent : p.Consistent) {g : FunctionId} (found : p.functions[g.index]? = some f)
include consistent found

theorem violation_checked {access : Access} {answer : Option Program.Violation}
    (idle : facts.summaries.state (access, g) ≠ .inProgress) (ran : p.violation? access f facts = (.ok answer, after)) :
    ∀ later, after.Sums later → p.violation? access f later = (.ok answer, later) := by
  intro later sums
  unfold Program.violation? at ran ⊢
  split
  · rename_i claimed
    rw [if_pos claimed, consistent.functionIds _ _ found] at ran
    rw [consistent.functionIds _ _ found]
    obtain ⟨summary, middle, asked, rest⟩ := bind_ok_split ran
    obtain ⟨s, rfl, known⟩ := summary_kept idle asked
    have same : middle = after := by
      dsimp only at rest
      split at rest <;> exact (Prod.mk.inj rest).2
    subst same
    rw [run_bind_ok (summary_known found (sums _ _ known))]
    dsimp only at rest ⊢
    split at rest
    · rename_i clean
      rw [if_pos clean]
      cases rest
      rfl
    · rename_i unclean
      rw [if_neg unclean]
      cases rest
      rfl
  · rename_i unclaimed
    rw [if_neg unclaimed] at ran
    cases ran
    rfl

theorem claims_checked (idle : ∀ k, facts.summaries.state k ≠ .inProgress)
    (ran : p.validateClaims f facts = (.ok claims, after)) : after.Checked p f claims := by
  obtain ⟨reads, middle, first, rest⟩ := bind_ok_split ran
  obtain ⟨writes, last, second, rest⟩ := bind_ok_split rest
  obtain ⟨warnings, _, told, ended⟩ := bind_ok_split rest
  obtain ⟨warned, rfl⟩ := Prod.mk.inj told
  cases ended
  have grows := violation_grows p .read f facts
  rw [first] at grows
  have further := violation_grows p .write f middle
  rw [second] at further
  have idle' : ∀ k, middle.summaries.state k ≠ .inProgress :=
    fun k running => idle k ((grows.summaries.running k).mp running)
  intro later sums
  have again := violation_checked consistent found (idle _) first later (sums_trans further.sums sums)
  have again' := violation_checked consistent found (idle' _) second later sums
  unfold Program.validateClaims
  rw [run_bind_ok again, run_bind_ok again']
  exact run_look_up warned

end Checking

namespace Facts
variable {facts middle after base : Facts}

def ClaimsDone (p : Program) (facts : Facts) (found : List Diagnostic) : Declaration → Prop
  | .function g => (∀ v, p.Local g v → facts.Done (.variable v) .validation) ∧
    ∃ f, p.functions[g.index]? = some f ∧ if f.body = none then found = [] else facts.Checked p f found
  | _ => found = []

theorem claims_done_extends {found : List Diagnostic} {d : Declaration} (grows : facts.Extends after)
    (done : facts.ClaimsDone p found d) : after.ClaimsDone p found d := by
  cases d with
  | function g =>
    obtain ⟨locals, f, here, claims⟩ := done
    refine ⟨fun v own => done_extends grows (locals v own), f, here, ?_⟩
    split
    · rename_i bodyless
      rw [if_pos bodyless] at claims
      exact claims
    · rename_i written
      rw [if_neg written] at claims
      exact fun later sums => claims later (sums_trans grows.sums sums)
  | «variable» v => exact done
  | struct s => exact done

structure Unchanged (base facts : Facts) : Prop where
  referrals : facts.referrals = base.referrals
  types : facts.types = base.types
  dispatched : facts.dispatched = base.dispatched
  variableTypes : facts.variableTypes = base.variableTypes
  returnTypes : facts.returnTypes = base.returnTypes
  phases : ∀ d phase, phase ≠ .validation → facts.phases.state (d, phase) = base.phases.state (d, phase)

theorem unchanged_refl (facts : Facts) : facts.Unchanged facts := ⟨rfl, rfl, rfl, rfl, rfl, fun _ _ _ => rfl⟩

theorem unchanged_trans (first : facts.Unchanged middle) (second : middle.Unchanged after) : facts.Unchanged after :=
  ⟨second.referrals.trans first.referrals, second.types.trans first.types, second.dispatched.trans first.dispatched,
    second.variableTypes.trans first.variableTypes, second.returnTypes.trans first.returnTypes,
    fun d phase early => (second.phases d phase early).trans (first.phases d phase early)⟩

theorem unchanged_validation (d : Declaration) (m : Memo (List Diagnostic)) (facts : Facts) :
    facts.Unchanged ((phaseCell d .validation).write m facts) := by
  refine ⟨rfl, rfl, rfl, rfl, rfl, ?_⟩
  intro e phase early
  rw [state_write, if_neg (fun same => early (Prod.mk.inj same).2)]

theorem unchanged_summary (access : Access) (g : FunctionId) (m : Memo EffectSummary) (facts : Facts) :
    facts.Unchanged ((summaryCell access g).write m facts) := ⟨rfl, rfl, rfl, rfl, rfl, fun _ _ _ => rfl⟩

def Vouched (p : Program) (facts : Facts) : Prop :=
  ∀ d found, facts.phases.state (d, .validation) = .computed found → facts.ClaimsDone p found d

theorem vouched_extends (grows : facts.Extends after)
    (same : ∀ d, after.phases.state (d, .validation) = facts.phases.state (d, .validation))
    (vouched : facts.Vouched p) : after.Vouched p := by
  intro d found state
  rw [same] at state
  exact claims_done_extends grows (vouched d found state)

/-- A state between two declarations in the third phase, in which `J` holds besides. -/
structure Validating (p : Program) (J : Facts → Prop) (facts : Facts) : Prop where
  frame : J facts
  idle : ∀ k, facts.phases.state k ≠ .inProgress
  rested : ∀ k, facts.summaries.state k ≠ .inProgress
  vouched : facts.Vouched p

structure Marks (facts after : Facts) : Prop where
  rest : after = { facts with phases := after.phases }
  others : ∀ d phase, (∀ v, (d, phase) ≠ (.variable v, .validation)) →
    after.phases.state (d, phase) = facts.phases.state (d, phase)
  idle : ∀ v, after.phases.state (.variable v, .validation) ≠ .inProgress
  empty : ∀ v found, after.phases.state (.variable v, .validation) = .computed found → found = []

theorem Marks.unchanged (marks : facts.Marks after) : facts.Unchanged after := by
  rw [marks.rest]
  exact ⟨rfl, rfl, rfl, rfl, rfl, fun d phase early => marks.others d phase (fun v same => early (Prod.mk.inj same).2)⟩

end Facts

structure Quiet (p : Program) (J : Facts → Prop) : Prop where
  cells : ∀ d m facts, J facts → J ((Facts.phaseCell d .validation).write m facts)
  claims : ∀ f facts found after, J facts → p.validateClaims f facts = (.ok found, after) →
    J after ∧ ∀ d, after.phases.state (d, .validation) = facts.phases.state (d, .validation)

theorem validations_robust (p : Program) (base : Facts) : Robust p (fun _ => True)
    (fun facts => ∀ d, facts.phases.state (d, .validation) = base.phases.state (d, .validation)) := by
  have other : ∀ d (phase : Phase) m facts, phase ≠ .validation →
      (∀ e, Cells.state facts.phases (e, .validation) = base.phases.state (e, .validation)) →
      ∀ e, ((Facts.phaseCell d phase).write m facts).phases.state (e, .validation)
        = base.phases.state (e, .validation) := by
    intro d phase m facts early same e
    rw [state_write, if_neg (fun equal => early (Prod.mk.inj equal).2.symm)]
    exact same e
  exact
    { mentioned _ _ := trivial
      referral _ _ _ _ _ same := same
      enterNames d facts same := other d .resolution _ facts (by simp) same
      leaveNames d found facts same _ := other d .resolution _ facts (by simp) same
      type _ _ _ same := same
      dispatch _ _ _ same := same
      variableType _ _ _ same := same
      returnType _ _ _ same := same
      enter d facts same := other d .typing _ facts (by simp) same
      leave d found facts same _ := other d .typing _ facts (by simp) same }

theorem summaries_keep_validations (consistent : p.Consistent) (base : Facts) (access : Access) (g : FunctionId) :
    Maintains (fun facts => ∀ d, facts.phases.state (d, .validation) = base.phases.state (d, .validation))
      (p.summary access g) := by
  have robust := validations_robust p base
  have source := types_within_maintain robust (p.functions.size + p.vars.size + 1)
  exact summaries_within_maintain consistent (fun id _ _ _ =>
    ⟨resolve_function_maintains robust.toLasting id, type_function_maintains robust source id⟩)
    (fun _ _ _ _ same => same) _ g

theorem claims_quiet (consistent : p.Consistent) : Quiet p (fun _ => True) where
  cells _ _ _ _ := trivial
  claims f facts found after _ ran := by
    have robust := validations_robust p facts
    have source := types_within_maintain robust (p.functions.size + p.vars.size + 1)
    exact ⟨trivial, (claims_maintain consistent (fun id _ _ _ =>
      ⟨resolve_function_maintains robust.toLasting id, type_function_maintains robust source id⟩)
      (fun _ _ _ _ same => same) f facts (fun _ => rfl) found after ran).1⟩

theorem claims_unchanged (consistent : p.Consistent) {base : Facts}
    (ready : ∀ (id : FunctionId) (f : Function), p.functions[id.index]? = some f → f.body ≠ none →
      base.Done (.function id) .resolution ∧ base.Done (.function id) .typing) : Quiet p base.Unchanged where
  cells d m facts unchanged := unchanged_trans unchanged (unchanged_validation d m facts)
  claims f facts found after unchanged ran := by
    let I : Facts → Prop := fun now => now = { facts with summaries := now.summaries }
    have done : ∀ now, I now → ∀ (id : FunctionId) (h : Function), p.functions[id.index]? = some h → h.body ≠ none →
        now.Done (.function id) .resolution ∧ now.Done (.function id) .typing := by
      intro now same id h there written
      obtain ⟨⟨first, resolved⟩, second, typed⟩ := ready id h there written
      rw [same]
      exact ⟨⟨first, (unchanged.phases _ _ (by simp)).trans resolved⟩,
        second, (unchanged.phases _ _ (by simp)).trans typed⟩
    have cells : ∀ access h m now, I now → I ((Facts.summaryCell access h).write m now) := by
      intro access h m now same
      exact congrArg (fun f : Facts => (Facts.summaryCell access h).write m f) same
    have prepares : ∀ (id : FunctionId) (h : Function), p.functions[id.index]? = some h → h.body ≠ none →
        Maintains I (p.resolveFunction id) ∧ Maintains I (p.typeFunction p.typeSource id) := fun id h there written =>
      ⟨done_maintains (fun now same => (done now same id h there written).1),
        done_maintains (fun now same => (done now same id h there written).2)⟩
    have only : I after := (claims_maintain consistent prepares cells f facts rfl found after ran).1
    rw [only]
    exact ⟨unchanged_trans unchanged ⟨rfl, rfl, rfl, rfl, rfl, fun _ _ _ => rfl⟩, fun _ => rfl⟩

section Validation
variable {facts after : Facts} {found : List Diagnostic} {J : Facts → Prop}

theorem validate_once_run {d : Declaration} (outside : facts.phases.state (d, .validation) ≠ .inProgress)
    (empty : ∀ more, facts.phases.state (d, .validation) = .computed more → more = [])
    (ran : once d .validation (pure []) facts = (.ok found, after)) :
    found = [] ∧ after.phases.state (d, .validation) = .computed [] ∧ after = { facts with phases := after.phases } ∧
      ∀ k, k ≠ (d, .validation) → after.phases.state k = facts.phases.state k := by
  rcases once_cases ran with ⟨known, rfl⟩ | ⟨running, _⟩ | ⟨_, inside, body, rfl⟩
  · have none := empty found known
    rw [none] at known
    exact ⟨none, known, rfl, fun k _ => rfl⟩
  · exact absurd running outside
  · cases body
    refine ⟨rfl, ?_, rfl, ?_⟩
    · rw [state_write, if_pos rfl]
    · intro k other
      rw [state_write, if_neg other, state_write, if_neg other]

theorem validate_steps_mark {steps : List Step} (marks : facts.Marks facts)
    (ran : collect (Step.validate p) steps facts = (.ok found, after)) :
    found = [] ∧ facts.Marks after ∧ ∀ v, .introduce v ∈ steps → after.Done (.variable v) .validation := by
  let K : List Step → List Diagnostic → Facts → Prop := fun done before now =>
    before = [] ∧ facts.Marks now ∧ ∀ v, .introduce v ∈ done → now.Done (.variable v) .validation
  refine collect_carries (K := K) ?_ ⟨rfl, marks, by simp⟩ ran
  rintro done s rest now before new later whole ⟨rfl, marks', locals⟩ step
  have same : ∀ {s'}, (∀ v, s' ≠ .introduce v) → s = s' → K (done ++ [s]) ([] ++ []) now := by
    rintro s' other rfl
    refine ⟨rfl, marks', ?_⟩
    intro v among
    rcases List.mem_append.mp among with earlier | last
    · exact locals v earlier
    · exact absurd (List.mem_singleton.mp last).symm (other v)
  cases s with
  | introduce id =>
    obtain ⟨v, _, once_ran⟩ := look_up_split step
    obtain ⟨rfl, known, only, others⟩ := validate_once_run (marks'.idle id) (marks'.empty id) once_ran
    refine ⟨rfl, ⟨?_, ?_, ?_, ?_⟩, ?_⟩
    · rw [only]
      exact congrArg (fun f : Facts => { f with phases := later.phases }) marks'.rest
    · intro d phase other
      rw [others _ (other id)]
      exact marks'.others d phase other
    · intro w running
      by_cases equal : w = id
      · rw [equal, known] at running
        cases running
      · rw [others _ (fun same => equal (by cases same; rfl))] at running
        exact marks'.idle w running
    · intro w more state
      by_cases equal : w = id
      · rw [equal, known] at state
        exact (Memo.computed.inj state).symm
      · rw [others _ (fun same => equal (by cases same; rfl))] at state
        exact marks'.empty w more state
    · intro w among
      by_cases equal : w = id
      · rw [equal]
        exact ⟨[], known⟩
      · rcases List.mem_append.mp among with earlier | last
        · obtain ⟨value, state⟩ := locals w earlier
          exact ⟨value, by rw [others _ (fun same => equal (by cases same; rfl)), state]⟩
        · exact absurd (Step.introduce.inj (List.mem_singleton.mp last)) equal
  | _ =>
    cases step
    exact same (by simp) rfl

theorem validate_steps_maintain (cells : ∀ d m facts, J facts → J ((Facts.phaseCell d .validation).write m facts))
    (steps : List Step) : Maintains J (collect (Step.validate p) steps) := by
  apply maintains_collect
  intro s _
  cases s with
  | introduce v => exact ensures_look_up (fun _ _ => maintains_once (cells _) (maintains_pure _))
  | _ => exact maintains_pure _

variable (quiet : Quiet p J)
include quiet

theorem validate_plain_validates {d : Declaration} (plain : ∀ g, d ≠ .function g) (before : facts.Validating p J)
    (grows : facts.Extends after) (ran : once d .validation (pure []) facts = (.ok found, after)) :
    after.Validating p J := by
  have nothing : ∀ more, facts.phases.state (d, .validation) = .computed more → more = [] := by
    intro more state
    have done := before.vouched d more state
    cases d with
    | function g => exact absurd rfl (plain g)
    | «variable» v => exact done
    | struct s => exact done
  obtain ⟨_, known, _, others⟩ := validate_once_run (before.idle _) nothing ran
  constructor
  · exact (maintains_once (quiet.cells d) (maintains_pure []) facts before.frame found after ran).1
  · exact fun k running => before.idle k ((grows.phases.running k).mp running)
  · exact fun k running => before.rested k ((grows.summaries.running k).mp running)
  · intro e more state
    by_cases same : e = d
    · subst same
      rw [known] at state
      cases state
      cases e with
      | function g => exact absurd rfl (plain g)
      | «variable» v => rfl
      | struct s => rfl
    · rw [others _ (fun equal => same (Prod.mk.inj equal).1)] at state
      exact claims_done_extends grows (before.vouched e more state)

section Functions
variable (consistent : p.Consistent)
include consistent

structure Facts.BodyDone (p : Program) (J : Facts → Prop) (inside facts : Facts) (g : FunctionId) (f : Function)
    (found : List Diagnostic) : Prop where
  frame : J inside
  empty : ∀ v more, inside.phases.state (.variable v, .validation) = .computed more → more = []
  others : ∀ d, (∀ v, d ≠ .variable v) → inside.phases.state (d, .validation) = facts.phases.state (d, .validation)
  locals : ∀ v, p.Local g v → inside.Done (.variable v) .validation
  claims : if f.body = none then found = [] else inside.Checked p f found

theorem validate_body_done {g : FunctionId} {f : Function} (here : p.functions[g.index]? = some f)
    (start : facts.Marks facts) (frame : J facts) (rested : ∀ k, facts.summaries.state k ≠ .inProgress)
    (ran : p.validateBody f facts = (.ok found, after)) : Facts.BodyDone p J after facts g f found := by
  unfold Program.validateBody at ran
  cases written : f.body with
  | none =>
    rw [written] at ran
    cases ran
    refine ⟨frame, start.empty, fun _ _ => rfl, ?_, by rw [if_pos written]⟩
    rintro v ⟨f', here', introduces⟩
    rw [here] at here'
    cases here'
    rw [written] at introduces
    cases introduces
  | some block =>
    rw [written] at ran
    obtain ⟨ofBody, marked, work, rest⟩ := bind_ok_split ran
    obtain ⟨ofClaims, last, checked, ended⟩ := bind_ok_split rest
    cases ended
    rw [Block.validate_collect] at work
    have middle := (validate_steps_maintain quiet.cells _ facts frame ofBody marked work).1
    obtain ⟨rfl, marks, locals⟩ := validate_steps_mark start work
    have same : marked.summaries = facts.summaries := by rw [marks.rest]
    obtain ⟨frame', kept⟩ := quiet.claims _ _ _ _ middle checked
    constructor
    · exact frame'
    · intro v more
      rw [kept]
      exact marks.empty v more
    · intro d other
      rw [kept]
      exact marks.others d _ (fun v equal => other v (Prod.mk.inj equal).1)
    · rintro v ⟨f', here', introduces⟩
      rw [here] at here'
      cases here'
      rw [written] at introduces
      unfold Facts.Done
      rw [kept]
      exact locals v introduces
    · rw [if_neg (by simp [written])]
      exact claims_checked consistent here (by rw [same]; exact rested) checked

theorem validate_function_validates {g : FunctionId} (before : facts.Validating p J)
    (ran : p.validateFunction g facts = (.ok found, after)) : after.Validating p J := by
  have grows := validate_function_grows p g facts
  rw [ran] at grows
  obtain ⟨f, at_, rest⟩ := look_up_split ran
  have here := function_at_ok_iff.mp at_
  have idle : ∀ k, after.phases.state k ≠ .inProgress :=
    fun k running => before.idle k ((grows.phases.running k).mp running)
  have rested : ∀ k, after.summaries.state k ≠ .inProgress :=
    fun k running => before.rested k ((grows.summaries.running k).mp running)
  rcases once_cases rest with ⟨_, rfl⟩ | ⟨running, _⟩ | ⟨_, inside, body, rfl⟩
  · exact before
  · exact absurd running (before.idle _)
  · have start : ((Facts.phaseCell (.function g) .validation).write .inProgress facts).Marks
        ((Facts.phaseCell (.function g) .validation).write .inProgress facts) := by
      refine ⟨rfl, fun _ _ _ => rfl, ?_, ?_⟩
      · intro v
        rw [state_write, if_neg (by simp)]
        exact before.idle _
      · intro v more state
        rw [state_write, if_neg (by simp)] at state
        exact before.vouched _ more state
    have entered := quiet.cells (.function g) .inProgress facts before.frame
    have done := validate_body_done quiet consistent here start entered before.rested body
    constructor
    · exact quiet.cells _ _ _ done.frame
    · exact idle
    · exact rested
    · intro d more state
      rw [state_write] at state
      split at state
      · rename_i same
        cases same
        cases state
        refine ⟨?_, f, here, done.claims⟩
        intro v own
        obtain ⟨value, known⟩ := done.locals v own
        exact ⟨value, by rw [state_write, if_neg (by simp), known]⟩
      · rename_i other
        cases d with
        | «variable» v => exact done.empty v more state
        | _ =>
          rw [done.others _ (by simp), state_write, if_neg other] at state
          exact claims_done_extends grows (before.vouched _ more state)

theorem validation_validates (d : Declaration) :
    Maintains (fun now => now.Validating p J) (p.runPhase d .validation) := by
  intro now before new later step
  have grows := run_phase_grows p d .validation now
  rw [step] at grows
  refine ⟨?_, trivial⟩
  cases d with
  | function g => exact validate_function_validates quiet consistent before step
  | _ =>
    obtain ⟨_, _, rest⟩ := look_up_split step
    exact validate_plain_validates quiet (by simp) before grows rest

end Functions

end Validation

end SemanticAnalysis
