import SemanticAnalysis.Proofs.Analysis.Claims
import SemanticAnalysis.Proofs.Typing.Backing
/-!
Types of declarations on record. The typing of a declaration ends with its type on record, whatever led to it. So where
nothing is in progress the answer to a question about a type is the written type or the one on record afterwards, and
the same question gets the same answer from then on.
-/
namespace SemanticAnalysis
open Running Analysis SemanticAnalysis.Bound Facts

variable {p : Program}

namespace Facts
variable {facts after : Facts}

def Recorded (facts : Facts) : Prop := ∀ d, facts.Done d .typing → facts.HasRecord d

theorem has_record_extends {d : Declaration} (grows : facts.Adds after) (record : facts.HasRecord d) :
    after.HasRecord d := by
  cases d with
  | function g =>
    obtain ⟨t, found⟩ := record
    exact ⟨t, grows.returnTypes _ _ found⟩
  | «variable» v =>
    obtain ⟨t, found⟩ := record
    exact ⟨t, grows.variableTypes _ _ found⟩
  | struct s => trivial

theorem recorded_empty : Recorded {} := by
  rintro d ⟨found, state⟩
  simp [Cells.state] at state

theorem recorded_extends (grows : facts.Adds after) (same : after.phases = facts.phases) (recorded : facts.Recorded) :
    after.Recorded := by
  rintro d ⟨found, state⟩
  rw [same] at state
  exact has_record_extends grows (recorded d ⟨found, state⟩)

theorem recorded_write {d : Declaration} {phase : Phase} {m : Memo (List Diagnostic)} (recorded : facts.Recorded)
    (here : phase = .typing → ∀ found, m = .computed found → facts.HasRecord d) :
    ((phaseCell d phase).write m facts).Recorded := by
  rintro e ⟨found, state⟩
  rw [state_write] at state
  split at state
  · rename_i same
    cases same
    exact here rfl found state
  · exact recorded e ⟨found, state⟩

end Facts

theorem recorded_robust (p : Program) : Robust p (fun _ => True) Facts.Recorded where
  mentioned _ _ := trivial
  referral i r _ _ facts := recorded_extends (facts.extends_record_referral i.node r).adds rfl
  type node t facts := recorded_extends (facts.extends_record_type node t).adds rfl
  dispatch node f facts := recorded_extends (facts.extends_record_dispatch node f).adds rfl
  variableType v t facts := recorded_extends (facts.extends_record_variable_type v t).adds rfl
  returnType g t facts := recorded_extends (facts.extends_record_return_type g t).adds rfl
  enterNames _ _ recorded := recorded_write recorded (by simp)
  leaveNames _ _ _ recorded _ := recorded_write recorded (by simp)
  enter _ _ recorded := recorded_write recorded (by simp)
  leave _ _ _ recorded here := recorded_write recorded (fun _ _ _ => here)

/-- An invariant that each single step of the analysis keeps. -/
structure Steady (p : Program) (I : Facts → Prop) : Prop extends Robust p (fun _ => True) I where
  validation : ∀ d m facts, I facts → I ((Facts.phaseCell d .validation).write m facts)
  summary : ∀ access g m facts, I facts → I ((Facts.summaryCell access g).write m facts)

theorem recorded_steady (p : Program) : Steady p Facts.Recorded where
  toRobust := recorded_robust p
  validation _ _ _ recorded := recorded_write recorded (by simp)
  summary _ _ _ _ recorded := recorded

namespace Analysis
variable {α β : Type} {I : Facts → Prop}

structure Tidy (I : Facts → Prop) (x : Analysis α) : Prop where
  grows : Grows x
  maintains : Maintains I x

theorem tidy_pure (a : α) : Tidy I (pure a) := ⟨grows_pure a, maintains_pure a⟩

theorem tidy_look_up (x : Except InternalError α) {f : α → Analysis β} (rest : ∀ a, Tidy I (f a)) :
    Tidy I (liftM x >>= f) :=
  ⟨grows_bind (grows_lift x) (fun a => (rest a).grows), ensures_look_up (fun a _ => (rest a).maintains)⟩

theorem tidy_bind {x : Analysis α} {f : α → Analysis β} (first : Tidy I x) (second : ∀ a, Tidy I (f a)) :
    Tidy I (x >>= f) :=
  ⟨grows_bind first.grows (fun a => (second a).grows),
    maintains_bind first.maintains (fun a => (second a).maintains)⟩

theorem tidy_map {x : Analysis α} {f : α → β} (work : Tidy I x) : Tidy I (f <$> x) := by
  rw [map_eq_pure_bind]
  exact tidy_bind work (fun a => tidy_pure _)

theorem tidy_collect {f : α → Analysis (List β)} (xs : List α) (each : ∀ x ∈ xs, Tidy I (f x)) :
    Tidy I (collect f xs) :=
  ⟨grows_collect xs (fun x member => (each x member).grows),
    maintains_collect xs (fun x member => (each x member).maintains)⟩

end Analysis

theorem type_source_grows (p : Program) : p.typeSource.Agree (fun _ => True) p.typeSource := types_within_grow p _

section Steady
variable {I : Facts → Prop} (steady : Steady p I)
include steady

theorem type_source_maintains : p.typeSource.Maintains I := types_within_maintain steady.toRobust _

theorem resolve_nodes_tidy (ns : List Node) : Tidy I (collect (Node.resolve p) ns) :=
  ⟨resolve_nodes_grow p ns, resolve_nodes_maintain steady.toLasting (fun _ _ => trivial)⟩

theorem resolve_steps_tidy (steps : List Step) : Tidy I (collect (Step.resolve p) steps) :=
  ⟨grows_collect steps (fun s _ => resolve_step_grows p s),
    resolve_steps_maintain steady.toLasting (fun _ _ => trivial)⟩

theorem type_nodes_tidy (ns : List Node) : Tidy I (collect (Node.assignTypes p p.typeSource) ns) :=
  ⟨grows_iff_agree.mpr (type_nodes_agree region_true.stable (type_source_grows p) ns),
    type_nodes_maintain steady.toRobust (type_source_maintains steady) (fun _ _ => trivial)⟩

theorem type_steps_tidy (steps : List Step) : Tidy I (collect (Step.assignTypes p p.typeSource) steps) :=
  ⟨grows_collect steps (fun s _ => grows_iff_agree.mpr (type_step_agrees region_true (type_source_grows p) s)),
    type_steps_maintain steady.toRobust (type_source_maintains steady) (fun _ _ => trivial)⟩

theorem validate_steps_tidy (steps : List Step) : Tidy I (collect (Step.validate p) steps) := by
  refine ⟨grows_collect steps (fun s _ => validate_step_grows p s), maintains_collect steps (fun s _ => ?_)⟩
  cases s with
  | introduce id => exact ensures_look_up (fun _ _ => maintains_once (steady.validation _) (maintains_pure _))
  | _ => exact maintains_pure _

section Declarations
variable (consistent : p.Consistent)
include consistent

theorem summary_tidy (access : Access) (g : FunctionId) : Tidy I (p.summary access g) := by
  refine ⟨summary_grows p access g, summaries_within_maintain consistent ?_ steady.summary _ g⟩
  exact fun id _ _ _ => ⟨resolve_function_maintains steady.toLasting id,
    type_function_maintains steady.toRobust (type_source_maintains steady) id⟩

theorem nodes_effects_tidy (access : Access) (boundary : ScopeId) (ns : List Node) :
    Tidy I (collect (Node.effects p access (p.summary access) boundary) ns) :=
  ⟨grows_iff_agree.mpr (nodes_effects_agree region_true.stable
      (fun g => grows_iff_agree.mp (summary_grows p access g)) boundary ns),
    nodes_effects_maintain (fun g => (summary_tidy steady consistent access g).maintains) boundary ns⟩

theorem steps_effects_tidy (access : Access) (boundary : ScopeId) (steps : List Step) :
    Tidy I (collect (Step.effects p access (p.summary access) boundary) steps) := by
  apply tidy_collect
  intro s _
  constructor
  · exact grows_iff_agree.mpr (step_effects_agree region_true.stable
      (fun g => grows_iff_agree.mp (summary_grows p access g)) boundary s)
  · exact step_effects_maintain (fun g => (summary_tidy steady consistent access g).maintains) boundary s

theorem run_phase_tidy (d : Declaration) (phase : Phase) : Tidy I (p.runPhase d phase) := by
  refine ⟨run_phase_grows p d phase, ?_⟩
  by_cases early : phase = .validation
  · subst early
    cases d with
    | function g =>
      apply ensures_look_up
      intro f found
      apply maintains_once (steady.validation _)
      unfold Program.validateBody
      split
      · exact maintains_pure _
      · rw [Block.validate_collect]
        apply maintains_bind (validate_steps_tidy steady _).maintains
        intro ofBody
        apply maintains_bind _ (fun _ => maintains_pure _)
        refine claims_maintain consistent ?_ steady.summary f
        exact fun id _ _ _ => ⟨resolve_function_maintains steady.toLasting id,
          type_function_maintains steady.toRobust (type_source_maintains steady) id⟩
    | _ => exact ensures_look_up (fun _ _ => maintains_once (steady.validation _) (maintains_pure _))
  · exact run_phase_maintains steady.toRobust d early

theorem analyse_tidy : Tidy I p.analyse := by
  rw [Program.analyse_collect]
  refine tidy_collect _ (fun phase _ => ?_)
  rw [Program.run_phase_all_collect]
  exact tidy_collect _ (fun d _ => run_phase_tidy steady consistent d phase)

end Declarations

end Steady

section Types
variable {ask : TypeSource} {facts after : Facts} {t : Option TypeRef}

theorem return_type_known {g : FunctionId} (there : p.HasFunction g)
    (known : (p.givenReturn g).or (facts.returnTypes.find? g) = some t) :
    p.returnTypeUsing ask g facts = (.ok t, facts) := by
  obtain ⟨f, looked, here⟩ := Program.function_at_ok there
  unfold Program.givenReturn at known
  rw [here, Option.bind_some] at known
  unfold Program.returnTypeUsing
  rw [run_look_up looked]
  split
  · rename_i states
    rw [if_pos states] at known
    cases known
    rfl
  · rename_i silent
    rw [if_neg silent] at known
    unfold Program.inferredReturnType
    rw [run_bind_ok (run_get _), show facts.returnTypes.find? g = some t from known]
    rfl

theorem variable_type_known (consistent : p.Consistent) {v : VariableId} (there : p.HasVariable v)
    (known : (p.givenType v).or (facts.variableTypes.find? v) = some t) :
    p.variableTypeUsing ask v facts = (.ok t, facts) := by
  obtain ⟨var, looked, here⟩ := Program.variable_at_ok there
  unfold Program.givenType at known
  rw [here, Option.bind_some] at known
  unfold Program.variableTypeUsing
  rw [run_look_up looked]
  cases origin : var.origin with
  | parameter g index param =>
    obtain ⟨f, found, there'⟩ := Program.function_at_ok (consistent.owners _ _ here g index param origin)
    simp only [origin, there', Option.map_some, Option.some_or] at known
    cases known
    exact run_look_up found
  | declared decl =>
    simp only [origin] at known
    cases written : p.declaredType var with
    | some s =>
      rw [written] at known
      cases known
      rfl
    | none =>
      rw [written] at known
      dsimp only
      unfold Program.inferredVariableType
      rw [run_bind_ok (run_get _), show facts.variableTypes.find? v = some t from known]
      rfl

variable (source : ask.Maintains Facts.Recorded) (idle : ∀ k, facts.phases.state k ≠ .inProgress)
  (recorded : facts.Recorded)
include source idle recorded

theorem return_type_kept {g : FunctionId} (ran : p.returnTypeUsing ask g facts = (.ok t, after)) :
    (p.givenReturn g).or (after.returnTypes.find? g) = some t := by
  obtain ⟨f, found, rest⟩ := look_up_split ran
  unfold Program.givenReturn
  rw [function_at_ok_iff.mp found, Option.bind_some]
  split
  · rename_i states
    rw [if_pos states] at rest
    cases rest
    rfl
  · rename_i silent
    rw [if_neg silent] at rest
    obtain ⟨now, _, got, rest⟩ := bind_ok_split rest
    cases got
    cases before : facts.returnTypes.find? g with
    | some s =>
      rw [before] at rest
      cases rest
      exact before
    | none =>
      rw [before] at rest
      obtain ⟨_, resolved, resolves, rest⟩ := bind_ok_split rest
      obtain ⟨_, _, types, rest⟩ := bind_ok_split rest
      cases rest
      have grows := resolve_function_grows p g facts
      rw [resolves] at grows
      have recorded' := (resolve_function_maintains (recorded_robust p).toLasting g facts recorded _ _ resolves).1
      have recorded'' := (type_function_maintains (recorded_robust p) source g resolved recorded' _ _ types).1
      have done : after.Done (.function g) .typing :=
        once_done (fun running => idle _ ((grows.phases.running _).mp running)) types
      obtain ⟨s, known⟩ := recorded'' _ done
      rw [known]
      rfl

theorem variable_type_kept {v : VariableId} (ran : p.variableTypeUsing ask v facts = (.ok t, after)) :
    (p.givenType v).or (after.variableTypes.find? v) = some t := by
  obtain ⟨var, found, rest⟩ := look_up_split ran
  unfold Program.givenType
  rw [variable_at_ok_iff.mp found, Option.bind_some]
  cases origin : var.origin with
  | parameter g index param =>
    rw [origin] at rest
    obtain ⟨f, found', rest⟩ := look_up_split rest
    cases rest
    simp only [function_at_ok_iff.mp found', Option.map_some, Option.some_or]
  | declared decl =>
    rw [origin] at rest
    cases written : p.declaredType var with
    | some s =>
      rw [written] at rest
      cases rest
      rfl
    | none =>
      rw [written] at rest
      obtain ⟨now, _, got, rest⟩ := bind_ok_split rest
      cases got
      cases before : facts.variableTypes.find? v with
      | some s =>
        rw [before] at rest
        cases rest
        exact before
      | none =>
        rw [before] at rest
        obtain ⟨_, resolved, resolves, rest⟩ := bind_ok_split rest
        obtain ⟨_, _, types, rest⟩ := bind_ok_split rest
        cases rest
        have grows := resolve_variable_grows p v facts
        rw [resolves] at grows
        have recorded' := (resolve_variable_maintains (recorded_robust p).toLasting v facts recorded _ _ resolves).1
        have recorded'' := (type_variable_maintains (recorded_robust p) source v resolved recorded' _ _ types).1
        have done : after.Done (.variable v) .typing :=
          once_done (fun running => idle _ ((grows.phases.running _).mp running)) types
        obtain ⟨s, known⟩ := recorded'' _ done
        rw [known]
        rfl

end Types

end SemanticAnalysis
