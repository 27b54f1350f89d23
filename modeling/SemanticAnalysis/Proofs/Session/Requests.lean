import SemanticAnalysis.Proofs.Compilation.Failure
import SemanticAnalysis.Session
/-!
Requests in a session. A request about things that the program has is answered, and any other request fails at its
first look-up. Either way the session goes on in a state in which the facts are valid and nothing is in progress.
-/
namespace SemanticAnalysis
open Running Analysis Facts Program

variable {p : Program} {base : Facts}

theorem mem_all_steps {ss : List Bound.Stmt} {step : Bound.Step} :
    step ∈ Bound.Stmt.allSteps ss ↔ ∃ s ∈ ss, step ∈ s.steps := by
  induction ss with
  | nil => simp [Bound.Stmt.allSteps]
  | cons first rest ih => simp [Bound.Stmt.allSteps, ih]

theorem mem_block_steps {b : Bound.Block} {step : Bound.Step} : step ∈ b.steps ↔ ∃ s ∈ b.stmts, step ∈ s.steps := by
  obtain ⟨stmts, _⟩ := b
  rw [Bound.Block.steps]
  exact mem_all_steps

theorem stmt_steps_inner {s t : Bound.Stmt} (member : t ∈ s.inner) {step : Bound.Step} (inside : step ∈ t.steps) :
    step ∈ s.steps := by
  cases s with
  | branch condition thenBranch elseBranch site =>
    simp only [Bound.Stmt.steps, List.mem_append]
    rcases List.mem_append.mp member with first | second
    · exact .inl (.inr (mem_block_steps.mpr ⟨t, first, inside⟩))
    · cases elseBranch with
      | none => simp at second
      | some others => exact .inr (mem_block_steps.mpr ⟨t, second, inside⟩)
  | block body => exact mem_block_steps.mpr ⟨t, member, inside⟩
  | _ => simp [Bound.Stmt.inner] at member

theorem stmt_steps_follow {s t : Bound.Stmt} {path : List Nat} (leads : s.follow? path = some t) {step : Bound.Step}
    (inside : step ∈ t.steps) : step ∈ s.steps := by
  induction path generalizing s with
  | nil =>
    cases leads
    exact inside
  | cons i path ih =>
    obtain ⟨next, listed, further⟩ := Option.bind_eq_some_iff.mp leads
    exact stmt_steps_inner (List.mem_of_getElem? listed) (ih further)

section Parts
variable (consistent : p.Consistent)
include consistent

theorem stmt_locals_there {i : Nat} {f : Bound.Function} (here : p.functions[i]? = some f) {path : List Nat}
    {s : Bound.Stmt} (found : Part.stmt? f path = some s) : ∀ id, .introduce id ∈ s.steps → p.HasVariable id := by
  intro id inside
  obtain ⟨body, written, leads⟩ := Option.bind_eq_some_iff.mp found
  apply consistent.bodies i f here
  rw [written, Bound.Block.optionSteps]
  simpa [Bound.Stmt.steps] using stmt_steps_follow leads inside

theorem block_locals_there {i : Nat} {f : Bound.Function} (here : p.functions[i]? = some f) {body : Bound.Block}
    (written : f.body = some body) : ∀ id, .introduce id ∈ body.steps → p.HasVariable id := by
  intro id inside
  apply consistent.bodies i f here
  rw [written, Bound.Block.optionSteps]
  exact inside

theorem expr_phase_runs (e : Bound.Expr) (phase : Phase) : Runs (Sound p base) (e.runPhase p phase) := by
  cases phase with
  | resolution =>
    simp only [Bound.Expr.runPhase, Bound.Expr.resolve_collect]
    exact resolve_nodes_run consistent _
  | typing =>
    simp only [Bound.Expr.runPhase, Bound.Expr.types_collect]
    exact type_nodes_run consistent (type_source_answers consistent) (few_typings base) _
  | validation => exact runs_pure _

theorem steps_phase_run (base : Facts) {steps : List Bound.Step}
    (there : ∀ id, .introduce id ∈ steps → p.HasVariable id) :
    Runs (Sound p base) (collect (Bound.Step.resolve p) steps) ∧
      Runs (Sound p base) (collect (Bound.Step.assignTypes p p.typeSource) steps) ∧
      Runs (Sound p base) (collect (Bound.Step.validate p) steps) :=
  ⟨resolve_steps_run consistent there,
    type_steps_run consistent (type_source_answers consistent) (few_typings base) there, validate_steps_run there⟩

theorem stmt_phase_runs {s : Bound.Stmt} (there : ∀ id, .introduce id ∈ s.steps → p.HasVariable id) (phase : Phase) :
    Runs (Sound p base) (s.runPhase p phase) := by
  obtain ⟨resolved, typed, validated⟩ := steps_phase_run consistent base there
  cases phase with
  | resolution => simpa only [Bound.Stmt.runPhase, Bound.Stmt.resolve_collect] using resolved
  | typing => simpa only [Bound.Stmt.runPhase, Bound.Stmt.types_collect] using typed
  | validation => simpa only [Bound.Stmt.runPhase, Bound.Stmt.validate_collect] using validated

theorem block_phase_runs {b : Bound.Block} (there : ∀ id, .introduce id ∈ b.steps → p.HasVariable id)
    (phase : Phase) : Runs (Sound p base) (b.runPhase p phase) := by
  obtain ⟨resolved, typed, validated⟩ := steps_phase_run consistent base there
  cases phase with
  | resolution => simpa only [Bound.Block.runPhase, Bound.Block.resolve_collect] using resolved
  | typing => simpa only [Bound.Block.runPhase, Bound.Block.types_collect] using typed
  | validation => simpa only [Bound.Block.runPhase, Bound.Block.validate_collect] using validated

end Parts

def Part.subject : Part → Declaration
  | .declaration d => d
  | .body f => .function f
  | .statement f _ => .function f

def Question.subject? : Question → Option Declaration
  | .analyse => none
  | .phase part _ => some part.subject
  | .effects part _ => some part.subject
  | .signature f => some (.function f)
  | .returnType f => some (.function f)
  | .variableType v => some (.variable v)
  | .memberType s _ => some (.struct s)
  | .summary _ f => some (.function f)
  | .isClean _ f => some (.function f)

def Part.Known (p : Program) (part : Part) : Prop := p.HasDeclaration part.subject

def Question.Known (p : Program) (q : Question) : Prop := ∀ d ∈ q.subject?, p.HasDeclaration d

/-- The question is about a fact of one declaration. -/
def Question.AsksFact : Question → Prop
  | .analyse | .phase .. | .effects .. => False
  | _ => True

section Answered
variable (consistent : p.Consistent)
include consistent

theorem part_phase_runs {part : Part} (known : part.Known p) (phase : Phase) :
    Runs (Sound p base) (part.runPhase p phase) := by
  cases part with
  | declaration d => exact run_phase_runs consistent known phase
  | body id =>
    obtain ⟨f, found, here⟩ := function_at_ok known
    refine succeeds_look_up found ?_
    split
    · rename_i block written
      exact block_phase_runs consistent (block_locals_there consistent here written) phase
    · exact run_phase_runs (d := .function id) consistent known phase
  | statement id path =>
    obtain ⟨f, found, here⟩ := function_at_ok known
    refine succeeds_look_up found ?_
    split
    · rename_i s listed
      exact stmt_phase_runs consistent (stmt_locals_there consistent here listed) phase
    · exact run_phase_runs (d := .function id) consistent known phase

theorem summary_source_answers (access : Access) :
    SummarySource.Answers p access (p.functions.size + 1) (p.summary access) :=
  summaries_within_answer consistent access _

theorem expr_effects_run (e : Bound.Expr) (access : Access) (boundary : ScopeId) :
    Runs (Sound p base) (e.effects p access (p.summary access) boundary) := by
  rw [Bound.Expr.effects_collect]
  exact runs_of_succeeds (nodes_effects_succeed (summary_source_answers consistent access)
    (few_summaries access base) boundary _)

theorem part_effects_run {part : Part} (known : part.Known p) (access : Access) (boundary : ScopeId) :
    Runs (Sound p base) (part.effects p access boundary) := by
  have answers := summary_source_answers consistent access
  have few := few_summaries (p := p) access base
  have body : ∀ {id : FunctionId}, p.HasFunction id → Runs (Sound p base) (do
      let f ← p.functionAt id
      Bound.Block.optionEffects p access (p.summary access) boundary f.body) := by
    intro id there
    obtain ⟨f, found, here⟩ := function_at_ok there
    refine succeeds_look_up found ?_
    rw [Bound.Block.effects_option_collect]
    exact runs_of_succeeds (steps_effects_succeed answers few boundary (consistent.bodies _ _ here))
  exact match part, known with
  | .declaration (.variable id), known => runs_of_succeeds (variable_effects_succeed answers few boundary known)
  | .declaration (.struct id), known => by
    obtain ⟨s, found, _⟩ := struct_at_ok known
    refine succeeds_look_up found ?_
    rw [Bound.Expr.effects_all_collect]
    exact runs_of_succeeds (nodes_effects_succeed answers few s.scope _)
  | .declaration (.function id), known => body known
  | .body id, known => body known
  | .statement id path, known => by
    obtain ⟨f, found, here⟩ := function_at_ok known
    refine succeeds_look_up found ?_
    split
    · rename_i s listed
      rw [Bound.Stmt.effects_collect]
      exact runs_of_succeeds (steps_effects_succeed answers few boundary (stmt_locals_there consistent here listed))
    · exact runs_pure _

theorem known_question_runs {q : Question} (known : q.Known p) : Runs (Sound p base) (q.answer p) := by
  have types := type_source_answers consistent
  cases q with
  | analyse => exact succeeds_map (analyse_runs consistent) (fun _ _ => trivial)
  | phase part step => exact succeeds_map (part_phase_runs consistent (known _ rfl) step) (fun _ _ => trivial)
  | effects part boundary =>
    refine runs_bind (part_effects_run consistent (known _ rfl) .read boundary) (fun reads => ?_)
    exact runs_bind (part_effects_run consistent (known _ rfl) .write boundary) (fun writes => runs_pure _)
  | signature f =>
    obtain ⟨_, found, _⟩ := function_at_ok (known _ rfl)
    exact succeeds_look_up found (runs_pure _)
  | returnType f =>
    exact succeeds_map (types.returnType base (few_typings base) f (known _ rfl)) (fun _ _ => trivial)
  | variableType v =>
    exact succeeds_map (types.variableType base (few_typings base) v (known _ rfl)) (fun _ _ => trivial)
  | memberType s name =>
    obtain ⟨_, found, _⟩ := struct_at_ok (known _ rfl)
    exact succeeds_look_up found (runs_pure _)
  | summary access f => exact succeeds_map (summary_succeeds consistent access (known _ rfl)) (fun _ _ => trivial)
  | isClean access f =>
    refine succeeds_map (P := fun _ => True) ?_ (fun _ _ => trivial)
    exact succeeds_bind (summary_succeeds consistent access (known _ rfl)) (fun _ _ => runs_pure _)

end Answered

def Declaration.kind : Declaration → String
  | .function _ => "function"
  | .variable _ => "variable"
  | .struct _ => "struct"

def Declaration.index : Declaration → Nat
  | .function id => id.index
  | .variable id => id.index
  | .struct id => id.index

/-- The work fails at once because there is no such declaration. -/
def Dangles {α : Type} (d : Declaration) (x : Analysis α) : Prop :=
  ∀ facts, x facts = (.error (.danglingId d.kind d.index), facts)

section Dangling
variable {α β : Type} {d : Declaration}

theorem dangles_look_up {x : Except InternalError α} {f : α → Analysis β}
    (missing : x = .error (.danglingId d.kind d.index)) : Dangles d (liftM x >>= f) :=
  fun _ => run_look_up_error missing

theorem dangles_bind {x : Analysis α} {f : α → Analysis β} (first : Dangles d x) : Dangles d (x >>= f) := by
  intro facts
  rw [run_bind, first]

theorem dangles_map {x : Analysis α} {f : α → β} (first : Dangles d x) : Dangles d (f <$> x) := by
  rw [map_eq_pure_bind]
  exact dangles_bind first

end Dangling

theorem function_at_missing {id : FunctionId} (missing : ¬ p.HasFunction id) :
    p.functionAt id = .error (.danglingId "function" id.index) := by
  unfold Program.functionAt
  rw [Array.getElem?_eq_none (Nat.le_of_not_lt missing)]

theorem variable_at_missing {id : VariableId} (missing : ¬ p.HasVariable id) :
    p.variableAt id = .error (.danglingId "variable" id.index) := by
  unfold Program.variableAt
  rw [Array.getElem?_eq_none (Nat.le_of_not_lt missing)]

theorem struct_at_missing {id : StructId} (missing : ¬ id.index < p.structs.size) :
    p.structAt id = .error (.danglingId "struct" id.index) := by
  unfold Program.structAt
  rw [Array.getElem?_eq_none (Nat.le_of_not_lt missing)]

theorem run_phase_dangles {d : Declaration} (missing : ¬ p.HasDeclaration d) (phase : Phase) :
    Dangles d (p.runPhase d phase) := by
  cases d with
  | function g => cases phase <;> exact dangles_look_up (function_at_missing missing)
  | «variable» v => cases phase <;> exact dangles_look_up (variable_at_missing missing)
  | struct s => cases phase <;> exact dangles_look_up (struct_at_missing missing)

theorem part_phase_dangles {part : Part} (missing : ¬ part.Known p) (phase : Phase) :
    Dangles part.subject (part.runPhase p phase) := by
  cases part with
  | declaration d => exact run_phase_dangles missing phase
  | body f => exact dangles_look_up (function_at_missing missing)
  | statement f path => exact dangles_look_up (function_at_missing missing)

theorem part_effects_dangle {part : Part} (missing : ¬ part.Known p) (access : Access) (boundary : ScopeId) :
    Dangles part.subject (part.effects p access boundary) := by
  cases part with
  | declaration d =>
    cases d with
    | function f => exact dangles_look_up (function_at_missing missing)
    | «variable» v => exact dangles_look_up (variable_at_missing missing)
    | struct s => exact dangles_look_up (struct_at_missing missing)
  | body f => exact dangles_look_up (function_at_missing missing)
  | statement f path => exact dangles_look_up (function_at_missing missing)

theorem question_dangles {q : Question} {d : Declaration} (about : d ∈ q.subject?) (missing : ¬ p.HasDeclaration d) :
    Dangles d (q.answer p) := by
  cases q with
  | analyse => cases about
  | phase part step =>
    cases about
    exact dangles_map (part_phase_dangles missing step)
  | effects part boundary =>
    cases about
    exact dangles_bind (part_effects_dangle missing .read boundary)
  | variableType v =>
    cases about
    exact dangles_map (dangles_look_up (variable_at_missing missing))
  | memberType s name =>
    cases about
    exact dangles_look_up (struct_at_missing missing)
  | signature f =>
    cases about
    exact dangles_look_up (function_at_missing missing)
  | isClean access f =>
    cases about
    exact dangles_map (dangles_bind (dangles_look_up (function_at_missing missing)))
  | _ =>
    cases about
    exact dangles_map (dangles_look_up (function_at_missing missing))

theorem unknown_question_dangles {q : Question} (missing : ¬ q.Known p) :
    ∃ d ∈ q.subject?, Dangles d (q.answer p) := by
  simp only [Question.Known, not_forall] at missing
  obtain ⟨d, about, absent⟩ := missing
  exact ⟨d, about, question_dangles about absent⟩

namespace Session
open Compilation

/-- What can be done in a session: ask, bind an expression that is not part of the program, and analyse such an
expression. -/
inductive Request where
  | question (q : Question)
  | bind (scope : ScopeId) (e : Tree.Expr)
  | phase (e : Bound.Expr) (phase : Phase)
  | effects (e : Bound.Expr) (access : Access) (boundary : ScopeId)

def Request.Known (p : Program) : Request → Prop
  | .question q => q.Known p
  | .bind _ e => ∀ call ∈ e.calls, call.target.isCallable = true
  | .phase .. => True
  | .effects .. => True

def perform (s : Session) : Request → Option InternalError × Session
  | .question q => (failure? (s.answer q).1, (s.answer q).2)
  | .bind scope e => (failure? (s.bindExpr scope e).1, (s.bindExpr scope e).2)
  | .phase e phase => (failure? (s.ask (e.runPhase s.program phase)).1, (s.ask (e.runPhase s.program phase)).2)
  | .effects e access boundary =>
    (failure? (s.ask (e.effects s.program access (s.program.summary access) boundary)).1,
      (s.ask (e.effects s.program access (s.program.summary access) boundary)).2)

/-- The sessions that begin with the program of some modules. -/
inductive Reachable (options : Options) (modules : List Tree.Module) : Session → Prop
  | start {p : Program} {findings : List Diagnostic} (built : Program.construct options modules = .ok (p, findings)) :
    Reachable options modules { program := p }
  | next {s : Session} (before : Reachable options modules s) (r : Request) :
    Reachable options modules (s.perform r).2

/-- The program is consistent, its facts are valid, and nothing is in progress. -/
structure Settled (s : Session) : Prop where
  consistent : s.program.Consistent
  sound : Sound s.program {} s.facts

variable {s : Session}

theorem ask_settled {α : Type} (settled : s.Settled) {work : Analysis α}
    (runs : Runs (Sound s.program {}) work) : failure? (s.ask work).1 = none ∧ (s.ask work).2.Settled := by
  obtain ⟨a, after, ran, sound, _⟩ := runs s.facts settled.sound
  unfold ask
  rw [ran]
  exact ⟨rfl, settled.consistent, sound⟩

theorem ask_dangling {α : Type} (settled : s.Settled) {work : Analysis α} {d : Declaration}
    (dangles : Dangles d work) :
    (∃ kind index, failure? (s.ask work).1 = some (.danglingId kind index)) ∧ (s.ask work).2.Settled := by
  unfold ask
  rw [dangles]
  exact ⟨⟨d.kind, d.index, rfl⟩, settled⟩

theorem settled_nodes (settled : s.Settled) (nodes : Nat) :
    Settled { s with program := { s.program with nodes } } where
  consistent := (evolves_nodes settled.consistent nodes).consistent
  sound := by
    obtain ⟨valid, running⟩ := settled.sound
    refine ⟨⟨?_, valid.types, valid.dispatched, valid.variableTypes, valid.returnTypes, valid.summaries⟩, running⟩
    intro node r found
    have there := valid.referrals node r found
    cases r <;> exact there

theorem bind_settled (settled : s.Settled) (scope : ScopeId) (e : Tree.Expr) :
    (s.bindExpr scope e).2.Settled ∧
      ((∀ call ∈ e.calls, call.target.isCallable = true) → failure? (s.bindExpr scope e).1 = none) ∧
      (¬ (∀ call ∈ e.calls, call.target.isCallable = true) →
        ∃ span, failure? (s.bindExpr scope e).1 = some (.invalidInvocationTarget span)) := by
  have builds := Bound.Expr.bind_builds scope e s.program.nodes
  have clear : (∀ call ∈ e.calls, call.target.isCallable = true) ↔ Tree.faults e.calls = [] := by
    simp [Tree.faults, Tree.Call.isMalformed]
  rw [clear]
  unfold bindExpr
  cases faulty : Tree.faults e.calls with
  | nil =>
    rw [faulty] at builds
    obtain ⟨bound, nodes, ran, _⟩ := builds
    rw [ran]
    exact ⟨settled_nodes settled nodes, fun _ => rfl, fun impossible => absurd rfl impossible⟩
  | cons span rest =>
    rw [faulty] at builds
    rw [builds]
    exact ⟨settled, by simp, fun _ => ⟨span, rfl⟩⟩

/-- Every request ends. It is answered if it is about things that the program has, and otherwise it fails because an
identity means nothing or a call is malformed. -/
theorem request_ends (settled : s.Settled) (r : Request) :
    (s.perform r).2.Settled ∧ (r.Known s.program → (s.perform r).1 = none) ∧
      (¬ r.Known s.program → (∃ kind index, (s.perform r).1 = some (.danglingId kind index)) ∨
        ∃ span, (s.perform r).1 = some (.invalidInvocationTarget span)) := by
  have consistent := settled.consistent
  cases r with
  | question q =>
    by_cases known : q.Known s.program
    · have answered := ask_settled settled (known_question_runs consistent known)
      exact ⟨answered.2, fun _ => answered.1, fun unknown => absurd known unknown⟩
    · obtain ⟨_, _, dangles⟩ := unknown_question_dangles known
      have failed := ask_dangling settled dangles
      exact ⟨failed.2, fun known' => absurd known' known, fun _ => .inl failed.1⟩
  | bind scope e =>
    obtain ⟨after, answered, failed⟩ := bind_settled settled scope e
    exact ⟨after, answered, fun unknown => .inr (failed unknown)⟩
  | phase e phase =>
    have answered := ask_settled settled (expr_phase_runs consistent e phase)
    exact ⟨answered.2, fun _ => answered.1, fun unknown => absurd trivial unknown⟩
  | effects e access boundary =>
    have answered := ask_settled settled (expr_effects_run consistent e access boundary)
    exact ⟨answered.2, fun _ => answered.1, fun unknown => absurd trivial unknown⟩

theorem reachable_settled {options : Options} {modules : List Tree.Module}
    (reachable : Reachable options modules s) : s.Settled := by
  induction reachable with
  | start built => exact ⟨construct_consistent built, start_sound _⟩
  | next _ r ih => exact (request_ends ih r).1

end Session

end SemanticAnalysis
