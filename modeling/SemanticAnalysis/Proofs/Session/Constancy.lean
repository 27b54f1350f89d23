import SemanticAnalysis.Proofs.Analysis.Records
import SemanticAnalysis.Proofs.Session.Repetition
import SemanticAnalysis.Proofs.Session.Termination
/-!
Answers never change. Whatever is requested in a session, and in whatever order, facts that were found stay, and the
answer to a question about a declaration is on record once it has been given. So the same question gets the same answer
at every later time.
-/
namespace SemanticAnalysis
open Running Analysis SemanticAnalysis.Bound

variable {p : Program}

section Steady
variable {I : Facts → Prop} (steady : Steady p I)
include steady

theorem expr_phase_tidy (e : Expr) (phase : Phase) : Tidy I (e.runPhase p phase) := by
  cases phase with
  | resolution =>
    rw [Expr.runPhase, Expr.resolve_collect]
    exact resolve_nodes_tidy steady _
  | typing =>
    rw [Expr.runPhase, Expr.types_collect]
    exact type_nodes_tidy steady _
  | validation => exact tidy_pure _

theorem stmt_phase_tidy (s : Stmt) (phase : Phase) : Tidy I (s.runPhase p phase) := by
  cases phase with
  | resolution =>
    rw [Stmt.runPhase, Stmt.resolve_collect]
    exact resolve_steps_tidy steady _
  | typing =>
    rw [Stmt.runPhase, Stmt.types_collect]
    exact type_steps_tidy steady _
  | validation =>
    rw [Stmt.runPhase, Stmt.validate_collect]
    exact validate_steps_tidy steady _

theorem block_phase_tidy (b : Block) (phase : Phase) : Tidy I (b.runPhase p phase) := by
  cases phase with
  | resolution =>
    rw [Block.runPhase, Block.resolve_collect]
    exact resolve_steps_tidy steady _
  | typing =>
    rw [Block.runPhase, Block.types_collect]
    exact type_steps_tidy steady _
  | validation =>
    rw [Block.runPhase, Block.validate_collect]
    exact validate_steps_tidy steady _

section Questions
variable (consistent : p.Consistent)
include consistent

theorem part_phase_tidy (part : Part) (phase : Phase) : Tidy I (part.runPhase p phase) := by
  cases part with
  | declaration d => exact run_phase_tidy steady consistent d phase
  | body g =>
    apply tidy_look_up
    intro f
    split
    · exact block_phase_tidy steady _ phase
    · exact run_phase_tidy steady consistent (.function g) phase
  | statement g path =>
    apply tidy_look_up
    intro f
    split
    · exact stmt_phase_tidy steady _ phase
    · exact run_phase_tidy steady consistent (.function g) phase

theorem part_effects_tidy (part : Part) (access : Access) (boundary : ScopeId) :
    Tidy I (part.effects p access boundary) := by
  have body : ∀ g : FunctionId, Tidy I (do
      let f ← p.functionAt g
      Block.optionEffects p access (p.summary access) boundary f.body) := by
    intro g
    apply tidy_look_up
    intro f
    rw [Block.effects_option_collect]
    exact steps_effects_tidy steady consistent access boundary _
  cases part with
  | declaration d =>
    cases d with
    | function g => exact body g
    | «variable» v =>
      apply tidy_look_up
      intro var
      rw [Expr.effects_option_collect]
      exact nodes_effects_tidy steady consistent access boundary _
    | struct s =>
      apply tidy_look_up
      intro struct
      rw [Expr.effects_all_collect]
      exact nodes_effects_tidy steady consistent access _ _
  | body g => exact body g
  | statement g path =>
    apply tidy_look_up
    intro f
    split
    · rw [Stmt.effects_collect]
      exact steps_effects_tidy steady consistent access boundary _
    · exact tidy_pure _

omit consistent in
theorem return_type_tidy (g : FunctionId) : Tidy I (p.returnType g) :=
  ⟨grows_iff_agree.mpr ((type_source_grows p).2 g), (type_source_maintains steady).returnType g⟩

omit consistent in
theorem variable_type_tidy (v : VariableId) : Tidy I (p.variableType v) :=
  ⟨grows_iff_agree.mpr ((type_source_grows p).1 v), (type_source_maintains steady).variableType v⟩

theorem question_tidy (q : Question) : Tidy I (q.answer p) := by
  cases q with
  | analyse => exact tidy_map (analyse_tidy steady consistent)
  | phase part step => exact tidy_map (part_phase_tidy steady consistent part step)
  | effects part boundary =>
    apply tidy_bind (part_effects_tidy steady consistent part .read boundary)
    intro reads
    apply tidy_bind (part_effects_tidy steady consistent part .write boundary)
    intro writes
    exact tidy_pure _
  | returnType g => exact tidy_map (return_type_tidy steady g)
  | variableType v => exact tidy_map (variable_type_tidy steady v)
  | summary access g => exact tidy_map (summary_tidy steady consistent access g)
  | isClean access g => exact tidy_map (tidy_bind (summary_tidy steady consistent access g) (fun _ => tidy_pure _))
  | _ => exact tidy_look_up _ (fun _ => tidy_pure _)

end Questions

end Steady

/-- The question is about one declaration, so that its answer is on record once it has been given. -/
def Question.Lasting : Question → Prop
  | .phase (.declaration _) _ => True
  | q => q.AsksFact

namespace Session

inductive Step : Session → Session → Prop
  | request (s : Session) (r : Request) : Step s (s.perform r).2

/-- Nothing is in progress, and where typing is done its result is on record. -/
structure Orderly (s : Session) : Prop where
  settled : s.Settled
  recorded : s.facts.Recorded

/-- What is known in one session is known in another one about the same program. -/
structure Continues (s t : Session) : Prop where
  program : ∃ nodes, t.program = { s.program with nodes }
  facts : s.facts.Extends t.facts

theorem continues_refl (s : Session) : s.Continues s := ⟨⟨s.program.nodes, rfl⟩, Facts.extends_refl _⟩

variable {s t : Session}

theorem continues_trans {u : Session} (first : s.Continues t) (second : t.Continues u) : s.Continues u := by
  obtain ⟨n, same⟩ := first.program
  obtain ⟨m, same'⟩ := second.program
  exact ⟨⟨m, by rw [same', same]⟩, Facts.extends_trans first.facts second.facts⟩

theorem Orderly.idle (orderly : s.Orderly) : ∀ k, s.facts.phases.state k ≠ .inProgress := by
  intro k running
  have impossible := (orderly.settled.sound.running.phases k).mp running
  simp [Cells.state] at impossible

theorem Orderly.rested (orderly : s.Orderly) : ∀ k, s.facts.summaries.state k ≠ .inProgress := by
  intro k running
  have impossible := (orderly.settled.sound.running.summaries k).mp running
  simp [Cells.state] at impossible

theorem ask_continues {α : Type} (orderly : s.Orderly) {work : Analysis α}
    (tidy : Tidy Facts.Recorded work) (ends : Runs (Facts.Sound s.program {}) work ∨ ∃ d, Dangles d work) :
    s.Continues (s.ask work).2 ∧ (s.ask work).2.Orderly := by
  have grows := tidy.grows s.facts
  rcases ends with runs | dangles
  · obtain ⟨a, after, ran, sound, _⟩ := runs s.facts orderly.settled.sound
    have recorded := (tidy.maintains s.facts orderly.recorded a after ran).1
    rw [ran] at grows
    unfold ask
    rw [ran]
    exact ⟨⟨⟨s.program.nodes, rfl⟩, grows⟩, ⟨orderly.settled.consistent, sound⟩, recorded⟩
  · obtain ⟨_, fails⟩ := dangles
    unfold ask
    rw [fails]
    exact ⟨continues_refl s, orderly⟩

theorem bind_continues (orderly : s.Orderly) (scope : ScopeId) (e : Tree.Expr) :
    s.Continues (s.bindExpr scope e).2 ∧ (s.bindExpr scope e).2.Orderly := by
  have settled := (bind_settled orderly.settled scope e).1
  unfold bindExpr at settled ⊢
  split
  · rename_i bound nodes ran
    rw [ran] at settled
    exact ⟨⟨⟨nodes, rfl⟩, Facts.extends_refl _⟩, settled, orderly.recorded⟩
  · exact ⟨continues_refl s, orderly⟩

/-- A step that is not the binding of an expression is some work, which ends well or fails before it has begun. -/
theorem step_work (consistent : s.program.Consistent) (step : s.Step t) :
    (∃ scope e, t = (s.bindExpr scope e).2) ∨ ∃ (α : Type) (work : Analysis α), t = (s.ask work).2 ∧
      (∀ I, Steady s.program I → Tidy I work) ∧ (Runs (Facts.Sound s.program {}) work ∨ ∃ d, Dangles d work) := by
  cases step with
  | request r =>
    cases r with
    | question q =>
      refine .inr ⟨_, q.answer s.program, rfl, fun I steady => question_tidy steady consistent q, ?_⟩
      by_cases known : q.Known s.program
      · exact .inl (known_question_runs consistent known)
      · obtain ⟨d, _, dangles⟩ := unknown_question_dangles known
        exact .inr ⟨d, dangles⟩
    | bind scope e => exact .inl ⟨scope, e, rfl⟩
    | phase e step =>
      exact .inr ⟨_, e.runPhase s.program step, rfl, fun I steady => expr_phase_tidy steady e step,
        .inl (expr_phase_runs consistent e step)⟩
    | effects e access boundary =>
      refine .inr ⟨_, e.effects s.program access (s.program.summary access) boundary, rfl, ?_,
        .inl (expr_effects_run consistent e access boundary)⟩
      intro I steady
      rw [Expr.effects_collect]
      exact nodes_effects_tidy steady consistent access boundary _

theorem step_continues (orderly : s.Orderly) (step : s.Step t) : s.Continues t ∧ t.Orderly := by
  rcases step_work orderly.settled.consistent step with ⟨scope, e, rfl⟩ | ⟨α, work, rfl, tidy, ends⟩
  · exact bind_continues orderly scope e
  · exact ask_continues orderly (tidy _ (recorded_steady _)) ends

theorem steps_continue (orderly : s.Orderly) (steps : Relation.ReflTransGen Step s t) :
    s.Continues t ∧ t.Orderly := by
  induction steps with
  | refl => exact ⟨continues_refl s, orderly⟩
  | tail _ step ih =>
    obtain ⟨before, orderly'⟩ := ih
    obtain ⟨next, orderly''⟩ := step_continues orderly' step
    exact ⟨continues_trans before next, orderly''⟩

theorem construct_orderly {options : Options} {modules : List Tree.Module} {findings : List Diagnostic}
    (built : Program.construct options modules = .ok (p, findings)) : Orderly { program := p } :=
  ⟨⟨construct_consistent built, Compilation.start_sound _⟩, Facts.recorded_empty⟩

theorem map_stays {α β : Type} {x y : Analysis α} {f : α → β} {facts after later : Facts}
    {r : Except InternalError β} (ran : (f <$> x) facts = (r, after))
    (stays : ∀ a, x facts = (a, after) → (y later).1 = a) : ((f <$> y) later).1 = r := by
  have mapped : ∀ (z : Analysis α) now, (f <$> z) now = ((z now).1.map f, (z now).2) := by
    intro z now
    rw [run_map]
    rcases z now with ⟨a, _⟩
    cases a <;> rfl
  rw [mapped] at ran ⊢
  obtain ⟨rfl, rfl⟩ := Prod.mk.inj ran
  exact congrArg (Except.map f) (stays _ rfl)

theorem look_up_stays {α β : Type} {x : Except InternalError α} {f : α → β} {facts after later : Facts}
    {r : Except InternalError β} (ran : (liftM x >>= fun a => pure (f a) : Analysis β) facts = (r, after)) :
    ((liftM x >>= fun a => pure (f a) : Analysis β) later).1 = r := by
  cases x with
  | ok a =>
    cases ran
    rfl
  | error e =>
    cases ran
    rfl

section Stays
variable {facts after later : Facts} (orderly : Orderly ⟨p, facts⟩) (grows : after.Extends later) (nodes : Nat)
include orderly grows

theorem return_type_stays {g : FunctionId} {a : Except InternalError (Option TypeRef)}
    (ran : p.returnType g facts = (a, after)) : (Program.returnType { p with nodes } g later).1 = a := by
  by_cases there : p.HasFunction g
  · have answers := (type_source_answers orderly.settled.consistent).returnType {} (few_typings {}) g there
    obtain ⟨t, _, answered, _⟩ := answers facts orderly.settled.sound
    cases ran.symm.trans answered
    have kept := return_type_kept (types_within_maintain (recorded_robust p) _) orderly.idle orderly.recorded ran
    have known : (p.givenReturn g).or (later.returnTypes.find? g) = some t := by
      cases given : p.givenReturn g with
      | some s => simpa [given] using kept
      | none =>
        rw [given] at kept
        exact grows.returnTypes _ _ kept
    exact congrArg Prod.fst (return_type_known (p := { p with nodes }) there known)
  · have missing := function_at_missing there
    cases ran.symm.trans (run_look_up_error missing)
    exact congrArg Prod.fst (run_look_up_error missing)

theorem variable_type_stays {v : VariableId} {a : Except InternalError (Option TypeRef)}
    (ran : p.variableType v facts = (a, after)) : (Program.variableType { p with nodes } v later).1 = a := by
  have consistent := orderly.settled.consistent
  by_cases there : p.HasVariable v
  · have answers := (type_source_answers consistent).variableType {} (few_typings {}) v there
    obtain ⟨t, _, answered, _⟩ := answers facts orderly.settled.sound
    cases ran.symm.trans answered
    have kept := variable_type_kept (types_within_maintain (recorded_robust p) _) orderly.idle orderly.recorded ran
    have known : (p.givenType v).or (later.variableTypes.find? v) = some t := by
      cases given : p.givenType v with
      | some s => simpa [given] using kept
      | none =>
        rw [given] at kept
        exact grows.variableTypes _ _ kept
    have consistent' := (Program.evolves_nodes consistent nodes).consistent
    exact congrArg Prod.fst (variable_type_known consistent' there known)
  · have missing := variable_at_missing there
    cases ran.symm.trans (run_look_up_error missing)
    exact congrArg Prod.fst (run_look_up_error missing)

theorem summary_stays {access : Access} {g : FunctionId} {a : Except InternalError (Option EffectSummary)}
    (ran : p.summary access g facts = (a, after)) : (Program.summary { p with nodes } access g later).1 = a := by
  by_cases there : p.HasFunction g
  · obtain ⟨_, _, answered, _⟩ :=
      summary_succeeds orderly.settled.consistent access there facts orderly.settled.sound
    cases ran.symm.trans answered
    obtain ⟨summary, rfl, known⟩ := summary_kept (orderly.rested _) ran
    have here : p.functions[g.index]? = some p.functions[g.index] := Array.getElem?_eq_getElem there
    exact congrArg Prod.fst (summary_known (p := { p with nodes }) here (grows.summaries.computed _ _ known))
  · have missing := function_at_missing there
    cases ran.symm.trans (run_look_up_error missing)
    exact congrArg Prod.fst (run_look_up_error missing)

theorem phase_stays {d : Declaration} {step : Phase} {a : Except InternalError (List Diagnostic)}
    (ran : p.runPhase d step facts = (a, after)) : (Program.runPhase { p with nodes } d step later).1 = a := by
  have there_iff : Program.HasDeclaration { p with nodes } d ↔ p.HasDeclaration d := by cases d <;> rfl
  by_cases there : p.HasDeclaration d
  · obtain ⟨_, _, answered, _⟩ := run_phase_runs orderly.settled.consistent there step facts orderly.settled.sound
    cases ran.symm.trans answered
    have known := run_phase_reports (orderly.idle _) ran
    exact congrArg Prod.fst (run_phase_known (there_iff.mpr there) (grows.phases.computed _ _ known))
  · cases ran.symm.trans (run_phase_dangles there step facts)
    exact congrArg Prod.fst (run_phase_dangles (mt there_iff.mp there) step later)

theorem answer_stays {q : Question} (lasting : q.Lasting) {a : Except InternalError Answer}
    (ran : q.answer p facts = (a, after)) : (q.answer { p with nodes } later).1 = a := by
  cases q with
  | phase part step =>
    cases part with
    | declaration d => exact map_stays ran (fun _ asked => phase_stays orderly grows nodes asked)
    | _ => exact lasting.elim
  | signature g =>
    change ((liftM (p.functionAt g) >>= fun f => pure (Answer.signature (p.signature f)) : Analysis _) later).1 = a
    exact look_up_stays ran
  | memberType s name =>
    change ((liftM (p.structAt s) >>= fun s => pure (Answer.type (p.memberType s name)) : Analysis _) later).1 = a
    exact look_up_stays ran
  | returnType g => exact map_stays ran (fun _ asked => return_type_stays orderly grows nodes asked)
  | variableType v => exact map_stays ran (fun _ asked => variable_type_stays orderly grows nodes asked)
  | summary access g => exact map_stays ran (fun _ asked => summary_stays orderly grows nodes asked)
  | isClean access g =>
    refine map_stays ran (fun _ asked => ?_)
    have mapped : ∀ q : Program, q.isClean access g = Option.map EffectSummary.clean <$> q.summary access g := by
      intro q
      rw [map_eq_pure_bind]
      rfl
    rw [mapped] at asked ⊢
    exact map_stays asked (fun _ asked => summary_stays orderly grows nodes asked)
  | _ => exact lasting.elim

end Stays

/-- At every time in a session nothing is in progress, summaries are given in full, questions about what the program has
are answered, and what is asked about a declaration is answered the same at every later time. -/
theorem answers_stay {options : Options} {modules : List Tree.Module} {findings : List Diagnostic}
    (built : Program.construct options modules = .ok (p, findings)) {s : Session}
    (steps : Relation.ReflTransGen Step { program := p } s) :
    ((∀ k, s.facts.phases.state k ≠ .inProgress) ∧ ∀ k, s.facts.summaries.state k ≠ .inProgress) ∧
      (∀ access g, s.program.HasFunction g → ∃ summary,
        (s.answer (.summary access g)).1 = .ok (.summary (some summary)) ∧
        (s.answer (.isClean access g)).1 = .ok (.clean (some summary.clean))) ∧
      (∀ q : Question, q.Known s.program → ∃ answer, (s.answer q).1 = .ok answer) ∧
      ∀ q : Question, q.Lasting →
        ∀ later, Relation.ReflTransGen Step (s.answer q).2 later → (later.answer q).1 = (s.answer q).1 := by
  obtain ⟨_, orderly⟩ := steps_continue (construct_orderly built) steps
  have consistent := orderly.settled.consistent
  refine ⟨⟨orderly.idle, orderly.rested⟩, ?_, ?_, ?_⟩
  · intro access g there
    obtain ⟨answer, after, asked, _⟩ := summary_succeeds consistent access there s.facts orderly.settled.sound
    obtain ⟨summary, rfl, _⟩ := summary_kept (orderly.rested _) asked
    have clean : s.program.isClean access g s.facts = (.ok (some summary.clean), after) := run_bind_ok asked
    refine ⟨summary, ?_, ?_⟩
    · simp only [Session.answer, ask, Question.answer, run_map, asked]
    · simp only [Session.answer, ask, Question.answer, run_map, clean]
  · intro q known
    obtain ⟨answer, after, ran, _⟩ := known_question_runs consistent known s.facts orderly.settled.sound
    refine ⟨answer, ?_⟩
    unfold Session.answer ask
    rw [ran]
  · intro q lasting later further
    have orderly' := (step_continues orderly (.request s (.question q))).2
    obtain ⟨⟨nodes, same⟩, grows⟩ := (steps_continue orderly' further).1
    have stays := answer_stays orderly grows nodes lasting rfl
    change later.program = { s.program with nodes } at same
    unfold Session.answer ask
    rw [same]
    exact stays

theorem circles_answers_stay : ∃ p findings, Program.construct {} [Tree.circles] = .ok (p, findings) ∧
    ∃ summary first later,
      Session.answer { program := p } (.summary .read ⟨21⟩) = (.ok (.summary (some summary)), first) ∧
      later = ((first.perform (.question .analyse)).2.perform (.bind ⟨3⟩ (Tree.call "f"))).2 ∧
      (later.answer (.summary .read ⟨21⟩)).1 = .ok (.summary (some summary)) := by
  have evaluated : (Program.construct {} [Tree.circles]).toOption.map (fun built => built.1.functions.size)
      = some 24 := by decide +kernel
  cases built : Program.construct {} [Tree.circles] with
  | error e =>
    rw [built] at evaluated
    cases evaluated
  | ok result =>
    obtain ⟨p, findings⟩ := result
    rw [built] at evaluated
    have size : p.functions.size = 24 := Option.some.inj evaluated
    have there : p.HasFunction ⟨21⟩ := by
      change 21 < p.functions.size
      omega
    obtain ⟨_, summaries, _, stays⟩ := answers_stay built .refl
    obtain ⟨summary, given, _⟩ := summaries .read ⟨21⟩ there
    refine ⟨p, findings, rfl, summary, _, _, Prod.ext given rfl, rfl, ?_⟩
    rw [← given]
    exact stays (.summary .read ⟨21⟩) trivial _ (.tail (.single (.request _ _)) (.request _ _))

end Session

end SemanticAnalysis
