import SemanticAnalysis.Proofs.Effects.Summaries
import SemanticAnalysis.Proofs.Session.Termination
/-!
Purity. After a compilation, and after whatever questions about effects, the summary of the reads of a function tells
whether the function is clean, and where it has effects if it is not.
-/
namespace SemanticAnalysis
open Running Analysis SemanticAnalysis.Bound

namespace Compilation

def session (c : Compilation) : Session := { program := c.program, facts := c.facts }

theorem bind_ok_parts {options : Options} {modules : List Tree.Module} {c : Compilation}
    (bound : bind options modules = .ok c) :
    ∃ ofConstruction ofPhases, Program.construct options modules = .ok (c.program, ofConstruction) ∧
      c.program.analyse {} = (.ok ofPhases, c.facts) ∧ c.findings = notices modules ++ ofConstruction ++ ofPhases := by
  unfold bind at bound
  cases built : Program.construct options modules with
  | error e =>
    rw [built] at bound
    cases bound
  | ok result =>
    obtain ⟨p, ofConstruction⟩ := result
    rw [built, ok_bind] at bound
    dsimp only at bound
    split at bound
    · rename_i ofPhases facts ran
      cases bound
      exact ⟨ofConstruction, ofPhases, rfl, ran, rfl⟩
    · cases bound

end Compilation

def Question.AsksEffects : Question → Prop
  | .summary .. | .isClean .. => True
  | _ => False

namespace Session

def after (s : Session) (questions : List Question) : Session :=
  questions.foldl (fun s q => (s.answer q).2) s

structure Upright (p : Program) (links : Links) (I : Facts → Prop) (s : Session) : Prop where
  program : s.program = p
  sound : Facts.Sound p {} s.facts
  upright : Facts.Upright p links I {} s.facts

section Questions
variable {p : Program} {links : Links} {I : Facts → Prop} (ground : Groundwork p links I) (consistent : p.Consistent)
  {modules : List Tree.Module} {ds : List Construction.Declared} (lexical : p.Lexical modules ds)
  (faithful : links.Faithful p)
include ground consistent lexical faithful

theorem effects_maintain {q : Question} (asks : q.AsksEffects) :
    Maintains (Facts.Upright p links I {}) (q.answer p) := by
  cases q with
  | summary access f =>
    change Maintains _ (Answer.summary <$> p.summary access f)
    rw [map_eq_pure_bind]
    apply ensures_bind (summary_ensures ground consistent lexical faithful access f)
    intro answer _
    exact maintains_pure _
  | isClean access f =>
    change Maintains _ (Answer.clean <$> p.isClean access f)
    rw [map_eq_pure_bind]
    apply maintains_bind _ (fun _ => maintains_pure _)
    apply ensures_bind (summary_ensures ground consistent lexical faithful access f)
    intro answer _
    exact maintains_pure _
  | _ => exact asks.elim

theorem answer_upright {s : Session} (before : s.Upright p links I) {q : Question} (asks : q.AsksEffects) :
    (s.answer q).2.Upright p links I := by
  obtain ⟨rfl, sound, upright⟩ := before
  unfold answer ask
  by_cases known : q.Known s.program
  · obtain ⟨answer, after, ran, sound', _⟩ := known_question_runs consistent known s.facts sound
    rw [ran]
    exact ⟨rfl, sound', (effects_maintain ground consistent lexical faithful asks s.facts upright answer after ran).1⟩
  · obtain ⟨_, _, fails⟩ := unknown_question_dangles known
    rw [fails]
    exact ⟨rfl, sound, upright⟩

theorem after_upright {s : Session} (before : s.Upright p links I) {questions : List Question}
    (asks : ∀ q ∈ questions, q.AsksEffects) : (s.after questions).Upright p links I := by
  induction questions generalizing s with
  | nil => exact before
  | cons q rest ih =>
    have first := answer_upright ground consistent lexical faithful before (asks q (by simp))
    exact ih first (fun r later => asks r (by simp [later]))

theorem summary_answered {s : Session} (before : s.Upright p links I) (access : Access) {g : FunctionId}
    (there : p.HasFunction g) :
    ∃ summary, (s.answer (.summary access g)).1 = .ok (.summary (some summary)) ∧ p.Right links access g summary := by
  obtain ⟨rfl, sound, upright⟩ := before
  obtain ⟨answer, after, ran, _⟩ := summary_succeeds consistent access there s.facts sound
  obtain ⟨_, summary, rfl, right⟩ :=
    summary_told ground consistent lexical faithful access g s.facts upright answer after ran
  refine ⟨summary, ?_, right⟩
  change ((Answer.summary <$> s.program.summary access g) s.facts).1 = _
  rw [run_map, ran]

end Questions

end Session

theorem validation_upright {p : Program} (consistent : p.Consistent) {modules : List Tree.Module}
    {ds : List Construction.Declared} (lexical : p.Lexical modules ds) {typed facts : Facts} {found : List Diagnostic}
    (ready : typed.Ready p) (ran : p.runPhaseAll .validation p.declarations typed = (.ok found, facts)) :
    Facts.Upright p typed.links (Facts.Settled p typed.links) {} facts := by
  have validates := validation_maintains (settled_groundwork _ _) consistent lexical (ready_faithful lexical ready)
  exact (run_phase_all_maintains (fun d _ => validates d) typed (ready_upright ready) found facts ran).1

namespace Compilation

theorem session_upright {options : Options} {modules : List Tree.Module} {c : Compilation}
    (bound : bind options modules = .ok c) :
    c.program.Consistent ∧ (∃ ds, c.program.Lexical modules ds) ∧ c.facts.links.Faithful c.program ∧
      c.session.Upright c.program c.facts.links (Facts.Settled c.program c.facts.links) := by
  obtain ⟨findings, found, built, ran, _⟩ := bind_ok_parts bound
  have consistent := construct_consistent built
  obtain ⟨_, ds, lexical⟩ := construct_lexical built
  obtain ⟨_, _, _, typed, _, ran₁, ran₂, ran₃, _⟩ := analyse_phases ran
  have ready := early_phases_ready lexical ran₁ ran₂
  have faithful := ready_faithful lexical ready
  have upright := validation_upright consistent lexical ready ran₃
  rw [← upright.ground.tables] at faithful upright
  refine ⟨consistent, ⟨ds, lexical⟩, faithful, rfl, ?_, upright⟩
  obtain ⟨again, facts, ran', sound⟩ := analyse_start_ok consistent
  rw [ran] at ran'
  cases ran'
  exact sound

end Compilation

/-- After a compilation and any questions about effects, the summary of what a function reads says that it is clean if
and only if the function is. For a function with a body it lists the places of the effects. -/
theorem purity_is_the_least_fixed_point {options : Options} {modules : List Tree.Module} {c : Compilation}
    (bound : Compilation.bind options modules = .ok c) {questions : List Question}
    (asks : ∀ q ∈ questions, q.AsksEffects) {g : FunctionId} {f : Function} (found : c.program.functions[g.index]? = some f) :
    ∃ summary, ((c.session.after questions).answer (.summary .read g)).1 = .ok (.summary (some summary)) ∧
      (summary.clean = true ↔ c.program.Clean c.facts.links .read g) ∧
      ∀ body, f.body = some body → summary.offending = c.program.offending c.facts.links .read f body := by
  obtain ⟨consistent, ⟨ds, lexical⟩, faithful, before⟩ := Compilation.session_upright bound
  have upright := Session.after_upright (settled_groundwork _ _) consistent lexical faithful before asks
  have there : c.program.HasFunction g := (Array.getElem?_eq_some_iff.mp found).1
  obtain ⟨summary, answered, right⟩ := Session.summary_answered (settled_groundwork _ _) consistent lexical faithful
    upright .read there
  exact ⟨summary, answered, right.clean, fun body written => right.offending f body found written⟩

/-- `reader` reads a variable of the module, `even` and `odd` call each other, `start` calls one of them, and `twice`
adds up what `zero` returns. -/
def Tree.recursive : Tree.Module :=
  { path := []
    imports := []
    items := [Tree.initialized "total" (.number (.int 0) {}), Tree.returning "reader" (Tree.name "total"),
      Tree.returning "even" (Tree.call "odd"), Tree.returning "odd" (Tree.call "even"),
      Tree.returning "start" (Tree.call "even"), Tree.returning "zero" (.number (.int 0) {}),
      Tree.returning "twice" (.binary (Tree.call "zero") .add (Tree.call "zero") {})]
    notices := []
    span := {} }

def Compilation.verdict (c : Compilation) (questions : List Question) (g : Nat) : Option Bool :=
  match ((c.session.after questions).answer (.summary .read ⟨g⟩)).1 with
  | .ok (.summary (some summary)) => some summary.clean
  | _ => none

theorem cycles_are_not_pure : ∃ c, Compilation.bind {} [Tree.recursive] = .ok c ∧
    ¬c.program.Clean c.facts.links .read ⟨21⟩ ∧ ¬c.program.Clean c.facts.links .read ⟨22⟩ ∧
    ¬c.program.Clean c.facts.links .read ⟨23⟩ ∧ ¬c.program.Clean c.facts.links .read ⟨24⟩ ∧
    c.program.Clean c.facts.links .read ⟨25⟩ ∧ c.program.Clean c.facts.links .read ⟨26⟩ := by
  -- the functions with smaller numbers are built in
  let questions : List Question := [.isClean .read ⟨23⟩, .summary .write ⟨24⟩, .summary .read ⟨99⟩]
  have evaluated : (Compilation.bind {} [Tree.recursive]).toOption.map (fun c =>
      (c.program.functions.size, [21, 22, 23, 24, 25, 26].map (c.verdict questions)))
      = some (27, [false, false, false, false, true, true].map some) := by decide +kernel
  cases bound : Compilation.bind {} [Tree.recursive] with
  | error e =>
    rw [bound] at evaluated
    cases evaluated
  | ok c =>
    rw [bound] at evaluated
    obtain ⟨size, verdicts⟩ := Prod.mk.inj (Option.some.inj evaluated)
    have asks : ∀ q ∈ questions, q.AsksEffects := by simp [questions, Question.AsksEffects]
    have told : ∀ g b, g < 27 → c.verdict questions g = some b →
        (c.program.Clean c.facts.links .read ⟨g⟩ ↔ b = true) := by
      intro g b there verdict
      have found : c.program.functions[g]? = some _ := Array.getElem?_eq_getElem (by omega)
      obtain ⟨summary, answered, clean, _⟩ := purity_is_the_least_fixed_point bound asks (g := ⟨g⟩) found
      unfold Compilation.verdict at verdict
      rw [answered] at verdict
      cases verdict
      exact clean.symm
    simp only [List.map_cons, List.map_nil, List.cons.injEq, and_true] at verdicts
    obtain ⟨reader, even, odd, start, zero, twice⟩ := verdicts
    refine ⟨c, rfl, ?_⟩
    rw [told 21 false (by decide) reader, told 22 false (by decide) even, told 23 false (by decide) odd,
      told 24 false (by decide) start, told 25 true (by decide) zero, told 26 true (by decide) twice]
    decide

end SemanticAnalysis
