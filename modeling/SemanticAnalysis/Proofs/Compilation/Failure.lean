import SemanticAnalysis.Compilation
import SemanticAnalysis.Proofs.Analysis.Success
import SemanticAnalysis.Proofs.Construction.Soundness
/-!
When a compilation fails. Construction fails at the first malformed call and at nothing else; what it gives is
consistent, and analysis of a consistent program succeeds.
-/
namespace SemanticAnalysis.Compilation
open Construction Analysis Facts

def failure? {α : Type} : Except InternalError α → Option InternalError
  | .ok _ => none
  | .error e => some e

variable (options : Options) (modules : List Tree.Module)

theorem construct_outcome :
    (∃ span rest, Tree.faults (Tree.calls modules) = span :: rest ∧
      Program.construct options modules = .error (.invalidInvocationTarget span)) ∨
    (Tree.faults (Tree.calls modules) = [] ∧
      ∃ p findings, Program.construct options modules = .ok (p, findings) ∧ p.Consistent) := by
  have builds := build_builds options modules
  unfold Builds at builds
  unfold Program.construct StateT.run
  cases faulty : Tree.faults (Tree.calls modules) with
  | nil =>
    rw [faulty] at builds
    obtain ⟨findings, p, ran, consistent⟩ := builds
    exact .inr ⟨rfl, p, findings, by rw [ran]; rfl, consistent⟩
  | cons span rest =>
    rw [faulty] at builds
    exact .inl ⟨span, rest, rfl, by rw [builds]; rfl⟩

theorem start_sound (p : Program) : Sound p {} {} := ⟨valid_empty, same_running_refl _⟩

theorem analyse_start_ok {p : Program} (consistent : p.Consistent) :
    ∃ findings facts, p.analyse {} = (.ok findings, facts) ∧ Sound p {} facts := by
  obtain ⟨findings, facts, ran, sound, _⟩ := analyse_runs consistent {} (start_sound p)
  exact ⟨findings, facts, ran, sound⟩

theorem bind_outcome :
    (∃ span rest, Tree.faults (Tree.calls modules) = span :: rest ∧
      bind options modules = .error (.invalidInvocationTarget span)) ∨
    (Tree.faults (Tree.calls modules) = [] ∧ ∃ c, bind options modules = .ok c) := by
  unfold bind
  rcases construct_outcome options modules with ⟨span, rest, faulty, failed⟩ | ⟨clear, p, findings, built, consistent⟩
  · exact .inl ⟨span, rest, faulty, by rw [failed]; rfl⟩
  · obtain ⟨ofPhases, facts, ran, _⟩ := analyse_start_ok consistent
    refine .inr ⟨clear, ⟨p, facts, notices modules ++ findings ++ ofPhases⟩, ?_⟩
    rw [built, Running.ok_bind]
    dsimp only
    rw [ran]
    rfl

/-- A compilation fails exactly if some call is malformed, and then at the place of the first such call. No other
fault is possible. -/
theorem bind_fails_at_first_malformed_call :
    ((∃ e, bind options modules = .error e) ↔ ∃ call ∈ Tree.calls modules, call.target.isCallable = false) ∧
      failure? (bind options modules) = ((Tree.calls modules).find? Tree.Call.isMalformed).map
        (fun call => .invalidInvocationTarget call.span) ∧
      (∀ subtype supertype, bind options modules ≠ .error (.notASupertype subtype supertype)) ∧
      (∀ typeName, bind options modules ≠ .error (.cyclicSupertypes typeName)) ∧
      bind options modules ≠ .error .noTypesGiven ∧
      ∀ kind index, bind options modules ≠ .error (.danglingId kind index) := by
  have heads : (Tree.faults (Tree.calls modules)).head? =
      ((Tree.calls modules).find? Tree.Call.isMalformed).map Tree.Call.span := by
    rw [Tree.faults, List.head?_map, List.head?_filter]
  have some_malformed : Tree.faults (Tree.calls modules) ≠ [] ↔
      ∃ call ∈ Tree.calls modules, call.target.isCallable = false := by
    simp [Tree.faults, Tree.Call.isMalformed]
  rcases bind_outcome options modules with ⟨span, rest, faulty, failed⟩ | ⟨clear, c, ended⟩
  · rw [faulty] at heads some_malformed
    obtain ⟨call, found, here⟩ := Option.map_eq_some_iff.mp heads.symm
    rw [failed, found, ← here]
    refine ⟨iff_of_true ⟨_, rfl⟩ (some_malformed.mp (by simp)), rfl, ?_, ?_, ?_, ?_⟩ <;> simp
  · rw [clear] at heads some_malformed
    rw [ended, Option.map_eq_none_iff.mp heads.symm]
    refine ⟨iff_of_false (by simp) (fun malformed => some_malformed.mpr malformed rfl), rfl, ?_, ?_, ?_, ?_⟩ <;> simp

end SemanticAnalysis.Compilation
