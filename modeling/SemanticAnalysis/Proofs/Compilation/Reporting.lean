import SemanticAnalysis.Proofs.Rewording.Compilation
import SemanticAnalysis.Proofs.Typing.Dispatch
/-!
The options about reporting. They decide which findings are told and have no part in what is found out: two compilations
of one text under different options are compared step by step, and only the lists of findings differ.
-/
namespace SemanticAnalysis
open Running Analysis Diagnostics SemanticAnalysis.Bound

namespace Compilation
variable {keep : Diagnostic → Bool} {options options' : Options}

theorem bind_reports (reports : options.Reports Rewording.literal keep id options')
    (implicit : options'.implicitBuiltinImport = options.implicitBuiltinImport) (modules : List Tree.Module) :
    Alike (fun c c' => c.program.options = options ∧ c'.program = { c.program with options := options' } ∧ c.Agree c' ∧
        c'.findings = c.findings.filter keep)
      (bind options modules) (bind options' modules) := by
  have construction := Rewording.construct_follows Rewording.literal implicit modules
  rw [literal_modules] at construction
  refine alike_imp (bind_alike construction) (fun c c' bound bound' related => ?_)
  obtain ⟨kin, found, built, built'⟩ := related
  have reports := kin.reports reports
  obtain ⟨matched, told⟩ := bind_retells (fun _ => rfl) kin.mirrors reports bound bound' built built' rfl
  have agree := agree_of_matches (fun _ => rfl) kin.mirrors reports bound matched
  refine ⟨kin.first, (literal_kin kin).trans (by rw [← kin.scopes]), agree, ?_⟩
  unfold Retells at told
  rwa [List.map_id, List.map_id] at told

end Compilation

def Options.quiet (options : Options) : Options :=
  { options with reportAmbiguousOverloads := false, warnOnRecursivePurity := false }

theorem quiet_reports (options : Options) :
    options.Reports Rewording.literal (fun d => !d.error.cause.isOptional) id options.quiet where
  plain d plain := by rw [plain]; rfl
  ambiguous _ _ _ := Bool.and_false _
  recursive _ _ := Bool.and_false _
  initializer _ e := by rw [literal_value]

def Diagnostic.isAmbiguity (d : Diagnostic) : Bool :=
  d.isError && match d.error.cause with
    | .ambiguousInvocation _ _ => true
    | _ => false

theorem ambiguities_report (options : Options) :
    ({ options with reportAmbiguousOverloads := true } : Options).Reports Rewording.literal (fun d => !d.isAmbiguity) id
      { options with reportAmbiguousOverloads := false } where
  plain d plain := by
    unfold Diagnostic.isAmbiguity
    split <;> rename_i same
    · rw [same] at plain
      cases plain
    · simp
  ambiguous _ _ _ := rfl
  recursive _ _ := Bool.and_true _
  initializer _ e := by rw [literal_value]

theorem recursions_report (options : Options) :
    ({ options with warnOnRecursivePurity := true } : Options).Reports Rewording.literal
      (fun d => !d.isRecursionWarning) id { options with warnOnRecursivePurity := false } where
  plain d plain := by
    unfold Diagnostic.isRecursionWarning
    split <;> rename_i same
    · rw [same] at plain
      cases plain
    · simp
  ambiguous _ _ _ := Bool.and_true _
  recursive _ _ := rfl
  initializer _ e := by rw [literal_value]

open Compilation

/-- Whatever the options about reporting, a compilation fails alike or builds the same program and finds out the same
facts. Without an option its findings are missing, and all others are there in the same order. -/
theorem reporting_options_only_report (options options' : Options)
    (implicit : options'.implicitBuiltinImport = options.implicitBuiltinImport) (modules : List Tree.Module) :
    Alike (fun c c' => c'.program = { c.program with options := options' } ∧ c.Agree c')
        (bind options modules) (bind options' modules) ∧
      Alike (fun c c' => c'.findings = c.findings.filter (fun d => !d.isAmbiguity))
        (bind { options with reportAmbiguousOverloads := true } modules)
        (bind { options with reportAmbiguousOverloads := false } modules) ∧
      Alike (fun c c' => c'.findings = c.findings.filter (fun d => !d.isRecursionWarning))
        (bind { options with warnOnRecursivePurity := true } modules)
        (bind { options with warnOnRecursivePurity := false } modules) := by
  refine ⟨?_, ?_, ?_⟩
  · -- both are compared with the compilation without either option
    have first := bind_reports (quiet_reports options) rfl modules
    have second := bind_reports (quiet_reports options') rfl modules
    rw [show options'.quiet = options.quiet by unfold Options.quiet; rw [implicit]] at second
    refine alike_imp (alike_meet first second) (fun c c' _ _ related => ?_)
    obtain ⟨quiet, ⟨_, program, agree, _⟩, own, program', agree', _⟩ := related
    refine ⟨?_, agree.trans agree'.symm⟩
    rw [program] at program'
    have same : c'.program = { c.program with options := c'.program.options } := by
      cases here : c.program
      cases there : c'.program
      rw [here, there] at program'
      simp_all
    rw [same, own]
  · exact alike_imp (bind_reports (ambiguities_report options) rfl modules) fun _ _ _ _ related => related.2.2.2
  · exact alike_imp (bind_reports (recursions_report options) rfl modules) fun _ _ _ _ related => related.2.2.2

theorem rivals_are_reported_or_not : ∃ c alone neither,
    bind {} [Tree.overloaded, Tree.layers] = .ok c ∧
      bind { reportAmbiguousOverloads := false } [Tree.overloaded, Tree.layers] = .ok alone ∧
      bind (Options.quiet {}) [Tree.overloaded, Tree.layers] = .ok neither ∧
      (Options.quiet {}).implicitBuiltinImport = ({} : Options).implicitBuiltinImport ∧
      neither.program = { c.program with options := Options.quiet {} } ∧ c.Agree neither ∧
      alone.findings = c.findings.filter (fun d => !d.isAmbiguity) ∧
      (c.findings.length, alone.findings.length, neither.findings.length) = (9, 8, 7) := by
  have counted : ([{}, { reportAmbiguousOverloads := false }, Options.quiet {}] : List Options).map (fun options =>
      (bind options [Tree.overloaded, Tree.layers]).toOption.map (fun c => c.findings.length))
      = [some 9, some 8, some 7] := by decide +kernel
  obtain ⟨same, ambiguous, _⟩ := reporting_options_only_report {} (Options.quiet {}) rfl [Tree.overloaded, Tree.layers]
  simp only [List.map_cons, List.map_nil, List.cons.injEq, and_true] at counted
  obtain ⟨first, second, third⟩ := counted
  generalize bind {} [Tree.overloaded, Tree.layers] = x at *
  generalize bind { reportAmbiguousOverloads := false } [Tree.overloaded, Tree.layers] = y at *
  generalize bind (Options.quiet {}) [Tree.overloaded, Tree.layers] = z at *
  cases same with
  | error e => cases first
  | ok related =>
    cases ambiguous with
    | ok filtered =>
      simp only [Except.toOption, Option.map_some, Option.some.injEq] at first second third
      exact ⟨_, _, _, rfl, rfl, rfl, rfl, related.1, related.2, filtered, by rw [first, second, third]⟩

end SemanticAnalysis
