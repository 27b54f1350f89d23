import SemanticAnalysis.Analysis.Phases
import SemanticAnalysis.Bound.Construction
/-!
Binding and analysing the modules of one compilation.
-/
namespace SemanticAnalysis

structure Compilation where
  program : Program
  facts : Facts := {}
  findings : List Diagnostic := []

namespace Compilation

def hasErrors (c : Compilation) : Bool := Diagnostics.hasErrors c.findings

def notices (modules : List Tree.Module) : List Diagnostic :=
  modules.flatMap (fun m => m.notices.map (fun n => .forwarded n.severity n.message n.span))

/-- Binds and analyses modules. The findings are those passed on, those of construction and those of the phases. -/
def bind (options : Options) (modules : List Tree.Module) : Except InternalError Compilation := do
  let (program, ofConstruction) ← Program.construct options modules
  match program.analyse {} with
  | (.ok ofPhases, facts) => pure ⟨program, facts, notices modules ++ ofConstruction ++ ofPhases⟩
  | (.error e, _) => throw e

end Compilation

end SemanticAnalysis
