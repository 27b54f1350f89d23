import SemanticAnalysis.Analysis.Validation
/-!
The three phases, over any part of a program and over all of it. A whole program is analysed phase by phase, and in
each phase declaration by declaration. A declaration that was analysed before, because another one needed it, gives
the findings it gave then, so every finding is collected once and in the order of the text.
-/
namespace SemanticAnalysis

namespace Bound

def Expr.runPhase (p : Program) (e : Expr) : Phase → Analysis (List Diagnostic)
  | .resolution => e.resolve p
  | .typing => e.assignTypes p p.typeSource
  | .validation => pure []

def Stmt.runPhase (p : Program) (s : Stmt) : Phase → Analysis (List Diagnostic)
  | .resolution => s.resolve p
  | .typing => s.assignTypes p p.typeSource
  | .validation => s.validate p

def Block.runPhase (p : Program) (b : Block) : Phase → Analysis (List Diagnostic)
  | .resolution => b.resolve p
  | .typing => b.assignTypes p p.typeSource
  | .validation => b.validate p

end Bound

namespace Program

def runPhase (p : Program) : Declaration → Phase → Analysis (List Diagnostic)
  | .function id, .resolution => p.resolveFunction id
  | .function id, .typing => p.typeFunction p.typeSource id
  | .function id, .validation => p.validateFunction id
  | .variable id, .resolution => p.resolveVariable id
  | .variable id, .typing => p.typeVariable p.typeSource id
  | .variable id, .validation => p.validateVariable id
  | .struct id, .resolution => p.resolveStruct id
  | .struct id, .typing => p.typeStruct p.typeSource id
  | .struct id, .validation => p.validateStruct id

def runPhaseAll (p : Program) (phase : Phase) : List Declaration → Analysis (List Diagnostic)
  | [] => pure []
  | d :: rest => do
    let first ← p.runPhase d phase
    let others ← p.runPhaseAll phase rest
    pure (first ++ others)

def runPhases (p : Program) : List Phase → Analysis (List Diagnostic)
  | [] => pure []
  | phase :: rest => do
    let first ← p.runPhaseAll phase p.declarations
    let others ← p.runPhases rest
    pure (first ++ others)

def analyse (p : Program) : Analysis (List Diagnostic) := p.runPhases Phase.all

end Program

end SemanticAnalysis
