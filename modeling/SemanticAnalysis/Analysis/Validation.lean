import SemanticAnalysis.Analysis.Effects
/-!
The third phase: a function that claims to be pure must not read outside its scope, and one that claims to be pure or
read-only must not write there. Expressions have no findings of their own in this phase.
-/
namespace SemanticAnalysis

namespace Program

def validateVariable (p : Program) (id : VariableId) : Analysis (List Diagnostic) := do
  let _ ← p.variableAt id
  Analysis.once (.variable id) .validation (pure [])

def validateStruct (p : Program) (id : StructId) : Analysis (List Diagnostic) := do
  let _ ← p.structAt id
  Analysis.once (.struct id) .validation (pure [])

end Program

namespace Bound

mutual

def Stmt.validate (p : Program) : Stmt → Analysis (List Diagnostic)
  | .variable id _ => p.validateVariable id
  | .branch _ thenBranch elseBranch _ => do
    let ofThen ← thenBranch.validate p
    let ofElse ← Block.validateOption p elseBranch
    pure (ofThen ++ ofElse)
  | .block body => body.validate p
  | _ => pure []

def Block.validate (p : Program) : Block → Analysis (List Diagnostic)
  | .mk stmts _ => Stmt.validateAll p stmts

def Block.validateOption (p : Program) : Option Block → Analysis (List Diagnostic)
  | none => pure []
  | some block => block.validate p

def Stmt.validateAll (p : Program) : List Stmt → Analysis (List Diagnostic)
  | [] => pure []
  | s :: rest => do
    let first ← s.validate p
    let others ← Stmt.validateAll p rest
    pure (first ++ others)

end

end Bound

def dropRepeats {α : Type} [DecidableEq α] : List α → List α
  | [] => []
  | [x] => [x]
  | x :: y :: rest => if x = y then dropRepeats (y :: rest) else x :: dropRepeats (y :: rest)

namespace Program

structure Violation where
  cause : Cause
  recursive : List (FunctionId × Span)

def violationCause (f : Bound.Function) (offending : List Span) : Access → Cause
  | .read => .purityViolation f.name offending.length offending
  | .write => .readonlyViolation f.name offending.length offending

def violation? (p : Program) (access : Access) (f : Bound.Function) : Analysis (Option Violation) :=
  if claimsNone access f.modifiers then do
    match ← p.summary access f.id with
    | none => pure none
    | some summary =>
      if summary.clean then pure none
      else pure (some ⟨violationCause f summary.offending access, summary.recursive⟩)
  else pure none

def recursionWarning (p : Program) (call : FunctionId × Span) : Except InternalError Diagnostic := do
  let callee ← p.functionAt call.1
  pure (.ofWarning (.recursivePurityCheck callee.name) call.2)

/-- Warnings about recursive calls, by place. -/
def recursionWarnings (p : Program) (calls : List (FunctionId × Span)) :
    Except InternalError (List Diagnostic) :=
  if p.options.warnOnRecursivePurity then
    (dropRepeats (stableSort (fun a b => a.2.startsBy b.2) calls)).mapM p.recursionWarning
  else pure []

def validateClaims (p : Program) (f : Bound.Function) : Analysis (List Diagnostic) := do
  let reads ← p.violation? .read f
  let writes ← p.violation? .write f
  let violations := reads.toList ++ writes.toList
  let warnings ← p.recursionWarnings (violations.flatMap Violation.recursive)
  pure (violations.map (fun v => Diagnostic.ofError v.cause f.nameSpan) ++ warnings)

def validateBody (p : Program) (f : Bound.Function) : Analysis (List Diagnostic) :=
  match f.body with
  | none => pure []
  | some body => do
    let ofBody ← body.validate p
    let ofClaims ← p.validateClaims f
    pure (ofBody ++ ofClaims)

def validateFunction (p : Program) (id : FunctionId) : Analysis (List Diagnostic) := do
  let f ← p.functionAt id
  Analysis.once (.function id) .validation (p.validateBody f)

end Program

end SemanticAnalysis
