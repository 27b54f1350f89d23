import SemanticAnalysis.Id
import SemanticAnalysis.Span
/-!
Reads and writes of what lies outside a boundary.
-/
namespace SemanticAnalysis

inductive Access where
  | read
  | write
deriving DecidableEq

inductive EffectSource where
  | identifier (name : String)
  | invocation (function : String)
  | assignment
deriving DecidableEq

inductive EffectCause where
  | readsVariable (v : VariableId)
  | writesVariable (v : VariableId)
  | impureInvocation (f : FunctionId)
  | mutatingInvocation (f : FunctionId)
  | recursiveInvocation (f : FunctionId)
deriving DecidableEq

structure Effect where
  source : EffectSource
  span : Span
  cause : EffectCause
deriving DecidableEq

def Access.throughCall : Access → FunctionId → EffectCause
  | .read, f => .impureInvocation f
  | .write, f => .mutatingInvocation f

/-- What is known about the effects of a function. -/
structure EffectSummary where
  clean : Bool
  offending : List Span := []
  recursive : List (FunctionId × Span) := []
deriving DecidableEq

namespace EffectSummary

def recursiveCall? (e : Effect) : Option (FunctionId × Span) :=
  match e.cause with
  | .recursiveInvocation f => some (f, e.span)
  | _ => none

def ofEffects (effects : List Effect) : EffectSummary where
  clean := effects.isEmpty
  offending := (effects.map Effect.span).eraseDups
  recursive := effects.filterMap recursiveCall?

/-- A function without a body has the effects that it claims to have. -/
def assumed (clean : Bool) : EffectSummary := { clean }

end EffectSummary

end SemanticAnalysis
