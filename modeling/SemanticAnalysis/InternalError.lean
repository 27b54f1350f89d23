import SemanticAnalysis.Span
/-!
Faults that stop the work: the tree was malformed, or an identity means nothing. Problems of the program under
analysis are findings and never stop it.
-/
namespace SemanticAnalysis

inductive InternalError where
  | invalidInvocationTarget (span : Span)
  | notASupertype (subtype supertype : String)
  | cyclicSupertypes (typeName : String)
  | noTypesGiven
  | danglingId (kind : String) (index : Nat)
  | unfinished
deriving DecidableEq

def InternalError.message : InternalError → String
  | .invalidInvocationTarget span =>
    "internal compiler error at " ++ span.text
      ++ ": invocation target is neither an identifier nor a member access"
  | .notASupertype subtype supertype =>
    "internal compiler error: '" ++ supertype ++ "' is not a supertype of '" ++ subtype ++ "'"
  | .cyclicSupertypes typeName =>
    "internal compiler error: supertypes of '" ++ typeName ++ "' form a cycle"
  | .noTypesGiven =>
    "internal compiler error: at least one type is required to compute a common ancestor"
  | .danglingId kind index =>
    "internal compiler error: dangling " ++ kind ++ " id " ++ toString index
  | .unfinished => "internal compiler error: analysis exceeded its bound"

end SemanticAnalysis
