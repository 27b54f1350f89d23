import SemanticAnalysis.Id
import SemanticAnalysis.Modifier
/-!
What an expression or a variable carries: a base type, whether null is allowed, and a modifier.
-/
namespace SemanticAnalysis

structure TypeRef where
  base : TypeId
  nullable : Bool := false
  modifier : Option TypeModifier := none
deriving DecidableEq

namespace TypeRef

def simple (base : TypeId) : TypeRef := { base }

def orNull (t : TypeRef) : TypeRef := { t with nullable := true }

def nonNull (t : TypeRef) : TypeRef := { t with nullable := false }

def nullableAny : TypeRef := (simple .any).orNull

end TypeRef

end SemanticAnalysis
