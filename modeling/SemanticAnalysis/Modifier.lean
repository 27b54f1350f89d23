/-!
Modifiers that declarations carry.
-/
namespace SemanticAnalysis

inductive TypeModifier where
  | mutable
  | readonly
  | immutable
deriving DecidableEq

def TypeModifier.text : TypeModifier → String
  | .mutable => "mutable"
  | .readonly => "readonly"
  | .immutable => "immutable"

structure FunctionModifiers where
  claimsPure : Bool := false
  claimsReadonly : Bool := false
  nothrow : Bool := false
  operator : Bool := false
  external : Bool := false
deriving DecidableEq

namespace FunctionModifiers

/-- A pure function writes nothing either, so the claim to be pure includes the claim to be read-only. -/
def promisesNoWrites (m : FunctionModifiers) : Bool := m.claimsPure || m.claimsReadonly

def bits (m : FunctionModifiers) : Nat :=
  m.claimsPure.toNat + 2 * m.claimsReadonly.toNat + 4 * m.nothrow.toNat + 8 * m.operator.toNat
    + 16 * m.external.toNat

end FunctionModifiers

end SemanticAnalysis
