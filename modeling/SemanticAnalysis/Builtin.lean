import SemanticAnalysis.Modifier
/-!
The built-in operator functions. Their types are named by the simple names of the built-in types.
-/
namespace SemanticAnalysis

structure BuiltinParam where
  type : String
  nullable : Bool := false
deriving DecidableEq

structure BuiltinFunction where
  name : String
  receiver : String
  params : List BuiltinParam
  returnType : String
deriving DecidableEq

namespace BuiltinFunction

def modifiers (_ : BuiltinFunction) : FunctionModifiers :=
  { claimsPure := true, claimsReadonly := true, operator := true, external := true }

/-- An arithmetic operator takes any two of the numeric types and stays among integers only if both are. -/
def arithmetic (name : String) : List BuiltinFunction := [
  ⟨name, "Int", [{ type := "Int" }], "Int"⟩,
  ⟨name, "Int", [{ type := "Float" }], "Float"⟩,
  ⟨name, "Float", [{ type := "Float" }], "Float"⟩,
  ⟨name, "Float", [{ type := "Int" }], "Float"⟩]

def all : List BuiltinFunction :=
  ["opPlus", "opMinus", "opTimes", "opDivide"].flatMap arithmetic ++ [
    ⟨"opCompare", "Number", [{ type := "Number" }], "Int"⟩,
    ⟨"opEquals", "Any", [{ type := "Any", nullable := true }], "Boolean"⟩,
    ⟨"unaryMinus", "Int", [], "Int"⟩,
    ⟨"unaryMinus", "Float", [], "Float"⟩,
    ⟨"unaryNot", "Boolean", [], "Boolean"⟩]

end BuiltinFunction

end SemanticAnalysis
