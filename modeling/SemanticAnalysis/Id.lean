/-!
Identities. Types, scopes, variables, functions and structs are numbered in the order in which they are made; an
identity is such a number and means something only for the program that gave it out. Expression nodes about which
something is found out later have a number too.
-/
namespace SemanticAnalysis

structure TypeId where
  index : Nat
deriving DecidableEq

structure ScopeId where
  index : Nat
deriving DecidableEq

structure VariableId where
  index : Nat
deriving DecidableEq

structure FunctionId where
  index : Nat
deriving DecidableEq

structure StructId where
  index : Nat
deriving DecidableEq

structure NodeId where
  index : Nat
deriving DecidableEq

namespace TypeId

def any : TypeId := ⟨0⟩
def unit : TypeId := ⟨1⟩
def number : TypeId := ⟨2⟩
def float : TypeId := ⟨3⟩
def int : TypeId := ⟨4⟩
def boolean : TypeId := ⟨5⟩

end TypeId

namespace ScopeId

def root : ScopeId := ⟨0⟩

def program : ScopeId := ⟨1⟩

def builtin : ScopeId := ⟨2⟩

end ScopeId

end SemanticAnalysis
