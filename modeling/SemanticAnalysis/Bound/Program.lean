import SemanticAnalysis.Bound.Stmt
import SemanticAnalysis.Builtin
import SemanticAnalysis.Options
import SemanticAnalysis.Scope
import SemanticAnalysis.Types.Subtype
/-!
Bound programs. Everything that analysis is about is in place and never changes: types, scopes, declarations and the
trees of their bodies. What analysis finds out is kept apart from the program.
-/
namespace SemanticAnalysis

inductive Declaration where
  | function (id : FunctionId)
  | variable (id : VariableId)
  | struct (id : StructId)
deriving DecidableEq

namespace Bound

inductive Function.Origin where
  | declared (decl : Tree.FunctionDecl)
  | builtin (builtin : BuiltinFunction)

structure Function where
  id : FunctionId
  origin : Function.Origin
  home : ScopeId
  scope : ScopeId
  parameters : List VariableId := []
  body : Option Block := none

namespace Function

def name (f : Function) : String :=
  match f.origin with
  | .declared decl => decl.name.name
  | .builtin builtin => builtin.name

def nameSpan (f : Function) : Span :=
  match f.origin with
  | .declared decl => decl.name.span
  | .builtin _ => {}

def span (f : Function) : Span :=
  match f.origin with
  | .declared decl => decl.span
  | .builtin _ => {}

def modifiers (f : Function) : FunctionModifiers :=
  match f.origin with
  | .declared decl => decl.modifiers
  | .builtin builtin => builtin.modifiers

def statesReturnType (f : Function) : Bool :=
  match f.origin with
  | .declared decl => decl.returnType.isSome
  | .builtin _ => true

end Function

inductive Variable.Origin where
  | declared (decl : Tree.VariableDecl)
  | parameter (function : FunctionId) (index : Nat) (param : Tree.Param)

structure Variable where
  id : VariableId
  origin : Variable.Origin
  /-- Where the declaration stands. A local variable is visible only in the layer below, so its initializer does not
  see it. -/
  scope : ScopeId
  initializer : Option Expr := none

namespace Variable

def name (v : Variable) : String :=
  match v.origin with
  | .declared decl => decl.name.name
  | .parameter _ _ param => param.name.name

def span (v : Variable) : Span :=
  match v.origin with
  | .declared decl => decl.span
  | .parameter _ _ param => param.span

def isMutable (v : Variable) : Bool :=
  match v.origin with
  | .declared decl => decl.isMutable
  | .parameter .. => false

end Variable

structure Member where
  decl : Tree.MemberDecl
  default : Option Expr

def Member.name (m : Member) : String := m.decl.name.name

structure Struct where
  id : StructId
  decl : Tree.StructDecl
  type : TypeId
  scope : ScopeId
  members : List Member

namespace Struct

def name (s : Struct) : String := s.decl.name.name

def member? (s : Struct) (name : String) : Option Member := s.members.find? (fun m => m.name == name)

def defaults (s : Struct) : List Expr := s.members.filterMap Member.default

end Struct

structure Module where
  name : String
  scope : ScopeId
  declarations : List Declaration

end Bound

structure Program where
  options : Options
  types : TypeHierarchy := .builtins
  scopes : ScopeTree := .initial
  functions : Array Bound.Function := #[]
  vars : Array Bound.Variable := #[]
  structs : Array Bound.Struct := #[]
  structTypes : Table TypeId StructId := {}
  modules : List Bound.Module := []
  nodes : Nat := 0

namespace Program

def functionAt (p : Program) (id : FunctionId) : Except InternalError Bound.Function :=
  match p.functions[id.index]? with
  | some f => .ok f
  | none => .error (.danglingId "function" id.index)

def variableAt (p : Program) (id : VariableId) : Except InternalError Bound.Variable :=
  match p.vars[id.index]? with
  | some v => .ok v
  | none => .error (.danglingId "variable" id.index)

def structAt (p : Program) (id : StructId) : Except InternalError Bound.Struct :=
  match p.structs[id.index]? with
  | some s => .ok s
  | none => .error (.danglingId "struct" id.index)

/-- The struct that declares a type. -/
def structOf? (p : Program) (type : TypeId) : Except InternalError (Option Bound.Struct) :=
  match p.structTypes.find? type with
  | some id => some <$> p.structAt id
  | none => pure none

def declarations (p : Program) : List Declaration := p.modules.flatMap Bound.Module.declarations

def functionsNamed (p : Program) (name : String) : List FunctionId :=
  p.declarations.filterMap (fun
    | .function id => (p.functions[id.index]?.filter (fun f => f.name == name)).map Bound.Function.id
    | _ => none)

end Program

end SemanticAnalysis
