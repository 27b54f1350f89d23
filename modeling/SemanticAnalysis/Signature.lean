import SemanticAnalysis.Bound.Program
/-!
Written types and what they mean. These facts follow from the program alone, whatever was analysed before.
-/
namespace SemanticAnalysis

/-- The written types of a function. A type that is not written or not known stands open. -/
structure Signature where
  hasReceiver : Bool
  receiver : Option TypeRef
  params : List (Option TypeRef)
  declaredReturn : Option TypeRef
  errors : List SemanticError

namespace Program

/-- The type that a written type means in a scope. Where none is written, the type's implied modifier holds. -/
def resolveType (p : Program) (scope : ScopeId) (t : Tree.TypeExpr) : Except SemanticError TypeRef :=
  match p.scopes.findType? scope t.name.name with
  | some base => .ok (p.types.withImpliedModifier ⟨base, t.nullable, t.modifier⟩)
  | none => .error ⟨.unknownType t.name.name, t.span⟩

def resolvedType (p : Program) (scope : ScopeId) (t : Option Tree.TypeExpr) : Option TypeRef :=
  t.bind (fun t => (p.resolveType scope t).toOption)

def typeError? (p : Program) (scope : ScopeId) (t : Option Tree.TypeExpr) : Option SemanticError :=
  t.bind (fun t =>
    match p.resolveType scope t with
    | .ok _ => none
    | .error e => some e)

def signatureOf (p : Program) (scope : ScopeId) (receiver : Option Tree.TypeExpr)
    (params : List (Option Tree.TypeExpr)) (returnType : Option Tree.TypeExpr) : Signature where
  hasReceiver := receiver.isSome
  receiver := p.resolvedType scope receiver
  params := params.map (p.resolvedType scope)
  declaredReturn := p.resolvedType scope returnType
  errors := (receiver :: params ++ [returnType]).filterMap (p.typeError? scope)

def builtinType (name : String) (nullable : Bool) : Tree.TypeExpr :=
  { name := ⟨name, {}⟩, nullable, span := {} }

def signature (p : Program) (f : Bound.Function) : Signature :=
  match f.origin with
  | .declared decl =>
    p.signatureOf f.home decl.receiver (decl.params.map Tree.Param.type) decl.returnType
  | .builtin b =>
    p.signatureOf .builtin (some (builtinType b.receiver false))
      (b.params.map (fun param => some (builtinType param.type param.nullable)))
      (some (builtinType b.returnType false))

def declaredType (p : Program) (v : Bound.Variable) : Option TypeRef :=
  match v.origin with
  | .declared decl => p.resolvedType v.scope decl.type
  | .parameter .. => none

def declaredTypeError? (p : Program) (v : Bound.Variable) : Option SemanticError :=
  match v.origin with
  | .declared decl => p.typeError? v.scope decl.type
  | .parameter .. => none

def memberType (p : Program) (s : Bound.Struct) (name : String) : Option TypeRef :=
  (s.member? name).bind (fun m => p.resolvedType s.scope (some m.decl.type))

end Program

end SemanticAnalysis
