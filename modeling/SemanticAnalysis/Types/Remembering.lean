import SemanticAnalysis.Types.Subtype
/-!
A hierarchy that keeps the subtype answers it gave. A new type has no edges into it, so old answers stay right
when one is added; a new edge can turn an answer, so it makes the hierarchy forget them all.
-/
namespace SemanticAnalysis
open SemanticAnalysis.TypeHierarchy

structure RememberingHierarchy where
  types : TypeHierarchy := {}
  answers : SubtypeAnswers := {}

namespace RememberingHierarchy

def ask {α : Type} (r : RememberingHierarchy) (q : TypeHierarchy → SubtypeQuestion α) :
    Except InternalError α × RememberingHierarchy :=
  let (answer, answers) := q r.types r.answers
  (answer, { r with answers })

def isSubtype (r : RememberingHierarchy) (a b : TypeId) : Except InternalError Bool × RememberingHierarchy :=
  r.ask (fun h => h.askSubtype a b)

def isAssignable (r : RememberingHierarchy) (value slot : TypeRef) :
    Except InternalError Bool × RememberingHierarchy :=
  if value.nullable && !slot.nullable then (.ok false, r) else r.isSubtype value.base slot.base

def measure (r : RememberingHierarchy) (a b : TypeId) : Except InternalError Nat × RememberingHierarchy :=
  r.ask (fun h => h.measureUsing h.askSubtype b (h.size + 1) a)

def distance (r : RememberingHierarchy) (a b : TypeId) : Except InternalError Nat × RememberingHierarchy :=
  r.ask (fun h => h.distanceUsing h.askSubtype a b)

def commonAncestor (r : RememberingHierarchy) (types : List TypeId) :
    Except InternalError TypeId × RememberingHierarchy :=
  r.ask (fun h => h.commonAncestorUsing h.askSubtype types)

def declare (r : RememberingHierarchy) (name : QualifiedName) : TypeId × RememberingHierarchy :=
  let (id, types) := r.types.declare name
  (id, { r with types })

def register (r : RememberingHierarchy) (d : TypeDef) : Except InternalError TypeId × RememberingHierarchy :=
  match r.types.register d with
  | .ok (id, types) => (.ok id, { r with types })
  | .error e => (.error e, r)

def addSupertype (r : RememberingHierarchy) (type supertype : TypeId) :
    Except InternalError Bool × RememberingHierarchy :=
  match r.ask (fun h => h.addSupertypeUsing h.askSubtype type supertype) with
  | (.ok (some types), _) => (.ok true, { types })
  | (.ok none, r) => (.ok false, r)
  | (.error e, r) => (.error e, r)

end RememberingHierarchy

end SemanticAnalysis
