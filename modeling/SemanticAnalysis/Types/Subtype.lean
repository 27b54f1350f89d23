import SemanticAnalysis.Table
import SemanticAnalysis.Types.Hierarchy
/-!
Subtypes: what follows from the direct supertypes. An edge that would close a cycle is refused, so a walk along
supertypes never comes back to a type that it has left; one that did would be reported as a cycle. The bounds of the
recursions below are never reached.

A walk remembers the answers it found, and asks about a type once. Distances, common ancestors and new edges only need a
subtype test. They are stated for any test, so that they serve a hierarchy that keeps its answers from one question to
the next as well as one that does not.
-/
namespace SemanticAnalysis

namespace TypeHierarchy

abbrev SubtypeAnswers := Table (TypeId × TypeId) Bool

abbrev SubtypeQuestion := ExceptT InternalError (StateM SubtypeAnswers)

/-- Whether `target` is a type or above it. `visiting` holds the types on the way to this one. -/
def reaches (h : TypeHierarchy) (target : TypeId) (bound : Nat) (visiting : List TypeId) (a : TypeId) :
    SubtypeQuestion Bool :=
  if a = target then pure true
  else do
    match (← get).find? (a, target) with
    | some answer => pure answer
    | none =>
      if a ∈ visiting then throw (.cyclicSupertypes (h.nameOf a))
      else
        match bound with
        | 0 => throw (.cyclicSupertypes (h.nameOf a))
        | bound + 1 =>
          let d ← h.require a
          let answer ← d.supertypes.anyM (h.reaches target bound (a :: visiting))
          modify (fun answers => answers.insert (a, target) answer)
          pure answer

def askSubtype (h : TypeHierarchy) (a b : TypeId) : SubtypeQuestion Bool := h.reaches b (h.size + 1) [] a

def isSubtype (h : TypeHierarchy) (a b : TypeId) : Except InternalError Bool := (h.askSubtype a b {}).1

/-- Whether a value of the first type may stand where the second is expected. Null fits only where null is allowed. -/
def isAssignable (h : TypeHierarchy) (value slot : TypeRef) : Except InternalError Bool :=
  if value.nullable && !slot.nullable then .ok false else h.isSubtype value.base slot.base

section Measure
variable {m : Type → Type} [Monad m] [MonadExceptOf InternalError m]

/-- The shortest distance so far, once a supertype has been looked at as well. Only one below the target counts. -/
def nearerUsing (below : TypeId → TypeId → m Bool) (measure : TypeId → m Nat) (target : TypeId)
    (shortest : Option Nat) (supertype : TypeId) : m (Option Nat) := do
  if ← below supertype target then
    let distance ← measure supertype
    pure (some (shortest.elim distance (fun least => min least distance)))
  else pure shortest

/-- The number of edges from a type up to `target`. -/
def measureUsing (h : TypeHierarchy) (below : TypeId → TypeId → m Bool) (target : TypeId) (bound : Nat) (a : TypeId) :
    m Nat := do
  if a = target then pure 0
  else if ← below a target then
    match bound with
    | 0 => throw (.cyclicSupertypes (h.nameOf a))
    | bound + 1 =>
      let d ← MonadExcept.ofExcept (h.require a)
      let shortest ← d.supertypes.foldlM (nearerUsing below (h.measureUsing below target bound) target) none
      match shortest with
      | some distance => pure (distance + 1)
      | none => throw (.notASupertype (h.nameOf a) (h.nameOf target))
  else throw (.notASupertype (h.nameOf a) (h.nameOf target))

/-- The number of edges from the nearest of some types up to `target`. All types so many edges up are looked at
together; of them only those below the target are followed. -/
def levelsUsing (h : TypeHierarchy) (below : TypeId → TypeId → m Bool) (target : TypeId) (bound : Nat)
    (level : List TypeId) : m Nat :=
  if target ∈ level then pure 0
  else
    match bound with
    | 0 => throw (.cyclicSupertypes (h.nameOf target))
    | bound + 1 => do
      let defs ← level.mapM (fun a => MonadExcept.ofExcept (h.require a))
      let next ← (defs.flatMap TypeDef.supertypes).eraseDups.filterM (fun s => below s target)
      let more ← h.levelsUsing below target bound next
      pure (more + 1)

def distanceUsing (h : TypeHierarchy) (below : TypeId → TypeId → m Bool) (a b : TypeId) : m Nat := do
  if a = b then pure 0
  else if ← below a b then h.levelsUsing below b (h.size + 1) [a]
  else throw (.notASupertype (h.nameOf a) (h.nameOf b))

/-- Climbs from `pivot` until `other` is below it. Where the pivot has several supertypes the two change places, once.
There is no answer when the climb ends without one. -/
def climbUsing (h : TypeHierarchy) (below : TypeId → TypeId → m Bool) (bound : Nat) (pivot other : TypeId)
    (swapped : Bool) : m (Option TypeId) := do
  if ← below other pivot then pure (some pivot)
  else
    match bound with
    | 0 => throw (.cyclicSupertypes (h.nameOf pivot))
    | bound + 1 =>
      let d ← MonadExcept.ofExcept (h.require pivot)
      match d.supertypes with
      | [] => pure none
      | [supertype] => h.climbUsing below bound supertype other swapped
      | _ => if swapped then pure none else h.climbUsing below bound other pivot true

/-- Climbs past one type after the other; `Any` stands in as soon as one climb has no answer. -/
def climbAllUsing (h : TypeHierarchy) (below : TypeId → TypeId → m Bool) (pivot : TypeId) :
    List TypeId → m TypeId
  | [] => pure pivot
  | other :: rest => do
    match ← h.climbUsing below (2 * h.size + 2) pivot other false with
    | some pivot => h.climbAllUsing below pivot rest
    | none => pure .any

def commonAncestorUsing (h : TypeHierarchy) (below : TypeId → TypeId → m Bool) : List TypeId → m TypeId
  | [] => throw .noTypesGiven
  | first :: rest => h.climbAllUsing below first rest

def addSupertypeUsing (h : TypeHierarchy) (below : TypeId → TypeId → m Bool) (type supertype : TypeId) :
    m (Option TypeHierarchy) := do
  let _ ← MonadExcept.ofExcept (h.require type)
  let _ ← MonadExcept.ofExcept (h.require supertype)
  if ← below supertype type then pure none else pure (some (h.attach type supertype))

end Measure

/-- The number of supertype edges on a shortest walk from `a` up to `b`. The recursion follows every walk up to its
end. -/
def measure (h : TypeHierarchy) (a b : TypeId) : Except InternalError Nat :=
  h.measureUsing h.isSubtype b (h.size + 1) a

/-- The same number, level by level: as many steps as there are types, also where ways up part and meet again. -/
def distance (h : TypeHierarchy) (a b : TypeId) : Except InternalError Nat := h.distanceUsing h.isSubtype a b

/-- A type that all the given ones are subtypes of: the closest where every type has one supertype at most, and an
approximation otherwise. -/
def commonAncestor (h : TypeHierarchy) (types : List TypeId) : Except InternalError TypeId :=
  h.commonAncestorUsing h.isSubtype types

def addSupertype (h : TypeHierarchy) (type supertype : TypeId) : Except InternalError (Option TypeHierarchy) :=
  h.addSupertypeUsing h.isSubtype type supertype

end TypeHierarchy

end SemanticAnalysis
