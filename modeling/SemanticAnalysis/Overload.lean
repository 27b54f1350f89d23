import SemanticAnalysis.Signature
/-!
Choosing among functions of one name. A candidate applies if it has a receiver exactly when the call has one, takes
as many arguments, and accepts the types that are known on both sides. An unknown type rules nothing out and adds no
distance, so that one unknown operand does not lead to a second finding around it. Candidates that apply are ordered
by distance in the type hierarchy, and by declaration among equals. A distance adds up at most the number of types for
each operand, so that words of 32 bits hold it unless that product is out of their range.
-/
namespace SemanticAnalysis

namespace Overload

structure Match where
  function : FunctionId
  distance : Nat
deriving DecidableEq

def rank (matched : List Match) : List Match := stableSort (fun m n => m.distance ≤ n.distance) matched

def isAmbiguous : List Match → Bool
  | best :: second :: _ => best.distance == second.distance
  | _ => false

def receiverDistance (types : TypeHierarchy) (s : Signature) :
    Option TypeRef → Except InternalError (Option Nat)
  | none => pure (if s.hasReceiver then none else some 0)
  | some actual =>
    if s.hasReceiver then
      match s.receiver with
      | none => pure (some 0)
      | some declared => do
        if ← types.isSubtype actual.base declared.base then
          some <$> types.distance actual.base declared.base
        else pure none
    else pure none

def argumentDistance (types : TypeHierarchy) :
    Option TypeRef → Option TypeRef → Except InternalError (Option Nat)
  | some param, some argument => do
    if ← types.isAssignable argument param then some <$> types.distance argument.base param.base
    else pure none
  | _, _ => pure (some 0)

def argumentsDistance (types : TypeHierarchy) :
    List (Option TypeRef × Option TypeRef) → Except InternalError (Option Nat)
  | [] => pure (some 0)
  | (param, argument) :: rest => do
    match ← argumentDistance types param argument with
    | none => pure none
    | some distance => do
      let others ← argumentsDistance types rest
      pure (others.map (fun d => distance + d))

/-- The distance of a candidate, if it applies. -/
def candidateDistance (types : TypeHierarchy) (s : Signature) (receiver : Option TypeRef)
    (arguments : List (Option TypeRef)) : Except InternalError (Option Nat) := do
  match ← receiverDistance types s receiver with
  | none => pure none
  | some distance =>
    if s.params.length = arguments.length then do
      let others ← argumentsDistance types (s.params.zip arguments)
      pure (others.map (fun d => distance + d))
    else pure none

end Overload

namespace Program
open SemanticAnalysis.Overload

def match? (p : Program) (receiver : Option TypeRef) (arguments : List (Option TypeRef)) (id : FunctionId) :
    Except InternalError (Option Match) := do
  let f ← p.functionAt id
  let distance ← candidateDistance p.types (p.signature f) receiver arguments
  pure (distance.map (fun d => ⟨id, d⟩))

/-- The candidates that apply, best first. -/
def resolveOverload (p : Program) (candidates : List FunctionId) (receiver : Option TypeRef)
    (arguments : List (Option TypeRef)) : Except InternalError (List Match) := do
  let matched ← candidates.mapM (p.match? receiver arguments)
  pure (rank (matched.filterMap id))

def callText (receiver : Option String) (name : String) (params : List String) : String :=
  (match receiver with
    | some r => r ++ "."
    | none => "")
  ++ name ++ "(" ++ ", ".intercalate params ++ ")"

def candidateText (p : Program) (id : FunctionId) : Except InternalError String := do
  let f ← p.functionAt id
  let s := p.signature f
  let receiver := if s.hasReceiver then some (p.types.textOrUnknown s.receiver) else none
  pure (callText receiver f.name (s.params.map p.types.textOrUnknown))

/-- Names every candidate that is as close as the best. -/
def ambiguity (p : Program) (name : String) (ranked : List Match) : Except InternalError Cause := do
  let best := match ranked with
    | m :: _ => m.distance
    | [] => 0
  let tied := ranked.takeWhile (fun m => m.distance == best)
  let texts ← tied.mapM (fun m => p.candidateText m.function)
  pure (.ambiguousInvocation name (" and ".intercalate texts))

end Program

end SemanticAnalysis
