import SemanticAnalysis.Bound.Program
import SemanticAnalysis.Effect
import SemanticAnalysis.Memo
/-!
What analysis finds out about a program. A fact is recorded once and stays. Findings of a phase and effects of a
function are kept in cells, because finding them out for one declaration may lead back to the same declaration.
-/
namespace SemanticAnalysis

inductive Phase where
  | resolution
  | typing
  | validation
deriving DecidableEq

def Phase.all : List Phase := [.resolution, .typing, .validation]

inductive Referral where
  | literal (value : Bool)
  | variable (id : VariableId)
  | typeName (id : TypeId)
deriving DecidableEq

structure Facts where
  referrals : Table NodeId Referral := {}
  types : Table NodeId (Option TypeRef) := {}
  dispatched : Table NodeId FunctionId := {}
  variableTypes : Table VariableId (Option TypeRef) := {}
  returnTypes : Table FunctionId (Option TypeRef) := {}
  phases : Cells (Declaration × Phase) (List Diagnostic) := {}
  summaries : Cells (Access × FunctionId) EffectSummary := {}

/-- Work that finds out facts. A fault leaves the facts found so far in place. -/
abbrev Analysis := ExceptT InternalError (StateM Facts)

namespace Facts

def typeOf? (facts : Facts) (node : NodeId) : Option TypeRef := (facts.types.find? node).join

def recordReferral (node : NodeId) (r : Referral) (facts : Facts) : Facts :=
  { facts with referrals := facts.referrals.insertNew node r }

def recordType (node : NodeId) (t : Option TypeRef) (facts : Facts) : Facts :=
  { facts with types := facts.types.insertNew node t }

def recordDispatch (node : NodeId) (f : FunctionId) (facts : Facts) : Facts :=
  { facts with dispatched := facts.dispatched.insertNew node f }

def recordVariableType (v : VariableId) (t : Option TypeRef) (facts : Facts) : Facts :=
  { facts with variableTypes := facts.variableTypes.insertNew v t }

def recordReturnType (f : FunctionId) (t : Option TypeRef) (facts : Facts) : Facts :=
  { facts with returnTypes := facts.returnTypes.insertNew f t }

def phaseCell (d : Declaration) (phase : Phase) : Cell Facts (List Diagnostic) :=
  ⟨fun facts => facts.phases.state (d, phase),
    fun m facts => { facts with phases := facts.phases.insert (d, phase) m }⟩

def summaryCell (access : Access) (f : FunctionId) : Cell Facts EffectSummary :=
  ⟨fun facts => facts.summaries.state (access, f),
    fun m facts => { facts with summaries := facts.summaries.insert (access, f) m }⟩

end Facts

namespace Analysis

/-- Runs a phase of a declaration, once. Later requests get the same findings; a request from inside gets none. -/
def once (d : Declaration) (phase : Phase) (body : Analysis (List Diagnostic)) : Analysis (List Diagnostic) := do
  let findings ← (Facts.phaseCell d phase).compute body
  pure (findings.getD [])

end Analysis

def Bound.Expr.type (facts : Facts) : Bound.Expr → Option TypeRef
  | .identifier node _ _ => facts.typeOf? node
  | .number (.int _) _ => some ⟨.int, false, some .immutable⟩
  | .number .float _ => some ⟨.float, false, some .immutable⟩
  | .number (.malformed _) _ => none
  | .null _ => none
  | .invocation call _ _ => facts.typeOf? call.node
  | .member node _ _ _ _ => facts.typeOf? node
  | .paren inner _ => inner.type facts

end SemanticAnalysis
