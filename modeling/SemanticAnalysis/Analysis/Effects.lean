import SemanticAnalysis.Analysis.Typing
/-!
Effects. A variable is read or written outside a boundary if it is not declared between the node and the boundary. A
call has an effect if the function it is dispatched to has one outside its own scope; everything else has the effects
of its parts. The effects of a function are summed up once. While that is going on, a call of it counts as an effect
whose cause is the recursion.
-/
namespace SemanticAnalysis

abbrev SummarySource := FunctionId → Analysis (Option EffectSummary)

def calleeEffects (access : Access) (call : Bound.Invocation) (f : FunctionId) :
    Option EffectSummary → List Effect
  | some summary =>
    if summary.clean then [] else [⟨.invocation call.name, call.site.span, access.throughCall f⟩]
  | none => [⟨.invocation call.name, call.site.span, .recursiveInvocation f⟩]

namespace Program

def outside? (p : Program) (facts : Facts) (boundary : ScopeId) (node : NodeId) (scope : ScopeId) :
    Option VariableId :=
  match facts.referrals.find? node with
  | some (.variable v) => if p.scopes.isWithin scope v boundary then none else some v
  | _ => none

def identifierEffects (p : Program) (facts : Facts) (access : Access) (boundary : ScopeId) (node : NodeId)
    (name : String) (site : Site) : List Effect :=
  match access with
  | .read =>
    (p.outside? facts boundary node site.scope).toList.map (fun v =>
      ⟨.identifier name, site.span, .readsVariable v⟩)
  | .write => []

def assignmentEffects (p : Program) (facts : Facts) (access : Access) (boundary : ScopeId) (target : Bound.Expr)
    (site : Site) : List Effect :=
  match access, target.root? with
  | .write, some (node, _, root) =>
    (p.outside? facts boundary node root.scope).toList.map (fun v =>
      ⟨.assignment, site.span, .writesVariable v⟩)
  | _, _ => []

def callEffects (access : Access) (ask : SummarySource) (call : Bound.Invocation) : Analysis (List Effect) := do
  match (← get).dispatched.find? call.node with
  | none => pure []
  | some f => do
    let summary ← ask f
    pure (calleeEffects access call f summary)

end Program

namespace Bound

mutual

def Expr.effects (p : Program) (access : Access) (ask : SummarySource) (boundary : ScopeId) :
    Expr → Analysis (List Effect)
  | .identifier node name site => do
    let facts ← get
    pure (p.identifierEffects facts access boundary node name site)
  | .number _ _ => pure []
  | .null _ => pure []
  | .invocation call receiver args => do
    let ofReceiver ← Expr.optionEffects p access ask boundary receiver
    let ofArgs ← Expr.allEffects p access ask boundary args
    let own ← Program.callEffects access ask call
    pure (ofReceiver ++ ofArgs ++ own)
  | .member _ object _ _ _ => object.effects p access ask boundary
  | .paren inner _ => inner.effects p access ask boundary

def Expr.optionEffects (p : Program) (access : Access) (ask : SummarySource) (boundary : ScopeId) :
    Option Expr → Analysis (List Effect)
  | none => pure []
  | some e => e.effects p access ask boundary

def Expr.allEffects (p : Program) (access : Access) (ask : SummarySource) (boundary : ScopeId) :
    List Expr → Analysis (List Effect)
  | [] => pure []
  | e :: rest => do
    let first ← e.effects p access ask boundary
    let others ← Expr.allEffects p access ask boundary rest
    pure (first ++ others)

end

/-- A target that is a bare name is written and not read. -/
def Expr.targetEffects (p : Program) (access : Access) (ask : SummarySource) (boundary : ScopeId)
    (target : Expr) : Analysis (List Effect) :=
  if target.isIdentifier then pure [] else target.effects p access ask boundary

end Bound

def Program.variableEffects (p : Program) (access : Access) (ask : SummarySource) (boundary : ScopeId)
    (id : VariableId) : Analysis (List Effect) := do
  let v ← p.variableAt id
  Bound.Expr.optionEffects p access ask boundary v.initializer

namespace Bound

mutual

def Stmt.effects (p : Program) (access : Access) (ask : SummarySource) (boundary : ScopeId) :
    Stmt → Analysis (List Effect)
  | .expr value _ => value.effects p access ask boundary
  | .variable id _ => p.variableEffects access ask boundary id
  | .assign target value site => do
    let facts ← get
    let ofTarget ← target.targetEffects p access ask boundary
    let ofValue ← value.effects p access ask boundary
    pure (p.assignmentEffects facts access boundary target site ++ ofTarget ++ ofValue)
  | .ret value _ => Expr.optionEffects p access ask boundary value
  | .branch condition thenBranch elseBranch _ => do
    let ofCondition ← condition.effects p access ask boundary
    let ofThen ← thenBranch.effects p access ask boundary
    let ofElse ← Block.optionEffects p access ask boundary elseBranch
    pure (ofCondition ++ ofThen ++ ofElse)
  | .block body => body.effects p access ask boundary

def Block.effects (p : Program) (access : Access) (ask : SummarySource) (boundary : ScopeId) :
    Block → Analysis (List Effect)
  | .mk stmts _ => Stmt.allEffects p access ask boundary stmts

def Block.optionEffects (p : Program) (access : Access) (ask : SummarySource) (boundary : ScopeId) :
    Option Block → Analysis (List Effect)
  | none => pure []
  | some block => block.effects p access ask boundary

def Stmt.allEffects (p : Program) (access : Access) (ask : SummarySource) (boundary : ScopeId) :
    List Stmt → Analysis (List Effect)
  | [] => pure []
  | s :: rest => do
    let first ← s.effects p access ask boundary
    let others ← Stmt.allEffects p access ask boundary rest
    pure (first ++ others)

end

end Bound

namespace Program

def claimsNone (access : Access) (m : FunctionModifiers) : Bool :=
  match access with
  | .read => m.claimsPure
  | .write => m.promisesNoWrites

/-- Sums up the effects of a function outside its own scope. -/
def summarise (p : Program) (access : Access) (ask : SummarySource) (f : Bound.Function) :
    Analysis EffectSummary :=
  match f.body with
  | none => pure (.assumed (claimsNone access f.modifiers))
  | some body => do
    let _ ← p.resolveFunction f.id
    let _ ← p.typeFunction p.typeSource f.id
    let effects ← body.effects p access ask f.scope
    pure (.ofEffects effects)

def summaryUsing (p : Program) (access : Access) (ask : SummarySource) (id : FunctionId) :
    Analysis (Option EffectSummary) := do
  let f ← p.functionAt id
  (Facts.summaryCell access id).compute (p.summarise access ask f)

/-- Answers that sum up at most `depth` functions inside each other. -/
def summariesWithin (p : Program) (access : Access) : Nat → SummarySource
  | 0 => fun _ => throw .unfinished
  | depth + 1 => p.summaryUsing access (p.summariesWithin access depth)

/-- The effects of the functions of a program. Each step inwards enters a function whose summing up was not running,
so one step more than there are functions is enough. -/
def summary (p : Program) (access : Access) : SummarySource := p.summariesWithin access (p.functions.size + 1)

def isClean (p : Program) (access : Access) (id : FunctionId) : Analysis (Option Bool) := do
  let summary ← p.summary access id
  pure (summary.map EffectSummary.clean)

/-- Effects of the defaults of a struct. They are evaluated in the struct's own scope wherever it is used, so that
scope is the boundary. -/
def structEffects (p : Program) (access : Access) (id : StructId) : Analysis (List Effect) := do
  let s ← p.structAt id
  Bound.Expr.allEffects p access (p.summary access) s.scope s.defaults

end Program

end SemanticAnalysis
