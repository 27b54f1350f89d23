import SemanticAnalysis.Analysis.Phases
/-!
Sessions: questions about a program in any order. Every question may find out facts, and facts found out by one
question serve the next.
-/
namespace SemanticAnalysis

/-- A part of a program that may be analysed on its own. -/
inductive Part where
  | declaration (d : Declaration)
  | body (f : FunctionId)
  /-- The statement to which a path from the body leads, or the function if there is none. -/
  | statement (f : FunctionId) (path : List Nat)

namespace Part

def stmt? (f : Bound.Function) (path : List Nat) : Option Bound.Stmt :=
  f.body.bind (fun body => (Bound.Stmt.block body).follow? path)

def runPhase (p : Program) (phase : Phase) : Part → Analysis (List Diagnostic)
  | .declaration d => p.runPhase d phase
  | .body id => do
    let f ← p.functionAt id
    match f.body with
    | some block => block.runPhase p phase
    | none => p.runPhase (.function id) phase
  | .statement id path => do
    let f ← p.functionAt id
    match stmt? f path with
    | some s => s.runPhase p phase
    | none => p.runPhase (.function id) phase

def effects (p : Program) (access : Access) (boundary : ScopeId) : Part → Analysis (List Effect)
  | .declaration (.variable id) => p.variableEffects access (p.summary access) boundary id
  | .declaration (.struct id) => p.structEffects access id
  | .declaration (.function id) | .body id => do
    let f ← p.functionAt id
    Bound.Block.optionEffects p access (p.summary access) boundary f.body
  | .statement id path => do
    let f ← p.functionAt id
    match stmt? f path with
    | some s => s.effects p access (p.summary access) boundary
    | none => pure []

end Part

inductive Question where
  | analyse
  | phase (part : Part) (phase : Phase)
  | effects (part : Part) (boundary : ScopeId)
  | signature (f : FunctionId)
  | returnType (f : FunctionId)
  | variableType (v : VariableId)
  | memberType (s : StructId) (name : String)
  | summary (access : Access) (f : FunctionId)
  | isClean (access : Access) (f : FunctionId)

inductive Answer where
  | findings (findings : List Diagnostic)
  | effects (reads writes : List Effect)
  | signature (signature : Signature)
  | type (type : Option TypeRef)
  | summary (summary : Option EffectSummary)
  | clean (clean : Option Bool)

def Question.answer (p : Program) : Question → Analysis Answer
  | .analyse => .findings <$> p.analyse
  | .phase part step => .findings <$> part.runPhase p step
  | .effects part boundary => do
    let reads ← part.effects p .read boundary
    let writes ← part.effects p .write boundary
    pure (.effects reads writes)
  | .signature f => do
    let f ← p.functionAt f
    pure (.signature (p.signature f))
  | .returnType f => .type <$> p.returnType f
  | .variableType v => .type <$> p.variableType v
  | .memberType s name => do
    let s ← p.structAt s
    pure (.type (p.memberType s name))
  | .summary access f => .summary <$> p.summary access f
  | .isClean access f => .clean <$> p.isClean access f

structure Session where
  program : Program
  facts : Facts := {}

namespace Session

def ask {α : Type} (s : Session) (work : Analysis α) : Except InternalError α × Session :=
  let (answer, facts) := work s.facts
  (answer, { s with facts })

def answer (s : Session) (q : Question) : Except InternalError Answer × Session := s.ask (q.answer s.program)

def bindExpr (s : Session) (scope : ScopeId) (e : Tree.Expr) : Except InternalError Bound.Expr × Session :=
  match Bound.Expr.bind scope e s.program.nodes with
  | .ok (bound, nodes) => (.ok bound, { s with program := { s.program with nodes } })
  | .error e => (.error e, s)

end Session

end SemanticAnalysis
