import SemanticAnalysis.Analysis.Resolution
import SemanticAnalysis.Overload
/-!
The second phase: types of expressions, and the functions that calls are dispatched to.

The type of a variable without a written type is that of its initializer, and the return type of a function without a
written one comes from its return statements. So typing one declaration may ask for the type of another, which is then
analysed on the spot. Nodes are typed against any way to answer such questions; answers that may go a number of
declarations deep are built from answers that go one less deep. A question that leads back to a declaration whose
typing is still running ends there, so no question goes deeper than there are declarations.
-/
namespace SemanticAnalysis

structure TypeSource where
  variableType : VariableId → Analysis (Option TypeRef)
  returnType : FunctionId → Analysis (Option TypeRef)

def traversalFault (object : TypeRef) (nullSafe : Bool) : Option Cause :=
  match object.nullable, nullSafe with
  | true, false => some .unsafeObjectTraversal
  | false, true => some .superfluousSafeObjectTraversal
  | _, _ => none

namespace Program

/-- An identifier that the first phase did not settle can only mean a variable. -/
def settleReferral (p : Program) (node : NodeId) (name : String) (site : Site) : Analysis (List Diagnostic) := do
  match (← get).referrals.find? node with
  | some _ => pure []
  | none =>
    match p.scopes.findVariable? site.scope name with
    | some v => do
      modify (Facts.recordReferral node (.variable v))
      pure []
    | none => pure [.ofError (.unresolvedVariable name) site.span]

def referredType (ask : TypeSource) : Option Referral → Analysis (Option TypeRef)
  | some (.literal _) => pure (some (.simple .boolean))
  | some (.variable v) => ask.variableType v
  | some (.typeName t) => pure (some (.simple t))
  | none => pure none

def settleType (ask : TypeSource) (node : NodeId) : Analysis Unit := do
  let facts ← get
  match facts.types.find? node with
  | some _ => pure ()
  | none => do
    let type ← referredType ask (facts.referrals.find? node)
    modify (Facts.recordType node type)

def typeIdentifier (p : Program) (ask : TypeSource) (node : NodeId) (name : String) (site : Site) :
    Analysis (List Diagnostic) := do
  let findings ← p.settleReferral node name site
  settleType ask node
  pure findings

/-- The type of a member of an object, or why there is none, given the struct of the object if it is of one. The member
of something that may be null may be null. -/
def accessedType (p : Program) (object : TypeRef) (member : Ident) (struct : Option Bound.Struct) :
    Except Cause (Option TypeRef) :=
  match struct.bind (fun s => (s.member? member.name).map (fun _ => s)) with
  | none => .error (.unknownMember (p.types.nameOf object.base) member.name)
  | some s => .ok ((p.memberType s member.name).map (fun t => if object.nullable then t.orNull else t))

def typeMember (p : Program) (node : NodeId) (object : Option TypeRef) (member : Ident) (nullSafe : Bool)
    (site : Site) : Analysis (List Diagnostic) :=
  match object with
  | none => do
    modify (Facts.recordType node none)
    pure []
  | some object => do
    let traversal := (traversalFault object nullSafe).toList.map (fun c => Diagnostic.ofError c site.span)
    let struct ← p.structOf? object.base
    match p.accessedType object member struct with
    | .ok type => do
      modify (Facts.recordType node type)
      pure traversal
    | .error cause => do
      modify (Facts.recordType node none)
      pure (traversal ++ [.ofError cause member.span])

/-- The functions that a call may mean. An operator only means functions declared as operators. -/
def candidates (p : Program) (call : Bound.Invocation) : Except InternalError (List FunctionId) :=
  let visible := p.scopes.findFunctions call.site.scope call.name
  match call.kind with
  | .call => pure visible
  | _ => visible.filterM (fun id => do
      let f ← p.functionAt id
      pure f.modifiers.operator)

/-- The functions that a call may mean and that apply to its operands, best first. A receiver of unknown type counts as
`Any?`. -/
def ranked (p : Program) (call : Bound.Invocation) (receiver : Option (Option TypeRef))
    (arguments : List (Option TypeRef)) : Except InternalError (List Overload.Match) := do
  let candidates ← p.candidates call
  p.resolveOverload candidates (receiver.map (fun t => t.getD .nullableAny)) arguments

def unresolvable (p : Program) (call : Bound.Invocation) (receiver : Option TypeRef)
    (arguments : List (Option TypeRef)) : Cause :=
  match call.kind with
  | .call =>
    .unresolvableFunction
      (callText (receiver.map p.types.text) call.name (arguments.map p.types.textOrUnknown))
  | .binary op =>
    .unresolvableOperator op.text
      (p.types.textOrUnknown receiver ++ " and " ++ p.types.textOrUnknown arguments.head?.join)
  | .unary op => .unresolvableOperator op.text (p.types.textOrUnknown receiver)

def yieldsBoolean (call : Bound.Invocation) : Bool :=
  match call.kind with
  | .binary op => op.yieldsBoolean
  | _ => false

def valueType (p : Program) (ask : TypeSource) (call : Bound.Invocation) (f : FunctionId) :
    Analysis (Option TypeRef) :=
  if yieldsBoolean call then pure (some (p.types.withImpliedModifier (.simple .boolean))) else ask.returnType f

def resultType (p : Program) (ask : TypeSource) (call : Bound.Invocation) (f : FunctionId)
    (receiver : Option TypeRef) : Analysis (Option TypeRef) := do
  let type ← p.valueType ask call f
  let mayBeNull := call.nullSafe && receiver.any TypeRef.nullable
  pure (type.map (fun t => if mayBeNull then t.orNull else t))

def settleDispatch (p : Program) (ask : TypeSource) (call : Bound.Invocation) (f : FunctionId)
    (receiver : Option TypeRef) : Analysis Unit := do
  match (← get).dispatched.find? call.node with
  | some _ => pure ()
  | none => do
    let type ← p.resultType ask call f receiver
    modify (Facts.recordDispatch call.node f)
    modify (Facts.recordType call.node type)

/-- Two equally close candidates are reported unless an operand of unknown type made them so. -/
def ambiguityFindings (p : Program) (call : Bound.Invocation) (known : Bool) (ranked : List Overload.Match) :
    Except InternalError (List Diagnostic) :=
  if p.options.reportAmbiguousOverloads && known && Overload.isAmbiguous ranked then do
    let cause ← p.ambiguity call.name ranked
    pure [.ofError cause call.site.span]
  else pure []

def callTraversal (call : Bound.Invocation) (receiver : Option TypeRef) : List Cause :=
  match call.kind with
  | .call => (receiver.bind (fun t => traversalFault t call.nullSafe)).toList
  | _ => []

/-- Dispatches a call. `receiver` is absent for a call without one. -/
def typeInvocation (p : Program) (ask : TypeSource) (call : Bound.Invocation) (receiver : Option (Option TypeRef))
    (arguments : List (Option TypeRef)) : Analysis (List Diagnostic) := do
  let receiverType := receiver.map (fun t => t.getD .nullableAny)
  let traversal := (callTraversal call receiver.join).map (fun c => Diagnostic.ofError c call.site.span)
  let ranked ← p.ranked call receiver arguments
  match ranked with
  | [] => do
    modify (Facts.recordType call.node none)
    pure (traversal ++ [.ofError (p.unresolvable call receiverType arguments) call.site.span])
  | best :: _ => do
    let known := receiver.all Option.isSome && arguments.all Option.isSome
    let ambiguous ← p.ambiguityFindings call known ranked
    p.settleDispatch ask call best.function receiverType
    pure (traversal ++ ambiguous)

end Program

namespace Bound

mutual

def Expr.assignTypes (p : Program) (ask : TypeSource) : Expr → Analysis (List Diagnostic)
  | .identifier node name site => p.typeIdentifier ask node name site
  | .number _ _ => pure []
  | .null _ => pure []
  | .invocation call receiver args => do
    let ofReceiver ← Expr.assignOption p ask receiver
    let ofArgs ← Expr.assignAll p ask args
    let facts ← get
    let own ← p.typeInvocation ask call (receiver.map (Expr.type facts)) (args.map (Expr.type facts))
    pure (ofReceiver ++ ofArgs ++ own)
  | .member node object name nullSafe site => do
    let ofObject ← object.assignTypes p ask
    let facts ← get
    let own ← p.typeMember node (object.type facts) name nullSafe site
    pure (ofObject ++ own)
  | .paren inner _ => inner.assignTypes p ask

def Expr.assignOption (p : Program) (ask : TypeSource) : Option Expr → Analysis (List Diagnostic)
  | none => pure []
  | some e => e.assignTypes p ask

def Expr.assignAll (p : Program) (ask : TypeSource) : List Expr → Analysis (List Diagnostic)
  | [] => pure []
  | e :: rest => do
    let first ← e.assignTypes p ask
    let others ← Expr.assignAll p ask rest
    pure (first ++ others)

end

end Bound

namespace Program

def initializerFault (p : Program) (facts : Facts) (declared : TypeRef) (initializer : Bound.Expr) :
    Except InternalError (Option Cause) :=
  if initializer.isNull then
    pure (if declared.nullable then none else some (.valueNotAssignable (p.types.text declared) "null"))
  else
    match initializer.type facts with
    | none => pure none
    | some actual => do
      if ← p.types.isAssignable actual declared then pure none
      else pure (some (.valueNotAssignable (p.types.text declared) (p.types.text actual)))

def initializerFindings (p : Program) (v : Bound.Variable) (facts : Facts) :
    Except InternalError (List Diagnostic) :=
  match p.declaredType v, v.initializer with
  | some declared, some initializer => do
    let fault ← p.initializerFault facts declared initializer
    pure (fault.toList.map (fun c => Diagnostic.ofError c initializer.site.span))
  | _, _ => pure []

def settledType (p : Program) (v : Bound.Variable) (facts : Facts) : Option TypeRef :=
  (p.declaredType v).or (v.initializer.bind (Bound.Expr.type facts))

def typeVariable (p : Program) (ask : TypeSource) (id : VariableId) : Analysis (List Diagnostic) := do
  let v ← p.variableAt id
  Analysis.once (.variable id) .typing do
    let ofInitializer ← Bound.Expr.assignOption p ask v.initializer
    let facts ← get
    let own ← p.initializerFindings v facts
    modify (Facts.recordVariableType id (p.settledType v facts))
    pure (ofInitializer ++ own)

end Program

def Program.assignmentFindings (p : Program) (target : Bound.Expr) (site : Site) :
    Analysis (List Diagnostic) :=
  match target with
  | .identifier node name _ => do
    match (← get).referrals.find? node with
    | some (.variable id) => do
      let v ← p.variableAt id
      pure (if v.isMutable then [] else [.ofError (.assignmentToImmutable name) site.span])
    | _ => pure []
  | _ => pure []

namespace Bound

mutual

def Stmt.assignTypes (p : Program) (ask : TypeSource) : Stmt → Analysis (List Diagnostic)
  | .expr value _ => value.assignTypes p ask
  | .variable id _ => p.typeVariable ask id
  | .assign target value site => do
    let ofTarget ← target.assignTypes p ask
    let ofValue ← value.assignTypes p ask
    let own ← p.assignmentFindings target site
    pure (ofTarget ++ ofValue ++ own)
  | .ret value _ => Expr.assignOption p ask value
  | .branch condition thenBranch elseBranch _ => do
    let ofCondition ← condition.assignTypes p ask
    let ofThen ← thenBranch.assignTypes p ask
    let ofElse ← Block.assignOption p ask elseBranch
    pure (ofCondition ++ ofThen ++ ofElse)
  | .block body => body.assignTypes p ask

def Block.assignTypes (p : Program) (ask : TypeSource) : Block → Analysis (List Diagnostic)
  | .mk stmts _ => Stmt.assignAll p ask stmts

def Block.assignOption (p : Program) (ask : TypeSource) : Option Block → Analysis (List Diagnostic)
  | none => pure []
  | some block => block.assignTypes p ask

def Stmt.assignAll (p : Program) (ask : TypeSource) : List Stmt → Analysis (List Diagnostic)
  | [] => pure []
  | s :: rest => do
    let first ← s.assignTypes p ask
    let others ← Stmt.assignAll p ask rest
    pure (first ++ others)

end

end Bound

namespace Program

/-- The return type that the values of return statements give: `Unit` without any, none if no type is known, and
otherwise a common ancestor of the known ones. It may be null if one of them may or if `null` is returned. -/
def inferReturnType (p : Program) (facts : Facts) (values : List Bound.Expr) :
    Except InternalError (Option TypeRef) :=
  if values.isEmpty then pure (some (.simple .unit))
  else
    match values.filterMap (Bound.Expr.type facts) with
    | [] => pure none
    | known => do
      let base ← p.types.commonAncestor (known.map TypeRef.base)
      let nullable := known.any TypeRef.nullable || values.any Bound.Expr.isNull
      pure (some (p.types.withImpliedModifier { base, nullable }))

def returnedValues (f : Bound.Function) : List Bound.Expr :=
  match f.body with
  | none => []
  | some body => body.returns.filterMap Bound.Return.value

def typeFunction (p : Program) (ask : TypeSource) (id : FunctionId) : Analysis (List Diagnostic) := do
  let f ← p.functionAt id
  Analysis.once (.function id) .typing do
    let findings ← Bound.Block.assignOption p ask f.body
    let facts ← get
    let inferred ← p.inferReturnType facts (returnedValues f)
    modify (Facts.recordReturnType id inferred)
    pure findings

def typeStruct (p : Program) (ask : TypeSource) (id : StructId) : Analysis (List Diagnostic) := do
  let s ← p.structAt id
  Analysis.once (.struct id) .typing (Bound.Expr.assignAll p ask s.defaults)

def inferredVariableType (p : Program) (ask : TypeSource) (id : VariableId) : Analysis (Option TypeRef) := do
  match (← get).variableTypes.find? id with
  | some type => pure type
  | none => do
    let _ ← p.resolveVariable id
    let _ ← p.typeVariable ask id
    pure ((← get).variableTypes.find? id).join

/-- The type of a variable. A parameter has it from the signature of its function. -/
def variableTypeUsing (p : Program) (ask : TypeSource) (id : VariableId) : Analysis (Option TypeRef) := do
  let v ← p.variableAt id
  match v.origin with
  | .parameter function index _ => do
    let f ← p.functionAt function
    pure (p.signature f).params[index]?.join
  | .declared _ =>
    match p.declaredType v with
    | some type => pure (some type)
    | none => p.inferredVariableType ask id

def inferredReturnType (p : Program) (ask : TypeSource) (id : FunctionId) : Analysis (Option TypeRef) := do
  match (← get).returnTypes.find? id with
  | some type => pure type
  | none => do
    let _ ← p.resolveFunction id
    let _ ← p.typeFunction ask id
    pure ((← get).returnTypes.find? id).join

def returnTypeUsing (p : Program) (ask : TypeSource) (id : FunctionId) : Analysis (Option TypeRef) := do
  let f ← p.functionAt id
  if f.statesReturnType then pure (p.signature f).declaredReturn else p.inferredReturnType ask id

/-- Answers that analyse at most `depth` declarations inside each other. -/
def typesWithin (p : Program) : Nat → TypeSource
  | 0 => ⟨fun _ => throw .unfinished, fun _ => throw .unfinished⟩
  | depth + 1 => ⟨p.variableTypeUsing (p.typesWithin depth), p.returnTypeUsing (p.typesWithin depth)⟩

/-- The types of the declarations of a program. Each step inwards enters a function or variable whose typing was not
running, so one step more than there are of them is enough. -/
def typeSource (p : Program) : TypeSource := p.typesWithin (p.functions.size + p.vars.size + 1)

def variableType (p : Program) (id : VariableId) : Analysis (Option TypeRef) := p.typeSource.variableType id

def returnType (p : Program) (id : FunctionId) : Analysis (Option TypeRef) := p.typeSource.returnType id

end Program

end SemanticAnalysis
