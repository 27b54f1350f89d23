import SemanticAnalysis.Facts
import SemanticAnalysis.Signature
/-!
The first phase: what names mean. It needs no other declaration to be analysed.
-/
namespace SemanticAnalysis

/-- What an identifier means in a scope: a truth value, else a variable, else a type. -/
def Program.referral? (p : Program) (scope : ScopeId) (name : String) : Option Referral :=
  if name = "true" then some (.literal true)
  else if name = "false" then some (.literal false)
  else ((p.scopes.findVariable? scope name).map .variable).or ((p.scopes.findType? scope name).map .typeName)

def Program.resolveIdentifier (p : Program) (node : NodeId) (name : String) (site : Site) :
    Analysis (List Diagnostic) :=
  match p.referral? site.scope name with
  | some r => do
    modify (Facts.recordReferral node r)
    pure []
  | none => pure [.ofError (.undefinedIdentifier name) site.span]

def Tree.Numeral.findings (span : Span) : Tree.Numeral → List Diagnostic
  | .malformed text => [.forwarded .error ("malformed numeric literal " ++ quoted text) span]
  | _ => []

namespace Bound

mutual

def Expr.resolve (p : Program) : Expr → Analysis (List Diagnostic)
  | .identifier node name site => p.resolveIdentifier node name site
  | .number numeral site => pure (numeral.findings site.span)
  | .null _ => pure []
  | .invocation _ receiver args => do
    let ofReceiver ← Expr.resolveOption p receiver
    let ofArgs ← Expr.resolveAll p args
    pure (ofReceiver ++ ofArgs)
  | .member _ object _ _ _ => object.resolve p
  | .paren inner _ => inner.resolve p

def Expr.resolveOption (p : Program) : Option Expr → Analysis (List Diagnostic)
  | none => pure []
  | some e => e.resolve p

def Expr.resolveAll (p : Program) : List Expr → Analysis (List Diagnostic)
  | [] => pure []
  | e :: rest => do
    let first ← e.resolve p
    let others ← Expr.resolveAll p rest
    pure (first ++ others)

end

end Bound

def Program.resolveVariable (p : Program) (id : VariableId) : Analysis (List Diagnostic) := do
  let v ← p.variableAt id
  Analysis.once (.variable id) .resolution do
    let ofInitializer ← Bound.Expr.resolveOption p v.initializer
    pure ((p.declaredTypeError? v).toList.map (fun e => ⟨.error, e⟩) ++ ofInitializer)

namespace Bound

mutual

def Stmt.resolve (p : Program) : Stmt → Analysis (List Diagnostic)
  | .expr value _ => value.resolve p
  | .variable id _ => p.resolveVariable id
  | .assign target value _ => do
    let ofTarget ← target.resolve p
    let ofValue ← value.resolve p
    pure (ofTarget ++ ofValue)
  | .ret value _ => Expr.resolveOption p value
  | .branch condition thenBranch elseBranch _ => do
    let ofCondition ← condition.resolve p
    let ofThen ← thenBranch.resolve p
    let ofElse ← Block.resolveOption p elseBranch
    pure (ofCondition ++ ofThen ++ ofElse)
  | .block body => body.resolve p

def Block.resolve (p : Program) : Block → Analysis (List Diagnostic)
  | .mk stmts _ => Stmt.resolveAll p stmts

def Block.resolveOption (p : Program) : Option Block → Analysis (List Diagnostic)
  | none => pure []
  | some block => block.resolve p

def Stmt.resolveAll (p : Program) : List Stmt → Analysis (List Diagnostic)
  | [] => pure []
  | s :: rest => do
    let first ← s.resolve p
    let others ← Stmt.resolveAll p rest
    pure (first ++ others)

end

/-- How often each name was declared so far, and where for the second time; and the names, first come first. -/
structure Tally where
  counts : Table String (Nat × Option Span) := {}
  order : List String := []

def Tally.add (t : Tally) (m : Member) : Tally :=
  let entry := (t.counts.find? m.name).getD (0, none)
  let count := entry.1 + 1
  { counts := t.counts.insert m.name (count, if count = 2 then some m.decl.span else entry.2)
    order := if (t.counts.find? m.name).isSome then t.order else t.order ++ [m.name] }

def Tally.finding? (t : Tally) (type name : String) : Option Diagnostic := do
  let entry ← t.counts.find? name
  let span ← entry.2
  pure (.ofError (.duplicateTypeMembers type name entry.1) span)

/-- One finding for each name that is declared more than once, at its second declaration. -/
def Struct.duplicates (s : Struct) : List Diagnostic :=
  let tally := s.members.foldl Tally.add {}
  tally.order.filterMap (tally.finding? s.name)

end Bound

namespace Program

def memberTypeErrors (p : Program) (s : Bound.Struct) : List Diagnostic :=
  s.members.filterMap (fun m => (p.typeError? s.scope (some m.decl.type)).map (fun e => ⟨.error, e⟩))

def resolveFunction (p : Program) (id : FunctionId) : Analysis (List Diagnostic) := do
  let f ← p.functionAt id
  Analysis.once (.function id) .resolution do
    let ofBody ← Bound.Block.resolveOption p f.body
    pure ((p.signature f).errors.map (fun e => ⟨.error, e⟩) ++ ofBody)

def resolveStruct (p : Program) (id : StructId) : Analysis (List Diagnostic) := do
  let s ← p.structAt id
  Analysis.once (.struct id) .resolution do
    let ofDefaults ← Bound.Expr.resolveAll p s.defaults
    pure (s.duplicates ++ p.memberTypeErrors s ++ ofDefaults)

end Program

end SemanticAnalysis
