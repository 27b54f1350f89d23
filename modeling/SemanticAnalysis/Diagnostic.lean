import SemanticAnalysis.Span
/-!
Findings about the program under analysis. A semantic error is a cause at a place; a diagnostic gives it a severity.
Findings are kept in the order in which they were made.
-/
namespace SemanticAnalysis

inductive Cause where
  | undefinedIdentifier (name : String)
  | unresolvedVariable (name : String)
  | unresolvableFunction (signature : String)
  | unresolvableOperator (operator operands : String)
  | ambiguousInvocation (name candidates : String)
  | unknownType (name : String)
  | unknownMember (typeName member : String)
  | unsafeObjectTraversal
  | superfluousSafeObjectTraversal
  | duplicateTypeMembers (structName member : String) (count : Nat)
  | cyclicTypeHierarchy (typeName supertype : String)
  | unresolvedImport (module : String)
  | purityViolation (function : String) (count : Nat) (offending : List Span)
  | readonlyViolation (function : String) (count : Nat) (offending : List Span)
  | recursivePurityCheck (callee : String)
  | valueNotAssignable (expected actual : String)
  | assignmentToImmutable (name : String)
  | forwarded (message : String)
deriving DecidableEq

def quoted (text : String) : String := "'" ++ text ++ "'"

def Cause.message : Cause → String
  | .undefinedIdentifier name => "undefined identifier " ++ quoted name
  | .unresolvedVariable name => "cannot resolve variable " ++ quoted name
  | .unresolvableFunction signature => "cannot resolve function " ++ signature
  | .unresolvableOperator operator operands =>
    "operator " ++ quoted operator ++ " is not defined for " ++ operands
  | .ambiguousInvocation name candidates =>
    "invocation of " ++ quoted name ++ " is ambiguous between " ++ candidates
  | .unknownType name => "unknown type " ++ quoted name
  | .unknownMember typeName member => "type " ++ quoted typeName ++ " has no member " ++ quoted member
  | .unsafeObjectTraversal => "unsafe object traversal on nullable value; use '?.' instead"
  | .superfluousSafeObjectTraversal =>
    "superfluous null-safe traversal on non-nullable value; use '.' instead"
  | .duplicateTypeMembers structName member count =>
    "struct " ++ quoted structName ++ " declares member " ++ quoted member ++ " " ++ toString count ++ " times"
  | .cyclicTypeHierarchy typeName supertype =>
    quoted typeName ++ " cannot extend " ++ quoted supertype ++ ": the type hierarchy would become cyclic"
  | .unresolvedImport module => "cannot resolve import of module " ++ quoted module
  | .purityViolation function count _ =>
    "pure function " ++ quoted function ++ " reads state outside its scope (" ++ toString count
      ++ " offending site(s))"
  | .readonlyViolation function count _ =>
    "readonly function " ++ quoted function ++ " modifies state outside its scope (" ++ toString count
      ++ " offending site(s))"
  | .recursivePurityCheck callee =>
    "effects of recursive invocation of " ++ quoted callee
      ++ " cannot be established; assuming it is not pure"
  | .valueNotAssignable expected actual =>
    "a value of type " ++ actual ++ " cannot be assigned to a reference of type " ++ expected
  | .assignmentToImmutable name => "cannot assign to immutable variable " ++ quoted name
  | .forwarded message => message

structure SemanticError where
  cause : Cause
  span : Span
deriving DecidableEq

def SemanticError.message (e : SemanticError) : String := "at " ++ e.span.text ++ ": " ++ e.cause.message

inductive Severity where
  | info
  | warning
  | error
deriving DecidableEq

namespace Severity

def text : Severity → String
  | .info => "info"
  | .warning => "warning"
  | .error => "error"

def rank : Severity → Nat
  | .info => 0
  | .warning => 1
  | .error => 2

def worse (s t : Severity) : Severity := if s.rank < t.rank then t else s

end Severity

structure Diagnostic where
  severity : Severity
  error : SemanticError
deriving DecidableEq

namespace Diagnostic

def ofError (cause : Cause) (span : Span) : Diagnostic := ⟨.error, cause, span⟩

def ofWarning (cause : Cause) (span : Span) : Diagnostic := ⟨.warning, cause, span⟩

def forwarded (severity : Severity) (message : String) (span : Span) : Diagnostic :=
  ⟨severity, .forwarded message, span⟩

def isError (d : Diagnostic) : Bool := d.severity == .error

def isWarning (d : Diagnostic) : Bool := d.severity == .warning

def text (d : Diagnostic) : String := d.severity.text ++ ": " ++ d.error.message

end Diagnostic

namespace Diagnostics

def hasErrors (ds : List Diagnostic) : Bool := ds.any Diagnostic.isError

def text (ds : List Diagnostic) : String :=
  ds.foldr (fun d rest => d.text ++ "\n" ++ rest) ""

def worst : List Diagnostic → Option Severity
  | [] => none
  | d :: ds =>
    match worst ds with
    | none => some d.severity
    | some s => some (d.severity.worse s)

end Diagnostics

end SemanticAnalysis
