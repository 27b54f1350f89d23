import SemanticAnalysis.Id
import SemanticAnalysis.InternalError
import SemanticAnalysis.Tree.Basic
/-!
Bound expressions: expressions that know the scope they stand in. Operators have become calls on their left or only
operand. A node about which something is found out later has a number; numbers are given in the order of binding.

The one malformed expression is a call of something that is neither a name nor a member.
-/
namespace SemanticAnalysis

structure Site where
  scope : ScopeId
  span : Span
deriving DecidableEq

namespace Bound

inductive InvocationKind where
  | call
  | binary (op : BinaryOp)
  | unary (op : UnaryOp)
deriving DecidableEq

structure Invocation where
  node : NodeId
  kind : InvocationKind
  name : String
  nullSafe : Bool := false
  site : Site

inductive Expr where
  | identifier (node : NodeId) (name : String) (site : Site)
  | number (numeral : Tree.Numeral) (site : Site)
  | null (site : Site)
  | invocation (call : Invocation) (receiver : Option Expr) (args : List Expr)
  | member (node : NodeId) (object : Expr) (name : Ident) (nullSafe : Bool) (site : Site)
  | paren (inner : Expr) (site : Site)

abbrev Binding := StateT Nat (Except InternalError)

def freshNode : Binding NodeId := fun next => .ok (⟨next⟩, next + 1)

namespace Expr

mutual

def bind (scope : ScopeId) : Tree.Expr → Binding Expr
  | .name ident span => do
    pure (.identifier (← freshNode) ident.name ⟨scope, span⟩)
  | .number numeral span => pure (.number numeral ⟨scope, span⟩)
  | .null span => pure (.null ⟨scope, span⟩)
  | .invocation (.name ident _) args span => do
    let args ← bindAll scope args
    pure (.invocation ⟨← freshNode, .call, ident.name, false, scope, span⟩ none args)
  | .invocation (.member object ident nullSafe _) args span => do
    let object ← bind scope object
    let args ← bindAll scope args
    pure (.invocation ⟨← freshNode, .call, ident.name, nullSafe, scope, span⟩ (some object) args)
  | .invocation _ _ span => throw (.invalidInvocationTarget span)
  | .member object ident nullSafe span => do
    let object ← bind scope object
    pure (.member (← freshNode) object ident nullSafe ⟨scope, span⟩)
  | .binary left op right span => do
    let left ← bind scope left
    let right ← bind scope right
    pure (.invocation ⟨← freshNode, .binary op, op.functionName, false, scope, span⟩ (some left) [right])
  | .unary op operand span => do
    let operand ← bind scope operand
    pure (.invocation ⟨← freshNode, .unary op, op.functionName, false, scope, span⟩ (some operand) [])
  | .paren inner span => do
    let inner ← bind scope inner
    pure (.paren inner ⟨scope, span⟩)

def bindAll (scope : ScopeId) : List Tree.Expr → Binding (List Expr)
  | [] => pure []
  | e :: rest => do
    let e ← bind scope e
    let rest ← bindAll scope rest
    pure (e :: rest)

end

def bindOption (scope : ScopeId) : Option Tree.Expr → Binding (Option Expr)
  | none => pure none
  | some e => some <$> bind scope e

def site : Expr → Site
  | .identifier _ _ site => site
  | .number _ site => site
  | .null site => site
  | .invocation call _ _ => call.site
  | .member _ _ _ _ site => site
  | .paren _ site => site

/-- The node and name of the identifier at the root of a path of members, through parentheses. -/
def root? : Expr → Option (NodeId × String × Site)
  | .identifier node name site => some (node, name, site)
  | .member _ object _ _ _ => object.root?
  | .paren inner _ => inner.root?
  | _ => none

def isIdentifier : Expr → Bool
  | .identifier .. => true
  | _ => false

def isNull : Expr → Bool
  | .null _ => true
  | _ => false

end Expr

end Bound

end SemanticAnalysis
