import SemanticAnalysis.Diagnostic
import SemanticAnalysis.Modifier
import SemanticAnalysis.QualifiedName
import SemanticAnalysis.Tree.Operator
/-!
Declaration trees: what the stage that reads texts hands over. Every node knows its place.
-/
namespace SemanticAnalysis

structure Ident where
  name : String
  span : Span
deriving DecidableEq

namespace Tree

structure TypeExpr where
  name : Ident
  nullable : Bool := false
  modifier : Option TypeModifier := none
  span : Span
deriving DecidableEq

inductive Numeral where
  | int (value : Int)
  | float
  | malformed (text : String)
deriving DecidableEq

inductive Expr where
  | name (ident : Ident) (span : Span)
  | number (numeral : Numeral) (span : Span)
  | null (span : Span)
  | invocation (target : Expr) (args : List Expr) (span : Span)
  | member (object : Expr) (member : Ident) (nullSafe : Bool) (span : Span)
  | binary (left : Expr) (op : BinaryOp) (right : Expr) (span : Span)
  | unary (op : UnaryOp) (operand : Expr) (span : Span)
  | paren (inner : Expr) (span : Span)

structure VariableDecl where
  name : Ident
  isMutable : Bool
  type : Option TypeExpr
  initializer : Option Expr
  span : Span

mutual

inductive Stmt where
  | expr (value : Expr) (span : Span)
  | variable (decl : VariableDecl)
  | assign (target value : Expr) (span : Span)
  | ret (value : Option Expr) (span : Span)
  | branch (condition : Expr) (thenBranch : Block) (elseBranch : Option Block) (span : Span)
  | block (body : Block)

inductive Block where
  | mk (stmts : List Stmt) (span : Span)

end

structure Param where
  name : Ident
  type : Option TypeExpr
  span : Span

structure FunctionDecl where
  name : Ident
  modifiers : FunctionModifiers
  receiver : Option TypeExpr
  params : List Param
  returnType : Option TypeExpr
  body : Option Block
  span : Span

structure MemberDecl where
  name : Ident
  type : TypeExpr
  default : Option Expr
  span : Span

structure StructDecl where
  name : Ident
  supertypes : List TypeExpr
  members : List MemberDecl
  span : Span

inductive Item where
  | function (decl : FunctionDecl)
  | variable (decl : VariableDecl)
  | struct (decl : StructDecl)

structure Import where
  path : List Ident
  span : Span

structure Notice where
  severity : Severity
  message : String
  span : Span

structure Module where
  path : List Ident
  imports : List Import
  items : List Item
  notices : List Notice
  span : Span

def Import.target (i : Import) : String := dotted (i.path.map Ident.name)

namespace Module

def package (m : Module) : List String := m.path.map Ident.name

def name (m : Module) : String := dotted m.package

end Module

end Tree

end SemanticAnalysis
