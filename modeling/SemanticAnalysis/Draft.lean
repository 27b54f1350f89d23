import SemanticAnalysis.Tree.Basic
/-!
Drafts: declaration trees before their nodes have places. Numbering a draft puts every node on a line of its own, in
a fixed order with operands before what is made of them, so that findings about different nodes can be told apart. A
draft may fix the place of a node or of its name; the line is used up all the same.
-/
namespace SemanticAnalysis

abbrev Numbering := StateM Nat

def Numbering.fresh : Numbering Span := fun line => (⟨line, 1, 1⟩, line + 1)

def Numbering.ident (name : String) : Numbering Ident := do
  pure ⟨name, ← Numbering.fresh⟩

def Numbering.path (segments : List String) : Numbering (List Ident) := segments.mapM Numbering.ident

namespace Draft
open SemanticAnalysis.Numbering

structure Fixed where
  span : Option Span := none
  nameSpan : Option Span := none

def Fixed.at (f : Fixed) (own : Span) : Span := f.span.getD own

def Fixed.name (f : Fixed) (ident : Ident) : Ident := { ident with span := f.nameSpan.getD ident.span }

structure TypeExpr where
  name : String
  nullable : Bool := false
  modifier : Option TypeModifier := none
  fixed : Fixed := {}

def TypeExpr.numbered (t : TypeExpr) : Numbering Tree.TypeExpr := do
  let ident ← ident t.name
  pure ⟨t.fixed.name ident, t.nullable, t.modifier, t.fixed.at ident.span⟩

def numberType : Option TypeExpr → Numbering (Option Tree.TypeExpr)
  | none => pure none
  | some t => some <$> t.numbered

inductive Expr where
  | name (name : String) (fixed : Fixed)
  | number (numeral : Tree.Numeral) (fixed : Fixed)
  | null (fixed : Fixed)
  | call (name : String) (args : List Expr) (fixed : Fixed)
  | method (object : Expr) (name : String) (args : List Expr) (nullSafe : Bool) (fixed : Fixed)
  | invoke (target : Expr) (args : List Expr) (fixed : Fixed)
  | member (object : Expr) (name : String) (nullSafe : Bool) (fixed : Fixed)
  | binary (left : Expr) (op : BinaryOp) (right : Expr) (fixed : Fixed)
  | unary (op : UnaryOp) (operand : Expr) (fixed : Fixed)
  | paren (inner : Expr) (fixed : Fixed)

mutual

def Expr.numbered : Expr → Numbering Tree.Expr
  | .name label fixed => do
    let ident ← ident label
    pure (.name (fixed.name ident) (fixed.at ident.span))
  | .number numeral fixed => do
    pure (.number numeral (fixed.at (← fresh)))
  | .null fixed => do
    pure (.null (fixed.at (← fresh)))
  | .call label args fixed => do
    let args ← Expr.allNumbered args
    let ident ← ident label
    pure (.invocation (.name ident ident.span) args (fixed.at (← fresh)))
  | .method object label args nullSafe fixed => do
    let object ← object.numbered
    let args ← Expr.allNumbered args
    let ident ← ident label
    let target := .member object ident nullSafe (← fresh)
    pure (.invocation target args (fixed.at (← fresh)))
  | .invoke target args fixed => do
    let target ← target.numbered
    let args ← Expr.allNumbered args
    pure (.invocation target args (fixed.at (← fresh)))
  | .member object label nullSafe fixed => do
    let object ← object.numbered
    let ident ← ident label
    pure (.member object (fixed.name ident) nullSafe (fixed.at (← fresh)))
  | .binary left op right fixed => do
    let left ← left.numbered
    let right ← right.numbered
    pure (.binary left op right (fixed.at (← fresh)))
  | .unary op operand fixed => do
    let operand ← operand.numbered
    pure (.unary op operand (fixed.at (← fresh)))
  | .paren inner fixed => do
    let inner ← inner.numbered
    pure (.paren inner (fixed.at (← fresh)))

def Expr.allNumbered : List Expr → Numbering (List Tree.Expr)
  | [] => pure []
  | e :: rest => do
    let e ← e.numbered
    let rest ← Expr.allNumbered rest
    pure (e :: rest)

end

def numberExpr : Option Expr → Numbering (Option Tree.Expr)
  | none => pure none
  | some e => some <$> e.numbered

structure VariableDecl where
  name : String
  isMutable : Bool
  type : Option TypeExpr := none
  initializer : Option Expr := none
  fixed : Fixed := {}

def VariableDecl.numbered (v : VariableDecl) : Numbering Tree.VariableDecl := do
  let type ← numberType v.type
  let initializer ← numberExpr v.initializer
  let ident ← ident v.name
  pure ⟨v.fixed.name ident, v.isMutable, type, initializer, v.fixed.at (← fresh)⟩

inductive Stmt where
  | expr (value : Expr) (fixed : Fixed)
  | variable (decl : VariableDecl)
  | assign (target value : Expr) (fixed : Fixed)
  | ret (value : Option Expr) (fixed : Fixed)
  | branch (condition : Expr) (thenBranch : List Stmt) (elseBranch : Option (List Stmt)) (fixed : Fixed)
  | block (stmts : List Stmt) (fixed : Fixed)

/-- The statements of both branches come before the places of the branches. -/
def numberBranches (thenStmts : List Tree.Stmt) (elseStmts : Option (List Tree.Stmt)) :
    Numbering (Tree.Block × Option Tree.Block) := do
  let thenBranch := Tree.Block.mk thenStmts (← fresh)
  match elseStmts with
  | none => pure (thenBranch, none)
  | some stmts => pure (thenBranch, some (.mk stmts (← fresh)))

mutual

def Stmt.numbered : Stmt → Numbering Tree.Stmt
  | .expr value fixed => do
    let value ← value.numbered
    pure (.expr value (fixed.at (← fresh)))
  | .variable decl => .variable <$> decl.numbered
  | .assign target value fixed => do
    let target ← target.numbered
    let value ← value.numbered
    pure (.assign target value (fixed.at (← fresh)))
  | .ret value fixed => do
    let value ← numberExpr value
    pure (.ret value (fixed.at (← fresh)))
  | .branch condition thenBranch elseBranch fixed => do
    let condition ← condition.numbered
    let thenStmts ← Stmt.allNumbered thenBranch
    let elseStmts ← Stmt.optionNumbered elseBranch
    let (thenBranch, elseBranch) ← numberBranches thenStmts elseStmts
    pure (.branch condition thenBranch elseBranch (fixed.at (← fresh)))
  | .block stmts fixed => do
    let stmts ← Stmt.allNumbered stmts
    pure (.block (.mk stmts (fixed.at (← fresh))))

def Stmt.allNumbered : List Stmt → Numbering (List Tree.Stmt)
  | [] => pure []
  | s :: rest => do
    let s ← s.numbered
    let rest ← Stmt.allNumbered rest
    pure (s :: rest)

def Stmt.optionNumbered : Option (List Stmt) → Numbering (Option (List Tree.Stmt))
  | none => pure none
  | some stmts => some <$> Stmt.allNumbered stmts

end

/-- A parameter. A type given by its name alone comes after the parameter's name, any other before it. -/
inductive Param where
  | named (name : String) (type : String)
  | general (name : String) (type : Option TypeExpr)

def Param.numbered : Param → Numbering Tree.Param
  | .named name type => do
    let ident ← ident name
    let type ← TypeExpr.numbered { name := type }
    pure ⟨ident, some type, ← fresh⟩
  | .general name type => do
    let type ← numberType type
    let ident ← ident name
    pure ⟨ident, type, ← fresh⟩

structure FunctionDecl where
  name : String
  modifiers : FunctionModifiers := {}
  receiver : Option TypeExpr := none
  params : List Param := []
  returnType : Option TypeExpr := none
  body : Option (List Stmt) := none
  fixed : Fixed := {}

def numberBody : Option (List Stmt) → Numbering (Option Tree.Block)
  | none => pure none
  | some stmts => do
    let stmts ← Stmt.allNumbered stmts
    pure (some (.mk stmts (← fresh)))

def FunctionDecl.numbered (f : FunctionDecl) : Numbering Tree.FunctionDecl := do
  let ident ← ident f.name
  let own ← fresh
  let receiver ← numberType f.receiver
  let params ← f.params.mapM Param.numbered
  let returnType ← numberType f.returnType
  let body ← numberBody f.body
  pure ⟨f.fixed.name ident, f.modifiers, receiver, params, returnType, body, f.fixed.at own⟩

structure MemberDecl where
  name : String
  type : TypeExpr
  default : Option Expr := none
  fixed : Fixed := {}

def MemberDecl.numbered (m : MemberDecl) : Numbering Tree.MemberDecl := do
  let type ← m.type.numbered
  let default ← numberExpr m.default
  let ident ← ident m.name
  pure ⟨m.fixed.name ident, type, default, m.fixed.at (← fresh)⟩

structure StructDecl where
  name : String
  supertypes : List TypeExpr := []
  members : List MemberDecl := []
  fixed : Fixed := {}

def StructDecl.numbered (s : StructDecl) : Numbering Tree.StructDecl := do
  let members ← s.members.mapM MemberDecl.numbered
  let supertypes ← s.supertypes.mapM TypeExpr.numbered
  let ident ← ident s.name
  pure ⟨s.fixed.name ident, supertypes, members, s.fixed.at (← fresh)⟩

inductive Item where
  | function (decl : FunctionDecl)
  | variable (decl : VariableDecl)
  | struct (decl : StructDecl)

def Item.numbered : Item → Numbering Tree.Item
  | .function decl => .function <$> decl.numbered
  | .variable decl => .variable <$> decl.numbered
  | .struct decl => .struct <$> decl.numbered

structure Module where
  name : String
  imports : List String := []
  items : List Item := []
  notices : List (Severity × String) := []

def numberImport (name : String) : Numbering Tree.Import := do
  let path ← path (segments name)
  pure ⟨path, ← fresh⟩

def numberNotice (notice : Severity × String) : Numbering Tree.Notice := do
  pure ⟨notice.1, notice.2, ← fresh⟩

def Module.numbered (m : Module) : Numbering Tree.Module := do
  let imports ← m.imports.mapM numberImport
  let items ← m.items.mapM Item.numbered
  let notices ← m.notices.mapM numberNotice
  let path ← path (segments m.name)
  pure ⟨path, imports, items, notices, ← fresh⟩

/-- The modules of one compilation, numbered one after the other from line one. The next unused line comes along. -/
def number (modules : List Module) : List Tree.Module × Nat := (modules.mapM Module.numbered).run 1

end Draft

end SemanticAnalysis
