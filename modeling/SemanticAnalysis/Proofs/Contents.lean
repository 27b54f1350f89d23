import SemanticAnalysis.Tree.Basic
/-!
What a text consists of: its expressions and statements, each with a place of its own, those inside of others first.
-/
namespace SemanticAnalysis

namespace Tree

/-- Whatever has a place of its own. -/
inductive Content where
  | expr (e : Expr)
  | stmt (s : Stmt)

def Expr.span : Expr → Span
  | .name _ span => span
  | .number _ span => span
  | .null span => span
  | .invocation _ _ span => span
  | .member _ _ _ span => span
  | .binary _ _ _ span => span
  | .unary _ _ span => span
  | .paren _ span => span

def Stmt.span : Stmt → Span
  | .expr _ span => span
  | .variable decl => decl.span
  | .assign _ _ span => span
  | .ret _ span => span
  | .branch _ _ _ span => span
  | .block (.mk _ span) => span

def Content.span : Content → Span
  | .expr e => e.span
  | .stmt s => s.span

mutual

/-- An expression after all expressions in it, the target of a call included. -/
def Expr.within : Expr → List Expr
  | .name ident span => [.name ident span]
  | .number numeral span => [.number numeral span]
  | .null span => [.null span]
  | .invocation target args span => target.within ++ Expr.allWithin args ++ [.invocation target args span]
  | .member object label nullSafe span => object.within ++ [.member object label nullSafe span]
  | .binary left op right span => left.within ++ right.within ++ [.binary left op right span]
  | .unary op operand span => operand.within ++ [.unary op operand span]
  | .paren inner span => inner.within ++ [.paren inner span]

def Expr.allWithin : List Expr → List Expr
  | [] => []
  | e :: rest => e.within ++ Expr.allWithin rest

end

def Expr.operands : Expr → List Expr
  | .name .. => []
  | .number .. => []
  | .null _ => []
  | .invocation target args _ => target :: args
  | .member object _ _ _ => [object]
  | .binary left _ right _ => [left, right]
  | .unary _ operand _ => [operand]
  | .paren inner _ => [inner]

def Expr.inner (e : Expr) : List Expr := e.operands.flatMap Expr.within

theorem all_within_flat (es : List Expr) : Expr.allWithin es = es.flatMap Expr.within := by
  induction es with
  | nil => rfl
  | cons e rest ih => rw [Expr.allWithin, List.flatMap_cons, ih]

theorem within_split (e : Expr) : e.within = e.inner ++ [e] := by
  cases e <;> simp [Expr.within, Expr.inner, Expr.operands, all_within_flat]

def Expr.contents (e : Expr) : List Content := e.within.map .expr

theorem contents_spans (e : Expr) : e.contents.map Content.span = e.within.map Expr.span := List.map_map

def Expr.optionContents (e : Option Expr) : List Content := e.toList.flatMap Expr.contents

mutual

/-- A statement after all expressions and statements in it. -/
def Stmt.contents : Stmt → List Content
  | .expr value span => value.contents ++ [.stmt (.expr value span)]
  | .variable decl => Expr.optionContents decl.initializer ++ [.stmt (.variable decl)]
  | .assign target value span => target.contents ++ value.contents ++ [.stmt (.assign target value span)]
  | .ret value span => Expr.optionContents value ++ [.stmt (.ret value span)]
  | .branch condition thenBranch elseBranch span =>
    condition.contents ++ thenBranch.contents ++ Block.optionContents elseBranch
      ++ [.stmt (.branch condition thenBranch elseBranch span)]
  | .block body => body.contents ++ [.stmt (.block body)]

def Block.contents : Block → List Content
  | .mk stmts _ => Stmt.allContents stmts

def Block.optionContents : Option Block → List Content
  | none => []
  | some block => block.contents

def Stmt.allContents : List Stmt → List Content
  | [] => []
  | s :: rest => s.contents ++ Stmt.allContents rest

end

theorem all_contents_flat (stmts : List Stmt) : Stmt.allContents stmts = stmts.flatMap Stmt.contents := by
  induction stmts with
  | nil => rfl
  | cons s rest ih => rw [Stmt.allContents, List.flatMap_cons, ih]

theorem option_contents_flat (block : Option Block) :
    Block.optionContents block = block.toList.flatMap Block.contents := by
  cases block <;> simp [Block.optionContents]

def MemberDecl.contents (decl : MemberDecl) : List Content := Expr.optionContents decl.default

def Item.contents : Item → List Content
  | .function decl => Block.optionContents decl.body
  | .variable decl => Expr.optionContents decl.initializer
  | .struct decl => decl.members.flatMap MemberDecl.contents

def Module.contents (m : Module) : List Content := m.items.flatMap Item.contents

end Tree

end SemanticAnalysis
