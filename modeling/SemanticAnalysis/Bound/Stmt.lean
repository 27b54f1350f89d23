import SemanticAnalysis.Bound.Expr
/-!
Bound statements. A local variable is kept with all other variables of the program; its statement only names it.
-/
namespace SemanticAnalysis.Bound

mutual

inductive Stmt where
  | expr (value : Expr) (site : Site)
  | variable (id : VariableId) (site : Site)
  | assign (target value : Expr) (site : Site)
  | ret (value : Option Expr) (site : Site)
  | branch (condition : Expr) (thenBranch : Block) (elseBranch : Option Block) (site : Site)
  | block (body : Block)

inductive Block where
  | mk (stmts : List Stmt) (site : Site)

end

def Block.stmts : Block → List Stmt
  | .mk stmts _ => stmts

def Block.site : Block → Site
  | .mk _ site => site

def Stmt.site : Stmt → Site
  | .expr _ site => site
  | .variable _ site => site
  | .assign _ _ site => site
  | .ret _ site => site
  | .branch _ _ _ site => site
  | .block body => body.site

/-- The statements directly inside a statement, in the order of the text. -/
def Stmt.inner : Stmt → List Stmt
  | .branch _ thenBranch elseBranch _ => thenBranch.stmts ++ (elseBranch.map Block.stmts).getD []
  | .block body => body.stmts
  | _ => []

def Stmt.follow? (s : Stmt) : List Nat → Option Stmt
  | [] => some s
  | i :: path => s.inner[i]?.bind (fun t => t.follow? path)

structure Return where
  value : Option Expr
  site : Site

mutual

def Stmt.returns : Stmt → List Return
  | .ret value site => [⟨value, site⟩]
  | .branch _ thenBranch elseBranch _ => thenBranch.returns ++ Block.optionReturns elseBranch
  | .block body => body.returns
  | _ => []

/-- The return statements of a block and of all blocks inside it, in the order of the text. -/
def Block.returns : Block → List Return
  | .mk stmts _ => Stmt.allReturns stmts

def Block.optionReturns : Option Block → List Return
  | none => []
  | some block => block.returns

def Stmt.allReturns : List Stmt → List Return
  | [] => []
  | s :: rest => s.returns ++ Stmt.allReturns rest

end

end SemanticAnalysis.Bound
