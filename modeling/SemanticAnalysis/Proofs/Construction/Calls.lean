import SemanticAnalysis.Tree.Basic
/-!
The calls in declaration trees, in the order in which construction comes to them: a call before what it is called on,
that before the arguments, the left operand before the right one. What stands outside of functions comes before the
bodies of all functions. A call is malformed if it calls something that is neither a name nor a member.
-/
namespace SemanticAnalysis.Tree

structure Call where
  target : Expr
  span : Span

def Expr.isCallable : Expr → Bool
  | .name .. => true
  | .member .. => true
  | _ => false

def Call.isMalformed (c : Call) : Bool := !c.target.isCallable

mutual

def Expr.calls : Expr → List Call
  | .name .. => []
  | .number .. => []
  | .null _ => []
  | .invocation target args span => ⟨target, span⟩ :: (target.calls ++ Expr.allCalls args)
  | .member object _ _ _ => object.calls
  | .binary left _ right _ => left.calls ++ right.calls
  | .unary _ operand _ => operand.calls
  | .paren inner _ => inner.calls

def Expr.allCalls : List Expr → List Call
  | [] => []
  | e :: rest => e.calls ++ Expr.allCalls rest

end

def Expr.optionCalls : Option Expr → List Call
  | none => []
  | some e => e.calls

mutual

def Stmt.calls : Stmt → List Call
  | .expr value _ => value.calls
  | .variable decl => Expr.optionCalls decl.initializer
  | .assign target value _ => target.calls ++ value.calls
  | .ret value _ => Expr.optionCalls value
  | .branch condition thenBranch elseBranch _ =>
    condition.calls ++ (thenBranch.calls ++ Block.optionCalls elseBranch)
  | .block body => body.calls

def Block.calls : Block → List Call
  | .mk stmts _ => Stmt.allCalls stmts

def Block.optionCalls : Option Block → List Call
  | none => []
  | some block => block.calls

def Stmt.allCalls : List Stmt → List Call
  | [] => []
  | s :: rest => s.calls ++ Stmt.allCalls rest

end

namespace Item

def outerCalls : Item → List Call
  | .function _ => []
  | .variable decl => Expr.optionCalls decl.initializer
  | .struct decl => decl.members.flatMap (fun m => Expr.optionCalls m.default)

def bodyCalls : Item → List Call
  | .function decl => Block.optionCalls decl.body
  | _ => []

end Item

def calls (modules : List Module) : List Call :=
  (modules.flatMap Module.items).flatMap Item.outerCalls ++ (modules.flatMap Module.items).flatMap Item.bodyCalls

def faults (calls : List Call) : List Span := (calls.filter Call.isMalformed).map Call.span

@[simp] theorem faults_append (xs ys : List Call) : faults (xs ++ ys) = faults xs ++ faults ys := by
  simp [faults]

theorem faults_flat_map {α : Type} (f : α → List Call) (xs : List α) :
    faults (xs.flatMap f) = xs.flatMap (fun x => faults (f x)) := by
  induction xs with
  | nil => rfl
  | cons x xs ih => rw [List.flatMap_cons, faults_append, ih, List.flatMap_cons]

theorem faults_well_formed {c : Call} (callable : c.target.isCallable = true) (rest : List Call) :
    faults (c :: rest) = faults rest := by
  simp [faults, Call.isMalformed, callable]

end SemanticAnalysis.Tree
