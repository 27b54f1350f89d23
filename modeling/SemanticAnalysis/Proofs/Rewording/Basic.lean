import SemanticAnalysis.Bound.Construction
import SemanticAnalysis.Proofs.Traversal
/-!
Putting a text in other words. A rewording says what becomes of expressions, before and after they are bound, and of the
modifiers of a function that has a body. From that follows what becomes of statements, declarations and programs.

Two rules look at how an expression is written and not only at what it means: `null` as a value that is given to a
variable or returned, and a name as the target of an assignment. There a rewording must not make the expression bare.
-/
namespace SemanticAnalysis
open SemanticAnalysis.Bound

namespace Tree.Expr

def isNull : Tree.Expr → Bool
  | .null _ => true
  | _ => false

def isName : Tree.Expr → Bool
  | .name .. => true
  | _ => false

end Tree.Expr

def Bound.Node.reword (f : Expr → Expr) : Node → Node
  | .identifier node name site => .identifier node name site
  | .number numeral site => .number numeral site
  | .call invocation receiver args => .call invocation (receiver.map f) (args.map f)
  | .member node object name nullSafe site => .member node (f object) name nullSafe site

structure Rewording where
  expr : Tree.Expr → Tree.Expr
  bound : Expr → Expr
  modifiers : FunctionModifiers → FunctionModifiers
  binds : ∀ scope e next,
    Expr.bind scope (expr e) next = (Expr.bind scope e next).map (fun b => (bound b.1, b.2))
  identifier : ∀ node name site, bound (.identifier node name site) = .identifier node name site
  null : ∀ site, bound (.null site) = .null site
  type : ∀ facts e, (bound e).type facts = e.type facts
  root : ∀ e, (bound e).root? = e.root?
  nodes : ∀ e, (bound e).nodes = e.nodes.map (Node.reword bound)
  operator : ∀ m, (modifiers m).operator = m.operator

namespace Rewording
variable (r : Rewording)

def keeping (bare : Tree.Expr → Bool) (e : Tree.Expr) : Tree.Expr :=
  if bare (r.expr e) && !bare e then .paren (r.expr e) {} else r.expr e

def value : Tree.Expr → Tree.Expr := r.keeping Tree.Expr.isNull

def target : Tree.Expr → Tree.Expr := r.keeping Tree.Expr.isName

def variableDecl (decl : Tree.VariableDecl) : Tree.VariableDecl :=
  { decl with initializer := decl.initializer.map r.value }

mutual

def stmt : Tree.Stmt → Tree.Stmt
  | .expr value span => .expr (r.expr value) span
  | .variable decl => .variable (r.variableDecl decl)
  | .assign target value span => .assign (r.target target) (r.expr value) span
  | .ret value span => .ret (value.map r.value) span
  | .branch condition thenBranch elseBranch span =>
    .branch (r.expr condition) (block thenBranch) (optionBlock elseBranch) span
  | .block body => .block (block body)

def block : Tree.Block → Tree.Block
  | .mk ss span => .mk (stmts ss) span

def optionBlock : Option Tree.Block → Option Tree.Block
  | none => none
  | some body => some (block body)

def stmts : List Tree.Stmt → List Tree.Stmt
  | [] => []
  | s :: rest => stmt s :: stmts rest

end

def functionDecl (decl : Tree.FunctionDecl) : Tree.FunctionDecl :=
  { decl with
    modifiers := if decl.body.isSome then r.modifiers decl.modifiers else decl.modifiers
    body := r.optionBlock decl.body }

def memberDecl (decl : Tree.MemberDecl) : Tree.MemberDecl := { decl with default := decl.default.map r.expr }

def structDecl (decl : Tree.StructDecl) : Tree.StructDecl := { decl with members := decl.members.map r.memberDecl }

def item : Tree.Item → Tree.Item
  | .function decl => .function (r.functionDecl decl)
  | .variable decl => .variable (r.variableDecl decl)
  | .struct decl => .struct (r.structDecl decl)

def moduleDecl (m : Tree.Module) : Tree.Module := { m with items := m.items.map r.item }

def boundKeeping (bare : Expr → Bool) (e : Expr) : Expr :=
  if bare (r.bound e) && !bare e then .paren (r.bound e) ⟨e.site.scope, {}⟩ else r.bound e

def boundValue : Expr → Expr := r.boundKeeping Expr.isNull

def boundTarget : Expr → Expr := r.boundKeeping Expr.isIdentifier

mutual

def boundStmt : Stmt → Stmt
  | .expr value site => .expr (r.bound value) site
  | .variable id site => .variable id site
  | .assign target value site => .assign (r.boundTarget target) (r.bound value) site
  | .ret value site => .ret (value.map r.boundValue) site
  | .branch condition thenBranch elseBranch site =>
    .branch (r.bound condition) (boundBlock thenBranch) (boundOption elseBranch) site
  | .block body => .block (boundBlock body)

def boundBlock : Block → Block
  | .mk stmts site => .mk (boundStmts stmts) site

def boundOption : Option Block → Option Block
  | none => none
  | some body => some (boundBlock body)

def boundStmts : List Stmt → List Stmt
  | [] => []
  | s :: rest => boundStmt s :: boundStmts rest

end

def boundFunction (f : Function) : Function :=
  { f with
    origin := match f.origin with
      | .declared decl => .declared (r.functionDecl decl)
      | .builtin builtin => .builtin builtin
    body := r.boundOption f.body }

theorem function_at_map {p q : Program} (functions : q.functions = p.functions.map r.boundFunction) (id : FunctionId) :
    q.functionAt id = (p.functionAt id).map r.boundFunction := by
  unfold Program.functionAt
  rw [functions, Array.getElem?_map]
  cases p.functions[id.index]? <;> rfl

def boundVariable (v : Variable) : Variable :=
  { v with
    origin := match v.origin with
      | .declared decl => .declared (r.variableDecl decl)
      | .parameter function index param => .parameter function index param
    initializer := v.initializer.map r.boundValue }

def boundMember (m : Member) : Member := ⟨r.memberDecl m.decl, m.default.map r.bound⟩

def boundStruct (s : Struct) : Struct := { s with decl := r.structDecl s.decl, members := s.members.map r.boundMember }

section Expressions
variable (bare : Expr → Bool) (e : Expr)

theorem keeping_type (facts : Facts) : (r.boundKeeping bare e).type facts = e.type facts := by
  unfold boundKeeping
  split <;> exact r.type facts e

theorem keeping_root : (r.boundKeeping bare e).root? = e.root? := by
  unfold boundKeeping
  split <;> exact r.root e

theorem keeping_nodes : (r.boundKeeping bare e).nodes = e.nodes.map (Node.reword r.bound) := by
  unfold boundKeeping
  split
  · rw [Expr.nodes]
    exact r.nodes e
  · exact r.nodes e

theorem keeping_bare {bare : Expr → Bool} (paren : ∀ inner site, bare (.paren inner site) = false)
    (stays : ∀ e, bare e = true → r.bound e = e) : bare (r.boundKeeping bare e) = bare e := by
  unfold boundKeeping
  split
  · rename_i wrapped
    rw [paren]
    simp only [Bool.and_eq_true, Bool.not_eq_true'] at wrapped
    exact wrapped.2.symm
  · rename_i kept
    cases was : bare e with
    | true => rw [stays e was, was]
    | false =>
      simp only [was, Bool.not_false, Bool.and_true, Bool.not_eq_true] at kept
      exact kept

theorem null_stays : ∀ e : Expr, e.isNull = true → r.bound e = e
  | .null site, _ => r.null site

theorem identifier_stays : ∀ e : Expr, e.isIdentifier = true → r.bound e = e
  | .identifier node name site, _ => r.identifier node name site

theorem value_is_null : (r.boundValue e).isNull = e.isNull :=
  r.keeping_bare e (fun _ _ => rfl) r.null_stays

theorem target_is_identifier : (r.boundTarget e).isIdentifier = e.isIdentifier :=
  r.keeping_bare e (fun _ _ => rfl) r.identifier_stays

theorem target_identifier (node : NodeId) (name : String) (site : Site) :
    r.boundTarget (.identifier node name site) = .identifier node name site := by
  unfold boundTarget boundKeeping
  rw [r.identifier, if_neg (by simp)]

end Expressions

def step : Step → Step
  | .node n => .node (n.reword r.bound)
  | .introduce id => .introduce id
  | .assign target value site => .assign (r.boundTarget target) (r.bound value) site

theorem option_nodes (e : Option Expr) :
    Expr.optionNodes (e.map r.boundValue) = (Expr.optionNodes e).map (Node.reword r.bound) := by
  cases e with
  | none => rfl
  | some e => exact r.keeping_nodes Expr.isNull e

theorem all_nodes (es : List Expr) :
    Expr.allNodes (es.map r.bound) = (Expr.allNodes es).map (Node.reword r.bound) := by
  induction es with
  | nil => rfl
  | cons e rest ih => rw [List.map_cons, Expr.allNodes, Expr.allNodes, List.map_append, r.nodes, ih]

mutual

theorem stmt_steps : ∀ s : Stmt, (r.boundStmt s).steps = s.steps.map r.step
  | .expr value _ => by simp [boundStmt, Stmt.steps, r.nodes, step]
  | .variable _ _ => by simp [boundStmt, Stmt.steps, step]
  | .assign _ _ _ => by simp [boundStmt, Stmt.steps, step]
  | .ret value _ => by simp [boundStmt, Stmt.steps, r.option_nodes, step]
  | .branch condition thenBranch elseBranch _ => by
    simp [boundStmt, Stmt.steps, r.nodes, block_steps thenBranch, option_steps elseBranch, step]
  | .block body => by simp [boundStmt, Stmt.steps, block_steps body]

theorem block_steps : ∀ b : Block, (r.boundBlock b).steps = b.steps.map r.step
  | .mk stmts _ => by simp [boundBlock, Block.steps, stmts_steps stmts]

theorem option_steps : ∀ b : Option Block, Block.optionSteps (r.boundOption b) = (Block.optionSteps b).map r.step
  | none => by simp [boundOption, Block.optionSteps]
  | some body => by simp [boundOption, Block.optionSteps, block_steps body]

theorem stmts_steps : ∀ ss : List Stmt, Stmt.allSteps (r.boundStmts ss) = (Stmt.allSteps ss).map r.step
  | [] => by simp [boundStmts, Stmt.allSteps]
  | s :: rest => by simp [boundStmts, Stmt.allSteps, stmt_steps s, stmts_steps rest]

end

def boundReturn (ret : Return) : Return := { ret with value := ret.value.map r.boundValue }

mutual

theorem stmt_returns : ∀ s : Stmt, (r.boundStmt s).returns = s.returns.map r.boundReturn
  | .expr _ _ => by simp [boundStmt, Stmt.returns]
  | .variable _ _ => by simp [boundStmt, Stmt.returns]
  | .assign _ _ _ => by simp [boundStmt, Stmt.returns]
  | .ret _ _ => by simp [boundStmt, Stmt.returns, boundReturn]
  | .branch _ thenBranch elseBranch _ => by
    simp [boundStmt, Stmt.returns, block_returns thenBranch, option_returns elseBranch]
  | .block body => by simp [boundStmt, Stmt.returns, block_returns body]

theorem block_returns : ∀ b : Block, (r.boundBlock b).returns = b.returns.map r.boundReturn
  | .mk stmts _ => by simp [boundBlock, Block.returns, stmts_returns stmts]

theorem option_returns :
    ∀ b : Option Block, Block.optionReturns (r.boundOption b) = (Block.optionReturns b).map r.boundReturn
  | none => by simp [boundOption, Block.optionReturns]
  | some body => by simp [boundOption, Block.optionReturns, block_returns body]

theorem stmts_returns : ∀ ss : List Stmt, Stmt.allReturns (r.boundStmts ss) = (Stmt.allReturns ss).map r.boundReturn
  | [] => by simp [boundStmts, Stmt.allReturns]
  | s :: rest => by simp [boundStmts, Stmt.allReturns, stmt_returns s, stmts_returns rest]

end

theorem returned_values (f : Function) :
    Program.returnedValues (r.boundFunction f) = (Program.returnedValues f).map r.boundValue := by
  unfold Program.returnedValues boundFunction
  cases f.body with
  | none => rfl
  | some body =>
    simp only [boundOption, block_returns, List.filterMap_map, List.map_filterMap]
    rfl

theorem reword_id (n : Node) : n.reword id = n := by
  cases n <;> simp [Node.reword]

def ofModifiers (modifiers : FunctionModifiers → FunctionModifiers)
    (operator : ∀ m, (modifiers m).operator = m.operator) : Rewording where
  expr := id
  bound := id
  modifiers := modifiers
  binds scope e next := by
    cases ran : Expr.bind scope e next <;> simp [ran, Except.map]
  identifier _ _ _ := rfl
  null _ := rfl
  type _ _ := rfl
  root _ := rfl
  nodes e := by
    rw [show Node.reword id = id from funext reword_id, List.map_id]
    rfl
  operator := operator

section Modifiers
variable {modifiers : FunctionModifiers → FunctionModifiers} {operator : ∀ m, (modifiers m).operator = m.operator}

theorem modifiers_keeping (bare : Tree.Expr → Bool) (e : Tree.Expr) :
    (ofModifiers modifiers operator).keeping bare e = e := by
  unfold keeping
  rw [if_neg (by simp [ofModifiers])]
  rfl

theorem modifiers_bound_keeping (bare : Expr → Bool) (e : Expr) :
    (ofModifiers modifiers operator).boundKeeping bare e = e := by
  unfold boundKeeping
  rw [if_neg (by simp [ofModifiers])]
  rfl

theorem modifiers_value : (ofModifiers modifiers operator).value = id := funext (modifiers_keeping _)

theorem modifiers_bound_value : (ofModifiers modifiers operator).boundValue = id := funext (modifiers_bound_keeping _)

theorem modifiers_variable_decl (decl : Tree.VariableDecl) :
    (ofModifiers modifiers operator).variableDecl decl = decl := by
  unfold variableDecl
  rw [modifiers_value, Option.map_id]
  rfl

mutual

theorem modifiers_stmt : ∀ s : Tree.Stmt, (ofModifiers modifiers operator).stmt s = s
  | .expr _ _ => by rw [stmt]; rfl
  | .variable decl => by rw [stmt, modifiers_variable_decl]
  | .assign _ _ _ => by rw [stmt, target, modifiers_keeping]; rfl
  | .ret _ _ => by rw [stmt, modifiers_value, Option.map_id]; rfl
  | .branch _ thenBranch elseBranch _ => by
    rw [stmt, modifiers_block thenBranch, modifiers_option_block elseBranch]
    rfl
  | .block body => by rw [stmt, modifiers_block body]

theorem modifiers_block : ∀ b : Tree.Block, (ofModifiers modifiers operator).block b = b
  | .mk ss _ => by rw [block, modifiers_stmts ss]

theorem modifiers_option_block : ∀ b : Option Tree.Block, (ofModifiers modifiers operator).optionBlock b = b
  | none => by rw [optionBlock]
  | some body => by rw [optionBlock, modifiers_block body]

theorem modifiers_stmts : ∀ ss : List Tree.Stmt, (ofModifiers modifiers operator).stmts ss = ss
  | [] => by rw [stmts]
  | s :: rest => by rw [stmts, modifiers_stmt s, modifiers_stmts rest]

end

mutual

theorem modifiers_bound_stmt : ∀ s : Stmt, (ofModifiers modifiers operator).boundStmt s = s
  | .expr _ _ => by rw [boundStmt]; rfl
  | .variable _ _ => by rw [boundStmt]
  | .assign _ _ _ => by rw [boundStmt, boundTarget, modifiers_bound_keeping]; rfl
  | .ret _ _ => by rw [boundStmt, modifiers_bound_value, Option.map_id]; rfl
  | .branch _ thenBranch elseBranch _ => by
    rw [boundStmt, modifiers_bound_block thenBranch, modifiers_bound_option elseBranch]
    rfl
  | .block body => by rw [boundStmt, modifiers_bound_block body]

theorem modifiers_bound_block : ∀ b : Block, (ofModifiers modifiers operator).boundBlock b = b
  | .mk ss _ => by rw [boundBlock, modifiers_bound_stmts ss]

theorem modifiers_bound_option : ∀ b : Option Block, (ofModifiers modifiers operator).boundOption b = b
  | none => by rw [boundOption]
  | some body => by rw [boundOption, modifiers_bound_block body]

theorem modifiers_bound_stmts : ∀ ss : List Stmt, (ofModifiers modifiers operator).boundStmts ss = ss
  | [] => by rw [boundStmts]
  | s :: rest => by rw [boundStmts, modifiers_bound_stmt s, modifiers_bound_stmts rest]

end

theorem modifiers_struct_decl (decl : Tree.StructDecl) : (ofModifiers modifiers operator).structDecl decl = decl := by
  have same : (ofModifiers modifiers operator).memberDecl = id := by
    funext m
    unfold memberDecl
    rw [show (ofModifiers modifiers operator).expr = id from rfl, Option.map_id]
    rfl
  unfold structDecl
  rw [same, List.map_id]

theorem modifiers_bound_variable (v : Variable) : (ofModifiers modifiers operator).boundVariable v = v := by
  unfold boundVariable
  rw [modifiers_bound_value, Option.map_id]
  cases v with
  | mk id origin scope initializer => cases origin <;> simp [modifiers_variable_decl]

theorem modifiers_bound_struct (s : Struct) : (ofModifiers modifiers operator).boundStruct s = s := by
  have same : (ofModifiers modifiers operator).boundMember = id := by
    funext m
    unfold boundMember memberDecl
    rw [show (ofModifiers modifiers operator).expr = id from rfl,
      show (ofModifiers modifiers operator).bound = id from rfl, Option.map_id, Option.map_id]
    rfl
  unfold boundStruct
  rw [modifiers_struct_decl, same, List.map_id]

end Modifiers

def literal : Rewording := ofModifiers id (fun _ => rfl)

theorem literal_function_decl (decl : Tree.FunctionDecl) : literal.functionDecl decl = decl := by
  unfold functionDecl literal
  rw [modifiers_option_block]
  simp [ofModifiers]

theorem literal_item (i : Tree.Item) : literal.item i = i := by
  cases i with
  | function decl => exact congrArg _ (literal_function_decl decl)
  | «variable» decl => exact congrArg _ (modifiers_variable_decl decl)
  | struct decl => exact congrArg _ (modifiers_struct_decl decl)

theorem literal_function (f : Function) : literal.boundFunction f = f := by
  cases f with
  | mk id origin home scope parameters body =>
    have same : literal.boundOption body = body := modifiers_bound_option body
    cases origin <;> simp [boundFunction, same, literal_function_decl]

end Rewording

end SemanticAnalysis
