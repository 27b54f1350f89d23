import SemanticAnalysis.Session
/-!
Trees as lists. Every phase goes through an expression in the same order: operands before what they belong to, the
receiver before the arguments. So the work of a phase on a tree is its work on the nodes of the tree, one after the
other, and what holds of the work on each node holds of the whole. Statements are listed likewise; a statement that
assigns stays one entry of the list, because the phases treat its two sides differently.
-/
namespace SemanticAnalysis

/-- Does some work for each of several things and puts the results one after the other. -/
def Analysis.collect {α β : Type} (f : α → Analysis (List β)) : List α → Analysis (List β)
  | [] => pure []
  | x :: rest => do
    let first ← f x
    let others ← collect f rest
    pure (first ++ others)

namespace Analysis
variable {α β : Type} (f : α → Analysis (List β))

theorem collect_nil : collect f [] = pure [] := rfl

theorem collect_cons (x : α) (rest : List α) :
    collect f (x :: rest) = (do
      let first ← f x
      let others ← collect f rest
      pure (first ++ others)) := rfl

theorem collect_append (xs ys : List α) :
    collect f (xs ++ ys) = (do
      let first ← collect f xs
      let others ← collect f ys
      pure (first ++ others)) := by
  induction xs with
  | nil => simp [collect_nil]
  | cons x xs ih =>
    simp only [List.cons_append, collect_cons, ih, bind_assoc, pure_bind, List.append_assoc]

theorem collect_singleton (x : α) : collect f [x] = f x := by
  simp [collect_cons, collect_nil]

theorem collect_map {γ : Type} (g : γ → α) (xs : List γ) : collect f (xs.map g) = collect (fun x => f (g x)) xs := by
  induction xs with
  | nil => rfl
  | cons x xs ih => rw [List.map_cons, collect_cons, collect_cons, ih]

theorem collect_none (xs : List α) : collect (fun _ => pure ([] : List β)) xs = pure [] := by
  induction xs with
  | nil => rfl
  | cons x xs ih => simp [collect_cons, ih]

end Analysis

namespace Program
open SemanticAnalysis.Analysis

theorem run_phase_all_collect (p : Program) (phase : Phase) (ds : List Declaration) :
    p.runPhaseAll phase ds = collect (p.runPhase · phase) ds := by
  induction ds with
  | nil => rfl
  | cons d rest ih => rw [runPhaseAll, collect_cons, ih]

theorem analyse_collect (p : Program) : p.analyse = collect (p.runPhaseAll · p.declarations) Phase.all := rfl

end Program

namespace Bound
open SemanticAnalysis.Analysis

/-- A node of an expression, with the parts that its treatment looks at. -/
inductive Node where
  | identifier (node : NodeId) (name : String) (site : Site)
  | number (numeral : Tree.Numeral) (site : Site)
  | call (call : Invocation) (receiver : Option Expr) (args : List Expr)
  | member (node : NodeId) (object : Expr) (name : Ident) (nullSafe : Bool) (site : Site)

mutual

def Expr.nodes : Expr → List Node
  | .identifier node name site => [.identifier node name site]
  | .number numeral site => [.number numeral site]
  | .null _ => []
  | .invocation call receiver args => Expr.optionNodes receiver ++ Expr.allNodes args ++ [.call call receiver args]
  | .member node object name nullSafe site => object.nodes ++ [.member node object name nullSafe site]
  | .paren inner _ => inner.nodes

def Expr.optionNodes : Option Expr → List Node
  | none => []
  | some e => e.nodes

def Expr.allNodes : List Expr → List Node
  | [] => []
  | e :: rest => e.nodes ++ Expr.allNodes rest

end

namespace Node

def resolve (p : Program) : Node → Analysis (List Diagnostic)
  | .identifier node name site => p.resolveIdentifier node name site
  | .number numeral site => pure (numeral.findings site.span)
  | _ => pure []

def assignTypes (p : Program) (ask : TypeSource) : Node → Analysis (List Diagnostic)
  | .identifier node name site => p.typeIdentifier ask node name site
  | .number _ _ => pure []
  | .call invocation receiver args => do
    let facts ← get
    p.typeInvocation ask invocation (receiver.map (Expr.type facts)) (args.map (Expr.type facts))
  | .member node object name nullSafe site => do
    let facts ← get
    p.typeMember node (object.type facts) name nullSafe site

def effects (p : Program) (access : Access) (ask : SummarySource) (boundary : ScopeId) :
    Node → Analysis (List Effect)
  | .identifier node name site => do
    let facts ← get
    pure (p.identifierEffects facts access boundary node name site)
  | .call invocation _ _ => Program.callEffects access ask invocation
  | _ => pure []

end Node

section Expressions
variable (p : Program)

mutual

theorem Expr.resolve_collect : ∀ e : Expr, e.resolve p = collect (Node.resolve p) e.nodes
  | .identifier .. => by simp [Expr.resolve, Expr.nodes, collect_singleton, Node.resolve]
  | .number .. => by simp [Expr.resolve, Expr.nodes, collect_singleton, Node.resolve]
  | .null _ => by simp [Expr.resolve, Expr.nodes, collect_nil]
  | .invocation _ receiver args => by
    simp [Expr.resolve, Expr.nodes, collect_append, collect_singleton, Node.resolve,
      Expr.resolve_option_collect receiver, Expr.resolve_all_collect args]
  | .member _ object _ _ _ => by
    simp [Expr.resolve, Expr.nodes, collect_append, collect_singleton, Node.resolve, Expr.resolve_collect object]
  | .paren inner _ => by simp [Expr.resolve, Expr.nodes, Expr.resolve_collect inner]

theorem Expr.resolve_option_collect :
    ∀ e : Option Expr, Expr.resolveOption p e = collect (Node.resolve p) (Expr.optionNodes e)
  | none => by simp [Expr.resolveOption, Expr.optionNodes, collect_nil]
  | some e => by simp [Expr.resolveOption, Expr.optionNodes, Expr.resolve_collect e]

theorem Expr.resolve_all_collect :
    ∀ es : List Expr, Expr.resolveAll p es = collect (Node.resolve p) (Expr.allNodes es)
  | [] => by simp [Expr.resolveAll, Expr.allNodes, collect_nil]
  | e :: rest => by
    simp [Expr.resolveAll, Expr.allNodes, collect_append, Expr.resolve_collect e, Expr.resolve_all_collect rest]

end

variable (ask : TypeSource)

mutual

theorem Expr.types_collect : ∀ e : Expr, e.assignTypes p ask = collect (Node.assignTypes p ask) e.nodes
  | .identifier .. => by simp [Expr.assignTypes, Expr.nodes, collect_singleton, Node.assignTypes]
  | .number .. => by simp [Expr.assignTypes, Expr.nodes, collect_singleton, Node.assignTypes]
  | .null _ => by simp [Expr.assignTypes, Expr.nodes, collect_nil]
  | .invocation _ receiver args => by
    simp [Expr.assignTypes, Expr.nodes, collect_append, collect_singleton, Node.assignTypes,
      Expr.types_option_collect receiver, Expr.types_all_collect args]
  | .member _ object _ _ _ => by
    simp [Expr.assignTypes, Expr.nodes, collect_append, collect_singleton, Node.assignTypes,
      Expr.types_collect object]
  | .paren inner _ => by simp [Expr.assignTypes, Expr.nodes, Expr.types_collect inner]

theorem Expr.types_option_collect :
    ∀ e : Option Expr, Expr.assignOption p ask e = collect (Node.assignTypes p ask) (Expr.optionNodes e)
  | none => by simp [Expr.assignOption, Expr.optionNodes, collect_nil]
  | some e => by simp [Expr.assignOption, Expr.optionNodes, Expr.types_collect e]

theorem Expr.types_all_collect :
    ∀ es : List Expr, Expr.assignAll p ask es = collect (Node.assignTypes p ask) (Expr.allNodes es)
  | [] => by simp [Expr.assignAll, Expr.allNodes, collect_nil]
  | e :: rest => by
    simp [Expr.assignAll, Expr.allNodes, collect_append, Expr.types_collect e, Expr.types_all_collect rest]

end

variable (access : Access) (source : SummarySource) (boundary : ScopeId)

mutual

theorem Expr.effects_collect :
    ∀ e : Expr, e.effects p access source boundary = collect (Node.effects p access source boundary) e.nodes
  | .identifier .. => by simp [Expr.effects, Expr.nodes, collect_singleton, Node.effects]
  | .number .. => by simp [Expr.effects, Expr.nodes, collect_singleton, Node.effects]
  | .null _ => by simp [Expr.effects, Expr.nodes, collect_nil]
  | .invocation _ receiver args => by
    simp [Expr.effects, Expr.nodes, collect_append, collect_singleton, Node.effects,
      Expr.effects_option_collect receiver, Expr.effects_all_collect args]
  | .member _ object _ _ _ => by
    simp [Expr.effects, Expr.nodes, collect_append, collect_singleton, Node.effects, Expr.effects_collect object]
  | .paren inner _ => by simp [Expr.effects, Expr.nodes, Expr.effects_collect inner]

theorem Expr.effects_option_collect :
    ∀ e : Option Expr, Expr.optionEffects p access source boundary e
      = collect (Node.effects p access source boundary) (Expr.optionNodes e)
  | none => by simp [Expr.optionEffects, Expr.optionNodes, collect_nil]
  | some e => by simp [Expr.optionEffects, Expr.optionNodes, Expr.effects_collect e]

theorem Expr.effects_all_collect :
    ∀ es : List Expr, Expr.allEffects p access source boundary es
      = collect (Node.effects p access source boundary) (Expr.allNodes es)
  | [] => by simp [Expr.allEffects, Expr.allNodes, collect_nil]
  | e :: rest => by
    simp [Expr.allEffects, Expr.allNodes, collect_append, Expr.effects_collect e, Expr.effects_all_collect rest]

end

end Expressions

/-- What is treated as one when a phase goes through statements. -/
inductive Step where
  | node (node : Node)
  | introduce (id : VariableId)
  | assign (target value : Expr) (site : Site)

mutual

def Stmt.steps : Stmt → List Step
  | .expr value _ => value.nodes.map .node
  | .variable id _ => [.introduce id]
  | .assign target value site => [.assign target value site]
  | .ret value _ => (Expr.optionNodes value).map .node
  | .branch condition thenBranch elseBranch _ =>
    condition.nodes.map .node ++ thenBranch.steps ++ Block.optionSteps elseBranch
  | .block body => body.steps

def Block.steps : Block → List Step
  | .mk stmts _ => Stmt.allSteps stmts

def Block.optionSteps : Option Block → List Step
  | none => []
  | some block => block.steps

def Stmt.allSteps : List Stmt → List Step
  | [] => []
  | s :: rest => s.steps ++ Stmt.allSteps rest

end

namespace Step

def resolve (p : Program) : Step → Analysis (List Diagnostic)
  | .node n => n.resolve p
  | .introduce id => p.resolveVariable id
  | .assign target value _ => do
    let ofTarget ← target.resolve p
    let ofValue ← value.resolve p
    pure (ofTarget ++ ofValue)

def assignTypes (p : Program) (ask : TypeSource) : Step → Analysis (List Diagnostic)
  | .node n => n.assignTypes p ask
  | .introduce id => p.typeVariable ask id
  | .assign target value site => do
    let ofTarget ← target.assignTypes p ask
    let ofValue ← value.assignTypes p ask
    let own ← p.assignmentFindings target site
    pure (ofTarget ++ ofValue ++ own)

def validate (p : Program) : Step → Analysis (List Diagnostic)
  | .introduce id => p.validateVariable id
  | _ => pure []

def effects (p : Program) (access : Access) (ask : SummarySource) (boundary : ScopeId) :
    Step → Analysis (List Effect)
  | .node n => n.effects p access ask boundary
  | .introduce id => p.variableEffects access ask boundary id
  | .assign target value site => do
    let facts ← get
    let ofTarget ← target.targetEffects p access ask boundary
    let ofValue ← value.effects p access ask boundary
    pure (p.assignmentEffects facts access boundary target site ++ ofTarget ++ ofValue)

end Step

section Statements
variable (p : Program)

theorem Step.resolve_assign (target value : Expr) (site : Site) :
    (Step.assign target value site).resolve p = collect (Node.resolve p) (target.nodes ++ value.nodes) := by
  rw [Step.resolve, Expr.resolve_collect, Expr.resolve_collect, collect_append]

mutual

theorem Stmt.resolve_collect : ∀ s : Stmt, s.resolve p = collect (Step.resolve p) s.steps
  | .expr value _ => by simp [Stmt.resolve, Stmt.steps, collect_map, Step.resolve, Expr.resolve_collect]
  | .variable .. => by simp [Stmt.resolve, Stmt.steps, collect_singleton, Step.resolve]
  | .assign .. => by simp [Stmt.resolve, Stmt.steps, collect_singleton, Step.resolve]
  | .ret value _ => by simp [Stmt.resolve, Stmt.steps, collect_map, Step.resolve, Expr.resolve_option_collect]
  | .branch condition thenBranch elseBranch _ => by
    simp [Stmt.resolve, Stmt.steps, collect_append, collect_map, Step.resolve, Expr.resolve_collect,
      Block.resolve_collect thenBranch, Block.resolve_option_collect elseBranch]
  | .block body => by simp [Stmt.resolve, Stmt.steps, Block.resolve_collect body]

theorem Block.resolve_collect : ∀ b : Block, b.resolve p = collect (Step.resolve p) b.steps
  | .mk stmts _ => by simp [Block.resolve, Block.steps, Stmt.resolve_all_collect stmts]

theorem Block.resolve_option_collect :
    ∀ b : Option Block, Block.resolveOption p b = collect (Step.resolve p) (Block.optionSteps b)
  | none => by simp [Block.resolveOption, Block.optionSteps, collect_nil]
  | some b => by simp [Block.resolveOption, Block.optionSteps, Block.resolve_collect b]

theorem Stmt.resolve_all_collect :
    ∀ ss : List Stmt, Stmt.resolveAll p ss = collect (Step.resolve p) (Stmt.allSteps ss)
  | [] => by simp [Stmt.resolveAll, Stmt.allSteps, collect_nil]
  | s :: rest => by
    simp [Stmt.resolveAll, Stmt.allSteps, collect_append, Stmt.resolve_collect s, Stmt.resolve_all_collect rest]

end

variable (ask : TypeSource)

mutual

theorem Stmt.types_collect : ∀ s : Stmt, s.assignTypes p ask = collect (Step.assignTypes p ask) s.steps
  | .expr value _ => by simp [Stmt.assignTypes, Stmt.steps, collect_map, Step.assignTypes, Expr.types_collect]
  | .variable .. => by simp [Stmt.assignTypes, Stmt.steps, collect_singleton, Step.assignTypes]
  | .assign .. => by simp [Stmt.assignTypes, Stmt.steps, collect_singleton, Step.assignTypes]
  | .ret value _ => by
    simp [Stmt.assignTypes, Stmt.steps, collect_map, Step.assignTypes, Expr.types_option_collect]
  | .branch condition thenBranch elseBranch _ => by
    simp [Stmt.assignTypes, Stmt.steps, collect_append, collect_map, Step.assignTypes, Expr.types_collect,
      Block.types_collect thenBranch, Block.types_option_collect elseBranch]
  | .block body => by simp [Stmt.assignTypes, Stmt.steps, Block.types_collect body]

theorem Block.types_collect : ∀ b : Block, b.assignTypes p ask = collect (Step.assignTypes p ask) b.steps
  | .mk stmts _ => by simp [Block.assignTypes, Block.steps, Stmt.types_all_collect stmts]

theorem Block.types_option_collect :
    ∀ b : Option Block, Block.assignOption p ask b = collect (Step.assignTypes p ask) (Block.optionSteps b)
  | none => by simp [Block.assignOption, Block.optionSteps, collect_nil]
  | some b => by simp [Block.assignOption, Block.optionSteps, Block.types_collect b]

theorem Stmt.types_all_collect :
    ∀ ss : List Stmt, Stmt.assignAll p ask ss = collect (Step.assignTypes p ask) (Stmt.allSteps ss)
  | [] => by simp [Stmt.assignAll, Stmt.allSteps, collect_nil]
  | s :: rest => by
    simp [Stmt.assignAll, Stmt.allSteps, collect_append, Stmt.types_collect s, Stmt.types_all_collect rest]

end

mutual

theorem Stmt.validate_collect : ∀ s : Stmt, s.validate p = collect (Step.validate p) s.steps
  | .expr .. => by simp [Stmt.validate, Stmt.steps, collect_map, Step.validate, collect_none]
  | .variable .. => by simp [Stmt.validate, Stmt.steps, collect_singleton, Step.validate]
  | .assign .. => by simp [Stmt.validate, Stmt.steps, collect_singleton, Step.validate]
  | .ret .. => by simp [Stmt.validate, Stmt.steps, collect_map, Step.validate, collect_none]
  | .branch _ thenBranch elseBranch _ => by
    simp [Stmt.validate, Stmt.steps, collect_append, collect_map, Step.validate, collect_none,
      Block.validate_collect thenBranch, Block.validate_option_collect elseBranch]
  | .block body => by simp [Stmt.validate, Stmt.steps, Block.validate_collect body]

theorem Block.validate_collect : ∀ b : Block, b.validate p = collect (Step.validate p) b.steps
  | .mk stmts _ => by simp [Block.validate, Block.steps, Stmt.validate_all_collect stmts]

theorem Block.validate_option_collect :
    ∀ b : Option Block, Block.validateOption p b = collect (Step.validate p) (Block.optionSteps b)
  | none => by simp [Block.validateOption, Block.optionSteps, collect_nil]
  | some b => by simp [Block.validateOption, Block.optionSteps, Block.validate_collect b]

theorem Stmt.validate_all_collect :
    ∀ ss : List Stmt, Stmt.validateAll p ss = collect (Step.validate p) (Stmt.allSteps ss)
  | [] => by simp [Stmt.validateAll, Stmt.allSteps, collect_nil]
  | s :: rest => by
    simp [Stmt.validateAll, Stmt.allSteps, collect_append, Stmt.validate_collect s, Stmt.validate_all_collect rest]

end

variable (access : Access) (source : SummarySource) (boundary : ScopeId)

mutual

theorem Stmt.effects_collect :
    ∀ s : Stmt, s.effects p access source boundary = collect (Step.effects p access source boundary) s.steps
  | .expr value _ => by simp [Stmt.effects, Stmt.steps, collect_map, Step.effects, Expr.effects_collect]
  | .variable .. => by simp [Stmt.effects, Stmt.steps, collect_singleton, Step.effects]
  | .assign .. => by simp [Stmt.effects, Stmt.steps, collect_singleton, Step.effects]
  | .ret value _ => by simp [Stmt.effects, Stmt.steps, collect_map, Step.effects, Expr.effects_option_collect]
  | .branch condition thenBranch elseBranch _ => by
    simp [Stmt.effects, Stmt.steps, collect_append, collect_map, Step.effects, Expr.effects_collect,
      Block.effects_collect thenBranch, Block.effects_option_collect elseBranch]
  | .block body => by simp [Stmt.effects, Stmt.steps, Block.effects_collect body]

theorem Block.effects_collect :
    ∀ b : Block, b.effects p access source boundary = collect (Step.effects p access source boundary) b.steps
  | .mk stmts _ => by simp [Block.effects, Block.steps, Stmt.effects_all_collect stmts]

theorem Block.effects_option_collect :
    ∀ b : Option Block, Block.optionEffects p access source boundary b
      = collect (Step.effects p access source boundary) (Block.optionSteps b)
  | none => by simp [Block.optionEffects, Block.optionSteps, collect_nil]
  | some b => by simp [Block.optionEffects, Block.optionSteps, Block.effects_collect b]

theorem Stmt.effects_all_collect :
    ∀ ss : List Stmt, Stmt.allEffects p access source boundary ss
      = collect (Step.effects p access source boundary) (Stmt.allSteps ss)
  | [] => by simp [Stmt.allEffects, Stmt.allSteps, collect_nil]
  | s :: rest => by
    simp [Stmt.allEffects, Stmt.allSteps, collect_append, Stmt.effects_collect s, Stmt.effects_all_collect rest]

end

end Statements

def Node.id? : Node → Option NodeId
  | .identifier node _ _ => some node
  | .number _ _ => none
  | .call invocation _ _ => some invocation.node
  | .member node _ _ _ _ => some node

def Node.number? (n : Node) : Option Nat := n.id?.map NodeId.index

end Bound

namespace Program
open SemanticAnalysis.Bound

def initialNodes (p : Program) (id : VariableId) : List Node :=
  ((p.vars[id.index]?).map (fun v => Expr.optionNodes v.initializer)).getD []

/-- The nodes of a step. Those of a variable's initializer are treated where the variable is introduced. -/
def stepNodes (p : Program) : Step → List Node
  | .node n => [n]
  | .introduce id => p.initialNodes id
  | .assign target value _ => target.nodes ++ value.nodes

def stepsNodes (p : Program) (steps : List Step) : List Node := steps.flatMap p.stepNodes

def nodesOf (p : Program) : Declaration → List Node
  | .function id => ((p.functions[id.index]?).map (fun f => p.stepsNodes (Block.optionSteps f.body))).getD []
  | .variable id => p.initialNodes id
  | .struct id => ((p.structs[id.index]?).map (fun s => Expr.allNodes s.defaults)).getD []

end Program

end SemanticAnalysis
