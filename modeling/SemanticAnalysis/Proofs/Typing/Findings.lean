import SemanticAnalysis.Proofs.Typing.Backing
/-!
Findings of the second phase. Nodes are typed after their operands, so at each node the types of the operands are on
record. What is found at a node follows from these types, and so it stays the same while more is recorded.
-/
namespace SemanticAnalysis
open Running Analysis SemanticAnalysis.Bound

namespace Bound

/-- Every node stands behind the nodes of its operands, or these have been seen before. -/
def PostOrder : List Node → List Node → Prop
  | _, [] => True
  | seen, n :: rest =>
    (∀ e ∈ n.operands, ∀ id, e.id? = some id → ∃ m ∈ seen, m.id? = some id) ∧ PostOrder (seen ++ [n]) rest

variable {seen more ns : List Node}

theorem post_order_mono (within : seen ⊆ more) (order : PostOrder seen ns) :
    PostOrder more ns := by
  induction ns generalizing seen more with
  | nil => trivial
  | cons n rest ih =>
    obtain ⟨here, others⟩ := order
    constructor
    · intro e operand id same
      obtain ⟨m, member, there⟩ := here e operand id same
      exact ⟨m, within member, there⟩
    · exact ih (fun m member => List.mem_append.mpr ((List.mem_append.mp member).imp_left (within ·))) others

theorem post_order_append (first : PostOrder seen ns)
    (second : PostOrder (seen ++ ns) more) :
    PostOrder seen (ns ++ more) := by
  induction ns generalizing seen with
  | nil =>
    rw [List.append_nil] at second
    exact second
  | cons n rest ih =>
    refine ⟨first.1, ih first.2 ?_⟩
    rw [List.append_assoc]
    exact second

theorem post_order_both (first : PostOrder [] ns) (second : PostOrder [] more) :
    PostOrder [] (ns ++ more) :=
  post_order_append first (post_order_mono (List.nil_subset _) second)

theorem post_order_at {done rest : List Node} {n : Node} (order : PostOrder seen (done ++ n :: rest)) :
    ∀ e ∈ n.operands, ∀ id, e.id? = some id → ∃ m ∈ seen ++ done, m.id? = some id := by
  induction done generalizing seen with
  | nil =>
    rw [List.append_nil]
    exact order.1
  | cons m done ih =>
    have later := ih order.2
    rw [List.append_assoc] at later
    exact later

theorem Expr.all_nodes_member {e : Expr} {es : List Expr} (member : e ∈ es) : e.nodes ⊆ Expr.allNodes es := by
  induction es with
  | nil => cases member
  | cons d rest ih =>
    rw [Expr.allNodes]
    rcases List.mem_cons.mp member with rfl | there
    · exact List.subset_append_left _ _
    · exact List.subset_append_of_subset_right _ (ih there)

mutual

theorem Expr.post_order : ∀ e : Expr, PostOrder [] e.nodes
  | .identifier .. => by simp [Expr.nodes, PostOrder, Node.operands]
  | .number .. => by simp [Expr.nodes, PostOrder, Node.operands]
  | .null _ => by simp [Expr.nodes, PostOrder]
  | .invocation call receiver args => by
    rw [Expr.nodes]
    apply post_order_append (post_order_both (Expr.option_post_order receiver) (Expr.all_post_order args))
    refine ⟨?_, trivial⟩
    intro e operand id same
    obtain ⟨m, member, there⟩ := Expr.id_node same
    refine ⟨m, ?_, there⟩
    rw [List.nil_append, List.mem_append]
    rcases List.mem_append.mp operand with isReceiver | isArgument
    · rw [Option.mem_toList] at isReceiver
      rw [isReceiver]
      exact .inl member
    · exact .inr (Expr.all_nodes_member isArgument member)
  | .member node object name nullSafe site => by
    rw [Expr.nodes]
    apply post_order_append (Expr.post_order object)
    refine ⟨?_, trivial⟩
    intro e operand id same
    rw [List.mem_singleton.mp operand] at same
    exact Expr.id_node same
  | .paren inner _ => by
    rw [Expr.nodes]
    exact Expr.post_order inner

theorem Expr.option_post_order : ∀ e : Option Expr, PostOrder [] (Expr.optionNodes e)
  | none => trivial
  | some e => Expr.post_order e

theorem Expr.all_post_order : ∀ es : List Expr, PostOrder [] (Expr.allNodes es)
  | [] => trivial
  | e :: rest => post_order_both (Expr.post_order e) (Expr.all_post_order rest)

end

mutual

theorem Stmt.returned_nodes {e : Expr} : ∀ {s : Stmt}, e ∈ s.returns.filterMap Return.value →
    ∀ n ∈ e.nodes, .node n ∈ s.steps
  | .expr .., returned => by simp [Stmt.returns] at returned
  | .variable .., returned => by simp [Stmt.returns] at returned
  | .assign .., returned => by simp [Stmt.returns] at returned
  | .ret value _, returned => by
    cases value with
    | none => simp [Stmt.returns] at returned
    | some d =>
      have same : e = d := by simpa [Stmt.returns] using returned
      rw [same]
      exact fun n member => List.mem_map.mpr ⟨n, member, rfl⟩
  | .branch _ thenBranch elseBranch _, returned => by
    rw [Stmt.returns, List.filterMap_append] at returned
    intro n member
    rw [Stmt.steps]
    rcases List.mem_append.mp returned with first | second
    · exact List.mem_append_left _ (List.mem_append_right _ (Block.returned_nodes first n member))
    · exact List.mem_append_right _ (Block.option_returned_nodes second n member)
  | .block body, returned => Block.returned_nodes (b := body) returned

theorem Block.returned_nodes {e : Expr} : ∀ {b : Block}, e ∈ b.returns.filterMap Return.value →
    ∀ n ∈ e.nodes, .node n ∈ b.steps
  | .mk stmts _, returned => @Stmt.all_returned_nodes e stmts returned

theorem Block.option_returned_nodes {e : Expr} : ∀ {b : Option Block},
    e ∈ (Block.optionReturns b).filterMap Return.value → ∀ n ∈ e.nodes, .node n ∈ Block.optionSteps b
  | none, returned => by simp [Block.optionReturns] at returned
  | some b, returned => Block.returned_nodes (b := b) returned

theorem Stmt.all_returned_nodes {e : Expr} : ∀ {ss : List Stmt},
    e ∈ (Stmt.allReturns ss).filterMap Return.value → ∀ n ∈ e.nodes, .node n ∈ Stmt.allSteps ss
  | [], returned => by simp [Stmt.allReturns] at returned
  | s :: rest, returned => by
    rw [Stmt.allReturns, List.filterMap_append] at returned
    intro n member
    rw [Stmt.allSteps]
    rcases List.mem_append.mp returned with first | others
    · exact List.mem_append_left _ (Stmt.returned_nodes first n member)
    · exact List.mem_append_right _ (Stmt.all_returned_nodes others n member)

end

theorem returned_nodes {f : Function} {e : Expr} (returned : e ∈ Program.returnedValues f) :
    ∀ n ∈ e.nodes, .node n ∈ Block.optionSteps f.body := by
  unfold Program.returnedValues at returned
  cases written : f.body with
  | none =>
    rw [written] at returned
    cases returned
  | some body =>
    rw [written] at returned
    exact Block.returned_nodes returned

end Bound

namespace Program
variable (p : Program)

theorem initial_post_order (id : VariableId) : PostOrder [] (p.initialNodes id) := by
  unfold initialNodes
  cases p.vars[id.index]? with
  | none => trivial
  | some v => exact Expr.option_post_order v.initializer

mutual

theorem stmt_post_order : ∀ s : Stmt, PostOrder [] (p.stepsNodes s.steps)
  | .expr value _ => by
    rw [Stmt.steps, steps_nodes_nodes]
    exact Expr.post_order value
  | .variable id _ => by
    rw [Stmt.steps]
    simpa [stepsNodes, stepNodes] using p.initial_post_order id
  | .assign target value site => by
    rw [Stmt.steps]
    simpa [stepsNodes, stepNodes] using post_order_both (Expr.post_order target) (Expr.post_order value)
  | .ret value _ => by
    rw [Stmt.steps, steps_nodes_nodes]
    exact Expr.option_post_order value
  | .branch condition thenBranch elseBranch _ => by
    rw [Stmt.steps, steps_nodes_append, steps_nodes_append, steps_nodes_nodes]
    exact post_order_both (post_order_both (Expr.post_order condition) (block_post_order thenBranch))
      (option_block_post_order elseBranch)
  | .block body => by
    rw [Stmt.steps]
    exact block_post_order body

theorem block_post_order : ∀ b : Block, PostOrder [] (p.stepsNodes b.steps)
  | .mk stmts _ => by
    rw [Block.steps]
    exact stmts_post_order stmts

theorem option_block_post_order : ∀ b : Option Block, PostOrder [] (p.stepsNodes (Block.optionSteps b))
  | none => trivial
  | some b => block_post_order b

theorem stmts_post_order : ∀ ss : List Stmt, PostOrder [] (p.stepsNodes (Stmt.allSteps ss))
  | [] => trivial
  | s :: rest => by
    rw [Stmt.allSteps, steps_nodes_append]
    exact post_order_both (stmt_post_order s) (stmts_post_order rest)

end

end Program

namespace Bound

def Node.typeFindings (p : Program) (facts : Facts) : Node → List Diagnostic
  | .identifier _ name site =>
    if p.referral? site.scope name = none then [.ofError (.unresolvedVariable name) site.span] else []
  | .number _ _ => []
  | .call invocation receiver args =>
    Program.traversalFindings invocation (receiver.map (Expr.type facts))
      ++ (p.callFindings invocation (receiver.map (Expr.type facts)) (args.map (Expr.type facts))).toOption.getD []
  | .member _ object name nullSafe site => p.memberFindings (object.type facts) name nullSafe site

def Variable.typeFindings (p : Program) (facts : Facts) (v : Variable) : List Diagnostic :=
  (Expr.optionNodes v.initializer).flatMap (Node.typeFindings p facts)
    ++ (p.initializerFindings v facts).toOption.getD []

end Bound

def Program.targetFindings (p : Program) (target : Expr) (site : Site) : List Diagnostic :=
  match target with
  | .identifier _ name place =>
    match p.referral? place.scope name with
    | some (.variable id) =>
      if p.vars[id.index]?.any (fun v => !v.isMutable) then [.ofError (.assignmentToImmutable name) site.span] else []
    | _ => []
  | _ => []

namespace Bound

def Step.typeFindings (p : Program) (facts : Facts) : Step → List Diagnostic
  | .node n => n.typeFindings p facts
  | .introduce id => ((p.vars[id.index]?).map (Variable.typeFindings p facts)).getD []
  | .assign target value site =>
    (target.nodes ++ value.nodes).flatMap (Node.typeFindings p facts) ++ p.targetFindings target site

end Bound

def Program.typeFindings (p : Program) (facts : Facts) : Declaration → List Diagnostic
  | .function id =>
    ((p.functions[id.index]?).map (fun f => (Block.optionSteps f.body).flatMap (Step.typeFindings p facts))).getD []
  | .variable id => ((p.vars[id.index]?).map (Variable.typeFindings p facts)).getD []
  | .struct id =>
    ((p.structs[id.index]?).map (fun s => (Expr.allNodes s.defaults).flatMap (Node.typeFindings p facts))).getD []

namespace Facts
variable {p : Program} {facts after : Facts}

def Covers (facts : Facts) (n : Node) : Prop := facts.Typed n.id? ∧ facts.OperandsTyped n

theorem covers_extends (grows : facts.types.Grows after.types) {n : Node} (covers : facts.Covers n) : after.Covers n :=
  ⟨typed_extends grows covers.1, operands_typed_extends grows covers.2⟩

theorem covers_initializer {v : Variable} (covers : ∀ n ∈ Expr.optionNodes v.initializer, facts.Covers n) :
    ∀ e ∈ v.initializer.toList, facts.Typed e.id? := by
  intro e member id same
  rw [Option.mem_toList] at member
  rw [member] at covers
  obtain ⟨n, there, equal⟩ := Expr.id_node same
  exact (covers n there).1 id equal

theorem node_findings_extend (grows : facts.types.Grows after.types) {n : Node} (typed : facts.OperandsTyped n) :
    n.typeFindings p after = n.typeFindings p facts := by
  cases n with
  | call call receiver args =>
    obtain ⟨ofReceiver, ofArgs⟩ := call_operands_extend grows typed
    rw [Node.typeFindings, Node.typeFindings, ofReceiver, ofArgs]
  | member node object name nullSafe site =>
    rw [Node.typeFindings, Node.typeFindings, type_extends grows (typed object (List.mem_singleton_self _))]
  | _ => rfl

theorem nodes_findings_extend (grows : facts.types.Grows after.types) {ns : List Node}
    (covers : ∀ n ∈ ns, facts.Covers n) :
    ns.flatMap (Node.typeFindings p after) = ns.flatMap (Node.typeFindings p facts) :=
  List.flatMap_congr (fun n member => node_findings_extend grows (covers n member).2)

theorem initializer_findings_extend (grows : facts.types.Grows after.types) {v : Variable}
    (typed : ∀ e ∈ v.initializer.toList, facts.Typed e.id?) :
    p.initializerFindings v after = p.initializerFindings v facts := by
  unfold Program.initializerFindings
  cases initial : v.initializer with
  | none => cases p.declaredType v <;> rfl
  | some e =>
    rw [initial] at typed
    have same := type_extends grows (typed e (List.mem_singleton_self e))
    cases p.declaredType v with
    | none => rfl
    | some declared => simp only [Program.initializerFault, same]

theorem variable_findings_extend (grows : facts.types.Grows after.types) {v : Variable}
    (covers : ∀ n ∈ Expr.optionNodes v.initializer, facts.Covers n) :
    v.typeFindings p after = v.typeFindings p facts := by
  unfold Variable.typeFindings
  rw [nodes_findings_extend grows covers, initializer_findings_extend grows (covers_initializer covers)]

theorem step_findings_extend (grows : facts.types.Grows after.types) {s : Step}
    (covers : ∀ n ∈ p.stepNodes s, facts.Covers n) :
    s.typeFindings p after = s.typeFindings p facts := by
  cases s with
  | node n => exact node_findings_extend grows (covers n (List.mem_singleton_self n)).2
  | introduce id =>
    rw [Step.typeFindings, Step.typeFindings]
    cases found : p.vars[id.index]? with
    | none => rw [Option.map_none, Option.map_none]
    | some v =>
      have inside : p.stepNodes (.introduce id) = Expr.optionNodes v.initializer := by
        simp [Program.stepNodes, Program.initialNodes, found]
      rw [inside] at covers
      rw [Option.map_some, Option.map_some, variable_findings_extend grows covers]
  | assign target value site =>
    have inside : ∀ n ∈ target.nodes ++ value.nodes, facts.Covers n := covers
    have same := nodes_findings_extend (p := p) grows inside
    rw [Step.typeFindings, Step.typeFindings, same]

theorem steps_findings_extend (grows : facts.types.Grows after.types) {steps : List Step}
    (covers : ∀ n ∈ p.stepsNodes steps, facts.Covers n) :
    steps.flatMap (Step.typeFindings p after) = steps.flatMap (Step.typeFindings p facts) :=
  List.flatMap_congr (fun s member => step_findings_extend grows
    (fun n inside => covers n (List.mem_flatMap.mpr ⟨s, member, inside⟩)))

theorem declaration_findings_extend (grows : facts.types.Grows after.types) {d : Declaration}
    (covers : ∀ n ∈ p.nodesOf d, facts.Covers n) : p.typeFindings after d = p.typeFindings facts d := by
  cases d with
  | function id =>
    rw [Program.typeFindings, Program.typeFindings]
    cases found : p.functions[id.index]? with
    | none => rw [Option.map_none, Option.map_none]
    | some f =>
      rw [Program.nodes_function found] at covers
      rw [Option.map_some, Option.map_some, steps_findings_extend grows covers]
  | «variable» id => exact step_findings_extend (s := .introduce id) grows covers
  | struct id =>
    rw [Program.typeFindings, Program.typeFindings]
    cases found : p.structs[id.index]? with
    | none => rw [Option.map_none, Option.map_none]
    | some s =>
      rw [Program.nodes_struct found] at covers
      rw [Option.map_some, Option.map_some, nodes_findings_extend grows covers]

end Facts

end SemanticAnalysis
