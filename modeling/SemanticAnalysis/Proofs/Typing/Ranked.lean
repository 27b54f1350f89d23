import SemanticAnalysis.Proofs.Typing.Runs
/-!
Inference without circles. Suppose that declarations without a written type have ranks, and that each of them uses only
such declarations of a smaller rank. Then whatever is asked for has a smaller rank than all that is being inferred, so
that nothing is asked for from inside itself. No record stays empty for that reason, and what is on record follows from
the program alone. Two runs that go through the program in different orders leave the same records behind.
-/
namespace SemanticAnalysis
open Running Analysis SemanticAnalysis.Bound Program

namespace Program
variable {p : Program} {rank : Declaration → Nat}

/-- Where a declaration without a written type uses another one, the rank goes down. -/
def Ranked (p : Program) (rank : Declaration → Nat) : Prop :=
  ∀ d e, p.Unannotated d → p.Unannotated e → p.Uses d e → rank e < rank d

/-- While `c` is being typed, `o` is: they are the same, or `c` is a variable in the body of `o`. -/
def Carries (p : Program) (o c : Declaration) : Prop :=
  o = c ∨ ∃ g v, o = .function g ∧ c = .variable v ∧ p.Local g v

theorem carries_uses {o c e : Declaration} (carries : p.Carries o c) (uses : p.Uses c e) : p.Uses o e := by
  rcases carries with rfl | ⟨g, v, rfl, rfl, own⟩
  · exact uses
  · exact uses_of_local own uses

end Program

def Bound.Node.used (p : Program) : Node → List Declaration
  | .identifier _ name site =>
    match p.referral? site.scope name with
    | some (.variable v) => [.variable v]
    | _ => []
  | .call invocation _ _ => (p.scopes.findFunctions invocation.site.scope invocation.name).map .function
  | _ => []

theorem Bound.Node.mem_used {p : Program} {n : Node} {e : Declaration} : e ∈ n.used p ↔ n.Uses p e := by
  cases n with
  | identifier node name site =>
    cases means : p.referral? site.scope name with
    | none => cases e <;> simp [used, Uses, means]
    | some r => cases r <;> cases e <;> simp [used, Uses, means, eq_comm]
  | _ => cases e <;> simp [used, Uses]

namespace Program
variable {p : Program} {rank : Declaration → Nat}

def isUnannotated (p : Program) : Declaration → Bool
  | .function g => p.functions[g.index]?.any (fun f => !f.statesReturnType)
  | .variable v => p.vars[v.index]?.any (fun var =>
    match var.origin with
    | .declared _ => (p.declaredType var).isNone
    | .parameter .. => false)
  | .struct _ => false

theorem is_unannotated_iff {d : Declaration} : p.isUnannotated d = true ↔ p.Unannotated d := by
  cases d with
  | function g => simp [isUnannotated, Unannotated, Option.any_eq_true]
  | «variable» v =>
    rw [isUnannotated, Option.any_eq_true]
    constructor
    · rintro ⟨var, here, test⟩
      cases origin : var.origin with
      | declared decl => exact ⟨var, decl, here, origin, by simpa [origin] using test⟩
      | parameter function index param => simp [origin] at test
    · rintro ⟨var, decl, here, origin, untyped⟩
      exact ⟨var, here, by simp [origin, untyped]⟩
  | struct s => simp [isUnannotated, Unannotated]

instance (p : Program) : DecidablePred p.Unannotated := fun _ => decidable_of_iff _ is_unannotated_iff

def inferred (p : Program) : List Declaration :=
  ((List.range p.functions.size).map (fun g => Declaration.function ⟨g⟩)
    ++ (List.range p.vars.size).map (fun v => Declaration.variable ⟨v⟩)).filter p.Unannotated

theorem mem_inferred {d : Declaration} : d ∈ p.inferred ↔ p.Unannotated d := by
  unfold inferred
  rw [List.mem_filter, decide_eq_true_eq, and_iff_right_iff_imp]
  intro unannotated
  cases d with
  | function g =>
    obtain ⟨f, here, _⟩ := unannotated
    exact List.mem_append_left _ (List.mem_map.mpr
      ⟨g.index, List.mem_range.mpr (Array.getElem?_eq_some_iff.mp here).1, rfl⟩)
  | «variable» v =>
    obtain ⟨var, _, here, _⟩ := unannotated
    exact List.mem_append_right _ (List.mem_map.mpr
      ⟨v.index, List.mem_range.mpr (Array.getElem?_eq_some_iff.mp here).1, rfl⟩)
  | struct s => cases unannotated

theorem ranked_iff : p.Ranked rank ↔
    ∀ d ∈ p.inferred, ∀ n ∈ p.nodesOf d, ∀ e ∈ n.used p, p.Unannotated e → rank e < rank d := by
  constructor
  · intro ranked d member n inside e used unannotated
    exact ranked d e (mem_inferred.mp member) unannotated ⟨n, inside, Node.mem_used.mp used⟩
  · rintro ranked d e unannotated unannotated' ⟨n, inside, uses⟩
    exact ranked d (mem_inferred.mpr unannotated) n inside e (Node.mem_used.mpr uses) unannotated'

instance (p : Program) (rank : Declaration → Nat) : Decidable (p.Ranked rank) := decidable_of_iff _ ranked_iff.symm

end Program

namespace Facts

/-- All that is being inferred has a larger rank. -/
def Beneath (p : Program) (rank : Declaration → Nat) (facts : Facts) (e : Declaration) : Prop :=
  ∀ c o, facts.phases.state (c, .typing) = .inProgress → p.Carries o c → p.Unannotated o → rank e < rank o

/-- What a declaration uses lies beneath all that is being inferred, and neither it nor anything in its body is being
typed. -/
structure Clear (p : Program) (rank : Declaration → Nat) (facts : Facts) (d : Declaration) : Prop where
  uses : ∀ e, p.Uses d e → p.Unannotated e → facts.Beneath p rank e
  outside : facts.phases.state (d, .typing) ≠ .inProgress
  locals : ∀ g v, d = .function g → p.Local g v → facts.phases.state (.variable v, .typing) ≠ .inProgress

variable {p : Program} {rank : Declaration → Nat} {facts after : Facts}

theorem beneath_extends {e : Declaration} (grows : facts.Extends after) (beneath : facts.Beneath p rank e) :
    after.Beneath p rank e :=
  fun c o running carries inferred => beneath c o ((grows.phases.running _).mp running) carries inferred

theorem clear_extends {d : Declaration} (grows : facts.Extends after) (clear : facts.Clear p rank d) :
    after.Clear p rank d :=
  ⟨fun e uses inferred => beneath_extends grows (clear.uses e uses inferred),
    fun running => clear.outside ((grows.phases.running _).mp running),
    fun g v same own running => clear.locals g v same own ((grows.phases.running _).mp running)⟩

theorem clear_idle (idle : ∀ e, facts.phases.state (e, .typing) ≠ .inProgress) (d : Declaration) :
    facts.Clear p rank d :=
  ⟨fun _ _ _ c _ running => absurd running (idle c), idle d, fun _ _ _ _ => idle _⟩

variable (ranked : p.Ranked rank)
include ranked

theorem clear_of_beneath {e : Declaration} (inferred : p.Unannotated e) (beneath : facts.Beneath p rank e) :
    facts.Clear p rank e := by
  constructor
  · intro e' uses inferred' c o running carries unannotated
    have below := ranked e e' inferred inferred' uses
    have above := beneath c o running carries unannotated
    omega
  · intro running
    have circle := beneath e e running (.inl rfl) inferred
    omega
  · rintro g v rfl own running
    have circle := beneath (.variable v) (.function g) running (.inr ⟨g, v, rfl, rfl, own⟩) inferred
    omega

theorem beneath_entered {d e : Declaration} (clear : facts.Clear p rank d) (uses : p.Uses d e)
    (inferred : p.Unannotated e) : ((phaseCell d .typing).write .inProgress facts).Beneath p rank e := by
  intro c o running carries unannotated
  rw [state_write] at running
  split at running
  · rename_i same
    cases same
    exact ranked o e unannotated inferred (carries_uses carries uses)
  · exact clear.uses e uses inferred c o running carries unannotated

end Facts

theorem ranked_regime {p : Program} {rank : Declaration → Nat} (ranked : p.Ranked rank) :
    Regime p False (Facts.Clear p rank) where
  stable grows clear := Facts.clear_extends grows clear
  idle _ idle := Facts.clear_idle idle _
  asks clear _ uses inferred :=
    Facts.clear_of_beneath ranked inferred (Facts.beneath_entered ranked clear uses inferred)
  locals {facts g v} clear unknown own := by
    have idle := clear.locals g v rfl own
    refine ⟨⟨?_, ?_, ?_⟩, idle⟩
    · intro e uses inferred
      exact Facts.beneath_entered ranked clear (uses_of_local own uses) inferred
    · rw [Facts.state_write, if_neg (by simp)]
      exact idle
    · intro h w impossible
      cases impossible
  outside := .inr (fun clear => clear.outside)

namespace Bound

theorem post_order_induction {P : Node → Prop} {ns : List Node} (order : PostOrder [] ns)
    (step : ∀ n ∈ ns, (∀ e ∈ n.operands, ∀ id, e.id? = some id → ∃ m, P m ∧ m.id? = some id) → P n) :
    ∀ n ∈ ns, P n := by
  have go : ∀ todo done, ns = done ++ todo → (∀ n ∈ done, P n) → ∀ n ∈ ns, P n := by
    intro todo
    induction todo with
    | nil =>
      intro done whole holds
      rw [whole, List.append_nil]
      exact holds
    | cons n rest ih =>
      intro done whole holds
      apply ih (done ++ [n]) (by rw [whole]; simp)
      refine each_snoc holds (step n (by rw [whole]; simp) (fun e operand id same => ?_))
      rw [whole] at order
      obtain ⟨m, seen, there⟩ := post_order_at order e operand id same
      exact ⟨m, holds m seen, there⟩
  exact go ns [] rfl (by simp)

end Bound

namespace Program
variable {p : Program}

theorem nodes_post_order (p : Program) (d : Declaration) : PostOrder [] (p.nodesOf d) := by
  cases d with
  | function id =>
    cases found : p.functions[id.index]? with
    | none =>
      simp only [nodesOf, found]
      trivial
    | some f =>
      rw [nodes_function found]
      exact p.option_block_post_order f.body
  | «variable» id => exact p.initial_post_order id
  | struct id =>
    cases found : p.structs[id.index]? with
    | none =>
      simp only [nodesOf, found]
      trivial
    | some s =>
      rw [nodes_struct found]
      exact Expr.all_post_order s.defaults

theorem unannotated_variable (consistent : p.Consistent) {v : VariableId} {var : Variable}
    (here : p.vars[v.index]? = some var) (given : p.givenType v = none) : p.Unannotated (.variable v) := by
  unfold givenType at given
  rw [here, Option.bind_some] at given
  cases origin : var.origin with
  | parameter function index param =>
    have there := consistent.owners _ _ here function index param origin
    rw [origin] at given
    dsimp only at given
    rw [Array.getElem?_eq_getElem there] at given
    cases given
  | declared decl =>
    rw [origin] at given
    exact ⟨var, decl, here, origin, Option.map_eq_none_iff.mp given⟩

theorem unannotated_function {g : FunctionId} {f : Function} (here : p.functions[g.index]? = some f)
    (given : p.givenReturn g = none) : p.Unannotated (.function g) := by
  unfold givenReturn at given
  rw [here, Option.bind_some] at given
  split at given
  · cases given
  · rename_i states
    exact ⟨f, here, by simpa using states⟩

end Program

namespace Facts
variable {p : Program} {A B : Facts}

def NodeAgrees (A B : Facts) (n : Node) : Prop :=
  ∀ id, n.id? = some id → ∀ s t, A.types.find? id = some s → B.types.find? id = some t → s = t

def RecordAgrees (A B : Facts) : Declaration → Prop
  | .function g => ∀ s t, A.returnTypes.find? g = some s → B.returnTypes.find? g = some t → s = t
  | .variable v => ∀ s t, A.variableTypes.find? v = some s → B.variableTypes.find? v = some t → s = t
  | .struct _ => True

theorem node_agrees_same {n : Node} (agrees : A.NodeAgrees B n) (typed : A.Typed n.id?) (typed' : B.Typed n.id?) :
    A.SameAt B n.id? := by
  intro id same
  obtain ⟨s, found⟩ := typed id same
  obtain ⟨t, found'⟩ := typed' id same
  rw [found, found', agrees id same s t found found']

theorem expr_agrees {ns : List Node} (agree : ∀ n ∈ ns, A.NodeAgrees B n) {e : Expr} (inside : e.nodes ⊆ ns)
    (typed : A.Typed e.id?) (typed' : B.Typed e.id?) : A.SameAt B e.id? := by
  intro id same
  obtain ⟨n, among, there⟩ := Expr.id_node same
  rw [← there] at same
  rw [same] at typed typed'
  exact node_agrees_same (agree n (inside among)) typed typed' id there

variable (first : A.Grounded p False) (second : B.Grounded p False)
include first second

theorem record_agrees {d : Declaration} (agree : ∀ n ∈ p.nodesOf d, A.NodeAgrees B n) : A.RecordAgrees B d := by
  cases d with
  | struct s => trivial
  | «variable» v =>
    intro s t found found'
    obtain ⟨var, here, typed, rfl⟩ := first.variableTypes v s found
    obtain ⟨var', here', typed', rfl⟩ := second.variableTypes v t found'
    cases here.symm.trans here'
    rw [nodes_variable here] at agree
    apply Eq.symm
    apply settled_type_same
    intro e member
    apply expr_agrees agree _ (typed e member) (typed' e member)
    rw [Option.mem_toList.mp member]
    exact List.Subset.refl _
  | function g =>
    intro s t found found'
    obtain ⟨f, here, typed, inferred⟩ := first.returnTypes g s found
    obtain ⟨f', here', typed', inferred'⟩ := second.returnTypes g t found'
    cases here.symm.trans here'
    rw [nodes_function here] at agree
    have same : p.inferReturnType B (Program.returnedValues f) = p.inferReturnType A (Program.returnedValues f) := by
      apply infer_return_same
      intro e returned
      apply expr_agrees agree _ (typed e returned) (typed' e returned)
      intro n among
      exact List.mem_flatMap.mpr ⟨_, returned_nodes returned n among, List.mem_singleton_self n⟩
    rw [inferred, inferred'] at same
    exact (Except.ok.inj same).symm

variable (consistent : p.Consistent)
include consistent

omit second in
theorem variable_allows_agree {v : VariableId} (records : p.Unannotated (.variable v) → A.RecordAgrees B (.variable v))
    {s t : Option TypeRef} (gives : Allows False (p.givenType v) (A.variableTypes.find? v) s)
    (gives' : Allows False (p.givenType v) (B.variableTypes.find? v) t) : s = t := by
  cases given : p.givenType v with
  | some u =>
    rw [given] at gives gives'
    exact Eq.trans gives (Eq.symm gives')
  | none =>
    rw [given] at gives gives'
    have found := gives.resolve_left (fun impossible => impossible.1)
    have found' := gives'.resolve_left (fun impossible => impossible.1)
    obtain ⟨var, here, _⟩ := first.variableTypes v s found
    exact records (unannotated_variable consistent here given) s t found found'

omit second consistent in
theorem function_allows_agree {g : FunctionId} (records : p.Unannotated (.function g) → A.RecordAgrees B (.function g))
    {s t : Option TypeRef} (gives : Allows False (p.givenReturn g) (A.returnTypes.find? g) s)
    (gives' : Allows False (p.givenReturn g) (B.returnTypes.find? g) t) : s = t := by
  cases given : p.givenReturn g with
  | some u =>
    rw [given] at gives gives'
    exact Eq.trans gives (Eq.symm gives')
  | none =>
    rw [given] at gives gives'
    have found := gives.resolve_left (fun impossible => impossible.1)
    have found' := gives'.resolve_left (fun impossible => impossible.1)
    obtain ⟨f, here, _⟩ := first.returnTypes g s found
    exact records (unannotated_function here given) s t found found'

theorem node_agrees {n : Node} (has : p.HasNode n)
    (operands : ∀ e ∈ n.operands, A.Typed e.id? → B.Typed e.id? → A.SameAt B e.id?)
    (records : ∀ e, n.Uses p e → p.Unannotated e → A.RecordAgrees B e) : A.NodeAgrees B n := by
  intro id same s t found found'
  obtain ⟨typed, backed⟩ := first.types n id s has same found
  obtain ⟨typed', backed'⟩ := second.types n id t has same found'
  have operands' : ∀ e ∈ n.operands, A.SameAt B e.id? :=
    fun e operand => operands e operand (typed e operand) (typed' e operand)
  cases n with
  | number numeral site => cases same
  | identifier node name site =>
    simp only [Backed] at backed backed'
    cases means : p.referral? site.scope name with
    | none =>
      rw [means] at backed backed'
      exact Eq.trans backed (Eq.symm backed')
    | some r =>
      rw [means] at backed backed'
      cases r with
      | «variable» v => exact variable_allows_agree first consistent (records _ means) backed backed'
      | _ => exact Eq.trans backed (Eq.symm backed')
  | member node object name nullSafe site =>
    simp only [Backed] at backed backed'
    rw [backed, backed', type_same (operands' object (List.mem_singleton_self _))]
  | call call receiver args =>
    obtain ⟨ofReceiver, ofArgs⟩ := call_operands_same call operands'
    simp only [Backed] at backed backed'
    rw [ofReceiver, ofArgs] at backed'
    rcases backed.2 with ⟨nothing, rfl⟩ | ⟨best, rest, ordered, _, value, gives, rfl⟩
    · rcases backed'.2 with ⟨_, rfl⟩ | ⟨best', rest', ordered', _⟩
      · rfl
      · cases nothing.symm.trans ordered'
    · rcases backed'.2 with ⟨nothing', _⟩ | ⟨best', rest', ordered', _, value', gives', rfl⟩
      · cases ordered.symm.trans nothing'
      · cases ordered.symm.trans ordered'
        have agree : value = value' := by
          split at gives
          · rename_i boolean
            rw [if_pos boolean] at gives'
            exact gives.trans gives'.symm
          · rename_i other
            rw [if_neg other] at gives'
            exact function_allows_agree first (records _ (ranked_visible ordered)) gives gives'
        rw [agree]

theorem nodes_agree {d : Declaration} (records : ∀ e, p.Uses d e → p.Unannotated e → A.RecordAgrees B e) :
    ∀ n ∈ p.nodesOf d, A.NodeAgrees B n := by
  apply post_order_induction (P := A.NodeAgrees B) (p.nodes_post_order d)
  intro n member operands
  apply node_agrees first second consistent ⟨d, member⟩ _ (fun e uses => records e ⟨n, member, uses⟩)
  intro e operand typed typed' id same
  obtain ⟨m, agrees, there⟩ := operands e operand id same
  rw [same, ← there] at typed typed'
  exact node_agrees_same agrees typed typed' id there

variable {rank : Declaration → Nat} (ranked : p.Ranked rank)
include ranked

theorem ranked_records_agree {d : Declaration} (inferred : p.Unannotated d) : A.RecordAgrees B d := by
  induction smaller : rank d using Nat.strongRecOn generalizing d with
  | ind k ih =>
    apply record_agrees first second
    apply nodes_agree first second consistent
    intro e uses inferred'
    have below := ranked d e inferred inferred' uses
    exact ih (rank e) (by omega) inferred' rfl

/-- Without circles, the types that two runs have on record for a node are the same. -/
theorem ranked_nodes_agree {n : Node} (has : p.HasNode n) : A.NodeAgrees B n := by
  obtain ⟨d, member⟩ := has
  exact nodes_agree first second consistent
    (fun e _ inferred => ranked_records_agree first second consistent ranked inferred) n member

theorem ranked_types_grow (covers : ∀ n, p.HasNode n → B.Covers n) : A.types.Grows B.types := by
  intro id s found
  obtain ⟨n, has, same⟩ := first.nodes id s found
  obtain ⟨t, found'⟩ := (covers n has).1 id same
  rw [found', ranked_nodes_agree first second consistent ranked has id same s t found found']

theorem ranked_dispatch_agrees {call : Invocation} {receiver : Option Expr} {args : List Expr}
    (has : p.HasNode (.call call receiver args)) (covers : A.Covers (.call call receiver args))
    (covers' : ∀ n, p.HasNode n → B.Covers n) : B.dispatched.find? call.node = A.dispatched.find? call.node := by
  have grows := ranked_types_grow first second consistent ranked covers'
  obtain ⟨ranked, ordered, head⟩ := dispatched_head first has covers.1
  obtain ⟨ranked', ordered', head'⟩ := dispatched_head second has (covers' _ has).1
  obtain ⟨ofReceiver, ofArgs⟩ := call_operands_extend grows covers.2
  rw [ofReceiver, ofArgs] at ordered'
  cases ordered.symm.trans ordered'
  rw [head, head']

end Facts

end SemanticAnalysis
