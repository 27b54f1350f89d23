import SemanticAnalysis.Proofs.Rewording.Construction
/-!
Leaving out parentheses. Binding and leaving out parentheses commute, because parentheses have no number of their own
and everything that is recorded is recorded at numbered nodes. The target of a call stays as it is, for parentheses
around it make the call malformed.
-/
namespace SemanticAnalysis
open SemanticAnalysis.Bound

namespace Tree.Expr

mutual

def bare : Tree.Expr → Tree.Expr
  | .name ident span => .name ident span
  | .number numeral span => .number numeral span
  | .null span => .null span
  | .invocation target args span => .invocation (bareTarget target) (bareAll args) span
  | .member object ident nullSafe span => .member (bare object) ident nullSafe span
  | .binary left op right span => .binary (bare left) op (bare right) span
  | .unary op operand span => .unary op (bare operand) span
  | .paren inner _ => bare inner

def bareTarget : Tree.Expr → Tree.Expr
  | .member object ident nullSafe span => .member (bare object) ident nullSafe span
  | target => target

def bareAll : List Tree.Expr → List Tree.Expr
  | [] => []
  | e :: rest => bare e :: bareAll rest

end

end Tree.Expr

namespace Bound.Expr

mutual

def bare : Expr → Expr
  | .identifier node name site => .identifier node name site
  | .number numeral site => .number numeral site
  | .null site => .null site
  | .invocation call receiver args => .invocation call (bareOption receiver) (bareAll args)
  | .member node object name nullSafe site => .member node (bare object) name nullSafe site
  | .paren inner _ => bare inner

def bareOption : Option Expr → Option Expr
  | none => none
  | some e => some (bare e)

def bareAll : List Expr → List Expr
  | [] => []
  | e :: rest => bare e :: bareAll rest

end

theorem bare_option (e : Option Expr) : bareOption e = e.map bare := by
  cases e <;> simp [bareOption]

theorem bare_all (es : List Expr) : bareAll es = es.map bare := by
  induction es with
  | nil => rw [bareAll, List.map_nil]
  | cons e rest ih => rw [bareAll, ih, List.map_cons]

theorem throw_bare (e : InternalError) : bare <$> (throw e : Binding Expr) = throw e := rfl

mutual

theorem bind_bare (scope : ScopeId) : ∀ e : Tree.Expr, bind scope e.bare = bare <$> bind scope e
  | .name _ _ => by simp [Tree.Expr.bare, bind, bare]
  | .number _ _ => by simp [Tree.Expr.bare, bind, bare]
  | .null _ => by simp [Tree.Expr.bare, bind, bare]
  | .invocation (.name ident span) args place => by
    simp [Tree.Expr.bare, Tree.Expr.bareTarget, bind, bare, bareOption, bind_all_bare scope args]
  | .invocation (.member object ident nullSafe span) args place => by
    simp [Tree.Expr.bare, Tree.Expr.bareTarget, bind, bare, bareOption, bind_bare scope object,
      bind_all_bare scope args]
  | .invocation (.number ..) _ _ | .invocation (.null ..) _ _ | .invocation (.invocation ..) _ _
  | .invocation (.binary ..) _ _ | .invocation (.unary ..) _ _ | .invocation (.paren ..) _ _ => by
    rw [Tree.Expr.bare, Tree.Expr.bareTarget, bind, bind] <;> simp [throw_bare]
  | .member object _ _ _ => by simp [Tree.Expr.bare, bind, bare, bind_bare scope object]
  | .binary left _ right _ => by
    simp [Tree.Expr.bare, bind, bare, bareOption, bareAll, bind_bare scope left, bind_bare scope right]
  | .unary _ operand _ => by
    simp [Tree.Expr.bare, bind, bare, bareOption, bareAll, bind_bare scope operand]
  | .paren inner _ => by simp [Tree.Expr.bare, bind, bare, bind_bare scope inner]

theorem bind_all_bare (scope : ScopeId) : ∀ es : List Tree.Expr,
    bindAll scope (Tree.Expr.bareAll es) = bareAll <$> bindAll scope es
  | [] => by simp [Tree.Expr.bareAll, bindAll, bareAll]
  | e :: rest => by simp [Tree.Expr.bareAll, bindAll, bareAll, bind_bare scope e, bind_all_bare scope rest]

end

theorem bind_bare_run (scope : ScopeId) (e : Tree.Expr) (next : Nat) :
    bind scope e.bare next = (bind scope e next).map (fun b => (bare b.1, b.2)) := by
  rw [bind_bare, map_eq_pure_bind, Construction.run_state_bind]
  cases bind scope e next <;> rfl

theorem bare_identifier (node : NodeId) (name : String) (site : Site) :
    bare (.identifier node name site) = .identifier node name site := by rw [bare]

theorem bare_null (site : Site) : bare (.null site) = .null site := by rw [bare]

theorem bare_type (facts : Facts) (e : Expr) : e.bare.type facts = e.type facts := by
  cases e with
  | identifier node name site => rw [bare]
  | number numeral site => rw [bare]
  | null site => rw [bare]
  | paren inner site => rw [bare, type, bare_type facts inner]
  | _ => rw [bare, type, type]

theorem bare_root (e : Expr) : e.bare.root? = e.root? := by
  cases e with
  | invocation call receiver args => rw [bare, root?, root?] <;> simp
  | member node object name nullSafe site => rw [bare, root?, root?, bare_root object]
  | paren inner site => rw [bare, root?, bare_root inner]
  | _ => rw [bare]

mutual

theorem bare_nodes : ∀ e : Expr, e.bare.nodes = e.nodes.map (Node.reword bare)
  | .identifier .. => by simp [bare, nodes, Node.reword]
  | .number .. => by simp [bare, nodes, Node.reword]
  | .null _ => by simp [bare, nodes]
  | .invocation _ receiver args => by
    rw [bare, nodes, nodes, bare_option_nodes receiver, bare_all_nodes args, bare_option, bare_all]
    simp [Node.reword]
  | .member _ object _ _ _ => by simp [bare, nodes, Node.reword, bare_nodes object]
  | .paren inner _ => by simp [bare, nodes, bare_nodes inner]

theorem bare_option_nodes : ∀ e : Option Expr, optionNodes (bareOption e) = (optionNodes e).map (Node.reword bare)
  | none => by simp [bareOption, optionNodes]
  | some e => by simp [bareOption, optionNodes, bare_nodes e]

theorem bare_all_nodes : ∀ es : List Expr, allNodes (bareAll es) = (allNodes es).map (Node.reword bare)
  | [] => by simp [bareAll, allNodes]
  | e :: rest => by simp [bareAll, allNodes, bare_nodes e, bare_all_nodes rest]

end

end Bound.Expr

/-- Parentheses are left out, except around `null` and around names where that can be told. -/
def Rewording.bare : Rewording where
  expr := Tree.Expr.bare
  bound := Expr.bare
  modifiers := id
  binds := Expr.bind_bare_run
  identifier := Expr.bare_identifier
  null := Expr.bare_null
  type := Expr.bare_type
  root := Expr.bare_root
  nodes := Expr.bare_nodes
  operator := literal.operator

end SemanticAnalysis
