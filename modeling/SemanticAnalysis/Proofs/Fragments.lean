import Mathlib.Logic.Relation
import SemanticAnalysis.Proofs.Lexical.Meaning
/-!
Fragments of a program: expressions, statements and blocks, each with the place where it stands, the places of all that
is in it, and the fragments that it is made of.
-/
namespace SemanticAnalysis
open SemanticAnalysis.Bound

namespace Bound

mutual

def Expr.sites : Expr → List Site
  | .identifier _ _ site => [site]
  | .number _ site => [site]
  | .null site => [site]
  | .invocation call receiver args => Expr.optionSites receiver ++ Expr.allSites args ++ [call.site]
  | .member _ object _ _ site => object.sites ++ [site]
  | .paren inner site => inner.sites ++ [site]

def Expr.optionSites : Option Expr → List Site
  | none => []
  | some e => e.sites

def Expr.allSites : List Expr → List Site
  | [] => []
  | e :: rest => e.sites ++ Expr.allSites rest

end

mutual

/-- The places of a statement and of all nodes in it. What initializes a local variable is kept with the variable. -/
def Stmt.sites : Stmt → List Site
  | .expr value site => value.sites ++ [site]
  | .variable _ site => [site]
  | .assign target value site => target.sites ++ value.sites ++ [site]
  | .ret value site => Expr.optionSites value ++ [site]
  | .branch condition thenBranch elseBranch site =>
    condition.sites ++ thenBranch.sites ++ Block.optionSites elseBranch ++ [site]
  | .block body => body.sites

def Block.sites : Block → List Site
  | .mk stmts site => Stmt.allSites stmts ++ [site]

def Block.optionSites : Option Block → List Site
  | none => []
  | some block => block.sites

def Stmt.allSites : List Stmt → List Site
  | [] => []
  | s :: rest => s.sites ++ Stmt.allSites rest

end

def AllAt (scope : ScopeId) (sites : List Site) : Prop := ∀ site ∈ sites, site.scope = scope

section AllAt
variable {scope : ScopeId} {xs ys : List Site}

theorem all_at_none : AllAt scope [] := by
  intro site member
  cases member

theorem all_at_append (first : AllAt scope xs) (second : AllAt scope ys) : AllAt scope (xs ++ ys) :=
  fun site member => (List.mem_append.mp member).elim (first site) (second site)

theorem all_at_last (first : AllAt scope xs) (span : Span) : AllAt scope (xs ++ [⟨scope, span⟩]) := by
  apply all_at_append first
  intro site member
  rw [List.mem_singleton.mp member]

theorem all_sites_append (es others : List Expr) :
    Expr.allSites (es ++ others) = Expr.allSites es ++ Expr.allSites others := by
  induction es with
  | nil => rfl
  | cons e rest ih => rw [List.cons_append, Expr.allSites, Expr.allSites, ih, List.append_assoc]

end AllAt

theorem Expr.site_listed (e : Expr) : e.site ∈ e.sites := by
  cases e <;> simp [Expr.site, Expr.sites]

theorem Expr.all_sites_of_mem {e : Expr} {es : List Expr} (listed : e ∈ es) : e.sites ⊆ Expr.allSites es := by
  induction es with
  | nil => cases listed
  | cons first rest ih =>
    rw [Expr.allSites]
    rcases List.mem_cons.mp listed with rfl | later
    · exact List.subset_append_left _ _
    · exact List.subset_append_of_subset_right _ (ih later)

mutual

theorem Expr.identifier_sites : ∀ e : Expr, ∀ i ∈ e.identifiers, i.site ∈ e.sites
  | .identifier .., i, used => by
    simp only [identifiers, Expr.nodes, List.filterMap_cons, Node.identifier?, List.filterMap_nil,
      List.mem_singleton] at used
    rw [used]
    exact List.mem_singleton_self _
  | .number .., i, used => by cases used
  | .null _, i, used => by cases used
  | .invocation call receiver args, i, used => by
    simp only [identifiers, Expr.nodes, List.filterMap_append, List.mem_append] at used
    rw [Expr.sites, List.mem_append, List.mem_append]
    rcases used with (ofReceiver | ofArgs) | own
    · exact .inl (.inl (Expr.option_identifier_sites receiver i ofReceiver))
    · exact .inl (.inr (Expr.all_identifier_sites args i ofArgs))
    · cases own
  | .member _ object _ _ _, i, used => by
    simp only [identifiers, Expr.nodes, List.filterMap_append, List.mem_append] at used
    rw [Expr.sites, List.mem_append]
    rcases used with ofObject | own
    · exact .inl (Expr.identifier_sites object i ofObject)
    · cases own
  | .paren inner _, i, used => by
    rw [Expr.sites]
    exact List.mem_append_left _ (Expr.identifier_sites inner i used)

theorem Expr.option_identifier_sites : ∀ e : Option Expr, ∀ i ∈ Expr.optionIdentifiers e, i.site ∈ Expr.optionSites e
  | none, i, used => by cases used
  | some e, i, used => Expr.identifier_sites e i used

theorem Expr.all_identifier_sites : ∀ es : List Expr, ∀ i ∈ Expr.allIdentifiers es, i.site ∈ Expr.allSites es
  | [], i, used => by cases used
  | e :: rest, i, used => by
    simp only [Expr.allIdentifiers, Expr.allNodes, List.filterMap_append, List.mem_append] at used
    rw [Expr.allSites, List.mem_append]
    exact used.imp (Expr.identifier_sites e i) (Expr.all_identifier_sites rest i)

end

def Step.identifiers : Step → List Identifier
  | .node n => n.identifier?.toList
  | .introduce _ => []
  | .assign target value _ => target.identifiers ++ value.identifiers

theorem node_step_identifiers {ns : List Node} {s : Step} (member : s ∈ ns.map .node) {i : Identifier}
    (used : i ∈ s.identifiers) : i ∈ ns.filterMap Node.identifier? := by
  obtain ⟨n, among, rfl⟩ := List.mem_map.mp member
  exact List.mem_filterMap.mpr ⟨n, among, Option.mem_toList.mp used⟩

mutual

theorem Stmt.step_sites : ∀ b : Stmt, ∀ s ∈ b.steps, ∀ i ∈ s.identifiers, i.site ∈ b.sites
  | .expr value _, s, member, i, used => by
    rw [Stmt.steps] at member
    rw [Stmt.sites]
    exact List.mem_append_left _ (value.identifier_sites i (node_step_identifiers member used))
  | .variable _ _, s, member, i, used => by
    rw [Stmt.steps, List.mem_singleton] at member
    subst member
    cases used
  | .assign target value _, s, member, i, used => by
    rw [Stmt.steps, List.mem_singleton] at member
    subst member
    rw [Stmt.sites]
    refine List.mem_append_left _ (List.mem_append.mpr ?_)
    exact (List.mem_append.mp used).imp (target.identifier_sites i) (value.identifier_sites i)
  | .ret value _, s, member, i, used => by
    rw [Stmt.steps] at member
    rw [Stmt.sites]
    exact List.mem_append_left _ (Expr.option_identifier_sites value i (node_step_identifiers member used))
  | .branch condition thenBranch elseBranch _, s, member, i, used => by
    rw [Stmt.steps, List.mem_append, List.mem_append] at member
    rw [Stmt.sites]
    apply List.mem_append_left
    rw [List.mem_append, List.mem_append]
    rcases member with (ofCondition | ofThen) | ofElse
    · exact .inl (.inl (condition.identifier_sites i (node_step_identifiers ofCondition used)))
    · exact .inl (.inr (Block.step_sites thenBranch s ofThen i used))
    · exact .inr (Block.option_step_sites elseBranch s ofElse i used)
  | .block body, s, member, i, used => by
    rw [Stmt.steps] at member
    rw [Stmt.sites]
    exact Block.step_sites body s member i used

theorem Block.step_sites : ∀ b : Block, ∀ s ∈ b.steps, ∀ i ∈ s.identifiers, i.site ∈ b.sites
  | .mk stmts _, s, member, i, used => by
    rw [Block.steps] at member
    rw [Block.sites]
    exact List.mem_append_left _ (Stmt.all_step_sites stmts s member i used)

theorem Block.option_step_sites :
    ∀ b : Option Block, ∀ s ∈ Block.optionSteps b, ∀ i ∈ s.identifiers, i.site ∈ Block.optionSites b
  | none, s, member, i, used => by
    rw [Block.optionSteps] at member
    cases member
  | some b, s, member, i, used => by
    rw [Block.optionSteps] at member
    rw [Block.optionSites]
    exact Block.step_sites b s member i used

theorem Stmt.all_step_sites :
    ∀ bs : List Stmt, ∀ s ∈ Stmt.allSteps bs, ∀ i ∈ s.identifiers, i.site ∈ Stmt.allSites bs
  | [], s, member, i, used => by
    rw [Stmt.allSteps] at member
    cases member
  | b :: rest, s, member, i, used => by
    rw [Stmt.allSteps, List.mem_append] at member
    rw [Stmt.allSites, List.mem_append]
    exact member.imp (Stmt.step_sites b s · i used) (Stmt.all_step_sites rest s · i used)

end

def Expr.operands : Expr → List Expr
  | .invocation _ receiver args => receiver.toList ++ args
  | .member _ object _ _ _ => [object]
  | .paren inner _ => [inner]
  | _ => []

theorem Expr.operand_sites {e operand : Expr} (listed : operand ∈ e.operands) : operand.sites ⊆ e.sites := by
  cases e with
  | identifier => cases listed
  | number => cases listed
  | null => cases listed
  | invocation call receiver args =>
    rw [Expr.sites]
    apply List.subset_append_of_subset_left
    rcases List.mem_append.mp listed with own | argument
    · rw [Option.mem_toList] at own
      subst own
      exact List.subset_append_left _ _
    · exact List.subset_append_of_subset_right _ (Expr.all_sites_of_mem argument)
  | _ =>
    rw [List.mem_singleton.mp listed]
    exact List.subset_append_left _ _

/-- A piece of a program that has effects. -/
inductive Fragment where
  | expr (e : Expr)
  | stmt (s : Stmt)
  | block (b : Block)

namespace Fragment

def site : Fragment → Site
  | expr e => e.site
  | stmt s => s.site
  | block b => b.site

def sites : Fragment → List Site
  | expr e => e.sites
  | stmt s => s.sites
  | block b => b.sites

def steps : Fragment → List Step
  | expr e => e.nodes.map .node
  | stmt s => s.steps
  | block b => b.steps

/-- What a fragment reads (or writes) beyond a boundary. -/
def effects (p : Program) (access : Access) (boundary : ScopeId) : Fragment → Analysis (List Effect)
  | expr e => e.effects p access (p.summary access) boundary
  | stmt s => s.effects p access (p.summary access) boundary
  | block b => b.effects p access (p.summary access) boundary

/-- The fragments that a fragment is made of. What initializes a local variable is kept with the variable. -/
def parts : Fragment → List Fragment
  | expr e => e.operands.map expr
  | stmt (.expr value _) => [expr value]
  | stmt (.variable _ _) => []
  | stmt (.assign target value _) => [expr target, expr value]
  | stmt (.ret value _) => value.toList.map expr
  | stmt (.branch condition thenBranch elseBranch _) =>
    [expr condition, block thenBranch] ++ elseBranch.toList.map block
  | stmt (.block body) => [block body]
  | block b => b.stmts.map stmt

def Inside (outer inner : Fragment) : Prop := Relation.ReflTransGen (fun n m => m ∈ n.parts) outer inner

theorem effects_collect (p : Program) (access : Access) (boundary : ScopeId) (n : Fragment) :
    n.effects p access boundary
      = Analysis.collect (Step.effects p access (p.summary access) boundary) n.steps := by
  cases n with
  | expr e =>
    rw [effects, steps, Expr.effects_collect, Analysis.collect_map]
    rfl
  | stmt s => exact Stmt.effects_collect p access _ boundary s
  | block b => exact Block.effects_collect p access _ boundary b

theorem step_sites {n : Fragment} {s : Step} (member : s ∈ n.steps) {i : Identifier} (used : i ∈ s.identifiers) :
    i.site ∈ n.sites := by
  cases n with
  | expr e => exact e.identifier_sites i (node_step_identifiers member used)
  | stmt b => exact b.step_sites s member i used
  | block b => exact b.step_sites s member i used

theorem inside_expr {scope : ScopeId} {e : Expr} (here : AllAt scope e.sites) {n : Fragment}
    (inside : (expr e).Inside n) : ∃ operand : Expr, n = expr operand ∧ AllAt scope operand.sites := by
  induction inside with
  | refl => exact ⟨e, rfl, here⟩
  | tail _ listed ih =>
    obtain ⟨outer, rfl, around⟩ := ih
    obtain ⟨operand, among, rfl⟩ := List.mem_map.mp listed
    exact ⟨operand, rfl, fun site member => around site (Expr.operand_sites among member)⟩

end Fragment

end Bound

inductive Program.Contains (p : Program) : Fragment → Prop where
  | body {k : Nat} {f : Function} {b : Block} (found : p.functions[k]? = some f) (written : f.body = some b) :
      p.Contains (.block b)
  | initializer {k : Nat} {v : Variable} {e : Expr} (found : p.vars[k]? = some v) (written : v.initializer = some e) :
      p.Contains (.expr e)
  | default {k : Nat} {s : Struct} {e : Expr} (found : p.structs[k]? = some s) (listed : e ∈ s.defaults) :
      p.Contains (.expr e)
  | part {n m : Fragment} (outer : p.Contains n) (listed : m ∈ n.parts) : p.Contains m

end SemanticAnalysis
