import Mathlib.Logic.Relation
import Mathlib.Tactic.ByContra
import SemanticAnalysis.Proofs.Traversal
/-!
Functions without effects, said without summing anything up. A function is clean if it touches only its own variables
and calls only clean functions. That is an inductive definition, so a function that can come back to itself is not
clean.
-/
namespace SemanticAnalysis
open SemanticAnalysis.Bound

/-- What names and calls were found to mean. -/
structure Links where
  referrals : Table NodeId Referral
  dispatched : Table NodeId FunctionId

def Facts.links (facts : Facts) : Links := ⟨facts.referrals, facts.dispatched⟩

namespace Bound

/-- A place that may have an effect. -/
inductive Visit where
  | touch (node : NodeId) (span : Span)
  | call (call : Invocation)

def Visit.span : Visit → Span
  | .touch _ span => span
  | .call invocation => invocation.site.span

def Node.visits (access : Access) : Node → List Visit
  | .identifier node _ site =>
    match access with
    | .read => [.touch node site.span]
    | .write => []
  | .number _ _ => []
  | .call invocation _ _ => [.call invocation]
  | .member .. => []

def Expr.written (access : Access) (target : Expr) (site : Site) : List Visit :=
  match access, target.root? with
  | .write, some (node, _, _) => [.touch node site.span]
  | _, _ => []

def Expr.targetNodes (target : Expr) : List Node := if target.isIdentifier then [] else target.nodes

/-- A parameter of the function or a variable declared in its body. -/
def Function.Owns (f : Function) (v : VariableId) : Prop :=
  v ∈ f.parameters ∨ .introduce v ∈ Block.optionSteps f.body

end Bound

namespace Program

def stepVisits (p : Program) (access : Access) : Step → List Visit
  | .node n => n.visits access
  | .introduce id => (p.initialNodes id).flatMap (Node.visits access)
  | .assign target value site =>
    target.written access site ++ (target.targetNodes ++ value.nodes).flatMap (Node.visits access)

/-- The places of a body that may have an effect, in the order in which they are treated. -/
def visits (p : Program) (access : Access) (body : Block) : List Visit := body.steps.flatMap (p.stepVisits access)

/-- Functions that read (or write) nothing but their own variables, also through the functions that they call. Without
a body a function is taken at its word. -/
inductive Clean (p : Program) (links : Links) (access : Access) : FunctionId → Prop where
  | assumed {g : FunctionId} {f : Function} (found : p.functions[g.index]? = some f) (bodyless : f.body = none)
      (claimed : claimsNone access f.modifiers = true) : Clean p links access g
  | shown {g : FunctionId} {f : Function} {body : Block} (found : p.functions[g.index]? = some f)
      (written : f.body = some body)
      (own : ∀ node span, .touch node span ∈ p.visits access body →
        ∀ v, links.referrals.find? node = some (.variable v) → f.Owns v)
      (calls : ∀ call, .call call ∈ p.visits access body →
        ∀ h, links.dispatched.find? call.node = some h → Clean p links access h) : Clean p links access g

variable (p : Program) (links : Links) (access : Access)

/-- `g` has a call that was dispatched to `h`. -/
def Calls (g h : FunctionId) : Prop :=
  ∃ f body call, p.functions[g.index]? = some f ∧ f.body = some body ∧ .call call ∈ p.visits access body ∧
    links.dispatched.find? call.node = some h

/-- Whether a place in the body of `f` has an effect outside of `f`. -/
def Offends (f : Function) : Visit → Prop
  | .touch node _ => ∃ v, links.referrals.find? node = some (.variable v) ∧ ¬f.Owns v
  | .call call => ∃ h, links.dispatched.find? call.node = some h ∧ ¬p.Clean links access h

open Classical in
noncomputable def offences (f : Function) (visits : List Visit) : List Span :=
  (visits.filter (fun visit => p.Offends links access f visit)).map Visit.span

/-- Where a function with a body has effects, each place once. -/
noncomputable def offending (f : Function) (body : Block) : List Span :=
  (p.offences links access f (p.visits access body)).eraseDups

variable {p links access}

variable {g : FunctionId} {f : Function}

theorem clean_bodyless_iff (found : p.functions[g.index]? = some f)
    (bodyless : f.body = none) : p.Clean links access g ↔ claimsNone access f.modifiers = true := by
  constructor
  · intro clean
    cases clean with
    | assumed found' _ claimed =>
      rw [found] at found'
      cases found'
      exact claimed
    | shown found' written =>
      rw [found] at found'
      cases found'
      rw [bodyless] at written
      cases written
  · exact .assumed found bodyless

theorem clean_body_iff {body : Block} (found : p.functions[g.index]? = some f)
    (written : f.body = some body) :
    p.Clean links access g ↔ ∀ visit ∈ p.visits access body, ¬p.Offends links access f visit := by
  constructor
  · intro clean
    cases clean with
    | assumed found' bodyless =>
      rw [found] at found'
      cases found'
      rw [written] at bodyless
      cases bodyless
    | shown found' written' own calls =>
      rw [found] at found'
      cases found'
      rw [written] at written'
      cases written'
      intro visit member offends
      cases visit with
      | touch node span =>
        obtain ⟨v, means, other⟩ := offends
        exact other (own node span member v means)
      | call call =>
        obtain ⟨h, dispatched, unclean⟩ := offends
        exact unclean (calls call member h dispatched)
  · intro none
    apply Clean.shown found written
    · intro node span member v means
      by_contra other
      exact none _ member ⟨v, means, other⟩
    · intro call member h dispatched
      by_contra unclean
      exact none _ member ⟨h, dispatched, unclean⟩

/-- A function that can come back to itself has effects. -/
theorem clean_acyclic (clean : p.Clean links access g) :
    ¬Relation.TransGen (p.Calls links access) g g := by
  induction clean with
  | assumed found bodyless =>
    intro cycle
    obtain ⟨h, ⟨f', body, call, found', written, _⟩, _⟩ := Relation.TransGen.head'_iff.mp cycle
    rw [found] at found'
    cases found'
    rw [bodyless] at written
    cases written
  | shown found written own calls ih =>
    intro cycle
    obtain ⟨h, first, back⟩ := Relation.TransGen.head'_iff.mp cycle
    obtain ⟨f', body', call, found', written', member, dispatched⟩ := first
    have again := found'
    rw [found] at again
    cases again
    have same := written'
    rw [written] at same
    cases same
    apply ih call member h dispatched
    exact Relation.TransGen.tail' back ⟨_, _, call, found', written', member, dispatched⟩

theorem offences_append (f : Function) (xs ys : List Visit) :
    p.offences links access f (xs ++ ys) = p.offences links access f xs ++ p.offences links access f ys := by
  unfold offences
  rw [List.filter_append, List.map_append]

theorem offences_flat_map {α : Type} (f : Function) (g : α → List Visit) (xs : List α) :
    p.offences links access f (xs.flatMap g) = xs.flatMap (fun x => p.offences links access f (g x)) := by
  induction xs with
  | nil => rfl
  | cons x xs ih => rw [List.flatMap_cons, List.flatMap_cons, offences_append, ih]

theorem offences_none_iff (f : Function) (visits : List Visit) :
    p.offences links access f visits = [] ↔ ∀ visit ∈ visits, ¬p.Offends links access f visit := by
  simp [offences]

theorem offences_single {visit : Visit} (offends : p.Offends links access f visit) :
    p.offences links access f [visit] = [visit.span] := by
  simp [offences, offends]

theorem offences_single_none {visit : Visit} (innocent : ¬p.Offends links access f visit) :
    p.offences links access f [visit] = [] := by
  simp [offences, innocent]

end Program

end SemanticAnalysis
