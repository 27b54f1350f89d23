import SemanticAnalysis.Proofs.Typing.Backing
/-!
When a declaration may be typed. Typing one declaration asks for the types of others that have none written down. What
may be asked for in which state is a regime: it is kept while facts are added, it allows whatever the declaration being
typed uses, and it lets a function type the variables of its own body. In the regime that every program has, a variable
of a body is typed from inside its function, because nothing outside of the function can name it.
-/
namespace SemanticAnalysis
open Running Analysis SemanticAnalysis.Bound Program

namespace Program
variable {p : Program}

/-- Nothing is written about the type of the declaration: a function states no return type, and the type of a declared
variable is absent or not known. -/
def Unannotated (p : Program) : Declaration → Prop
  | .function g => ∃ f, p.functions[g.index]? = some f ∧ f.statesReturnType = false
  | .variable v => ∃ var decl, p.vars[v.index]? = some var ∧ var.origin = .declared decl ∧ p.declaredType var = none
  | .struct _ => False

end Program

/-- The type of a node may depend on the declaration: on the variable that a name means, or on a function that is
visible under the name of a call. -/
def Bound.Node.Uses (p : Program) : Node → Declaration → Prop
  | .identifier _ name site, .variable v => p.referral? site.scope name = some (.variable v)
  | .call invocation _ _, .function g => g ∈ p.scopes.findFunctions invocation.site.scope invocation.name
  | _, _ => False

namespace Program
variable {p : Program}

def Uses (p : Program) (d e : Declaration) : Prop := ∃ n ∈ p.nodesOf d, n.Uses p e

theorem uses_of_local {g : FunctionId} {v : VariableId} {e : Declaration} (own : p.Local g v)
    (uses : p.Uses (.variable v) e) : p.Uses (.function g) e := by
  obtain ⟨f, here, introduces⟩ := own
  obtain ⟨n, member, used⟩ := uses
  refine ⟨n, ?_, used⟩
  rw [nodes_function here]
  exact introduced_nodes_member introduces member

theorem match_function {receiver : Option TypeRef} {arguments : List (Option TypeRef)} {g : FunctionId}
    {m : Overload.Match} (fits : p.match? receiver arguments g = .ok (some m)) : m.function = g := by
  unfold match? at fits
  cases found : p.functionAt g with
  | error e =>
    rw [found] at fits
    cases fits
  | ok f =>
    rw [found, ok_bind] at fits
    cases distance : Overload.candidateDistance p.types (p.signature f) receiver arguments with
    | error e =>
      rw [distance] at fits
      cases fits
    | ok d =>
      rw [distance, ok_bind] at fits
      obtain ⟨_, _, rfl⟩ := Option.map_eq_some_iff.mp (Except.ok.inj fits)
      rfl

theorem candidates_visible {call : Invocation} {candidates : List FunctionId}
    (listed : p.candidates call = .ok candidates) :
    candidates ⊆ p.scopes.findFunctions call.site.scope call.name := by
  unfold Program.candidates at listed
  dsimp only at listed
  split at listed
  · cases listed
    exact List.Subset.refl _
  · exact filter_ok_subset listed

theorem ranked_visible {call : Invocation} {receiver : Option (Option TypeRef)} {arguments : List (Option TypeRef)}
    {best : Overload.Match} {rest : List Overload.Match}
    (ordered : p.ranked call receiver arguments = .ok (best :: rest)) :
    best.function ∈ p.scopes.findFunctions call.site.scope call.name := by
  obtain ⟨candidates, listed⟩ : ∃ candidates, p.candidates call = .ok candidates := by
    cases listed : p.candidates call with
    | ok candidates => exact ⟨candidates, rfl⟩
    | error e =>
      rw [ranked, listed] at ordered
      cases ordered
  rw [ranked, listed, ok_bind, resolveOverload] at ordered
  cases matched : candidates.mapM (p.match? (receiver.map (fun t => t.getD .nullableAny)) arguments) with
  | error e =>
    rw [matched] at ordered
    cases ordered
  | ok found =>
    rw [matched, ok_bind] at ordered
    have member : best ∈ found.filterMap id := by
      rw [← (stable_sort_perm _ _).mem_iff]
      change best ∈ Overload.rank (found.filterMap id)
      rw [Except.ok.inj ordered]
      exact List.mem_cons_self ..
    obtain ⟨m, among, rfl⟩ := List.mem_filterMap.mp member
    obtain ⟨g, candidate, fits⟩ := map_ok_member matched among
    rw [match_function fits]
    exact candidates_visible listed candidate

end Program

/-- `Open facts d` says that `d` may be typed. If the reading of records is not lax, nothing is typed that is being
typed. -/
structure Regime (p : Program) (lax : Prop) (Open : Facts → Declaration → Prop) : Prop where
  stable : ∀ {facts after d}, facts.Extends after → Open facts d → Open after d
  idle : ∀ {facts d}, d ∈ p.declarations → (∀ e, facts.phases.state (e, .typing) ≠ .inProgress) → Open facts d
  asks : ∀ {facts d e}, Open facts d → facts.phases.state (d, .typing) = .unknown → p.Uses d e → p.Unannotated e →
    Open ((Facts.phaseCell d .typing).write .inProgress facts) e
  locals : ∀ {facts g v}, Open facts (.function g) → facts.phases.state (.function g, .typing) = .unknown →
    p.Local g v → Open ((Facts.phaseCell (.function g) .typing).write .inProgress facts) (.variable v) ∧
      facts.phases.state (.variable v, .typing) ≠ .inProgress
  outside : lax ∨ ∀ {facts d}, Open facts d → facts.phases.state (d, .typing) ≠ .inProgress

structure Facts.Nested (p : Program) (facts : Facts) (d : Declaration) : Prop where
  locals : ∀ g v, p.Local g v → facts.phases.state (.variable v, .typing) = .inProgress →
    facts.phases.state (.function g, .typing) = .inProgress
  own : ∀ g v, d = .variable v → p.Local g v → facts.phases.state (.function g, .typing) = .inProgress

section Nested
variable {p : Program} {facts : Facts} {modules : List Tree.Module} {ds : List Construction.Declared}

theorem entered_running {d e : Declaration} (running : facts.phases.state (d, .typing) = .inProgress) :
    ((Facts.phaseCell e .typing).write .inProgress facts).phases.state (d, .typing) = .inProgress := by
  rw [Facts.state_write]
  split
  · rfl
  · exact running

theorem nested_entered {d : Declaration} (nested : facts.Nested p d) {g : FunctionId} {v : VariableId}
    (own : p.Local g v)
    (running : ((Facts.phaseCell d .typing).write .inProgress facts).phases.state (.variable v, .typing) = .inProgress) :
    ((Facts.phaseCell d .typing).write .inProgress facts).phases.state (.function g, .typing) = .inProgress := by
  apply entered_running
  rw [Facts.state_write] at running
  split at running
  · rename_i same
    exact nested.own g v (Prod.mk.inj same).1.symm own
  · exact nested.locals g v own running

variable (lexical : p.Lexical modules ds)
include lexical

theorem declared_not_local {v : VariableId} (declared : .variable v ∈ p.declarations) (g : FunctionId) :
    ¬p.Local g v := by
  intro own
  obtain ⟨_, _, _, above⟩ := local_owned lexical own
  rw [lexical.declarations] at declared
  obtain ⟨d, member, same⟩ := List.mem_map.mp declared
  cases d with
  | function id decl => cases same
  | struct id => cases same
  | «variable» id =>
    cases same
    have below : v.index ∈ ds.filterMap Construction.Declared.variableNumber? :=
      List.mem_filterMap.mpr ⟨_, member, rfl⟩
    rw [lexical.globals, List.mem_range] at below
    omega

theorem uses_local {d : Declaration} {v : VariableId} (uses : p.Uses d (.variable v)) {g : FunctionId}
    (own : p.Local g v) : d = .function g ∨ ∃ w, d = .variable w ∧ p.Local g w := by
  obtain ⟨n, member, used⟩ := uses
  cases n with
  | identifier node name site =>
    have listed : ⟨node, name, site⟩ ∈ p.identifiers d := by
      rw [identifiers_eq]
      exact List.mem_filterMap.mpr ⟨_, member, rfl⟩
    exact local_reference lexical listed (referral_variable used) own
  | _ => cases used

theorem nested_regime : Regime p True (Facts.Nested p) where
  stable grows nested :=
    ⟨fun g v own running => (grows.phases.running _).mpr (nested.locals g v own ((grows.phases.running _).mp running)),
      fun g v same own => (grows.phases.running _).mpr (nested.own g v same own)⟩
  idle declared idle := by
    refine ⟨fun g v _ running => absurd running (idle _), ?_⟩
    rintro g v rfl own
    exact absurd own (declared_not_local lexical declared g)
  asks nested unknown uses _ := by
    refine ⟨fun g v own running => nested_entered nested own running, ?_⟩
    rintro g v rfl own
    rcases uses_local lexical uses own with rfl | ⟨w, rfl, sibling⟩
    · rw [Facts.state_write, if_pos rfl]
    · exact entered_running (nested.own g w rfl sibling)
  locals nested unknown own := by
    refine ⟨⟨fun g v other running => nested_entered nested other running, ?_⟩, ?_⟩
    · rintro g v same other
      cases same
      rw [local_unique lexical other own, Facts.state_write, if_pos rfl]
    · intro running
      rw [nested.locals _ _ own running] at unknown
      cases unknown
  outside := .inl trivial

end Nested

end SemanticAnalysis
