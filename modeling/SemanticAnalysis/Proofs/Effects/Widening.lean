import Mathlib.Data.List.Basic
import SemanticAnalysis.Proofs.Construction.WellFormed
import SemanticAnalysis.Proofs.Effects.Purity
import SemanticAnalysis.Proofs.Scope.Boundary
/-!
Effects and their boundary. When the boundary is moved further out, what a fragment reads (or writes) beyond it only
loses entries: those of the variables that are declared on the way from the old boundary to the new one. Calls are not
concerned, because the effects of a function are those beyond the function itself.
-/
namespace SemanticAnalysis
open Running Analysis SemanticAnalysis.Bound

namespace Effect

def touched? (e : Effect) : Option VariableId :=
  match e.cause with
  | .readsVariable v => some v
  | .writesVariable v => some v
  | _ => none

def isInvocation (e : Effect) : Bool :=
  match e.source with
  | .invocation _ => true
  | _ => false

def Touches (access : Access) (e : Effect) (v : VariableId) : Prop :=
  match access with
  | .read => (∃ name, e.source = .identifier name) ∧ e.cause = .readsVariable v
  | .write => e.source = .assignment ∧ e.cause = .writesVariable v

def Invokes (access : Access) (e : Effect) : Prop :=
  ∃ name f, e.source = .invocation name ∧ e.cause = access.throughCall f

variable {access : Access} {e : Effect} {v : VariableId}

theorem touches_touched (touches : e.Touches access v) : e.touched? = some v ∧ e.isInvocation = false := by
  unfold touched? isInvocation
  cases access with
  | read =>
    obtain ⟨⟨name, source⟩, cause⟩ := touches
    simp [source, cause]
  | write =>
    obtain ⟨source, cause⟩ := touches
    simp [source, cause]

theorem invokes_untouched (invokes : e.Invokes access) : e.touched? = none ∧ e.isInvocation = true := by
  obtain ⟨name, f, source, cause⟩ := invokes
  unfold touched? isInvocation
  cases access <;> simp [source, cause, Access.throughCall]

end Effect

namespace Program

/-- The effect is one of a variable that is declared above the boundary, up to the wider one. -/
def Hides (p : Program) (boundary wider : ScopeId) (e : Effect) : Prop :=
  ∃ v ∈ e.touched?, p.scopes.DeclaredAbove boundary wider v

instance (p : Program) (boundary wider : ScopeId) (e : Effect) : Decidable (p.Hides boundary wider e) :=
  inferInstanceAs (Decidable (∃ v ∈ e.touched?, p.scopes.DeclaredAbove boundary wider v))

section Known
variable (p : Program) (facts : Facts) (access : Access) (boundary : ScopeId)

open Classical in
noncomputable def nodeEffects : Node → List Effect
  | .identifier node name site => p.identifierEffects facts access boundary node name site
  | .call call _ _ =>
    match facts.dispatched.find? call.node with
    | none => []
    | some f =>
      if p.Clean facts.links access f then [] else [⟨.invocation call.name, call.site.span, access.throughCall f⟩]
  | _ => []

noncomputable def nodesEffects (ns : List Node) : List Effect := ns.flatMap (p.nodeEffects facts access boundary)

noncomputable def stepEffects : Step → List Effect
  | .node n => p.nodeEffects facts access boundary n
  | .introduce id => p.nodesEffects facts access boundary (p.initialNodes id)
  | .assign target value site =>
    p.assignmentEffects facts access boundary target site
      ++ p.nodesEffects facts access boundary (target.targetNodes ++ value.nodes)

/-- What a fragment reads (or writes) beyond a boundary, by what is known of names, calls and functions. -/
noncomputable def effectsOf (n : Fragment) : List Effect := n.steps.flatMap (p.stepEffects facts access boundary)

end Known

section Widening
variable {p : Program} {boundary wider : ScopeId}

theorem touched_widens (ordered : p.scopes.Ordered) (far : wider ∈ p.scopes.path boundary) {scope : ScopeId}
    (near : p.scopes.Around scope boundary) (facts : Facts) (node : NodeId) {f : VariableId → Effect}
    (about : ∀ v, (f v).touched? = some v) :
    (p.outside? facts wider node scope).toList.map f
      = ((p.outside? facts boundary node scope).toList.map f).filter (fun e => ¬p.Hides boundary wider e) := by
  unfold outside?
  cases facts.referrals.find? node with
  | none => rfl
  | some r =>
    cases r with
    | literal => rfl
    | typeName => rfl
    | «variable» v =>
      have hides : p.Hides boundary wider (f v) ↔ p.scopes.DeclaredAbove boundary wider v := by
        simp [Hides, about]
      have widens := ScopeTree.is_within_widen (v := v) ordered near far
      dsimp only
      by_cases within : p.scopes.isWithin scope v boundary = true
      · rw [if_pos within, if_pos (widens.mpr (.inl within))]
        rfl
      · by_cases above : p.scopes.DeclaredAbove boundary wider v
        · rw [if_neg within, if_pos (widens.mpr (.inr above))]
          simp [hides.mpr above]
        · rw [if_neg within, if_neg (fun now => (widens.mp now).elim within above)]
          simp [mt hides.mp above]

variable (ordered : p.scopes.Ordered) (far : wider ∈ p.scopes.path boundary) (facts : Facts) (access : Access)
include ordered far

theorem node_effects_widen {n : Node} (near : ∀ i, n.identifier? = some i → p.scopes.Around i.site.scope boundary) :
    p.nodeEffects facts access wider n
      = (p.nodeEffects facts access boundary n).filter (fun e => ¬p.Hides boundary wider e) := by
  cases n with
  | identifier node name site =>
    cases access with
    | read => exact touched_widens ordered far (near _ rfl) facts node (fun _ => rfl)
    | write => rfl
  | number => rfl
  | call call receiver args =>
    unfold nodeEffects
    dsimp only
    split
    · rfl
    · split
      · rfl
      · -- a call is about no variable, so it stays whatever the boundary
        have apart : ∀ f, ¬p.Hides boundary wider ⟨.invocation call.name, call.site.span, access.throughCall f⟩ := by
          rintro f ⟨v, touched, _⟩
          rw [Option.mem_def, (Effect.invokes_untouched ⟨_, f, rfl, rfl⟩).1] at touched
          cases touched
        simp [apart]
  | member => rfl

theorem nodes_effects_widen {ns : List Node}
    (near : ∀ i ∈ ns.filterMap Node.identifier?, p.scopes.Around i.site.scope boundary) :
    p.nodesEffects facts access wider ns
      = (p.nodesEffects facts access boundary ns).filter (fun e => ¬p.Hides boundary wider e) := by
  unfold nodesEffects
  rw [List.filter_flatMap]
  apply List.flatMap_congr
  intro n member
  apply node_effects_widen ordered far facts access
  intro i same
  exact near i (List.mem_filterMap.mpr ⟨n, member, same⟩)

theorem step_effects_widen {s : Step} (near : ∀ i ∈ p.stepIdentifiers s, p.scopes.Around i.site.scope boundary) :
    p.stepEffects facts access wider s
      = (p.stepEffects facts access boundary s).filter (fun e => ¬p.Hides boundary wider e) := by
  cases s with
  | node n =>
    apply node_effects_widen ordered far facts access
    intro i same
    exact near i (Option.mem_toList.mpr same)
  | introduce id =>
    apply nodes_effects_widen ordered far facts access
    intro i used
    apply near i
    rw [stepIdentifiers]
    unfold initialNodes at used
    cases found : p.vars[id.index]? with
    | none => simp [found] at used
    | some v =>
      rw [found] at used
      exact used
  | assign target value site =>
    have own : p.assignmentEffects facts access wider target site
        = (p.assignmentEffects facts access boundary target site).filter (fun e => ¬p.Hides boundary wider e) := by
      unfold assignmentEffects
      cases access with
      | read => rfl
      | write =>
        cases root : target.root? with
        | none => rfl
        | some entry =>
          obtain ⟨node, name, place⟩ := entry
          have used := List.mem_append_left value.identifiers (root_identifier root)
          exact touched_widens ordered far (near _ used) facts node (fun _ => rfl)
    have inside : ∀ i ∈ (target.targetNodes ++ value.nodes).filterMap Node.identifier?,
        p.scopes.Around i.site.scope boundary := by
      intro i used
      apply near i
      rw [List.filterMap_append, List.mem_append] at used
      refine List.mem_append.mpr (used.imp_left (fun ofTarget => ?_))
      -- a bare name is written and not read, which leaves fewer nodes
      unfold Expr.targetNodes at ofTarget
      split at ofTarget
      · cases ofTarget
      · exact ofTarget
    have rest := nodes_effects_widen ordered far facts access inside
    rw [stepEffects, stepEffects, own, rest, List.filter_append]

theorem effects_widen {n : Fragment}
    (near : ∀ i ∈ p.stepsIdentifiers n.steps, p.scopes.Around i.site.scope boundary) :
    p.effectsOf facts access wider n
      = (p.effectsOf facts access boundary n).filter (fun e => ¬p.Hides boundary wider e) := by
  unfold effectsOf
  rw [List.filter_flatMap]
  apply List.flatMap_congr
  intro s member
  apply step_effects_widen ordered far facts access
  intro i used
  exact near i (List.mem_flatMap.mpr ⟨s, member, used⟩)

end Widening

section Kinds
variable {p : Program} {facts : Facts} {access : Access} {boundary : ScopeId}

theorem node_effects_kinds {n : Node} {e : Effect} (listed : e ∈ p.nodeEffects facts access boundary n) :
    (∃ v, e.Touches access v) ∨ e.Invokes access := by
  unfold nodeEffects at listed
  cases n with
  | identifier node name site =>
    cases access with
    | read =>
      obtain ⟨v, _, rfl⟩ := List.mem_map.mp listed
      exact .inl ⟨v, ⟨name, rfl⟩, rfl⟩
    | write => cases listed
  | number => cases listed
  | call call receiver args =>
    dsimp only at listed
    split at listed
    · cases listed
    · split at listed
      · cases listed
      · rw [List.mem_singleton.mp listed]
        exact .inr ⟨_, _, rfl, rfl⟩
  | member => cases listed

theorem effects_kinds {n : Fragment} {e : Effect} (listed : e ∈ p.effectsOf facts access boundary n) :
    (∃ v, e.Touches access v) ∨ e.Invokes access := by
  obtain ⟨s, _, here⟩ := List.mem_flatMap.mp listed
  have nodes : ∀ {ns}, e ∈ p.nodesEffects facts access boundary ns → (∃ v, e.Touches access v) ∨ e.Invokes access := by
    intro ns among
    obtain ⟨n, _, own⟩ := List.mem_flatMap.mp among
    exact node_effects_kinds own
  cases s with
  | node n => exact node_effects_kinds here
  | introduce id => exact nodes here
  | assign target value site =>
    rcases List.mem_append.mp here with own | rest
    · unfold assignmentEffects at own
      split at own
      · obtain ⟨v, _, rfl⟩ := List.mem_map.mp own
        exact .inl ⟨v, rfl, rfl⟩
      · cases own
    · exact nodes rest

end Kinds

section Left
variable {p : Program} {access : Access} {boundary wider : ScopeId} {es : List Effect}

theorem invocations_stay (kinds : ∀ e ∈ es, (∃ v, e.Touches access v) ∨ e.Invokes access) :
    (es.filter (fun e => ¬p.Hides boundary wider e)).filter Effect.isInvocation = es.filter Effect.isInvocation := by
  rw [List.filter_filter]
  apply List.filter_congr
  intro e listed
  rcases kinds e listed with ⟨v, touches⟩ | invokes
  · simp [(Effect.touches_touched touches).2]
  · simp [Hides, Effect.invokes_untouched invokes]

theorem missing_iff {e : Effect} {v : VariableId} (listed : e ∈ es) (touches : e.Touches access v) :
    e ∉ es.filter (fun e => ¬p.Hides boundary wider e) ↔ p.scopes.DeclaredAbove boundary wider v := by
  rw [List.mem_filter]
  simp [listed, Hides, (Effect.touches_touched touches).1]

end Left

section Asked
variable {p : Program} {facts : Facts} {access : Access} {J : Facts → Prop}
  (links : ∀ now, J now → now.links = facts.links)
  (asks : ∀ f, Ensures J (p.summary access f) (fun answer => ∃ s, answer = some s ∧ p.Right facts.links access f s))

theorem outside_same {now : Facts} (same : now.links = facts.links) (boundary : ScopeId) (node : NodeId)
    (scope : ScopeId) : p.outside? now boundary node scope = p.outside? facts boundary node scope := by
  have referrals : now.referrals = facts.referrals := congrArg Links.referrals same
  unfold outside?
  rw [referrals]

include links asks

theorem node_effects_told (boundary : ScopeId) (n : Node) :
    Ensures J (n.effects p access (p.summary access) boundary)
      (fun es => es = p.nodeEffects facts access boundary n) := by
  cases n with
  | identifier node name site =>
    apply ensures_bind ensures_get
    intro now holds
    apply ensures_pure
    unfold nodeEffects identifierEffects
    rw [outside_same (links now holds)]
  | call call receiver args =>
    simp only [Node.effects, callEffects, nodeEffects]
    apply ensures_bind ensures_get
    intro now holds
    have dispatched : now.dispatched = facts.dispatched := congrArg Links.dispatched (links now holds)
    rw [dispatched]
    cases facts.dispatched.find? call.node with
    | none => exact ensures_pure rfl
    | some f =>
      apply ensures_bind (asks f)
      rintro answer ⟨s, rfl, right⟩
      apply ensures_pure
      dsimp only [calleeEffects]
      by_cases clean : s.clean = true
      · rw [if_pos clean, if_pos (right.clean.mp clean)]
      · rw [if_neg clean, if_neg (fun is => clean (right.clean.mpr is))]
  | _ => exact ensures_pure rfl

omit links asks in
theorem collect_told {α β : Type} {work : α → Analysis (List β)} {result : α → List β} (xs : List α)
    (each : ∀ x ∈ xs, Ensures J (work x) (fun ys => ys = result x)) :
    Ensures J (collect work xs) (fun ys => ys = xs.flatMap result) := by
  have viewed : Ensures J (collect work xs) (fun ys => ys.map id = xs.flatMap result) :=
    ensures_collect xs (by simpa only [List.map_id] using each)
  simpa only [List.map_id] using viewed

theorem nodes_effects_told (boundary : ScopeId) (ns : List Node) :
    Ensures J (collect (Node.effects p access (p.summary access) boundary) ns)
      (fun es => es = p.nodesEffects facts access boundary ns) :=
  collect_told ns (fun n _ => node_effects_told links asks boundary n)

theorem step_effects_told (boundary : ScopeId) (s : Step) :
    Ensures J (s.effects p access (p.summary access) boundary)
      (fun es => es = p.stepEffects facts access boundary s) := by
  cases s with
  | node n => exact node_effects_told links asks boundary n
  | introduce id =>
    simp only [Step.effects, variableEffects]
    apply ensures_look_up
    intro v at_
    have nodes : p.initialNodes id = Expr.optionNodes v.initializer := by
      unfold initialNodes
      rw [variable_at_ok_iff.mp at_]
      rfl
    rw [stepEffects, nodes, Expr.effects_option_collect]
    exact nodes_effects_told links asks boundary _
  | assign target value site =>
    have ofTarget : Ensures J (target.targetEffects p access (p.summary access) boundary)
        (fun es => es = p.nodesEffects facts access boundary target.targetNodes) := by
      unfold Expr.targetEffects Expr.targetNodes
      split
      · exact ensures_pure rfl
      · rw [Expr.effects_collect]
        exact nodes_effects_told links asks boundary _
    have own : ∀ now, J now → p.assignmentEffects now access boundary target site
        = p.assignmentEffects facts access boundary target site := by
      intro now holds
      unfold assignmentEffects
      simp only [outside_same (links now holds)]
    simp only [Step.effects, Expr.effects_collect p access _ boundary value]
    apply ensures_bind ensures_get
    intro now holds
    apply ensures_bind ofTarget
    rintro first rfl
    apply ensures_bind (nodes_effects_told links asks boundary _)
    rintro second rfl
    apply ensures_pure
    rw [own now holds, stepEffects, List.append_assoc, nodesEffects, nodesEffects, ← List.flatMap_append]
    rfl

theorem fragment_effects_told (boundary : ScopeId) (n : Fragment) :
    Ensures J (n.effects p access boundary) (fun es => es = p.effectsOf facts access boundary n) := by
  rw [Fragment.effects_collect]
  exact collect_told n.steps (fun s _ => step_effects_told links asks boundary s)

end Asked

theorem fragment_effects_run {p : Program} (consistent : p.Consistent) {n : Fragment} (surrounds : p.Surrounds n)
    (access : Access) (boundary : ScopeId) {base : Facts} :
    Analysis.Runs (Facts.Sound p base) (n.effects p access boundary) := by
  rw [Fragment.effects_collect]
  refine runs_of_succeeds (steps_effects_succeed (summary_source_answers consistent access)
    (few_summaries access base) boundary ?_)
  intro id member
  obtain ⟨v, found, _⟩ := surrounds.locals _ (introduce_mem.mp member)
  exact (Array.getElem?_eq_some_iff.mp found).1

end Program

namespace Session

/-- A question about effects: those of a function, or those of a fragment beyond some boundary. -/
inductive Probes (s : Session) : Session → Prop where
  | function {q : Question} (asks : q.AsksEffects) : Probes s (s.answer q).2
  | fragment {n : Fragment} (inside : s.program.Contains n) (access : Access) (boundary : ScopeId) :
      Probes s (s.ask (n.effects s.program access boundary)).2

section Probes
variable {p : Program} {facts : Facts} (consistent : p.Consistent) {modules : List Tree.Module}
  {ds : List Construction.Declared} (lexical : p.Lexical modules ds) (faithful : facts.links.Faithful p)
  (formed : p.Formed)
include consistent lexical faithful formed

theorem fragment_told {s : Session} (before : s.Upright p facts.links (Facts.Settled p facts.links)) {n : Fragment}
    (inside : p.Contains n) (access : Access) (boundary : ScopeId) :
    ∃ after, s.ask (n.effects s.program access boundary) = (.ok (p.effectsOf facts access boundary n), after) ∧
      after.Upright p facts.links (Facts.Settled p facts.links) := by
  obtain ⟨rfl, sound, upright⟩ := before
  have surrounds := contains_nested formed inside n .refl
  have asks := summary_told (settled_groundwork s.program facts.links) consistent lexical faithful access
  obtain ⟨es, after, ran, sound', _⟩ := Program.fragment_effects_run consistent surrounds access boundary s.facts sound
  obtain ⟨upright', rfl⟩ := Program.fragment_effects_told (fun now holds => holds.ground.tables) asks boundary n s.facts
    upright es after ran
  refine ⟨{ s with facts := after }, ?_, rfl, sound', upright'⟩
  unfold ask
  rw [ran]

theorem probes_upright {s t : Session} (before : s.Upright p facts.links (Facts.Settled p facts.links))
    (probes : Relation.ReflTransGen Probes s t) : t.Upright p facts.links (Facts.Settled p facts.links) := by
  induction probes with
  | refl => exact before
  | tail _ step ih =>
    cases step with
    | function asks => exact answer_upright (settled_groundwork _ _) consistent lexical faithful ih asks
    | fragment inside access boundary =>
      have inside' := inside
      rw [ih.program] at inside'
      obtain ⟨after, ran, upright⟩ := fragment_told consistent lexical faithful formed ih inside' access boundary
      rw [ran]
      exact upright

end Probes

end Session

/-- After a compilation and any questions about effects, what a fragment reads (or writes) beyond a boundary on the way
from its scope to the root is told, and widening the boundary only takes variables away: those that are declared above
the boundary and up to the wider one. The calls stay, in their order. -/
theorem widening_removes_variables {options : Options} {modules : List Tree.Module} {c : Compilation}
    (bound : Compilation.bind options modules = .ok c) {n : Fragment} (inside : c.program.Contains n)
    {boundary wider : ScopeId} (near : boundary ∈ c.program.scopes.path n.site.scope)
    (far : wider ∈ c.program.scopes.path boundary) (access : Access) :
    ∃ narrow wide : List Effect,
      (∀ s, Relation.ReflTransGen Session.Probes c.session s →
        (s.ask (n.effects s.program access boundary)).1 = .ok narrow ∧
        (s.ask (n.effects s.program access wider)).1 = .ok wide) ∧
      wide.Sublist narrow ∧
      wide.filter Effect.isInvocation = narrow.filter Effect.isInvocation ∧
      wide = narrow.filter (fun e => ¬c.program.Hides boundary wider e) ∧
      ∀ e ∈ narrow, e.isInvocation = false →
        ∃ v, e.Touches access v ∧ (e ∉ wide ↔ c.program.scopes.DeclaredAbove boundary wider v) := by
  obtain ⟨findings, _, built, _, _⟩ := Compilation.bind_ok_parts bound
  have formed := construct_formed built
  obtain ⟨consistent, ⟨ds, lexical⟩, faithful, before⟩ := Compilation.session_upright bound
  have ordered := formed.framed.planted.ordered
  have around : ∀ i ∈ c.program.stepsIdentifiers n.steps, c.program.scopes.Around i.site.scope boundary := by
    intro i used
    have inner := surrounds_identifiers formed (contains_nested formed inside n .refl) used
    exact ScopeTree.around_trans (ScopeTree.inner_around inner) (ScopeTree.path_around near)
  have widens := Program.effects_widen ordered far c.facts access around
  refine ⟨c.program.effectsOf c.facts access boundary n, c.program.effectsOf c.facts access wider n, ?_, ?_, ?_,
    widens, ?_⟩
  · intro s probes
    have upright := Session.probes_upright consistent lexical faithful formed before probes
    obtain ⟨_, first, _⟩ := Session.fragment_told consistent lexical faithful formed upright inside access boundary
    obtain ⟨_, second, _⟩ := Session.fragment_told consistent lexical faithful formed upright inside access wider
    exact ⟨congrArg Prod.fst first, congrArg Prod.fst second⟩
  · rw [widens]
    exact List.filter_sublist
  · rw [widens]
    exact Program.invocations_stay (fun e listed => Program.effects_kinds listed)
  · intro e listed other
    rcases Program.effects_kinds listed with ⟨v, touches⟩ | invokes
    · rw [widens]
      exact ⟨v, touches, Program.missing_iff listed touches⟩
    · rw [(Effect.invokes_untouched invokes).2] at other
      cases other

/-- `run` has a parameter `a`, a variable `base`, and a block that reads both, its own variable and one of the module,
and that calls a function which reads the latter. -/
def Tree.enclosing : Tree.Module :=
  let inner : Tree.Block := .mk [.variable (Tree.assigned "own" "total"), Tree.used "own", Tree.used "base",
    .expr (Tree.call "reader") {}, Tree.used "a", .assign (Tree.name "base") (Tree.name "total") {}] {}
  { path := []
    imports := []
    items := [Tree.initialized "total" (.number (.int 0) {}), Tree.returning "reader" (Tree.name "total"),
      .function ⟨⟨"run", {}⟩, {}, none, [⟨⟨"a", {}⟩, none, {}⟩], none,
        some (.mk [.variable (Tree.assigned "base" "a"), .block inner] {}), {}⟩]
    notices := []
    span := {} }

def Bound.Stmt.block? : Stmt → Option Block
  | .block body => some body
  | _ => none

def Bound.Function.innerBlock? (f : Function) : Option Block :=
  f.body.bind (fun body => body.stmts.findSome? Stmt.block?)

theorem Program.contains_inner_block {p : Program} {k : Nat} {f : Function} {b : Block}
    (found : p.functions[k]? = some f) (inner : f.innerBlock? = some b) : p.Contains (.block b) := by
  obtain ⟨body, written, first⟩ := Option.bind_eq_some_iff.mp inner
  obtain ⟨s, listed, here⟩ := List.exists_of_findSome?_eq_some first
  cases s with
  | block inner =>
    cases here
    have whole : p.Contains (.block body) := .body found written
    have stmt : p.Contains (.stmt (.block b)) := .part whole (List.mem_map.mpr ⟨_, listed, rfl⟩)
    exact .part stmt (List.mem_singleton_self _)
  | _ => cases here

def Compilation.readBy (c : Compilation) (b : Block) (boundary : ScopeId) : Option (List (Option VariableId)) :=
  (c.session.ask ((Fragment.block b).effects c.program .read boundary)).1.toOption.map (List.map Effect.touched?)

theorem inner_block_widens : ∃ (c : Compilation) (f : Function) (b : Block),
    Compilation.bind {} [Tree.enclosing] = .ok c ∧ c.program.functions[22]? = some f ∧ f.innerBlock? = some b ∧
      c.program.Contains (.block b) ∧ b.site.scope ∈ c.program.scopes.path b.site.scope ∧
      f.scope ∈ c.program.scopes.path b.site.scope ∧
      ∃ narrow wide : List Effect, narrow.map Effect.touched? = [some ⟨0⟩, some ⟨2⟩, none, some ⟨1⟩, some ⟨0⟩] ∧
        wide.map Effect.touched? = [some ⟨0⟩, none, some ⟨0⟩] ∧ wide.Sublist narrow ∧
        wide = narrow.filter (fun e => ¬c.program.Hides b.site.scope f.scope e) := by
  have evaluated : (Compilation.bind {} [Tree.enclosing]).toOption.any (fun c => decide
      (∃ f ∈ c.program.functions[22]?, ∃ b ∈ f.innerBlock?, b.site.scope ∈ c.program.scopes.path b.site.scope ∧
        f.scope ∈ c.program.scopes.path b.site.scope ∧
        c.readBy b b.site.scope = some [some ⟨0⟩, some ⟨2⟩, none, some ⟨1⟩, some ⟨0⟩] ∧
        c.readBy b f.scope = some [some ⟨0⟩, none, some ⟨0⟩])) = true := by decide +kernel
  obtain ⟨c, bound, f, found, b, inner, near, far, first, second⟩ := ok_of_passed evaluated
  have inside := Program.contains_inner_block found inner
  obtain ⟨narrow, wide, told, sublist, _, widens, _⟩ := widening_removes_variables bound inside near far .read
  have read : ∀ {boundary es}, (c.session.ask ((Fragment.block b).effects c.program .read boundary)).1 = .ok es →
      c.readBy b boundary = some (es.map Effect.touched?) := by
    intro boundary es answered
    rw [Compilation.readBy, answered]
    rfl
  obtain ⟨narrowTold, wideTold⟩ := told c.session .refl
  refine ⟨c, f, b, bound, found, inner, inside, near, far, narrow, wide, ?_, ?_, sublist, widens⟩
  · exact Option.some.inj ((read narrowTold).symm.trans first)
  · exact Option.some.inj ((read wideTold).symm.trans second)

end SemanticAnalysis
