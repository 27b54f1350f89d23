import SemanticAnalysis.Proofs.Construction.Frame
/-!
Bodies of functions. Binding goes through a body as lexical scoping does: every name is bound in a scope from which
one sees what is visible at that place, and variables are numbered in the order of the text.
-/
namespace SemanticAnalysis
open SemanticAnalysis.Bound ScopeTree

namespace Bound

def Step.introduced? : Step → Option Nat
  | .introduce id => some id.index
  | _ => none

def introduced (steps : List Step) : List Nat := steps.filterMap Step.introduced?

theorem introduced_append (xs ys : List Step) : introduced (xs ++ ys) = introduced xs ++ introduced ys :=
  List.filterMap_append

theorem introduced_nodes (ns : List Node) : introduced (ns.map .node) = [] := by
  unfold introduced
  rw [List.filterMap_map]
  simp [Function.comp_def, Step.introduced?]

theorem introduce_mem {steps : List Step} {v : VariableId} : .introduce v ∈ steps ↔ v.index ∈ introduced steps := by
  unfold introduced
  rw [List.mem_filterMap]
  constructor
  · intro member
    exact ⟨_, member, rfl⟩
  · rintro ⟨step, member, same⟩
    cases step with
    | introduce id =>
      obtain ⟨i⟩ := id
      obtain ⟨j⟩ := v
      cases same
      exact member
    | _ => cases same

def Step.ownSpans : Step → List Span
  | .assign _ _ site => [site.span]
  | _ => []

end Bound

namespace Program

def stepsIdentifiers (p : Program) (steps : List Step) : List Identifier := steps.flatMap p.stepIdentifiers

theorem steps_identifiers_eq (p : Program) (steps : List Step) :
    p.stepsIdentifiers steps = (p.stepsNodes steps).filterMap Node.identifier? := by
  unfold stepsIdentifiers stepsNodes
  rw [List.filterMap_flatMap]
  congr 1
  funext step
  cases step with
  | node n => cases same : n.identifier? <;> simp [stepIdentifiers, stepNodes, same]
  | assign target value site => simp [stepIdentifiers, stepNodes, Expr.identifiers]
  | introduce id =>
    rw [stepIdentifiers, stepNodes, initialNodes]
    cases p.vars[id.index]? <;> rfl

theorem steps_nodes_nodes (p : Program) (ns : List Node) : p.stepsNodes (ns.map .node) = ns := by
  unfold stepsNodes
  induction ns with
  | nil => rfl
  | cons n rest ih =>
    rw [List.map_cons, List.flatMap_cons, ih]
    rfl

theorem steps_nodes_append (p : Program) (xs ys : List Step) :
    p.stepsNodes (xs ++ ys) = p.stepsNodes xs ++ p.stepsNodes ys := List.flatMap_append

def stepsSpans (p : Program) (steps : List Step) : List Span :=
  steps.flatMap (fun step => (p.stepNodes step).map Node.span ++ step.ownSpans)

theorem steps_spans_nodes (p : Program) (ns : List Node) : p.stepsSpans (ns.map .node) = ns.map Node.span := by
  unfold stepsSpans
  rw [List.flatMap_map, List.map_eq_flatMap]
  rfl

section Keeps
variable {touched : ScopeKind → Prop} {p q : Program} (keeps : p.Keeps touched q) {steps : List Step}
  (there : ∀ n ∈ introduced steps, n < p.vars.size)
include keeps there

theorem step_nodes_keep : ∀ step ∈ steps, q.stepNodes step = p.stepNodes step := by
  intro step member
  cases step with
  | introduce id =>
    have index := there id.index (introduce_mem.mp member)
    have found := keeps.vars id.index _ (Array.getElem?_eq_getElem index)
    rw [stepNodes, stepNodes, initialNodes, initialNodes, found, Array.getElem?_eq_getElem index]
  | _ => rfl

theorem steps_nodes_keep : q.stepsNodes steps = p.stepsNodes steps := by
  unfold stepsNodes
  rw [List.flatMap_def, List.flatMap_def, List.map_congr_left (step_nodes_keep keeps there)]

theorem steps_spans_keep : q.stepsSpans steps = p.stepsSpans steps := by
  unfold stepsSpans
  rw [List.flatMap_def, List.flatMap_def, List.map_congr_left fun step member => ?_]
  rw [step_nodes_keep keeps there step member]

end Keeps

end Program

/-- A name is bound where one sees what is visible. -/
def ScopeTree.Meets (t : ScopeTree) (f : FunctionId) (boundary : ScopeId) (i : Identifier) (use : Tree.Use) : Prop :=
  i.name = use.name ∧ t.Within f boundary i.site.scope use.visible

namespace Construction
open Program

/-- From the first program to the second one, some steps inside a function were bound as lexical scoping tells. -/
structure Binds (f : FunctionId) (boundary : ScopeId) (p q : Program) (steps : List Step)
    (locals : List Tree.VariableDecl) (uses : List Tree.Use) (spans : List Span) : Prop where
  ordered : q.scopes.Ordered
  keeps : p.Keeps (fun _ => False) q
  binders : q.vars.toList.map Variable.binder = p.vars.toList.map Variable.binder ++ locals.map .declaration
  introduced : introduced steps = List.range' p.vars.size locals.length
  meets : List.Forall₂ (q.scopes.Meets f boundary) (q.stepsIdentifiers steps) uses
  nodes : Numbered p.nodes q.nodes (q.stepsNodes steps)
  spans : (q.stepsSpans steps).Sublist spans

section Binds
variable {f : FunctionId} {boundary : ScopeId} {p q r : Program} {steps others : List Step}
  {locals more : List Tree.VariableDecl} {uses later : List Tree.Use} {spans wider : List Span}

theorem binds_size (binds : Binds f boundary p q steps locals uses spans) : q.vars.size = p.vars.size + locals.length := by
  have lengths := congrArg List.length binds.binders
  simpa using lengths

theorem within_kept {scope : ScopeId} {visible : Tree.Visible} (keeps : p.Keeps (fun _ => False) q)
    (within : p.scopes.Within f boundary scope visible) : q.scopes.Within f boundary scope visible :=
  within_keeps (fun id s _ found => keeps.scopes id s (fun h => h) found) within

theorem binds_append (first : Binds f boundary p q steps locals uses spans)
    (second : Binds f boundary q r others more later wider) :
    Binds f boundary p r (steps ++ others) (locals ++ more) (uses ++ later) (spans ++ wider) := by
  have size := binds_size first
  have there : ∀ n ∈ introduced steps, n < q.vars.size := by
    intro n member
    rw [first.introduced, List.mem_range'_1] at member
    omega
  have same := steps_nodes_keep second.keeps there
  have names : r.stepsIdentifiers (steps ++ others) = q.stepsIdentifiers steps ++ r.stepsIdentifiers others := by
    rw [steps_identifiers_eq, steps_nodes_append, same, List.filterMap_append, ← steps_identifiers_eq,
      ← steps_identifiers_eq]
  have meets : List.Forall₂ (r.scopes.Meets f boundary) (q.stepsIdentifiers steps) uses :=
    first.meets.imp (fun i use ⟨name, within⟩ => ⟨name, within_kept second.keeps within⟩)
  constructor
  · exact second.ordered
  · exact keeps_trans first.keeps second.keeps
  · rw [second.binders, first.binders, List.map_append, List.append_assoc]
  · rw [introduced_append, first.introduced, second.introduced, size, List.length_append, ← List.range'_append_1]
  · rw [names]
    exact List.rel_append meets second.meets
  · rw [steps_nodes_append, same]
    exact first.nodes.append second.nodes
  · rw [stepsSpans, List.flatMap_append]
    exact ((steps_spans_keep second.keeps there).symm ▸ first.spans).append second.spans

theorem binds_widen (binds : Binds f boundary p q steps locals uses spans) (among : spans.Sublist wider) :
    Binds f boundary p q steps locals uses wider := { binds with spans := binds.spans.trans among }

theorem binds_after (keeps : p.Keeps (fun _ => False) q) (vars : q.vars = p.vars) (nodes : q.nodes = p.nodes)
    (binds : Binds f boundary q r steps locals uses spans) : Binds f boundary p r steps locals uses spans :=
  { binds with
    keeps := keeps_trans keeps binds.keeps
    binders := by rw [binds.binders, vars]
    introduced := by rw [binds.introduced, vars]
    nodes := nodes ▸ binds.nodes }

theorem binds_places {scope : ScopeId} {visible : Tree.Visible} {ns : List Node} {sites : List Site}
    {names : List String} (ordered : p.scopes.Ordered) (within : p.scopes.Within f boundary scope visible)
    (same : q = { p with nodes := q.nodes }) (places : Places scope p.nodes q.nodes ns sites names spans)
    (nothing : introduced steps = []) (nodes : q.stepsNodes steps = ns) (shown : (q.stepsSpans steps).Sublist wider) :
    Binds f boundary p q steps [] (names.map (⟨·, visible⟩)) wider := by
  have scopes : q.scopes = p.scopes := by rw [same]
  have vars : q.vars = p.vars := by rw [same]
  constructor
  · rw [scopes]
    exact ordered
  · rw [same]
    exact keeps_nodes places.nodes.grows
  · rw [vars]
    simp
  · rw [nothing]
    rfl
  · rw [steps_identifiers_eq, nodes, scopes]
    have located := places.places
    clear nodes places
    generalize ns.filterMap Node.identifier? = used at located ⊢
    induction used generalizing names with
    | nil =>
      cases names with
      | nil => exact .nil
      | cons name rest => cases located
    | cons i rest ih =>
      cases names with
      | nil => cases located
      | cons name others =>
        rw [List.map_cons, List.map_cons] at located
        obtain ⟨here, further⟩ := List.cons.inj located
        obtain ⟨named, scoped'⟩ := Prod.mk.inj here
        exact .cons ⟨named, by rw [scoped']; exact within⟩ (ih further)
  · rw [nodes]
    exact places.nodes
  · exact shown

end Binds

section Statements
variable {f : FunctionId} {boundary : ScopeId}

theorem binds_nodes {p q : Program} {scope : ScopeId} {visible : Tree.Visible} {ns : List Node} {sites : List Site}
    {names : List String} {spans : List Span} (ordered : p.scopes.Ordered)
    (within : p.scopes.Within f boundary scope visible) (same : q = { p with nodes := q.nodes })
    (places : Places scope p.nodes q.nodes ns sites names spans) :
    Binds f boundary p q (ns.map .node) [] (names.map (⟨·, visible⟩)) spans :=
  binds_places ordered within same places (introduced_nodes ns) (steps_nodes_nodes q ns)
    (steps_spans_nodes q ns ▸ places.spans)

theorem binds_none {p : Program} (ordered : p.scopes.Ordered) : Binds f boundary p p [] [] [] [] :=
  ⟨ordered, keeps_refl _ p, by simp, rfl, .nil, .none (Nat.le_refl _), .slnil⟩

/-- A local variable: its initializer does not see it, what follows does. -/
theorem bind_variable_yields (scope : ScopeId) (decl : Tree.VariableDecl) {p : Program} {visible : Tree.Visible}
    (ordered : p.scopes.Ordered) (within : p.scopes.Within f boundary scope visible) :
    Yields (bindStmt scope (.variable decl)) p (fun b q =>
      Binds f boundary p q b.1.steps [decl] ((Tree.Expr.optionNames decl.initializer).map (⟨·, visible⟩))
        ((Tree.Stmt.variable decl).contents.map Tree.Content.span) ∧
        q.scopes.Within f boundary b.2 ((decl.name.name, ⟨p.vars.size⟩) :: visible)) := by
  rw [bindStmt]
  refine yields_bind (bind_option_places scope decl.initializer) ?_
  rintro initializer q ⟨same, places⟩
  have scopes : q.scopes = p.scopes := by rw [same]
  have vars : q.vars = p.vars := by rw [same]
  have kept : p.Keeps (fun _ => False) q := by
    rw [same]
    exact keeps_nodes places.nodes.grows
  let v : Variable := { id := ⟨q.vars.size⟩, origin := .declared decl, scope, initializer }
  let layer : Scope := {
    kind := .binding
    parent := some scope
    home := (q.scopes.get? scope).bind Scope.home
    vars := [(decl.name.name, ⟨q.vars.size⟩)] }
  let r : Program := { q with vars := q.vars.push v, scopes := (q.scopes.push layer).2 }
  have completed : ∀ b, (pure b : Construction (Stmt × ScopeId))
      { q with
        vars := q.vars.push v
        scopes := ((q.scopes.derive scope .binding).2.addVariable ⟨q.scopes.size⟩ decl.name.name ⟨q.vars.size⟩) }
      = .ok (b, r) := by
    intro b
    unfold ScopeTree.addVariable ScopeTree.derive
    rw [push_modify]
    rfl
  refine yields_step rfl (yields_step rfl (yields_step rfl (yields_done (completed _) ?_)))
  have index := within_there within
  have keeps : p.Keeps (fun _ => False) r :=
    keeps_trans kept (keeps_trans (keeps_push_variable v) (keeps_push_scope layer))
  constructor
  · have nodes : r.stepsNodes [.introduce ⟨q.vars.size⟩] = Expr.optionNodes initializer := by
      simp [r, v, stepsNodes, stepNodes, initialNodes]
    have inner := binds_nodes (f := f) ordered within same places
    have found := inner.meets
    rw [steps_identifiers_eq, steps_nodes_nodes] at found
    constructor
    · apply ordered_push
      · rw [scopes]
        exact ordered
      · intro parent up
        cases up
        rw [scopes]
        exact index
    · exact keeps
    · simp [r, v, vars, Variable.binder]
    · simp [introduced, Step.introduced?, Stmt.steps, vars]
    · rw [Stmt.steps, steps_identifiers_eq, nodes]
      apply found.imp
      rintro i use ⟨name, inside⟩
      exact ⟨name, within_kept (keeps_trans (keeps_push_variable v) (keeps_push_scope layer)) inside⟩
    · rw [Stmt.steps, nodes]
      exact places.nodes
    · rw [Tree.Stmt.contents, List.map_append]
      have shown : r.stepsSpans [.introduce ⟨q.vars.size⟩] = (Expr.optionNodes initializer).map Node.span := by
        simp [r, v, stepsSpans, stepNodes, initialNodes, Step.ownSpans]
      exact shown ▸ places.spans.trans (List.sublist_append_left _ _)
  · rw [← vars]
    have seen : q.scopes.Within f boundary scope visible := by
      rw [scopes]
      exact within
    exact within_push (s := layer) trivial rfl rfl seen

mutual

theorem bind_stmt_yields (scope : ScopeId) (s : Tree.Stmt) {p : Program} {visible : Tree.Visible}
    (ordered : p.scopes.Ordered) (within : p.scopes.Within f boundary scope visible) :
    Yields (bindStmt scope s) p (fun b q =>
      Binds f boundary p q b.1.steps s.locals (s.uses visible p.vars.size) (s.contents.map Tree.Content.span) ∧
        q.scopes.Within f boundary b.2 (s.after visible p.vars.size)) :=
  match s with
  | .expr value span => by
    rw [bindStmt, Tree.Stmt.locals, Tree.Stmt.uses, Tree.Stmt.contents, List.map_append]
    refine yields_bind (bind_expr_places scope value) (fun value q ⟨same, places⟩ => yields_pure ?_)
    have binds := binds_nodes ordered within same places
    constructor
    · rw [Stmt.steps]
      exact binds_widen binds (List.sublist_append_left _ _)
    · exact within_kept binds.keeps within
  | .variable decl => by
    rw [Tree.Stmt.locals, Tree.Stmt.uses, Tree.Stmt.after]
    exact bind_variable_yields scope decl ordered within
  | .assign target value span => by
    rw [bindStmt, Tree.Stmt.locals, Tree.Stmt.uses]
    refine yields_bind (bind_expr_places scope target) (fun left q ⟨same, first⟩ => ?_)
    refine yields_bind (bind_expr_places scope value) (fun right r ⟨same', second⟩ => yields_pure ?_)
    have whole : r = { p with nodes := r.nodes } := by
      rw [same', same]
    have places := first.append second
    have shown : (r.stepsSpans [.assign left right ⟨scope, span⟩]).Sublist
        ((Tree.Stmt.assign target value span).contents.map Tree.Content.span) := by
      simpa [stepsSpans, stepNodes, Step.ownSpans, Tree.Stmt.contents, Tree.Content.span, Tree.Stmt.span]
        using places.spans.append (.refl [span])
    have binds := binds_places (f := f) ordered within whole places rfl (by simp [stepsNodes, stepNodes]) shown
    constructor
    · rw [Stmt.steps]
      exact binds
    · exact within_kept binds.keeps within
  | .ret value span => by
    rw [bindStmt, Tree.Stmt.locals, Tree.Stmt.uses, Tree.Stmt.contents, List.map_append]
    refine yields_bind (bind_option_places scope value) (fun value q ⟨same, places⟩ => yields_pure ?_)
    have binds := binds_nodes ordered within same places
    constructor
    · rw [Stmt.steps]
      exact binds_widen binds (List.sublist_append_left _ _)
    · exact within_kept binds.keeps within
  | .branch condition thenBranch elseBranch span => by
    rw [bindStmt, Tree.Stmt.locals, Tree.Stmt.uses, Tree.Stmt.contents, List.map_append, List.map_append,
      List.map_append]
    refine yields_bind (bind_expr_places scope condition) (fun condition q ⟨same, places⟩ => ?_)
    have first := binds_nodes ordered within same places
    have inThen := within_kept first.keeps within
    refine yields_bind (bind_block_yields scope thenBranch first.ordered inThen) (fun thenBranch r second => ?_)
    have inElse := within_kept second.keeps inThen
    refine yields_bind (bind_option_block_yields scope elseBranch second.ordered inElse)
      (fun elseBranch u third => yields_pure ?_)
    have start : q.vars.size = p.vars.size := binds_size first
    rw [start] at second
    rw [binds_size second, start] at third
    constructor
    · rw [Stmt.steps]
      exact binds_widen (binds_append (binds_append first second) third) (List.sublist_append_left _ _)
    · exact within_kept third.keeps inElse
  | .block body => by
    rw [bindStmt, Tree.Stmt.locals, Tree.Stmt.uses, Tree.Stmt.contents, List.map_append]
    refine yields_bind (bind_block_yields scope body ordered within) (fun body q binds => yields_pure ?_)
    constructor
    · rw [Stmt.steps]
      exact binds_widen binds (List.sublist_append_left _ _)
    · exact within_kept binds.keeps within

theorem bind_block_yields (parent : ScopeId) (b : Tree.Block) {p : Program} {visible : Tree.Visible}
    (ordered : p.scopes.Ordered) (within : p.scopes.Within f boundary parent visible) :
    Yields (bindBlock parent b) p (fun bound q =>
      Binds f boundary p q bound.steps b.locals (b.uses visible p.vars.size) (b.contents.map Tree.Content.span)) :=
  match b with
  | .mk stmts span => by
    rw [bindBlock, Tree.Block.locals, Tree.Block.uses, Tree.Block.contents]
    let inner : Scope := { kind := .block, parent := some parent, home := (p.scopes.get? parent).bind Scope.home }
    have opened : (p.scopes.push inner).2.Ordered := by
      apply ordered_push ordered
      intro above up
      cases up
      exact within_there within
    have seen := within_push (s := inner) trivial rfl rfl within
    refine yields_step (a := ⟨p.scopes.size⟩) (t := { p with scopes := (p.scopes.push inner).2 }) rfl ?_
    refine yields_bind (bind_stmts_yields ⟨p.scopes.size⟩ stmts opened seen) (fun stmts q binds => yields_pure ?_)
    rw [Block.steps]
    exact binds_after (keeps_push_scope inner) rfl rfl binds

theorem bind_option_block_yields (parent : ScopeId) (b : Option Tree.Block) {p : Program} {visible : Tree.Visible}
    (ordered : p.scopes.Ordered) (within : p.scopes.Within f boundary parent visible) :
    Yields (bindOptionBlock parent b) p (fun bound q =>
      Binds f boundary p q (Block.optionSteps bound) (Tree.Block.optionLocals b)
        (Tree.Block.optionUses visible p.vars.size b) ((Tree.Block.optionContents b).map Tree.Content.span)) :=
  match b with
  | none => by
    rw [bindOptionBlock, Tree.Block.optionLocals, Tree.Block.optionUses, Tree.Block.optionContents]
    apply yields_pure
    rw [Block.optionSteps]
    exact binds_none ordered
  | some block => by
    rw [bindOptionBlock, Tree.Block.optionLocals, Tree.Block.optionUses, Tree.Block.optionContents]
    refine yields_bind (bind_block_yields parent block ordered within) (fun bound q binds => yields_pure ?_)
    rw [Block.optionSteps]
    exact binds

theorem bind_stmts_yields (scope : ScopeId) (ss : List Tree.Stmt) {p : Program} {visible : Tree.Visible}
    (ordered : p.scopes.Ordered) (within : p.scopes.Within f boundary scope visible) :
    Yields (bindStmts scope ss) p (fun bound q =>
      Binds f boundary p q (Stmt.allSteps bound) (Tree.Stmt.allLocals ss) (Tree.Stmt.allUses visible p.vars.size ss)
        ((Tree.Stmt.allContents ss).map Tree.Content.span)) :=
  match ss with
  | [] => by
    rw [bindStmts, Tree.Stmt.allLocals, Tree.Stmt.allUses, Tree.Stmt.allContents]
    apply yields_pure
    rw [Stmt.allSteps]
    exact binds_none ordered
  | s :: rest => by
    rw [bindStmts, Tree.Stmt.allLocals, Tree.Stmt.allUses, Tree.Stmt.allContents, List.map_append]
    refine yields_bind (bind_stmt_yields scope s ordered within) (fun b q ⟨first, seen⟩ => ?_)
    refine yields_bind (bind_stmts_yields b.2 rest first.ordered seen) (fun bound r others => yields_pure ?_)
    rw [binds_size first] at others
    rw [Stmt.allSteps]
    exact binds_append first others

end

end Statements

end Construction

namespace Program

structure Opened (p : Program) (home : ScopeId) (id : FunctionId) (f : Function) (visible : Tree.Visible) : Prop where
  found : p.functions[id.index]? = some f
  scope : ∃ s, p.scopes.get? f.scope = some s ∧ s.kind = .function id ∧ s.parent = some home ∧ s.imports = [] ∧
    s.vars = visible

def Plain (p : Program) (id : VariableId) : Prop :=
  ∃ v, p.vars[id.index]? = some v ∧ v.initializer = none ∧ ∃ f index param, v.origin = .parameter f index param

/-- A function that is bound as lexical scoping tells. Its variables are numbered from `next`. -/
structure Closed (p : Program) (home : ScopeId) (id : FunctionId) (next : Nat) (decl : Tree.FunctionDecl)
    (f : Function) : Prop where
  opened : p.Opened home id f (decl.visibleParams next)
  origin : f.origin = .declared decl
  written : f.body.isSome = decl.body.isSome
  parameters : f.parameters = (List.range' next decl.params.length).map VariableId.mk
  plain : ∀ v ∈ f.parameters, p.Plain v
  introduced : introduced (Block.optionSteps f.body)
    = List.range' (next + decl.params.length) (Tree.Block.optionLocals decl.body).length
  size : next + (Tree.Item.function decl).binders.length ≤ p.vars.size
  meets : List.Forall₂ (p.scopes.Meets id f.scope) (p.stepsIdentifiers (Block.optionSteps f.body))
    ((Tree.Item.function decl).uses next)
  spans : (p.stepsSpans (Block.optionSteps f.body)).Sublist
    ((Tree.Block.optionContents decl.body).map Tree.Content.span)

theorem identifiers_function {p : Program} {id : FunctionId} {f : Function} (found : p.functions[id.index]? = some f) :
    p.identifiers (.function id) = p.stepsIdentifiers (Block.optionSteps f.body) := by
  rw [identifiers, found]
  rfl

theorem nodes_function {p : Program} {id : FunctionId} {f : Function} (found : p.functions[id.index]? = some f) :
    p.nodesOf (.function id) = p.stepsNodes (Block.optionSteps f.body) := by
  rw [nodesOf, found]
  rfl

section Kept
variable {p q : Program} {touched : ScopeKind → Prop} (keeps : p.Keeps touched q) {home : ScopeId} {id : FunctionId}
  {f : Function}
include keeps

theorem plain_keeps {v : VariableId} (plain : p.Plain v) : q.Plain v := by
  obtain ⟨w, found, none⟩ := plain
  exact ⟨w, keeps.vars _ _ found, none⟩

theorem opened_keeps (other : ¬touched (.function id)) {visible : Tree.Visible} (opened : p.Opened home id f visible) :
    q.Opened home id f visible := by
  obtain ⟨s, found, kind, rest⟩ := opened.scope
  constructor
  · exact keeps.functions id.index f other opened.found
  · exact ⟨s, keeps.scopes f.scope s (by rw [kind]; exact other) found, kind, rest⟩

variable {next : Nat} {decl : Tree.FunctionDecl} (other : ∀ kind, kind.Inside id → ¬touched kind)
  (closed : p.Closed home id next decl f)
include closed

omit keeps in
theorem closed_there : ∀ n ∈ introduced (Block.optionSteps f.body), n < p.vars.size := by
  intro n member
  have size := closed.size
  rw [closed.introduced, List.mem_range'_1] at member
  simp only [Tree.Item.binders, List.length_append, List.length_map] at size
  omega

theorem closed_nodes_keep : q.stepsNodes (Block.optionSteps f.body) = p.stepsNodes (Block.optionSteps f.body) :=
  steps_nodes_keep keeps (closed_there closed)

include other

theorem closed_keeps : q.Closed home id next decl f := by
  have grows : p.vars.size ≤ q.vars.size := by
    by_contra fewer
    have last : p.vars[q.vars.size]? = some _ := Array.getElem?_eq_getElem (by omega)
    have impossible := (Array.getElem?_eq_some_iff.mp (keeps.vars _ _ last)).1
    omega
  constructor
  · exact opened_keeps keeps (other _ rfl) closed.opened
  · exact closed.origin
  · exact closed.written
  · exact closed.parameters
  · intro v member
    exact plain_keeps keeps (closed.plain v member)
  · exact closed.introduced
  · exact Nat.le_trans closed.size grows
  · rw [steps_identifiers_eq, closed_nodes_keep keeps closed, ← steps_identifiers_eq]
    exact closed.meets.imp (fun i use ⟨name, within⟩ => ⟨name, within_keeps
      (fun id s inside found => keeps.scopes id s (other s.kind inside) found) within⟩)
  · rw [steps_spans_keep keeps (closed_there closed)]
    exact closed.spans

end Kept

end Program

namespace Construction
open Program

variable {p : Program} {home : ScopeId} {id : FunctionId} {f : Function}

theorem bind_param_yields (param : Tree.Param × Nat) {visible : Tree.Visible} (ordered : p.scopes.Ordered)
    (opened : p.Opened home id f visible) :
    Yields (bindParam id f.scope param) p (fun v q =>
      v = ⟨p.vars.size⟩ ∧ q.Plain v ∧ q.scopes.Ordered ∧ p.Keeps (· = .function id) q ∧ q.nodes = p.nodes ∧
        q.vars.toList.map Variable.binder = p.vars.toList.map Variable.binder ++ [.parameter param.1] ∧
        q.Opened home id f (visible ++ [(param.1.name.name, ⟨p.vars.size⟩)])) := by
  obtain ⟨s, found, kind, parent, closed, vars⟩ := opened.scope
  refine yields_step rfl (yields_step rfl (yields_pure ⟨rfl, ?_, ?_, ?_, rfl, ?_, ?_⟩))
  · exact ⟨_, Array.getElem?_push_size, rfl, _, _, _, rfl⟩
  · apply ordered_modify f.scope ordered
    intro s
    rfl
  · apply keeps_trans (keeps_push_variable _)
    apply keeps_modify_scope f.scope
    intro s' found'
    rw [found] at found'
    cases found'
    exact kind
  · simp [Variable.binder]
  · constructor
    · exact opened.found
    · refine ⟨{ s with vars := s.vars ++ [(param.1.name.name, ⟨p.vars.size⟩)] }, ?_, kind, parent, closed, ?_⟩
      · unfold ScopeTree.addVariable
        rw [get_modify, if_pos rfl, found]
        rfl
      · rw [← vars]

theorem zip_idx_position {α : Type} {xs : List α} {before after : List (α × Nat)} {entry : α × Nat}
    (whole : xs.zipIdx = before ++ entry :: after) : entry.2 = before.length := by
  have here : xs.zipIdx[before.length]? = some entry := by
    rw [whole]
    simp
  rw [List.getElem?_zipIdx] at here
  obtain ⟨x, _, same⟩ := Option.map_eq_some_iff.mp here
  rw [← same]
  simp

theorem bind_params_yield (decl : Tree.FunctionDecl) (ordered : p.scopes.Ordered) (opened : p.Opened home id f []) :
    Yields (decl.params.zipIdx.mapM (bindParam id f.scope)) p (fun vs q =>
      vs = (List.range' p.vars.size decl.params.length).map VariableId.mk ∧ (∀ v ∈ vs, q.Plain v) ∧
        q.scopes.Ordered ∧ p.Keeps (· = .function id) q ∧ q.nodes = p.nodes ∧
        q.vars.toList.map Variable.binder = p.vars.toList.map Variable.binder ++ decl.params.map .parameter ∧
        q.Opened home id f (decl.visibleParams p.vars.size)) := by
  -- the invariant after some of the parameters
  let J : List (Tree.Param × Nat) → List VariableId → Program → Prop := fun done vs q =>
    vs = done.map (fun entry => ⟨p.vars.size + entry.2⟩) ∧ (∀ v ∈ vs, q.Plain v) ∧ q.scopes.Ordered ∧
      p.Keeps (· = .function id) q ∧ q.nodes = p.nodes ∧
      q.vars.toList.map Variable.binder
        = p.vars.toList.map Variable.binder ++ done.map (fun entry => .parameter entry.1) ∧
      q.Opened home id f (done.map (fun entry => (entry.1.name.name, ⟨p.vars.size + entry.2⟩)))
  have start : J [] [] p := ⟨rfl, by simp, ordered, keeps_refl _ p, rfl, by simp, opened⟩
  refine yields_weaken (yields_map (J := J) decl.params.zipIdx start ?_) ?_
  · rintro done param rest vs q whole ⟨ids, plain, ordered', keeps, nodes, binders, opened'⟩
    refine yields_weaken (bind_param_yields param ordered' opened') ?_
    rintro v r ⟨new, plain', ordered'', further, nodes', binders', opened''⟩
    have size : q.vars.size = p.vars.size + param.2 := by
      have lengths := congrArg List.length binders
      rw [zip_idx_position whole]
      simpa using lengths
    rw [size] at new opened''
    refine ⟨?_, ?_, ordered'', keeps_trans keeps further, nodes'.trans nodes, ?_, ?_⟩
    · rw [ids, new, List.map_append]
      rfl
    · exact each_snoc (fun w earlier => plain_keeps further (plain w earlier)) plain'
    · rw [binders', binders, List.map_append, List.append_assoc]
      rfl
    · rw [List.map_append]
      exact opened''
  · rintro vs q ⟨ids, plain, ordered', keeps, nodes, binders, opened'⟩
    refine ⟨?_, plain, ordered', keeps, nodes, ?_, opened'⟩
    · have numbers := List.zipIdx_map_snd 0 decl.params
      have shifted := List.map_add_range' (a := p.vars.size) 0 decl.params.length 1
      rw [ids, ← Nat.add_zero p.vars.size, ← shifted, ← numbers, List.map_map, List.map_map]
      rfl
    · have params := List.zipIdx_map_fst 0 decl.params
      rw [binders]
      nth_rewrite 2 [← params]
      rw [List.map_map]
      rfl

theorem bind_option_block_written (parent : ScopeId) (b : Option Tree.Block) (p : Program) :
    Yields (bindOptionBlock parent b) p (fun bound _ => bound.isSome = b.isSome) := by
  cases b with
  | none => exact yields_pure rfl
  | some block =>
    refine yields_bind (P := fun _ _ => True) (fun _ _ _ => trivial) ?_
    intro bound q _
    exact yields_pure rfl

theorem bind_function_yields (decl : Tree.FunctionDecl) (ordered : p.scopes.Ordered) (opened : p.Opened home id f [])
    (origin : f.origin = .declared decl) :
    Yields (bindFunction id decl) p (fun _ q =>
      q.scopes.Ordered ∧ p.Keeps (· = .function id) q ∧
        q.vars.toList.map Variable.binder
          = p.vars.toList.map Variable.binder ++ (Tree.Item.function decl).binders ∧
        Numbered p.nodes q.nodes (q.nodesOf (.function id)) ∧
        q.functions.toList.map Function.origin = p.functions.toList.map Function.origin ∧
        ∃ g, q.Closed home id p.vars.size decl g) := by
  refine yields_step (a := p) (t := p) rfl ?_
  have known : p.functionAt id = .ok f := by
    unfold functionAt
    rw [opened.found]
  refine yields_step (a := f) (t := p) (by rw [known]; rfl) ?_
  refine yields_bind (bind_params_yield decl ordered opened) ?_
  rintro vs q ⟨ids, plain, ordered', keeps, nodes, binders, opened'⟩
  obtain ⟨s, found, kind, parent, closed, vars⟩ := opened'.scope
  have size : q.vars.size = p.vars.size + decl.params.length := by
    have lengths := congrArg List.length binders
    simpa using lengths
  have inside : s.kind.Inside id := by
    rw [kind]
    rfl
  have within : q.scopes.Within id f.scope f.scope (decl.visibleParams p.vars.size) := by
    rw [← vars]
    exact .own found inside closed
  refine yields_bind (yields_and (bind_option_block_yields f.scope decl.body ordered' within)
    (bind_option_block_written f.scope decl.body q)) ?_
  rintro body r ⟨binds, written⟩
  have further : q.Keeps (· = .function id) r := keeps_weaken (fun _ => False.elim) binds.keeps
  have stored : r.Keeps (· = .function id)
      { r with functions := r.functions.modify id.index (fun f => { f with parameters := vs, body }) } := by
    apply keeps_set_body
    rfl
  have whole := keeps_trans keeps (keeps_trans further stored)
  have here : (r.functions.modify id.index (fun f => { f with parameters := vs, body }))[id.index]?
      = some { f with parameters := vs, body } := by
    rw [Array.getElem?_modify, if_pos rfl, binds.keeps.functions id.index f (fun h => h) opened'.found]
    rfl
  have counted := binds_size binds
  refine yields_done rfl ⟨binds.ordered, whole, ?_, ?_, ?_, { f with parameters := vs, body }, ?_⟩
  · change r.vars.toList.map Variable.binder = _
    rw [binds.binders, binders, List.append_assoc]
    rfl
  · rw [nodes_function here, ← nodes]
    exact binds.nodes
  · apply List.ext_getElem?
    intro k
    rw [List.getElem?_map, List.getElem?_map, Array.getElem?_toList, Array.getElem?_toList]
    by_cases same : k = id.index
    · subst same
      rw [here, opened.found]
      rfl
    · have size : r.functions.size = p.functions.size :=
        (binds.keeps.outline (fun h => h)).functions.trans (keeps.outline (by simp)).functions
      cases found : p.functions[k]? with
      | some g =>
        have other : (⟨k⟩ : FunctionId) ≠ id := fun equal => same (congrArg FunctionId.index equal)
        rw [whole.functions k g (by simpa using other) found]
      | none =>
        have outside : p.functions.size ≤ k := Array.getElem?_eq_none_iff.mp found
        rw [Array.getElem?_eq_none_iff.mpr (by simpa [size] using outside)]
  · constructor
    · exact ⟨here, s, binds.keeps.scopes f.scope s (fun h => h) found, kind, parent, closed, vars⟩
    · exact origin
    · exact written
    · exact ids
    · intro v member
      exact plain_keeps (keeps_trans further stored) (plain v member)
    · rw [← size]
      exact binds.introduced
    · change _ ≤ r.vars.size
      rw [counted, size]
      simp [Tree.Item.binders, Nat.add_assoc]
    · have meets := binds.meets
      rw [size] at meets
      exact meets
    · exact binds.spans

end Construction

end SemanticAnalysis
