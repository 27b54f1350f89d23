import SemanticAnalysis.Proofs.Construction.Forming
import SemanticAnalysis.Proofs.Construction.Sealing
/-!
The graph of a constructed program. The scopes are a tree under the root, in which every function has its place right
below its module and everything in its body below that; every variable and every function is listed once; and all
identities that the program holds are ones that it gave out.
-/
namespace SemanticAnalysis
open SemanticAnalysis.Bound Construction ScopeTree

namespace Construction
open Program

variable {p : Program}

variable {sites : List Site} {steps : List Step}

theorem enclosed_append {boundary : ScopeId} {others : List Site} {more : List Step}
    (first : p.Enclosed boundary sites steps) (second : p.Enclosed boundary others more) :
    p.Enclosed boundary (sites ++ others) (steps ++ more) := by
  constructor
  · exact fun site member => (List.mem_append.mp member).elim (first.sites site) (second.sites site)
  · intro k member
    rw [introduced_append] at member
    exact (List.mem_append.mp member).elim (first.locals k) (second.locals k)

variable {scope : ScopeId}

theorem enclosed_at {boundary : ScopeId} (here : AllAt scope sites)
    (inner : p.scopes.Inner boundary scope) (nothing : introduced steps = []) : p.Enclosed boundary sites steps := by
  constructor
  · intro site member
    rw [here site member]
    exact inner
  · intro k member
    rw [nothing] at member
    cases member

/-- Some steps were bound inside of all that the scope is inside of. -/
structure Forms (p q : Program) (scope : ScopeId) (sites : List Site) (steps : List Step) : Prop where
  develops : p.Develops q
  enclosed : ∀ boundary, p.scopes.Inner boundary scope → q.Enclosed boundary sites steps

def Deepens (p q : Program) (scope next : ScopeId) : Prop :=
  ∀ boundary, p.scopes.Inner boundary scope → q.scopes.Inner boundary next

variable {q : Program}

theorem deepens_stay (bound : p.Develops q) (scope : ScopeId) : Deepens p q scope scope :=
  fun _ => inner_stays bound.grows.scopes

theorem forms_at (bound : p.Develops q)
    (here : AllAt scope sites) (nothing : introduced steps = []) : Forms p q scope sites steps :=
  ⟨bound, fun boundary inner => enclosed_at here (deepens_stay bound scope boundary inner) nothing⟩

theorem forms_append {r : Program} {next : ScopeId} {others : List Site} {more : List Step}
    (first : Forms p q scope sites steps) (deepens : Deepens p q scope next) (second : Forms q r next others more) :
    Forms p r scope (sites ++ others) (steps ++ more) :=
  ⟨develops_trans first.develops second.develops, fun boundary inner => enclosed_append
    (enclosed_extends second.develops.grows (first.enclosed boundary inner))
    (second.enclosed boundary (deepens boundary inner))⟩

theorem forms_last
    (forms : Forms p q scope sites steps) (span : Span) : Forms p q scope (sites ++ [⟨scope, span⟩]) steps := by
  have last : Forms q q scope [⟨scope, span⟩] [] :=
    forms_at (develops_refl forms.develops.formed) (all_at_last all_at_none span) rfl
  have all := forms_append forms (deepens_stay forms.develops scope) last
  rwa [List.append_nil] at all

theorem forms_introduced {v : Variable} {k : Nat} (bound : p.Develops q) (found : q.vars[k]? = some v)
    (span : Span) : Forms p q v.scope (Stmt.variable ⟨k⟩ ⟨v.scope, span⟩).sites
      (Stmt.variable ⟨k⟩ ⟨v.scope, span⟩).steps := by
  refine ⟨bound, fun boundary inner => ?_⟩
  have inner' := deepens_stay bound v.scope boundary inner
  constructor
  · intro site member
    rw [Stmt.sites, List.mem_singleton] at member
    rw [member]
    exact inner'
  · intro n member
    rw [Stmt.steps, introduced, List.filterMap_cons, List.filterMap_nil, Step.introduced?] at member
    rw [List.mem_singleton.mp member]
    exact ⟨v, found, inner'⟩

def Nested (q : Program) (n : Fragment) : Prop := ∀ m, n.Inside m → q.Surrounds m

theorem nested_extends {n : Fragment} (grows : p.Extends q) (nested : Nested p n) : Nested q n :=
  fun m inside => enclosed_extends grows (nested m inside)

theorem nested_parts {n : Fragment} (whole : p.Surrounds n) (parts : ∀ m ∈ n.parts, Nested p m) : Nested p n := by
  intro m inside
  rcases Relation.ReflTransGen.cases_head inside with rfl | ⟨part, listed, within⟩
  · exact whole
  · exact parts part listed m within

theorem nested_expr {e : Expr} (here : AllAt scope e.sites) : Nested p (.expr e) := by
  intro m inside
  obtain ⟨operand, rfl, around⟩ := Fragment.inside_expr here inside
  have at_ : operand.site.scope = scope := around _ operand.site_listed
  change p.Enclosed operand.site.scope operand.sites (operand.nodes.map .node)
  rw [at_]
  exact enclosed_at around .own (introduced_nodes _)

theorem nested_stmt {s : Stmt} (forms : Forms p q s.site.scope s.sites s.steps)
    (parts : ∀ m ∈ (Fragment.stmt s).parts, Nested q m) : Nested q (.stmt s) :=
  nested_parts (forms.enclosed _ .own) parts

theorem bind_expr_forms (formed : p.Formed) (scope : ScopeId) (e : Tree.Expr) :
    Yields (bindExpr scope e) p (fun b q => p.Develops q ∧ AllAt scope b.sites) := by
  refine yields_weaken (bind_expr_places scope e) ?_
  rintro b q ⟨same, places⟩
  exact ⟨develops_nodes formed (by rw [same]), places.sites⟩

theorem bind_option_forms (formed : p.Formed) (scope : ScopeId) (e : Option Tree.Expr) :
    Yields (bindOption scope e) p (fun b q => p.Develops q ∧ AllAt scope (Expr.optionSites b)) := by
  refine yields_weaken (bind_option_places scope e) ?_
  rintro b q ⟨same, places⟩
  exact ⟨develops_nodes formed (by rw [same]), places.sites⟩

theorem bind_variable_forms (scope : ScopeId) (decl : Tree.VariableDecl) (formed : p.Formed)
    (outer : ∃ m, p.scopes.Housed m scope) :
    Yields (bindStmt scope (.variable decl)) p (fun b q =>
      Forms p q scope b.1.sites b.1.steps ∧ Deepens p q scope b.2 ∧ Nested q (.stmt b.1)) := by
  rw [bindStmt]
  refine yields_bind (bind_option_forms formed scope decl.initializer) ?_
  rintro initializer q ⟨bound, here⟩
  obtain ⟨m, housed⟩ := outer
  have housed' := housed_stays bound.grows.scopes housed
  obtain ⟨s, there, _⟩ := housed_home housed'
  let v : Variable := { id := ⟨q.vars.size⟩, origin := .declared decl, scope, initializer }
  have layered : q.Develops { q with scopes := (q.scopes.derive scope .binding).2 } :=
    develops_derive bound.formed housed' (by simp) trivial
  have layer : (q.scopes.derive scope .binding).2.get? ⟨q.scopes.size⟩ = some _ := get_push_new _
  have listed := develops_variable layered.formed (v := v) rfl
    (stays_there layered.grows.scopes (get_some_index there)) here layer
  have layering := develops_trans bound layered
  have forms := forms_introduced (develops_trans layering listed) (v := v) Array.getElem?_push_size decl.span
  refine yields_step rfl (yields_step rfl (yields_step rfl (yields_pure ⟨forms, fun boundary inner => ?_, ?_⟩)))
  · apply inner_stays listed.grows.scopes
    exact .step layer (.inr rfl) rfl (deepens_stay layering scope boundary inner)
  · refine nested_stmt forms (fun m listed => ?_)
    cases listed

mutual

theorem bind_stmt_forms (scope : ScopeId) (s : Tree.Stmt) {p : Program} (formed : p.Formed)
    (outer : ∃ m, p.scopes.Housed m scope) :
    Yields (bindStmt scope s) p (fun b q =>
      Forms p q scope b.1.sites b.1.steps ∧ Deepens p q scope b.2 ∧ Nested q (.stmt b.1)) :=
  match s with
  | .expr value span => by
    rw [bindStmt]
    refine yields_bind (bind_expr_forms formed scope value) (fun value q ⟨bound, here⟩ => yields_pure ?_)
    have forms : Forms p q scope (Stmt.expr value ⟨scope, span⟩).sites (Stmt.expr value ⟨scope, span⟩).steps := by
      rw [Stmt.sites, Stmt.steps]
      exact forms_at bound (all_at_last here span) (introduced_nodes _)
    refine ⟨forms, deepens_stay bound scope, nested_stmt forms (fun m listed => ?_)⟩
    rw [List.mem_singleton.mp listed]
    exact nested_expr here
  | .variable decl => bind_variable_forms scope decl formed outer
  | .assign target value span => by
    rw [bindStmt]
    refine yields_bind (bind_expr_forms formed scope target) (fun target q ⟨bound, first⟩ => ?_)
    refine yields_bind (bind_expr_forms bound.formed scope value) (fun value r ⟨bound', second⟩ => yields_pure ?_)
    have whole := develops_trans bound bound'
    have forms : Forms p r scope (Stmt.assign target value ⟨scope, span⟩).sites
        (Stmt.assign target value ⟨scope, span⟩).steps := by
      rw [Stmt.sites, Stmt.steps]
      exact forms_at whole (all_at_last (all_at_append first second) span) rfl
    refine ⟨forms, deepens_stay whole scope, nested_stmt forms (fun m listed => ?_)⟩
    rcases List.mem_cons.mp listed with rfl | last
    · exact nested_expr first
    · rw [List.mem_singleton.mp last]
      exact nested_expr second
  | .ret value span => by
    rw [bindStmt]
    refine yields_bind (bind_option_forms formed scope value) (fun value q ⟨bound, here⟩ => yields_pure ?_)
    have forms : Forms p q scope (Stmt.ret value ⟨scope, span⟩).sites (Stmt.ret value ⟨scope, span⟩).steps := by
      rw [Stmt.sites, Stmt.steps]
      exact forms_at bound (all_at_last here span) (introduced_nodes _)
    refine ⟨forms, deepens_stay bound scope, nested_stmt forms (fun m listed => ?_)⟩
    obtain ⟨e, given, rfl⟩ := List.mem_map.mp listed
    rw [Option.mem_toList] at given
    subst given
    exact nested_expr here
  | .branch condition thenBranch elseBranch span => by
    rw [bindStmt]
    obtain ⟨m, housed⟩ := outer
    refine yields_bind (bind_expr_forms formed scope condition) (fun condition q ⟨bound, here⟩ => ?_)
    have housed₁ := housed_stays bound.grows.scopes housed
    refine yields_bind (bind_block_forms scope thenBranch bound.formed ⟨m, housed₁⟩)
      (fun thenBranch r ⟨second, ofThen⟩ => ?_)
    have housed₂ := housed_stays second.develops.grows.scopes housed₁
    refine yields_bind (bind_option_block_forms scope elseBranch second.develops.formed ⟨m, housed₂⟩)
      (fun elseBranch u ⟨third, ofElse⟩ => yields_pure ?_)
    have first : Forms p q scope condition.sites (condition.nodes.map .node) :=
      forms_at bound here (introduced_nodes _)
    have halfway := forms_append first (deepens_stay bound scope) second
    have whole := forms_append halfway (deepens_stay halfway.develops scope) third
    have forms : Forms p u scope (Stmt.branch condition thenBranch elseBranch ⟨scope, span⟩).sites
        (Stmt.branch condition thenBranch elseBranch ⟨scope, span⟩).steps := by
      rw [Stmt.sites, Stmt.steps]
      exact forms_last whole span
    refine ⟨forms, deepens_stay whole.develops scope, nested_stmt forms (fun m listed => ?_)⟩
    rcases List.mem_append.mp listed with first | last
    · rcases List.mem_cons.mp first with rfl | block
      · exact nested_expr here
      · rw [List.mem_singleton.mp block]
        exact nested_extends third.develops.grows ofThen
    · obtain ⟨b, given, rfl⟩ := List.mem_map.mp last
      exact ofElse b (Option.mem_toList.mp given)
  | .block body => by
    rw [bindStmt]
    refine yields_bind (bind_block_forms scope body formed outer) (fun body q ⟨forms, nested⟩ => yields_pure ?_)
    refine ⟨?_, deepens_stay forms.develops scope, nested_parts ?_ (fun m listed => ?_)⟩
    · rw [Stmt.sites, Stmt.steps]
      exact forms
    · have whole := nested _ .refl
      unfold Surrounds at whole ⊢
      simpa only [Fragment.site, Fragment.sites, Fragment.steps, Stmt.site, Stmt.sites, Stmt.steps] using whole
    · rw [List.mem_singleton.mp listed]
      exact nested

theorem bind_block_forms (parent : ScopeId) (b : Tree.Block) {p : Program} (formed : p.Formed)
    (outer : ∃ m, p.scopes.Housed m parent) :
    Yields (bindBlock parent b) p (fun bound q =>
      Forms p q parent bound.sites bound.steps ∧ Nested q (.block bound)) :=
  match b with
  | .mk stmts span => by
    rw [bindBlock]
    obtain ⟨m, housed⟩ := outer
    have opened : p.Develops { p with scopes := (p.scopes.derive parent .block).2 } :=
      develops_derive formed housed (by simp) trivial
    have new : (p.scopes.derive parent .block).2.get? ⟨p.scopes.size⟩ = some _ := get_push_new _
    have deepens : Deepens p { p with scopes := (p.scopes.derive parent .block).2 } parent ⟨p.scopes.size⟩ :=
      fun boundary inner => .step new (.inl rfl) rfl (deepens_stay opened parent boundary inner)
    refine yields_step rfl ?_
    refine yields_bind (bind_stmts_form ⟨p.scopes.size⟩ stmts opened.formed
      (framed_housed opened.formed.framed new (by simp) (by simp))) ?_
    rintro bound q ⟨forms, nested⟩
    have inside := forms_last forms span
    refine yields_pure ⟨?_, nested_parts ?_ (fun m listed => ?_)⟩
    · rw [Block.sites, Block.steps]
      exact forms_append (forms_at opened all_at_none rfl : Forms p _ parent [] []) deepens inside
    · have whole := inside.enclosed _ .own
      unfold Surrounds
      simpa only [Fragment.site, Fragment.sites, Fragment.steps, Block.site, Block.sites, Block.steps] using whole
    · obtain ⟨s, among, rfl⟩ := List.mem_map.mp listed
      exact nested s among

theorem bind_option_block_forms (parent : ScopeId) (b : Option Tree.Block) {p : Program} (formed : p.Formed)
    (outer : ∃ m, p.scopes.Housed m parent) :
    Yields (bindOptionBlock parent b) p (fun bound q =>
      Forms p q parent (Block.optionSites bound) (Block.optionSteps bound) ∧
        ∀ b, bound = some b → Nested q (.block b)) :=
  match b with
  | none => by
    rw [bindOptionBlock]
    refine yields_pure ⟨?_, fun b none => by cases none⟩
    rw [Block.optionSites, Block.optionSteps]
    exact forms_at (develops_refl formed) all_at_none rfl
  | some block => by
    rw [bindOptionBlock]
    refine yields_bind (bind_block_forms parent block formed outer) (fun bound q ⟨forms, nested⟩ => yields_pure ?_)
    refine ⟨?_, fun b same => by cases same; exact nested⟩
    rw [Block.optionSites, Block.optionSteps]
    exact forms

theorem bind_stmts_form (scope : ScopeId) (ss : List Tree.Stmt) {p : Program} (formed : p.Formed)
    (outer : ∃ m, p.scopes.Housed m scope) :
    Yields (bindStmts scope ss) p (fun bound q =>
      Forms p q scope (Stmt.allSites bound) (Stmt.allSteps bound) ∧ ∀ s ∈ bound, Nested q (.stmt s)) :=
  match ss with
  | [] => by
    rw [bindStmts]
    refine yields_pure ⟨?_, fun s listed => by cases listed⟩
    rw [Stmt.allSites, Stmt.allSteps]
    exact forms_at (develops_refl formed) all_at_none rfl
  | s :: rest => by
    rw [bindStmts]
    refine yields_bind (bind_stmt_forms scope s formed outer) ?_
    rintro ⟨s, next⟩ q ⟨first, deepens, nested⟩
    have housed : ∃ m, q.scopes.Housed m next := by
      obtain ⟨m, housed⟩ := outer
      cases deepens scope .own with
      | own => exact ⟨m, housed_stays first.develops.grows.scopes housed⟩
      | step found kind =>
        rcases kind with block | binding
        · exact framed_housed first.develops.formed.framed found (by simp [block]) (by simp [block])
        · exact framed_housed first.develops.formed.framed found (by simp [binding]) (by simp [binding])
    refine yields_bind (bind_stmts_form next rest first.develops.formed housed) ?_
    rintro rest r ⟨others, nested'⟩
    refine yields_pure ⟨?_, fun b listed => ?_⟩
    · rw [Stmt.allSites, Stmt.allSteps]
      exact forms_append first deepens others
    · rcases List.mem_cons.mp listed with rfl | later
      · exact nested_extends others.develops.grows nested
      · exact nested' b later

end

theorem bind_param_forms (formed : p.Formed) (id : FunctionId) {s : Scope}
    (found : p.scopes.get? scope = some s) (param : Tree.Param × Nat) :
    Yields (bindParam id scope param) p (fun v q => p.Develops q ∧ q.HasVariable v) := by
  let v : Variable := { id := ⟨p.vars.size⟩, origin := .parameter id param.2 param.1, scope, initializer := none }
  have listed := develops_variable formed (v := v) rfl (get_some_index found) all_at_none found
  refine yields_step rfl (yields_step rfl (yields_pure ⟨listed, ?_⟩))
  change p.vars.size < (p.vars.push v).size
  simp

theorem bind_function_forms (formed : p.Formed) (id : FunctionId) (decl : Tree.FunctionDecl) :
    Yields (bindFunction id decl) p (fun _ q => p.Develops q) := by
  refine yields_step (a := p) (t := p) rfl ?_
  cases found : p.functions[id.index]? with
  | none =>
    have missing : p.functionAt id = .error (.danglingId "function" id.index) := by
      unfold functionAt
      rw [found]
    intro _ q ran
    rw [missing] at ran
    cases ran
  | some f =>
    have known : p.functionAt id = .ok f := by
      unfold functionAt
      rw [found]
    refine yields_step (a := f) (t := p) (by rw [known]; rfl) ?_
    obtain ⟨s, there, kind, up⟩ := (formed.functions _ f found).scope
    let J : List (Tree.Param × Nat) → List VariableId → Program → Prop := fun _ vs q =>
      p.Develops q ∧ ∀ v ∈ vs, q.HasVariable v
    refine yields_bind (yields_map (J := J) decl.params.zipIdx ⟨develops_refl formed, by simp⟩ ?_) ?_
    · rintro done param rest vs q _ ⟨bound, known⟩
      obtain ⟨r, there', _⟩ := bound.grows.scopes _ s there
      refine yields_weaken (bind_param_forms bound.formed id there' param) ?_
      rintro v r ⟨further, new⟩
      refine ⟨develops_trans bound further, ?_⟩
      exact each_snoc (fun w earlier => has_variable_extends further.grows (known w earlier)) new
    · rintro vs q ⟨bound, parameters⟩
      obtain ⟨r, there', kind', _⟩ := bound.grows.scopes _ s there
      have housed := framed_housed bound.formed.framed there' (by simp [kind', kind]) (by simp [kind', kind])
      refine yields_bind (bind_option_block_forms f.scope decl.body bound.formed housed) ?_
      rintro body u ⟨⟨further, inside⟩, nested⟩
      have enclosed := inside f.scope .own
      obtain ⟨g, found', _, scope⟩ := (extends_trans bound.grows further.grows).functions _ f found
      rw [← scope] at enclosed
      have stored := develops_body further.formed found'
        (fun v member => has_variable_extends further.grows (parameters v member)) enclosed nested
      exact yields_done rfl (develops_trans bound (develops_trans further stored))

theorem bind_declared_forms (formed : p.Formed) (d : Declared) : Yields (bindDeclared d) p (fun _ q => p.Develops q) :=
  match d with
  | .function id decl => bind_function_forms formed id decl
  | .variable _ => yields_pure (develops_refl formed)
  | .struct .. => yields_pure (develops_refl formed)

def AtHome (q : Program) (home : ScopeId) (d : Declared) : Prop :=
  ∀ g, d.declaration = .function g → ∃ f, q.functions[g.index]? = some f ∧ f.home = home

variable {home : ScopeId}

theorem at_home_extends {d : Declared} (grows : p.Extends q) (there : AtHome p home d) :
    AtHome q home d := by
  intro g same
  obtain ⟨f, found, home'⟩ := there g same
  obtain ⟨h, found', home'', _⟩ := grows.functions _ f found
  exact ⟨h, found', home''.trans home'⟩

theorem new_function_forms (formed : p.Formed) (module : p.scopes.IsModule home)
    {name : String} {origin : Function.Origin}
    (named : ∀ id home scope, ({ id, origin, home, scope } : Function).name = name) :
    Yields (newFunction home name origin) p (fun id q =>
      p.Develops q ∧ ∃ f, q.functions[id.index]? = some f ∧ f.home = home) := by
  have made := develops_function formed module origin
  dsimp only at made
  rw [named] at made
  exact yields_done rfl ⟨made, _, Array.getElem?_push_size, rfl⟩

theorem declare_struct_forms (formed : p.Formed) (package : List String)
    (module : p.scopes.IsModule home) (decl : Tree.StructDecl) :
    Yields (declareStruct package home decl) p (fun d q => p.Develops q ∧ AtHome q home d) := by
  refine yields_step (a := p) (t := p) rfl ?_
  let type := (p.types.declare ⟨decl.name.name, package⟩).1
  have listed : p.Develops { p with scopes := p.scopes.addType home decl.name.name type } :=
    develops_modify formed module (fun _ => ⟨rfl, rfl, rfl⟩) (fun _ _ member => .inl member) (fun _ => ⟨rfl, rfl⟩)
  let named : Program := { p with
    types := (p.types.declare ⟨decl.name.name, package⟩).2
    scopes := p.scopes.addType home decl.name.name type }
  have typed : p.Develops named := develops_trans listed (develops_nodes listed.formed rfl)
  refine yields_step (a := type) (t := named) rfl (yields_step rfl ?_)
  refine yields_bind (bind_members_yield ⟨named.scopes.size⟩ decl.members) ?_
  rintro members r ⟨same, places⟩
  let s : Struct := { id := ⟨p.structs.size⟩, decl, type, scope := ⟨named.scopes.size⟩, members }
  refine yields_step rfl (yields_pure ⟨develops_trans typed ?_, by rintro g ⟨⟩⟩)
  rw [same]
  exact develops_struct typed.formed (is_module_stays typed.grows.scopes module) (s := s) rfl rfl
    places.sites

theorem declare_item_forms (formed : p.Formed) (package : List String)
    (module : p.scopes.IsModule home) (item : Tree.Item) :
    Yields (declareItem package home item) p (fun d q => p.Develops q ∧ AtHome q home d) :=
  match item with
  | .function decl => by
    refine yields_bind (new_function_forms formed module (fun _ _ _ => rfl)) ?_
    rintro id q ⟨made, f, found, here⟩
    refine yields_pure ⟨made, ?_⟩
    rintro g ⟨⟩
    exact ⟨f, found, here⟩
  | .variable decl => by
    refine yields_bind (bind_option_forms formed home decl.initializer) ?_
    rintro initializer q ⟨bound, here⟩
    obtain ⟨s, found, _⟩ := is_module_stays bound.grows.scopes module
    let v : Variable := { id := ⟨q.vars.size⟩, origin := .declared decl, scope := home, initializer }
    have listed := develops_variable bound.formed (v := v) rfl (get_some_index found) here found
    exact yields_step rfl (yields_step rfl (yields_pure ⟨develops_trans bound listed, by rintro g ⟨⟩⟩))
  | .struct decl => declare_struct_forms formed package module decl

theorem develops_each {α β : Type} {g : α → Construction β} (formed : p.Formed) (xs : List α)
    (each : ∀ x ∈ xs, ∀ q, p.Develops q → Yields (g x) q (fun _ r => q.Develops r)) :
    Yields (xs.mapM g) p (fun _ q => p.Develops q) := by
  refine yields_map (J := fun _ _ q => p.Develops q) xs (develops_refl formed) ?_
  intro done x rest results q whole so_far
  have member : x ∈ xs := by
    rw [whole]
    simp
  exact yields_weaken (each x member q so_far) (fun _ _ further => develops_trans so_far further)

theorem declare_module_forms (formed : p.Formed) (base : ScopeTree.initial.Stays p.scopes) (m : Tree.Module) :
    Yields (declareModule m) p (fun r q => p.Develops q ∧ q.scopes.IsModule r.1) := by
  generalize parent_eq : (if p.options.implicitBuiltinImport then ScopeId.builtin else ScopeId.program) = parent
  have there : parent.index < p.scopes.size := by
    apply stays_there base
    rw [← parent_eq]
    split <;> decide
  have opened := develops_module_scope formed m.name there
  obtain ⟨_, module⟩ := framed_module_scope formed.framed m.name there
  refine yields_step (a := (p.scopes.moduleScope m.name parent).1)
    (t := { p with scopes := (p.scopes.moduleScope m.name parent).2 }) (by rw [← parent_eq]; rfl) ?_
  generalize (p.scopes.moduleScope m.name parent).1 = scope at module ⊢
  generalize opened_eq : ({ p with scopes := (p.scopes.moduleScope m.name parent).2 } : Program) = q at opened ⊢
  have module' : q.scopes.IsModule scope := by
    rw [← opened_eq]
    exact module
  let J : List Tree.Item → List Declared → Program → Prop := fun _ ds r => q.Develops r ∧ ∀ d ∈ ds, AtHome r scope d
  refine yields_bind (yields_map (J := J) m.items ⟨develops_refl opened.formed, by simp⟩ ?_) ?_
  · rintro done item rest ds r _ ⟨so_far, homes⟩
    refine yields_weaken (declare_item_forms so_far.formed m.package
      (is_module_stays so_far.grows.scopes module') item) ?_
    rintro d u ⟨further, here⟩
    refine ⟨develops_trans so_far further, ?_⟩
    exact each_snoc (fun e earlier => at_home_extends further.grows (homes e earlier)) here
  · rintro ds r ⟨so_far, homes⟩
    have still := is_module_stays so_far.grows.scopes module'
    have gathers : r.Gathers ⟨m.name, scope, ds.map Declared.declaration⟩ := by
      refine ⟨still, ?_⟩
      intro g member
      obtain ⟨d, listed, same⟩ := List.mem_map.mp member
      exact homes d listed g same
    have listed := develops_list_module so_far.formed gathers
    exact yields_step rfl (yields_pure ⟨develops_trans opened (develops_trans so_far listed), still⟩)

theorem resolve_import_forms (formed : p.Formed) (home : p.scopes.IsModule scope) (i : Tree.Import) :
    Yields (resolveImport scope i) p (fun _ q => p.Develops q) := by
  refine yields_import scope i (fun _ => develops_refl formed) ?_
  intro imported known
  apply develops_modify formed home
  · intro s
    split <;> exact ⟨rfl, rfl, rfl⟩
  · intro s m member
    split at member
    · exact .inl member
    · rcases List.mem_append.mp member with old | last
      · exact .inl old
      · rw [List.mem_singleton.mp last]
        exact .inr (formed.framed.named _ (lookup_member known))
  · intro s
    split <;> exact ⟨rfl, rfl⟩

theorem formed_initial (options : Options) : ({ options } : Program).Formed := by
  have silent : ∀ id s, ScopeTree.initial.get? id = some s → s.varEntries = [] ∧ s.functionEntries = [] ∧
      ∀ p : Program, p.HasKind s.kind := by
    rintro ⟨index⟩ s found
    have there : index < 3 := get_some_index found
    obtain rfl | rfl | rfl : index = 0 ∨ index = 1 ∨ index = 2 := by omega
    all_goals
      cases found
      exact ⟨rfl, rfl, fun _ => trivial⟩
  refine ⟨framed_initial, ?_, by simp, by simp, by simp, by simp, ⟨?_, by simp⟩, ⟨?_, by simp⟩⟩
  · exact fun id s found => (silent id s found).2.2 _
  · intro id s found
    rw [(silent id s found).1]
    simp
  · intro id s found
    rw [(silent id s found).2.1]
    simp

theorem declare_builtins_forms (formed : p.Formed) (module : p.scopes.IsModule .builtin) :
    Yields declareBuiltins p (fun _ q => p.Develops q) := by
  have types : ∀ (entries : List (TypeDef × Nat)) (q : Program), q.Formed → q.scopes.IsModule .builtin →
      q.Develops { q with
        scopes := entries.foldl (fun scopes entry => scopes.addType .builtin entry.1.name.name ⟨entry.2⟩) q.scopes } := by
    intro entries
    induction entries with
    | nil => exact fun q formed _ => develops_refl formed
    | cons entry rest ih =>
      intro q formed module
      have first : q.Develops { q with scopes := q.scopes.addType .builtin entry.1.name.name ⟨entry.2⟩ } :=
        develops_modify formed module (fun _ => ⟨rfl, rfl, rfl⟩) (fun _ _ member => .inl member) (fun _ => ⟨rfl, rfl⟩)
      exact develops_trans first (ih _ first.formed (is_module_stays first.grows.scopes module))
  have named := types p.types.defs.toList.zipIdx p formed module
  refine yields_step rfl ?_
  refine yields_for (J := fun _ q => p.Develops q) BuiltinFunction.all named ?_
  intro done b rest q _ so_far
  have module' := is_module_stays so_far.grows.scopes module
  refine yields_bind (new_function_forms so_far.formed module' (fun _ _ _ => rfl)) ?_
  rintro id r ⟨further, _⟩
  exact yields_pure (develops_trans so_far further)

theorem build_forms (options : Options) (modules : List Tree.Module) :
    Yields (build modules) ({ options } : Program) (fun _ q => q.Formed) := by
  have start := formed_initial options
  refine yields_bind (declare_builtins_forms start ⟨_, rfl, rfl⟩) (fun _ p first => ?_)
  let J : List Tree.Module → List (ScopeId × List Declared) → Program → Prop := fun _ rs q =>
    p.Develops q ∧ ∀ r ∈ rs, q.scopes.IsModule r.1
  refine yields_bind (yields_map (J := J) modules ⟨develops_refl first.formed, by simp⟩ ?_) ?_
  · rintro done m rest rs q _ ⟨so_far, homes⟩
    have base := stays_trans first.grows.scopes so_far.grows.scopes
    refine yields_weaken (declare_module_forms so_far.formed base m) ?_
    rintro r u ⟨further, here⟩
    refine ⟨develops_trans so_far further, ?_⟩
    exact each_snoc (fun r' earlier => is_module_stays further.grows.scopes (homes r' earlier)) here
  rintro declared q ⟨second, homes⟩
  refine yields_bind (develops_each second.formed (modules.zip declared) ?_) (fun unresolved r third => ?_)
  · intro entry member u so_far
    have home := is_module_stays so_far.grows.scopes (homes _ (List.of_mem_zip member).2)
    refine develops_each so_far.formed _ ?_
    exact fun i _ w further =>
      resolve_import_forms further.formed (is_module_stays further.grows.scopes home) i
  refine yields_bind (seal_items_yield (declared.flatMap Prod.snd)) (fun rejected u same => ?_)
  have fourth : r.Develops u := develops_nodes third.formed (by rw [same])
  let K : List Declared → Program → Prop := fun _ w => w.Formed
  refine yields_bind (yields_for (J := K) (declared.flatMap Prod.snd) fourth.formed ?_)
    (fun _ w formed => yields_pure formed)
  intro done d rest w _ formed
  exact yields_weaken (bind_declared_forms formed d) (fun _ _ further => further.formed)

end Construction

theorem construct_formed {options : Options} {modules : List Tree.Module} {p : Program} {findings : List Diagnostic}
    (built : Program.construct options modules = .ok (p, findings)) : p.Formed :=
  construct_yields (build_forms options modules) built

section Fragments
variable {p : Program} (formed : p.Formed) {n : Fragment}
include formed

theorem contains_nested (inside : p.Contains n) : Nested p n := by
  induction inside with
  | body found written => exact (formed.functions _ _ found).nested _ written
  | initializer found written =>
    have here := (formed.vars _ _ found).initializer
    rw [written] at here
    exact nested_expr here
  | default found listed =>
    have here := (formed.structs _ _ found).defaults
    exact nested_expr (fun site member => here site (Expr.all_sites_of_mem listed member))
  | part _ listed ih => exact fun m inside => ih m (.head listed inside)

theorem surrounds_identifiers (surrounds : p.Surrounds n) {i : Identifier} (used : i ∈ p.stepsIdentifiers n.steps) :
    p.scopes.Inner n.site.scope i.site.scope := by
  obtain ⟨s, member, here⟩ := List.mem_flatMap.mp used
  cases s with
  | introduce id =>
    obtain ⟨v, found, inner⟩ := surrounds.locals _ (introduce_mem.mp member)
    rw [Program.stepIdentifiers, found, Option.map_some, Option.getD_some] at here
    rw [(formed.vars _ v found).initializer _ (Expr.option_identifier_sites _ i here)]
    exact inner
  | _ => exact surrounds.sites _ (Fragment.step_sites member here)

end Fragments

end SemanticAnalysis
