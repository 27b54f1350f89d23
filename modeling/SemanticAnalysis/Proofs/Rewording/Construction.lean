import SemanticAnalysis.Proofs.Construction.Logic
import SemanticAnalysis.Proofs.Rewording.Basic
/-!
Construction of a text in other words. Construction of the one text and of the other go side by side: they fail alike,
and what they build is the same but for the words. The scopes of the two programs need not be equal; it is enough that
they stay related while they grow.
-/
namespace SemanticAnalysis
open SemanticAnalysis.Bound

inductive Alike {ε α β : Type} (R : α → β → Prop) : Except ε α → Except ε β → Prop where
  | ok {a : α} {b : β} (related : R a b) : Alike R (.ok a) (.ok b)
  | error (e : ε) : Alike R (.error e) (.error e)

theorem alike_bind {ε α β γ δ : Type} {R : α → β → Prop} {Q : γ → δ → Prop} {x : Except ε α} {y : Except ε β}
    {f : α → Except ε γ} {g : β → Except ε δ} (first : Alike R x y) (second : ∀ a b, R a b → Alike Q (f a) (g b)) :
    Alike Q (x >>= f) (y >>= g) := by
  cases first with
  | ok related => exact second _ _ related
  | error e => exact .error e

theorem alike_imp {ε α β : Type} {R Q : α → β → Prop} {x : Except ε α} {y : Except ε β} (alike : Alike R x y)
    (weaker : ∀ a b, x = .ok a → y = .ok b → R a b → Q a b) : Alike Q x y := by
  cases alike with
  | ok related => exact .ok (weaker _ _ rfl rfl related)
  | error e => exact .error e

theorem alike_meet {ε α β γ : Type} {R : α → β → Prop} {Q : γ → β → Prop} {x : Except ε α} {y : Except ε β}
    {z : Except ε γ} (first : Alike R x y) (second : Alike Q z y) : Alike (fun a c => ∃ b, R a b ∧ Q c b) x z := by
  cases first with
  | ok related =>
    cases second with
    | ok related' => exact .ok ⟨_, related, related'⟩
  | error e =>
    cases second with
    | error _ => exact .error e

namespace Construction
variable {σ : Type} {α β γ δ : Type}

/-- Two pieces of work go side by side: from related states they fail alike, or end in related states, the second with
what `k` makes of the result of the first. -/
def Follows (K : σ → σ → Prop) (k : α → β) (x : StateT σ (Except InternalError) α)
    (y : StateT σ (Except InternalError) β) : Prop :=
  ∀ s t, K s t → Alike (fun a b => b.1 = k a.1 ∧ K a.2 b.2) (x s) (y t)

section Rules
variable {K : σ → σ → Prop} {k : α → β} {l : γ → δ} {x : StateT σ (Except InternalError) α}
  {y : StateT σ (Except InternalError) β} {f : α → StateT σ (Except InternalError) γ}
  {g : β → StateT σ (Except InternalError) δ}

theorem follows_pure (a : α) : Follows K k (pure a) (pure (k a)) := fun _ _ related => .ok ⟨rfl, related⟩

theorem alike_then {R : α × σ → β × σ → Prop} {Q : γ × σ → δ × σ → Prop} {s t : σ} (first : Alike R (x s) (y t))
    (second : ∀ a s' b t', R (a, s') (b, t') → Alike Q (f a s') (g b t')) : Alike Q ((x >>= f) s) ((y >>= g) t) := by
  exact alike_bind first fun a b related => second a.1 a.2 b.1 b.2 related

theorem follows_bind (first : Follows K k x y) (second : ∀ a, Follows K l (f a) (g (k a))) :
    Follows K l (x >>= f) (y >>= g) := by
  intro s t related
  refine alike_then (first s t related) ?_
  rintro a s' _ t' ⟨rfl, related'⟩
  exact second a s' t' related'

theorem follows_modify_get {h : σ → α × σ} {h' : σ → β × σ}
    (step : ∀ s t, K s t → (h' t).1 = k (h s).1 ∧ K (h s).2 (h' t).2) : Follows K k (modifyGet h) (modifyGet h') :=
  fun s t related => .ok (step s t related)

theorem follows_modify {h h' : σ → σ} (step : ∀ s t, K s t → K (h s) (h' t)) : Follows K id (modify h) (modify h') :=
  fun s t related => .ok ⟨rfl, step s t related⟩

theorem follows_each {ι κ : Type} {f : ι → StateT σ (Except InternalError) α}
    {g : κ → StateT σ (Except InternalError) β} {xs : List ι} {ys : List κ}
    (pairs : List.Forall₂ (fun x y => Follows K k (f x) (g y)) xs ys) :
    Follows K (List.map k) (xs.mapM f) (ys.mapM g) := by
  induction pairs with
  | nil => exact follows_pure []
  | cons step _ ih =>
    rw [List.mapM_cons, List.mapM_cons]
    refine follows_bind step (fun a => ?_)
    exact follows_bind ih (fun rest => follows_pure (a :: rest))

theorem follows_map {ι κ : Type} {f : ι → StateT σ (Except InternalError) α}
    {g : κ → StateT σ (Except InternalError) β} (h : ι → κ) (xs : List ι) (step : ∀ x, Follows K k (f x) (g (h x))) :
    Follows K (List.map k) (xs.mapM f) ((xs.map h).mapM g) :=
  follows_each (List.forall₂_map_right_iff.2 (List.forall₂_same.2 fun x _ => step x))

theorem follows_same {ι : Type} {f : ι → StateT σ (Except InternalError) α} (xs : List ι)
    (step : ∀ x, Follows K id (f x) (f x)) : Follows K id (xs.mapM f) (xs.mapM f) := by
  have each := follows_each (List.forall₂_same.2 fun x (_ : x ∈ xs) => step x)
  rwa [List.map_id_fun] at each

theorem follows_for {ι κ : Type} {f : ι → StateT σ (Except InternalError) PUnit}
    {g : κ → StateT σ (Except InternalError) PUnit} (h : ι → κ) (xs : List ι)
    (step : ∀ x, Follows K id (f x) (g (h x))) : Follows K id (xs.forM f) ((xs.map h).forM g) := by
  induction xs with
  | nil => exact follows_pure PUnit.unit
  | cons x xs ih =>
    exact follows_bind (step x) fun _ => ih

end Rules

def declare (modules : List Tree.Module) : Construction (List (ScopeId × List Declared)) := do
  declareBuiltins
  modules.mapM declareModule

def link (entries : List (Tree.Module × ScopeId × List Declared)) : Construction (List (List (List Diagnostic))) :=
  entries.mapM (fun entry => entry.1.imports.mapM (resolveImport entry.2.1))

def settle (items : List Declared) (unresolved : List (List (List Diagnostic))) : Construction (List Diagnostic) := do
  let rejected ← items.mapM sealDeclared
  items.forM bindDeclared
  pure (unresolved.flatten.flatten ++ rejected.flatten)

theorem build_stages (modules : List Tree.Module) :
    build modules = (do
      let declared ← declare modules
      let unresolved ← link (modules.zip declared)
      settle (declared.flatMap Prod.snd) unresolved) := by
  unfold build declare link settle
  simp only [bind_assoc]

end Construction

/-- How scopes may be related while a program is built: the scopes of modules with certain names may hang below
different scopes, and everything else is added on both sides. -/
structure ScopeTree.Congruent (S : ScopeTree → ScopeTree → Prop) (named : String → Prop) (above above' : ScopeId) :
    Prop where
  derive : ∀ t u, S t u → ∀ parent kind, kind ≠ .module →
    (u.derive parent kind).1 = (t.derive parent kind).1 ∧ S (t.derive parent kind).2 (u.derive parent kind).2
  moduleScope : ∀ t u, S t u → ∀ name, named name →
    (u.moduleScope name above').1 = (t.moduleScope name above).1 ∧
      S (t.moduleScope name above).2 (u.moduleScope name above').2
  addVariable : ∀ t u, S t u → ∀ id name v, S (t.addVariable id name v) (u.addVariable id name v)
  addFunction : ∀ t u, S t u → ∀ id name f, S (t.addFunction id name f) (u.addFunction id name f)
  addType : ∀ t u, S t u → ∀ id name type, S (t.addType id name type) (u.addType id name type)

theorem ScopeTree.congruent_eq (above : ScopeId) : ScopeTree.Congruent Eq (fun _ => True) above above where
  derive := by rintro t _ rfl _ _ _; exact ⟨rfl, rfl⟩
  moduleScope := by rintro t _ rfl _ _; exact ⟨rfl, rfl⟩
  addVariable := by rintro t _ rfl _ _ _; rfl
  addFunction := by rintro t _ rfl _ _ _; rfl
  addType := by rintro t _ rfl _ _ _; rfl

/-- Two programs that are the same but for the words, the scopes and the options. -/
structure Program.Kin (r : Rewording) (S : ScopeTree → ScopeTree → Prop) (options options' : Options)
    (p q : Program) : Prop where
  first : p.options = options
  second : q.options = options'
  types : q.types = p.types
  nodes : q.nodes = p.nodes
  modules : q.modules = p.modules
  functions : q.functions = p.functions.map r.boundFunction
  vars : q.vars = p.vars.map r.boundVariable
  structs : q.structs = p.structs.map r.boundStruct
  structTypes : q.structTypes = p.structTypes
  scopes : S p.scopes q.scopes

namespace Rewording
open Construction
variable (r : Rewording)

def declared : Declared → Declared
  | .function id decl => .function id (r.functionDecl decl)
  | .variable id => .variable id
  | .struct id type home decl => .struct id type home (r.structDecl decl)

theorem bind_shape (scope : ScopeId) (e : Tree.Expr) (next : Nat) : Yields (Expr.bind scope e) next
    (fun b _ => b.isNull = e.isNull ∧ b.isIdentifier = e.isName ∧ b.site.scope = scope) := by
  have any {α : Type} (x : Binding α) (n : Nat) : Yields x n (fun _ _ => True) := fun _ _ _ => trivial
  cases e with
  | name ident span => exact yields_bind (any _ _) fun _ _ _ => yields_pure ⟨rfl, rfl, rfl⟩
  | number numeral span => exact yields_pure ⟨rfl, rfl, rfl⟩
  | null span => exact yields_pure ⟨rfl, rfl, rfl⟩
  | invocation target args span =>
    rw [Expr.bind.eq_def]
    cases target with
    | name ident _ =>
      exact yields_bind (any _ _) fun _ _ _ => yields_bind (any _ _) fun _ _ _ => yields_pure ⟨rfl, rfl, rfl⟩
    | member object ident nullSafe _ =>
      exact yields_bind (any _ _) fun _ _ _ => yields_bind (any _ _) fun _ _ _ =>
        yields_bind (any _ _) fun _ _ _ => yields_pure ⟨rfl, rfl, rfl⟩
    | _ =>
      intro _ _ ran
      cases ran
  | binary left op right span =>
    rw [Expr.bind]
    exact yields_bind (any _ _) fun _ _ _ => yields_bind (any _ _) fun _ _ _ =>
      yields_bind (any _ _) fun _ _ _ => yields_pure ⟨rfl, rfl, rfl⟩
  | paren inner span =>
    rw [Expr.bind]
    exact yields_bind (any _ _) fun _ _ _ => yields_pure ⟨rfl, rfl, rfl⟩
  | _ =>
    rw [Expr.bind]
    exact yields_bind (any _ _) fun _ _ _ => yields_bind (any _ _) fun _ _ _ => yields_pure ⟨rfl, rfl, rfl⟩

variable {r}

theorem keeping_binds {bare : Tree.Expr → Bool} {bareBound : Expr → Bool} (scope : ScopeId)
    (agree : ∀ e next, Yields (Expr.bind scope e) next (fun b _ => bareBound b = bare e)) (e : Tree.Expr) (next : Nat) :
    Expr.bind scope (r.keeping bare e) next =
      (Expr.bind scope e next).map (fun b => (r.boundKeeping bareBound b.1, b.2)) := by
  have law := r.binds scope e next
  unfold keeping
  cases ran : Expr.bind scope e next with
  | error fault =>
    rw [ran] at law
    split
    · rw [Expr.bind, run_state_bind, law]
      rfl
    · exact law
  | ok b =>
    obtain ⟨b, after⟩ := b
    rw [ran] at law
    have old : bareBound b = bare e := agree e next b after ran
    have new : bareBound (r.bound b) = bare (r.expr e) := agree _ next _ after law
    have place : b.site.scope = scope := (bind_shape scope e next b after ran).2.2
    simp only [Except.map, boundKeeping, old, new, place]
    split
    · rw [Expr.bind, run_state_bind, law]
      rfl
    · exact law

theorem value_binds (scope : ScopeId) (e : Tree.Expr) (next : Nat) :
    Expr.bind scope (r.value e) next = (Expr.bind scope e next).map (fun b => (r.boundValue b.1, b.2)) :=
  keeping_binds scope (fun e next => yields_weaken (bind_shape scope e next) fun _ _ shape => shape.1) e next

theorem target_binds (scope : ScopeId) (e : Tree.Expr) (next : Nat) :
    Expr.bind scope (r.target e) next = (Expr.bind scope e next).map (fun b => (r.boundTarget b.1, b.2)) :=
  keeping_binds scope (fun e next => yields_weaken (bind_shape scope e next) fun _ _ shape => shape.2.1) e next

section Steps
variable {S : ScopeTree → ScopeTree → Prop} {options options' : Options}

theorem bind_expr_follows {f : Tree.Expr → Tree.Expr} {g : Expr → Expr} (scope : ScopeId) (e : Tree.Expr)
    (law : ∀ next, Expr.bind scope (f e) next = (Expr.bind scope e next).map (fun b => (g b.1, b.2))) :
    Follows (Program.Kin r S options options') g (bindExpr scope e) (bindExpr scope (f e)) := by
  intro p q kin
  change Alike _ (Expr.bind scope e p.nodes >>= fun b => pure (b.1, { p with nodes := b.2 }))
    (Expr.bind scope (f e) q.nodes >>= fun b => pure (b.1, { q with nodes := b.2 }))
  rw [kin.nodes, law]
  cases Expr.bind scope e p.nodes with
  | error fault => exact .error fault
  | ok b => exact .ok ⟨rfl, { kin with nodes := rfl }⟩

theorem bind_option_follows {f : Tree.Expr → Tree.Expr} {g : Expr → Expr} (scope : ScopeId) (e : Option Tree.Expr)
    (law : ∀ e next, Expr.bind scope (f e) next = (Expr.bind scope e next).map (fun b => (g b.1, b.2))) :
    Follows (Program.Kin r S options options') (Option.map g) (bindOption scope e) (bindOption scope (e.map f)) := by
  cases e with
  | none =>
    intro p q kin
    exact .ok ⟨rfl, { kin with nodes := kin.nodes }⟩
  | some e =>
    intro p q kin
    change Alike _ ((some <$> Expr.bind scope e) p.nodes >>= fun b => pure (b.1, { p with nodes := b.2 }))
      ((some <$> Expr.bind scope (f e)) q.nodes >>= fun b => pure (b.1, { q with nodes := b.2 }))
    rw [map_eq_pure_bind, map_eq_pure_bind, run_state_bind, run_state_bind, kin.nodes, law]
    cases Expr.bind scope e p.nodes with
    | error fault => exact .error fault
    | ok b => exact .ok ⟨rfl, { kin with nodes := rfl }⟩

variable {named : String → Prop} {above above' : ScopeId} (congruent : ScopeTree.Congruent S named above above')
include congruent

theorem new_scope_follows (parent : ScopeId) (kind : ScopeKind) (inner : kind ≠ .module) :
    Follows (Program.Kin r S options options') id (newScope parent kind) (newScope parent kind) :=
  follows_modify_get fun _ _ kin =>
    have derived := congruent.derive _ _ kin.scopes parent kind inner
    ⟨derived.1, { kin with scopes := derived.2 }⟩

theorem reveal_follows (scope : ScopeId) (name : String) (v : VariableId) :
    Follows (Program.Kin r S options options') id (reveal scope name v) (reveal scope name v) :=
  follows_modify fun _ _ kin => { kin with scopes := congruent.addVariable _ _ kin.scopes scope name v }

omit congruent in
theorem new_variable_follows (scope : ScopeId) {origin origin' : Variable.Origin}
    {initializer initializer' : Option Expr}
    (same : ∀ id, r.boundVariable { id, origin, scope, initializer }
      = { id, origin := origin', scope, initializer := initializer' }) :
    Follows (Program.Kin r S options options') id (newVariable scope origin initializer)
      (newVariable scope origin' initializer') :=
  follows_modify_get fun p q kin => by
    have size : q.vars.size = p.vars.size := by rw [kin.vars, Array.size_map]
    refine ⟨congrArg VariableId.mk size, { kin with vars := ?_ }⟩
    rw [Array.map_push, same, kin.vars, Array.size_map]

theorem new_function_follows (home : ScopeId) (name : String) {origin origin' : Function.Origin}
    (same : ∀ id scope, r.boundFunction { id, origin, home, scope } = { id, origin := origin', home, scope }) :
    Follows (Program.Kin r S options options') id (newFunction home name origin) (newFunction home name origin') := by
  intro p q kin
  have size : q.functions.size = p.functions.size := by rw [kin.functions, Array.size_map]
  let rest (origin : Function.Origin) (id : FunctionId) : Construction FunctionId := do
    let scope ← newScope home (.function id)
    modify (fun p => { p with
      functions := p.functions.push { id, origin, home, scope }
      scopes := p.scopes.addFunction home name id })
    pure id
  change Alike _ (rest origin ⟨p.functions.size⟩ p) (rest origin' ⟨q.functions.size⟩ q)
  rw [size]
  refine follows_bind (new_scope_follows congruent home (.function ⟨p.functions.size⟩) nofun) (fun scope => ?_) p q kin
  refine follows_bind (k := id) (follows_modify fun p q kin => ?_) (fun _ => follows_pure _)
  refine { kin with functions := ?_, scopes := congruent.addFunction _ _ kin.scopes home name _ }
  dsimp only [id]
  rw [Array.map_push, same, kin.functions]

theorem declare_type_follows (package : List String) (home : ScopeId) (name : String) :
    Follows (Program.Kin r S options options') id (declareType package home name) (declareType package home name) :=
  follows_modify_get fun p q kin => by
    rw [kin.types]
    exact ⟨rfl, { kin with types := rfl, scopes := congruent.addType _ _ kin.scopes home name _ }⟩

omit congruent in
theorem bind_member_follows (scope : ScopeId) (decl : Tree.MemberDecl) :
    Follows (Program.Kin r S options options') r.boundMember (bindMember scope decl)
      (bindMember scope (r.memberDecl decl)) :=
  follows_bind (bind_option_follows scope decl.default (r.binds scope)) fun default =>
    follows_pure (⟨decl, default⟩ : Member)

theorem declare_struct_follows (package : List String) (home : ScopeId) (decl : Tree.StructDecl) :
    Follows (Program.Kin r S options options') r.declared (declareStruct package home decl)
      (declareStruct package home (r.structDecl decl)) := by
  intro p q kin
  have size : q.structs.size = p.structs.size := by rw [kin.structs, Array.size_map]
  let rest (decl : Tree.StructDecl) (id : StructId) : Construction Declared := do
    let type ← declareType package home decl.name.name
    let scope ← newScope home (.struct id)
    let members ← decl.members.mapM (bindMember scope)
    modify (fun p => { p with
      structs := p.structs.push { id, decl, type, scope, members }
      structTypes := p.structTypes.insert type id })
    pure (.struct id type home decl)
  change Alike _ (rest decl ⟨p.structs.size⟩ p) (rest (r.structDecl decl) ⟨q.structs.size⟩ q)
  rw [size]
  refine follows_bind (declare_type_follows congruent package home decl.name.name) (fun type => ?_) p q kin
  refine follows_bind (new_scope_follows congruent home (.struct ⟨p.structs.size⟩) nofun) (fun scope => ?_)
  refine follows_bind (follows_map r.memberDecl decl.members (bind_member_follows scope)) (fun members => ?_)
  refine follows_bind (k := id) (follows_modify fun p q kin => { kin with structs := ?_, structTypes := ?_ })
    (fun _ => follows_pure _)
  · rw [Array.map_push, kin.structs]
    rfl
  · rw [kin.structTypes]
    rfl

theorem declare_item_follows (package : List String) (home : ScopeId) (item : Tree.Item) :
    Follows (Program.Kin r S options options') r.declared (declareItem package home item)
      (declareItem package home (r.item item)) := by
  cases item with
  | function decl =>
    refine follows_bind (new_function_follows congruent home decl.name.name fun id scope => rfl) (fun id => ?_)
    exact follows_pure (Declared.function id decl)
  | «variable» decl =>
    refine follows_bind (bind_option_follows home decl.initializer (value_binds home)) (fun initializer => ?_)
    refine follows_bind (new_variable_follows home fun id => rfl) (fun id => ?_)
    refine follows_bind (reveal_follows congruent home decl.name.name id) (fun _ => ?_)
    exact follows_pure (Declared.variable id)
  | struct decl => exact declare_struct_follows congruent package home decl

omit congruent in
theorem declared_declaration (d : Declared) : (r.declared d).declaration = d.declaration := by
  cases d <;> rfl

omit congruent in
theorem declared_declarations (ds : List Declared) :
    (ds.map r.declared).map Declared.declaration = ds.map Declared.declaration := by
  rw [List.map_map]
  exact List.map_congr_left fun d _ => declared_declaration d

def boundModule (r : Rewording) (m : ScopeId × List Declared) : ScopeId × List Declared := (m.1, m.2.map r.declared)

theorem declare_module_follows (first : (if options.implicitBuiltinImport then ScopeId.builtin else .program) = above)
    (second : (if options'.implicitBuiltinImport then ScopeId.builtin else .program) = above') {m m' : Tree.Module}
    (allowed : named m.name) (path : m'.path = m.path) (items : m'.items = m.items.map r.item) :
    Follows (Program.Kin r S options options') r.boundModule (declareModule m) (declareModule m') := by
  have package : m'.package = m.package := by unfold Tree.Module.package; rw [path]
  have name : m'.name = m.name := by unfold Tree.Module.name; rw [package]
  unfold declareModule
  rw [package, name, items]
  refine follows_bind (k := id) (follows_modify_get fun p q kin => ?_) (fun scope => ?_)
  · have grown := congruent.moduleScope _ _ kin.scopes m.name allowed
    rw [← first, ← second, ← kin.first, ← kin.second] at grown
    exact ⟨grown.1, { kin with scopes := grown.2 }⟩
  · refine follows_bind (follows_map r.item m.items (declare_item_follows congruent m.package scope)) (fun ds => ?_)
    refine follows_bind (k := id) (follows_modify fun p q kin => { kin with modules := ?_ })
      (fun _ => follows_pure (scope, ds))
    dsimp only [id]
    rw [kin.modules, declared_declarations]

theorem add_types_related (entries : List (TypeDef × Nat)) {t u : ScopeTree} (related : S t u) :
    S (entries.foldl (fun scopes entry => scopes.addType .builtin entry.1.name.name ⟨entry.2⟩) t)
      (entries.foldl (fun scopes entry => scopes.addType .builtin entry.1.name.name ⟨entry.2⟩) u) := by
  induction entries generalizing t u with
  | nil => exact related
  | cons entry rest ih => exact ih (congruent.addType t u related _ _ _)

theorem declare_builtins_follow :
    Follows (Program.Kin r S options options') id declareBuiltins declareBuiltins := by
  unfold declareBuiltins
  generalize BuiltinFunction.all = builtins
  let declare (b : BuiltinFunction) : Construction Unit := do
    let _ ← newFunction .builtin b.name (.builtin b)
  have one (b : BuiltinFunction) : Follows (Program.Kin r S options options') id (declare b) (declare b) :=
    follows_bind (new_function_follows congruent .builtin b.name fun id scope => rfl)
      (fun _ => follows_pure PUnit.unit)
  have each := follows_for id builtins one
  rw [List.map_id] at each
  refine follows_bind (k := id) (follows_modify fun p q kin => ?_) (fun _ => each)
  refine { kin with scopes := ?_ }
  rw [kin.types]
  exact add_types_related congruent _ kin.scopes

section Sealing
variable (sees : ∀ t u, S t u → ∀ id name, u.findType? id name = t.findType? id name)
include sees
omit congruent

theorem attach_supertype_follows (type : TypeId) (home : ScopeId) (name : String) (written : Tree.TypeExpr) :
    Follows (Program.Kin r S options options') id (attachSupertype type home name written)
      (attachSupertype type home name written) := by
  intro p q kin
  unfold attachSupertype
  rw [run_state_get, run_state_get, sees _ _ kin.scopes, kin.types]
  cases p.scopes.findType? home written.name.name with
  | none => exact .ok ⟨rfl, kin⟩
  | some supertype =>
    dsimp only
    rw [run_state_bind, run_state_bind]
    cases p.types.addSupertype type supertype with
    | error fault => exact .error fault
    | ok attached =>
      cases attached with
      | none => exact .ok ⟨rfl, kin⟩
      | some types => exact .ok ⟨rfl, { kin with types := rfl }⟩

omit sees in
theorem attach_any_follows (type : TypeId) :
    Follows (Program.Kin r S options options') id (attachAny type) (attachAny type) := by
  intro p q kin
  unfold attachAny
  rw [run_state_get, run_state_get, kin.types, run_state_bind, run_state_bind]
  cases p.types.addSupertype type .any with
  | error fault => exact .error fault
  | ok attached =>
    cases attached with
    | none => exact .ok ⟨rfl, kin⟩
    | some types => exact .ok ⟨rfl, { kin with types := rfl }⟩

theorem seal_declared_follows (d : Declared) :
    Follows (Program.Kin r S options options') id (sealDeclared d) (sealDeclared (r.declared d)) := by
  cases d with
  | struct _ type home decl =>
    refine follows_bind (follows_same decl.supertypes (attach_supertype_follows sees type home decl.name.name))
      (fun left => ?_)
    dsimp only [id]
    split
    · exact follows_bind (attach_any_follows type) fun _ => follows_pure (left.filterMap id)
    · exact follows_pure (left.filterMap id)
  | _ => exact follows_pure []

end Sealing

omit congruent

mutual

theorem bind_stmt_follows (congruent : ScopeTree.Congruent S named above above') (scope : ScopeId) : ∀ s : Tree.Stmt,
    Follows (Program.Kin r S options options') (fun b => (r.boundStmt b.1, b.2)) (bindStmt scope s)
      (bindStmt scope (r.stmt s))
  | .expr value span => by
    rw [stmt, bindStmt, bindStmt]
    exact follows_bind (bind_expr_follows scope value (r.binds scope value)) fun value =>
      follows_pure (Stmt.expr value ⟨scope, span⟩, scope)
  | .variable decl => by
    rw [stmt, bindStmt, bindStmt]
    refine follows_bind (bind_option_follows scope decl.initializer (value_binds scope)) (fun initializer => ?_)
    refine follows_bind (new_variable_follows scope fun id => rfl) (fun id => ?_)
    refine follows_bind (new_scope_follows congruent scope .binding nofun) (fun layer => ?_)
    refine follows_bind (reveal_follows congruent layer decl.name.name id) (fun _ => ?_)
    exact follows_pure (Stmt.variable id ⟨scope, decl.span⟩, layer)
  | .assign target value span => by
    rw [stmt, bindStmt, bindStmt]
    refine follows_bind (bind_expr_follows scope target (target_binds scope target)) (fun target => ?_)
    refine follows_bind (bind_expr_follows scope value (r.binds scope value)) (fun value => ?_)
    exact follows_pure (Stmt.assign target value ⟨scope, span⟩, scope)
  | .ret value span => by
    rw [stmt, bindStmt, bindStmt]
    exact follows_bind (bind_option_follows scope value (value_binds scope)) fun value =>
      follows_pure (Stmt.ret value ⟨scope, span⟩, scope)
  | .branch condition thenBranch elseBranch span => by
    rw [stmt, bindStmt, bindStmt]
    refine follows_bind (bind_expr_follows scope condition (r.binds scope condition)) (fun condition => ?_)
    refine follows_bind (bind_block_follows congruent scope thenBranch) (fun thenBranch => ?_)
    refine follows_bind (bind_option_block_follows congruent scope elseBranch) (fun elseBranch => ?_)
    exact follows_pure (Stmt.branch condition thenBranch elseBranch ⟨scope, span⟩, scope)
  | .block body => by
    rw [stmt, bindStmt, bindStmt]
    exact follows_bind (bind_block_follows congruent scope body) fun body => follows_pure (Stmt.block body, scope)

theorem bind_block_follows (congruent : ScopeTree.Congruent S named above above') (parent : ScopeId) : ∀ b : Tree.Block,
    Follows (Program.Kin r S options options') r.boundBlock (bindBlock parent b) (bindBlock parent (r.block b))
  | .mk ss span => by
    rw [block, bindBlock, bindBlock]
    refine follows_bind (new_scope_follows congruent parent .block nofun) (fun scope => ?_)
    exact follows_bind (bind_stmts_follows congruent scope ss) fun ss => follows_pure (Block.mk ss ⟨scope, span⟩)

theorem bind_option_block_follows (congruent : ScopeTree.Congruent S named above above') (parent : ScopeId) :
    ∀ b : Option Tree.Block, Follows (Program.Kin r S options options') r.boundOption (bindOptionBlock parent b)
      (bindOptionBlock parent (r.optionBlock b))
  | none => by
    rw [optionBlock, bindOptionBlock]
    exact follows_pure none
  | some body => by
    rw [optionBlock, bindOptionBlock, bindOptionBlock]
    exact follows_bind (bind_block_follows congruent parent body) fun body => follows_pure (some body)

theorem bind_stmts_follows (congruent : ScopeTree.Congruent S named above above') (scope : ScopeId) :
    ∀ ss : List Tree.Stmt,
    Follows (Program.Kin r S options options') r.boundStmts (bindStmts scope ss) (bindStmts scope (r.stmts ss))
  | [] => by
    rw [stmts, bindStmts]
    exact follows_pure []
  | s :: rest => by
    rw [stmts, bindStmts, bindStmts]
    refine follows_bind (bind_stmt_follows congruent scope s) (fun s => ?_)
    exact follows_bind (bind_stmts_follows congruent s.2 rest) fun rest => follows_pure (s.1 :: rest)

end

include congruent

theorem bind_param_follows (function : FunctionId) (scope : ScopeId) (param : Tree.Param × Nat) :
    Follows (Program.Kin r S options options') id (bindParam function scope param)
      (bindParam function scope param) := by
  refine follows_bind (new_variable_follows scope fun id => rfl) (fun id => ?_)
  exact follows_bind (reveal_follows congruent scope param.1.name.name id) fun _ => follows_pure id

omit congruent in
theorem set_body_map (functions : Array Function) (index : Nat) (parameters : List VariableId) (body : Option Block) :
    (functions.map r.boundFunction).modify index (fun f => { f with parameters, body := r.boundOption body }) =
      (functions.modify index (fun f => { f with parameters, body })).map r.boundFunction := by
  apply Array.ext_getElem?
  intro i
  rw [Array.getElem?_modify, Array.getElem?_map, Array.getElem?_map, Array.getElem?_modify]
  split
  · rw [Option.map_map, Option.map_map]
    rfl
  · rfl

theorem bind_function_follows (f : FunctionId) (decl : Tree.FunctionDecl) :
    Follows (Program.Kin r S options options') id (bindFunction f decl) (bindFunction f (r.functionDecl decl)) := by
  intro p q kin
  let rest (decl : Tree.FunctionDecl) (scope : ScopeId) : Construction Unit := do
    let parameters ← decl.params.zipIdx.mapM (bindParam f scope)
    let body ← bindOptionBlock scope decl.body
    modify (fun p => { p with functions := p.functions.modify f.index (fun f => { f with parameters, body }) })
  change Alike _ ((liftM (p.functionAt f) >>= fun b => rest decl b.scope : Construction Unit) p)
    ((liftM (q.functionAt f) >>= fun b => rest (r.functionDecl decl) b.scope : Construction Unit) q)
  rw [r.function_at_map kin.functions, run_state_bind, run_state_bind]
  cases p.functionAt f with
  | error fault => exact .error fault
  | ok b =>
    refine follows_bind (follows_same decl.params.zipIdx (bind_param_follows congruent f b.scope))
      (fun parameters => ?_) p q kin
    refine follows_bind (bind_option_block_follows congruent b.scope decl.body) (fun body => ?_)
    refine follows_modify fun p q kin => { kin with functions := ?_ }
    dsimp only [id]
    rw [kin.functions, set_body_map]

theorem bind_declared_follows (d : Declared) :
    Follows (Program.Kin r S options options') id (bindDeclared d) (bindDeclared (r.declared d)) := by
  cases d with
  | function id decl => exact bind_function_follows congruent id decl
  | _ => exact follows_pure PUnit.unit

theorem declare_follows (first : (if options.implicitBuiltinImport then ScopeId.builtin else .program) = above)
    (second : (if options'.implicitBuiltinImport then ScopeId.builtin else .program) = above')
    {modules modules' : List Tree.Module}
    (pairs : List.Forall₂ (fun m m' => named m.name ∧ m'.path = m.path ∧ m'.items = m.items.map r.item)
      modules modules') :
    Follows (Program.Kin r S options options') (List.map r.boundModule) (declare modules) (declare modules') := by
  unfold declare
  have builtins : Follows (Program.Kin r S options options') id declareBuiltins declareBuiltins :=
    declare_builtins_follow congruent
  refine follows_bind builtins (fun _ => follows_each ?_)
  exact pairs.imp fun m m' same => declare_module_follows congruent first second same.1 same.2.1 same.2.2

theorem settle_alike {p q : Program} (kin : p.Kin r S options options' q)
    (sees : ∀ id name, q.scopes.findType? id name = p.scopes.findType? id name) (items : List Declared)
    (unresolved : List (List (List Diagnostic))) :
    Alike (fun a b => b.1 = a.1 ∧ a.2.Kin r S options options' b.2) (settle items unresolved p)
      (settle (items.map r.declared) unresolved q) := by
  let fixed (t u : ScopeTree) : Prop := t = p.scopes ∧ u = q.scopes
  have start : p.Kin r fixed options options' q := { kin with scopes := ⟨rfl, rfl⟩ }
  have sealing := follows_map (K := Program.Kin r fixed options options') r.declared items
    (seal_declared_follows (by rintro _ _ ⟨rfl, rfl⟩; exact sees))
  rw [List.map_id_fun] at sealing
  refine alike_then (sealing p q start) ?_
  rintro rejected p' rejected' q' ⟨same, kin'⟩
  obtain rfl : rejected' = rejected := same
  obtain ⟨first, second⟩ := kin'.scopes
  have related : S p'.scopes q'.scopes := by
    rw [first, second]
    exact kin.scopes
  refine follows_bind (l := id) (follows_for r.declared items (bind_declared_follows congruent)) (fun _ => ?_) p' q'
    { kin' with scopes := related }
  exact follows_pure (unresolved.flatten.flatten ++ rejected'.flatten)

end Steps

variable {options options' : Options}

theorem resolve_import_follows (scope : ScopeId) (i : Tree.Import) :
    Follows (Program.Kin r Eq options options') id (resolveImport scope i) (resolveImport scope i) :=
  follows_modify_get fun p q kin => by
    rw [← kin.scopes]
    cases p.scopes.findModule? i.target with
    | none => exact ⟨rfl, kin⟩
    | some imported => exact ⟨rfl, { kin with scopes := rfl }⟩

theorem link_follows (modules : List Tree.Module) (declared : List (ScopeId × List Declared)) :
    Follows (Program.Kin r Eq options options') id (link (modules.zip declared))
      (link ((modules.map r.moduleDecl).zip (declared.map r.boundModule))) := by
  rw [List.zip_map]
  let imports (entry : Tree.Module × ScopeId × List Declared) := entry.1.imports.mapM (resolveImport entry.2.1)
  have each := follows_map (K := Program.Kin r Eq options options') (k := id) (f := imports) (g := imports)
    (Prod.map r.moduleDecl r.boundModule) (modules.zip declared)
    (fun entry => follows_same entry.1.imports (resolve_import_follows entry.2.1))
  rwa [List.map_id_fun] at each

theorem bound_module_items (declared : List (ScopeId × List Declared)) :
    (declared.map r.boundModule).flatMap Prod.snd = (declared.flatMap Prod.snd).map r.declared := by
  rw [List.flatMap_map, List.map_flatMap]
  rfl

/-- Construction of a text in other words fails like construction of the text, or gives the program in other words
and the same findings. -/
theorem construct_follows (r : Rewording) (implicit : options'.implicitBuiltinImport = options.implicitBuiltinImport)
    (modules : List Tree.Module) :
    Alike (fun a b => b.2 = a.2 ∧ a.1.Kin r Eq options options' b.1) (Program.construct options modules)
      (Program.construct options' (modules.map r.moduleDecl)) := by
  have start : ({ options } : Program).Kin r Eq options options' { options := options' } :=
    ⟨rfl, rfl, rfl, rfl, rfl, Array.map_empty.symm, Array.map_empty.symm, Array.map_empty.symm, rfl, rfl⟩
  have congruent := ScopeTree.congruent_eq (if options.implicitBuiltinImport then .builtin else .program)
  have stages : Follows (Program.Kin r Eq options options') id (build modules) (build (modules.map r.moduleDecl)) := by
    rw [build_stages, build_stages]
    refine follows_bind (declare_follows congruent rfl (by rw [implicit]) ?_) (fun declared => ?_)
    · exact List.forall₂_map_right_iff.2 (List.forall₂_same.2 fun m _ => ⟨trivial, rfl, rfl⟩)
    · refine follows_bind (link_follows modules declared) (fun unresolved p q kin => ?_)
      rw [bound_module_items]
      exact settle_alike congruent kin (fun _ _ => by rw [kin.scopes]) _ unresolved
  exact alike_bind (stages _ _ start) fun a b both => .ok ⟨both.1, both.2⟩

end Rewording

end SemanticAnalysis
