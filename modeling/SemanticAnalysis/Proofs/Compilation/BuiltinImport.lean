import SemanticAnalysis.Proofs.Lexical.Layout
import SemanticAnalysis.Proofs.Rewording.Compilation
import SemanticAnalysis.Proofs.Scope.Alignment
/-!
The built-in module, imported implicitly or by every module in its first import. The two programs are built side by
side. They differ in what lies above the scopes of modules and in what these import, and names mean the same in both,
so analysis finds out and reports the same.
-/
namespace SemanticAnalysis
open Running Analysis Diagnostics SemanticAnalysis.Bound ScopeTree

def Tree.Module.importing (m : Tree.Module) (i : Tree.Import) : Tree.Module := { m with imports := i :: m.imports }

def Tree.Explicit (m m' : Tree.Module) : Prop := ∃ i : Tree.Import, i.target = builtinModule ∧ m' = m.importing i

def Tree.Names (modules : List Tree.Module) (name : String) : Prop := ∃ m ∈ modules, m.name = name

section Texts
variable {modules modules' : List Tree.Module} (explicit : List.Forall₂ Tree.Explicit modules modules')

include explicit in
theorem explicit_imports (name : String) : Tree.importsOf modules' name =
    (modules.filter (fun m => m.name == name)).flatMap
      (fun m => builtinModule :: m.imports.map Tree.Import.target) := by
  unfold Tree.importsOf
  induction explicit with
  | nil => rfl
  | @cons m m' rest rest' head _ ih =>
    obtain ⟨i, target, rfl⟩ := head
    have same : (m.importing i).name = m.name := rfl
    rw [List.filter_cons, List.filter_cons, same]
    split
    · rw [List.flatMap_cons, List.flatMap_cons, ih, Tree.Module.importing, List.map_cons, target]
    · exact ih

theorem erase_dups_interleaved {α : Type} [BEq α] [LawfulBEq α] (a : α) {xss : List (List α)} (some : xss ≠ []) :
    (xss.flatMap (a :: ·)).eraseDups = (a :: xss.flatten).eraseDups := by
  have dropped : ∀ yss : List (List α), (yss.flatMap (a :: ·)).filter (fun b => !b == a) =
      yss.flatten.filter (fun b => !b == a) := by
    intro yss
    induction yss with
    | nil => rfl
    | cons ys rest ih => simp [List.filter_append, ih]
  cases xss with
  | nil => exact absurd rfl some
  | cons xs rest =>
    rw [List.flatMap_cons, List.cons_append, List.eraseDups_cons, List.eraseDups_cons, List.flatten_cons,
      List.filter_append, List.filter_append, dropped]

include explicit in
theorem explicit_linked {t : ScopeTree} (builtin : t.findModule? builtinModule = some .builtin) {name : String}
    (named : Tree.Names modules name) : Construction.linked t (Tree.importsOf modules') name =
      (ScopeId.builtin :: (Tree.importsOf modules name).filterMap t.findModule?).eraseDups := by
  obtain ⟨m, member, same⟩ := named
  have some : (modules.filter (fun m => m.name == name)).map
      (fun m => (m.imports.map Tree.Import.target).filterMap t.findModule?) ≠ [] := by
    have kept : m ∈ modules.filter (fun m => m.name == name) := List.mem_filter.mpr ⟨member, by simp [same]⟩
    rw [Ne, List.map_eq_nil_iff]
    exact List.ne_nil_of_mem kept
  have interleaved := erase_dups_interleaved ScopeId.builtin some
  rw [List.flatMap_map] at interleaved
  unfold Construction.linked
  rw [explicit_imports explicit, List.filterMap_flatMap]
  simp only [List.filterMap_cons, builtin]
  rw [interleaved, Tree.importsOf, List.filterMap_flatMap, List.flatMap_def]

theorem imports_unnamed {name : String} (unnamed : ¬Tree.Names modules name) : Tree.importsOf modules name = [] := by
  unfold Tree.importsOf
  rw [List.filter_eq_nil_iff.mpr, List.flatMap_nil]
  intro m member same
  exact unnamed ⟨m, member, by simpa using same⟩

theorem visible_unnamed {name : String} (unnamed : ¬Tree.Names modules name) :
    Tree.visibleIn (Tree.placed modules) name = [] := by
  unfold Tree.visibleIn
  rw [List.map_eq_nil_iff, List.filter_eq_nil_iff]
  rintro ⟨⟨module, decl⟩, index⟩ member same
  obtain rfl : module = name := by simpa using same
  have listed : (module, decl) ∈ Tree.globals (Tree.placed modules) := (List.mem_zipIdx' member).2 ▸ List.getElem_mem _
  obtain ⟨i, placed, global⟩ := List.mem_filterMap.mp listed
  obtain ⟨m, inside, item⟩ := List.mem_flatMap.mp placed
  obtain ⟨_, _, rfl⟩ := List.mem_map.mp item
  obtain ⟨_, _, pair⟩ := Option.map_eq_some_iff.mp global
  cases pair
  exact unnamed ⟨m, inside, rfl⟩

end Texts

theorem aligned_congruent (named : String → Prop) : Congruent (Aligned named) named .builtin .program where
  derive _ _ aligned parent _ inner := aligned_derive aligned parent inner
  moduleScope _ _ aligned _ allowed := aligned_module_scope aligned allowed .builtin .program
  addVariable _ _ aligned id name v := aligned_declare aligned id (fun _ => ⟨rfl, rfl, rfl, rfl⟩)
    fun _ _ vars functions types => ⟨by rw [vars], functions, types⟩
  addFunction _ _ aligned id name f := aligned_declare aligned id (fun _ => ⟨rfl, rfl, rfl, rfl⟩)
    fun _ _ vars functions types => ⟨vars, by rw [functions], types⟩
  addType _ _ aligned id name type := aligned_declare aligned id (fun _ => ⟨rfl, rfl, rfl, rfl⟩)
    fun _ _ vars functions types => ⟨vars, functions, by rw [types]⟩

section Programs
variable {modules modules' : List Tree.Module} (ordinary : ¬Tree.Names modules builtinModule)
  (explicit : List.Forall₂ Tree.Explicit modules modules')
include ordinary explicit

/-- Once imports are resolved, names mean the same in both trees. -/
theorem rearranged_of_grounded {t u : ScopeTree} {items : List Tree.Placed} (aligned : t.Aligned (Tree.Names modules) u)
    (here : t.Grounded .builtin (Tree.visibleIn (Tree.placed modules)) (Construction.linked t (Tree.importsOf modules)))
    (there : u.Grounded .program (Tree.visibleIn items) (Construction.linked u (Tree.importsOf modules'))) :
    t.Rearranged (Tree.Names modules) u := by
  have find (name : String) : u.findModule? name = t.findModule? name := by
    unfold findModule?
    rw [aligned.modules]
  refine ⟨aligned, here.ordered, there.ordered, here.root, here.program, here.builtin, ?_, ?_⟩
  · obtain ⟨s, found, _, up, vars, imports⟩ := here.modules _ _ here.builtin
    obtain ⟨s', found', _, up', _, imports'⟩ := there.modules _ _ there.builtin
    refine ⟨s, s', found, found', up, up', vars.trans (visible_unnamed ordinary), ?_, ?_⟩
    · rw [imports, Construction.linked, imports_unnamed ordinary]
      rfl
    · have unnamed : (modules.filter (fun m => m.name == builtinModule)) = [] := by
        rw [List.filter_eq_nil_iff]
        intro m member same
        exact ordinary ⟨m, member, by simpa using same⟩
      rw [imports', Construction.linked, explicit_imports explicit, unnamed]
      rfl
  · intro name id listed other
    obtain ⟨s, found, _, up, _, imports⟩ := here.modules name id listed
    obtain ⟨s', found', _, up', _, imports'⟩ := there.modules name id ((find name).trans listed)
    have named : Tree.Names modules name := (aligned.names name id listed).resolve_left other
    rw [if_neg other] at up up'
    refine ⟨s, s', _, found, found', up, up', imports, ?_⟩
    rw [imports', explicit_linked explicit there.builtin named, funext find]

end Programs

namespace Construction
open Rewording
variable {named : String → Prop} {options options' : Options} {names : List (String × ScopeId)} {module : String}
  {scope : ScopeId}

def Linking (named : String → Prop) (names : List (String × ScopeId)) (t u : ScopeTree) : Prop :=
  t.Aligned named u ∧ t.modules = names

theorem find_linking {t u : ScopeTree} (linking : Linking named names t u) (name : String) :
    t.findModule? name = names.lookup name ∧ u.findModule? name = names.lookup name := by
  unfold findModule?
  rw [linking.1.modules, linking.2]
  exact ⟨rfl, rfl⟩

theorem import_follows (there : names.lookup module = some scope) (i : Tree.Import) :
    Follows (Program.Kin literal (Linking named names) options options') id (resolveImport scope i)
      (resolveImport scope i) :=
  follows_modify_get fun p q kin => by
    have found := (find_linking kin.scopes module).1.trans there
    rw [(find_linking kin.scopes i.target).1, (find_linking kin.scopes i.target).2]
    cases names.lookup i.target with
    | none => exact ⟨rfl, kin⟩
    | some imported =>
      exact ⟨rfl, { kin with scopes := ⟨aligned_import kin.scopes.1 found imported, kin.scopes.2⟩ }⟩

theorem further_import_follows (there : names.lookup module = some scope)
    (builtin : names.lookup builtinModule = some .builtin) {i : Tree.Import} (target : i.target = builtinModule) :
    Follows (Program.Kin literal (Linking named names) options options') (fun _ : Unit => ([] : List Diagnostic))
      (pure ()) (resolveImport scope i) := by
  intro p q kin
  have found := (find_linking kin.scopes module).1.trans there
  have ran : resolveImport scope i q = .ok ([], { q with scopes := q.scopes.addImport scope .builtin }) := by
    dsimp only [resolveImport, modifyGet, MonadStateOf.modifyGet, StateT.modifyGet]
    rw [target, (find_linking kin.scopes builtinModule).2, builtin]
    rfl
  rw [ran]
  exact .ok ⟨rfl, { kin with scopes := ⟨aligned_further_import kin.scopes.1 found .builtin, kin.scopes.2⟩ }⟩

theorem explicit_link_follows (builtin : names.lookup builtinModule = some .builtin)
    {modules modules' : List Tree.Module} (explicit : List.Forall₂ Tree.Explicit modules modules')
    (rs : List (ScopeId × List Declared))
    (there : List.Forall₂ (fun m r => names.lookup m.name = some r.1) modules rs) :
    Follows (Program.Kin literal (Linking named names) options options') (List.map ([] :: ·)) (link (modules.zip rs))
      (link (modules'.zip (rs.map literal.boundModule))) := by
  refine follows_each ?_
  induction explicit generalizing rs with
  | nil => exact .nil
  | @cons m m' rest rest' head _ ih =>
    cases there with
    | @cons _ r _ rs' here others =>
      refine .cons ?_ (ih rs' others)
      obtain ⟨i, target, rfl⟩ := head
      let resolve := resolveImport r.1
      have both : Follows (Program.Kin literal (Linking named names) options options') ([] :: ·)
          ((pure () : Construction Unit) >>= fun _ => m.imports.mapM resolve >>= pure)
          (do let first ← resolve i; let found ← m.imports.mapM resolve; pure (first :: found)) := by
        refine follows_bind (further_import_follows here builtin target) (fun _ => ?_)
        exact follows_bind (follows_same m.imports (import_follows here)) fun found => follows_pure found
      rw [pure_bind, bind_pure] at both
      change Follows _ _ (m.imports.mapM resolve) ((i :: m.imports).mapM resolve)
      rw [List.mapM_cons]
      exact both

end Construction

namespace Construction
open Rewording

theorem settle_further (items : List Declared) (unresolved : List (List (List Diagnostic))) :
    settle items (unresolved.map ([] :: ·)) = settle items unresolved := by
  have same : (unresolved.map ([] :: ·)).flatten.flatten = unresolved.flatten.flatten := by
    induction unresolved with
    | nil => rfl
    | cons first rest ih => simp [ih]
  unfold settle
  rw [same]

theorem declare_yields (options : Options) (modules : List Tree.Module) :
    Yields (declare modules) ({ options } : Program) (Declares options modules) := by
  refine yields_bind (declare_builtins_yield options) ?_
  rintro _ p ⟨start, none, same⟩
  rw [← same]
  exact declare_modules_yield start none modules

section Programs
variable {modules modules' : List Tree.Module} (ordinary : ¬Tree.Names modules builtinModule)
  (explicit : List.Forall₂ Tree.Explicit modules modules') {options options' : Options}
include ordinary explicit

theorem rearranged_of_kin (implicit : options.implicitBuiltinImport = true)
    (written : options'.implicitBuiltinImport = false) {p q : Program}
    (kin : p.Kin literal (Aligned (Tree.Names modules)) options options' q)
    (here : p.scopes.Grounded p.above (Tree.visibleIn (Tree.placed modules))
      (linked p.scopes (Tree.importsOf modules)))
    (there : q.scopes.Grounded q.above (Tree.visibleIn (Tree.placed modules'))
      (linked q.scopes (Tree.importsOf modules'))) : p.scopes.Rearranged (Tree.Names modules) q.scopes := by
  have above : p.above = .builtin := by rw [Program.above, kin.first, if_pos implicit]
  have above' : q.above = .program := by rw [Program.above, kin.second, if_neg (by rw [written]; decide)]
  rw [above] at here
  rw [above'] at there
  exact rearranged_of_grounded ordinary explicit kin.scopes here there

theorem build_explicit (implicit : options.implicitBuiltinImport = true)
    (written : options'.implicitBuiltinImport = false) {p₀ q₀ : Program}
    (start : p₀.Kin literal (Aligned (Tree.Names modules)) options options' q₀)
    (declared : Yields (declare modules) p₀ (Declares options modules))
    (declared' : Yields (declare modules') q₀ (Declares options' modules')) :
    Alike (fun a b => b.1 = a.1 ∧ a.2.Kin literal (Aligned (Tree.Names modules)) options options' b.2)
      (build modules p₀) (build modules' q₀) := by
  have congruent := aligned_congruent (Tree.Names modules)
  have pairs : List.Forall₂ (fun m m' => Tree.Names modules m.name ∧ m'.path = m.path ∧
      m'.items = m.items.map literal.item) modules modules' := by
    refine (List.forall₂_and_left _ _).mpr ⟨fun m member => ⟨m, member, rfl⟩, ?_⟩
    refine explicit.imp ?_
    rintro m _ ⟨i, _, rfl⟩
    exact ⟨rfl, (literal_items m.items).symm⟩
  rw [build_stages, build_stages]
  have declaring := declare_follows congruent (if_pos implicit) (if_neg (by rw [written]; decide)) pairs _ _ start
  have both : Alike (fun a b => Declares options modules a.1 a.2 ∧ Declares options' modules' b.1 b.2 ∧
      b.1 = a.1.map literal.boundModule ∧ a.2.Kin literal (Aligned (Tree.Names modules)) options options' b.2)
      (declare modules p₀) (declare modules' q₀) :=
    alike_imp declaring fun a b ran ran' related => ⟨declared _ _ ran, declared' _ _ ran', related⟩
  refine alike_then both ?_
  rintro rs p rs' q ⟨⟨lays, named, _⟩, ⟨lays', named', _⟩, mapped, kin⟩
  obtain rfl : rs' = rs.map literal.boundModule := mapped
  have linking := explicit_link_follows lays.grounded.builtin explicit rs named p q
    { kin with scopes := ⟨kin.scopes, rfl⟩ }
  have linked : Alike (fun a b =>
      a.2.Lays (Tree.placed modules) (rs.flatMap Prod.snd) (linked a.2.scopes (Tree.importsOf modules)) ∧
      b.2.Lays (Tree.placed modules') ((rs.map literal.boundModule).flatMap Prod.snd)
        (linked b.2.scopes (Tree.importsOf modules')) ∧
      b.1 = a.1.map ([] :: ·) ∧
      a.2.Kin literal (Linking (Tree.Names modules) p.scopes.modules) options options' b.2)
      (link (modules.zip rs) p) (link (modules'.zip (rs.map literal.boundModule)) q) :=
    alike_imp linking fun a b ran ran' related =>
      ⟨(resolve_imports_yield lays named _ _ ran).1, (resolve_imports_yield lays' named' _ _ ran').1, related⟩
  refine alike_then linked ?_
  rintro unresolved p' unresolved' q' ⟨here, there, added, kin'⟩
  obtain rfl : unresolved' = unresolved.map ([] :: ·) := added
  have aligned : p'.Kin literal (Aligned (Tree.Names modules)) options options' q' :=
    { kin' with scopes := kin'.scopes.1 }
  have rearranged := rearranged_of_kin ordinary explicit implicit written aligned here.grounded there.grounded
  rw [bound_module_items, settle_further]
  exact settle_alike congruent aligned (find_type_same rearranged) _ unresolved

theorem construct_explicit (options options' : Options) (implicit : options.implicitBuiltinImport = true)
    (written : options'.implicitBuiltinImport = false) :
    Alike (fun a b => b.2 = a.2 ∧ a.1.Kin literal (Rearranged (Tree.Names modules)) options options' b.1)
      (Program.construct options modules) (Program.construct options' modules') := by
  have start : ({ options } : Program).Kin literal (Aligned (Tree.Names modules)) options options'
      { options := options' } :=
    ⟨rfl, rfl, rfl, rfl, rfl, Array.map_empty.symm, Array.map_empty.symm, Array.map_empty.symm, rfl, aligned_initial⟩
  have built := build_explicit ordinary explicit implicit written start (declare_yields options modules)
    (declare_yields options' modules')
  have aligned : Alike (fun a b => b.2 = a.2 ∧ a.1.Kin literal (Aligned (Tree.Names modules)) options options' b.1)
      (Program.construct options modules) (Program.construct options' modules') := by
    exact alike_bind built fun a b both => .ok ⟨both.1, both.2⟩
  refine alike_imp aligned (fun a b ran ran' related => ⟨related.1, ?_⟩)
  obtain ⟨_, _, lexical⟩ := construct_lexical ran
  obtain ⟨_, _, lexical'⟩ := construct_lexical ran'
  exact { related.2 with
    scopes := rearranged_of_kin ordinary explicit implicit written related.2 lexical.grounded lexical'.grounded }

end Programs

end Construction

theorem Program.Kin.rearranged_mirrors {named : String → Prop} {options options' : Options} {p q : Program}
    (kin : p.Kin Rewording.literal (Rearranged named) options options' q) : p.Mirrors Rewording.literal q where
  types := kin.types
  functions := kin.functions
  vars := kin.vars
  structs := kin.structs
  structTypes := kin.structTypes
  modules := kin.modules
  findVariable := find_variable_same kin.scopes
  findType := find_type_same kin.scopes
  findFunctions := find_functions_same kin.scopes
  isWithin := is_within_same kin.scopes

def Scope.alone (s : Scope) : Scope := { s with parent := none, imports := [] }

theorem aligned_alone {named : String → Prop} {t u : ScopeTree} (aligned : t.Aligned named u) (id : ScopeId) :
    (u.get? id).map Scope.alone = (t.get? id).map Scope.alone := by
  cases found : t.get? id with
  | none => rw [missing_aligned aligned found]
  | some s =>
    obtain ⟨s', found', kind, home, vars, functions, types, -⟩ := aligned.scopes id s found
    rw [found', Option.map_some, Option.map_some, Scope.alone, Scope.alone, kind, home, vars, functions, types]

theorem explicit_notices {modules modules' : List Tree.Module}
    (explicit : List.Forall₂ Tree.Explicit modules modules') :
    Compilation.notices modules' = Compilation.notices modules := by
  unfold Compilation.notices
  induction explicit with
  | nil => rfl
  | cons head _ ih =>
    obtain ⟨i, _, rfl⟩ := head
    rw [List.flatMap_cons, List.flatMap_cons, ih, Tree.Module.importing]

/-- If no module has the name of the built-in one, it does not matter whether that one is imported implicitly or by
every module in its first import. Either way the text is rejected for the same reason, or gives the same program, apart
from the parents and the imports of scopes, with the same findings and the same facts. -/
theorem builtin_import_may_be_explicit (options : Options) {modules modules' : List Tree.Module}
    (ordinary : ∀ m ∈ modules, m.name ≠ builtinModule) (explicit : List.Forall₂ Tree.Explicit modules modules') :
    Alike (fun c c' =>
        c'.program = { c.program with
          options := { options with implicitBuiltinImport := false }, scopes := c'.program.scopes } ∧
        c'.program.scopes.modules = c.program.scopes.modules ∧
        (∀ id, (c'.program.scopes.get? id).map Scope.alone = (c.program.scopes.get? id).map Scope.alone) ∧
        c'.findings = c.findings ∧ c.Agree c')
      (Compilation.bind { options with implicitBuiltinImport := true } modules)
      (Compilation.bind { options with implicitBuiltinImport := false } modules') := by
  have unnamed : ¬Tree.Names modules builtinModule := by
    rintro ⟨m, member, same⟩
    exact ordinary m member same
  have construction := Construction.construct_explicit unnamed explicit { options with implicitBuiltinImport := true }
    { options with implicitBuiltinImport := false } rfl rfl
  refine alike_imp (Compilation.bind_alike construction) (fun c c' bound bound' related => ?_)
  obtain ⟨kin, found, built, built'⟩ := related
  have reports := kin.reports (modifiers_report rfl rfl)
  obtain ⟨matched, told⟩ := Compilation.bind_retells (fun _ => rfl) kin.rearranged_mirrors reports bound bound' built
    built' (explicit_notices explicit)
  refine ⟨literal_kin kin, kin.scopes.aligned.modules, aligned_alone kin.scopes.aligned, ?_,
    Compilation.agree_of_matches (fun _ => rfl) kin.rearranged_mirrors reports bound matched⟩
  unfold Retells at told
  rwa [List.filter_true, List.map_id, List.map_id] at told

def Tree.counting : Tree.Module :=
  { path := [⟨"a", {}⟩]
    imports := [⟨[⟨"b", {}⟩], {}⟩]
    items := [.variable ⟨⟨"x", {}⟩, false, some ⟨⟨"Int", {}⟩, false, none, {}⟩, some (.number (.int 1) {}), {}⟩]
    notices := []
    span := {} }

def Tree.rivalling : Tree.Module :=
  { path := [⟨"b", {}⟩]
    imports := [⟨[⟨"c", {}⟩], {}⟩]
    items := [.struct ⟨⟨"Int", {}⟩, [⟨⟨"Number", {}⟩, false, none, {}⟩], [], {}⟩]
    notices := []
    span := {} }

def Tree.builtinImport : Tree.Import := ⟨[⟨"dotlin", {}⟩, ⟨"lang", {}⟩], {}⟩

theorem rivals_yield_to_builtins : ∃ c c',
    Compilation.bind {} [Tree.counting, Tree.rivalling] = .ok c ∧
      Compilation.bind { implicitBuiltinImport := false }
        [Tree.counting.importing Tree.builtinImport, Tree.rivalling.importing Tree.builtinImport] = .ok c' ∧
      (∀ m ∈ [Tree.counting, Tree.rivalling], m.name ≠ builtinModule) ∧ Tree.builtinImport.target = builtinModule ∧
      c.findings.length = 1 ∧ c'.findings = c.findings ∧ c.Agree c' := by
  have counted : (Compilation.bind {} [Tree.counting, Tree.rivalling]).toOption.map (fun c => c.findings.length)
      = some 1 := by decide +kernel
  have ordinary : ∀ m ∈ [Tree.counting, Tree.rivalling], m.name ≠ builtinModule := by decide +kernel
  have target : Tree.builtinImport.target = builtinModule := by decide +kernel
  have same : Alike _ (Compilation.bind {} [Tree.counting, Tree.rivalling])
      (Compilation.bind { implicitBuiltinImport := false }
        [Tree.counting.importing Tree.builtinImport, Tree.rivalling.importing Tree.builtinImport]) :=
    builtin_import_may_be_explicit {} ordinary
      (.cons ⟨Tree.builtinImport, target, rfl⟩ (.cons ⟨Tree.builtinImport, target, rfl⟩ .nil))
  generalize Compilation.bind {} [Tree.counting, Tree.rivalling] = x at *
  generalize Compilation.bind { implicitBuiltinImport := false }
    [Tree.counting.importing Tree.builtinImport, Tree.rivalling.importing Tree.builtinImport] = y at *
  cases same with
  | error e => cases counted
  | ok related =>
    simp only [Except.toOption, Option.map_some, Option.some.injEq] at counted
    exact ⟨_, _, rfl, rfl, ordinary, target, counted, related.2.2.2⟩

end SemanticAnalysis
