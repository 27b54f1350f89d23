import SemanticAnalysis.Proofs.Construction.Stock
import SemanticAnalysis.Proofs.Construction.WellFormed
/-!
Visible functions and types. From a node one sees the functions of its own module, of the built-in one where that is
imported implicitly, and of the modules that these two import, but nothing that those import in turn. A type is looked
for in the same modules, one after the other.
-/
namespace SemanticAnalysis
open SemanticAnalysis.Bound Construction ScopeTree

namespace Tree
variable (options : Options) (modules : List Module) (module name : String)

/-- The modules of which something is visible in a module without an import that is written there. -/
def near : List String := if options.implicitBuiltinImport then [module, ScopeTree.builtinModule] else [module]

def imported : List String := (near options module).flatMap (importsOf modules)

def ShowsFunction (f : FunctionId) : Prop :=
  ∃ m ∈ near options module ++ imported options modules module,
    (functionTable (placed modules))[f.index]? = some (m, name)

def ownType? : Option TypeId := ((typeTable (placed modules)).idxOf? (module, name)).map TypeId.mk

/-- The type that a name means in a module. -/
def typeIn? : Option TypeId :=
  ((near options module).findSome? (ownType? modules · name)).or
    ((imported options modules module).findSome? (ownType? modules · name))

end Tree

namespace Program

def sitesOf (p : Program) : Declaration → List Site
  | .function id => (p.functions[id.index]?).elim [] p.bodySites
  | .variable id => (p.vars[id.index]?).elim [] (fun v => Expr.optionSites v.initializer)
  | .struct id => (p.structs[id.index]?).elim [] (fun s => Expr.allSites s.defaults)

/-- The scope lies in the scope of a module, with no other module in between. -/
def LiesIn (p : Program) (module : String) (id : ScopeId) : Prop :=
  ∃ home, p.scopes.findModule? module = some home ∧ Nearest p.scopes home id

/-- The functions and structs of a program are those of the text, in its order. -/
structure Follows (p : Program) (items : List Tree.Placed) : Prop where
  functions : p.functions.toList.map Function.origin
    = BuiltinFunction.all.map .builtin ++ items.filterMap Tree.Placed.origin?
  structs : p.structs.toList.map Struct.decl = (Tree.structs items).map Prod.snd
  types : p.structs.toList.map Struct.type
    = (List.range p.structs.size).map (fun k => ⟨TypeHierarchy.builtins.size + k⟩)

section Sites
variable {p : Program} {modules : List Tree.Module} {ds : List Declared} (formed : p.Formed)
  (lexical : p.Lexical modules ds)
include formed lexical

theorem settled_sites {entry : Nat × Tree.Placed} {d : Declared} (settled : p.SettledIn entry d) {site : Site}
    (here : site ∈ p.sitesOf d.declaration) : p.LiesIn entry.2.module site.scope := by
  obtain ⟨next, module, item⟩ := entry
  obtain ⟨home, named, there⟩ := settled
  have ordered := lexical.grounded.ordered
  obtain ⟨r, found, isModule, _⟩ := lexical.grounded.modules module home named
  have isModule : p.scopes.IsModule home := ⟨r, found, isModule⟩
  have start : ∃ after, p.scopes.path home = home :: after := ⟨_, path_eq ordered found⟩
  obtain ⟨after, start⟩ := start
  refine ⟨home, named, ?_⟩
  dsimp only at there
  cases there with
  | @inner id decl f closed =>
    have known := closed.opened.found
    simp only [sitesOf, Declared.declaration, known, Option.elim_some] at here
    obtain ⟨s, outer, kind, up⟩ := (formed.functions _ f known).scope
    obtain ⟨s', outer', _, up', _⟩ := closed.opened.scope
    rw [outer] at outer'
    cases outer'
    rw [up] at up'
    cases up'
    obtain ⟨inner, rest, path, kinds⟩ := formed_leads formed known (formed_body formed known here)
    refine ⟨inner ++ [f.scope], rest, ?_, isModule, ?_⟩
    · rw [path, List.append_assoc]
      rfl
    · rintro j member ⟨q, found', module'⟩
      rcases List.mem_append.mp member with block | last
      · obtain ⟨q', found'', other⟩ := kinds j block
        rw [found'] at found''
        cases found''
        simp [module'] at other
      · rw [List.mem_singleton.mp last, outer] at found'
        cases found'
        rw [kind] at module'
        cases module'
  | outer laid other =>
    cases laid with
    | ofFunction opened origin => cases other
    | @ofVariable id decl v known origin scope places =>
      simp only [sitesOf, Declared.declaration, known, Option.elim_some] at here
      rw [(formed.vars _ v known).initializer site here, scope]
      exact ⟨[], after, start, isModule, by simp⟩
    | @ofStruct id type decl s scope known origin places scope_found kind parent vars imports =>
      simp only [sitesOf, Declared.declaration, known, Option.elim_some] at here
      rw [(formed.structs _ s known).defaults site here]
      refine ⟨[s.scope], after, ?_, isModule, ?_⟩
      · rw [path_eq ordered scope_found, parent, Option.elim_some, start]
        rfl
      · rintro j member ⟨q, found', module'⟩
        rw [List.mem_singleton.mp member, scope_found] at found'
        cases found'
        rw [kind] at module'
        cases module'

theorem sites_lie_in : List.Forall₂ (fun i d => ∀ site ∈ p.sitesOf d, p.LiesIn i.module site.scope)
    (Tree.placed modules) p.declarations := by
  rw [lexical.declarations, List.forall₂_map_right_iff,
    ← Tree.numbered_items (Tree.globals (Tree.placed modules)).length (Tree.placed modules), List.forall₂_map_left_iff]
  exact lexical.settled.imp (fun entry d settled site here => settled_sites formed lexical settled here)

end Sites

section Look
variable {p : Program} {modules : List Tree.Module} {ds : List Declared} (formed : p.Formed)
  (lexical : p.Lexical modules ds) (lists : p.ListsAs (Tree.placed modules))

theorem near_above (p : Program) (module : String) : ScopeTree.near p.above module = Tree.near p.options module := by
  unfold above ScopeTree.near Tree.near
  cases p.options.implicitBuiltinImport
  · rw [if_neg (by decide)]
    rfl
  · rfl

include lexical in
theorem items_known (i : Tree.Placed) (member : i ∈ Tree.placed modules) :
    ∃ home, p.scopes.findModule? i.module = some home := by
  rw [← Tree.numbered_items (Tree.globals (Tree.placed modules)).length (Tree.placed modules)] at member
  obtain ⟨entry, listed, rfl⟩ := List.mem_map.mp member
  obtain ⟨d, _, home, named, _⟩ := related_left lexical.settled listed
  exact ⟨home, named⟩

include formed lexical lists

theorem find_type_lies {module : String} {id : ScopeId} (lies : p.LiesIn module id) (name : String) :
    p.scopes.findType? id name = Tree.typeIn? p.options modules module name := by
  obtain ⟨home, named, before, after, path, _, inner⟩ := lies
  rw [← path_from lexical.grounded.ordered path] at path
  have own : ∀ target, (p.scopes.findModule? target).bind (fun j => p.scopes.ownType? j name)
      = Tree.ownType? modules target name := by
    intro target
    cases known : p.scopes.findModule? target with
    | some j => exact own_type_listed lists.lists known name
    | none =>
      have absent := (tables_absent lexical.grounded.builtin (items_known lexical) known).2
      rw [Tree.ownType?, List.idxOf?_eq_none_iff.mpr (fun member => absent _ member rfl)]
      rfl
  rw [find_type_near formed.framed lexical.grounded named path inner lists.lists, near_above,
    find_some_flat_map, funext (fun m => find_some_linked p.scopes (Tree.importsOf modules) m _), funext own,
    ← find_some_flat_map]
  rfl

theorem find_functions_lies {module : String} {id : ScopeId} (lies : p.LiesIn module id) (name : String)
    (f : FunctionId) :
    f ∈ p.scopes.findFunctions id name ↔ Tree.ShowsFunction p.options modules module name f := by
  obtain ⟨home, named, before, after, path, _, inner⟩ := lies
  rw [← path_from lexical.grounded.ordered path] at path
  rw [find_functions_near formed.framed lexical.grounded named path inner lists.lists, near_above]
  have linked_iff : ∀ m, (∃ j ∈ linked p.scopes (Tree.importsOf modules) m, p.scopes.Holds j name f) ↔
      ∃ target ∈ Tree.importsOf modules m,
        (Tree.functionTable (Tree.placed modules))[f.index]? = some (target, name) := by
    intro m
    unfold linked
    constructor
    · rintro ⟨j, member, holds⟩
      obtain ⟨target, listed, known⟩ := List.mem_filterMap.mp (List.mem_eraseDups.mp member)
      exact ⟨target, listed, (holds_listed lists.lists known).mp holds⟩
    · rintro ⟨target, listed, there⟩
      cases known : p.scopes.findModule? target with
      | none =>
        have absent := (tables_absent lexical.grounded.builtin (items_known lexical) known).1
        exact absurd rfl (absent _ (List.mem_of_getElem? there))
      | some j =>
        exact ⟨j, List.mem_eraseDups.mpr (List.mem_filterMap.mpr ⟨target, listed, known⟩),
          (holds_listed lists.lists known).mpr there⟩
  unfold Tree.ShowsFunction Tree.imported
  constructor
  · rintro (⟨m, member, there⟩ | ⟨j, member, holds⟩)
    · exact ⟨m, List.mem_append_left _ member, there⟩
    · obtain ⟨m, close, listed⟩ := List.mem_flatMap.mp member
      obtain ⟨target, further, there⟩ := (linked_iff m).mp ⟨j, listed, holds⟩
      exact ⟨target, List.mem_append_right _ (List.mem_flatMap.mpr ⟨m, close, further⟩), there⟩
  · rintro ⟨m, member, there⟩
    rcases List.mem_append.mp member with close | further
    · exact .inl ⟨m, close, there⟩
    · obtain ⟨importer, close, listed⟩ := List.mem_flatMap.mp further
      obtain ⟨j, listed', holds⟩ := (linked_iff importer).mpr ⟨m, listed, there⟩
      exact .inr ⟨j, List.mem_flatMap.mpr ⟨importer, close, listed'⟩, holds⟩

end Look

end Program

/-- Every node lies in its module. From a scope in a module, a name means all functions that the modules near it or
imported there declare, in the order of declaration; and the first type that the first such module declares. -/
theorem visible_functions_and_types {options : Options} {modules : List Tree.Module} {p : Program}
    {findings : List Diagnostic} (built : Program.construct options modules = .ok (p, findings)) :
    p.Follows (Tree.placed modules) ∧
    List.Forall₂ (fun i d => ∀ site ∈ p.sitesOf d, p.LiesIn i.module site.scope) (Tree.placed modules) p.declarations ∧
    ∀ module id, p.LiesIn module id → ∀ name,
      (p.scopes.findFunctions id name).Pairwise (fun f g => f.index < g.index) ∧
      (∀ f, f ∈ p.scopes.findFunctions id name ↔ Tree.ShowsFunction options modules module name f) ∧
      p.scopes.findType? id name = Tree.typeIn? options modules module name := by
  have formed := construct_formed built
  have lists := construct_lists built
  obtain ⟨rfl, ds, lexical⟩ := construct_lexical built
  refine ⟨⟨lexical.origins, lists.structs, (construct_seals built).types⟩, Program.sites_lie_in formed lexical, ?_⟩
  intro module id lies name
  exact ⟨ScopeTree.find_functions_sorted id name, Program.find_functions_lies formed lexical lists lies name,
    Program.find_type_lies formed lexical lists lies name⟩

/-- Three modules, of which each imports the next one. All of them declare `f`, and the last two declare `T`. -/
def Tree.relay : List Tree.Module :=
  let function (text : String) : Tree.Item :=
    .function ⟨⟨text, {}⟩, {}, none, [], none, some (.mk [Tree.used "x"] {}), {}⟩
  let struct (text : String) : Tree.Item := .struct ⟨⟨text, {}⟩, [], [], {}⟩
  let module (name : String) (imports : List String) (items : List Tree.Item) : Tree.Module :=
    { path := [⟨name, {}⟩], imports := imports.map (fun i => ⟨[⟨i, {}⟩], {}⟩), items, notices := [], span := {} }
  [module "a" ["b"] [function "f"], module "b" ["c"] [function "f", struct "T"],
    module "c" [] [function "f", struct "T", struct "U"]]

theorem relay_shows_the_next_module : ∃ p findings, Program.construct {} Tree.relay = .ok (p, findings) ∧
    ∃ site ∈ p.sitesOf (.function ⟨21⟩),
      ⟨21⟩ ∈ p.scopes.findFunctions site.scope "f" ∧ ⟨22⟩ ∈ p.scopes.findFunctions site.scope "f" ∧
      ⟨23⟩ ∉ p.scopes.findFunctions site.scope "f" ∧ p.scopes.findType? site.scope "T" = some ⟨6⟩ ∧
      p.scopes.findType? site.scope "U" = none := by
  have evaluated : (Program.construct {} Tree.relay).toOption.any (fun built =>
      decide (built.1.declarations.head? = some (.function ⟨21⟩) ∧
        (built.1.sitesOf (.function ⟨21⟩)).length ≠ 0)) = true := by decide +kernel
  obtain ⟨⟨p, findings⟩, built, first, some_sites⟩ := Running.ok_of_passed evaluated
  obtain ⟨site, here⟩ := List.exists_mem_of_length_pos (Nat.pos_of_ne_zero some_sites)
  obtain ⟨_, sites, looks⟩ := visible_functions_and_types built
  obtain ⟨rest, declarations⟩ := List.head?_eq_some_iff.mp first
  rw [declarations] at sites
  have lies : p.LiesIn "a" site.scope := (List.forall₂_cons.mp sites).1 site here
  refine ⟨p, findings, built, site, here, ?_, ?_, ?_, ?_, ?_⟩
  · exact ((looks "a" _ lies "f").2.1 ⟨21⟩).mpr ⟨"a", by decide +kernel, by decide +kernel⟩
  · exact ((looks "a" _ lies "f").2.1 ⟨22⟩).mpr ⟨"b", by decide +kernel, by decide +kernel⟩
  · rw [(looks "a" _ lies "f").2.1]
    unfold Tree.ShowsFunction
    decide +kernel
  · rw [(looks "a" _ lies "T").2.2]
    decide +kernel
  · rw [(looks "a" _ lies "U").2.2]
    decide +kernel

end SemanticAnalysis
