import SemanticAnalysis.Proofs.Lexical.Layout
import SemanticAnalysis.Proofs.Scope.Stock
/-!
What the modules of a constructed program list. Every function and every type is listed under its name in the scope of
its module when it is declared, with the number that is next. So two tables, which follow from the text, say what each
module lists. Whatever happens after the declarations lists no more functions and types.
-/
namespace SemanticAnalysis
open SemanticAnalysis.Bound Construction ScopeTree

namespace Tree

def Placed.function? (i : Placed) : Option (String × String) :=
  match i.item with
  | .function decl => some (i.module, decl.name.name)
  | _ => none

def Placed.struct? (i : Placed) : Option (String × StructDecl) :=
  match i.item with
  | .struct decl => some (i.module, decl)
  | _ => none

def structs (items : List Placed) : List (String × StructDecl) := items.filterMap Placed.struct?

/-- The functions of a program in the order of declaration, each with its module. -/
def functionTable (items : List Placed) : List (String × String) :=
  BuiltinFunction.all.map (fun b => (ScopeTree.builtinModule, b.name)) ++ items.filterMap Placed.function?

def typeTable (items : List Placed) : List (String × String) :=
  TypeHierarchy.builtins.defs.toList.map (fun d => (ScopeTree.builtinModule, d.name.name)) ++
    (structs items).map (fun entry => (entry.1, entry.2.name.name))

theorem function_table_snoc (items : List Placed) (i : Placed) :
    functionTable (items ++ [i]) = functionTable items ++ i.function?.toList := by
  unfold functionTable
  rw [List.filterMap_append, List.append_assoc]
  cases here : i.function? <;> simp [here]

theorem structs_snoc (items : List Placed) (i : Placed) :
    structs (items ++ [i]) = structs items ++ i.struct?.toList := by
  unfold structs
  rw [List.filterMap_append]
  cases here : i.struct? <;> simp [here]

theorem type_table_snoc (items : List Placed) (i : Placed) :
    typeTable (items ++ [i]) = typeTable items ++ i.struct?.toList.map (fun entry => (entry.1, entry.2.name.name)) := by
  unfold typeTable
  rw [structs_snoc, List.map_append, List.append_assoc]

theorem function_table_module {items : List Placed} {entry : String × String} (member : entry ∈ functionTable items) :
    entry.1 = ScopeTree.builtinModule ∨ ∃ i ∈ items, i.module = entry.1 := by
  rcases List.mem_append.mp member with builtin | declared
  · obtain ⟨b, _, rfl⟩ := List.mem_map.mp builtin
    exact .inl rfl
  · obtain ⟨⟨module, item⟩, there, same⟩ := List.mem_filterMap.mp declared
    refine .inr ⟨_, there, ?_⟩
    cases item <;> cases same
    rfl

theorem type_table_module {items : List Placed} {entry : String × String} (member : entry ∈ typeTable items) :
    entry.1 = ScopeTree.builtinModule ∨ ∃ i ∈ items, i.module = entry.1 := by
  rcases List.mem_append.mp member with builtin | declared
  · obtain ⟨d, _, rfl⟩ := List.mem_map.mp builtin
    exact .inl rfl
  · obtain ⟨_, inside, rfl⟩ := List.mem_map.mp declared
    obtain ⟨⟨module, item⟩, there, same⟩ := List.mem_filterMap.mp inside
    refine .inr ⟨_, there, ?_⟩
    cases item <;> cases same
    rfl

end Tree

namespace Program

/-- Module scopes list the functions and types of some items. -/
structure Stocked (p : Program) (items : List Tree.Placed) : Prop where
  lists : p.scopes.Lists (Tree.functionTable items) (Tree.typeTable items)
  functions : p.functions.size = (Tree.functionTable items).length
  types : p.types.size = (Tree.typeTable items).length
  structs : p.structs.toList.map Struct.decl = (Tree.structs items).map Prod.snd

theorem tables_absent {t : ScopeTree} {items : List Tree.Placed}
    (builtin : t.findModule? ScopeTree.builtinModule = some .builtin)
    (known : ∀ i ∈ items, ∃ home, t.findModule? i.module = some home) {module : String}
    (absent : t.findModule? module = none) :
    (∀ entry ∈ Tree.functionTable items, entry.1 ≠ module) ∧ ∀ entry ∈ Tree.typeTable items, entry.1 ≠ module := by
  have other : ∀ m, m = ScopeTree.builtinModule ∨ (∃ i ∈ items, i.module = m) → m ≠ module := by
    rintro m (itself | ⟨i, there, same⟩) rfl
    · rw [itself, builtin] at absent
      cases absent
    · obtain ⟨home, found⟩ := known i there
      rw [same, absent] at found
      cases found
  exact ⟨fun entry member => other _ (Tree.function_table_module member),
    fun entry member => other _ (Tree.type_table_module member)⟩

end Program

namespace Construction
open Program

variable {p : Program} {items : List Tree.Placed} {ds : List Declared} {imports : String → List ScopeId}
  {visible : String → Tree.Visible} {module : String} {home : ScopeId}

section Declare
variable (stocked : p.Stocked items) (grounded : p.scopes.Grounded p.above visible imports)
  (named : p.scopes.findModule? module = some home) (package : List String)
include stocked grounded named

theorem declare_function_stocks (decl : Tree.FunctionDecl) :
    Yields (declareItem package home (.function decl)) p (fun _ q =>
      q.Stocked (items ++ [⟨module, .function decl⟩])) := by
  have functions := Tree.function_table_snoc items ⟨module, .function decl⟩
  have structs := Tree.structs_snoc items ⟨module, .function decl⟩
  have types := Tree.type_table_snoc items ⟨module, .function decl⟩
  simp only [Tree.Placed.function?, Tree.Placed.struct?, Option.toList_some, Option.toList_none, List.map_nil,
    List.append_nil] at functions structs types
  refine yields_done rfl ?_
  constructor
  · rw [functions, types, stocked.functions]
    exact lists_add_function (each_module_push stocked.lists _)
      (grounded_derive grounded named _) named _
  · rw [functions, Array.size_push, stocked.functions, List.length_append]
    rfl
  · rw [types]
    exact stocked.types
  · rw [structs]
    exact stocked.structs

omit grounded named in
theorem declare_variable_stocks (decl : Tree.VariableDecl) :
    Yields (declareItem package home (.variable decl)) p (fun _ q =>
      q.Stocked (items ++ [⟨module, .variable decl⟩])) := by
  have functions := Tree.function_table_snoc items ⟨module, .variable decl⟩
  have structs := Tree.structs_snoc items ⟨module, .variable decl⟩
  have types := Tree.type_table_snoc items ⟨module, .variable decl⟩
  simp only [Tree.Placed.function?, Tree.Placed.struct?, Option.toList_none, List.map_nil, List.append_nil]
    at functions structs types
  refine yields_bind (bind_option_places home decl.initializer) ?_
  rintro initializer r ⟨same, _⟩
  refine yields_done rfl ?_
  rw [same]
  constructor
  · rw [functions, types]
    exact lists_modify stocked.lists home (fun _ => ⟨rfl, rfl⟩)
  · rw [functions]
    exact stocked.functions
  · rw [types]
    exact stocked.types
  · rw [structs]
    exact stocked.structs

theorem declare_struct_stocks (decl : Tree.StructDecl) :
    Yields (declareItem package home (.struct decl)) p (fun _ q =>
      q.Stocked (items ++ [⟨module, .struct decl⟩])) := by
  have functions := Tree.function_table_snoc items ⟨module, .struct decl⟩
  have structs := Tree.structs_snoc items ⟨module, .struct decl⟩
  have types := Tree.type_table_snoc items ⟨module, .struct decl⟩
  simp only [Tree.Placed.function?, Tree.Placed.struct?, Option.toList_some, Option.toList_none, List.map_cons,
    List.map_nil, List.append_nil] at functions structs types
  change Yields (declareStruct package home decl) p _
  refine yields_step (a := p) (t := p) rfl (yields_step rfl (yields_step rfl ?_))
  refine yields_bind (bind_members_yield _ decl.members) ?_
  rintro members r ⟨same, _⟩
  refine yields_done rfl ?_
  rw [same]
  constructor
  · rw [functions, types]
    apply each_module_push
    have added := lists_add_type stocked.lists grounded named decl.name.name
    rw [← stocked.types] at added
    exact added
  · rw [functions]
    exact stocked.functions
  · rw [types, List.length_append, ← stocked.types]
    simp [TypeHierarchy.size]
  · rw [structs, Array.toList_push, List.map_append, stocked.structs, List.map_append]
    rfl

theorem declare_item_stocks (item : Tree.Item) :
    Yields (declareItem package home item) p (fun _ q => q.Stocked (items ++ [⟨module, item⟩])) :=
  match item with
  | .function decl => declare_function_stocks stocked grounded named package decl
  | .variable decl => declare_variable_stocks stocked package decl
  | .struct decl => declare_struct_stocks stocked grounded named package decl

end Declare

theorem stocked_carried : Carried (fun items _ q => q.Stocked items) := by
  constructor
  · intro items ds q m lays stocked
    have known : ∀ i ∈ items, ∃ home, q.scopes.findModule? i.module = some home := by
      intro i there
      obtain ⟨d, _, home, found, _⟩ := related_left lays.laid there
      exact ⟨home, found⟩
    exact ⟨lists_module_scope stocked.lists m.name q.above (fun absent =>
      tables_absent lays.grounded.builtin known absent), stocked.functions, stocked.types, stocked.structs⟩
  · intro items ds q home m item lays named stocked
    exact yields_weaken (declare_item_stocks stocked lays.grounded named m.package item) (fun _ _ holds _ => holds)
  · intro items ds q modules stocked
    exact ⟨stocked.lists, stocked.functions, stocked.types, stocked.structs⟩

theorem add_types_list {t : ScopeTree} {above : ScopeId} (grounded : t.Grounded above visible imports)
    (defs : List TypeDef) {functions types : List (String × String)} (lists : t.Lists functions types) :
    ((defs.zipIdx types.length).foldl (fun scopes entry => scopes.addType .builtin entry.1.name.name ⟨entry.2⟩) t).Lists
      functions (types ++ defs.map (fun d => (ScopeTree.builtinModule, d.name.name))) := by
  induction defs generalizing t types with
  | nil =>
    rw [List.map_nil, List.append_nil]
    exact lists
  | cons d defs ih =>
    have added := lists_add_type lists grounded grounded.builtin d.name.name
    have grounded' : (t.addType .builtin d.name.name ⟨types.length⟩).Grounded above visible imports :=
      grounded_modify grounded grounded.builtin (fun _ => ⟨rfl, rfl⟩) (fun _ vars => vars)
        (fun _ imported => imported) (fun _ _ => ⟨rfl, rfl⟩)
    have rest := ih grounded' added
    rw [List.length_append, List.append_assoc] at rest
    exact rest

theorem declare_builtins_stock (options : Options) :
    Yields declareBuiltins ({ options } : Program) (fun _ q => q.Stocked []) := by
  let types := TypeHierarchy.builtins.defs.toList.map (fun d => (ScopeTree.builtinModule, d.name.name))
  let J : List BuiltinFunction → Program → Prop := fun done q =>
    q.scopes.Grounded q.above (Tree.visibleIn []) (fun _ => []) ∧ q.types = TypeHierarchy.builtins ∧ q.structs = #[] ∧
      q.functions.size = done.length ∧
      q.scopes.Lists (done.map (fun b => (ScopeTree.builtinModule, b.name))) types
  have typed := add_types_list (grounded_initial (.inl rfl)) TypeHierarchy.builtins.defs.toList
    lists_initial
  rw [List.nil_append, List.length_nil] at typed
  refine yields_step rfl (yields_weaken (yields_for (J := J) BuiltinFunction.all ?_ ?_) ?_)
  · refine ⟨add_types_yield _ (grounded_initial ?_), rfl, rfl, rfl, typed⟩
    unfold above
    split
    · exact .inr rfl
    · exact .inl rfl
  · rintro done b rest q _ ⟨grounded, hierarchy, structs, size, lists⟩
    refine yields_bind (yields_and (new_function_yields grounded grounded.builtin b.name (.builtin b))
      (yields_done rfl (P := fun _ r => r.scopes
        = (q.scopes.derive .builtin (.function ⟨q.functions.size⟩)).2.addFunction .builtin b.name ⟨q.functions.size⟩)
        rfl)) ?_
    rintro id r ⟨⟨f, _, _, _, same, keeps, _, grounded'⟩, scopes⟩
    refine yields_pure ⟨?_, ?_, ?_, ?_, ?_⟩
    · rw [above, keeps.options]
      exact grounded'
    · rw [same]
      exact hierarchy
    · rw [same]
      exact structs
    · rw [same, Array.size_push, size, List.length_append, List.length_singleton]
    · have added := lists_add_function (each_module_push lists _)
        (grounded_derive grounded grounded.builtin (.function ⟨q.functions.size⟩)) grounded.builtin b.name
      rw [List.length_map, ← size] at added
      rw [scopes, List.map_append]
      exact added
  · rintro _ q ⟨_, hierarchy, structs, size, lists⟩
    constructor
    · simpa [Tree.functionTable, Tree.typeTable, Tree.structs] using lists
    · simp [Tree.functionTable, size]
    · simp [Tree.typeTable, Tree.structs, hierarchy, TypeHierarchy.size]
    · simp [structs, Tree.structs]

theorem resolve_imports_stock (stocked : p.Stocked items) (entries : List (Tree.Module × (ScopeId × List Declared))) :
    Yields (entries.mapM (fun entry => entry.1.imports.mapM (resolveImport entry.2.1))) p (fun _ q =>
      q.Stocked items) := by
  refine yields_weaken (yields_imports (I := fun q => q.Stocked items) (D := fun _ => True) entries stocked ?_)
    (fun _ _ holds => holds.1)
  intro scope i q stocked'
  refine yields_import scope i (fun _ => ⟨stocked', fun _ _ => trivial⟩) (fun imported _ => ⟨?_, fun _ _ => trivial⟩)
  refine ⟨lists_modify stocked'.lists scope ?_, stocked'.functions, stocked'.types, stocked'.structs⟩
  intro s
  split <;> exact ⟨rfl, rfl⟩

end Construction

namespace Program

structure ListsAs (p : Program) (items : List Tree.Placed) : Prop where
  lists : p.scopes.Lists (Tree.functionTable items) (Tree.typeTable items)
  structs : p.structs.toList.map Struct.decl = (Tree.structs items).map Prod.snd

end Program

namespace Construction
open Program

theorem build_lists (options : Options) (modules : List Tree.Module) :
    Yields (build modules) ({ options } : Program) (fun _ q => q.ListsAs (Tree.placed modules)) := by
  refine yields_bind (yields_and (declare_builtins_yield options) (declare_builtins_stock options)) ?_
  rintro _ p ⟨⟨start, none, _⟩, stocked⟩
  refine yields_bind (declare_modules_carry stocked_carried start none stocked modules) ?_
  rintro rs q ⟨⟨lays, named, _⟩, stocked'⟩
  refine yields_bind (yields_and (resolve_imports_yield lays named)
    (resolve_imports_stock stocked' (modules.zip rs))) ?_
  rintro unresolved r ⟨⟨lays', _⟩, stocked''⟩
  refine yields_bind (seal_items_yield (rs.flatMap Prod.snd)) ?_
  rintro rejected u sealed
  refine yields_bind (bind_laid_yield (lays_types lays' sealed)) ?_
  rintro _ w ends
  have module_untouched : ¬ScopesOf (rs.flatMap Prod.snd) .module := by
    rintro ⟨n, _, same⟩
    cases same
  have outline := ends.keeps.outline module_untouched
  refine yields_pure ⟨?_, ?_⟩
  · intro name id known
    have scopes : u.scopes = r.scopes := by rw [sealed]
    rw [ScopeTree.findModule?, outline.names, scopes] at known
    obtain ⟨s, found, lists⟩ := stocked''.lists name id known
    have kind := home_kind lays'.grounded known s found
    rw [← scopes] at found
    exact ⟨s, ends.keeps.scopes id s (by rw [kind]; exact module_untouched) found, lists⟩
  · rw [outline.structs, sealed]
    exact stocked''.structs

end Construction

theorem construct_lists {options : Options} {modules : List Tree.Module} {p : Program} {findings : List Diagnostic}
    (built : Program.construct options modules = .ok (p, findings)) : p.ListsAs (Tree.placed modules) :=
  construct_yields (build_lists options modules) built

end SemanticAnalysis
