import Mathlib.Data.List.Induction
import SemanticAnalysis.Proofs.Scope.Frames
import SemanticAnalysis.Proofs.Scope.Modules
/-!
What modules list. Functions and types have numbers that run through all modules, so a table of modules and names says
what each of them lists. From a scope below a module one finds what the modules near it list and what their imports do.
Other scopes list neither functions nor types.
-/
namespace SemanticAnalysis

section Table
variable {ι : Type} (make : Nat → ι) (table : List (String × String)) (module : String)

def entriesOf : List (String × ι) :=
  (table.zipIdx.filter (fun entry => entry.1.1 == module)).map (fun entry => (entry.1.2, make entry.2))

variable {make table module}

theorem entries_snoc (name other : String) : entriesOf make (table ++ [(module, name)]) other =
    entriesOf make table other ++ (if module = other then [(name, make table.length)] else []) := by
  unfold entriesOf
  rw [List.zipIdx_append, List.filter_append, List.map_append]
  congr 1
  by_cases same : module = other <;> simp [same]

theorem entries_absent (absent : ∀ entry ∈ table, entry.1 ≠ module) : entriesOf make table module = [] := by
  unfold entriesOf
  rw [List.filter_eq_nil_iff.mpr, List.map_nil]
  rintro ⟨entry, k⟩ member
  simpa using absent entry (List.fst_mem_of_mem_zipIdx member)

theorem entries_member {name : String} {i : ι} :
    (name, i) ∈ entriesOf make table module ↔ ∃ k : Nat, table[k]? = some (module, name) ∧ make k = i := by
  constructor
  · intro member
    obtain ⟨⟨⟨owner, text⟩, k⟩, kept, same⟩ := List.mem_map.mp member
    obtain ⟨listed, owned⟩ := List.mem_filter.mp kept
    have owned : owner = module := by simpa using owned
    obtain ⟨rfl, rfl⟩ := Prod.mk.inj same
    exact ⟨k, owned ▸ List.mem_zipIdx_iff_getElem?.mp listed, rfl⟩
  · rintro ⟨k, found, rfl⟩
    refine List.mem_map.mpr ⟨((module, name), k), List.mem_filter.mpr ⟨?_, by simp⟩, rfl⟩
    exact List.mem_zipIdx_iff_getElem?.mpr found

theorem lookup_entries (name : String) :
    (entriesOf make table module).lookup name = (table.idxOf? (module, name)).map make := by
  induction table using List.reverseRecOn with
  | nil => rfl
  | append_singleton table entry ih =>
    obtain ⟨owner, text⟩ := entry
    have index : (table ++ [(owner, text)]).idxOf? (module, name) = (table.idxOf? (module, name)).or
        (if owner = module ∧ text = name then some table.length else none) := by
      unfold List.idxOf?
      rw [List.findIdx?_append]
      by_cases same : owner = module ∧ text = name <;> simp [same, List.findIdx?_cons]
    rw [entries_snoc, List.lookup_append, ih, index, Option.map_or]
    congr 1
    by_cases owned : owner = module
    · by_cases named : text = name
      · simp [owned, named]
      · simp [owned, named, List.lookup_cons, beq_false_of_ne (Ne.symm named)]
    · simp [owned]

end Table

namespace ScopeTree

variable {t : ScopeTree} {above : ScopeId} {visible : String → List (String × VariableId)}
  {imports : String → List ScopeId} {P Q : String → Scope → Prop}

def EachModule (t : ScopeTree) (P : String → Scope → Prop) : Prop :=
  ∀ name id, t.findModule? name = some id → ∃ s, t.get? id = some s ∧ P name s

theorem each_module_push (each : t.EachModule P) (s : Scope) : (t.push s).2.EachModule P := by
  intro name id named
  obtain ⟨r, found, holds⟩ := each name id named
  exact ⟨r, get_push_old found, holds⟩

theorem each_module_modify (each : t.EachModule P) (grounded : t.Grounded above visible imports) {module : String}
    {home : ScopeId} (named : t.findModule? module = some home) {f : Scope → Scope}
    (here : ∀ s, P module s → Q module (f s)) (others : ∀ other s, other ≠ module → P other s → Q other s) :
    (t.modify home f).EachModule Q := by
  intro name id named'
  change t.findModule? name = some id at named'
  obtain ⟨s, found, holds⟩ := each name id named'
  rw [get_modify]
  by_cases same : name = module
  · subst same
    rw [named] at named'
    cases named'
    rw [if_pos rfl, found]
    exact ⟨f s, rfl, here s holds⟩
  · have apart : id ≠ home := by
      rintro rfl
      exact same (grounded.apart _ _ _ named' named)
    rw [if_neg apart]
    exact ⟨s, found, others name s same holds⟩

theorem each_module_scope (each : t.EachModule P) (name : String) (parent : ScopeId)
    (new : t.findModule? name = none →
      P name { kind := .module, parent := some parent, home := some ⟨t.size⟩ }) :
    (t.moduleScope name parent).2.EachModule P := by
  cases known : t.findModule? name with
  | some id =>
    rw [module_scope_known known]
    exact each
  | none =>
    unfold moduleScope
    rw [known]
    intro other id named
    rcases lookup_snoc named with old | ⟨rfl, rfl⟩
    · exact each_module_push each _ other id old
    · exact ⟨_, get_push_new _, new known⟩

def Lists (t : ScopeTree) (functions types : List (String × String)) : Prop :=
  t.EachModule (fun module s =>
    s.functions = entriesOf FunctionId.mk functions module ∧ s.types = entriesOf TypeId.mk types module)

section Lists
variable {functions types : List (String × String)} (lists : t.Lists functions types)

theorem lists_initial : initial.Lists [] [] := by
  intro name id named
  obtain ⟨s, found, _⟩ := (grounded_initial (.inl rfl)).modules name id named
  refine ⟨s, found, ?_⟩
  have there : id.index < 3 := get_some_index found
  obtain ⟨index⟩ := id
  obtain rfl | rfl | rfl : index = 0 ∨ index = 1 ∨ index = 2 := by
    dsimp only at there
    omega
  all_goals
    cases found
    exact ⟨rfl, rfl⟩

include lists

theorem lists_modify (home : ScopeId) {f : Scope → Scope}
    (same : ∀ s, (f s).functions = s.functions ∧ (f s).types = s.types) : (t.modify home f).Lists functions types := by
  intro name id named
  obtain ⟨s, found, ofFunctions, ofTypes⟩ := lists name id named
  rw [get_modify]
  split
  · exact ⟨f s, by rw [found]; rfl, (same s).1.trans ofFunctions, (same s).2.trans ofTypes⟩
  · exact ⟨s, found, ofFunctions, ofTypes⟩

theorem lists_module_scope (module : String) (parent : ScopeId) (absent : t.findModule? module = none →
    (∀ entry ∈ functions, entry.1 ≠ module) ∧ ∀ entry ∈ types, entry.1 ≠ module) :
    (t.moduleScope module parent).2.Lists functions types := by
  apply each_module_scope lists
  intro new
  exact ⟨(entries_absent (absent new).1).symm, (entries_absent (absent new).2).symm⟩

section Add
variable (grounded : t.Grounded above visible imports) {module : String} {home : ScopeId}
  (named : t.findModule? module = some home) (name : String)
include grounded named

theorem lists_add_function :
    (t.addFunction home name ⟨functions.length⟩).Lists (functions ++ [(module, name)]) types := by
  refine each_module_modify lists grounded named ?_ ?_
  · rintro s ⟨ofFunctions, ofTypes⟩
    rw [entries_snoc, if_pos rfl]
    exact ⟨by rw [← ofFunctions], ofTypes⟩
  · rintro other s different ⟨ofFunctions, ofTypes⟩
    rw [entries_snoc, if_neg (Ne.symm different), List.append_nil]
    exact ⟨ofFunctions, ofTypes⟩

theorem lists_add_type : (t.addType home name ⟨types.length⟩).Lists functions (types ++ [(module, name)]) := by
  refine each_module_modify lists grounded named ?_ ?_
  · rintro s ⟨ofFunctions, ofTypes⟩
    rw [entries_snoc, if_pos rfl]
    exact ⟨ofFunctions, by rw [← ofTypes]⟩
  · rintro other s different ⟨ofFunctions, ofTypes⟩
    rw [entries_snoc, if_neg (Ne.symm different), List.append_nil]
    exact ⟨ofFunctions, ofTypes⟩

end Add

theorem own_type_listed {module : String} {id : ScopeId} (named : t.findModule? module = some id) (name : String) :
    t.ownType? id name = (types.idxOf? (module, name)).map TypeId.mk := by
  obtain ⟨s, found, _, ofTypes⟩ := lists module id named
  rw [ownType?, found, Option.bind_some, Scope.findType?, ofTypes, lookup_entries]

theorem holds_listed {module : String} {id : ScopeId} (named : t.findModule? module = some id) {name : String}
    {f : FunctionId} : t.Holds id name f ↔ functions[f.index]? = some (module, name) := by
  obtain ⟨s, found, ofFunctions, _⟩ := lists module id named
  have entries : (name, f) ∈ s.functions ↔ functions[f.index]? = some (module, name) := by
    rw [ofFunctions, entries_member]
    constructor
    · rintro ⟨k, there, rfl⟩
      exact there
    · exact fun there => ⟨f.index, there, rfl⟩
  rw [← entries]
  constructor
  · rintro ⟨r, found', member⟩
    rw [found] at found'
    cases found'
    exact member
  · exact fun member => ⟨s, found, member⟩

end Lists

section Search
variable (framed : t.Framed) (grounded : t.Grounded above visible imports) {module : String} {home id : ScopeId}
  (named : t.findModule? module = some home) {before : List ScopeId} (path : t.path id = before ++ t.path home)
  (inner : ∀ j ∈ before, ¬t.IsModule j)
include framed path inner

theorem before_plain {j : ScopeId} (member : j ∈ before) : ∃ s, t.get? j = some s ∧ s.Plain := by
  obtain ⟨s, found⟩ : ∃ s, t.get? j = some s := path_member (path ▸ List.mem_append_left _ member)
  exact ⟨s, found, framed.plain j s found (fun kind => inner j member ⟨s, found, kind⟩)⟩

theorem before_closed (j : ScopeId) (member : j ∈ before) : t.importsOf j = [] := by
  obtain ⟨s, found, plain⟩ := before_plain framed path inner member
  rw [imports_of_found found, plain.imports]

variable {functions types : List (String × String)} (lists : t.Lists functions types)
include grounded named lists

theorem find_type_near (name : String) :
    t.findType? id name = ((near above module).findSome? (fun m => (types.idxOf? (m, name)).map TypeId.mk)).or
      (((near above module).flatMap imports).findSome? (fun j => t.ownType? j name)) := by
  have found : ∀ m ∈ near above module,
      (t.findModule? m).bind (fun j => t.ownType? j name) = (types.idxOf? (m, name)).map TypeId.mk := by
    intro m member
    obtain ⟨j, known⟩ := near_named grounded named member
    rw [known, Option.bind_some, own_type_listed lists known]
  rw [find_type_path, search_near grounded named path ?_ (before_closed framed path inner) ?_ ?_, find_some_congr found]
  · intro j member
    obtain ⟨s, found, plain⟩ := before_plain framed path inner member
    rw [ownType?, found, Option.bind_some, Scope.findType?, plain.types]
    rfl
  · rw [ownType?, grounded.program]
    rfl
  · rw [ownType?, grounded.root]
    rfl

theorem find_functions_near (name : String) (f : FunctionId) :
    f ∈ t.findFunctions id name ↔ (∃ m ∈ near above module, functions[f.index]? = some (m, name)) ∨
      ∃ j ∈ (near above module).flatMap imports, t.Holds j name f := by
  have silent : ∀ j s, t.get? j = some s → s.functions = [] → ¬t.Holds j name f := by
    rintro j s found none ⟨r, found', member⟩
    rw [found] at found'
    cases found'
    rw [none] at member
    cases member
  rw [find_functions_path, path, path_near grounded named, imported_near grounded named path
    (before_closed framed path inner)]
  constructor
  · rintro ⟨j, listed, holds⟩
    simp only [List.mem_append, List.mem_eraseDups, List.mem_filterMap, List.mem_cons, List.not_mem_nil,
      or_false] at listed
    rcases listed with (within | ⟨m, member, known⟩ | rfl | rfl) | imported
    · obtain ⟨s, found, plain⟩ := before_plain framed path inner within
      exact absurd holds (silent j s found plain.functions)
    · exact .inl ⟨m, member, (holds_listed lists known).mp holds⟩
    · exact absurd holds (silent _ _ grounded.program rfl)
    · exact absurd holds (silent _ _ grounded.root rfl)
    · exact .inr ⟨j, imported, holds⟩
  · rintro (⟨m, member, listed⟩ | ⟨j, imported, holds⟩)
    · obtain ⟨j, known⟩ := near_named grounded named member
      refine ⟨j, ?_, (holds_listed lists known).mpr listed⟩
      simp only [List.mem_append, List.mem_eraseDups, List.mem_filterMap]
      exact .inl (.inr (.inl ⟨m, member, known⟩))
    · exact ⟨j, List.mem_append_right _ (List.mem_eraseDups.mpr imported), holds⟩

end Search

end ScopeTree

end SemanticAnalysis
