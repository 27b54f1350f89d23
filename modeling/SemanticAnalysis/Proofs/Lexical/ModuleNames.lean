import SemanticAnalysis.Draft
import SemanticAnalysis.Proofs.Lexical.Layout
/-!
Names of modules. A dotted text stands for the list of its non-empty segments, and nothing else about it matters: the
name that is read from it can be written and read again, and modules and imports are told apart by these lists alone.
-/
namespace SemanticAnalysis

/-- What stands between the dots of a text, without the empty parts. -/
def dotParts (text : String) : List (List Char) := (text.toList.splitOn '.').filter (fun part => !part.isEmpty)

def IsSegment (text : String) : Prop := text ≠ "" ∧ '.' ∉ text.toList

theorem pieces_split (cs : List Char) : pieces cs = cs.splitOn '.' := by
  induction cs with
  | nil => rfl
  | cons c rest ih =>
    unfold pieces
    unfold List.splitOn at ih ⊢
    rw [ih, List.splitOnP_cons_eq_if_modifyHead]
    by_cases dot : c = '.'
    · rw [if_pos dot, if_pos (beq_iff_eq.mpr dot)]
    · rw [if_neg dot, if_neg (by simpa using dot)]
      cases others : rest.splitOnP (· == '.') with
      | nil => exact absurd others (List.splitOn_ne_nil '.' rest)
      | cons first others => rfl

theorem segments_parts (text : String) : segments text = (dotParts text).map String.ofList := by
  unfold segments dotParts
  rw [pieces_split]

theorem segments_iff_parts {s t : String} : segments s = segments t ↔ dotParts s = dotParts t := by
  rw [segments_parts, segments_parts]
  have injective : Function.Injective String.ofList := fun a b same => by
    rw [← String.toList_ofList (l := a), same, String.toList_ofList]
  exact (List.map_injective_iff.mpr injective).eq_iff

theorem pieces_dotless (cs : List Char) : ∀ piece ∈ pieces cs, '.' ∉ piece := by
  induction cs with
  | nil => simp [pieces]
  | cons c rest ih =>
    unfold pieces
    split
    · simpa using ih
    · rename_i other
      split
      · simpa using Ne.symm other
      · rename_i first others known
        rw [known] at ih
        simpa [Ne.symm other] using ih

theorem segments_valid {text segment : String} (member : segment ∈ segments text) : IsSegment segment := by
  obtain ⟨piece, kept, rfl⟩ := List.mem_map.mp member
  obtain ⟨among, filled⟩ := List.mem_filter.mp kept
  constructor
  · intro empty
    rw [← String.toList_inj, String.toList_ofList] at empty
    rw [empty] at filled
    cases filled
  · rw [String.toList_ofList]
    exact pieces_dotless _ piece among

theorem dotted_chars (segments : List String) :
    (dotted segments).toList = ['.'].intercalate (segments.map String.toList) := by
  fun_induction dotted segments with
  | case1 => rfl
  | case2 segment => simp
  | case3 segment rest more ih =>
    cases rest with
    | nil => exact absurd rfl more
    | cons next others =>
      rw [String.toList_append, String.toList_append, ih]
      exact List.intercalate_cons_cons.symm

theorem segments_dotted {list : List String} (valid : ∀ segment ∈ list, IsSegment segment) :
    segments (dotted list) = list := by
  unfold segments
  rw [pieces_split, dotted_chars]
  cases list with
  | nil => rfl
  | cons first rest =>
    rw [List.splitOn_intercalate]
    · rw [List.filter_eq_self.mpr, List.map_map]
      · simp [Function.comp_def]
      · intro part member
        obtain ⟨segment, among, rfl⟩ := List.mem_map.mp member
        have filled := (valid segment among).1
        rw [Ne, ← String.toList_inj] at filled
        simpa using filled
    · intro part member
      obtain ⟨segment, among, rfl⟩ := List.mem_map.mp member
      exact (valid segment among).2
    · simp

theorem dotted_segments_inj {s t : String} (same : dotted (segments s) = dotted (segments t)) :
    segments s = segments t := by
  have back (text : String) : segments (dotted (segments text)) = segments text :=
    segments_dotted (fun _ => segments_valid)
  rw [← back s, same, back]

namespace QualifiedName

theorem text_dotted (q : QualifiedName) : q.text = dotted (q.package ++ [q.name]) := by
  obtain ⟨name, package⟩ := q
  unfold text
  induction package with
  | nil => rfl
  | cons segment rest ih =>
    rw [List.foldr_cons, ih]
    cases rest <;> rfl

theorem segments_text {q : QualifiedName} (valid : ∀ segment ∈ q.package ++ [q.name], IsSegment segment) :
    segments q.text = q.package ++ [q.name] := by
  rw [text_dotted, segments_dotted valid]

theorem of_segments {text name : String} {package : List String} (split : segments text = package ++ [name]) :
    ofDotted text = ⟨name, package⟩ := by
  unfold ofDotted
  rw [split, List.reverse_append, List.reverse_singleton]
  simp

theorem segments_read (text : String) : segments (ofDotted text).text = segments text := by
  rcases List.eq_nil_or_concat' (segments text) with none | ⟨package, name, split⟩
  · have read : ofDotted text = root "" := by
      unfold ofDotted
      rw [none]
      rfl
    rw [read, none]
    rfl
  · rw [of_segments split, split]
    apply segments_text
    intro segment member
    exact segments_valid (split ▸ member)

theorem of_dotted_congr {s t : String} (same : segments s = segments t) : ofDotted s = ofDotted t := by
  unfold ofDotted
  rw [same]

theorem of_dotted_iff {s t : String} : ofDotted s = ofDotted t ↔ segments s = segments t := by
  constructor
  · intro same
    rw [← segments_read s, same, segments_read]
  · exact of_dotted_congr

end QualifiedName

namespace Draft
open SemanticAnalysis.Numbering

theorem numbered_all {α β : Type} {f : α → Numbering β} {R : α → β → Prop} (each : ∀ x line, R x (f x line).1)
    (xs : List α) (line : Nat) : List.Forall₂ R xs (xs.mapM f line).1 := by
  induction xs generalizing line with
  | nil => exact .nil
  | cons x rest ih =>
    rw [List.mapM_cons]
    exact .cons (each x line) (ih (f x line).2)

theorem path_names (texts : List String) (line : Nat) : (path texts line).1.map Ident.name = texts := by
  have named := numbered_all (R := fun text (i : Ident) => i.name = text) (fun _ _ => rfl) texts line (f := ident)
  exact (related_map named (g := Ident.name) (f := id) (fun _ _ same => same.symm)).symm.trans (List.map_id _)

structure Names (d : Module) (m : Tree.Module) : Prop where
  name : m.name = dotted (segments d.name)
  imports : List.Forall₂ (fun text (i : Tree.Import) => i.target = dotted (segments text)) d.imports m.imports

theorem number_names (drafts : List Module) : List.Forall₂ Names drafts (number drafts).1 := by
  refine numbered_all (fun d line => ⟨?_, ?_⟩) drafts 1
  · exact congrArg dotted (path_names _ _)
  · exact numbered_all (f := numberImport) (fun text line => congrArg dotted (path_names _ _)) d.imports line

end Draft

structure Program.Imports (p : Program) (scope : ScopeId) (i : Tree.Import) (target : ScopeId) : Prop where
  found : p.scopes.findModule? i.target = some target
  listed : target ∈ p.scopes.importsOf scope

section Modules
variable {options : Options} {modules : List Tree.Module} {p : Program} {findings : List Diagnostic}

theorem construct_listed (built : Program.construct options modules = .ok (p, findings)) :
    List.Forall₂ (fun m b => p.scopes.findModule? m.name = some b.scope) modules p.modules :=
  (construct_yields (Construction.build_yields options modules) built).2

theorem import_listed (built : Program.construct options modules = .ok (p, findings)) {m : Tree.Module} {i : Tree.Import}
    {scope target : ScopeId} (among : m ∈ modules) (named : p.scopes.findModule? m.name = some scope)
    (written : i ∈ m.imports) (found : p.scopes.findModule? i.target = some target) : p.Imports scope i target := by
  refine ⟨found, ?_⟩
  obtain ⟨_, ds, lexical⟩ := construct_lexical built
  obtain ⟨s, there, _, _, _, imports⟩ := lexical.grounded.modules _ _ named
  rw [ScopeTree.imports_of_found there, imports]
  refine List.mem_eraseDups.mpr (List.mem_filterMap.mpr ⟨i.target, ?_, found⟩)
  exact List.mem_flatMap.mpr ⟨m, List.mem_filter.mpr ⟨among, beq_self_eq_true _⟩, List.mem_map_of_mem written⟩

theorem related_zip {α β γ : Type} {R : α → β → Prop} {S : β → γ → Prop} {xs : List α} {ys : List β} {zs : List γ}
    (first : List.Forall₂ R xs ys) (second : List.Forall₂ S ys zs) :
    List.Forall₂ (fun x e => R x e.1 ∧ S e.1 e.2) xs (ys.zip zs) := by
  induction first generalizing zs with
  | nil =>
    cases second
    exact .nil
  | cons here _ ih =>
    cases second with
    | cons there others => exact .cons ⟨here, there⟩ (ih others)

end Modules

/-- A name that was read from a text is read again from what is written for it, and so is every name of non-empty
segments without dots. Texts with the same non-empty segments, and no others, are read as the same name, name the same
module, and are the imports of that module. -/
theorem dotted_names_identify_modules :
    (∀ text, QualifiedName.ofDotted (QualifiedName.ofDotted text).text = QualifiedName.ofDotted text) ∧
    (∀ q : QualifiedName, (∀ segment ∈ q.package ++ [q.name], IsSegment segment) →
      QualifiedName.ofDotted q.text = q) ∧
    ∀ s t, (QualifiedName.ofDotted s = QualifiedName.ofDotted t ↔ dotParts s = dotParts t) ∧
      ∀ options drafts p findings, Program.construct options (Draft.number drafts).1 = .ok (p, findings) →
        p.modules.length = drafts.length ∧
        ∀ d tree m, (d, tree, m) ∈ drafts.zip ((Draft.number drafts).1.zip p.modules) → d.name = s →
          ∀ d' tree' m', (d', tree', m') ∈ drafts.zip ((Draft.number drafts).1.zip p.modules) →
            (d'.name = t → (m.scope = m'.scope ↔ dotParts s = dotParts t)) ∧
            ∀ i, (t, i) ∈ d'.imports.zip tree'.imports → (p.Imports m'.scope i m.scope ↔ dotParts s = dotParts t) := by
  refine ⟨?_, ?_, ?_⟩
  · exact fun text => QualifiedName.of_dotted_congr (QualifiedName.segments_read text)
  · exact fun q valid => QualifiedName.of_segments (QualifiedName.segments_text valid)
  · intro s t
    rw [← segments_iff_parts]
    refine ⟨QualifiedName.of_dotted_iff, ?_⟩
    intro options drafts p findings built
    have names := Draft.number_names drafts
    have listed := construct_listed built
    refine ⟨listed.length_eq.symm.trans names.length_eq.symm, ?_⟩
    rintro d tree m entry rfl d' tree' m' entry'
    obtain ⟨own, home⟩ := List.forall₂_zip (related_zip names listed) entry
    obtain ⟨own', home'⟩ := List.forall₂_zip (related_zip names listed) entry'
    obtain ⟨_, ds, lexical⟩ := construct_lexical built
    rw [own.name] at home
    constructor
    · rintro rfl
      have there := home'
      rw [own'.name] at there
      constructor
      · intro same
        rw [← same] at there
        exact dotted_segments_inj (lexical.grounded.apart _ _ _ home there)
      · intro same
        rw [same, there] at home
        exact (Option.some.inj home).symm
    · intro i written
      have target := List.forall₂_zip own'.imports written
      constructor
      · intro imports
        have found := imports.found
        rw [target] at found
        exact dotted_segments_inj (lexical.grounded.apart _ _ _ home found)
      · intro same
        rw [same, ← target] at home
        exact import_listed built (List.of_mem_zip (List.of_mem_zip entry').2).1 home' (List.of_mem_zip written).2 home

def Draft.spellings : List Draft.Module :=
  [{ name := "app.core" }, { name := ".app..core", imports := ["app.core.", "core"] }]

theorem spellings_name_one_module :
    QualifiedName.ofDotted (QualifiedName.text ⟨"core", ["app"]⟩) = ⟨"core", ["app"]⟩ ∧
    ∃ p findings m m' i j, Program.construct {} (Draft.number Draft.spellings).1 = .ok (p, findings) ∧
      p.modules = [m, m'] ∧ m.scope = m'.scope ∧ p.Imports m'.scope i m.scope ∧ ¬p.Imports m'.scope j m.scope := by
  obtain ⟨_, again, named⟩ := dotted_names_identify_modules
  refine ⟨again _ (by simp [IsSegment]), ?_⟩
  have evaluated : (Program.construct {} (Draft.number Draft.spellings).1).toOption.isSome = true := by decide +kernel
  cases built : Program.construct {} (Draft.number Draft.spellings).1 with
  | error e =>
    rw [built] at evaluated
    cases evaluated
  | ok result =>
    obtain ⟨p, findings⟩ := result
    have names := Draft.number_names Draft.spellings
    obtain ⟨tree, tree', trees⟩ := List.length_eq_two.mp names.length_eq.symm
    rw [trees] at names
    obtain ⟨i, j, imports⟩ := List.length_eq_two.mp (List.forall₂_zip names (.tail _ (.head _))).imports.length_eq.symm
    obtain ⟨m, m', listed⟩ := List.length_eq_two.mp ((named "" "").2 _ _ p findings built).1
    have told (t : String) := ((named "app.core" t).2 _ _ p findings built).2 _ tree m
      (by rw [trees, listed]; exact .head _) rfl _ tree' m' (by rw [trees, listed]; exact .tail _ (.head _))
    rw [imports] at told
    refine ⟨p, findings, m, m', i, j, rfl, listed, ?_, ?_, ?_⟩
    · exact ((told ".app..core").1 rfl).mpr (by decide +kernel)
    · exact ((told "app.core.").2 i (.head _)).mpr (by decide +kernel)
    · exact mt ((told "core").2 j (.tail _ (.head _))).mp (by decide +kernel)

end SemanticAnalysis
