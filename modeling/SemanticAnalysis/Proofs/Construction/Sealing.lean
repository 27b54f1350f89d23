import Mathlib.Data.List.Nodup
import SemanticAnalysis.Proofs.Lexical.Layout
import SemanticAnalysis.Proofs.Construction.Soundness
import SemanticAnalysis.Proofs.Types.Sealing
/-!
The supertypes of structs. Declaring a struct makes a type of its own that extends nothing yet. Sealing then goes
through the structs in the order of their declaration and attaches what they write, so that it is known of each written
supertype whether it was unknown, attached or left out because of a cycle.
-/
namespace SemanticAnalysis
open Relation TypeHierarchy
open SemanticAnalysis.Bound Construction

namespace Construction

def Declared.draft? : Declared → Option (TypeId × ScopeId × Tree.StructDecl)
  | .struct _ type home decl => some (type, home, decl)
  | _ => none

end Construction

namespace Program

structure Drawn (p : Program) (s : Struct) (d : TypeId × ScopeId × Tree.StructDecl) : Prop where
  type : s.type = d.1
  decl : s.decl = d.2.2
  members : s.members.map Member.decl = s.decl.members
  named : ∃ module, p.scopes.findModule? module = some d.2.1
  scope : ∃ scope, p.scopes.get? s.scope = some scope ∧ scope.kind = .struct s.id ∧ scope.parent = some d.2.1 ∧
    scope.types = [] ∧ scope.imports = []

/-- Every struct has a type of its own, to which nothing was attached yet. -/
structure Drafted (p : Program) (ds : List Declared) : Prop where
  size : p.types.size = TypeHierarchy.builtins.size + p.structs.size
  plain : ∀ t, p.types.supertypesOf t = TypeHierarchy.builtins.supertypesOf t
  types : p.structs.toList.map Struct.type
    = (List.range p.structs.size).map (fun k => ⟨TypeHierarchy.builtins.size + k⟩)
  table : ∀ k < p.structs.size, p.structTypes.find? ⟨TypeHierarchy.builtins.size + k⟩ = some ⟨k⟩
  drawn : List.Forall₂ p.Drawn p.structs.toList (ds.filterMap Declared.draft?)

variable {p q : Program} {touched : ScopeKind → Prop} {ds : List Declared}

theorem drawn_keeps (keeps : p.Keeps touched q) (structs : ∀ id, ¬touched (.struct id)) {s : Struct}
    {d : TypeId × ScopeId × Tree.StructDecl} (drawn : p.Drawn s d) : q.Drawn s d := by
  obtain ⟨module, named⟩ := drawn.named
  obtain ⟨scope, found, kind, rest⟩ := drawn.scope
  constructor
  · exact drawn.type
  · exact drawn.decl
  · exact drawn.members
  · exact ⟨module, keeps.modules _ _ named⟩
  · refine ⟨scope, keeps.scopes _ _ ?_ found, kind, rest⟩
    rw [kind]
    exact structs s.id

theorem drafted_frame (drafted : p.Drafted ds) (keeps : p.Keeps touched q) (unlike : ∀ id, ¬touched (.struct id))
    (types : q.types = p.types) (structs : q.structs = p.structs) (table : q.structTypes = p.structTypes) :
    q.Drafted ds := by
  constructor
  · rw [types, structs]
    exact drafted.size
  · rw [types]
    exact drafted.plain
  · rw [structs]
    exact drafted.types
  · rw [structs, table]
    exact drafted.table
  · rw [structs]
    exact drafted.drawn.imp (fun s d => drawn_keeps keeps unlike)

end Program

namespace Construction
open Program

variable {p : Program} {items : List Tree.Placed} {ds : List Declared} {imports : String → List ScopeId}
  {module : String} {home : ScopeId}

inductive Drafts (p q : Program) (home : ScopeId) (d : Declared) : Prop where
  | other (none : d.draft? = none) (types : q.types = p.types) (structs : q.structs = p.structs)
      (table : q.structTypes = p.structTypes)
  | struct (s : Struct) (name : QualifiedName) (scope : Scope) (draft : d.draft? = some (s.type, home, s.decl))
      (members : s.members.map Member.decl = s.decl.members) (type : s.type = ⟨p.types.size⟩)
      (types : q.types = (p.types.declare name).2)
      (structs : q.structs = p.structs.push s)
      (table : q.structTypes = p.structTypes.insert s.type ⟨p.structs.size⟩) (found : q.scopes.get? s.scope = some scope)
      (kind : scope.kind = .struct s.id) (parent : scope.parent = some home) (bare : scope.types = [])
      (closed : scope.imports = [])

theorem bind_members_keep (scope : ScopeId) (members : List Tree.MemberDecl) :
    Yields (members.mapM (bindMember scope)) p (fun bound _ => bound.map Member.decl = members) := by
  let J : List Tree.MemberDecl → List Member → Program → Prop := fun done bound _ => bound.map Member.decl = done
  refine yields_map (J := J) members rfl ?_
  intro done m rest bound q _ same
  refine yields_bind (bind_option_places scope m.default) (fun default r _ => yields_pure ?_)
  change (bound ++ [_]).map Member.decl = done ++ [m]
  rw [List.map_append, show bound.map Member.decl = done from same]
  rfl

theorem declare_item_drafts (package : List String) (home : ScopeId) (item : Tree.Item) :
    Yields (declareItem package home item) p (fun d q => Drafts p q home d) := by
  match item with
  | .function decl => exact yields_done rfl (.other rfl rfl rfl rfl)
  | .variable decl =>
    refine yields_bind (bind_option_places home decl.initializer) ?_
    rintro initializer r ⟨same, _⟩
    refine yields_done rfl (.other rfl ?_ ?_ ?_)
    · change r.types = p.types
      rw [same]
    · change r.structs = p.structs
      rw [same]
    · change r.structTypes = p.structTypes
      rw [same]
  | .struct decl =>
    change Yields (declareStruct package home decl) p _
    let scopes := p.scopes.addType home decl.name.name ⟨p.types.size⟩
    let scope : Scope := {
      kind := .struct ⟨p.structs.size⟩
      parent := some home
      home := (scopes.get? home).bind Scope.home }
    refine yields_step (a := p) (t := p) rfl (yields_step rfl (yields_step rfl ?_))
    refine yields_bind (yields_and (bind_members_yield ⟨scopes.size⟩ decl.members)
      (bind_members_keep ⟨scopes.size⟩ decl.members)) ?_
    rintro members r ⟨⟨same, _⟩, declared⟩
    let s : Struct := { id := ⟨p.structs.size⟩, decl, type := ⟨p.types.size⟩, scope := ⟨scopes.size⟩, members }
    refine yields_done rfl (.struct s ⟨decl.name.name, package⟩ scope rfl declared rfl ?_ ?_ ?_ ?_ rfl rfl rfl rfl)
    · change r.types = _
      rw [same]
      rfl
    · change r.structs.push s = _
      rw [same]
    · change r.structTypes.insert ⟨p.types.size⟩ ⟨p.structs.size⟩ = _
      rw [same]
    · change r.scopes.get? ⟨scopes.size⟩ = some scope
      have pushed : r.scopes = (scopes.push scope).2 := by rw [same]; rfl
      rw [pushed, ScopeTree.get_push, if_pos rfl]

theorem drafted_snoc {q : Program} {d : Declared} (drafted : p.Drafted ds)
    (named : p.scopes.findModule? module = some home) (keeps : p.Keeps (· = .module) q) (drafts : Drafts p q home d) : q.Drafted (ds ++ [d]) := by
  cases drafts with
  | other none types structs table =>
    have kept := drafted_frame drafted keeps (by simp) types structs table
    constructor
    · exact kept.size
    · exact kept.plain
    · exact kept.types
    · exact kept.table
    · simpa [none] using kept.drawn
  | struct s name scope draft members type types structs table found kind parent bare closed =>
    constructor
    · have size := drafted.size
      rw [types, structs, Array.size_push]
      simp only [TypeHierarchy.declare, TypeHierarchy.push, TypeHierarchy.size, Array.size_push] at size ⊢
      omega
    · intro t
      rw [types, TypeHierarchy.declare, supertypes_push _ rfl]
      exact drafted.plain t
    · rw [structs, Array.toList_push, List.map_append, drafted.types, Array.size_push, List.range_succ, List.map_append]
      simp [type, drafted.size]
    · intro k inside
      rw [structs, Array.size_push] at inside
      rw [table, type, drafted.size, Table.find_insert]
      by_cases new : k = p.structs.size
      · simp [new]
      · simpa [new] using drafted.table k (by omega)
    · have last : [d].filterMap Declared.draft? = [(s.type, home, s.decl)] := by simp [draft]
      rw [structs, Array.toList_push, List.filterMap_append, last]
      refine List.rel_append (drafted.drawn.imp (fun _ _ => drawn_keeps keeps (by simp))) (.cons ?_ .nil)
      exact ⟨rfl, rfl, members, ⟨module, keeps.modules _ _ named⟩, scope, found, kind, parent, bare, closed⟩

theorem drafted_carried : Carried (fun _ ds q => q.Drafted ds) := by
  constructor
  · intro items ds q m lays drafted
    exact drafted_frame drafted (keeps_module_scope m.name q.above) (by simp) rfl rfl rfl
  · intro items ds q home m item lays named drafted
    exact yields_weaken (declare_item_drafts m.package home item)
      (fun d r drafts keeps => drafted_snoc drafted named keeps drafts)
  · intro items ds q modules drafted
    exact drafted_frame drafted (keeps_listed modules rfl) (by simp) rfl rfl rfl

theorem declare_builtins_drafts (options : Options) :
    Yields declareBuiltins ({ options } : Program) (fun _ q => q.Drafted []) := by
  let J : List BuiltinFunction → Program → Prop := fun _ q => q.types = TypeHierarchy.builtins ∧ q.structs = #[]
  refine yields_step rfl (yields_weaken (yields_for (J := J) BuiltinFunction.all ⟨rfl, rfl⟩ ?_) ?_)
  · rintro done b rest q _ ⟨types, structs⟩
    exact yields_done rfl ⟨types, structs⟩
  · rintro _ q ⟨types, structs⟩
    constructor
    · simp [types, structs]
    · simp [types]
    · simp [structs]
    · simp [structs]
    · simp [structs]

theorem resolve_imports_report (entries : List (Tree.Module × (ScopeId × List Declared))) :
    Yields (entries.mapM (fun entry => entry.1.imports.mapM (resolveImport entry.2.1))) p (fun unresolved q =>
      (q.types = p.types ∧ q.structs = p.structs ∧ q.structTypes = p.structTypes) ∧
        ∀ d ∈ unresolved.flatten.flatten, ∃ target span, d = .ofError (.unresolvedImport target) span) := by
  refine yields_imports (I := fun q => q.types = p.types ∧ q.structs = p.structs ∧ q.structTypes = p.structTypes)
    entries ⟨rfl, rfl, rfl⟩ ?_
  intro scope i q same
  refine yields_import scope i (fun _ => ⟨same, ?_⟩) (fun imported _ => ⟨same, by simp⟩)
  exact List.forall_mem_singleton.mpr ⟨i.target, i.span, rfl⟩

def leftOut (h : TypeHierarchy) (type : TypeId) (name : String) (written : Tree.TypeExpr) :
    Option TypeId → Option Diagnostic
  | none => some (.ofError (.unknownType written.name.name) written.span)
  | some t =>
    if t ∈ h.supertypesOf type then none
    else some (.ofError (.cyclicTypeHierarchy name written.name.name) written.span)

section Struct
variable {h : TypeHierarchy} {type : TypeId} {named : List (Option TypeId)}

theorem left_out_same {g : TypeHierarchy} (name : String) (written : Tree.TypeExpr) {meaning : Option TypeId}
    (same : ∀ t, meaning = some t → (t ∈ g.supertypesOf type ↔ t ∈ h.supertypesOf type)) :
    leftOut g type name written meaning = leftOut h type name written meaning := by
  cases meaning with
  | none => rfl
  | some t => simp only [leftOut, same t rfl]

theorem attach_supertype_attaches (known : ∀ name t, p.scopes.findType? home name = some t → h.Has t)
    (lower : h.Has type) (done : h.Attaching type named) (name : String) (written : Tree.TypeExpr) :
    Yields (attachSupertype type home name written) { p with types := h } (fun found q =>
      ∃ g, q = { p with types := g } ∧ TypeHierarchy.GrowsAt type h g ∧
        g.Attaching type (named ++ [p.scopes.findType? home written.name.name]) ∧
        found = leftOut g type name written (p.scopes.findType? home written.name.name) ∧
        ∀ t, some t ∈ named → (t ∈ g.supertypesOf type ↔ t ∈ h.supertypesOf type)) := by
  refine yields_step (a := { p with types := h }) (t := { p with types := h }) rfl ?_
  cases found : p.scopes.findType? home written.name.name with
  | none =>
    exact yields_pure ⟨h, rfl, grows_at_refl type h, attaching_unknown done, rfl,
      fun _ _ => Iff.rfl⟩
  | some supertype =>
    have upper := known _ _ found
    dsimp only
    rcases add_supertype_ok done.sealed lower upper with ⟨below, refused⟩ | ⟨apart, accepted⟩
    · have finding : leftOut h type name written (some supertype) =
          some (.ofError (.cyclicTypeHierarchy name written.name.name) written.span) :=
        if_neg (fun member => supertype_not_below done.sealed member below)
      rw [refused]
      exact yields_step rfl (yields_pure ⟨h, rfl, grows_at_refl type h,
        attaching_refused done below, finding.symm, fun _ _ => Iff.rfl⟩)
    · have member : supertype ∈ (h.attach type supertype).supertypesOf type :=
        edge_iff_supertype.mp ((edge_attach lower).mpr (.inr ⟨rfl, rfl⟩))
      rw [accepted]
      exact yields_step rfl (yields_step rfl (yields_pure ⟨_, rfl, grows_at_attach lower supertype,
        attaching_accepted done lower upper apart, (if_pos member).symm,
        fun t => refused_stays done lower apart⟩))

theorem attach_any_attaches (sealed : h.Sealed) (lower : h.Has type) (upper : h.Has .any)
    (top : h.supertypesOf .any = []) (other : type ≠ .any) :
    Yields (attachAny type) { p with types := h } (fun _ q => q = { p with types := h.attach type .any }) := by
  refine yields_step (a := { p with types := h }) (t := { p with types := h }) rfl ?_
  rcases add_supertype_ok sealed lower upper with ⟨below, _⟩ | ⟨_, accepted⟩
  · exact absurd below (any_not_below top other)
  · rw [accepted]
    exact yields_step rfl (yields_done rfl rfl)

def draftOf (scopes : ScopeTree) (d : TypeId × ScopeId × Tree.StructDecl) : TypeHierarchy.Draft :=
  ⟨d.1, d.2.2.supertypes.map (fun written => scopes.findType? d.2.1 written.name.name)⟩

def leftOutOf (scopes : ScopeTree) (h : TypeHierarchy) (d : TypeId × ScopeId × Tree.StructDecl) : List Diagnostic :=
  d.2.2.supertypes.filterMap (fun written =>
    leftOut h d.1 d.2.2.name.name written (scopes.findType? d.2.1 written.name.name))

theorem left_out_all_iff (meaning : Tree.TypeExpr → Option TypeId) {writtens : List Tree.TypeExpr}
    (attaching : h.Attaching type (writtens.map meaning)) (name : String) :
    (writtens.map (fun written => leftOut h type name written (meaning written))).all Option.isSome = true ↔
      h.supertypesOf type = [] := by
  rw [List.all_map, List.all_eq_true]
  constructor
  · intro all
    apply List.eq_nil_iff_forall_not_mem.mpr
    intro t member
    obtain ⟨written, listed, meant⟩ := List.mem_map.mp (attaching.only t member)
    have finding := all written listed
    simp only [Function.comp_apply, meant, leftOut, if_pos member] at finding
    cases finding
  · intro none written _
    cases meant : meaning written <;> simp [leftOut, none, meant]

theorem seal_struct_finishes (decl : Tree.StructDecl)
    (known : ∀ name t, p.scopes.findType? home name = some t → h.Has t) (sealed : h.Sealed) (lower : h.Has type)
    (upper : h.Has .any) (plain : h.supertypesOf type = []) (top : h.supertypesOf .any = []) (other : type ≠ .any) :
    Yields (sealStruct type home decl) { p with types := h } (fun found q =>
      ∃ g, q = { p with types := g } ∧ g.Sealed ∧ TypeHierarchy.GrowsAt type h g ∧
        g.Finished (draftOf p.scopes (type, home, decl)) ∧ found = leftOutOf p.scopes g (type, home, decl)) := by
  let meaning : Tree.TypeExpr → Option TypeId := fun written => p.scopes.findType? home written.name.name
  let J : List Tree.TypeExpr → List (Option Diagnostic) → Program → Prop := fun done left q =>
    ∃ g, q = { p with types := g } ∧ TypeHierarchy.GrowsAt type h g ∧ g.Attaching type (done.map meaning) ∧
      left = done.map (fun written => leftOut g type decl.name.name written (meaning written))
  have has : ∀ {g t}, TypeHierarchy.GrowsAt type h g → h.Has t → g.Has t := by
    intro g t grows there
    unfold TypeHierarchy.Has
    rw [grows.size]
    exact there
  refine yields_bind (yields_map (J := J) decl.supertypes
    ⟨h, rfl, grows_at_refl type h, attaching_none sealed plain, rfl⟩ ?_) ?_
  · rintro done written rest left q _ ⟨g, rfl, grows, attaching, rfl⟩
    refine yields_weaken (attach_supertype_attaches (fun name t found => has grows (known name t found))
      (has grows lower) attaching decl.name.name written) ?_
    rintro found q ⟨k, rfl, further, attaching', rfl, same⟩
    refine ⟨k, rfl, grows_at_trans grows further, ?_, ?_⟩
    · rw [List.map_append]
      exact attaching'
    · rw [List.map_append]
      congr 1
      apply List.map_congr_left
      intro earlier member
      exact (left_out_same _ earlier (fun t meant => same t (meant ▸ List.mem_map_of_mem member))).symm
  · rintro left q ⟨g, rfl, grows, attaching, rfl⟩
    have top' : g.supertypesOf .any = [] := by
      rw [grows.others _ other.symm]
      exact top
    have none_iff := left_out_all_iff meaning attaching decl.name.name
    split
    · rename_i all
      have none := none_iff.mp all
      refine yields_bind (attach_any_attaches attaching.sealed (has grows lower) (has grows upper) top' other) ?_
      rintro _ q rfl
      refine yields_pure ⟨_, rfl, ?_, ?_, ?_, ?_⟩
      · exact attach_sealed attaching.sealed (has grows lower) (has grows upper)
          (any_not_below top' other)
      · exact grows_at_trans grows (grows_at_attach (has grows lower) .any)
      · exact finished_attach_any attaching (has grows lower) none top' other
      · rw [List.filterMap_map]
        apply List.filterMap_congr
        intro written member
        refine (left_out_same _ written (fun t meant => ?_)).symm
        have listed : some t ∈ decl.supertypes.map meaning := List.mem_map.mpr ⟨written, member, meant⟩
        have refused := refused_not_any attaching none top' other listed
        rw [supertypes_attach_any (has grows lower) none, none]
        simpa using refused.2
    · rename_i some
      refine yields_pure ⟨g, rfl, attaching.sealed, grows, ?_, ?_⟩
      · exact finished_of_attaching attaching (fun none => some (none_iff.mpr none))
      · rw [List.filterMap_map]
        rfl

end Struct

def SealedUpTo (p : Program) (done : List Declared) (found : List (List Diagnostic)) (q : Program) : Prop :=
  ∃ h, q = { p with types := h } ∧ h.size = p.types.size ∧
    h.Sealing ((done.filterMap Declared.draft?).map (draftOf p.scopes)) ∧
    found.flatten = (done.filterMap Declared.draft?).flatMap (leftOutOf p.scopes h)

theorem left_out_of_grows {h g : TypeHierarchy} {type : TypeId} (grows : TypeHierarchy.GrowsAt type h g)
    {d : TypeId × ScopeId × Tree.StructDecl} (other : d.1 ≠ type) (scopes : ScopeTree) :
    leftOutOf scopes g d = leftOutOf scopes h d := by
  unfold leftOutOf
  congr 1
  funext written
  apply left_out_same
  intro t _
  rw [grows.others d.1 other]

theorem sealed_other {done : List Declared} {found : List (List Diagnostic)} {q : Program} {d : Declared}
    (none : d.draft? = none) (before : SealedUpTo p done found q) : SealedUpTo p (done ++ [d]) (found ++ [[]]) q := by
  unfold SealedUpTo
  rw [List.filterMap_append, List.filterMap_cons_none none, List.filterMap_nil, List.append_nil, List.flatten_concat,
    List.append_nil]
  exact before

theorem draft_types (drafted : p.Drafted ds) :
    (ds.filterMap Declared.draft?).map Prod.fst
      = (List.range p.structs.size).map (fun k => ⟨TypeHierarchy.builtins.size + k⟩) := by
  rw [← drafted.types]
  exact (related_map drafted.drawn (fun s d drawn => drawn.type)).symm

theorem draft_new (drafted : p.Drafted ds) {d : TypeId × ScopeId × Tree.StructDecl}
    (member : d ∈ ds.filterMap Declared.draft?) : TypeHierarchy.builtins.size ≤ d.1.index ∧ p.types.Has d.1 := by
  have listed : d.1 ∈ (ds.filterMap Declared.draft?).map Prod.fst := List.mem_map_of_mem member
  rw [draft_types drafted] at listed
  obtain ⟨k, there, same⟩ := List.mem_map.mp listed
  have bound := List.mem_range.mp there
  unfold TypeHierarchy.Has
  rw [← same, drafted.size]
  constructor
  · exact Nat.le_add_right _ _
  · exact Nat.add_lt_add_left bound _

theorem draft_types_nodup (drafted : p.Drafted ds) : ((ds.filterMap Declared.draft?).map Prod.fst).Nodup := by
  rw [draft_types drafted]
  apply List.Nodup.map _ List.nodup_range
  intro a b same
  have indexes := congrArg TypeId.index same
  simpa using indexes

theorem seal_all_yields (consistent : p.Consistent) (drafted : p.Drafted ds) :
    Yields (ds.mapM sealDeclared) p (SealedUpTo p ds) := by
  refine yields_map (J := SealedUpTo p) ds ⟨p.types, rfl, rfl, ?_, rfl⟩ ?_
  · constructor
    · exact consistent.hierarchy
    · simp
    · simp
    · exact fun t _ => drafted.plain t
  · intro done d rest found q whole before
    match d with
    | .function .. => exact yields_pure (sealed_other rfl before)
    | .variable _ => exact yields_pure (sealed_other rfl before)
    | .struct id type home decl =>
      obtain ⟨h, rfl, size, sealing, same⟩ := before
      have split : ds.filterMap Declared.draft? =
          done.filterMap Declared.draft? ++ (type, home, decl) :: rest.filterMap Declared.draft? := by
        rw [whole, List.filterMap_append]
        rfl
      have apart : ∀ e ∈ done.filterMap Declared.draft?, e.1 ≠ type := by
        have distinct := draft_types_nodup drafted
        rw [split, List.map_append, List.nodup_append] at distinct
        intro e member
        exact distinct.2.2 e.1 (List.mem_map_of_mem member) type (List.mem_map_of_mem (List.mem_cons_self ..))
      have listed : (type, home, decl) ∈ ds.filterMap Declared.draft? := by
        rw [split]
        simp
      obtain ⟨new, there⟩ := draft_new drafted listed
      have has : ∀ {t}, p.types.Has t → h.Has t := by
        intro t known
        unfold TypeHierarchy.Has
        rw [size]
        exact known
      have plain : h.supertypesOf type = [] := by
        rw [sealing.rest type, builtin_supertypes_none new]
        intro e member
        obtain ⟨d, inside, rfl⟩ := List.mem_map.mp member
        exact (apart d inside).symm
      have other : type ≠ .any := by
        rintro rfl
        change 6 ≤ 0 at new
        omega
      refine yields_weaken (seal_struct_finishes decl (fun name t found => has (found_type_there consistent found))
        sealing.sealed (has there) (has (has_builtin (t := .any) consistent (by decide))) plain
        (any_extends_nothing sealing) other) ?_
      rintro left q ⟨g, rfl, sealed, grows, finished, rfl⟩
      have last : [Declared.struct id type home decl].filterMap Declared.draft? = [(type, home, decl)] := rfl
      refine ⟨g, rfl, grows.size.trans size, ?_, ?_⟩
      · rw [List.filterMap_append, List.map_append, last]
        refine sealing_snoc sealing sealed grows finished new ?_
        intro e member
        obtain ⟨d, inside, rfl⟩ := List.mem_map.mp member
        exact apart d inside
      · rw [List.flatten_concat, same, List.filterMap_append, last, List.flatMap_append, List.flatMap_singleton]
        congr 1
        apply List.flatMap_congr
        intro e member
        exact (left_out_of_grows grows (apart e member) p.scopes).symm

end Construction

namespace Program

def supertypeMeant (p : Program) (s : Struct) (written : Tree.TypeExpr) : Option TypeId :=
  p.scopes.findType? s.scope written.name.name

/-- The finding about a written supertype of a struct, if it was left out. -/
def supertypeFinding (p : Program) (s : Struct) (written : Tree.TypeExpr) : Option Diagnostic :=
  leftOut p.types s.type s.name written (p.supertypeMeant s written)

def draft (p : Program) (s : Struct) : TypeHierarchy.Draft := ⟨s.type, s.decl.supertypes.map (p.supertypeMeant s)⟩

/-- The supertypes of all structs are attached or left out. -/
structure SealsAs (p : Program) (findings : List Diagnostic) : Prop where
  sealing : p.types.Sealing (p.structs.toList.map p.draft)
  size : p.types.size = TypeHierarchy.builtins.size + p.structs.size
  types : p.structs.toList.map Struct.type
    = (List.range p.structs.size).map (fun k => ⟨TypeHierarchy.builtins.size + k⟩)
  table : ∀ k < p.structs.size, p.structTypes.find? ⟨TypeHierarchy.builtins.size + k⟩ = some ⟨k⟩
  members : ∀ s ∈ p.structs.toList, s.members.map Member.decl = s.decl.members
  findings : ∃ unresolved : List Diagnostic,
    (∀ d ∈ unresolved, ∃ target span, d = .ofError (.unresolvedImport target) span) ∧
    findings = unresolved ++ p.structs.toList.flatMap (fun s => s.decl.supertypes.filterMap (p.supertypeFinding s))

variable {visible : String → Tree.Visible} {targets : String → List String} {ds : List Declared}

theorem find_type_kept {p q : Program}
    (grounded : p.scopes.Grounded p.above visible (linked p.scopes targets))
    (ordered : q.scopes.Ordered) (keeps : p.Keeps (ScopesOf ds) q) {module : String} {home : ScopeId}
    (named : p.scopes.findModule? module = some home) (name : String) :
    p.scopes.findType? home name = q.scopes.findType? home name := by
  have other : ∀ kind, (∀ id, kind ≠ .function id) → ¬ScopesOf ds kind := by
    rintro kind unlike ⟨n, _, same⟩
    exact unlike _ same
  let place : ScopeId → Prop := fun id => id = .root ∨ id = .program ∨ ∃ m, p.scopes.findModule? m = some id
  have here : place home := .inr (.inr ⟨module, named⟩)
  refine ScopeTree.find_type_shared grounded.ordered ordered ?_ here name
  rintro id (rfl | rfl | ⟨m, there⟩)
  · exact ⟨_, grounded.root, keeps.scopes _ _ (other _ (by simp)) grounded.root, by simp, by simp⟩
  · refine ⟨_, grounded.program, keeps.scopes _ _ (other _ (by simp)) grounded.program, ?_, by simp⟩
    intro parent up
    cases up
    exact .inl rfl
  · obtain ⟨s, found, kind, parent, _, imports⟩ := grounded.modules m id there
    refine ⟨s, found, keeps.scopes _ _ (other _ (by simp [kind])) found, ?_, ?_⟩
    · intro up same
      rw [parent] at same
      cases same
      split
      · exact .inr (.inl rfl)
      · rcases grounded.place with equal | equal
        · exact .inr (.inl equal)
        · exact .inr (.inr ⟨_, equal ▸ grounded.builtin⟩)
    · intro imported member
      rw [imports] at member
      unfold linked at member
      rw [List.mem_eraseDups, List.mem_filterMap] at member
      obtain ⟨target, _, found'⟩ := member
      exact .inr (.inr ⟨target, found'⟩)

theorem meant_kept {p q : Program}
    (grounded : p.scopes.Grounded p.above visible (linked p.scopes targets))
    (ordered : q.scopes.Ordered) (keeps : p.Keeps (ScopesOf ds) q) {s : Struct}
    {d : TypeId × ScopeId × Tree.StructDecl} (drawn : p.Drawn s d) (written : Tree.TypeExpr) :
    q.supertypeMeant s written = p.scopes.findType? d.2.1 written.name.name := by
  obtain ⟨module, named⟩ := drawn.named
  obtain ⟨scope, found, kind, parent, bare, closed⟩ := drawn.scope
  have found' := keeps.scopes _ _ (by rintro ⟨n, _, same⟩; rw [kind] at same; cases same) found
  rw [supertypeMeant, ScopeTree.find_type_below ordered found' parent closed, bare,
    find_type_kept grounded ordered keeps named]
  rfl

theorem seals_of_ends {p q : Program}
    {h : TypeHierarchy} {unresolved rejected : List Diagnostic} (drafted : p.Drafted ds)
    (grounded : p.scopes.Grounded p.above visible (linked p.scopes targets)) (ordered : q.scopes.Ordered)
    (keeps : ({ p with types := h } : Program).Keeps (ScopesOf ds) q) (size : h.size = p.types.size)
    (sealing : h.Sealing ((ds.filterMap Declared.draft?).map (draftOf p.scopes)))
    (found : rejected = (ds.filterMap Declared.draft?).flatMap (leftOutOf p.scopes h))
    (reported : ∀ d ∈ unresolved, ∃ target span, d = .ofError (.unresolvedImport target) span) :
    q.SealsAs (unresolved ++ rejected) := by
  have outline := keeps.outline (by rintro ⟨n, _, same⟩; cases same)
  have types : q.types = h := outline.types
  have structs : q.structs = p.structs := outline.structs
  have meant : ∀ s d, p.Drawn s d → ∀ written,
      q.supertypeMeant s written = p.scopes.findType? d.2.1 written.name.name := by
    intro s d drawn written
    have typed : p.Keeps (· = .module) { p with types := h } := keeps_types h rfl
    exact meant_kept (p := { p with types := h }) grounded ordered keeps (drawn_keeps typed (by simp) drawn) written
  have drafts : q.structs.toList.map q.draft = (ds.filterMap Declared.draft?).map (draftOf p.scopes) := by
    rw [structs]
    apply related_map drafted.drawn
    intro s d drawn
    rw [draft, draftOf, drawn.type, drawn.decl, funext (meant s d drawn)]
  have findings : q.structs.toList.map (fun s => s.decl.supertypes.filterMap (q.supertypeFinding s))
      = (ds.filterMap Declared.draft?).map (leftOutOf p.scopes h) := by
    rw [structs]
    apply related_map drafted.drawn
    intro s d drawn
    unfold leftOutOf supertypeFinding Struct.name
    simp only [types, drawn.type, drawn.decl, meant s d drawn]
  constructor
  · rw [types, drafts]
    exact sealing
  · rw [types, size, structs]
    exact drafted.size
  · rw [structs]
    exact drafted.types
  · rw [structs, outline.structTypes]
    exact drafted.table
  · intro s member
    rw [structs] at member
    obtain ⟨d, _, drawn⟩ := related_left drafted.drawn member
    exact drawn.members
  · refine ⟨unresolved, reported, ?_⟩
    rw [found, List.flatMap_def, List.flatMap_def, findings]

end Program

namespace Construction
open Program

theorem build_seals (options : Options) (modules : List Tree.Module) :
    Yields (build modules) ({ options } : Program) (fun findings q => q.SealsAs findings) := by
  refine yields_bind (yields_and (declare_builtins_yield options) (yields_and (declare_builtins_drafts options)
    (yields_of_builds (declare_builtins_builds (initial_consistent options))))) ?_
  rintro _ p ⟨⟨start, none, _⟩, drafted, consistent⟩
  refine yields_bind (yields_and (declare_modules_carry drafted_carried start none drafted modules)
    (yields_of_builds (declare_modules_builds consistent modules))) ?_
  rintro rs q ⟨⟨⟨lays, named, _⟩, drafted'⟩, evolved, _⟩
  refine yields_bind (yields_and (resolve_imports_yield lays named)
    (yields_and (resolve_imports_report (modules.zip rs))
      (yields_of_builds (resolve_imports_build evolved.consistent (modules.zip rs))))) ?_
  rintro unresolved r ⟨⟨lays', keeps, _⟩, ⟨⟨types, structs, table⟩, reported⟩, evolved'⟩
  have drafted'' := drafted_frame drafted' keeps (by simp) types structs table
  refine yields_bind (seal_all_yields evolved'.consistent drafted'') ?_
  rintro rejected u ⟨h, sealed, size, sealing, found⟩
  refine yields_bind (bind_laid_yield (lays_types lays' (by rw [sealed]))) ?_
  rintro _ w ends
  subst sealed
  exact yields_pure (seals_of_ends drafted'' lays'.grounded ends.ordered ends.keeps size sealing found reported)

end Construction

theorem construct_seals {options : Options} {modules : List Tree.Module} {p : Program} {findings : List Diagnostic}
    (built : Program.construct options modules = .ok (p, findings)) : p.SealsAs findings :=
  construct_yields (build_seals options modules) built

namespace Program

/-- The first type is that of a struct which writes the second as a supertype. -/
def WritesSupertype (p : Program) (a b : TypeId) : Prop :=
  ∃ s ∈ p.structs, s.type = a ∧ ∃ written ∈ s.decl.supertypes, p.supertypeMeant s written = some b

variable {p : Program} {findings : List Diagnostic}

theorem draft_member {d : TypeHierarchy.Draft} : d ∈ p.structs.toList.map p.draft ↔ ∃ s ∈ p.structs, p.draft s = d := by
  simp

theorem draft_named {s : Struct} {t : TypeId} :
    some t ∈ (p.draft s).named ↔ ∃ written ∈ s.decl.supertypes, p.supertypeMeant s written = some t := by
  exact List.mem_map

theorem writes_iff_asked {a b : TypeId} :
    p.WritesSupertype a b ↔ TypeHierarchy.Asked (p.structs.toList.map p.draft) a b := by
  constructor
  · rintro ⟨s, there, same, written⟩
    exact ⟨p.draft s, draft_member.mpr ⟨s, there, rfl⟩, same, draft_named.mpr written⟩
  · rintro ⟨d, member, same, named⟩
    obtain ⟨s, there, rfl⟩ := draft_member.mp member
    exact ⟨s, there, same, draft_named.mp named⟩

theorem struct_finished (seals : p.SealsAs findings) {s : Struct} (there : s ∈ p.structs) :
    p.types.Finished (p.draft s) :=
  seals.sealing.finished _ (draft_member.mpr ⟨s, there, rfl⟩)

theorem types_are_drafts (seals : p.SealsAs findings) {t : TypeId} (there : p.types.Has t)
    (new : TypeHierarchy.builtins.size ≤ t.index) : ∃ d ∈ p.structs.toList.map p.draft, d.type = t := by
  have listed : t ∈ p.structs.toList.map Struct.type := by
    have size := seals.size
    unfold TypeHierarchy.Has at there
    rw [seals.types, List.mem_map]
    refine ⟨t.index - TypeHierarchy.builtins.size, List.mem_range.mpr (by omega), ?_⟩
    rw [Nat.add_sub_cancel' new]
  obtain ⟨s, member, same⟩ := List.mem_map.mp listed
  exact ⟨p.draft s, List.mem_map_of_mem member, same⟩

theorem cycle_found_iff (seals : p.SealsAs findings) :
    (∃ name supertype span, .ofError (.cyclicTypeHierarchy name supertype) span ∈ findings) ↔
      ∃ d ∈ p.structs.toList.map p.draft, ∃ t, some t ∈ d.named ∧ t ∉ p.types.supertypesOf d.type := by
  obtain ⟨unresolved, imports, rfl⟩ := seals.findings
  constructor
  · rintro ⟨name, supertype, span, member⟩
    rcases List.mem_append.mp member with import_ | sealing
    · obtain ⟨_, _, same⟩ := imports _ import_
      cases same
    · obtain ⟨s, there, inside⟩ := List.mem_flatMap.mp sealing
      obtain ⟨written, listed, finding⟩ := List.mem_filterMap.mp inside
      unfold supertypeFinding at finding
      cases meant : p.supertypeMeant s written with
      | none =>
        rw [meant] at finding
        cases finding
      | some t =>
        rw [meant] at finding
        simp only [leftOut] at finding
        split at finding
        · cases finding
        · rename_i left
          exact ⟨p.draft s, List.mem_map_of_mem there, t, draft_named.mpr ⟨written, listed, meant⟩, left⟩
  · rintro ⟨d, member, t, named, left⟩
    obtain ⟨s, there, rfl⟩ := draft_member.mp member
    obtain ⟨written, listed, meant⟩ := draft_named.mp named
    refine ⟨s.name, written.name.name, written.span, List.mem_append_right _ ?_⟩
    refine List.mem_flatMap.mpr ⟨s, by simpa using there, List.mem_filterMap.mpr ⟨written, listed, ?_⟩⟩
    rw [supertypeFinding, meant]
    exact if_neg left

theorem draft_resolved (s : Struct) : (p.draft s).resolved =
    if s.decl.supertypes.filterMap (p.supertypeMeant s) = [] then [.any]
    else (s.decl.supertypes.filterMap (p.supertypeMeant s)).eraseDups := by
  unfold TypeHierarchy.Draft.resolved draft
  rw [List.filterMap_map]
  rfl

end Program

/-- Construction seals the supertypes of all structs. `Any` is above everything and alone without supertypes; each
written supertype is unknown, attached, or left out as it is below its struct; something is left out exactly if the
written supertypes have a cycle; and if nothing is, a struct has what it writes. -/
theorem supertypes_are_sealed {options : Options} {modules : List Tree.Module} {p : Program}
    {findings : List Diagnostic} (built : Program.construct options modules = .ok (p, findings)) :
    (∀ t, p.types.Has t → (p.types.supertypesOf t = [] ↔ t = .any)) ∧
    (∀ t, ¬ TransGen p.types.Edge t t) ∧
    (∀ t, p.types.Has t → p.types.isSubtype t .any = .ok true) ∧
    (∃ unresolved, (∀ d ∈ unresolved, ∃ target span, d = .ofError (.unresolvedImport target) span) ∧
      findings = unresolved ++
        p.structs.toList.flatMap (fun s => s.decl.supertypes.filterMap (p.supertypeFinding s))) ∧
    (∀ s ∈ p.structs, ∀ written ∈ s.decl.supertypes,
      (p.supertypeMeant s written = none ∧
        p.supertypeFinding s written = some (.ofError (.unknownType written.name.name) written.span)) ∨
      (∃ t, p.supertypeMeant s written = some t ∧ t ∈ p.types.supertypesOf s.type ∧
        p.supertypeFinding s written = none) ∨
      (∃ t, p.supertypeMeant s written = some t ∧ p.types.isSubtype t s.type = .ok true ∧
        p.supertypeFinding s written
          = some (.ofError (.cyclicTypeHierarchy s.name written.name.name) written.span))) ∧
    ((∃ name supertype span, .ofError (.cyclicTypeHierarchy name supertype) span ∈ findings) ↔
      ∃ t, TransGen p.WritesSupertype t t) ∧
    ((¬ ∃ name supertype span, .ofError (.cyclicTypeHierarchy name supertype) span ∈ findings) →
      ∀ s ∈ p.structs, p.types.supertypesOf s.type =
        if s.decl.supertypes.filterMap (p.supertypeMeant s) = [] then [.any]
        else (s.decl.supertypes.filterMap (p.supertypeMeant s)).eraseDups) := by
  have seals := construct_seals built
  have consistent := construct_consistent built
  have sealed := seals.sealing.sealed
  have rooted : ∀ t, p.types.Has t → (p.types.supertypesOf t = [] ↔ t = .any) := fun t there =>
    TypeHierarchy.rooted seals.sealing (fun t => Program.types_are_drafts seals) there
  have subtype : ∀ {a b}, p.types.Has a → p.types.Below a b → p.types.isSubtype a b = .ok true := by
    intro a b there below
    obtain ⟨answer, asked, meaning⟩ := TypeHierarchy.is_subtype_iff_below sealed there b
    rw [asked, meaning.mpr below]
  refine ⟨rooted, sealed.acyclic, ?_, seals.findings, ?_, ?_, ?_⟩
  · intro t there
    exact subtype there
      (TypeHierarchy.below_any sealed (fun s known other none => other ((rooted s known).mp none)) there)
  · intro s there written listed
    unfold Program.supertypeFinding
    cases meant : p.supertypeMeant s written with
    | none => exact .inl ⟨rfl, rfl⟩
    | some t =>
      right
      by_cases attached : t ∈ p.types.supertypesOf s.type
      · exact .inl ⟨t, rfl, attached, if_pos attached⟩
      · have below := ((Program.struct_finished seals there).decided t
          (Program.draft_named.mpr ⟨written, listed, meant⟩)).resolve_left attached
        exact .inr ⟨t, rfl, subtype (Program.found_type_there consistent meant) below, if_neg attached⟩
  · rw [Program.cycle_found_iff seals, TypeHierarchy.refused_iff_cycle seals.sealing]
    have same : p.WritesSupertype = TypeHierarchy.Asked (p.structs.toList.map p.draft) := by
      funext a b
      exact propext Program.writes_iff_asked
    rw [same]
  · intro clear s there
    rw [← Program.draft_resolved]
    apply (Program.struct_finished seals there).whole
    intro t named
    by_contra left
    exact clear ((Program.cycle_found_iff seals).mpr
      ⟨p.draft s, Program.draft_member.mpr ⟨s, there, rfl⟩, t, named, left⟩)

def Tree.kennel : Tree.Module :=
  { path := []
    imports := []
    items := [
      .struct ⟨⟨"Dog", {}⟩, [{ name := ⟨"Animal", {}⟩, span := {} }, { name := ⟨"Ghost", {}⟩, span := {} }], [], {}⟩,
      .struct ⟨⟨"Animal", {}⟩, [{ name := ⟨"Dog", {}⟩, span := {} }], [], {}⟩]
    notices := []
    span := {} }

theorem kennel_is_sealed : ∃ p findings, Program.construct {} [Tree.kennel] = .ok (p, findings) ∧
    (∃ t, TransGen p.WritesSupertype t t) ∧ p.types.isSubtype ⟨6⟩ .any = .ok true ∧
    p.types.supertypesOf ⟨6⟩ = [⟨7⟩] ∧ p.types.supertypesOf ⟨7⟩ = [.any] ∧
    findings = [.ofError (.unknownType "Ghost") {}, .ofError (.cyclicTypeHierarchy "Animal" "Dog") {}] := by
  have evaluated : (Program.construct {} [Tree.kennel]).toOption.map (fun built =>
      (built.1.types.size, built.1.types.supertypesOf ⟨6⟩, built.1.types.supertypesOf ⟨7⟩, built.2))
      = some (8, [⟨7⟩], [.any],
        [.ofError (.unknownType "Ghost") {}, .ofError (.cyclicTypeHierarchy "Animal" "Dog") {}]) := by
    decide +kernel
  cases built : Program.construct {} [Tree.kennel] with
  | error e =>
    rw [built] at evaluated
    cases evaluated
  | ok result =>
    obtain ⟨p, findings⟩ := result
    rw [built] at evaluated
    simp only [Except.toOption, Option.map_some, Option.some.injEq, Prod.mk.injEq] at evaluated
    obtain ⟨size, dog, animal, found⟩ := evaluated
    obtain ⟨_, _, rooted, _, _, cycle, _⟩ := supertypes_are_sealed built
    refine ⟨p, findings, rfl, cycle.mp ⟨"Animal", "Dog", {}, ?_⟩, rooted ⟨6⟩ ?_, dog, animal, found⟩
    · rw [found]
      simp
    · unfold TypeHierarchy.Has
      rw [size]
      decide

end SemanticAnalysis
