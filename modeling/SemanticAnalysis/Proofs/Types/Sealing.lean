import SemanticAnalysis.Proofs.Scope.Chain
import SemanticAnalysis.Proofs.Types.Queries
/-!
Types get their supertypes one after the other, and an edge that would close a cycle is refused. In the end each
supertype that was asked for is there or is itself below its type; a type that got nothing extends `Any`. Edges among
new types are only those that were asked for, so one is refused exactly if what was asked for has a cycle.
-/
namespace SemanticAnalysis
open Relation

namespace TypeHierarchy

variable {h g : TypeHierarchy} {a b : TypeId}

def supertypesOf (h : TypeHierarchy) (t : TypeId) : List TypeId := ((h.get? t).map TypeDef.supertypes).getD []

theorem edge_iff_supertype : h.Edge a b ↔ b ∈ h.supertypesOf a := by
  unfold Edge supertypesOf
  cases h.get? a <;> simp

theorem supertypes_push (d : TypeDef) (plain : d.supertypes = []) (t : TypeId) :
    (h.push d).2.supertypesOf t = h.supertypesOf t := by
  unfold supertypesOf push get?
  rw [Array.getElem?_push]
  split
  · rename_i last
    rw [last]
    simp [plain]
  · rfl

theorem supertypes_attach (there : h.Has a) (t : TypeId) :
    (h.attach a b).supertypesOf t =
      if t = a then (if b ∈ h.supertypesOf a then h.supertypesOf a else h.supertypesOf a ++ [b])
      else h.supertypesOf t := by
  unfold supertypesOf attach get?
  rw [Array.getElem?_modify]
  by_cases same : t = a
  · subst same
    have entry : h.defs[t.index]? = some h.defs[t.index] := Array.getElem?_eq_getElem there
    simp only [entry, ↓reduceIte, Option.map_some, Option.getD_some]
    split <;> rfl
  · have other : ¬ a.index = t.index := by
      intro equal
      exact same (by cases t; cases a; exact congrArg TypeId.mk equal.symm)
    rw [if_neg other, if_neg same]

variable {t : TypeId}

theorem supertypes_attach_other (there : h.Has a) (other : t ≠ a) :
    (h.attach a b).supertypesOf t = h.supertypesOf t := by
  rw [supertypes_attach there, if_neg other]

theorem below_attach (there : h.Has a) {s : TypeId} (below : h.Below s t) : (h.attach a b).Below s t :=
  ReflTransGen.mono (fun _ _ edge => (edge_attach there).mpr (.inl edge)) _ _ below

theorem size_attach (a b : TypeId) : (h.attach a b).size = h.size := by
  simp [attach, size]

theorem below_any (sealed : h.Sealed) (rooted : ∀ t, h.Has t → t ≠ .any → h.supertypesOf t ≠ [])
    (there : h.Has t) : h.Below t .any := by
  have climb : ∀ bound t, h.Has t → (∀ n b, Walk h n t b → n ≤ bound) → h.Below t .any := by
    intro bound
    induction bound with
    | zero =>
      intro t there short
      by_cases top : t = .any
      · exact top ▸ .refl
      · obtain ⟨s, member⟩ := List.exists_mem_of_ne_nil _ (rooted t there top)
        have long := short 1 s (.next (edge_iff_supertype.mpr member) (.zero s))
        omega
    | succ bound ih =>
      intro t there short
      by_cases top : t = .any
      · exact top ▸ .refl
      · obtain ⟨s, member⟩ := List.exists_mem_of_ne_nil _ (rooted t there top)
        have edge := edge_iff_supertype.mpr member
        refine .head edge (ih s (sealed.closed edge) ?_)
        intro n b walk
        have longer := short (n + 1) b (.next edge walk)
        omega
  exact climb h.size t there (fun n b walk => walk_length_bounded sealed walk)

/-- A type with what its written supertypes mean, where that is known. -/
structure Draft where
  type : TypeId
  named : List (Option TypeId)

def Draft.resolved (d : Draft) : List TypeId :=
  if d.named.filterMap id = [] then [.any] else (d.named.filterMap id).eraseDups

structure Attaching (h : TypeHierarchy) (type : TypeId) (named : List (Option TypeId)) : Prop where
  sealed : h.Sealed
  decided : ∀ t, some t ∈ named → t ∈ h.supertypesOf type ∨ h.Below t type
  only : ∀ t ∈ h.supertypesOf type, some t ∈ named
  whole : (∀ t, some t ∈ named → t ∈ h.supertypesOf type) →
    h.supertypesOf type = (named.filterMap id).eraseDups

structure Finished (h : TypeHierarchy) (d : Draft) : Prop where
  decided : ∀ t, some t ∈ d.named → t ∈ h.supertypesOf d.type ∨ h.Below t d.type
  inhabited : h.supertypesOf d.type ≠ []
  only : ∀ t ∈ h.supertypesOf d.type, some t ∈ d.named ∨ t = .any
  whole : (∀ t, some t ∈ d.named → t ∈ h.supertypesOf d.type) → h.supertypesOf d.type = d.resolved

theorem supertype_not_below (sealed : h.Sealed) (member : b ∈ h.supertypesOf a) : ¬ h.Below b a := by
  intro below
  exact sealed.acyclic a (TransGen.head' (edge_iff_supertype.mpr member) below)

theorem attaching_none (sealed : h.Sealed) (plain : h.supertypesOf a = []) : h.Attaching a [] := by
  constructor
  · exact sealed
  · simp
  · simp [plain]
  · simp [plain]

variable {named : List (Option TypeId)}

theorem attaching_unknown (before : h.Attaching a named) :
    h.Attaching a (named ++ [none]) := by
  constructor
  · exact before.sealed
  · simpa using before.decided
  · intro t member
    exact List.mem_append_left _ (before.only t member)
  · simpa using before.whole

theorem attaching_refused (before : h.Attaching a named) (below : h.Below b a) :
    h.Attaching a (named ++ [some b]) := by
  constructor
  · exact before.sealed
  · intro t member
    rcases List.mem_append.mp member with old | new
    · exact before.decided t old
    · cases List.mem_singleton.mp new
      exact .inr below
  · intro t member
    exact List.mem_append_left _ (before.only t member)
  · intro all
    exact absurd below (supertype_not_below before.sealed (all b (by simp)))

theorem refused_stays (before : h.Attaching a named) (there : h.Has a)
    (apart : ¬ h.Below b a) (member : some t ∈ named) :
    t ∈ (h.attach a b).supertypesOf a ↔ t ∈ h.supertypesOf a := by
  rw [supertypes_attach there, if_pos rfl]
  split
  · rfl
  · rw [List.mem_append, List.mem_singleton, or_iff_left_of_imp]
    rintro rfl
    exact (before.decided t member).resolve_right apart

theorem attaching_accepted (before : h.Attaching a named) (lower : h.Has a)
    (upper : h.Has b) (apart : ¬ h.Below b a) : (h.attach a b).Attaching a (named ++ [some b]) := by
  have own : (h.attach a b).supertypesOf a =
      if b ∈ h.supertypesOf a then h.supertypesOf a else h.supertypesOf a ++ [b] := by
    rw [supertypes_attach lower, if_pos rfl]
  have new : b ∈ (h.attach a b).supertypesOf a := edge_iff_supertype.mp ((edge_attach lower).mpr (.inr ⟨rfl, rfl⟩))
  constructor
  · exact attach_sealed before.sealed lower upper apart
  · intro t member
    rcases List.mem_append.mp member with old | last
    · rcases before.decided t old with attached | below
      · exact .inl ((refused_stays before lower apart old).mpr attached)
      · exact .inr (below_attach lower below)
    · cases List.mem_singleton.mp last
      exact .inl new
  · intro t member
    rw [own] at member
    split at member
    · exact List.mem_append_left _ (before.only t member)
    · rcases List.mem_append.mp member with old | last
      · exact List.mem_append_left _ (before.only t old)
      · rw [List.mem_singleton.mp last]
        simp
  · intro all
    have earlier := before.whole (fun t member =>
      (refused_stays before lower apart member).mp (all t (List.mem_append_left _ member)))
    have last : [some b].filterMap id = [b] := rfl
    rw [own, List.filterMap_append, last, erase_dups_snoc, earlier]

structure GrowsAt (type : TypeId) (h g : TypeHierarchy) : Prop where
  size : g.size = h.size
  others : ∀ t, t ≠ type → g.supertypesOf t = h.supertypesOf t
  below : ∀ s t, h.Below s t → g.Below s t

theorem grows_at_refl (type : TypeId) (h : TypeHierarchy) : GrowsAt type h h :=
  ⟨rfl, fun _ _ => rfl, fun _ _ below => below⟩

theorem grows_at_trans {type : TypeId} {k : TypeHierarchy} (first : GrowsAt type h g) (second : GrowsAt type g k) :
    GrowsAt type h k where
  size := second.size.trans first.size
  others t other := (second.others t other).trans (first.others t other)
  below s t below := second.below s t (first.below s t below)

theorem grows_at_attach (there : h.Has a) (b : TypeId) : GrowsAt a h (h.attach a b) where
  size := size_attach a b
  others _ other := supertypes_attach_other there other
  below _ _ := below_attach there

theorem finished_of_attaching (done : h.Attaching a named)
    (inhabited : h.supertypesOf a ≠ []) : h.Finished ⟨a, named⟩ := by
  constructor
  · exact done.decided
  · exact inhabited
  · exact fun t member => .inl (done.only t member)
  · intro all
    have whole := done.whole all
    rw [Draft.resolved, if_neg, whole]
    intro none
    rw [none] at whole
    exact inhabited whole

theorem any_not_below (top : h.supertypesOf .any = []) (other : a ≠ .any) : ¬ h.Below .any a := by
  intro below
  rcases below.cases_head with same | ⟨s, edge, _⟩
  · exact other same.symm
  · have member := edge_iff_supertype.mp edge
    rw [top] at member
    exact List.not_mem_nil member

theorem refused_not_any (done : h.Attaching a named) (none : h.supertypesOf a = [])
    (top : h.supertypesOf .any = []) (other : a ≠ .any) (member : some t ∈ named) :
    h.Below t a ∧ t ≠ .any := by
  have below := (done.decided t member).resolve_left (by rw [none]; exact List.not_mem_nil)
  refine ⟨below, ?_⟩
  rintro rfl
  exact any_not_below top other below

theorem supertypes_attach_any (lower : h.Has a) (none : h.supertypesOf a = []) :
    (h.attach a .any).supertypesOf a = [.any] := by
  rw [supertypes_attach lower, if_pos rfl, none]
  rfl

theorem finished_attach_any (done : h.Attaching a named) (lower : h.Has a)
    (none : h.supertypesOf a = []) (top : h.supertypesOf .any = []) (other : a ≠ .any) :
    (h.attach a .any).Finished ⟨a, named⟩ := by
  have own := supertypes_attach_any lower none
  constructor
  · exact fun t member => .inr (below_attach lower (refused_not_any done none top other member).1)
  · rw [own]
    exact List.cons_ne_nil _ _
  · intro t member
    rw [own] at member
    exact .inr (List.mem_singleton.mp member)
  · intro all
    have empty : named.filterMap id = [] := by
      apply List.eq_nil_iff_forall_not_mem.mpr
      intro t listed
      have member : some t ∈ named := by simpa using listed
      have attached := all t member
      rw [own] at attached
      exact (refused_not_any done none top other member).2 (List.mem_singleton.mp attached)
    rw [own, Draft.resolved, if_pos empty]

theorem finished_grows {d : Draft} {type : TypeId} (finished : h.Finished d) (grows : GrowsAt type h g)
    (other : d.type ≠ type) : g.Finished d := by
  have same := grows.others d.type other
  constructor
  · intro t member
    rw [same]
    exact (finished.decided t member).imp_right (grows.below t d.type)
  · rw [same]
    exact finished.inhabited
  · rw [same]
    exact finished.only
  · rw [same]
    exact finished.whole

/-- The hierarchy has the built-in types and the drafts, of which some are finished and the others are still without
supertypes. -/
structure Sealing (h : TypeHierarchy) (done : List Draft) : Prop where
  sealed : h.Sealed
  finished : ∀ d ∈ done, h.Finished d
  new : ∀ d ∈ done, builtins.size ≤ d.type.index
  rest : ∀ t, (∀ d ∈ done, t ≠ d.type) → h.supertypesOf t = builtins.supertypesOf t

def Asked (drafts : List Draft) (a b : TypeId) : Prop := ∃ d ∈ drafts, d.type = a ∧ some b ∈ d.named

theorem builtin_supertypes (builtin : t.index < builtins.size) :
    builtins.supertypesOf t = [] ↔ t = .any := by
  obtain ⟨i⟩ := t
  have table : ∀ i : Fin 6, builtins.supertypesOf ⟨i.val⟩ = [] ↔ (⟨i.val⟩ : TypeId) = .any := by decide
  exact table ⟨i, builtin⟩

theorem builtin_supertypes_none (new : builtins.size ≤ t.index) : builtins.supertypesOf t = [] := by
  unfold supertypesOf get?
  rw [Array.getElem?_eq_none new]
  rfl

section Whole
variable {done : List Draft}

theorem any_extends_nothing (sealing : h.Sealing done) : h.supertypesOf .any = [] := by
  rw [sealing.rest .any]
  · exact (builtin_supertypes (by decide)).mpr rfl
  · rintro d member same
    have new := sealing.new d member
    rw [← same] at new
    exact absurd new (by decide)

theorem edge_source (sealing : h.Sealing done) {a b : TypeId} (edge : h.Edge a b)
    (new : builtins.size ≤ b.index) : ∃ d ∈ done, d.type = a := by
  by_contra none
  have plain := sealing.rest a (fun d member same => none ⟨d, member, same.symm⟩)
  have builtin : builtins.Edge a b := by
    rw [edge_iff_supertype] at edge ⊢
    rwa [plain] at edge
  have target : b.index < builtins.size := builtins_sealed.closed builtin
  omega

theorem edge_asked (sealing : h.Sealing done) {a b : TypeId} (edge : h.Edge a b) (new : builtins.size ≤ b.index) :
    Asked done a b := by
  obtain ⟨d, member, rfl⟩ := edge_source sealing edge new
  refine ⟨d, member, rfl, ?_⟩
  rcases (sealing.finished d member).only b (edge_iff_supertype.mp edge) with named | rfl
  · exact named
  · exact absurd new (by decide)

theorem below_asked (sealing : h.Sealing done) {a b : TypeId} (below : h.Below a b) (new : builtins.size ≤ b.index) :
    ReflTransGen (Asked done) a b := by
  induction below with
  | refl => exact .refl
  | tail _ edge ih =>
    obtain ⟨d, member, same⟩ := edge_source sealing edge new
    exact .tail (ih (same ▸ sealing.new d member)) (edge_asked sealing edge new)

theorem refused_iff_cycle (sealing : h.Sealing done) :
    (∃ d ∈ done, ∃ t, some t ∈ d.named ∧ t ∉ h.supertypesOf d.type) ↔ ∃ t, TransGen (Asked done) t t := by
  constructor
  · rintro ⟨d, member, t, named, left⟩
    have below := ((sealing.finished d member).decided t named).resolve_left left
    exact ⟨d.type, TransGen.head' ⟨d, member, rfl, named⟩ (below_asked sealing below (sealing.new d member))⟩
  · rintro ⟨t, cycle⟩
    by_contra all
    apply sealing.sealed.acyclic t
    refine TransGen.mono ?_ _ _ cycle
    rintro a b ⟨d, member, rfl, named⟩
    rw [edge_iff_supertype]
    by_contra left
    exact all ⟨d, member, b, named, left⟩

theorem sealing_snoc {d : Draft} (sealing : h.Sealing done) (sealed : g.Sealed) (grows : GrowsAt d.type h g)
    (finished : g.Finished d) (new : builtins.size ≤ d.type.index) (apart : ∀ e ∈ done, e.type ≠ d.type) :
    g.Sealing (done ++ [d]) := by
  constructor
  · exact sealed
  · exact each_snoc (fun e old => finished_grows (sealing.finished e old) grows (apart e old)) finished
  · exact each_snoc sealing.new new
  · intro t other
    rw [grows.others t (other d (by simp))]
    exact sealing.rest t (fun e member => other e (List.mem_append_left _ member))

theorem rooted (sealing : h.Sealing done) (all : ∀ t, h.Has t → builtins.size ≤ t.index → ∃ d ∈ done, d.type = t)
    {t : TypeId} (there : h.Has t) : h.supertypesOf t = [] ↔ t = .any := by
  by_cases known : ∃ d ∈ done, d.type = t
  · obtain ⟨d, member, rfl⟩ := known
    refine iff_of_false (sealing.finished d member).inhabited ?_
    intro same
    have new := sealing.new d member
    rw [same] at new
    exact absurd new (by decide)
  · rw [sealing.rest t (fun d member same => known ⟨d, member, same.symm⟩)]
    apply builtin_supertypes
    by_contra new
    exact known (all t there (Nat.le_of_not_lt new))

end Whole

end TypeHierarchy

end SemanticAnalysis
