import Mathlib.Logic.Relation
import SemanticAnalysis.Types.Subtype
/-!
The relation that the direct supertypes span. A hierarchy is sealed if every supertype it names is there and no type
is above itself. Walks in a sealed hierarchy are no longer than there are types, and growing keeps it sealed as long
as an edge is only added where it closes no cycle.
-/
namespace SemanticAnalysis.TypeHierarchy
open Relation

def Edge (h : TypeHierarchy) (a b : TypeId) : Prop := ∃ d, h.get? a = some d ∧ b ∈ d.supertypes

def Below (h : TypeHierarchy) : TypeId → TypeId → Prop := ReflTransGen h.Edge

def Has (h : TypeHierarchy) (a : TypeId) : Prop := a.index < h.size

inductive Walk (h : TypeHierarchy) : Nat → TypeId → TypeId → Prop where
  | zero (a : TypeId) : Walk h 0 a a
  | next {n : Nat} {a b c : TypeId} (edge : h.Edge a b) (tail : Walk h n b c) : Walk h (n + 1) a c

structure Sealed (h : TypeHierarchy) : Prop where
  closed : ∀ {a b}, h.Edge a b → h.Has b
  acyclic : ∀ a, ¬ TransGen h.Edge a a

variable {h : TypeHierarchy} {a b c : TypeId} {n : Nat}

theorem get_some_iff_has : (∃ d, h.get? a = some d) ↔ h.Has a := by
  constructor
  · rintro ⟨d, found⟩
    exact (Array.getElem?_eq_some_iff.mp found).1
  · intro there
    exact ⟨h.defs[a.index], Array.getElem?_eq_getElem there⟩

theorem edge_source_has (edge : h.Edge a b) : h.Has a := by
  obtain ⟨d, found, _⟩ := edge
  exact get_some_iff_has.mp ⟨d, found⟩

theorem require_ok (there : h.Has a) : ∃ d, h.get? a = some d ∧ h.require a = .ok d := by
  obtain ⟨d, found⟩ := get_some_iff_has.mpr there
  refine ⟨d, found, ?_⟩
  rw [require, found]

theorem walk_below (walk : Walk h n a b) : h.Below a b := by
  induction walk with
  | zero a => exact .refl
  | next edge _ ih => exact .head edge ih

theorem below_walk (below : h.Below a b) : ∃ n, Walk h n a b := by
  induction below using ReflTransGen.head_induction_on with
  | refl => exact ⟨0, .zero b⟩
  | head edge _ ih =>
    obtain ⟨n, walk⟩ := ih
    exact ⟨n + 1, .next edge walk⟩

theorem below_has (sealed : h.Sealed) (below : h.Below a b) (there : h.Has a) : h.Has b := by
  cases below.cases_tail with
  | inl same => exact same ▸ there
  | inr last =>
    obtain ⟨_, _, edge⟩ := last
    exact sealed.closed edge

theorem walk_meets (sealed : h.Sealed) (walk : Walk h n a b) :
    ∃ met : List TypeId, met.length = n ∧ met.Nodup ∧ ∀ t ∈ met, h.Has t ∧ TransGen h.Edge a t := by
  induction walk with
  | zero a => exact ⟨[], rfl, .nil, by simp⟩
  | @next m a b c edge _ ih =>
    obtain ⟨met, length, distinct, above⟩ := ih
    refine ⟨b :: met, by rw [List.length_cons, length], ?_, ?_⟩
    · refine List.nodup_cons.mpr ⟨?_, distinct⟩
      intro again
      exact sealed.acyclic b (above b again).2
    · intro t member
      rcases List.mem_cons.mp member with first | later
      · subst first
        exact ⟨sealed.closed edge, .single edge⟩
      · exact ⟨(above t later).1, .head edge (above t later).2⟩

theorem nodup_length_le {met : List TypeId} (distinct : met.Nodup) (there : ∀ t ∈ met, h.Has t) :
    met.length ≤ h.size := by
  have subset : met ⊆ (List.range h.size).map TypeId.mk := by
    intro t member
    exact List.mem_map.mpr ⟨t.index, List.mem_range.mpr (there t member), rfl⟩
  simpa using distinct.length_le_of_subset subset

theorem walk_length_bounded (sealed : h.Sealed) (walk : Walk h n a b) : n ≤ h.size := by
  obtain ⟨met, length, distinct, above⟩ := walk_meets sealed walk
  rw [← length]
  exact nodup_length_le distinct (fun t member => (above t member).1)

theorem below_antisymm (sealed : h.Sealed) (up : h.Below a b) (down : h.Below b a) : a = b := by
  cases reflTransGen_iff_eq_or_transGen.mp up with
  | inl same => exact same.symm
  | inr strict => exact absurd (strict.trans_left down) (sealed.acyclic a)

theorem sealed_of_decreasing (smaller : ∀ a b, h.Edge a b → b.index < a.index) : h.Sealed where
  closed edge := Nat.lt_trans (smaller _ _ edge) (edge_source_has edge)
  acyclic a cycle := by
    have descent : ∀ b, TransGen h.Edge a b → b.index < a.index := by
      intro b path
      induction path with
      | single edge => exact smaller _ _ edge
      | tail _ edge ih => exact Nat.lt_trans (smaller _ _ edge) ih
    exact Nat.lt_irrefl _ (descent a cycle)

theorem builtins_sealed : builtins.Sealed := by
  apply sealed_of_decreasing
  intro a b edge
  have there : a.index < 6 := edge_source_has edge
  have table : ∀ i : Fin 6, ∀ s ∈ (builtins.defs[i.val]?.map TypeDef.supertypes).getD [], s.index < i.val := by
    decide
  obtain ⟨d, found, member⟩ := edge
  have entry : builtins.defs[a.index]? = some d := found
  exact table ⟨a.index, there⟩ b (by simpa [entry] using member)

theorem edge_push (d : TypeDef) : (h.push d).2.Edge a b ↔ h.Edge a b ∨ (a = ⟨h.size⟩ ∧ b ∈ d.supertypes) := by
  unfold Edge push get? size
  simp only [Array.getElem?_push]
  constructor
  · rintro ⟨e, found, member⟩
    split at found
    · rename_i last
      cases found
      obtain ⟨i⟩ := a
      exact .inr ⟨congrArg TypeId.mk last, member⟩
    · exact .inl ⟨e, found, member⟩
  · rintro (⟨e, found, member⟩ | ⟨rfl, member⟩)
    · refine ⟨e, ?_, member⟩
      have there := (Array.getElem?_eq_some_iff.mp found).1
      rw [if_neg (by omega), found]
    · exact ⟨d, by simp, member⟩

theorem has_push (d : TypeDef) (there : h.Has a) : (h.push d).2.Has a := by
  unfold Has size push at *
  rw [Array.size_push]
  omega

theorem edge_push_has (sealed : h.Sealed) {d : TypeDef} (there : ∀ s ∈ d.supertypes, h.Has s)
    (edge : (h.push d).2.Edge a b) : h.Has b := by
  rcases (edge_push d).mp edge with old | ⟨_, member⟩
  · exact sealed.closed old
  · exact there b member

theorem edge_push_old {d : TypeDef} (known : h.Has a) : (h.push d).2.Edge a b ↔ h.Edge a b := by
  rw [edge_push]
  constructor
  · rintro (old | ⟨rfl, _⟩)
    · exact old
    · exact absurd known (Nat.lt_irrefl h.size)
  · exact .inl

theorem below_push (sealed : h.Sealed) {d : TypeDef} (known : h.Has a) :
    (h.push d).2.Below a b ↔ h.Below a b := by
  constructor
  · intro below
    induction below using ReflTransGen.head_induction_on with
    | refl => exact .refl
    | head edge _ ih =>
      have old := (edge_push_old known).mp edge
      exact .head old (ih (sealed.closed old))
  · intro below
    exact ReflTransGen.mono (fun s t edge => (edge_push d).mpr (.inl edge)) _ _ below

theorem push_sealed (sealed : h.Sealed) {d : TypeDef} (there : ∀ s ∈ d.supertypes, h.Has s) :
    (h.push d).2.Sealed := by
  constructor
  · intro a b edge
    exact has_push d (edge_push_has sealed there edge)
  · intro a cycle
    -- a cycle ends with an edge, so it lies among the types that were there before
    obtain ⟨s, _, last⟩ := TransGen.tail'_iff.mp cycle
    have known := edge_push_has sealed there last
    have old : ∀ b, TransGen (h.push d).2.Edge a b → TransGen h.Edge a b := by
      intro b path
      induction path with
      | single edge => exact .single ((edge_push_old known).mp edge)
      | tail _ edge ih =>
        obtain ⟨t, _, before⟩ := TransGen.tail'_iff.mp ih
        exact ih.tail ((edge_push_old (sealed.closed before)).mp edge)
    exact sealed.acyclic a (old a cycle)

theorem declare_sealed (sealed : h.Sealed) (name : QualifiedName) : (h.declare name).2.Sealed :=
  push_sealed sealed (by simp)

theorem edge_attach (there : h.Has a) {s t : TypeId} :
    (h.attach a b).Edge s t ↔ h.Edge s t ∨ (s = a ∧ t = b) := by
  unfold Edge attach get?
  simp only [Array.getElem?_modify]
  obtain ⟨i⟩ := a
  obtain ⟨j⟩ := s
  by_cases same : i = j
  · subst same
    simp only [↓reduceIte, Option.map_eq_some_iff, true_and]
    have entry : h.defs[i]? = some h.defs[i] := Array.getElem?_eq_getElem there
    rw [entry]
    simp only [Option.some.injEq, exists_eq_left']
    by_cases listed : b ∈ h.defs[i].supertypes
    · simp only [listed, ↓reduceIte]
      constructor
      · exact .inl
      · rintro (old | rfl)
        · exact old
        · exact listed
    · simp [listed]
  · have other : (⟨j⟩ : TypeId) ≠ ⟨i⟩ := fun equal => same (TypeId.mk.inj equal).symm
    simp [same, other]

/-- A path that uses the new edge goes up to its lower end and on from its upper end. -/
theorem path_attach (there : h.Has a) {s t : TypeId} (path : TransGen (h.attach a b).Edge s t) :
    TransGen h.Edge s t ∨ (h.Below s a ∧ h.Below b t) := by
  induction path with
  | single edge =>
    rcases (edge_attach there).mp edge with old | ⟨rfl, rfl⟩
    · exact .inl (.single old)
    · exact .inr ⟨.refl, .refl⟩
  | tail _ edge ih =>
    rcases (edge_attach there).mp edge with old | ⟨rfl, rfl⟩
    · rcases ih with path | ⟨low, high⟩
      · exact .inl (path.tail old)
      · exact .inr ⟨low, high.tail old⟩
    · rcases ih with path | ⟨low, _⟩
      · exact .inr ⟨path.to_reflTransGen, .refl⟩
      · exact .inr ⟨low, .refl⟩

theorem attach_sealed (sealed : h.Sealed) (lower : h.Has a) (upper : h.Has b) (open_ : ¬ h.Below b a) :
    (h.attach a b).Sealed := by
  constructor
  · intro s t edge
    have size : (h.attach a b).size = h.size := by simp [attach, TypeHierarchy.size]
    unfold Has
    rw [size]
    rcases (edge_attach lower).mp edge with old | ⟨_, rfl⟩
    · exact sealed.closed old
    · exact upper
  · intro t cycle
    rcases path_attach lower cycle with old | ⟨low, high⟩
    · exact sealed.acyclic t old
    · exact open_ (ReflTransGen.trans high low)

def implied (h : TypeHierarchy) (a : TypeId) : Option TypeModifier := (h.get? a).bind TypeDef.impliedModifier

theorem implied_push (d : TypeDef) (there : h.Has a) : (h.push d).2.implied a = h.implied a := by
  change a.index < h.defs.size at there
  unfold implied push get?
  rw [Array.getElem?_push, if_neg (by omega)]

theorem implied_attach (a b t : TypeId) : (h.attach a b).implied t = h.implied t := by
  unfold implied attach get?
  rw [Array.getElem?_modify]
  split
  · rw [Option.bind_map]
    congr 1
    funext d
    dsimp only [Function.comp]
    split <;> rfl
  · rfl

end SemanticAnalysis.TypeHierarchy
