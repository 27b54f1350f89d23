import SemanticAnalysis.Proofs.Construction.Sealing
import SemanticAnalysis.Proofs.Types.Applicability
import SemanticAnalysis.Proofs.Types.Remembering
/-!
Ways up from a type. The distance to a type above is the length of a shortest one, so a stop on the way never makes it
shorter. A common ancestor of some types is found by climbing: the climb ends, above all of them, and where no way up
forks it ends at the closest type of that kind.
-/
namespace SemanticAnalysis
open Relation Running

namespace TypeHierarchy
variable {h : TypeHierarchy} {a b c : TypeId} {n m k : Nat}

theorem subtype_iff_below (sealed : h.Sealed) : h.isSubtype a b = .ok true ↔ h.Below a b :=
  RememberingHierarchy.is_subtype_true_iff (r := { types := h }) ⟨sealed, trusted_empty⟩ a b

theorem walk_append (first : Walk h n a b) (second : Walk h m b c) : Walk h (n + m) a c := by
  induction first with
  | zero a =>
    rw [Nat.zero_add]
    exact second
  | next edge _ ih =>
    rw [Nat.add_right_comm]
    exact .next edge (ih second)

theorem away_zero_iff (away : h.Away n a b) : n = 0 ↔ a = b := by
  constructor
  · rintro rfl
    cases away.1
    rfl
  · rintro rfl
    exact Nat.le_zero.mp (away.2 0 (.zero a))

theorem away_triangle (low : h.Away n a b) (high : h.Away m b c) (whole : h.Away k a c) : k ≤ n + m :=
  whole.2 (n + m) (walk_append low.1 high.1)

theorem distance_refused (sealed : h.Sealed) (there : h.Has a) (apart : ¬ h.Below a b) :
    h.distance a b = .error (.notASupertype (h.nameOf a) (h.nameOf b)) := by
  obtain ⟨answer, asked, meaning⟩ := is_subtype_iff_below sealed there b
  have different : a ≠ b := fun same => apart (same ▸ below_refl a)
  have no : answer = false := by simpa [apart] using meaning
  rw [distance, distanceUsing, if_neg different, asked, no]
  rfl

/-- The recursion and the search by levels find the same distance, or the same fault. -/
theorem measure_eq_distance (sealed : h.Sealed) (a b : TypeId) : h.measure a b = h.distance a b := by
  by_cases same : a = b
  · rw [measure, measureUsing, distance, distanceUsing, if_pos same, if_pos same]
  · cases asked : h.isSubtype a b with
    | error e =>
      rw [measure, measureUsing, distance, distanceUsing, if_neg same, if_neg same, asked]
      rfl
    | ok answer =>
      cases answer with
      | false =>
        rw [measure, measureUsing, distance, distanceUsing, if_neg same, if_neg same, asked]
        rfl
      | true =>
        have below : h.Below a b := (subtype_iff_below sealed).mp asked
        obtain ⟨s, edge, _⟩ := (below_of_ne same).mp below
        have there := edge_source_has edge
        obtain ⟨n, measured, away⟩ := measure_shortest sealed there below
        obtain ⟨m, counted, away'⟩ := distance_shortest sealed there below
        rw [measured, counted, Away.unique away away']

def Unforked (h : TypeHierarchy) : Prop := ∀ t, (h.supertypesOf t).length ≤ 1

variable {t : TypeId}

theorem unforked_edge_unique (unforked : h.Unforked) {s : TypeId} (first : h.Edge a s) (second : h.Edge a t) :
    s = t := by
  have single := unforked a
  rw [edge_iff_supertype] at first second
  rcases listed : h.supertypesOf a with _ | ⟨only, _ | ⟨next, rest⟩⟩
  · simp [listed] at first
  · simp only [listed, List.mem_singleton] at first second
    rw [first, second]
  · simp [listed] at single

variable {u : TypeId}

theorem unforked_step (unforked : h.Unforked) {s : TypeId} (edge : h.Edge a s) (below : h.Below a u)
    (short : a ≠ u) : h.Below s u := by
  obtain ⟨t, other, rest⟩ := (below_of_ne short).mp below
  rwa [unforked_edge_unique unforked edge other]

theorem climb_closest (sealed : h.Sealed) (unforked : h.Unforked) (bound : Nat) (pivot other : TypeId)
    (swapped : Bool) (pivot_there : h.Has pivot) (other_there : h.Has other) (low : h.Below pivot u)
    (high : h.Below other u) {found : Option TypeId}
    (ran : h.climbUsing h.isSubtype bound pivot other swapped = .ok found) : ∃ t, found = some t ∧ h.Below t u := by
  obtain ⟨answer, asked, meaning⟩ := is_subtype_iff_below sealed other_there pivot
  induction bound generalizing pivot answer with
  | zero =>
    rw [climbUsing, asked, ok_bind] at ran
    split at ran
    · cases ran
      exact ⟨pivot, rfl, low⟩
    · cases ran
  | succ bound ih =>
    rw [climbUsing, asked, ok_bind] at ran
    split at ran
    · cases ran
      exact ⟨pivot, rfl, low⟩
    · rename_i away
      have short : pivot ≠ u := fun same => away (meaning.mpr (same ▸ high))
      obtain ⟨d, found, required⟩ := require_ok pivot_there
      have own : h.supertypesOf pivot = d.supertypes := by rw [supertypesOf, found]; rfl
      rw [required, of_except_ok, ok_bind] at ran
      split at ran
      · rename_i none
        obtain ⟨s, edge, _⟩ := (below_of_ne short).mp low
        rw [edge_iff_supertype, own, none] at edge
        exact absurd edge List.not_mem_nil
      · rename_i s only
        have edge : h.Edge pivot s := edge_iff_supertype.mpr (by rw [own, only]; exact List.mem_singleton.mpr rfl)
        obtain ⟨answer, asked, meaning⟩ := is_subtype_iff_below sealed other_there s
        exact ih s (sealed.closed edge) (unforked_step unforked edge low short) ran answer asked meaning
      · rename_i several single
        have one := unforked pivot
        rw [own] at one
        rcases listed : d.supertypes with _ | ⟨s, _ | ⟨second, rest⟩⟩
        · exact absurd listed several
        · exact absurd listed (single s)
        · simp [listed] at one

theorem climb_all_closest (sealed : h.Sealed) (unforked : h.Unforked) (pivot : TypeId)
    (others : List TypeId) (pivot_there : h.Has pivot) (others_there : ∀ t ∈ others, h.Has t)
    (low : h.Below pivot u) (high : ∀ t ∈ others, h.Below t u)
    (ran : h.climbAllUsing h.isSubtype pivot others = .ok t) : h.Below t u := by
  induction others generalizing pivot with
  | nil =>
    cases ran
    exact low
  | cons other rest ih =>
    have other_there := others_there other (List.mem_cons_self ..)
    obtain ⟨found, climbed, above⟩ := climb_ends sealed (2 * h.size + 2) pivot other false h.size pivot_there
      other_there (fun n b walk => walk_length_bounded sealed walk)
      (by simp only [Bool.false_eq_true, ↓reduceIte]; omega)
    obtain ⟨next, rfl, closer⟩ := climb_closest sealed unforked _ pivot other false pivot_there other_there low
      (high other (List.mem_cons_self ..)) climbed
    rw [climbAllUsing, climbed] at ran
    exact ih next (below_has sealed (above next rfl).1 pivot_there)
      (fun t member => others_there t (List.mem_cons_of_mem _ member)) closer
      (fun t member => high t (List.mem_cons_of_mem _ member)) ran

variable {types : List TypeId}

theorem common_ancestor_closest (sealed : h.Sealed) (unforked : h.Unforked)
    (there : ∀ t ∈ types, h.Has t) (found : h.commonAncestor types = .ok t)
    (above : ∀ a ∈ types, h.Below a u) : h.Below t u := by
  cases types with
  | nil => cases found
  | cons first rest =>
    exact climb_all_closest sealed unforked first rest (there first (List.mem_cons_self ..))
      (fun t member => there t (List.mem_cons_of_mem _ member)) (above first (List.mem_cons_self ..))
      (fun t member => above t (List.mem_cons_of_mem _ member)) found

theorem common_ancestor_above (sealed : h.Sealed) (rooted : ∀ t, h.Has t → h.Below t .any)
    (given : types ≠ []) (there : ∀ t ∈ types, h.Has t) :
    ∃ t, h.commonAncestor types = .ok t ∧ ∀ a ∈ types, h.Below a t := by
  obtain ⟨t, found, rfl | all⟩ := common_ancestor_ok sealed given there
  · exact ⟨.any, found, fun a member => rooted a (there a member)⟩
  · exact ⟨t, found, all⟩

/-- The least of the types that are above all the given ones. -/
structure LeastAbove (h : TypeHierarchy) (types : List TypeId) (t : TypeId) : Prop where
  above : ∀ a ∈ types, h.Below a t
  least : ∀ u, (∀ a ∈ types, h.Below a u) → h.Below t u

theorem common_ancestor_least (sealed : h.Sealed) (rooted : ∀ t, h.Has t → h.Below t .any) (unforked : h.Unforked)
    (given : types ≠ []) (there : ∀ t ∈ types, h.Has t) :
    ∃ t, h.commonAncestor types = .ok t ∧ h.LeastAbove types t := by
  obtain ⟨t, found, above⟩ := common_ancestor_above sealed rooted given there
  exact ⟨t, found, above, fun u bounds => common_ancestor_closest sealed unforked there found bounds⟩

theorem least_above_unique (sealed : h.Sealed) {types' : List TypeId} (same : ∀ a, a ∈ types' ↔ a ∈ types)
    {t' : TypeId} (first : h.LeastAbove types t) (second : h.LeastAbove types' t') : t' = t :=
  below_antisymm sealed (second.least t (fun a member => first.above a ((same a).mp member)))
    (first.least t' (fun a member => second.above a ((same a).mpr member)))

theorem unforked_of_all (each : ∀ d ∈ h.defs.toList, d.supertypes.length ≤ 1) : h.Unforked := by
  intro t
  unfold supertypesOf
  cases found : h.get? t with
  | none => exact Nat.zero_le 1
  | some d => exact each d (Array.mem_toList_iff.mpr (Array.mem_of_getElem? found))

end TypeHierarchy

namespace RememberingHierarchy
open TypeHierarchy

variable {r : RememberingHierarchy}

/-- After any calls, the recursion along the supertypes measures the length of a shortest way to a type above; the
distance to any other type is refused. Distances keep the triangle inequality. The search by levels gives the same
answers. -/
theorem distances_are_shortest_ways (reached : Reached r) :
    (∀ a b, (r.distance a b).1 = (r.measure a b).1) ∧
    (∀ a b, r.types.Has a →
      (ReflTransGen r.types.Edge a b → ∃ n, (r.measure a b).1 = .ok n ∧ r.types.Away n a b ∧ (n = 0 ↔ a = b)) ∧
      (¬ ReflTransGen r.types.Edge a b →
        (r.measure a b).1 = .error (.notASupertype (r.types.nameOf a) (r.types.nameOf b)))) ∧
    (∀ a b c, r.types.Has a → (r.isSubtype a b).1 = .ok true → (r.isSubtype b c).1 = .ok true →
      ∃ n m k, (r.measure a b).1 = .ok n ∧ (r.measure b c).1 = .ok m ∧ (r.measure a c).1 = .ok k ∧
        k ≤ n + m) := by
  have coherent := reached_coherent reached
  simp only [measure_unremembered coherent, distance_unremembered coherent, is_subtype_true_iff coherent,
    measure_eq_distance coherent.sealed]
  refine ⟨fun a b => trivial, fun a b there => ⟨fun below => ?_, fun apart => ?_⟩, fun a b c there low high => ?_⟩
  · obtain ⟨n, counted, away⟩ := distance_shortest coherent.sealed there below
    exact ⟨n, counted, away, away_zero_iff away⟩
  · exact distance_refused coherent.sealed there apart
  · have middle := below_has coherent.sealed low there
    obtain ⟨n, first, lower⟩ := distance_shortest coherent.sealed there low
    obtain ⟨m, second, upper⟩ := distance_shortest coherent.sealed middle high
    obtain ⟨k, total, whole⟩ := distance_shortest coherent.sealed there (low.trans high)
    exact ⟨n, m, k, first, second, total, away_triangle lower upper whole⟩

theorem distances_of_a_taxi : ∃ r, Reached r ∧ r.types.Away 2 ⟨8⟩ ⟨6⟩ ∧ r.types.Away 1 ⟨8⟩ .any ∧
    (r.measure ⟨6⟩ ⟨8⟩).1 = .error (.notASupertype "Vehicle" "Taxi") ∧
    (r.distance ⟨8⟩ .any).1 = (r.measure ⟨8⟩ .any).1 ∧
    ∃ n m k, (r.measure ⟨8⟩ ⟨6⟩).1 = .ok n ∧ (r.measure ⟨6⟩ .any).1 = .ok m ∧ (r.measure ⟨8⟩ .any).1 = .ok k ∧
      k ≤ n + m := by
  have reached : Reached (((((({ types := .builtins } : RememberingHierarchy).after
      (.declare (.root "Vehicle"))).after (.isSubtype ⟨6⟩ .any)).after (.addSupertype ⟨6⟩ .any)).after
      (.register { name := .root "Car", supertypes := [⟨6⟩] })).after
      (.register { name := .root "Taxi", supertypes := [⟨7⟩, .any] })) :=
    .next (.next (.next (.next (.next .builtins _) _) _) _) _
  obtain ⟨same, measured, triangle⟩ := distances_are_shortest_ways reached
  have coherent := reached_coherent reached
  refine ⟨_, reached, ?_, ?_, ?_, same _ _, ?_⟩
  · obtain ⟨n, counted, away, _⟩ := (measured ⟨8⟩ ⟨6⟩ (by unfold Has; decide +kernel)).1
      ((is_subtype_true_iff coherent ⟨8⟩ ⟨6⟩).mp (by decide +kernel))
    have two : n = 2 := Except.ok.inj (counted.symm.trans (by decide +kernel))
    exact two ▸ away
  · obtain ⟨n, counted, away, _⟩ := (measured ⟨8⟩ .any (by unfold Has; decide +kernel)).1
      ((is_subtype_true_iff coherent ⟨8⟩ .any).mp (by decide +kernel))
    have one : n = 1 := Except.ok.inj (counted.symm.trans (by decide +kernel))
    exact one ▸ away
  · have refused := (measured ⟨6⟩ ⟨8⟩ (by unfold Has; decide +kernel)).2
      (fun below => absurd ((is_subtype_true_iff coherent ⟨6⟩ ⟨8⟩).mpr below) (by decide +kernel))
    exact refused.trans (by decide +kernel)
  · exact triangle ⟨8⟩ ⟨6⟩ .any (by unfold Has; decide +kernel) (by decide +kernel) (by decide +kernel)

end RememberingHierarchy

theorem construct_rooted {options : Options} {modules : List Tree.Module} {p : Program} {findings : List Diagnostic}
    (built : Program.construct options modules = .ok (p, findings)) :
    p.types.Sealed ∧ ∀ t, p.types.Has t → p.types.Below t .any := by
  have seals := construct_seals built
  refine ⟨seals.sealing.sealed, fun t known => ?_⟩
  refine TypeHierarchy.below_any seals.sealing.sealed (fun s has other none => other ?_) known
  exact (TypeHierarchy.rooted seals.sealing (fun t => Program.types_are_drafts seals) has).mp none

/-- Some types of a constructed program have a common ancestor: climbing ends, above all of them, whatever is remembered
of earlier questions. Where no way up forks there is no closer one. -/
theorem common_ancestors_are_above {options : Options} {modules : List Tree.Module} {p : Program}
    {findings : List Diagnostic} (built : Program.construct options modules = .ok (p, findings))
    (types : List TypeId) (given : types ≠ []) (there : ∀ t ∈ types, p.types.Has t) :
    ∃ t, p.types.commonAncestor types = .ok t ∧ (∀ a ∈ types, p.types.isSubtype a t = .ok true) ∧
      (∀ answers, p.types.Trusted answers →
        (({ types := p.types, answers } : RememberingHierarchy).commonAncestor types).1 = .ok t) ∧
      (p.types.Unforked → ∀ u, (∀ a ∈ types, p.types.isSubtype a u = .ok true) →
        p.types.isSubtype t u = .ok true) := by
  have seals := construct_seals built
  have sealed := seals.sealing.sealed
  have rooted : ∀ t, p.types.Has t → p.types.Below t .any := fun t known =>
    TypeHierarchy.below_any sealed (fun s has other none => other ((TypeHierarchy.rooted seals.sealing
      (fun t => Program.types_are_drafts seals) has).mp none)) known
  simp only [TypeHierarchy.subtype_iff_below sealed]
  obtain ⟨t, found, above⟩ := TypeHierarchy.common_ancestor_ok sealed given there
  refine ⟨t, found, ?_, ?_, ?_⟩
  · intro a member
    rcases above with rfl | all
    · exact rooted a (there a member)
    · exact all a member
  · intro answers trusted
    rw [RememberingHierarchy.common_ancestor_unremembered ⟨sealed, trusted⟩, found]
  · intro unforked u bounds
    exact TypeHierarchy.common_ancestor_closest sealed unforked there found bounds

def Tree.extending (text : String) (supertypes : List String) : Tree.Item :=
  .struct ⟨⟨text, {}⟩, supertypes.map (fun supertype => { name := ⟨supertype, {}⟩, span := {} }), [], {}⟩

def Tree.amphibious : Tree.Module :=
  { path := []
    imports := []
    items := [Tree.extending "Car" [], Tree.extending "Boat" [], Tree.extending "Duck" ["Car", "Boat"],
      Tree.extending "Ferry" ["Car", "Boat"]]
    notices := []
    span := {} }

theorem ancestors_of_a_duck : ∃ p findings, Program.construct {} [Tree.amphibious] = .ok (p, findings) ∧
    p.types.commonAncestor [⟨8⟩, ⟨6⟩] = .ok ⟨6⟩ ∧ p.types.isSubtype ⟨8⟩ ⟨6⟩ = .ok true ∧
    p.types.commonAncestor [⟨8⟩, ⟨9⟩, ⟨7⟩] = .ok .any ∧ p.types.isSubtype ⟨9⟩ .any = .ok true ∧
    p.types.isSubtype ⟨7⟩ .any = .ok true := by
  have evaluated : (Program.construct {} [Tree.amphibious]).toOption.any (fun built => decide (
      built.1.types.size = 10 ∧ built.1.types.commonAncestor [⟨8⟩, ⟨6⟩] = .ok ⟨6⟩ ∧
      built.1.types.commonAncestor [⟨8⟩, ⟨9⟩, ⟨7⟩] = .ok .any)) = true := by decide +kernel
  obtain ⟨⟨p, findings⟩, built, size, swapping, forking⟩ := ok_of_passed evaluated
  have there : ∀ t ∈ ([⟨8⟩, ⟨9⟩, ⟨7⟩, ⟨6⟩] : List TypeId), p.types.Has t := by
    intro t member
    unfold TypeHierarchy.Has
    rw [size]
    revert t
    decide
  obtain ⟨t, found, above, _⟩ := common_ancestors_are_above built [⟨8⟩, ⟨6⟩] (by decide)
    (fun t member => there t (by revert t; decide))
  obtain ⟨u, found', above', _⟩ := common_ancestors_are_above built [⟨8⟩, ⟨9⟩, ⟨7⟩] (by decide)
    (fun t member => there t (by revert t; decide))
  cases found.symm.trans swapping
  cases found'.symm.trans forking
  exact ⟨p, findings, built, found, above ⟨8⟩ (by decide), found', above' ⟨9⟩ (by decide), above' ⟨7⟩ (by decide)⟩

/-- Where no type has two direct supertypes, the common ancestor of some types is the least type above all of them. So
it depends neither on the order in which they are given nor on how often, whatever is remembered of earlier
questions. -/
theorem single_inheritance_has_least_ancestors {options : Options} {modules : List Tree.Module} {p : Program}
    {findings : List Diagnostic} (built : Program.construct options modules = .ok (p, findings))
    (unforked : p.types.Unforked) (types : List TypeId) (given : types ≠ []) (there : ∀ t ∈ types, p.types.Has t) :
    ∃ t, p.types.commonAncestor types = .ok t ∧ (∀ a ∈ types, p.types.isSubtype a t = .ok true) ∧
      (∀ u, (∀ a ∈ types, p.types.isSubtype a u = .ok true) → p.types.isSubtype t u = .ok true) ∧
      ∀ types', (∀ a, a ∈ types' ↔ a ∈ types) → p.types.commonAncestor types' = .ok t ∧
        ∀ answers, p.types.Trusted answers →
          (({ types := p.types, answers } : RememberingHierarchy).commonAncestor types').1 = .ok t := by
  obtain ⟨sealed, rooted⟩ := construct_rooted built
  simp only [TypeHierarchy.subtype_iff_below sealed]
  obtain ⟨t, found, least⟩ := TypeHierarchy.common_ancestor_least sealed rooted unforked given there
  refine ⟨t, found, least.above, least.least, fun types' same => ?_⟩
  obtain ⟨a, listed⟩ := List.exists_mem_of_ne_nil types given
  obtain ⟨t', found', least'⟩ := TypeHierarchy.common_ancestor_least sealed rooted unforked
    (List.ne_nil_of_mem ((same a).mpr listed)) (fun a member => there a ((same a).mp member))
  have unchanged : p.types.commonAncestor types' = .ok t := by
    rw [found', TypeHierarchy.least_above_unique sealed same least least']
  refine ⟨unchanged, fun answers trusted => ?_⟩
  rw [RememberingHierarchy.common_ancestor_unremembered ⟨sealed, trusted⟩, unchanged]

def Tree.fleet : Tree.Module :=
  { path := []
    imports := []
    items := [Tree.extending "Vehicle" [], Tree.extending "Car" ["Vehicle"], Tree.extending "Taxi" ["Car"],
      Tree.extending "Bus" ["Vehicle"]]
    notices := []
    span := {} }

theorem fleet_meets_at_the_vehicle : ∃ p findings, Program.construct {} [Tree.fleet] = .ok (p, findings) ∧
    p.types.Unforked ∧ p.types.commonAncestor [⟨8⟩, ⟨9⟩, ⟨7⟩] = .ok ⟨6⟩ ∧
    p.types.commonAncestor [⟨9⟩, ⟨7⟩, ⟨9⟩, ⟨8⟩] = .ok ⟨6⟩ ∧ p.types.isSubtype ⟨8⟩ ⟨6⟩ = .ok true ∧
    ∀ u, (∀ a ∈ ([⟨8⟩, ⟨9⟩, ⟨7⟩] : List TypeId), p.types.isSubtype a u = .ok true) →
      p.types.isSubtype ⟨6⟩ u = .ok true := by
  have evaluated : (Program.construct {} [Tree.fleet]).toOption.any (fun built => decide (
      built.1.types.size = 10 ∧ (∀ d ∈ built.1.types.defs.toList, d.supertypes.length ≤ 1) ∧
      built.1.types.commonAncestor [⟨8⟩, ⟨9⟩, ⟨7⟩] = .ok ⟨6⟩)) = true := by decide +kernel
  obtain ⟨⟨p, findings⟩, built, size, single, met⟩ := ok_of_passed evaluated
  have unforked : p.types.Unforked := TypeHierarchy.unforked_of_all single
  have there : ∀ t ∈ ([⟨8⟩, ⟨9⟩, ⟨7⟩] : List TypeId), p.types.Has t := by
    intro t member
    unfold TypeHierarchy.Has
    rw [size]
    revert t
    decide
  obtain ⟨t, found, above, least, anyhow⟩ :=
    single_inheritance_has_least_ancestors built unforked [⟨8⟩, ⟨9⟩, ⟨7⟩] (by decide) there
  cases found.symm.trans met
  have reordered := (anyhow [⟨9⟩, ⟨7⟩, ⟨9⟩, ⟨8⟩] (by grind)).1
  exact ⟨p, findings, built, unforked, found, reordered, above ⟨8⟩ (by decide), least⟩

end SemanticAnalysis
