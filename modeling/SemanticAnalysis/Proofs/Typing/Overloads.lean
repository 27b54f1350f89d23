import Mathlib.Algebra.GroupWithZero.Nat
import Mathlib.Data.Nat.Find
import SemanticAnalysis.Proofs.Construction.Soundness
import SemanticAnalysis.Proofs.Typing.Dispatch
/-!
The candidates for a call, best first. A candidate applies if it fits the receiver and the arguments, and it is as far
from them as all known types together are from the ones they are compared with. Those that apply keep their order where
they are equally far, so a call is ambiguous if two of the nearest ones are.
-/
namespace SemanticAnalysis
open Running TypeHierarchy

/-- The second list is the first one sorted by a number, with equal elements left in their order. -/
structure StablySorts {α : Type} (key : α → Nat) (xs ys : List α) : Prop where
  perm : ys.Perm xs
  sorted : ys.Pairwise (fun a b => key a ≤ key b)
  stable : ∀ n, ys.filter (fun y => key y == n) = xs.filter (fun x => key x == n)

theorem stable_sort_sorts {α : Type} (key : α → Nat) (xs : List α) :
    StablySorts key xs (stableSort (fun a b => key a ≤ key b) xs) := by
  constructor
  · exact stable_sort_perm _ xs
  · apply (stable_sort_sorted (fun a b c => by simpa using Nat.le_trans) (fun a b => by simp [Nat.le_total]) xs).imp
    exact fun ordered => of_decide_eq_true ordered
  · intro n
    apply stable_sort_filter
    intro a b here there
    rw [beq_iff_eq] at here there
    exact decide_eq_true (Nat.le_of_eq (here.trans there.symm))

namespace Overload

theorem is_ambiguous_iff {ranked : List Match} (sorted : ranked.Pairwise (fun m n => m.distance ≤ n.distance)) :
    isAmbiguous ranked = true ↔
      ∃ d, (∀ m ∈ ranked, d ≤ m.distance) ∧ 2 ≤ ranked.countP (fun m => m.distance == d) := by
  cases ranked with
  | nil => simp [isAmbiguous]
  | cons best rest =>
    obtain ⟨first, others⟩ := List.pairwise_cons.mp sorted
    cases rest with
    | nil =>
      refine iff_of_false Bool.false_ne_true ?_
      rintro ⟨d, _, two⟩
      have := List.countP_le_length (p := fun m : Match => m.distance == d) (l := [best])
      rw [List.length_singleton] at this
      omega
    | cons second rest =>
      have bound : ∀ m ∈ best :: second :: rest, best.distance ≤ m.distance := by
        intro m member
        rcases List.mem_cons.mp member with rfl | later
        · exact Nat.le_refl _
        · exact first m later
      rw [isAmbiguous, beq_iff_eq]
      constructor
      · intro tied
        exact ⟨best.distance, bound, by simp [tied]⟩
      · rintro ⟨d, least, two⟩
        obtain ⟨m, member, same⟩ := List.countP_pos_iff.mp (Nat.lt_of_lt_of_le Nat.zero_lt_two two)
        have nearest : d = best.distance :=
          Nat.le_antisymm (least best (List.mem_cons_self ..)) (beq_iff_eq.mp same ▸ bound m member)
        by_contra apart
        -- all others are at least as far as the second one, so the best one alone is counted
        have alone : (second :: rest).countP (fun m => m.distance == d) = 0 := by
          apply List.countP_eq_zero.mpr
          intro m later
          have near := bound second (by simp)
          have far : second.distance ≤ m.distance := by
            rcases List.mem_cons.mp later with rfl | last
            · exact Nat.le_refl _
            · exact (List.pairwise_cons.mp others).1 m last
          rw [beq_iff_eq]
          omega
        rw [List.countP_cons, alone] at two
        split at two <;> omega

variable {h : TypeHierarchy} {s : Signature} {receiver : Option TypeRef} {arguments : List (Option TypeRef)}

/-- A function of a signature takes a receiver and arguments. Types that are not known rule nothing out. -/
structure Fits (h : TypeHierarchy) (s : Signature) (receiver : Option TypeRef) (arguments : List (Option TypeRef)) :
    Prop where
  presence : s.hasReceiver = receiver.isSome
  receiver : ∀ actual declared, receiver = some actual → s.receiver = some declared →
    h.Below actual.base declared.base
  arity : s.params.length = arguments.length
  arguments : ∀ param argument, (some param, some argument) ∈ s.params.zip arguments → h.Accepts param argument

def comparedReceiver (s : Signature) (receiver : Option TypeRef) : Option (TypeId × TypeId) :=
  receiver.bind (fun actual => s.receiver.map (fun declared => (actual.base, declared.base)))

def comparedArgument (pair : Option TypeRef × Option TypeRef) : Option (TypeId × TypeId) :=
  pair.1.bind (fun param => pair.2.map (fun argument => (argument.base, param.base)))

/-- The known types of a call, each with the one that it is compared with. -/
def compared (s : Signature) (receiver : Option TypeRef) (arguments : List (Option TypeRef)) : List (TypeId × TypeId) :=
  (comparedReceiver s receiver).toList ++ (s.params.zip arguments).filterMap comparedArgument

/-- The lengths of shortest ways up the hierarchy add up to a number. -/
def TotalAway (h : TypeHierarchy) (pairs : List (TypeId × TypeId)) (d : Nat) : Prop :=
  ∃ lengths : List Nat, List.Forall₂ (fun pair n => h.Away n pair.1 pair.2) pairs lengths ∧ lengths.sum = d

theorem total_away_nil {d : Nat} : TotalAway h [] d ↔ d = 0 := by
  constructor
  · rintro ⟨_, ⟨⟩, rfl⟩
    rfl
  · rintro rfl
    exact ⟨[], .nil, rfl⟩

theorem total_away_cons {a b : TypeId} {pairs : List (TypeId × TypeId)} {d : Nat} :
    TotalAway h ((a, b) :: pairs) d ↔ ∃ n m, h.Away n a b ∧ TotalAway h pairs m ∧ d = n + m := by
  constructor
  · rintro ⟨lengths, related, rfl⟩
    cases related with
    | cons away rest => exact ⟨_, _, away, ⟨_, rest, rfl⟩, List.sum_cons⟩
  · rintro ⟨n, m, away, ⟨lengths, rest, rfl⟩, rfl⟩
    exact ⟨n :: lengths, .cons away rest, List.sum_cons⟩

theorem total_away_single {a b : TypeId} {d : Nat} : TotalAway h [(a, b)] d ↔ h.Away d a b := by
  rw [total_away_cons]
  simp [total_away_nil]

theorem total_away_bounded (sealed : h.Sealed) {pairs : List (TypeId × TypeId)} {d : Nat}
    (total : TotalAway h pairs d) : d ≤ pairs.length * h.size := by
  induction pairs generalizing d with
  | nil => simp [total_away_nil.mp total]
  | cons pair pairs ih =>
    obtain ⟨n, m, away, rest, rfl⟩ := total_away_cons.mp total
    have first := walk_length_bounded sealed away.1
    have others := ih rest
    rw [List.length_cons, Nat.succ_mul]
    omega

theorem compared_length (s : Signature) (receiver : Option TypeRef) (arguments : List (Option TypeRef)) :
    (compared s receiver arguments).length ≤ arguments.length + 1 := by
  have first : (comparedReceiver s receiver).toList.length ≤ 1 := by cases comparedReceiver s receiver <;> simp
  have others := List.length_filterMap_le comparedArgument (s.params.zip arguments)
  rw [List.length_zip] at others
  rw [compared, List.length_append]
  omega

theorem receiver_fits_iff {n : Nat} :
    ReceiverFits h s receiver n ↔ s.hasReceiver = receiver.isSome ∧
      (∀ actual declared, receiver = some actual → s.receiver = some declared → h.Below actual.base declared.base) ∧
      TotalAway h (comparedReceiver s receiver).toList n := by
  constructor
  · intro fits
    cases fits with
    | absent without => exact ⟨without, nofun, total_away_nil.mpr rfl⟩
    | unstated actual has unknown =>
      refine ⟨has, ?_, ?_⟩
      · intro _ declared _ stated
        cases unknown.symm.trans stated
      · rw [comparedReceiver, Option.bind_some, unknown]
        exact total_away_nil.mpr rfl
    | below actual declared n has stated away =>
      refine ⟨has, ?_, ?_⟩
      · intro actual' declared' same stated'
        cases same
        cases stated.symm.trans stated'
        exact walk_below away.1
      · rw [comparedReceiver, Option.bind_some, stated]
        exact total_away_single.mpr away
  · rintro ⟨presence, _, total⟩
    cases receiver with
    | none =>
      rw [total_away_nil.mp total]
      exact .absent presence
    | some actual =>
      cases stated : s.receiver with
      | none =>
        rw [comparedReceiver, Option.bind_some, stated] at total
        rw [total_away_nil.mp total]
        exact .unstated actual presence stated
      | some declared =>
        rw [comparedReceiver, Option.bind_some, stated] at total
        exact .below actual declared n presence stated (total_away_single.mp total)

theorem argument_fits_iff {param argument : Option TypeRef} {n : Nat} :
    ArgumentFits h param argument n ↔
      (∀ p a, param = some p → argument = some a → h.Accepts p a) ∧
      TotalAway h (comparedArgument (param, argument)).toList n := by
  constructor
  · intro fits
    cases fits with
    | below param argument n nullable away =>
      refine ⟨?_, total_away_single.mpr away⟩
      intro p a first second
      cases first
      cases second
      exact ⟨nullable, walk_below away.1⟩
    | _ => exact ⟨nofun, total_away_nil.mpr rfl⟩
  · rintro ⟨accepts, total⟩
    cases param with
    | none =>
      rw [total_away_nil.mp total]
      exact .unstated argument
    | some param =>
      cases argument with
      | none =>
        rw [total_away_nil.mp total]
        exact .unknown param
      | some argument =>
        exact .below param argument n (accepts param argument rfl rfl).1 (total_away_single.mp total)

theorem total_away_append {xs ys : List (TypeId × TypeId)} {d : Nat} :
    TotalAway h (xs ++ ys) d ↔ ∃ n m, TotalAway h xs n ∧ TotalAway h ys m ∧ d = n + m := by
  induction xs generalizing d with
  | nil => simp [total_away_nil]
  | cons pair xs ih =>
    obtain ⟨a, b⟩ := pair
    rw [List.cons_append, total_away_cons]
    constructor
    · rintro ⟨n, m, away, rest, rfl⟩
      obtain ⟨k, l, first, second, rfl⟩ := ih.mp rest
      exact ⟨n + k, l, total_away_cons.mpr ⟨n, k, away, first, rfl⟩, second, (Nat.add_assoc ..).symm⟩
    · rintro ⟨_, l, whole, second, rfl⟩
      obtain ⟨n, k, away, first, rfl⟩ := total_away_cons.mp whole
      exact ⟨n, k + l, away, ih.mpr ⟨k, l, first, second, rfl⟩, Nat.add_assoc ..⟩

theorem arguments_fit_iff {params arguments : List (Option TypeRef)} {n : Nat} :
    ArgumentsFit h params arguments n ↔ params.length = arguments.length ∧
      (∀ param argument, (some param, some argument) ∈ params.zip arguments → h.Accepts param argument) ∧
      TotalAway h ((params.zip arguments).filterMap comparedArgument) n := by
  have split : ∀ pair rest, (pair :: rest).filterMap comparedArgument
      = (comparedArgument pair).toList ++ rest.filterMap comparedArgument := by
    intro pair rest
    cases kept : comparedArgument pair <;> simp [kept]
  constructor
  · intro fits
    induction fits with
    | nil => exact ⟨rfl, nofun, total_away_nil.mpr rfl⟩
    | @cons param argument params arguments n m first _ ih =>
      obtain ⟨length, accepts, total⟩ := ih
      obtain ⟨here, away⟩ := argument_fits_iff.mp first
      refine ⟨congrArg Nat.succ length, ?_, ?_⟩
      · intro p a member
        rcases List.mem_cons.mp member with same | later
        · obtain ⟨one, two⟩ := Prod.mk.inj same
          exact here p a one.symm two.symm
        · exact accepts p a later
      · rw [List.zip_cons_cons, split]
        exact total_away_append.mpr ⟨n, m, away, total, rfl⟩
  · intro fits
    induction params generalizing arguments n with
    | nil =>
      obtain ⟨length, _, total⟩ := fits
      cases List.eq_nil_of_length_eq_zero length.symm
      rw [total_away_nil.mp total]
      exact .nil
    | cons param params ih =>
      obtain ⟨length, accepts, total⟩ := fits
      cases arguments with
      | nil => cases length
      | cons argument arguments =>
        rw [List.zip_cons_cons, split] at total
        obtain ⟨k, l, first, second, rfl⟩ := total_away_append.mp total
        refine .cons (argument_fits_iff.mpr ⟨?_, first⟩) (ih ⟨Nat.succ.inj length, ?_, second⟩)
        · rintro p a rfl rfl
          exact accepts p a (List.mem_cons_self ..)
        · intro p a later
          exact accepts p a (List.mem_cons_of_mem _ later)

theorem applies_iff_fits {d : Nat} :
    Applies h s receiver arguments d ↔
      Fits h s receiver arguments ∧ TotalAway h (compared s receiver arguments) d := by
  unfold Applies compared
  rw [total_away_append]
  constructor
  · rintro ⟨n, m, first, others, rfl⟩
    obtain ⟨presence, below, away⟩ := receiver_fits_iff.mp first
    obtain ⟨arity, accepts, total⟩ := arguments_fit_iff.mp others
    exact ⟨⟨presence, below, arity, accepts⟩, n, m, away, total, rfl⟩
  · rintro ⟨fits, n, m, away, total, rfl⟩
    exact ⟨n, m, receiver_fits_iff.mpr ⟨fits.presence, fits.receiver, away⟩,
      arguments_fit_iff.mpr ⟨fits.arity, fits.arguments, total⟩, rfl⟩

theorem fits_below (fits : Fits h s receiver arguments) {pair : TypeId × TypeId}
    (member : pair ∈ compared s receiver arguments) : h.Below pair.1 pair.2 := by
  rcases List.mem_append.mp member with first | other
  · obtain ⟨actual, given, mapped⟩ := Option.bind_eq_some_iff.mp (Option.mem_toList.mp first)
    obtain ⟨declared, stated, rfl⟩ := Option.map_eq_some_iff.mp mapped
    exact fits.receiver actual declared given stated
  · obtain ⟨⟨param, argument⟩, listed, kept⟩ := List.mem_filterMap.mp other
    obtain ⟨param', rfl, mapped⟩ := Option.bind_eq_some_iff.mp kept
    obtain ⟨argument', rfl, rfl⟩ := Option.map_eq_some_iff.mp mapped
    exact (fits.arguments param' argument' listed).2

end Overload

namespace Program
open Overload

def Takes (p : Program) (receiver : Option TypeRef) (arguments : List (Option TypeRef)) (g : FunctionId) : Prop :=
  ∃ f, p.functions[g.index]? = some f ∧ Fits p.types (p.signature f) receiver arguments

def Remote (p : Program) (receiver : Option TypeRef) (arguments : List (Option TypeRef)) (g : FunctionId) (d : Nat) :
    Prop :=
  ∃ f, p.functions[g.index]? = some f ∧ TotalAway p.types (compared (p.signature f) receiver arguments) d

variable {p : Program} {receiver : Option TypeRef} {arguments : List (Option TypeRef)}

theorem applicable_iff {g : FunctionId} {d : Nat} :
    p.Applicable receiver arguments g d ↔ p.Takes receiver arguments g ∧ p.Remote receiver arguments g d := by
  constructor
  · rintro ⟨f, found, applies⟩
    obtain ⟨fits, total⟩ := applies_iff_fits.mp applies
    exact ⟨⟨f, found, fits⟩, f, found, total⟩
  · rintro ⟨⟨f, found, fits⟩, f', found', total⟩
    cases found.symm.trans found'
    exact ⟨f, found, applies_iff_fits.mpr ⟨fits, total⟩⟩

theorem remote_bounded (consistent : p.Consistent) {g : FunctionId} {d : Nat} (remote : p.Remote receiver arguments g d) :
    d ≤ (arguments.length + 1) * p.types.size := by
  obtain ⟨f, _, total⟩ := remote
  have bounded := total_away_bounded consistent.hierarchy total
  have counted := compared_length (p.signature f) receiver arguments
  exact Nat.le_trans bounded (Nat.mul_le_mul_right _ counted)

theorem shortest_way {h : TypeHierarchy} {a b : TypeId} (below : h.Below a b) : ∃ n, h.Away n a b := by
  classical
  have some_way := below_walk below
  exact ⟨Nat.find some_way, Nat.find_spec some_way, fun k walk => Nat.find_min' some_way walk⟩

theorem takes_remote {g : FunctionId} (takes : p.Takes receiver arguments g) :
    ∃ d, p.Remote receiver arguments g d := by
  obtain ⟨f, found, fits⟩ := takes
  have above : ∀ pair ∈ compared (p.signature f) receiver arguments, p.types.Below pair.1 pair.2 :=
    fun _ member => fits_below fits member
  suffices total : ∃ d, TotalAway p.types (compared (p.signature f) receiver arguments) d by
    obtain ⟨d, total⟩ := total
    exact ⟨d, f, found, total⟩
  generalize compared (p.signature f) receiver arguments = pairs at above
  induction pairs with
  | nil => exact ⟨0, total_away_nil.mpr rfl⟩
  | cons pair pairs ih =>
    obtain ⟨n, away⟩ := shortest_way (above pair (List.mem_cons_self ..))
    obtain ⟨m, total⟩ := ih (fun pair' later => above pair' (List.mem_cons_of_mem _ later))
    exact ⟨n + m, total_away_cons.mpr ⟨n, m, away, total, rfl⟩⟩

open Classical in
theorem matches_filtered (consistent : p.Consistent) {candidates : List FunctionId}
    (there : ∀ g ∈ candidates, p.HasFunction g) (knows : p.KnowsType receiver)
    (known : ∀ t ∈ arguments, p.KnowsType t) :
    ∃ found, candidates.mapM (p.match? receiver arguments) = .ok found ∧
      (found.filterMap id).map Match.function = candidates.filter (fun g => p.Takes receiver arguments g) ∧
      ∀ m ∈ found.filterMap id, p.Remote receiver arguments m.function m.distance := by
  obtain ⟨found, mapped, related⟩ := map_ok candidates
    (fun g member => match_applies consistent knows known (there g member))
  refine ⟨found, mapped, ?_⟩
  clear mapped there
  induction related with
  | nil => exact ⟨rfl, nofun⟩
  | @cons g first rest others meaning _ ih =>
    obtain ⟨kept, remote⟩ := ih
    cases first with
    | none =>
      have refused : ¬ p.Takes receiver arguments g := by
        intro takes
        obtain ⟨d, away⟩ := takes_remote takes
        cases (meaning ⟨g, d⟩).mpr ⟨rfl, applicable_iff.mpr ⟨takes, away⟩⟩
      rw [List.filterMap_cons_none rfl, List.filter_cons_of_neg (by simpa using refused)]
      exact ⟨kept, remote⟩
    | some best =>
      obtain ⟨rfl, applies⟩ := (meaning best).mp rfl
      obtain ⟨takes, away⟩ := applicable_iff.mp applies
      rw [List.filterMap_cons_some (f := id) rfl, List.filter_cons_of_pos (by simpa using takes), List.map_cons, kept]
      refine ⟨rfl, ?_⟩
      intro m member
      rcases List.mem_cons.mp member with rfl | later
      · exact away
      · exact remote m later

end Program

open Overload Classical in
/-- Resolution gives those of the candidates that take the receiver and the arguments, sorted by distance; it is
ambiguous if and only if at least two of them are nearest. The distances are sums, but no larger than the number of
types for each operand, so that 32 bits hold them wherever they hold that product. -/
theorem overloads_come_best_first {options : Options} {modules : List Tree.Module} {p : Program}
    {findings : List Diagnostic} (built : Program.construct options modules = .ok (p, findings))
    {candidates : List FunctionId} (there : ∀ g ∈ candidates, p.HasFunction g) {receiver : Option TypeRef}
    (knows : p.KnowsType receiver) {arguments : List (Option TypeRef)} (known : ∀ t ∈ arguments, p.KnowsType t) :
    ∃ applicable ranked : List Match, p.resolveOverload candidates receiver arguments = .ok ranked ∧
      applicable.map Match.function = candidates.filter (fun g => p.Takes receiver arguments g) ∧
      (∀ m ∈ applicable, p.Remote receiver arguments m.function m.distance) ∧
      (∀ m ∈ applicable, m.distance ≤ (arguments.length + 1) * p.types.size) ∧
      StablySorts Match.distance applicable ranked ∧
      (isAmbiguous ranked = true ↔
        ∃ d, (∀ m ∈ applicable, d ≤ m.distance) ∧ 2 ≤ applicable.countP (fun m => m.distance == d)) := by
  have consistent := construct_consistent built
  obtain ⟨found, mapped, kept, remote⟩ := Program.matches_filtered consistent there knows known
  have sorts := stable_sort_sorts Match.distance (found.filterMap id)
  have bounded := fun m member => Program.remote_bounded consistent (remote m member)
  refine ⟨found.filterMap id, rank (found.filterMap id), ?_, kept, remote, bounded, sorts, ?_⟩
  · rw [Program.resolveOverload, mapped]
    rfl
  · have nearest := is_ambiguous_iff sorts.sorted
    simp only [sorts.perm.mem_iff, sorts.perm.countP_eq] at nearest
    exact nearest

theorem overloads_for_a_number : ∃ p findings, Program.construct {} [Tree.overloaded] = .ok (p, findings) ∧
    p.resolveOverload [⟨23⟩, ⟨0⟩, ⟨21⟩, ⟨22⟩, ⟨23⟩] none [some (.simple ⟨4⟩)]
      = .ok [⟨⟨23⟩, 0⟩, ⟨⟨22⟩, 0⟩, ⟨⟨23⟩, 0⟩, ⟨⟨21⟩, 2⟩] ∧
    p.Remote none [some (.simple ⟨4⟩)] ⟨21⟩ 2 ∧ ¬ p.Takes none [some (.simple ⟨4⟩)] ⟨0⟩ := by
  have evaluated : (Program.construct {} [Tree.overloaded]).toOption.map (fun result =>
      (result.1.functions.size, result.1.types.size,
        (result.1.resolveOverload [⟨23⟩, ⟨0⟩, ⟨21⟩, ⟨22⟩, ⟨23⟩] none [some (.simple ⟨4⟩)]).toOption))
      = some (26, 6, some [⟨⟨23⟩, 0⟩, ⟨⟨22⟩, 0⟩, ⟨⟨23⟩, 0⟩, ⟨⟨21⟩, 2⟩]) := by decide +kernel
  cases built : Program.construct {} [Tree.overloaded] with
  | error e =>
    rw [built] at evaluated
    cases evaluated
  | ok result =>
    obtain ⟨p, findings⟩ := result
    rw [built] at evaluated
    obtain ⟨functions, types, outcome⟩ : p.functions.size = 26 ∧ p.types.size = 6 ∧ _ := by
      simpa [Except.toOption] using evaluated
    have there : ∀ g ∈ ([⟨23⟩, ⟨0⟩, ⟨21⟩, ⟨22⟩, ⟨23⟩] : List FunctionId), p.HasFunction g := by
      intro g member
      unfold Program.HasFunction
      rw [functions]
      revert g
      decide
    have known : ∀ t ∈ [some (TypeRef.simple ⟨4⟩)], p.KnowsType t := by
      intro t member
      rw [List.mem_singleton.mp member, Program.knows_some]
      unfold TypeHierarchy.Has
      rw [types]
      decide
    obtain ⟨applicable, ranked, resolved, kept, remote, _, sorts, _⟩ :=
      overloads_come_best_first built there Program.knows_none known
    cases outcome_eq : p.resolveOverload [⟨23⟩, ⟨0⟩, ⟨21⟩, ⟨22⟩, ⟨23⟩] none [some (.simple ⟨4⟩)] with
    | error e =>
      rw [outcome_eq] at outcome
      cases outcome
    | ok given =>
      rw [outcome_eq] at outcome
      cases outcome
      rw [outcome_eq] at resolved
      cases resolved
      refine ⟨p, findings, rfl, outcome_eq, ?_, ?_⟩
      · exact remote ⟨⟨21⟩, 2⟩ (sorts.perm.mem_iff.mp (by simp))
      · intro takes
        have listed : (⟨0⟩ : FunctionId) ∈ applicable.map Overload.Match.function := by
          rw [kept]
          simp [takes]
        rw [← (sorts.perm.map _).mem_iff] at listed
        revert listed
        decide

end SemanticAnalysis
