import SemanticAnalysis.Proofs.Types.Ascent
import SemanticAnalysis.Proofs.Typing.Overloads
/-!
More specific types in a call. Of two functions that apply, the one with the more specific types comes first, unless an
operand has a way up to a type of the other one that leaves the more specific type aside and is shorter. An operand may
become more specific itself, or unknown, without a function being lost.
-/
namespace SemanticAnalysis
open Relation Running Program TypeHierarchy

theorem pair_in_some_order {α : Type} {xs : List α} {x y : α} (first : x ∈ xs) (second : y ∈ xs) (different : x ≠ y) :
    [x, y].Sublist xs ∨ [y, x].Sublist xs := by
  induction xs with
  | nil => exact absurd first List.not_mem_nil
  | cons z zs ih =>
    rcases List.mem_cons.mp first with rfl | x_later
    · rcases List.mem_cons.mp second with same | y_later
      · exact absurd same.symm different
      · exact .inl ((List.singleton_sublist.mpr y_later).cons_cons x)
    · rcases List.mem_cons.mp second with rfl | y_later
      · exact .inr ((List.singleton_sublist.mpr x_later).cons_cons y)
      · exact (ih x_later y_later).imp (.cons z) (.cons z)

section Sorting
variable {α β : Type} {key : α → Nat} {name : α → β} {xs ys : List α} {f g : β} {n m : Nat}

theorem stably_sorts_tied (sorts : StablySorts key xs ys) {x y : α} (tied : key x = key y) :
    [x, y].Sublist ys ↔ [x, y].Sublist xs := by
  have kept : [x, y].filter (fun z => key z == key y) = [x, y] := by simp [tied]
  have stable := sorts.stable (key y)
  constructor
  · intro order
    have order := order.filter (fun z => key z == key y)
    rw [kept, stable] at order
    exact order.trans List.filter_sublist
  · intro order
    have order := order.filter (fun z => key z == key y)
    rw [kept, ← stable] at order
    exact order.trans List.filter_sublist

theorem stably_sorts_before (sorts : StablySorts key xs ys) (first : g ∈ xs.map name) (second : f ∈ xs.map name)
    (low : ∀ x ∈ xs, name x = g → key x = m) (high : ∀ x ∈ xs, name x = f → key x = n) :
    [g, f].Sublist (ys.map name) ↔ m < n ∨ m = n ∧ [g, f].Sublist (xs.map name) := by
  have paired : ∀ {zs : List α}, [g, f].Sublist (zs.map name) ↔
      ∃ x y, [x, y].Sublist zs ∧ name x = g ∧ name y = f := by
    intro zs
    rw [List.sublist_map_iff]
    constructor
    · rintro ⟨pair, order, named⟩
      rcases pair with _ | ⟨x, _ | ⟨y, _ | ⟨z, rest⟩⟩⟩
      · cases named
      · cases named
      · cases named
        exact ⟨x, y, order, rfl, rfl⟩
      · cases named
    · rintro ⟨x, y, order, rfl, rfl⟩
      exact ⟨[x, y], order, rfl⟩
  have ascending : ∀ {x y}, [x, y].Sublist ys → key x ≤ key y := List.pairwise_iff_forall_sublist.mp sorts.sorted
  constructor
  · intro order
    obtain ⟨x, y, order, here, there⟩ := paired.mp order
    have x_key := low x (sorts.perm.subset (order.subset (by simp))) here
    have y_key := high y (sorts.perm.subset (order.subset (by simp))) there
    have less := ascending order
    rcases Nat.lt_or_ge m n with smaller | larger
    · exact .inl smaller
    · have tied : key x = key y := by omega
      exact .inr ⟨by omega, paired.mpr ⟨x, y, (stably_sorts_tied sorts tied).mp order, here, there⟩⟩
  · rintro (smaller | ⟨rfl, order⟩)
    · obtain ⟨x, x_listed, here⟩ := List.mem_map.mp first
      obtain ⟨y, y_listed, there⟩ := List.mem_map.mp second
      have x_key := low x x_listed here
      have y_key := high y y_listed there
      have different : x ≠ y := by
        rintro rfl
        omega
      rcases pair_in_some_order (sorts.perm.mem_iff.mpr x_listed) (sorts.perm.mem_iff.mpr y_listed) different with
        order | reverse
      · exact paired.mpr ⟨x, y, order, here, there⟩
      · have := ascending reverse
        omega
    · obtain ⟨x, y, order, here, there⟩ := paired.mp order
      have tied : key x = key y :=
        (low x (order.subset (by simp)) here).trans (high y (order.subset (by simp)) there).symm
      exact paired.mpr ⟨x, y, (stably_sorts_tied sorts tied).mpr order, here, there⟩

end Sorting

namespace TypeHierarchy
variable {h : TypeHierarchy} {a b c : TypeId} {n m k : Nat}

theorem distance_of_away (sealed : h.Sealed) (there : h.Has a) (away : h.Away n a b) : h.distance a b = .ok n := by
  obtain ⟨m, counted, shortest⟩ := distance_shortest sealed there (walk_below away.1)
  rw [counted, Away.unique shortest away]

theorem has_below (below : h.Below a b) (there : h.Has b) : h.Has a := by
  rcases below.cases_head with rfl | ⟨s, edge, _⟩
  · exact there
  · exact edge_source_has edge

theorem assignable_iff_accepts (sealed : h.Sealed) {value slot : TypeRef} :
    h.isAssignable value slot = .ok true ↔ h.Accepts slot value := by
  have plain : (({ types := h } : RememberingHierarchy).isAssignable value slot).1 = h.isAssignable value slot := by
    unfold RememberingHierarchy.isAssignable isAssignable
    split <;> rfl
  rw [← plain]
  exact RememberingHierarchy.is_assignable_true_iff ⟨sealed, trusted_empty⟩ value slot

theorem accepts_trans {t u v : TypeRef} (low : h.Accepts u t) (high : h.Accepts v u) : h.Accepts v t :=
  ⟨fun null => high.1 (low.1 null), low.2.trans high.2⟩

/-- It is no longer from the first type to the third if one stops at the second. -/
def NoDetour (h : TypeHierarchy) (a b c : TypeId) : Prop :=
  ∀ n m k, h.distance a b = .ok n → h.distance b c = .ok m → h.distance a c = .ok k → n + m ≤ k

theorem away_on_the_way (sealed : h.Sealed) (there : h.Has a) (low : h.Away n a b) (whole : h.Away k a c)
    (below : h.Below b c) (straight : h.NoDetour a b c) : n ≤ k ∧ (b ≠ c → n < k) := by
  have middle := below_has sealed (walk_below low.1) there
  obtain ⟨m, counted, high⟩ := distance_shortest sealed middle below
  have sum := straight n m k (distance_of_away sealed there low) counted (distance_of_away sealed there whole)
  refine ⟨by omega, fun different => ?_⟩
  have positive : m ≠ 0 := fun zero => different ((away_zero_iff high).mp zero)
  omega

theorem unforked_walk_unique (sealed : h.Sealed) (unforked : h.Unforked) (first : Walk h n a b)
    (second : Walk h m a b) : n = m := by
  induction first generalizing m with
  | zero a =>
    cases second with
    | zero => rfl
    | next edge tail => exact absurd (TransGen.head' edge (walk_below tail)) (sealed.acyclic a)
  | @next n a s b edge tail ih =>
    cases second with
    | zero => exact absurd (TransGen.head' edge (walk_below tail)) (sealed.acyclic a)
    | next edge' tail' =>
      cases unforked_edge_unique unforked edge edge'
      rw [ih tail']

theorem unforked_no_detour (sealed : h.Sealed) (unforked : h.Unforked) (there : h.Has a) (low : h.Below a b)
    (high : h.Below b c) : h.NoDetour a b c := by
  intro n m k first second total
  obtain ⟨_, counted, lower⟩ := distance_shortest sealed there low
  cases first.symm.trans counted
  obtain ⟨_, counted, upper⟩ := distance_shortest sealed (below_has sealed low there) high
  cases second.symm.trans counted
  obtain ⟨_, counted, whole⟩ := distance_shortest sealed there (low.trans high)
  cases total.symm.trans counted
  exact Nat.le_of_eq (unforked_walk_unique sealed unforked (walk_append lower.1 upper.1) whole.1)

end TypeHierarchy

namespace Overload
variable {h : TypeHierarchy} {s : Signature} {receiver : Option TypeRef}

/-- The types that a function declares for the operands of a call: for the receiver, if it has one, and for the
arguments. -/
def operandTypes (s : Signature) : List (Option TypeRef) := (if s.hasReceiver then [s.receiver] else []) ++ s.params

def DeclaresBases (s : Signature) (bases : List TypeId) : Prop :=
  (operandTypes s).map (Option.map TypeRef.base) = bases.map some

def operandBases (receiver : Option TypeRef) (arguments : List TypeRef) : List TypeId :=
  (receiver.toList ++ arguments).map TypeRef.base

variable {bases : List TypeId}

theorem compared_arguments {params : List (Option TypeRef)} {arguments : List TypeRef}
    (declared : params.map (Option.map TypeRef.base) = bases.map some) (arity : params.length = arguments.length) :
    (params.zip (arguments.map some)).filterMap comparedArgument = (arguments.map TypeRef.base).zip bases := by
  induction params generalizing arguments bases with
  | nil =>
    cases List.eq_nil_of_length_eq_zero arity.symm
    rfl
  | cons param params ih =>
    cases arguments with
    | nil => cases arity
    | cons argument arguments =>
      cases bases with
      | nil => cases declared
      | cons base bases =>
        obtain ⟨here, later⟩ := List.cons.inj declared
        obtain ⟨known, rfl, rfl⟩ := Option.map_eq_some_iff.mp here
        rw [List.map_cons, List.zip_cons_cons, List.filterMap_cons_some (f := comparedArgument) rfl,
          ih later (Nat.succ.inj arity)]
        rfl

theorem compared_operands {arguments : List TypeRef} (declared : DeclaresBases s bases)
    (presence : s.hasReceiver = receiver.isSome) (arity : s.params.length = arguments.length) :
    compared s receiver (arguments.map some) = (operandBases receiver arguments).zip bases := by
  unfold DeclaresBases operandTypes at declared
  rw [presence] at declared
  cases receiver with
  | none => exact compared_arguments declared arity
  | some actual =>
    cases bases with
    | nil => cases declared
    | cons base bases =>
      obtain ⟨here, later⟩ := List.cons.inj declared
      have params : s.params.map (Option.map TypeRef.base) = bases.map some := later
      obtain ⟨known, stated, rfl⟩ := Option.map_eq_some_iff.mp here
      rw [compared, comparedReceiver, Option.bind_some, stated, compared_arguments params arity]
      rfl

theorem operands_counted {arguments : List TypeRef} (declared : DeclaresBases s bases)
    (presence : s.hasReceiver = receiver.isSome) (arity : s.params.length = arguments.length) :
    (operandBases receiver arguments).length = bases.length := by
  have length := congrArg List.length declared
  rw [operandTypes, presence] at length
  cases receiver <;> simpa [operandBases, arity] using length

/-- Operands are nearer to the more specific types, as long as these are no detour. -/
theorem total_away_specific (sealed : h.Sealed) {operands lower upper : List TypeId} {n m : Nat}
    (there : ∀ a ∈ operands, h.Has a) (below : List.Forall₂ h.Below lower upper)
    (straight : ∀ a b c, (a, b, c) ∈ operands.zip (lower.zip upper) → h.Below a b → h.Below b c → h.NoDetour a b c)
    (counted : operands.length = lower.length) (first : TotalAway h (operands.zip lower) n)
    (second : TotalAway h (operands.zip upper) m) : n ≤ m ∧ (lower ≠ upper → n < m) := by
  induction below generalizing operands n m with
  | nil =>
    rw [List.zip_nil_right] at first second
    rw [total_away_nil.mp first, total_away_nil.mp second]
    exact ⟨Nat.le_refl 0, fun different => absurd rfl different⟩
  | @cons b c lower upper here _ ih =>
    cases operands with
    | nil => cases counted
    | cons a operands =>
      obtain ⟨n₁, n₂, low, rest, rfl⟩ := total_away_cons.mp first
      obtain ⟨m₁, m₂, whole, rest', rfl⟩ := total_away_cons.mp second
      obtain ⟨near, nearer⟩ := away_on_the_way sealed (there a (List.mem_cons_self ..)) low whole here
        (straight a b c (List.mem_cons_self ..) (walk_below low.1) here)
      obtain ⟨others, fewer⟩ := ih (fun a' member => there a' (List.mem_cons_of_mem _ member))
        (fun a' b' c' member => straight a' b' c' (List.mem_cons_of_mem _ member)) (Nat.succ.inj counted) rest rest'
      refine ⟨by omega, fun different => ?_⟩
      by_cases same : b = c
      · have elsewhere : lower ≠ upper := fun equal => different (by rw [same, equal])
        have := fewer elsewhere
        omega
      · have := nearer same
        omega

/-- Both functions are listed, and the second one never before the first. -/
def Ahead (order : List FunctionId) (f g : FunctionId) : Prop := f ∈ order ∧ g ∈ order ∧ ¬ [g, f].Sublist order

/-- What may stand in place of the type of an argument: a type that is assignable to it, or none. -/
inductive Refines (h : TypeHierarchy) : Option TypeRef → Option TypeRef → Prop where
  | forgotten (t : Option TypeRef) : Refines h t none
  | narrowed (t u : TypeRef) (assignable : h.isAssignable u t = .ok true) : Refines h (some t) (some u)

def Narrows (h : TypeHierarchy) : Option TypeRef → Option TypeRef → Prop :=
  Option.Rel (fun t u => h.isSubtype u.base t.base = .ok true)

theorem narrows_known {receiver' : Option TypeRef} (sealed : h.Sealed) (known : Known h receiver)
    (narrower : Narrows h receiver receiver') : Known h receiver' := by
  cases narrower with
  | none => exact known
  | some below =>
    rintro u ⟨⟩
    exact has_below ((subtype_iff_below sealed).mp below) (known _ rfl)

theorem refines_known {t u : Option TypeRef} (sealed : h.Sealed) (known : Known h t) (refined : Refines h t u) :
    Known h u := by
  cases refined with
  | forgotten => exact fun _ impossible => by cases impossible
  | narrowed t u assignable =>
    rintro v ⟨⟩
    exact has_below ((assignable_iff_accepts sealed).mp assignable).2 (known t rfl)

variable {arguments arguments' : List (Option TypeRef)}

theorem refined_known (sealed : h.Sealed)
    (known : ∀ t ∈ arguments, Known h t) (refined : List.Forall₂ (Refines h) arguments arguments') :
    ∀ u ∈ arguments', Known h u := by
  induction refined with
  | nil => exact known
  | cons here _ ih =>
    intro u member
    rcases List.mem_cons.mp member with rfl | later
    · exact refines_known sealed (known _ (List.mem_cons_self ..)) here
    · exact ih (fun t listed => known t (List.mem_cons_of_mem _ listed)) u later

theorem zip_refined {params : List (Option TypeRef)}
    (refined : List.Forall₂ (Refines h) arguments arguments') {param u : TypeRef}
    (member : (some param, some u) ∈ params.zip arguments') :
    ∃ t, (some param, some t) ∈ params.zip arguments ∧ h.isAssignable u t = .ok true := by
  induction refined generalizing params with
  | nil =>
    rw [List.zip_nil_right] at member
    exact absurd member List.not_mem_nil
  | @cons t t' arguments arguments' here _ ih =>
    cases params with
    | nil => exact absurd member List.not_mem_nil
    | cons first params =>
      rcases List.mem_cons.mp member with same | later
      · cases same
        cases here with
        | narrowed t _ assignable => exact ⟨t, List.mem_cons_self .., assignable⟩
      · obtain ⟨t, listed, assignable⟩ := ih later
        exact ⟨t, List.mem_cons_of_mem _ listed, assignable⟩

theorem fits_refined {receiver' : Option TypeRef} (sealed : h.Sealed)
    (fits : Fits h s receiver arguments) (narrower : Narrows h receiver receiver')
    (refined : List.Forall₂ (Refines h) arguments arguments') : Fits h s receiver' arguments' := by
  constructor
  · rw [fits.presence]
    cases narrower with
    | none => rfl
    | some => rfl
  · rintro actual declared rfl stated
    cases narrower with
    | some below =>
      exact ((subtype_iff_below sealed).mp below).trans (fits.receiver _ declared rfl stated)
  · rw [fits.arity, refined.length_eq]
  · intro param u member
    obtain ⟨t, listed, assignable⟩ := zip_refined refined member
    exact accepts_trans ((assignable_iff_accepts sealed).mp assignable)
      (fits.arguments param t listed)

theorem total_away_sublist {xs ys : List (TypeId × TypeId)} {n m : Nat} (fewer : xs.Sublist ys)
    (first : TotalAway h xs n) (second : TotalAway h ys m) : n ≤ m := by
  induction fewer generalizing n m with
  | slnil => rw [total_away_nil.mp first, total_away_nil.mp second]
  | cons pair _ ih =>
    obtain ⟨k, l, _, rest, rfl⟩ := total_away_cons.mp second
    have := ih first rest
    omega
  | cons_cons pair _ ih =>
    obtain ⟨k, l, away, rest, rfl⟩ := total_away_cons.mp first
    obtain ⟨k', l', away', rest', rfl⟩ := total_away_cons.mp second
    have := ih rest rest'
    rw [TypeHierarchy.Away.unique away away']
    omega

theorem total_away_unique {pairs : List (TypeId × TypeId)} {n m : Nat} (first : TotalAway h pairs n)
    (second : TotalAway h pairs m) : n = m :=
  Nat.le_antisymm (total_away_sublist (.refl _) first second) (total_away_sublist (.refl _) second first)

theorem compared_forgotten
    (forgotten : List.Forall₂ (fun t u => u = t ∨ u = none) arguments arguments') :
    (compared s receiver arguments').Sublist (compared s receiver arguments) := by
  refine List.Sublist.append (.refl _) ?_
  generalize s.params = params
  induction forgotten generalizing params with
  | nil => exact .refl _
  | @cons t u arguments arguments' here _ ih =>
    cases params with
    | nil => exact .refl _
    | cons param params =>
      rw [List.zip_cons_cons, List.zip_cons_cons]
      rcases here with rfl | rfl
      · cases kept : comparedArgument (param, u) with
        | none =>
          rw [List.filterMap_cons_none kept, List.filterMap_cons_none kept]
          exact ih params
        | some pair =>
          rw [List.filterMap_cons_some kept, List.filterMap_cons_some kept]
          exact (ih params).cons_cons pair
      · have none_kept : comparedArgument (param, none) = none := by cases param <;> rfl
        rw [List.filterMap_cons_none none_kept]
        exact (ih params).trans ((List.sublist_cons_self _ _).filterMap _)

end Overload

namespace Program
open Overload

variable {p : Program} {candidates : List FunctionId} {receiver : Option TypeRef} {arguments : List (Option TypeRef)}

def DeclaresBases (p : Program) (g : FunctionId) (bases : List TypeId) : Prop :=
  ∃ f, p.functions[g.index]? = some f ∧ Overload.DeclaresBases (p.signature f) bases

/-- At each place the first function declares the type of the second or one below, and not everywhere the same. -/
structure MoreSpecific (p : Program) (f g : FunctionId) (lower upper : List TypeId) : Prop where
  first : p.DeclaresBases f lower
  second : p.DeclaresBases g upper
  below : List.Forall₂ (fun b c => p.types.isSubtype b c = .ok true) lower upper
  differ : lower ≠ upper

theorem resolves_iff (consistent : p.Consistent) (knows : p.KnowsType receiver)
    (known : ∀ t ∈ arguments, p.KnowsType t) :
    (∃ ranked, p.resolveOverload candidates receiver arguments = .ok ranked) ↔
      ∀ g ∈ candidates, p.HasFunction g := by
  constructor
  · rintro ⟨ranked, resolved⟩ g listed
    unfold resolveOverload at resolved
    cases mapped : candidates.mapM (p.match? receiver arguments) with
    | error e =>
      rw [mapped] at resolved
      cases resolved
    | ok found =>
      obtain ⟨m, matched⟩ := map_ok_each mapped listed
      cases looked : p.functionAt g with
      | error e =>
        rw [match?, looked] at matched
        cases matched
      | ok f => exact (Array.getElem?_eq_some_iff.mp (function_at_ok_iff.mp looked)).1
  · intro there
    obtain ⟨found, mapped, _⟩ := matches_kept consistent there knows known
    exact ⟨rank (found.filterMap id), by rw [resolveOverload, mapped]; rfl⟩

variable {ranked : List Match}

open Classical in
theorem resolved_sorts (consistent : p.Consistent) (knows : p.KnowsType receiver)
    (known : ∀ t ∈ arguments, p.KnowsType t)
    (resolved : p.resolveOverload candidates receiver arguments = .ok ranked) :
    ∃ applicable : List Match,
      applicable.map Match.function = candidates.filter (fun g => p.Takes receiver arguments g) ∧
      (∀ m ∈ applicable, p.Remote receiver arguments m.function m.distance) ∧
      StablySorts Match.distance applicable ranked := by
  have there := (resolves_iff consistent knows known).mp ⟨ranked, resolved⟩
  obtain ⟨found, mapped, kept, remote⟩ := matches_filtered consistent there knows known
  rw [resolveOverload, mapped] at resolved
  cases resolved
  exact ⟨found.filterMap id, kept, remote, stable_sort_sorts Match.distance _⟩

theorem resolved_member (consistent : p.Consistent) (knows : p.KnowsType receiver)
    (known : ∀ t ∈ arguments, p.KnowsType t)
    (resolved : p.resolveOverload candidates receiver arguments = .ok ranked) {m : Match} (member : m ∈ ranked) :
    m.function ∈ candidates ∧ p.Takes receiver arguments m.function ∧
      p.Remote receiver arguments m.function m.distance := by
  obtain ⟨applicable, kept, remote, sorts⟩ := resolved_sorts consistent knows known resolved
  have applies := sorts.perm.mem_iff.mp member
  have listed : m.function ∈ applicable.map Match.function := List.mem_map_of_mem applies
  rw [kept, List.mem_filter] at listed
  exact ⟨listed.1, by simpa using listed.2, remote m applies⟩

variable {g : FunctionId}

theorem taken_listed (consistent : p.Consistent) (knows : p.KnowsType receiver)
    (known : ∀ t ∈ arguments, p.KnowsType t)
    (resolved : p.resolveOverload candidates receiver arguments = .ok ranked)
    (listed : g ∈ candidates) (takes : p.Takes receiver arguments g) : g ∈ ranked.map Match.function := by
  obtain ⟨applicable, kept, _, sorts⟩ := resolved_sorts consistent knows known resolved
  rw [(sorts.perm.map Match.function).mem_iff, kept, List.mem_filter]
  exact ⟨listed, by simpa using takes⟩

theorem remote_unique {n m : Nat} (first : p.Remote receiver arguments g n)
    (second : p.Remote receiver arguments g m) : n = m := by
  obtain ⟨f, found, total⟩ := first
  obtain ⟨f', found', total'⟩ := second
  cases found.symm.trans found'
  exact total_away_unique total total'

theorem resolved_ahead_iff (consistent : p.Consistent) (knows : p.KnowsType receiver)
    (known : ∀ t ∈ arguments, p.KnowsType t)
    (resolved : p.resolveOverload candidates receiver arguments = .ok ranked) {f : FunctionId} {n m : Nat}
    (first : f ∈ candidates) (second : g ∈ candidates) (takes_first : p.Takes receiver arguments f)
    (takes_second : p.Takes receiver arguments g) (near : p.Remote receiver arguments f n)
    (far : p.Remote receiver arguments g m) :
    Ahead (ranked.map Match.function) f g ↔ n < m ∨ n = m ∧ Ahead candidates f g := by
  classical
  have listed_first := taken_listed consistent knows known resolved first takes_first
  have listed_second := taken_listed consistent knows known resolved second takes_second
  obtain ⟨applicable, kept, remote, sorts⟩ := resolved_sorts consistent knows known resolved
  have same : ∀ {c}, c ∈ ranked.map Match.function ↔ c ∈ applicable.map Match.function :=
    (sorts.perm.map Match.function).mem_iff
  have distance : ∀ c d, p.Remote receiver arguments c d → ∀ x ∈ applicable, x.function = c → x.distance = d := by
    rintro c d away x member rfl
    exact remote_unique (remote x member) away
  have before := stably_sorts_before sorts (same.mp listed_second) (same.mp listed_first) (distance g m far)
    (distance f n near)
  have filtered : [g, f].Sublist (applicable.map Match.function) ↔ [g, f].Sublist candidates := by
    rw [kept]
    constructor
    · exact fun order => order.trans List.filter_sublist
    · intro order
      have order := order.filter (fun g => p.Takes receiver arguments g)
      simpa [takes_first, takes_second] using order
  unfold Ahead
  rw [before, filtered, and_iff_right listed_first, and_iff_right listed_second, and_iff_right first,
    and_iff_right second]
  by_cases order : [g, f].Sublist candidates
  · simp only [order, and_true, not_true, and_false, or_false]
    omega
  · simp only [order, and_false, or_false, not_false_eq_true, and_true]
    omega

section Operands
variable {operands : List TypeRef} {bases : List TypeId} {g : FunctionId} (declares : p.DeclaresBases g bases)
  (takes : p.Takes receiver (operands.map some) g)
include declares takes

theorem remote_operands {d : Nat} (remote : p.Remote receiver (operands.map some) g d) :
    TotalAway p.types ((operandBases receiver operands).zip bases) d := by
  obtain ⟨f, found, declared⟩ := declares
  obtain ⟨f', found', fits⟩ := takes
  cases found.symm.trans found'
  obtain ⟨f', found', total⟩ := remote
  cases found.symm.trans found'
  rwa [compared_operands declared fits.presence (by rw [fits.arity, List.length_map])] at total

theorem operands_paired : (operandBases receiver operands).length = bases.length := by
  obtain ⟨f, found, declared⟩ := declares
  obtain ⟨f', found', fits⟩ := takes
  cases found.symm.trans found'
  exact operands_counted declared fits.presence (by rw [fits.arity, List.length_map])

end Operands

theorem operand_types_known (consistent : p.Consistent) (f : Bound.Function) :
    ∀ t ∈ operandTypes (p.signature f), p.KnowsType t := by
  have all : ∀ scope receiver params returnType,
      ∀ t ∈ operandTypes (p.signatureOf scope receiver params returnType), p.KnowsType t := by
    intro scope receiver params returnType t member
    rcases List.mem_append.mp member with first | other
    · split at first
      · rw [List.mem_singleton.mp first]
        exact resolved_type_known consistent scope receiver
      · exact absurd first List.not_mem_nil
    · obtain ⟨written, _, rfl⟩ := List.mem_map.mp other
      exact resolved_type_known consistent scope written
  unfold signature
  split
  · exact all _ _ _ _
  · exact all _ _ _ _

theorem operands_there (consistent : p.Consistent) {operands : List TypeRef} {bases : List TypeId}
    (declares : p.DeclaresBases g bases) (takes : p.Takes receiver (operands.map some) g) :
    ∀ a ∈ operandBases receiver operands, p.types.Has a := by
  have paired := operands_paired declares takes
  obtain ⟨f, found, declared⟩ := declares
  obtain ⟨f', found', fits⟩ := takes
  cases found.symm.trans found'
  have pairs := compared_operands declared fits.presence (by rw [fits.arity, List.length_map])
  intro a member
  rw [← List.map_fst_zip (Nat.le_of_eq paired)] at member
  obtain ⟨⟨a, b⟩, zipped, rfl⟩ := List.mem_map.mp member
  refine has_below (fits_below fits (pairs ▸ zipped)) ?_
  have stated : some b ∈ (operandTypes (p.signature f)).map (Option.map TypeRef.base) := by
    rw [declared]
    exact List.mem_map_of_mem (List.of_mem_zip zipped).2
  obtain ⟨t, listed, based⟩ := List.mem_map.mp stated
  obtain ⟨known, rfl, rfl⟩ := Option.map_eq_some_iff.mp based
  exact operand_types_known consistent f _ listed known rfl

end Program

open Overload in
/-- Two functions apply, and one has the more specific types. It comes first exactly if its types are together nearer to
those of the operands, or as near and it is listed first. They are nearer if it is nowhere a detour to stop at them on
the way to the types of the other one, as it never is where no way up forks. -/
theorem specific_overloads_come_first {options : Options} {modules : List Tree.Module} {p : Program}
    {findings : List Diagnostic} (built : Program.construct options modules = .ok (p, findings))
    (candidates : List FunctionId) (receiver : Option TypeRef) (arguments : List TypeRef) {f g : FunctionId}
    (first : f ∈ candidates) (second : g ∈ candidates) (takes_first : p.Takes receiver (arguments.map some) f)
    (takes_second : p.Takes receiver (arguments.map some) g) {lower upper : List TypeId}
    (specific : p.MoreSpecific f g lower upper) :
    ((∃ ranked, p.resolveOverload candidates receiver (arguments.map some) = .ok ranked) ↔
      ∀ c ∈ candidates, p.HasFunction c) ∧
    ∃ n m, TotalAway p.types ((operandBases receiver arguments).zip lower) n ∧
      TotalAway p.types ((operandBases receiver arguments).zip upper) m ∧
      (∀ ranked, p.resolveOverload candidates receiver (arguments.map some) = .ok ranked →
        (Ahead (ranked.map Match.function) f g ↔ n < m ∨ n = m ∧ Ahead candidates f g)) ∧
      ((p.types.Unforked ∨ ∀ a b c, (a, b, c) ∈ (operandBases receiver arguments).zip (lower.zip upper) →
        p.types.NoDetour a b c) → n < m) := by
  have consistent := construct_consistent built
  have sealed := consistent.hierarchy
  have there := Program.operands_there consistent specific.first takes_first
  have knows : p.KnowsType receiver := by
    rintro t rfl
    exact there t.base (List.mem_cons_self ..)
  have known : ∀ t ∈ arguments.map some, p.KnowsType t := by
    intro t member
    obtain ⟨u, listed, rfl⟩ := List.mem_map.mp member
    exact Program.knows_some.mpr (there u.base (List.mem_map_of_mem (List.mem_append_right _ listed)))
  obtain ⟨n, near⟩ := Program.takes_remote takes_first
  obtain ⟨m, far⟩ := Program.takes_remote takes_second
  have near_total := Program.remote_operands specific.first takes_first near
  have far_total := Program.remote_operands specific.second takes_second far
  refine ⟨Program.resolves_iff consistent knows known, n, m, near_total, far_total, ?_, ?_⟩
  · intro ranked resolved
    exact Program.resolved_ahead_iff consistent knows known resolved first second takes_first takes_second near far
  · intro straight
    refine (total_away_specific sealed there
      (specific.below.imp (fun _ _ => (TypeHierarchy.subtype_iff_below sealed).mp)) ?_
      (Program.operands_paired specific.first takes_first) near_total far_total).2 specific.differ
    intro a b c member low high
    rcases straight with unforked | straight
    · exact TypeHierarchy.unforked_no_detour sealed unforked (there a (List.of_mem_zip member).1) low high
    · exact straight a b c member

/-- A taxi is a car, which is a vehicle, and it extends `Any` once more itself. One function takes vehicles, and one
takes anything. -/
def Tree.taxis : Tree.Module :=
  { path := []
    imports := []
    items := [Tree.extending "Vehicle" [], Tree.extending "Car" ["Vehicle"], Tree.extending "Taxi" ["Car", "Any"],
      Tree.accepting "f" "Vehicle", Tree.accepting "f" "Any"]
    notices := []
    span := {} }

def Program.declaredBases (p : Program) (g : FunctionId) : Option (List (Option TypeId)) :=
  p.functions[g.index]?.map (fun f => (Overload.operandTypes (p.signature f)).map (Option.map TypeRef.base))

theorem Program.declares_of_bases {p : Program} {g : FunctionId} {bases : List TypeId}
    (stated : p.declaredBases g = some (bases.map some)) : p.DeclaresBases g bases := by
  obtain ⟨f, found, declared⟩ := Option.map_eq_some_iff.mp stated
  exact ⟨f, found, declared⟩

theorem taxis_built : ∃ p findings, Program.construct {} [Tree.taxis] = .ok (p, findings) ∧
    (∀ c ∈ ([⟨21⟩, ⟨22⟩] : List FunctionId),
      p.HasFunction c ∧ p.Takes none [some (.simple ⟨7⟩)] c ∧ p.Takes none [some (.simple ⟨8⟩)] c) ∧
    p.MoreSpecific ⟨21⟩ ⟨22⟩ [⟨6⟩] [.any] ∧ p.types.NoDetour ⟨7⟩ ⟨6⟩ .any ∧
    p.resolveOverload [⟨21⟩, ⟨22⟩] none [some (.simple ⟨8⟩)] = .ok [⟨⟨22⟩, 1⟩, ⟨⟨21⟩, 2⟩] := by
  have evaluated : (Program.construct {} [Tree.taxis]).toOption.any (fun built => decide (
      built.1.types.size = 9 ∧ built.1.functions.size = 23 ∧ built.1.declaredBases ⟨21⟩ = some [some ⟨6⟩] ∧
      built.1.declaredBases ⟨22⟩ = some [some .any] ∧ built.1.types.isSubtype ⟨6⟩ .any = .ok true ∧
      built.1.types.distance ⟨7⟩ ⟨6⟩ = .ok 1 ∧ built.1.types.distance ⟨6⟩ .any = .ok 1 ∧
      built.1.types.distance ⟨7⟩ .any = .ok 2 ∧
      built.1.resolveOverload [⟨21⟩, ⟨22⟩] none [some (.simple ⟨7⟩)] = .ok [⟨⟨21⟩, 1⟩, ⟨⟨22⟩, 2⟩] ∧
      built.1.resolveOverload [⟨21⟩, ⟨22⟩] none [some (.simple ⟨8⟩)] = .ok [⟨⟨22⟩, 1⟩, ⟨⟨21⟩, 2⟩])) = true := by
    decide +kernel
  obtain ⟨⟨p, findings⟩, built, types, functions, vehicle, anything, below, low, high, whole, car, taxi⟩ :=
    ok_of_passed evaluated
  have takes : ∀ t ranked, t.index < 9 → p.resolveOverload [⟨21⟩, ⟨22⟩] none [some (.simple t)] = .ok ranked →
      ∀ c ∈ ranked.map Overload.Match.function, p.Takes none [some (.simple t)] c := by
    intro t ranked there resolved c listed
    have known : ∀ u ∈ [some (TypeRef.simple t)], p.KnowsType u := by
      intro u member
      rw [List.mem_singleton.mp member, knows_some]
      exact Nat.lt_of_lt_of_eq there types.symm
    obtain ⟨m, member, rfl⟩ := List.mem_map.mp listed
    exact (resolved_member (construct_consistent built) knows_none known resolved member).2.1
  refine ⟨p, findings, built, ?_, ⟨declares_of_bases vehicle, declares_of_bases anything,
    .cons below .nil, by decide⟩, ?_, taxi⟩
  · intro c member
    refine ⟨Nat.lt_of_lt_of_eq (by revert c; decide) functions.symm, takes _ _ (by decide) car c ?_,
      takes _ _ (by decide) taxi c ?_⟩
    · revert c
      decide
    · revert c
      decide
  · intro n m k first second total
    cases low.symm.trans first
    cases high.symm.trans second
    cases whole.symm.trans total
    decide

/-- For a taxi the function that takes anything is the nearer one, although the other one is more specific. -/
theorem shortcut_beats_the_specific : ∃ p findings, Program.construct {} [Tree.taxis] = .ok (p, findings) ∧
    p.Takes none [some (.simple ⟨8⟩)] ⟨21⟩ ∧ p.Takes none [some (.simple ⟨8⟩)] ⟨22⟩ ∧
    p.MoreSpecific ⟨21⟩ ⟨22⟩ [⟨6⟩] [.any] ∧
    ∃ ranked, p.resolveOverload [⟨21⟩, ⟨22⟩] none [some (.simple ⟨8⟩)] = .ok ranked ∧
      ¬ Overload.Ahead (ranked.map Overload.Match.function) ⟨21⟩ ⟨22⟩ := by
  obtain ⟨p, findings, built, takes, specific, _, taxi⟩ := taxis_built
  exact ⟨p, findings, built, (takes ⟨21⟩ (by decide)).2.2, (takes ⟨22⟩ (by decide)).2.2, specific, _, taxi,
    fun ahead => ahead.2.2 (.refl _)⟩

theorem vehicles_first_for_a_car : ∃ p findings, Program.construct {} [Tree.taxis] = .ok (p, findings) ∧
    p.Takes none [some (.simple ⟨7⟩)] ⟨21⟩ ∧ p.Takes none [some (.simple ⟨7⟩)] ⟨22⟩ ∧
    p.MoreSpecific ⟨21⟩ ⟨22⟩ [⟨6⟩] [.any] ∧
    ∃ ranked, p.resolveOverload [⟨22⟩, ⟨21⟩] none [some (.simple ⟨7⟩)] = .ok ranked ∧
      Overload.Ahead (ranked.map Overload.Match.function) ⟨21⟩ ⟨22⟩ := by
  obtain ⟨p, findings, built, takes, specific, straight, _⟩ := taxis_built
  have takes_first := (takes ⟨21⟩ (by decide)).2.1
  have takes_second := (takes ⟨22⟩ (by decide)).2.1
  obtain ⟨resolves, n, m, _, _, ahead, nearer⟩ := specific_overloads_come_first built [⟨22⟩, ⟨21⟩] none [.simple ⟨7⟩]
    (by decide) (by decide) takes_first takes_second specific
  obtain ⟨ranked, resolved⟩ := resolves.mpr (fun c member => (takes c (by revert c; decide)).1)
  refine ⟨p, findings, built, takes_first, takes_second, specific, ranked, resolved, ?_⟩
  refine (ahead ranked resolved).mpr (.inl (nearer (.inr ?_)))
  intro a b c member
  cases List.mem_singleton.mp member
  exact straight

open Overload in
/-- What applies to operands still applies if they become more specific or unknown, and it is no farther from fewer
known ones. -/
theorem refined_operands_keep_overloads {options : Options} {modules : List Tree.Module} {p : Program}
    {findings : List Diagnostic} (built : Program.construct options modules = .ok (p, findings))
    (candidates : List FunctionId) {receiver receiver' : Option TypeRef} {arguments arguments' : List (Option TypeRef)}
    (knows : p.KnowsType receiver) (known : ∀ t ∈ arguments, p.KnowsType t)
    (narrower : Narrows p.types receiver receiver') (refined : List.Forall₂ (Refines p.types) arguments arguments') :
    ((∃ ranked, p.resolveOverload candidates receiver arguments = .ok ranked) ↔
      ∀ g ∈ candidates, p.HasFunction g) ∧
    ∀ ranked, p.resolveOverload candidates receiver arguments = .ok ranked →
      ∃ ranked', p.resolveOverload candidates receiver' arguments' = .ok ranked' ∧
        ranked.map Match.function ⊆ ranked'.map Match.function ∧
        (receiver' = receiver → List.Forall₂ (fun t u => u = t ∨ u = none) arguments arguments' →
          ∀ m ∈ ranked, ∀ m' ∈ ranked', m'.function = m.function → m'.distance ≤ m.distance) := by
  have consistent := construct_consistent built
  have sealed := consistent.hierarchy
  have knows' : p.KnowsType receiver' := narrows_known sealed knows narrower
  have known' : ∀ t ∈ arguments', p.KnowsType t := refined_known sealed known refined
  refine ⟨Program.resolves_iff consistent knows known, fun ranked resolved => ?_⟩
  have there := (Program.resolves_iff consistent knows known).mp ⟨ranked, resolved⟩
  obtain ⟨ranked', resolved'⟩ := (Program.resolves_iff consistent knows' known').mpr there
  refine ⟨ranked', resolved', ?_, ?_⟩
  · intro g listed
    obtain ⟨m, member, rfl⟩ := List.mem_map.mp listed
    obtain ⟨candidate, ⟨f, found, fits⟩, _⟩ := Program.resolved_member consistent knows known resolved member
    exact Program.taken_listed consistent knows' known' resolved' candidate
      ⟨f, found, fits_refined sealed fits narrower refined⟩
  · rintro rfl forgotten m member m' member' same
    obtain ⟨_, _, f, found, total⟩ := Program.resolved_member consistent knows known resolved member
    obtain ⟨_, _, f', found', total'⟩ := Program.resolved_member consistent knows' known' resolved' member'
    rw [same] at found'
    cases found.symm.trans found'
    exact total_away_sublist (compared_forgotten forgotten) total' total

theorem integers_keep_comparison : ∃ p findings, Program.construct {} [] = .ok (p, findings) ∧
    ∃ ranked narrowed forgotten,
      p.resolveOverload [⟨0⟩, ⟨16⟩, ⟨17⟩] (some (.simple .number)) [some (.simple .number)] = .ok ranked ∧
      p.resolveOverload [⟨0⟩, ⟨16⟩, ⟨17⟩] (some (.simple .int)) [some (.simple .int)] = .ok narrowed ∧
      p.resolveOverload [⟨0⟩, ⟨16⟩, ⟨17⟩] (some (.simple .number)) [none] = .ok forgotten ∧
      ranked.map Overload.Match.function = [⟨16⟩, ⟨17⟩] ∧
      ranked.map Overload.Match.function ⊆ narrowed.map Overload.Match.function ∧
      ranked.map Overload.Match.function ⊆ forgotten.map Overload.Match.function ∧
      ∀ m ∈ ranked, ∀ m' ∈ forgotten, m'.function = m.function → m'.distance ≤ m.distance := by
  have evaluated : (Program.construct {} []).toOption.any (fun built => decide (
      6 ≤ built.1.types.size ∧ built.1.types.isSubtype .int .number = .ok true ∧
      built.1.types.isAssignable (.simple .int) (.simple .number) = .ok true ∧
      built.1.types.isSubtype .number .number = .ok true ∧
      built.1.resolveOverload [⟨0⟩, ⟨16⟩, ⟨17⟩] (some (.simple .number)) [some (.simple .number)]
        = .ok [⟨⟨16⟩, 0⟩, ⟨⟨17⟩, 2⟩])) = true := by decide +kernel
  obtain ⟨⟨p, findings⟩, built, size, below, assignable, same, resolved⟩ := ok_of_passed evaluated
  have there : p.types.Has .number := Nat.lt_of_lt_of_le (by decide) size
  have knows : p.KnowsType (some (.simple .number)) := Program.knows_some.mpr there
  have known : ∀ t ∈ [some (TypeRef.simple .number)], p.KnowsType t := by
    intro t member
    rw [List.mem_singleton.mp member]
    exact knows
  have narrower : Overload.Narrows p.types (some (.simple .number)) (some (.simple .int)) := .some below
  have unchanged : Overload.Narrows p.types (some (.simple .number)) (some (.simple .number)) := .some same
  obtain ⟨_, narrowing⟩ := refined_operands_keep_overloads built [⟨0⟩, ⟨16⟩, ⟨17⟩] knows known narrower
    (.cons (.narrowed _ _ assignable) .nil)
  obtain ⟨_, forgetting⟩ := refined_operands_keep_overloads built [⟨0⟩, ⟨16⟩, ⟨17⟩] knows known unchanged
    (.cons (.forgotten _) .nil)
  obtain ⟨narrowed, resolved', kept, _⟩ := narrowing _ resolved
  obtain ⟨forgotten, resolved'', kept', nearer⟩ := forgetting _ resolved
  exact ⟨p, findings, built, _, narrowed, forgotten, resolved, resolved', resolved'', rfl, kept, kept',
    nearer rfl (.cons (.inr rfl) .nil)⟩

end SemanticAnalysis
