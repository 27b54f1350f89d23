import SemanticAnalysis.Proofs.Running
import SemanticAnalysis.Proofs.Types.Supertypes
/-!
Questions to a sealed hierarchy have answers. The subtype walk says whether one type is below another, whatever right
answers it remembers; the distance is the length of a shortest walk; and a climb towards a common ancestor ends. The
bounds of all three are never reached, so none of them reports a cycle.
-/
namespace SemanticAnalysis.TypeHierarchy
open Relation Running

variable {h : TypeHierarchy}

/-- What is remembered is right. -/
def Truthful (h : TypeHierarchy) (answers : SubtypeAnswers) : Prop :=
  ∀ a b answer, answers.find? (a, b) = some answer → (answer = true ↔ h.Below a b)

theorem truthful_empty : h.Truthful {} := by
  intro a b answer found
  simp at found

theorem truthful_insert {answers : SubtypeAnswers} {a b : TypeId} {answer : Bool} (right : h.Truthful answers)
    (new : answer = true ↔ h.Below a b) : h.Truthful (answers.insert (a, b) answer) := by
  intro c d other found
  rw [Table.find_insert] at found
  split at found
  · rename_i same
    cases same
    cases found
    exact new
  · exact right c d other found

theorem below_refl (a : TypeId) : h.Below a a := .refl

theorem below_of_ne {a b : TypeId} (different : a ≠ b) :
    h.Below a b ↔ ∃ s, h.Edge a s ∧ h.Below s b := by
  constructor
  · intro below
    cases below.cases_head with
    | inl same => exact absurd same different
    | inr step => exact step
  · rintro ⟨s, edge, below⟩
    exact .head edge below

theorem below_of_supertypes {a b : TypeId} {d : TypeDef} (found : h.get? a = some d) (different : a ≠ b) :
    (∃ s ∈ d.supertypes, h.Below s b) ↔ h.Below a b := by
  rw [below_of_ne different]
  constructor
  · rintro ⟨s, member, below⟩
    exact ⟨s, ⟨d, found, member⟩, below⟩
  · rintro ⟨s, ⟨e, found', member⟩, below⟩
    cases found.symm.trans found'
    exact ⟨s, member, below⟩

/-- A question that is answered rightly from every truthful memory. -/
def Answers (h : TypeHierarchy) (question : SubtypeQuestion Bool) (fact : Prop) : Prop :=
  ∀ answers, h.Truthful answers →
    ∃ answer after, question answers = (.ok answer, after) ∧ h.Truthful after ∧ (answer = true ↔ fact)

theorem any_answers {question : TypeId → SubtypeQuestion Bool} {fact : TypeId → Prop} (types : List TypeId)
    (each : ∀ s ∈ types, h.Answers (question s) (fact s)) :
    h.Answers (types.anyM question) (∃ s ∈ types, fact s) := by
  induction types with
  | nil =>
    intro answers right
    exact ⟨false, answers, rfl, right, by simp⟩
  | cons s rest ih =>
    intro answers right
    obtain ⟨first, middle, ran, still, meaning⟩ := each s (by simp) answers right
    rw [List.anyM, run_bind_ok ran]
    cases first with
    | true => exact ⟨true, middle, rfl, still, by simpa using .inl (meaning.mp rfl)⟩
    | false =>
      have not_first : ¬ fact s := fun holds => by simpa using meaning.mpr holds
      obtain ⟨answer, after, ran, still, meaning⟩ :=
        ih (fun t member => each t (List.mem_cons_of_mem _ member)) middle still
      exact ⟨answer, after, ran, still, by simpa [not_first] using meaning⟩

/-- The types on the way to this one are below it, so the walk does not meet them again, and its bound is that of the
walks that start here. -/
theorem reaches_answers (sealed : h.Sealed) (target : TypeId) (bound : Nat) (visiting : List TypeId) (a : TypeId)
    (there : h.Has a) (onWay : ∀ t ∈ visiting, TransGen h.Edge t a) (short : ∀ n b, Walk h n a b → n < bound) :
    h.Answers (h.reaches target bound visiting a) (h.Below a target) := by
  induction bound generalizing visiting a with
  | zero => exact absurd (short 0 a (.zero a)) (Nat.not_lt_zero 0)
  | succ bound ih =>
    intro answers right
    rw [reaches]
    by_cases same : a = target
    · subst same
      rw [if_pos rfl]
      exact ⟨true, answers, rfl, right, by simpa using below_refl a⟩
    · rw [if_neg same, run_bind_ok (run_get answers)]
      cases remembered : answers.find? (a, target) with
      | some answer => exact ⟨answer, answers, rfl, right, right a target answer remembered⟩
      | none =>
        have fresh : a ∉ visiting := fun again => sealed.acyclic a (onWay a again)
        obtain ⟨d, found, required⟩ := require_ok there
        have step : ∀ s ∈ d.supertypes, h.Answers (h.reaches target bound (a :: visiting) s) (h.Below s target) := by
          intro s member
          have edge : h.Edge a s := ⟨d, found, member⟩
          apply ih (a :: visiting) s (sealed.closed edge)
          · intro t passed
            rcases List.mem_cons.mp passed with rfl | earlier
            · exact .single edge
            · exact (onWay t earlier).tail edge
          · intro n b walk
            have longer := short (n + 1) b (.next edge walk)
            omega
        obtain ⟨answer, after, ran, still, meaning⟩ := any_answers d.supertypes step answers right
        have fact := meaning.trans (below_of_supertypes found same)
        refine ⟨answer, after.insert (a, target) answer, ?_, truthful_insert still fact, fact⟩
        dsimp only
        rw [if_neg fresh, required, run_bind_ok (run_lift answers (.ok d)), run_bind_ok ran]
        rfl

theorem ask_subtype_answers (sealed : h.Sealed) {a : TypeId} (there : h.Has a) (b : TypeId) :
    h.Answers (h.askSubtype a b) (h.Below a b) := by
  apply reaches_answers sealed b _ [] a there
  · simp
  · intro n c walk
    have bounded := walk_length_bounded sealed walk
    omega

/-- A walk meets no type twice before it is stopped, so it ends within as many steps as there are types, in any
hierarchy. -/
theorem reaches_bound_spare (target : TypeId) (bound more : Nat) (visiting : List TypeId) (a : TypeId)
    (distinct : visiting.Nodup) (there : ∀ t ∈ visiting, h.Has t) (enough : h.size < bound + visiting.length) :
    h.reaches target (bound + more) visiting a = h.reaches target bound visiting a := by
  induction bound generalizing visiting a with
  | zero =>
    have few := nodup_length_le distinct there
    omega
  | succ bound ih =>
    rw [Nat.add_right_comm, reaches, reaches]
    by_cases again : a ∈ visiting
    · simp only [again, ↓reduceIte]
    · simp only [again, ↓reduceIte]
      cases found : h.get? a with
      | none => simp only [require, found]; rfl
      | some d =>
        have known : h.Has a := get_some_iff_has.mp ⟨d, found⟩
        have rest : ∀ s, h.reaches target (bound + more) (a :: visiting) s = h.reaches target bound (a :: visiting) s := by
          intro s
          apply ih
          · exact List.nodup_cons.mpr ⟨again, distinct⟩
          · simpa using ⟨known, there⟩
          · simp only [List.length_cons]
            omega
        rw [funext rest]

theorem is_subtype_iff_below (sealed : h.Sealed) {a : TypeId} (there : h.Has a) (b : TypeId) :
    ∃ answer, h.isSubtype a b = .ok answer ∧ (answer = true ↔ h.Below a b) := by
  obtain ⟨answer, after, ran, _, meaning⟩ := ask_subtype_answers sealed there b {} truthful_empty
  exact ⟨answer, by rw [isSubtype, ran], meaning⟩

/-- A place takes the values of its own type and of those below it, and null only if it may hold null. -/
def Accepts (h : TypeHierarchy) (slot value : TypeRef) : Prop :=
  (value.nullable = true → slot.nullable = true) ∧ h.Below value.base slot.base

theorem is_assignable_iff_accepts (sealed : h.Sealed) (value slot : TypeRef) (there : h.Has value.base) :
    ∃ answer, h.isAssignable value slot = .ok answer ∧ (answer = true ↔ h.Accepts slot value) := by
  unfold isAssignable Accepts
  split
  · rename_i refused
    exact ⟨false, rfl, by simp_all⟩
  · rename_i allowed
    obtain ⟨answer, asked, meaning⟩ := is_subtype_iff_below sealed there slot.base
    have nullable : value.nullable = true → slot.nullable = true := by simpa using allowed
    exact ⟨answer, asked, by rw [meaning, and_iff_right nullable]⟩

/-- The number of steps on a shortest way from one type up to another. -/
def Away (h : TypeHierarchy) (n : Nat) (a b : TypeId) : Prop := Walk h n a b ∧ ∀ k, Walk h k a b → n ≤ k

theorem Away.unique {n m : Nat} {a b : TypeId} (first : h.Away n a b) (second : h.Away m a b) : n = m :=
  Nat.le_antisymm (first.2 m second.1) (second.2 n first.1)

/-- A number that is the length of a walk from one of the types, and of no shorter one. -/
def Nearest (h : TypeHierarchy) (level : List TypeId) (target : TypeId) (n : Nat) : Prop :=
  (∃ a ∈ level, Walk h n a target) ∧ ∀ a ∈ level, ∀ k, Walk h k a target → n ≤ k

/-- The least of these numbers, if there is a way up from any of the types. -/
def Shortest (h : TypeHierarchy) (target : TypeId) (types : List TypeId) : Option Nat → Prop
  | none => ∀ s ∈ types, ¬ h.Below s target
  | some n => h.Nearest types target n

variable {target : TypeId} {types : List TypeId} {shortest : Option Nat} {s : TypeId} {n : Nat}

theorem shortest_apart (found : h.Shortest target types shortest) (apart : ¬ h.Below s target) :
    h.Shortest target (types ++ [s]) shortest := by
  cases shortest with
  | none => exact each_snoc found apart
  | some least =>
    obtain ⟨⟨t, member, walk⟩, least⟩ := found
    exact ⟨⟨t, List.mem_append_left _ member, walk⟩,
      each_snoc least (fun k walk => absurd (walk_below walk) apart)⟩

theorem shortest_below (found : h.Shortest target types shortest) (away : h.Away n s target) :
    h.Shortest target (types ++ [s]) (some (shortest.elim n (fun least => min least n))) := by
  cases shortest with
  | none =>
    refine ⟨⟨s, by simp, away.1⟩, each_snoc (fun t member k walk => ?_) away.2⟩
    exact absurd (walk_below walk) (found t member)
  | some m =>
    obtain ⟨⟨t, member, walk⟩, least⟩ := found
    constructor
    · rcases Nat.le_total m n with closer | closer
      · exact ⟨t, List.mem_append_left _ member, by simpa [closer] using walk⟩
      · exact ⟨s, by simp, by simpa [closer] using away.1⟩
    · apply each_snoc
      · exact fun t member k walk => Nat.le_trans (Nat.min_le_left m n) (least t member k walk)
      · exact fun k walk => Nat.le_trans (Nat.min_le_right m n) (away.2 k walk)

theorem nearer_shortest (sealed : h.Sealed) (there : h.Has s) (so_far : h.Shortest target types shortest)
    {measure : TypeId → Except InternalError Nat}
    (measures : h.Below s target → ∃ n, measure s = .ok n ∧ h.Away n s target) :
    ∃ next, nearerUsing h.isSubtype measure target shortest s = .ok next ∧ h.Shortest target (types ++ [s]) next := by
  obtain ⟨answer, asked, meaning⟩ := is_subtype_iff_below sealed there target
  rw [nearerUsing, asked, ok_bind]
  cases answer with
  | true =>
    obtain ⟨n, measured, away⟩ := measures (meaning.mp rfl)
    rw [if_pos rfl, measured]
    exact ⟨_, rfl, shortest_below so_far away⟩
  | false =>
    have apart : ¬ h.Below s target := fun below => by simpa using meaning.mpr below
    exact ⟨_, rfl, shortest_apart so_far apart⟩

theorem away_step {a : TypeId} {d : TypeDef} (found : h.get? a = some d) (different : a ≠ target)
    (shortest : h.Shortest target d.supertypes (some n)) : h.Away (n + 1) a target := by
  obtain ⟨⟨s, member, walk⟩, least⟩ := shortest
  refine ⟨.next ⟨d, found, member⟩ walk, fun k longer => ?_⟩
  cases longer with
  | zero => exact absurd rfl different
  | next edge tail =>
    obtain ⟨e, found', member⟩ := edge
    cases found.symm.trans found'
    exact Nat.succ_le_succ (least _ member _ tail)

theorem measured_shortest (sealed : h.Sealed) (target : TypeId) (bound : Nat) (a : TypeId) (there : h.Has a)
    (below : h.Below a target) (short : ∀ n b, Walk h n a b → n ≤ bound) :
    ∃ n, h.measureUsing h.isSubtype target bound a = .ok n ∧ h.Away n a target := by
  induction bound generalizing a with
  | zero =>
    obtain ⟨n, walk⟩ := below_walk below
    have empty := short n target walk
    cases walk with
    | zero => exact ⟨0, by rw [measureUsing, if_pos rfl]; rfl, .zero _, fun _ _ => Nat.zero_le _⟩
    | next => omega
  | succ bound ih =>
    rw [measureUsing]
    by_cases same : a = target
    · subst same
      exact ⟨0, by rw [if_pos rfl]; rfl, .zero a, fun _ _ => Nat.zero_le _⟩
    · obtain ⟨answer, asked, meaning⟩ := is_subtype_iff_below sealed there target
      obtain ⟨d, found, required⟩ := require_ok there
      rw [if_neg same, asked, ok_bind, if_pos (meaning.mpr below), required, of_except_ok, ok_bind]
      -- the fold knows the shortest way up from the supertypes that it has seen
      obtain ⟨shortest, folded, least⟩ := fold_ok (I := h.Shortest target) d.supertypes
        (fun s member types shortest so_far => by
          have edge : h.Edge a s := ⟨d, found, member⟩
          apply nearer_shortest sealed (sealed.closed edge) so_far
          intro upward
          apply ih s (sealed.closed edge) upward
          intro n b walk
          have longer := short (n + 1) b (.next edge walk)
          omega)
        [] none (by simp [Shortest])
      rw [folded, ok_bind]
      cases shortest with
      | some n => exact ⟨n + 1, rfl, away_step found same least⟩
      | none =>
        obtain ⟨s, ⟨e, found', member⟩, upward⟩ := (below_of_ne same).mp below
        cases found.symm.trans found'
        exact absurd upward (least s member)

theorem measure_shortest (sealed : h.Sealed) {a b : TypeId} (there : h.Has a) (below : h.Below a b) :
    ∃ n, h.measure a b = .ok n ∧ h.Away n a b := by
  apply measured_shortest sealed b (h.size + 1) a there below
  intro n c walk
  have bounded := walk_length_bounded sealed walk
  omega

theorem nearest_step {level next : List TypeId} {target : TypeId} {n : Nat} (away : target ∉ level)
    (up : ∀ s, s ∈ next ↔ (∃ a ∈ level, h.Edge a s) ∧ h.Below s target) (nearest : h.Nearest next target n) :
    h.Nearest level target (n + 1) := by
  obtain ⟨⟨s, member, walk⟩, least⟩ := nearest
  constructor
  · obtain ⟨⟨a, below, edge⟩, _⟩ := (up s).mp member
    exact ⟨a, below, .next edge walk⟩
  · intro a below k longer
    cases longer with
    | zero => exact absurd below away
    | next edge tail =>
      have member := (up _).mpr ⟨⟨a, below, edge⟩, walk_below tail⟩
      exact Nat.succ_le_succ (least _ member _ tail)

theorem levels_nearest (sealed : h.Sealed) (target : TypeId) (bound : Nat) (level : List TypeId)
    (inhabited : level ≠ []) (each : ∀ a ∈ level, h.Has a ∧ h.Below a target)
    (short : ∀ a ∈ level, ∀ n b, Walk h n a b → n ≤ bound) :
    ∃ n, h.levelsUsing h.isSubtype target bound level = .ok n ∧ h.Nearest level target n := by
  classical
  induction bound generalizing level with
  | zero =>
    obtain ⟨a, member⟩ := List.exists_mem_of_ne_nil level inhabited
    obtain ⟨n, walk⟩ := below_walk (each a member).2
    have empty := short a member n target walk
    cases walk with
    | zero =>
      refine ⟨0, ?_, ⟨target, member, .zero target⟩, fun _ _ _ _ => Nat.zero_le _⟩
      rw [levelsUsing, if_pos member]
      rfl
    | next => omega
  | succ bound ih =>
    rw [levelsUsing]
    by_cases arrived : target ∈ level
    · rw [if_pos arrived]
      exact ⟨0, rfl, ⟨target, arrived, .zero target⟩, fun _ _ _ _ => Nat.zero_le _⟩
    · rw [if_neg arrived]
      have required : ∀ a ∈ level, ∃ d, (MonadExcept.ofExcept (h.require a) : Except InternalError TypeDef) = .ok d
          ∧ h.get? a = some d := by
        intro a member
        obtain ⟨d, found, required⟩ := require_ok (each a member).1
        exact ⟨d, by rw [required, of_except_ok], found⟩
      obtain ⟨defs, mapped, related⟩ := map_ok level required
      have edges : ∀ s, s ∈ (defs.flatMap TypeDef.supertypes).eraseDups ↔ ∃ a ∈ level, h.Edge a s := by
        intro s
        rw [List.mem_eraseDups, List.mem_flatMap]
        clear ih inhabited each short arrived required mapped
        induction related with
        | nil => simp
        | @cons a d level defs found _ ih =>
          simp only [List.mem_cons, exists_eq_or_imp, ih]
          apply or_congr_left
          constructor
          · exact fun listed => ⟨d, found, listed⟩
          · rintro ⟨e, found', listed⟩
            cases found.symm.trans found'
            exact listed
      have asked : ∀ s ∈ (defs.flatMap TypeDef.supertypes).eraseDups,
          h.isSubtype s target = .ok (decide (h.Below s target)) := by
        intro s member
        obtain ⟨a, _, edge⟩ := (edges s).mp member
        obtain ⟨answer, told, meaning⟩ := is_subtype_iff_below sealed (sealed.closed edge) target
        rw [told, ← meaning, Bool.decide_eq_true]
      have filtered := filter_ok _ asked
      obtain ⟨next, same⟩ : ∃ next, next =
        (defs.flatMap TypeDef.supertypes).eraseDups.filter (fun s => decide (h.Below s target)) := ⟨_, rfl⟩
      rw [← same] at filtered
      have up : ∀ s, s ∈ next ↔ (∃ a ∈ level, h.Edge a s) ∧ h.Below s target := by
        intro s
        rw [same, List.mem_filter, edges, decide_eq_true_iff]
      have more : next ≠ [] := by
        obtain ⟨a, member⟩ := List.exists_mem_of_ne_nil level inhabited
        have different : a ≠ target := fun same => arrived (same ▸ member)
        obtain ⟨s, edge, below⟩ := (below_of_ne different).mp (each a member).2
        exact List.ne_nil_of_mem ((up s).mpr ⟨⟨a, member, edge⟩, below⟩)
      obtain ⟨n, counted, nearest⟩ := ih next more
        (fun s member => by
          obtain ⟨⟨a, _, edge⟩, below⟩ := (up s).mp member
          exact ⟨sealed.closed edge, below⟩)
        (fun s member n b walk => by
          obtain ⟨⟨a, low, edge⟩, _⟩ := (up s).mp member
          have longer := short a low (n + 1) b (.next edge walk)
          omega)
      refine ⟨n + 1, ?_, nearest_step arrived up nearest⟩
      rw [mapped, ok_bind, filtered, ok_bind, counted, ok_bind]
      rfl

theorem distance_shortest (sealed : h.Sealed) {a b : TypeId} (there : h.Has a) (below : h.Below a b) :
    ∃ n, h.distance a b = .ok n ∧ h.Away n a b := by
  unfold distance distanceUsing
  by_cases same : a = b
  · subst same
    exact ⟨0, by rw [if_pos rfl]; rfl, .zero a, fun _ _ => Nat.zero_le _⟩
  · obtain ⟨answer, asked, meaning⟩ := is_subtype_iff_below sealed there b
    have yes : answer = true := meaning.mpr below
    obtain ⟨n, counted, nearest⟩ := levels_nearest sealed b (h.size + 1) [a] (by simp)
      (by simpa using ⟨there, below⟩)
      (by
        intro c member n d walk
        have bounded := walk_length_bounded sealed walk
        omega)
    refine ⟨n, ?_, by simpa [Nearest, Away] using nearest⟩
    rw [if_neg same, asked, yes]
    exact counted

/-- A climb that changes places is bounded by the walks from both types, one that does not by those from the pivot. -/
theorem climb_ends (sealed : h.Sealed) (bound : Nat) (pivot other : TypeId) (swapped : Bool) (limit : Nat)
    (pivot_there : h.Has pivot) (other_there : h.Has other) (short : ∀ n b, Walk h n pivot b → n ≤ limit)
    (enough : limit + (if swapped then 0 else h.size + 1) < bound) :
    ∃ found, h.climbUsing h.isSubtype bound pivot other swapped = .ok found ∧
      ∀ t, found = some t → h.Below pivot t ∧ h.Below other t := by
  induction bound generalizing pivot other swapped limit with
  | zero => exact absurd enough (Nat.not_lt_zero _)
  | succ bound ih =>
    obtain ⟨answer, asked, meaning⟩ := is_subtype_iff_below sealed other_there pivot
    rw [climbUsing, asked, ok_bind]
    by_cases arrived : answer = true
    · refine ⟨some pivot, by rw [if_pos arrived]; rfl, ?_⟩
      intro t same
      cases same
      exact ⟨below_refl pivot, meaning.mp arrived⟩
    · rw [if_neg arrived]
      obtain ⟨d, found, required⟩ := require_ok pivot_there
      rw [required, of_except_ok, ok_bind]
      split
      · exact ⟨none, rfl, by simp⟩
      · rename_i supertype only
        have edge : h.Edge pivot supertype := ⟨d, found, by rw [only]; exact List.mem_singleton.mpr rfl⟩
        have one := short 1 supertype (.next edge (.zero _))
        obtain ⟨result, climbed, above⟩ := ih supertype other swapped (limit - 1) (sealed.closed edge) other_there
          (fun n b walk => by
            have longer := short (n + 1) b (.next edge walk)
            omega)
          (by omega)
        refine ⟨result, climbed, ?_⟩
        intro t same
        exact ⟨.head edge (above t same).1, (above t same).2⟩
      · cases swapped with
        | true => exact ⟨none, rfl, by simp⟩
        | false =>
          obtain ⟨result, climbed, above⟩ := ih other pivot true h.size other_there pivot_there
            (fun n b walk => walk_length_bounded sealed walk)
            (by simp only [Bool.false_eq_true, ↓reduceIte] at enough ⊢; omega)
          refine ⟨result, climbed, ?_⟩
          intro t same
          exact (above t same).symm

theorem climb_all_ends (sealed : h.Sealed) (pivot : TypeId) (others : List TypeId) (pivot_there : h.Has pivot)
    (others_there : ∀ t ∈ others, h.Has t) :
    ∃ t, h.climbAllUsing h.isSubtype pivot others = .ok t ∧
      (t = .any ∨ ∀ a ∈ pivot :: others, h.Below a t) := by
  induction others generalizing pivot with
  | nil => exact ⟨pivot, rfl, .inr (by simpa using below_refl pivot)⟩
  | cons other rest ih =>
    have other_there := others_there other (by simp)
    obtain ⟨result, climbed, above⟩ := climb_ends sealed (2 * h.size + 2) pivot other false h.size pivot_there
      other_there (fun n b walk => walk_length_bounded sealed walk) (by simp only [Bool.false_eq_true, ↓reduceIte]; omega)
    rw [climbAllUsing, climbed]
    cases result with
    | none => exact ⟨.any, rfl, .inl rfl⟩
    | some next =>
      obtain ⟨low, high⟩ := above next rfl
      obtain ⟨t, ended, bounds⟩ := ih next (below_has sealed low pivot_there)
        (fun t member => others_there t (List.mem_cons_of_mem _ member))
      refine ⟨t, ended, bounds.imp_right ?_⟩
      intro each a member
      have up := each next (by simp)
      simp only [List.mem_cons] at member
      rcases member with rfl | rfl | later
      · exact low.trans up
      · exact high.trans up
      · exact each a (List.mem_cons_of_mem _ later)

theorem common_ancestor_ok (sealed : h.Sealed) {types : List TypeId} (some : types ≠ [])
    (there : ∀ t ∈ types, h.Has t) :
    ∃ t, h.commonAncestor types = .ok t ∧ (t = .any ∨ ∀ a ∈ types, h.Below a t) := by
  cases types with
  | nil => exact absurd rfl some
  | cons first rest =>
    exact climb_all_ends sealed first rest (there first (by simp))
      (fun t member => there t (List.mem_cons_of_mem _ member))

theorem add_supertype_ok (sealed : h.Sealed) {type supertype : TypeId} (lower : h.Has type)
    (upper : h.Has supertype) :
    (h.Below supertype type ∧ h.addSupertype type supertype = .ok none) ∨
      (¬ h.Below supertype type ∧ h.addSupertype type supertype = .ok (some (h.attach type supertype))) := by
  obtain ⟨d, _, required⟩ := require_ok lower
  obtain ⟨e, _, required'⟩ := require_ok upper
  obtain ⟨answer, asked, meaning⟩ := is_subtype_iff_below sealed upper type
  unfold addSupertype addSupertypeUsing
  rw [required, required', asked]
  cases answer with
  | true => exact .inl ⟨meaning.mp rfl, rfl⟩
  | false => exact .inr ⟨fun below => by simpa using meaning.mpr below, rfl⟩

end SemanticAnalysis.TypeHierarchy
