import SemanticAnalysis.Proofs.Types.Queries
import SemanticAnalysis.Types.Remembering
/-!
What a hierarchy remembers is right, whatever was asked and added in between. An answer is only kept about a type that
is there, and such a type gets no new supertypes without all answers being forgotten. So a hierarchy that was grown
and asked in any order answers as one would that remembers nothing, and subtypes are what the edges lead to.
-/
namespace SemanticAnalysis
open Relation Running

namespace TypeHierarchy

variable {h : TypeHierarchy}

theorem register_ok {d : TypeDef} {id : TypeId} {types : TypeHierarchy} (added : h.register d = .ok (id, types)) :
    (∀ s ∈ d.supertypes, h.Has s) ∧ types = (h.push d).2 := by
  unfold register at added
  have all : ∀ supertypes : List TypeId,
      supertypes.forM (fun s => (fun _ => ()) <$> h.require s) = .ok () → ∀ s ∈ supertypes, h.Has s := by
    intro supertypes
    induction supertypes with
    | nil => simp
    | cons first rest ih =>
      intro checked
      change ((fun _ => ()) <$> h.require first >>= fun _ => rest.forM _) = _ at checked
      cases found : h.get? first with
      | none =>
        rw [require, found] at checked
        cases checked
      | some e =>
        rw [require, found] at checked
        intro s member
        rcases List.mem_cons.mp member with rfl | later
        · exact get_some_iff_has.mp ⟨e, found⟩
        · exact ih checked s later
  cases checked : d.supertypes.forM (fun s => (fun _ => ()) <$> h.require s) with
  | error e =>
    rw [checked] at added
    cases added
  | ok done =>
    rw [checked] at added
    cases added
    exact ⟨all d.supertypes checked, rfl⟩

/-- What is remembered is right, and it is about types that are there. -/
structure Trusted (h : TypeHierarchy) (answers : SubtypeAnswers) : Prop where
  truthful : h.Truthful answers
  known : ∀ a b answer, answers.find? (a, b) = some answer → h.Has a

theorem trusted_empty : h.Trusted {} := by
  constructor
  · exact truthful_empty
  · intro a b answer found
    simp at found

variable {answers : SubtypeAnswers}

theorem trusted_push (sealed : h.Sealed) (trusted : h.Trusted answers) (d : TypeDef) :
    (h.push d).2.Trusted answers := by
  constructor
  · intro a b answer found
    rw [below_push sealed (trusted.known a b answer found)]
    exact trusted.truthful a b answer found
  · intro a b answer found
    exact has_push d (trusted.known a b answer found)

def KeepsTrust {α : Type} (h : TypeHierarchy) (question : SubtypeQuestion α) : Prop :=
  ∀ answers, h.Trusted answers → h.Trusted (question answers).2

/-- A question that answers from what is to be trusted as it would without any memory. -/
structure Mirrors {α : Type} (h : TypeHierarchy) (question : SubtypeQuestion α) (plain : Except InternalError α) :
    Prop where
  keeps : h.KeepsTrust question
  answer : ∀ answers, h.Trusted answers → (question answers).1 = plain

section Questions
variable {α β : Type}

theorem mirrors_pure (a : α) : h.Mirrors (pure a) (pure a) := ⟨fun _ trusted => trusted, fun _ _ => rfl⟩

theorem mirrors_throw (e : InternalError) : h.Mirrors (throw e : SubtypeQuestion α) (throw e) :=
  ⟨fun _ trusted => trusted, fun _ _ => rfl⟩

theorem mirrors_of_except (x : Except InternalError α) :
    h.Mirrors (MonadExcept.ofExcept x) (MonadExcept.ofExcept x) := by
  cases x with
  | ok a => exact mirrors_pure a
  | error e => exact mirrors_throw e

theorem mirrors_bind {question : SubtypeQuestion α} {plain : Except InternalError α}
    {next : α → SubtypeQuestion β} {plainNext : α → Except InternalError β} (first : h.Mirrors question plain)
    (second : ∀ a, h.Mirrors (next a) (plainNext a)) : h.Mirrors (question >>= next) (plain >>= plainNext) := by
  have both : ∀ answers, h.Trusted answers →
      h.Trusted ((question >>= next) answers).2 ∧ ((question >>= next) answers).1 = plain >>= plainNext := by
    intro answers trusted
    have middle := first.keeps answers trusted
    rw [← first.answer answers trusted, run_bind]
    rcases ran : question answers with ⟨result, after⟩
    rw [ran] at middle
    cases result with
    | ok a => exact ⟨(second a).keeps after middle, (second a).answer after middle⟩
    | error e => exact ⟨middle, rfl⟩
  exact ⟨fun answers trusted => (both answers trusted).1, fun answers trusted => (both answers trusted).2⟩

theorem mirrors_map {work : α → SubtypeQuestion β} {plain : α → Except InternalError β} (xs : List α)
    (each : ∀ x ∈ xs, h.Mirrors (work x) (plain x)) : h.Mirrors (xs.mapM work) (xs.mapM plain) := by
  induction xs with
  | nil => exact mirrors_pure []
  | cons x xs ih =>
    rw [List.mapM_cons, List.mapM_cons]
    refine mirrors_bind (each x (List.mem_cons_self ..)) (fun y => ?_)
    refine mirrors_bind (ih (fun z member => each z (List.mem_cons_of_mem _ member))) (fun ys => ?_)
    exact mirrors_pure _

theorem mirrors_filter {test : α → SubtypeQuestion Bool} {plain : α → Except InternalError Bool} (xs : List α)
    (each : ∀ x ∈ xs, h.Mirrors (test x) (plain x)) : h.Mirrors (xs.filterM test) (xs.filterM plain) := by
  have loop : ∀ kept, h.Mirrors (List.filterAuxM test xs kept) (List.filterAuxM plain xs kept) := by
    induction xs with
    | nil => exact fun kept => mirrors_pure kept
    | cons x xs ih =>
      intro kept
      refine mirrors_bind (each x (List.mem_cons_self ..)) (fun b => ?_)
      exact ih (fun z member => each z (List.mem_cons_of_mem _ member)) _
  exact mirrors_bind (loop []) (fun kept => mirrors_pure _)

theorem mirrors_fold {step : β → α → SubtypeQuestion β} {plain : β → α → Except InternalError β} (xs : List α)
    (each : ∀ b x, h.Mirrors (step b x) (plain b x)) (b : β) :
    h.Mirrors (xs.foldlM step b) (xs.foldlM plain b) := by
  induction xs generalizing b with
  | nil => exact mirrors_pure b
  | cons x xs ih =>
    rw [List.foldlM_cons, List.foldlM_cons]
    exact mirrors_bind (each b x) ih

end Questions

/-- A question that leaves behind what is to be trusted and, if it has an answer, answers rightly. -/
def Honest (h : TypeHierarchy) (question : SubtypeQuestion Bool) (fact : Prop) : Prop :=
  ∀ answers, h.Trusted answers → h.Trusted (question answers).2 ∧
    ∀ answer, (question answers).1 = .ok answer → (answer = true ↔ fact)

theorem honest_throw (e : InternalError) {fact : Prop} : h.Honest (throw e) fact := by
  intro answers trusted
  refine ⟨trusted, ?_⟩
  intro answer failed
  cases failed

theorem honest_any {question : TypeId → SubtypeQuestion Bool} {fact : TypeId → Prop} (types : List TypeId)
    (each : ∀ s ∈ types, h.Honest (question s) (fact s)) :
    h.Honest (types.anyM question) (∃ s ∈ types, fact s) := by
  induction types with
  | nil =>
    intro answers trusted
    refine ⟨trusted, ?_⟩
    rintro answer ⟨⟩
    simp
  | cons s rest ih =>
    intro answers trusted
    obtain ⟨still, meaning⟩ := each s (List.mem_cons_self ..) answers trusted
    rcases ran : question s answers with ⟨first, middle⟩
    rw [ran] at still meaning
    rw [List.anyM, run_bind, ran]
    cases first with
    | error e =>
      refine ⟨still, ?_⟩
      intro answer failed
      cases failed
    | ok first =>
      have meaning := meaning first rfl
      cases first with
      | true =>
        refine ⟨still, ?_⟩
        rintro answer ⟨⟩
        simpa using .inl (meaning.mp rfl)
      | false =>
        have not_first : ¬ fact s := fun holds => by simpa using meaning.mpr holds
        obtain ⟨still, meaning⟩ := ih (fun t member => each t (List.mem_cons_of_mem _ member)) middle still
        exact ⟨still, fun answer ran => by simpa [not_first] using meaning answer ran⟩

variable {a : TypeId}

theorem trusted_insert {b : TypeId} {answer : Bool} (trusted : h.Trusted answers)
    (there : h.Has a) (new : answer = true ↔ h.Below a b) : h.Trusted (answers.insert (a, b) answer) := by
  constructor
  · exact truthful_insert trusted.truthful new
  · intro c d other found
    rw [Table.find_insert] at found
    split at found
    · rename_i same
      cases same
      exact there
    · exact trusted.known c d other found

theorem honest_unless_known {target : TypeId} {rest : SubtypeQuestion Bool}
    (honest : a ≠ target → h.Honest rest (h.Below a target)) :
    h.Honest (if a = target then pure true else do
      match (← get).find? (a, target) with
      | some answer => pure answer
      | none => rest) (h.Below a target) := by
  intro answers trusted
  by_cases same : a = target
  · rw [if_pos same]
    refine ⟨trusted, ?_⟩
    rintro answer ⟨⟩
    simpa [same] using below_refl target
  · rw [if_neg same, run_bind_ok (run_get answers)]
    cases remembered : answers.find? (a, target) with
    | none => exact honest same answers trusted
    | some answer =>
      refine ⟨trusted, ?_⟩
      rintro _ ⟨⟩
      exact trusted.truthful a target answer remembered

/-- Only a type that is there has an answer written down for it, so the walk is honest from any start. -/
theorem reaches_honest (target : TypeId) (bound : Nat) (visiting : List TypeId) (a : TypeId) :
    h.Honest (h.reaches target bound visiting a) (h.Below a target) := by
  induction bound generalizing visiting a with
  | zero =>
    rw [reaches]
    refine honest_unless_known (fun _ => ?_)
    split
    · exact honest_throw _
    · exact honest_throw _
  | succ bound ih =>
    rw [reaches]
    refine honest_unless_known (fun different => ?_)
    split
    · exact honest_throw _
    cases found : h.get? a with
    | none =>
      rw [require, found]
      exact honest_throw _
    | some d =>
      intro answers trusted
      have there : h.Has a := get_some_iff_has.mp ⟨d, found⟩
      obtain ⟨still, meaning⟩ := honest_any d.supertypes (fun s _ => ih (a :: visiting) s) answers trusted
      rw [require, found, run_bind_ok (run_lift answers (.ok d)), run_bind]
      rcases ran : d.supertypes.anyM (h.reaches target bound (a :: visiting)) answers with ⟨result, after⟩
      rw [ran] at still meaning
      cases result with
      | error e =>
        refine ⟨still, ?_⟩
        intro answer failed
        cases failed
      | ok answer =>
        have right := (meaning answer rfl).trans (below_of_supertypes found different)
        refine ⟨trusted_insert still there right, ?_⟩
        rintro _ ⟨⟩
        exact right

theorem ask_subtype_keeps (a b : TypeId) : h.KeepsTrust (h.askSubtype a b) :=
  fun answers trusted => (reaches_honest b _ [] a answers trusted).1

theorem reaches_missing {target : TypeId} (bound : Nat) (missing : ¬ h.Has a)
    (trusted : h.Trusted answers) :
    (h.reaches target (bound + 1) [] a answers).1
      = if a = target then .ok true else .error (.danglingId "type" a.index) := by
  rw [reaches]
  by_cases same : a = target
  · rw [if_pos same, if_pos same]
    rfl
  · rw [if_neg same, if_neg same, run_bind_ok (run_get answers)]
    have unknown : answers.find? (a, target) = none := by
      by_contra some_answer
      obtain ⟨answer, found⟩ := Option.ne_none_iff_exists'.mp some_answer
      exact missing (trusted.known a target answer found)
    have absent : h.get? a = none := by
      by_contra some_type
      exact missing (get_some_iff_has.mp (Option.ne_none_iff_exists'.mp some_type))
    rw [unknown, require, absent]
    rfl

theorem ask_subtype_mirrors (sealed : h.Sealed) (a b : TypeId) : h.Mirrors (h.askSubtype a b) (h.isSubtype a b) := by
  refine ⟨ask_subtype_keeps a b, fun answers trusted => ?_⟩
  by_cases there : h.Has a
  · obtain ⟨answer, after, ran, _, meaning⟩ := ask_subtype_answers sealed there b answers trusted.truthful
    obtain ⟨plain, asked, meaning'⟩ := is_subtype_iff_below sealed there b
    have same : answer = plain := Bool.eq_iff_iff.mpr (meaning.trans meaning'.symm)
    rw [ran, asked, same]
  · rw [isSubtype, askSubtype, reaches_missing h.size there trusted, reaches_missing h.size there trusted_empty]

section Measure
variable {below : TypeId → TypeId → SubtypeQuestion Bool} {plain : TypeId → TypeId → Except InternalError Bool}
  (test : ∀ a b, h.Mirrors (below a b) (plain a b))
include test

theorem nearer_mirrors {measure : TypeId → SubtypeQuestion Nat} {plainMeasure : TypeId → Except InternalError Nat}
    (measures : ∀ s, h.Mirrors (measure s) (plainMeasure s)) (target : TypeId) (shortest : Option Nat) (s : TypeId) :
    h.Mirrors (nearerUsing below measure target shortest s) (nearerUsing plain plainMeasure target shortest s) := by
  refine mirrors_bind (test s target) (fun upward => ?_)
  split
  · exact mirrors_bind (measures s) (fun distance => mirrors_pure _)
  · exact mirrors_pure _

theorem measure_mirrors (target : TypeId) (bound : Nat) (a : TypeId) :
    h.Mirrors (h.measureUsing below target bound a) (h.measureUsing plain target bound a) := by
  induction bound generalizing a with
  | zero =>
    rw [measureUsing, measureUsing]
    split
    · exact mirrors_pure 0
    · refine mirrors_bind (test a target) (fun answer => ?_)
      split
      · exact mirrors_throw _
      · exact mirrors_throw _
  | succ bound ih =>
    rw [measureUsing, measureUsing]
    split
    · exact mirrors_pure 0
    · refine mirrors_bind (test a target) (fun answer => ?_)
      split
      · refine mirrors_bind (mirrors_of_except _) (fun d => ?_)
        refine mirrors_bind (mirrors_fold d.supertypes (nearer_mirrors test ih target) none) (fun shortest => ?_)
        cases shortest with
        | some distance => exact mirrors_pure _
        | none => exact mirrors_throw _
      · exact mirrors_throw _

theorem levels_mirrors (target : TypeId) (bound : Nat) (level : List TypeId) :
    h.Mirrors (h.levelsUsing below target bound level) (h.levelsUsing plain target bound level) := by
  induction bound generalizing level with
  | zero =>
    rw [levelsUsing, levelsUsing]
    split
    · exact mirrors_pure 0
    · exact mirrors_throw _
  | succ bound ih =>
    rw [levelsUsing, levelsUsing]
    split
    · exact mirrors_pure 0
    · refine mirrors_bind (mirrors_map _ (fun a _ => mirrors_of_except _)) (fun defs => ?_)
      refine mirrors_bind (mirrors_filter _ (fun s _ => test s target)) (fun next => ?_)
      exact mirrors_bind (ih next) (fun more => mirrors_pure _)

theorem distance_mirrors (a b : TypeId) : h.Mirrors (h.distanceUsing below a b) (h.distanceUsing plain a b) := by
  unfold distanceUsing
  split
  · exact mirrors_pure 0
  · refine mirrors_bind (test a b) (fun answer => ?_)
    split
    · exact levels_mirrors test b _ [a]
    · exact mirrors_throw _

theorem climb_mirrors (bound : Nat) (pivot other : TypeId) (swapped : Bool) :
    h.Mirrors (h.climbUsing below bound pivot other swapped) (h.climbUsing plain bound pivot other swapped) := by
  induction bound generalizing pivot other swapped with
  | zero =>
    rw [climbUsing, climbUsing]
    refine mirrors_bind (test other pivot) (fun answer => ?_)
    split
    · exact mirrors_pure _
    · exact mirrors_throw _
  | succ bound ih =>
    rw [climbUsing, climbUsing]
    refine mirrors_bind (test other pivot) (fun answer => ?_)
    split
    · exact mirrors_pure _
    · refine mirrors_bind (mirrors_of_except _) (fun d => ?_)
      split
      · exact mirrors_pure _
      · exact ih _ _ _
      · split
        · exact mirrors_pure _
        · exact ih _ _ _

theorem climb_all_mirrors (pivot : TypeId) (others : List TypeId) :
    h.Mirrors (h.climbAllUsing below pivot others) (h.climbAllUsing plain pivot others) := by
  induction others generalizing pivot with
  | nil => exact mirrors_pure pivot
  | cons other rest ih =>
    rw [climbAllUsing, climbAllUsing]
    refine mirrors_bind (climb_mirrors test _ pivot other false) (fun found => ?_)
    cases found with
    | some next => exact ih next
    | none => exact mirrors_pure _

theorem common_ancestor_mirrors (types : List TypeId) :
    h.Mirrors (h.commonAncestorUsing below types) (h.commonAncestorUsing plain types) := by
  cases types with
  | nil => exact mirrors_throw _
  | cons first rest => exact climb_all_mirrors test first rest

theorem add_supertype_mirrors (type supertype : TypeId) :
    h.Mirrors (h.addSupertypeUsing below type supertype) (h.addSupertypeUsing plain type supertype) := by
  refine mirrors_bind (mirrors_of_except _) (fun _ => ?_)
  refine mirrors_bind (mirrors_of_except _) (fun _ => ?_)
  refine mirrors_bind (test supertype type) (fun answer => ?_)
  split
  · exact mirrors_pure _
  · exact mirrors_pure _

end Measure

theorem required_has {d : TypeDef} {after : SubtypeAnswers}
    (ran : (MonadExcept.ofExcept (h.require a) : SubtypeQuestion TypeDef) answers = (.ok d, after)) :
    h.Has a ∧ after = answers := by
  cases found : h.get? a with
  | none =>
    rw [require, found] at ran
    cases ran
  | some e =>
    rw [require, found] at ran
    cases ran
    exact ⟨get_some_iff_has.mp ⟨d, found⟩, rfl⟩

theorem add_supertype_accepted {type supertype : TypeId} {after : SubtypeAnswers} {types : TypeHierarchy}
    (trusted : h.Trusted answers)
    (ran : h.addSupertypeUsing h.askSubtype type supertype answers = (.ok (some types), after)) :
    h.Has type ∧ h.Has supertype ∧ ¬ h.Below supertype type ∧ types = h.attach type supertype := by
  obtain ⟨d, first, required, ran⟩ := bind_ok_split ran
  obtain ⟨lower, same⟩ := required_has required
  subst first
  obtain ⟨e, second, required, ran⟩ := bind_ok_split ran
  obtain ⟨upper, same⟩ := required_has required
  subst second
  obtain ⟨answer, third, asked, ran⟩ := bind_ok_split ran
  have meaning := (reaches_honest type (h.size + 1) [] supertype answers trusted).2 answer (by
    rw [← askSubtype, asked])
  cases answer with
  | true => cases ran
  | false =>
    cases ran
    exact ⟨lower, upper, fun below => by simpa using meaning.mpr below, rfl⟩

end TypeHierarchy

namespace RememberingHierarchy
open TypeHierarchy

inductive Call where
  | register (d : TypeDef)
  | declare (name : QualifiedName)
  | addSupertype (type supertype : TypeId)
  | isSubtype (a b : TypeId)
  | measure (a b : TypeId)
  | distance (a b : TypeId)
  | commonAncestor (types : List TypeId)

def after (r : RememberingHierarchy) : Call → RememberingHierarchy
  | .register d => (r.register d).2
  | .declare name => (r.declare name).2
  | .addSupertype type supertype => (r.addSupertype type supertype).2
  | .isSubtype a b => (r.isSubtype a b).2
  | .measure a b => (r.measure a b).2
  | .distance a b => (r.distance a b).2
  | .commonAncestor types => (r.commonAncestor types).2

/-- The hierarchies that calls lead to, from an empty one or from the built-in types. -/
inductive Reached : RememberingHierarchy → Prop
  | empty : Reached {}
  | builtins : Reached { types := .builtins }
  | next {r : RememberingHierarchy} (before : Reached r) (call : Call) : Reached (r.after call)

structure Coherent (r : RememberingHierarchy) : Prop where
  sealed : r.types.Sealed
  trusted : r.types.Trusted r.answers

theorem ask_eq {α : Type} (r : RememberingHierarchy) (question : TypeHierarchy → SubtypeQuestion α) :
    r.ask question = ((question r.types r.answers).1, { r with answers := (question r.types r.answers).2 }) := rfl

theorem ask_coherent {α : Type} {r : RememberingHierarchy} (coherent : r.Coherent)
    {question : TypeHierarchy → SubtypeQuestion α} (keeps : r.types.KeepsTrust (question r.types)) :
    (r.ask question).2.Coherent :=
  ⟨coherent.sealed, keeps r.answers coherent.trusted⟩

/-- What a call to add a supertype does: it forgets all answers with the edge it accepts, and else is a question. -/
theorem add_supertype_cases {r : RememberingHierarchy} (coherent : r.Coherent) (type supertype : TypeId) :
    (r.types.Has type ∧ r.types.Has supertype ∧ ¬ r.types.Below supertype type ∧
        r.addSupertype type supertype = (.ok true, { types := r.types.attach type supertype })) ∨
      ((r.addSupertype type supertype).1 ≠ .ok true ∧
        (r.addSupertype type supertype).2.types = r.types ∧ (r.addSupertype type supertype).2.Coherent) := by
  have still := (add_supertype_mirrors (ask_subtype_mirrors coherent.sealed) type supertype).keeps r.answers
    coherent.trusted
  unfold addSupertype
  rw [ask_eq]
  rcases ran : r.types.addSupertypeUsing r.types.askSubtype type supertype r.answers with ⟨result, after⟩
  rw [ran] at still
  match result with
  | .error e => exact .inr ⟨nofun, rfl, coherent.sealed, still⟩
  | .ok none => exact .inr ⟨nofun, rfl, coherent.sealed, still⟩
  | .ok (some types) =>
    obtain ⟨lower, upper, acyclic, rfl⟩ := add_supertype_accepted coherent.trusted ran
    exact .inl ⟨lower, upper, acyclic, rfl⟩

theorem register_cases (r : RememberingHierarchy) (d : TypeDef) :
    ((∀ s ∈ d.supertypes, r.types.Has s) ∧ (r.register d).2 = { r with types := (r.types.push d).2 } ∧
        ∃ id, (r.register d).1 = .ok id) ∨
      ((∃ e, (r.register d).1 = .error e) ∧ (r.register d).2 = r) := by
  unfold register
  cases added : r.types.register d with
  | error e => exact .inr ⟨⟨e, rfl⟩, rfl⟩
  | ok pair =>
    obtain ⟨id, types⟩ := pair
    obtain ⟨there, rfl⟩ := register_ok added
    exact .inl ⟨there, rfl, id, rfl⟩

theorem after_coherent {r : RememberingHierarchy} (coherent : r.Coherent) (call : Call) : (r.after call).Coherent := by
  cases call with
  | register d =>
    rcases register_cases r d with ⟨there, grown, _⟩ | ⟨_, same⟩
    · rw [after, grown]
      exact ⟨push_sealed coherent.sealed there, trusted_push coherent.sealed coherent.trusted d⟩
    · rw [after, same]
      exact coherent
  | declare name => exact ⟨declare_sealed coherent.sealed name, trusted_push coherent.sealed coherent.trusted _⟩
  | addSupertype type supertype =>
    rcases add_supertype_cases coherent type supertype with ⟨lower, upper, acyclic, grown⟩ | ⟨_, _, still⟩
    · rw [after, grown]
      exact ⟨attach_sealed coherent.sealed lower upper acyclic, trusted_empty⟩
    · exact still
  | isSubtype a b => exact ask_coherent coherent (ask_subtype_keeps a b)
  | measure a b =>
    exact ask_coherent coherent (measure_mirrors (ask_subtype_mirrors coherent.sealed) b _ a).keeps
  | distance a b => exact ask_coherent coherent (distance_mirrors (ask_subtype_mirrors coherent.sealed) a b).keeps
  | commonAncestor types =>
    exact ask_coherent coherent (common_ancestor_mirrors (ask_subtype_mirrors coherent.sealed) types).keeps

theorem reached_coherent {r : RememberingHierarchy} (reached : Reached r) : r.Coherent := by
  induction reached with
  | empty =>
    refine ⟨⟨?_, ?_⟩, trusted_empty⟩
    · rintro a b ⟨d, found, _⟩
      cases found
    · intro a cycle
      obtain ⟨s, ⟨d, found, _⟩, _⟩ := TransGen.head'_iff.mp cycle
      cases found
  | builtins => exact ⟨builtins_sealed, trusted_empty⟩
  | next _ call coherent => exact after_coherent coherent call

variable {r : RememberingHierarchy}

theorem is_subtype_answered (coherent : r.Coherent) {a : TypeId} (there : r.types.Has a) (b : TypeId) :
    ∃ answer, (r.isSubtype a b).1 = .ok answer ∧ (answer = true ↔ r.types.Below a b) := by
  obtain ⟨answer, after, ran, _, meaning⟩ :=
    ask_subtype_answers coherent.sealed there b r.answers coherent.trusted.truthful
  exact ⟨answer, by rw [isSubtype, ask_eq, ran], meaning⟩

theorem is_subtype_true_iff (coherent : r.Coherent) (a b : TypeId) :
    (r.isSubtype a b).1 = .ok true ↔ r.types.Below a b := by
  constructor
  · intro yes
    exact ((reaches_honest b _ [] a r.answers coherent.trusted).2 true yes).mp rfl
  · intro below
    by_cases there : r.types.Has a
    · obtain ⟨answer, given, meaning⟩ := is_subtype_answered coherent there b
      rw [given, meaning.mpr below]
    · rcases below.cases_head with rfl | ⟨s, ⟨d, found, _⟩, _⟩
      · rw [isSubtype, ask_eq, askSubtype, reaches.eq_def, if_pos rfl]
        rfl
      · exact absurd (get_some_iff_has.mp ⟨d, found⟩) there

theorem is_assignable_true_iff (coherent : r.Coherent) (value slot : TypeRef) :
    (r.isAssignable value slot).1 = .ok true ↔ r.types.Accepts slot value := by
  unfold isAssignable Accepts
  split
  · rename_i refused
    constructor
    · intro yes
      cases yes
    · rintro ⟨nullable, _⟩
      simp_all
  · rename_i allowed
    have nullable : value.nullable = true → slot.nullable = true := by simpa using allowed
    rw [is_subtype_true_iff coherent, and_iff_right nullable]

theorem measure_unremembered (coherent : r.Coherent) (a b : TypeId) : (r.measure a b).1 = r.types.measure a b :=
  (measure_mirrors (ask_subtype_mirrors coherent.sealed) b (r.types.size + 1) a).answer r.answers coherent.trusted

theorem distance_unremembered (coherent : r.Coherent) (a b : TypeId) : (r.distance a b).1 = r.types.distance a b :=
  (distance_mirrors (ask_subtype_mirrors coherent.sealed) a b).answer r.answers coherent.trusted

theorem common_ancestor_unremembered (coherent : r.Coherent) (types : List TypeId) :
    (r.commonAncestor types).1 = r.types.commonAncestor types :=
  (common_ancestor_mirrors (ask_subtype_mirrors coherent.sealed) types).answer r.answers coherent.trusted

theorem unaccepted_supertype_changes_nothing (coherent : r.Coherent) {type supertype : TypeId}
    (unaccepted : (r.addSupertype type supertype).1 ≠ .ok true) :
    (r.addSupertype type supertype).2.types = r.types := by
  rcases add_supertype_cases coherent type supertype with ⟨_, _, _, grown⟩ | ⟨_, same, _⟩
  · exact absurd (congrArg Prod.fst grown) unaccepted
  · exact same

theorem failed_register_changes_nothing {d : TypeDef} {e : InternalError} (failed : (r.register d).1 = .error e) :
    (r.register d).2 = r := by
  rcases register_cases r d with ⟨_, _, id, added⟩ | ⟨_, same⟩
  · cases failed.symm.trans added
  · exact same

/-- After any calls, subtypes are what the supertype edges lead to, which is an order; what was remembered on the way
plays no part. Edges lead to types that are there and never back, and a call that fails or is refused adds none. -/
theorem subtyping_is_reachability (reached : Reached r) :
    (∀ a b, r.types.Edge a b → r.types.Has b) ∧
    (∀ a, ¬ TransGen r.types.Edge a a) ∧
    (∀ d e, (r.register d).1 = .error e → (r.register d).2.types = r.types) ∧
    (∀ a b, (r.addSupertype a b).1 ≠ .ok true → (r.addSupertype a b).2.types = r.types) ∧
    (∀ a b, r.types.Has a →
      ((r.isSubtype a b).1 = .ok true ↔ ReflTransGen r.types.Edge a b) ∧
      ((r.isSubtype a b).1 = .ok false ↔ ¬ ReflTransGen r.types.Edge a b)) ∧
    ((∀ a, (r.isSubtype a a).1 = .ok true) ∧
      (∀ a b, (r.isSubtype a b).1 = .ok true → (r.isSubtype b a).1 = .ok true → a = b) ∧
      (∀ a b c, (r.isSubtype a b).1 = .ok true → (r.isSubtype b c).1 = .ok true → (r.isSubtype a c).1 = .ok true)) ∧
    ((∀ t, (r.isAssignable t t).1 = .ok true) ∧
      (∀ t u v, (r.isAssignable t u).1 = .ok true → (r.isAssignable u v).1 = .ok true →
        (r.isAssignable t v).1 = .ok true)) := by
  have coherent := reached_coherent reached
  simp only [is_subtype_true_iff coherent, is_assignable_true_iff coherent]
  refine ⟨fun a b edge => coherent.sealed.closed edge, coherent.sealed.acyclic, ?_, ?_, ?_, ⟨?_, ?_, ?_⟩, ?_, ?_⟩
  · intro d e failed
    rw [failed_register_changes_nothing failed]
  · intro a b unaccepted
    exact unaccepted_supertype_changes_nothing coherent unaccepted
  · intro a b there
    obtain ⟨answer, given, meaning⟩ := is_subtype_answered coherent there b
    refine ⟨Iff.rfl, ?_⟩
    rw [given, ← Below, ← meaning, Except.ok.injEq, Bool.not_eq_true]
  · exact fun a => below_refl a
  · exact fun a b up down => below_antisymm coherent.sealed up down
  · exact fun a b c low high => low.trans high
  · exact fun t => ⟨id, below_refl t.base⟩
  · exact fun t u v low high => ⟨fun null => high.1 (low.1 null), low.2.trans high.2⟩

theorem later_edge_turns_the_answer :
    ∃ r, Reached r ∧ (r.isSubtype ⟨6⟩ ⟨7⟩).1 = .ok false ∧
      ReflTransGen (r.after (.addSupertype ⟨6⟩ ⟨7⟩)).types.Edge ⟨6⟩ ⟨7⟩ ∧
      ¬ ReflTransGen (r.after (.addSupertype ⟨6⟩ ⟨7⟩)).types.Edge ⟨7⟩ ⟨6⟩ := by
  have asked : Reached (((({ types := .builtins } : RememberingHierarchy).after (.declare (.root "Dog"))).after
      (.declare (.root "Animal"))).after (.isSubtype ⟨6⟩ ⟨7⟩)) :=
    .next (.next (.next .builtins _) _) _
  have up := (subtyping_is_reachability (.next asked (.addSupertype ⟨6⟩ ⟨7⟩))).2.2.2.2.1
  refine ⟨_, asked, by decide +kernel, ?_, ?_⟩
  · exact (up ⟨6⟩ ⟨7⟩ (by unfold Has; decide +kernel)).1.mp (by decide +kernel)
  · exact (up ⟨7⟩ ⟨6⟩ (by unfold Has; decide +kernel)).2.mp (by decide +kernel)

end RememberingHierarchy

end SemanticAnalysis
