import Mathlib.Order.WellFounded
import SemanticAnalysis.Proofs.Compilation.Warnings
import SemanticAnalysis.Proofs.Effects.Walk
/-!
Functions on a circle of calls. The last phase sums up the functions that claim something, in the order of the text, and
whatever they call. Of the functions on a circle the one that is entered first is still unfinished when the walk comes
round to it. So the call that is found to be recursive is the one that closes the circle, and it is listed with the
function that makes it. A function is warned of if it closes a circle in this way, and not if it merely lies on one.
-/
namespace SemanticAnalysis
open Running Analysis Diagnostics SemanticAnalysis.Bound Program

namespace Program

def claimant? (p : Program) (access : Access) : Declaration → Option FunctionId
  | .function g =>
    if p.functions[g.index]?.any (fun f => f.body.isSome && claimsNone access f.modifiers) then some g else none
  | .variable _ => none
  | .struct _ => none

def enter (p : Program) (links : Links) (access : Access) (order : List FunctionId) (d : Declaration) :
    List FunctionId :=
  (p.claimant? access d).elim order (p.explore links access (p.functions.size + 1) order)

/-- The functions that the last phase sums up, in the order in which they are entered. -/
def entering (p : Program) (links : Links) (access : Access) : List FunctionId :=
  p.declarations.foldl (p.enter links access) []

variable {p : Program} {links : Links} {access : Access} {order : List FunctionId}

theorem enter_extends (d : Declaration) : order <+: p.enter links access order d := by
  unfold enter
  cases p.claimant? access d with
  | none => exact List.prefix_refl _
  | some g => exact explore_extends _ order g

theorem enter_all_extends (ds : List Declaration) : order <+: ds.foldl (p.enter links access) order := by
  induction ds generalizing order with
  | nil => exact List.prefix_refl _
  | cons d rest ih => exact (enter_extends d).trans ih

theorem mem_enter_all {ds : List Declaration} {d : Declaration} (member : d ∈ ds) {g : FunctionId}
    (claims : p.claimant? access d = some g) : g ∈ ds.foldl (p.enter links access) order := by
  induction ds generalizing order with
  | nil => cases member
  | cons first rest ih =>
    rcases List.mem_cons.mp member with rfl | later
    · have entered : g ∈ p.enter links access order d := by
        rw [enter, claims]
        exact mem_explore _ order g
      exact (enter_all_extends rest).subset entered
    · exact ih later

/-- A function closes a circle of calls if it calls one that leads to it by functions that are entered no earlier. -/
def ClosesCircle (p : Program) (links : Links) (access : Access) (g : FunctionId) : Prop :=
  ∃ h, p.Calls links access g h ∧ p.LeadsTo links access (p.entering links access) h g

end Program

/-- Between two declarations in the last phase. The reads and the writes are walks of their own. -/
def Facts.Between (p : Program) (links : Links) (order : Access → List FunctionId) (facts : Facts) : Prop :=
  ∀ access, Facts.Walking p links access (fun _ => True) [] (order access) facts

variable {p : Program} {links : Links} {order : Access → List FunctionId} {facts after : Facts} {g : FunctionId}
  {f : Function} {found : List Diagnostic}

theorem walking_other {access other : Access} (apart : other ≠ access) {seen : List FunctionId} (h : FunctionId)
    (m : Memo EffectSummary) (facts : Facts) (walking : Facts.Walking p links other (fun _ => True) [] seen facts) :
    Facts.Walking p links other (fun _ => True) [] seen ((Facts.summaryCell access h).write m facts) := by
  have same (i : FunctionId) : ((Facts.summaryCell access h).write m facts).summaries.state (other, i)
      = facts.summaries.state (other, i) := by
    change Cells.state (facts.summaries.insert (access, h) m) (other, i) = _
    rw [Cells.state_insert, if_neg (fun equal => apart (Prod.mk.inj equal).1)]
  obtain ⟨settled, ⟨entered, calls, finished, recursive⟩, running, _⟩ := walking
  refine ⟨(settled_groundwork p links).cells _ _ _ _ settled, ⟨?_, ?_, ?_, ?_⟩, ?_, trivial⟩
  all_goals simpa only [same]

theorem between_validation (d : Declaration) (m : Memo (List Diagnostic)) (facts : Facts)
    (between : facts.Between p links order) :
    ((Facts.phaseCell d .validation).write m facts).Between p links order := by
  intro access
  obtain ⟨settled, ⟨entered, calls, finished, recursive⟩, running, _⟩ := between access
  exact ⟨(settled_groundwork p links).validations d m facts settled, ⟨entered, calls, finished, recursive⟩, running,
    trivial⟩

section Phase
variable (consistent : p.Consistent)
include consistent

theorem violation_walks (here : p.functions[g.index]? = some f) (written : f.body ≠ none) {access : Access}
    {answer : Option Program.Violation} (before : facts.Between p links order)
    (ran : p.violation? access f facts = (.ok answer, after)) :
    after.Between p links (Function.update order access (p.enter links access (order access) (.function g))) := by
  have claimant : p.claimant? access (.function g)
      = if Program.claimsNone access f.modifiers then some g else none := by
    simp [Program.claimant?, here, Option.isSome_iff_ne_none.mpr written]
  unfold Program.violation? at ran
  unfold Program.enter
  rw [claimant]
  split at ran
  · rename_i claimed
    rw [if_pos claimed, Option.elim_some]
    rw [consistent.functionIds _ _ here] at ran
    obtain ⟨summary, middle, asked, rest⟩ := bind_ok_split ran
    have same : after = middle := by
      split at rest
      · cases rest
        rfl
      · split at rest
        · cases rest
          rfl
        · cases rest
          rfl
    subst same
    intro other
    by_cases own : other = access
    · subst own
      rw [Function.update_self]
      exact summary_walks consistent (fun _ _ _ _ => trivial) (before other) asked
    · rw [Function.update_of_ne own]
      let R : Facts → Prop := Facts.Walking p links other (fun _ => True) [] (order other)
      obtain ⟨settled, walked, running, _⟩ := before access
      exact (summary_walks consistent (R := R) (walking_other own) ⟨settled, walked, running, before other⟩ asked).rest
  · rename_i unclaimed
    cases ran
    rw [if_neg unclaimed, Option.elim_none, Function.update_eq_self]
    exact before

theorem claims_walk (here : p.functions[g.index]? = some f) (written : f.body ≠ none)
    (before : facts.Between p links order) (ran : p.validateClaims f facts = (.ok found, after)) :
    after.Between p links (fun access => p.enter links access (order access) (.function g)) := by
  obtain ⟨reads, middle, first, rest⟩ := bind_ok_split ran
  obtain ⟨writes, last, second, rest⟩ := bind_ok_split rest
  obtain ⟨warnings, _, ended⟩ := look_up_split rest
  cases ended
  have both := violation_walks consistent here written (violation_walks consistent here written before first) second
  intro access
  cases access with
  | read => simpa [Function.update] using both .read
  | write => simpa [Function.update] using both .write

theorem validation_walks {d : Declaration} (resting : facts.Validating p (fun _ => True))
    (before : facts.Between p links order) (ran : p.runPhase d .validation facts = (.ok found, after)) :
    after.Between p links (fun access => p.enter links access (order access) d) := by
  have plain {e : Declaration} : Maintains (Facts.Between p links order) (once e .validation (pure [])) :=
    maintains_once (between_validation e) (maintains_pure [])
  cases d with
  | function g =>
    obtain ⟨f, at_, rest⟩ := look_up_split ran
    have here := function_at_ok_iff.mp at_
    by_cases bodyless : f.body = none
    · have idle : (fun access => p.enter links access (order access) (.function g)) = order := by
        funext access
        simp [Program.enter, Program.claimant?, here, bodyless]
      rw [idle]
      unfold Program.validateBody at rest
      rw [bodyless] at rest
      exact (plain _ before found after rest).1
    · rcases once_cases rest with ⟨known, rfl⟩ | ⟨running, _⟩ | ⟨_, inside, work, rfl⟩
      · -- what has been checked would be checked again without a change
        obtain ⟨_, f', here', checked⟩ := resting.vouched _ _ known
        rw [here] at here'
        cases here'
        rw [if_neg bodyless] at checked
        exact claims_walk consistent here bodyless before (checked _ (fun _ _ known => known))
      · exact absurd running (resting.idle _)
      · obtain ⟨body, written⟩ := Option.ne_none_iff_exists'.mp bodyless
        unfold Program.validateBody at work
        rw [written] at work
        obtain ⟨ofBody, marked, steps, rest⟩ := bind_ok_split work
        obtain ⟨ofClaims, last, checked, ended⟩ := bind_ok_split rest
        cases ended
        rw [Block.validate_collect] at steps
        have entered := between_validation (.function g) .inProgress facts before
        have middle := (validate_steps_maintain between_validation _ _ entered ofBody marked steps).1
        exact between_validation _ _ _ (claims_walk consistent here bodyless middle checked)
  | _ =>
    obtain ⟨_, _, rest⟩ := look_up_split ran
    exact (plain _ before found after rest).1

theorem validations_walk {ds : List Declaration} (resting : facts.Validating p (fun _ => True))
    (before : facts.Between p links order) (ran : p.runPhaseAll .validation ds facts = (.ok found, after)) :
    after.Between p links (fun access => ds.foldl (p.enter links access) (order access)) := by
  induction ds generalizing facts found order with
  | nil =>
    cases ran
    exact before
  | cons d rest ih =>
    obtain ⟨first, middle, step, others⟩ := bind_ok_split ran
    obtain ⟨more, last, later, ended⟩ := bind_ok_split others
    cases ended
    have resting' := (validation_validates (claims_quiet consistent) consistent d facts resting first middle step).1
    exact ih resting' (validation_walks consistent resting before step) later

end Phase

theorem ready_between (ready : facts.Ready p) : facts.Between p facts.links (fun _ => []) := by
  have unknown (k : Access × FunctionId) : facts.summaries.state k = .unknown := by
    rw [ready.faithful.summaries]
    rfl
  intro access
  refine ⟨⟨rfl, ready.done⟩, ⟨?_, ?_, ?_, ?_⟩, ?_, trivial⟩
  all_goals simp [unknown]

namespace Compilation
variable {options : Options} {modules : List Tree.Module} {c : Compilation}

theorem bind_walks (bound : bind options modules = .ok c) :
    c.facts.Between c.program c.facts.links (c.program.entering c.facts.links) := by
  obtain ⟨_, _, built, ran, _⟩ := bind_ok_parts bound
  obtain ⟨_, ds, lexical⟩ := construct_lexical built
  have consistent := construct_consistent built
  obtain ⟨_, _, _, typed, _, ran₁, ran₂, ran₃, _⟩ := analyse_phases ran
  have ready := early_phases_ready lexical ran₁ ran₂
  obtain ⟨_, _, _, idle⟩ := early_phases_settle lexical (nested_regime lexical) Facts.begun_empty ran₁ ran₂
  have untouched := early_phases_maintain (validations_robust c.program {}) (fun _ => rfl) ran₁ ran₂
  have resting : typed.Validating c.program (fun _ => True) := by
    refine ⟨trivial, idle, ?_, ?_⟩
    · intro k
      rw [ready.faithful.summaries]
      simp [Cells.state]
    · intro d found state
      rw [untouched] at state
      simp [Cells.state] at state
  have walks := validations_walk consistent resting (ready_between ready) ran₃
  have same : c.facts.links = typed.links := (walks .read).settled.tables
  rw [same]
  exact walks

def PledgesPurity (c : Compilation) (g : FunctionId) : Prop :=
  ∃ f, c.program.functions[g.index]? = some f ∧ f.body ≠ none ∧ f.modifiers.claimsPure = true

def CallsPledged (c : Compilation) (access : Access) (g h : FunctionId) : Prop :=
  c.program.Calls c.facts.links access g h ∧ c.PledgesPurity h

def Warned (c : Compilation) (g : FunctionId) : Prop :=
  ∃ d ∈ c.facts.report .validation (.function g), d.isRecursionWarning = true

theorem warned_iff {g : FunctionId} : c.Warned g ↔ c.recursionTold g ≠ [] := by
  unfold Warned recursionTold Diagnostics.recursion
  simp [List.filter_eq_nil_iff]

end Compilation

section Circles
variable {access : Access}

theorem recursion_ne_nil_iff {seen : List FunctionId} : p.recursion links access seen g ≠ [] ↔
    ∃ h, p.Calls links access g h ∧ p.LeadsTo links access seen h g := by
  unfold Program.recursion
  rw [ne_eq, List.filter_eq_nil_iff]
  constructor
  · intro found
    by_contra none
    refine found fun call member leads => none ⟨call.1, calls_iff.mpr ⟨call.2, member⟩, ?_⟩
    simpa using leads
  · rintro ⟨h, calls, leads⟩ none
    obtain ⟨span, member⟩ := calls_iff.mp calls
    exact none _ member (by simpa using leads)

theorem leads_to_reaches {seen : List FunctionId} {h : FunctionId} (leads : p.LeadsTo links access seen h g) :
    Relation.ReflTransGen (p.Calls links access) h g := Relation.ReflTransGen.mono (fun _ _ step => step.1) _ _ leads

theorem closes_circle_cycles (closes : p.ClosesCircle links access g) :
    Relation.TransGen (p.Calls links access) g g := by
  obtain ⟨h, calls, leads⟩ := closes
  exact Relation.TransGen.head' calls (leads_to_reaches leads)

theorem circle_through {step : FunctionId → FunctionId → Prop} {h : FunctionId} (circle : Relation.TransGen step g g)
    (there : Relation.ReflTransGen step g h) (back : Relation.ReflTransGen step h g) : Relation.TransGen step h h :=
  (Relation.TransGen.trans_right back circle).trans_left there

/-- On every circle there is a function that closes one: the one that calls the function entered first. -/
theorem circle_closed {step : FunctionId → FunctionId → Prop} (calls : ∀ a b, step a b → p.Calls links access a b)
    (circle : Relation.TransGen step g g) :
    ∃ h, Relation.ReflTransGen step g h ∧ Relation.ReflTransGen step h g ∧ p.ClosesCircle links access h := by
  let rank : FunctionId → Nat := (p.entering links access).idxOf
  let round : Set FunctionId := { h | Relation.ReflTransGen step g h ∧ Relation.ReflTransGen step h g }
  obtain ⟨first, ⟨there, back⟩, least⟩ := (measure rank).wf.has_min round ⟨g, .refl, .refl⟩
  obtain ⟨last, way, closing⟩ := Relation.TransGen.tail'_iff.mp (circle_through circle there back)
  -- all on the way from the first to the last lies on the circle, so it was entered no earlier
  have leads : ∀ {h}, Relation.ReflTransGen step first h → Relation.ReflTransGen step h g →
      p.LeadsTo links access (p.entering links access) first h := by
    intro h path
    induction path with
    | refl => exact fun _ => .refl
    | @tail a b earlier next ih =>
      intro home
      have early : rank first ≤ rank b := Nat.le_of_not_lt (least b ⟨(there.trans earlier).tail next, home⟩)
      exact (ih (.head next home)).tail ⟨calls a b next, early⟩
  have home : Relation.ReflTransGen step last g := .head closing back
  exact ⟨last, there.trans way, home, first, calls _ _ closing, leads way home⟩

end Circles

namespace Compilation
variable {options : Options} {modules : List Tree.Module} {c : Compilation}

theorem PledgesPurity.claims (pledges : c.PledgesPurity g) (access : Access) :
    ∃ f, c.program.functions[g.index]? = some f ∧ f.body ≠ none ∧ f.Claims access := by
  obtain ⟨f, here, written, pure⟩ := pledges
  refine ⟨f, here, written, ?_⟩
  cases access with
  | read => exact pure
  | write => exact .inl pure

theorem recursive_calls_walked (bound : bind options modules = .ok c) (pledges : c.PledgesPurity g) (access : Access) :
    c.recursiveCalls access g
      = c.program.recursion c.facts.links access (c.program.entering c.facts.links access) g := by
  obtain ⟨f, here, written, claims⟩ := pledges.claims access
  have claimant : c.program.claimant? access (.function g) = some g := by
    simp [Program.claimant?, here, Option.isSome_iff_ne_none.mpr written, (claims_none_iff access f).mpr claims]
  have walking := bind_walks bound access
  have entered : g ∈ c.program.entering c.facts.links access :=
    mem_enter_all (written_declared bound here written) claimant
  cases state : c.facts.summaries.state (access, g) with
  | unknown => exact absurd state ((walking.walked.entered g).mp entered)
  | inProgress => exact absurd ((walking.running g).mp state) List.not_mem_nil
  | computed s => rw [recursive_calls_known here state, walking.walked.recursive g s state]

theorem behind_ne_nil_iff : c.behind g ≠ [] ↔ ∃ access, c.told access g ≠ [] ∧ c.recursiveCalls access g ≠ [] := by
  have part (access : Access) : (if (c.told access g).isEmpty then [] else c.recursiveCalls access g) ≠ [] ↔
      c.told access g ≠ [] ∧ c.recursiveCalls access g ≠ [] := by
    cases c.told access g <;> simp
  rw [behind, List.flatMap_cons, List.flatMap_singleton, ne_eq, List.append_eq_nil_iff, not_and_or]
  constructor
  · rintro (reads | writes)
    · exact ⟨.read, (part .read).mp reads⟩
    · exact ⟨.write, (part .write).mp writes⟩
  · rintro ⟨access, some_call⟩
    cases access with
    | read => exact .inl ((part .read).mpr some_call)
    | write => exact .inr ((part .write).mpr some_call)

theorem recursion_told_ne_nil_iff (bound : bind options modules = .ok c) (warn : options.warnOnRecursivePurity = true)
    {f : Function} (here : c.program.functions[g.index]? = some f) (written : f.body ≠ none) :
    c.recursionTold g ≠ [] ↔ c.behind g ≠ [] := by
  have warns := warns_in_place bound warn here written
  rw [not_iff_not, ← List.length_eq_zero_iff, ← warns.warnings.length_eq, List.length_eq_zero_iff,
    List.eq_nil_iff_forall_not_mem, List.eq_nil_iff_forall_not_mem]
  exact forall_congr' fun call => not_congr in_place_member_iff

theorem warned_iff_closes (bound : bind options modules = .ok c) (warn : options.warnOnRecursivePurity = true)
    (pledges : c.PledgesPurity g) : c.Warned g ↔ ∃ access, c.program.ClosesCircle c.facts.links access g := by
  obtain ⟨f, here, written, _⟩ := pledges.claims .read
  rw [warned_iff, recursion_told_ne_nil_iff bound warn here written, behind_ne_nil_iff]
  refine exists_congr fun access => ?_
  rw [recursive_calls_walked bound pledges access, recursion_ne_nil_iff]
  refine and_iff_right_of_imp fun closes => ?_
  obtain ⟨f', here', written', claims⟩ := pledges.claims access
  rw [(function_judged bound (written_declared bound here' written') here' access).told_iff]
  exact ⟨written', claims, fun clean => clean_acyclic clean (closes_circle_cycles closes)⟩

end Compilation

open Compilation

/-- With the option on, a function that claims to be pure is warned of recursion if and only if it closes a circle of
calls: it calls the function of the circle that the last phase enters first. Every function that calls itself does so,
and on every circle of functions that claim to be pure there is one that does. -/
theorem recursion_is_warned_of_where_it_closes {options : Options} {modules : List Tree.Module} {c : Compilation}
    (bound : bind options modules = .ok c) (warn : options.warnOnRecursivePurity = true) :
    (∀ g, c.PledgesPurity g → (c.Warned g ↔ ∃ access, c.program.ClosesCircle c.facts.links access g)) ∧
    (∀ g access, c.PledgesPurity g → c.program.Calls c.facts.links access g g → c.Warned g) ∧
    ∀ g access, Relation.TransGen (c.CallsPledged access) g g →
      ∃ h, Relation.ReflTransGen (c.CallsPledged access) g h ∧ Relation.ReflTransGen (c.CallsPledged access) h g ∧
        c.Warned h := by
  have warned {g : FunctionId} (pledges : c.PledgesPurity g) := warned_iff_closes bound warn pledges
  refine ⟨fun g => warned, ?_, ?_⟩
  · intro g access pledges calls
    exact (warned pledges).mpr ⟨access, g, calls, .refl⟩
  · intro g access circle
    obtain ⟨h, there, back, closes⟩ := circle_closed (fun _ _ step => step.1) circle
    obtain ⟨_, _, _, pledges⟩ := Relation.TransGen.tail'_iff.mp (circle_through circle there back)
    exact ⟨h, there, back, (warned pledges).mpr ⟨access, closes⟩⟩

/-- `even`, which claims to be pure, and `odd` call each other. -/
def Tree.round (claims : FunctionModifiers) (others : List Tree.Item) : Tree.Module :=
  { path := []
    imports := []
    items := [Tree.claiming "even" { claimsPure := true } (.ret (some (Tree.call "odd")) {}),
      Tree.claiming "odd" claims (.ret (some (Tree.call "even")) {})] ++ others
    notices := []
    span := {} }

def Compilation.circling (c : Compilation) (g : Nat) : Bool × List FunctionId × Nat :=
  (c.promises g, (c.program.callsOf c.facts.links .read ⟨g⟩).map Prod.fst, (c.recursionTold ⟨g⟩).length)

section Circling
variable {c : Compilation} {g : Nat} {called : List FunctionId} {warnings : Nat}

theorem Compilation.circling_pledges (circling : c.circling g = (true, called, warnings)) : c.PledgesPurity ⟨g⟩ := by
  obtain ⟨_, f, here, written, claims⟩ := promises_pure (Prod.mk.inj circling).1
  exact ⟨f, here, written, claims⟩

theorem Compilation.circling_warned_iff {b : Bool} (circling : c.circling g = (b, called, warnings)) :
    c.Warned ⟨g⟩ ↔ warnings ≠ 0 := by
  obtain ⟨_, rest⟩ := Prod.mk.inj circling
  rw [warned_iff, ← (Prod.mk.inj rest).2, ne_eq, ne_eq, List.length_eq_zero_iff]

theorem Compilation.circling_calls {b : Bool} (circling : c.circling g = (b, called, warnings)) {h : FunctionId}
    (member : h ∈ called) : c.program.Calls c.facts.links .read ⟨g⟩ h := by
  obtain ⟨_, rest⟩ := Prod.mk.inj circling
  rw [← (Prod.mk.inj rest).1] at member
  obtain ⟨call, listed, rfl⟩ := List.mem_map.mp member
  exact calls_iff.mpr ⟨call.2, listed⟩

end Circling

theorem rounds_are_warned_of_at_the_end :
    ∃ c, bind {} [Tree.round { claimsPure := true }
      [Tree.claiming "loop" { claimsPure := true } (.ret (some (Tree.call "loop")) {})]] = .ok c ∧
      (¬c.Warned ⟨21⟩ ∧ ∀ access, ¬c.program.ClosesCircle c.facts.links access ⟨21⟩) ∧
      (c.Warned ⟨22⟩ ∧ ∃ access, c.program.ClosesCircle c.facts.links access ⟨22⟩) ∧
      c.Warned ⟨23⟩ ∧ ∃ h, Relation.ReflTransGen (c.CallsPledged .read) ⟨21⟩ h ∧
        Relation.ReflTransGen (c.CallsPledged .read) h ⟨21⟩ ∧ c.Warned h := by
  obtain ⟨c, bound, even, odd, loop⟩ := ok_of_passed
    (P := fun c => c.circling 21 = (true, [⟨22⟩], 0) ∧ c.circling 22 = (true, [⟨21⟩], 1) ∧
      c.circling 23 = (true, [⟨23⟩], 1))
    (x := bind {} [Tree.round { claimsPure := true }
      [Tree.claiming "loop" { claimsPure := true } (.ret (some (Tree.call "loop")) {})]]) (by decide +kernel)
  obtain ⟨closes, loops, circles⟩ := recursion_is_warned_of_where_it_closes bound rfl
  have silent : ¬c.Warned ⟨21⟩ := fun warned => (circling_warned_iff even).mp warned rfl
  have told : c.Warned ⟨22⟩ := (circling_warned_iff odd).mpr (by decide)
  refine ⟨c, bound, ⟨silent, ?_⟩, ⟨told, (closes _ (circling_pledges odd)).mp told⟩, ?_, ?_⟩
  · exact fun access circle => silent ((closes _ (circling_pledges even)).mpr ⟨access, circle⟩)
  · exact loops _ .read (circling_pledges loop) (circling_calls loop (by decide))
  · apply circles
    exact .tail (.single ⟨circling_calls even (by decide), circling_pledges odd⟩)
      ⟨circling_calls odd (by decide), circling_pledges even⟩

/-- If only `even` claims to be pure, no one is warned of the circle. -/
theorem circles_may_go_unnoticed : ∃ c, bind {} [Tree.round {} []] = .ok c ∧ c.PledgesPurity ⟨21⟩ ∧
    Relation.TransGen (c.program.Calls c.facts.links .read) ⟨21⟩ ⟨21⟩ ∧ ¬c.Warned ⟨21⟩ ∧ ¬c.Warned ⟨22⟩ := by
  obtain ⟨c, bound, even, odd⟩ := ok_of_passed
    (P := fun c => c.circling 21 = (true, [⟨22⟩], 0) ∧ c.circling 22 = (false, [⟨21⟩], 0))
    (x := bind {} [Tree.round {} []]) (by decide +kernel)
  refine ⟨c, bound, circling_pledges even, ?_, ?_, ?_⟩
  · exact .tail (.single (circling_calls even (by decide))) (circling_calls odd (by decide))
  · exact fun warned => (circling_warned_iff even).mp warned rfl
  · exact fun warned => (circling_warned_iff odd).mp warned rfl

end SemanticAnalysis
