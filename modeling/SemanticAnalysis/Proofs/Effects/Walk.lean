import Mathlib.Data.List.Infix
import SemanticAnalysis.Proofs.Effects.Summaries
/-!
The order in which functions are summed up. It is that of a walk that goes deep first. A function is entered when it is
asked for the first time, then the functions that it calls are asked for, one after another, and then it is finished.

A call counts as recursive if the called function is not finished when it is asked for. Which calls these are can be
read off the order: those of a function from which the calling one is reached through functions that were entered no
earlier. For a function that is finished has finished all that can be reached from it in this way, and one that is not
finished leads to the function that is being summed up.
-/
namespace SemanticAnalysis
open Running Analysis SemanticAnalysis.Bound Program Facts

def Links.call? (links : Links) : Visit → Option (FunctionId × Span)
  | .call call => (links.dispatched.find? call.node).map (fun h => (h, call.site.span))
  | .touch _ _ => none

def Links.calls (links : Links) (visits : List Visit) : List (FunctionId × Span) := visits.filterMap links.call?

theorem Links.calls_append (links : Links) (visits more : List Visit) :
    links.calls (visits ++ more) = links.calls visits ++ links.calls more := List.filterMap_append ..

namespace Program

/-- The calls in the body of a function that were dispatched, in the order in which they are treated. -/
def callsOf (p : Program) (links : Links) (access : Access) (g : FunctionId) : List (FunctionId × Span) :=
  match p.functions[g.index]?.bind Function.body with
  | none => []
  | some body => links.calls (p.visits access body)

/-- Enters a function, and then the ones that it calls, unless it was entered before. The walk goes at most `depth`
calls deep. -/
def explore (p : Program) (links : Links) (access : Access) : Nat → List FunctionId → FunctionId → List FunctionId
  | 0, order, g => if g ∈ order then order else order ++ [g]
  | depth + 1, order, g =>
    if g ∈ order then order
    else (p.callsOf links access g).foldl (fun order call => p.explore links access depth order call.1) (order ++ [g])

def exploreAll (p : Program) (links : Links) (access : Access) (depth : Nat) (calls : List (FunctionId × Span))
    (order : List FunctionId) : List FunctionId :=
  calls.foldl (fun order call => p.explore links access depth order call.1) order

def CallsAfter (p : Program) (links : Links) (access : Access) (order : List FunctionId) (r a b : FunctionId) : Prop :=
  p.Calls links access a b ∧ order.idxOf r ≤ order.idxOf b

/-- From `r` one comes to `g` by calls of functions that were entered no earlier than `r`. -/
def LeadsTo (p : Program) (links : Links) (access : Access) (order : List FunctionId) (r g : FunctionId) : Prop :=
  Relation.ReflTransGen (p.CallsAfter links access order r) r g

open Classical in
/-- The calls of a function that go back to one from which it was reached. -/
noncomputable def recursion (p : Program) (links : Links) (access : Access) (order : List FunctionId)
    (g : FunctionId) : List (FunctionId × Span) :=
  (p.callsOf links access g).filter (fun call => p.LeadsTo links access order call.1 g)

variable {p : Program} {links : Links} {access : Access} {order : List FunctionId} {g h r : FunctionId} {f : Function}
  {depth : Nat}

theorem calls_of_body {body : Block} (here : p.functions[g.index]? = some f) (written : f.body = some body) :
    p.callsOf links access g = links.calls (p.visits access body) := by
  rw [callsOf, here, Option.bind_some, written]

theorem calls_of_bodyless (here : p.functions[g.index]? = some f) (bodyless : f.body = none) :
    p.callsOf links access g = [] := by
  rw [callsOf, here, Option.bind_some, bodyless]

theorem calls_iff : p.Calls links access g h ↔ ∃ span, (h, span) ∈ p.callsOf links access g := by
  constructor
  · rintro ⟨f, body, call, here, written, listed, dispatched⟩
    rw [calls_of_body here written]
    exact ⟨call.site.span, List.mem_filterMap.mpr ⟨_, listed, by simp [Links.call?, dispatched]⟩⟩
  · rintro ⟨span, member⟩
    unfold callsOf at member
    split at member
    · cases member
    · rename_i body found
      obtain ⟨f, here, written⟩ := Option.bind_eq_some_iff.mp found
      obtain ⟨visit, listed, same⟩ := List.mem_filterMap.mp member
      cases visit with
      | touch node span => cases same
      | call call =>
        obtain ⟨h', dispatched, same⟩ := Option.map_eq_some_iff.mp same
        cases same
        exact ⟨f, body, call, here, written, listed, dispatched⟩

theorem explore_entered (member : g ∈ order) (depth : Nat) : p.explore links access depth order g = order := by
  cases depth with
  | _ => exact if_pos member

theorem explore_new (new : g ∉ order) : p.explore links access (depth + 1) order g
    = p.exploreAll links access depth (p.callsOf links access g) (order ++ [g]) := if_neg new

theorem explore_all_append (calls more : List (FunctionId × Span)) :
    p.exploreAll links access depth (calls ++ more)
      = p.exploreAll links access depth more ∘ p.exploreAll links access depth calls := by
  funext order
  exact List.foldl_append

theorem explore_each_extends (each : ∀ order g, order <+: p.explore links access depth order g)
    (calls : List (FunctionId × Span)) (order : List FunctionId) :
    order <+: p.exploreAll links access depth calls order := by
  induction calls generalizing order with
  | nil => exact List.prefix_refl _
  | cons call rest ih => exact (each order call.1).trans (ih _)

theorem explore_extends (depth : Nat) (order : List FunctionId) (g : FunctionId) :
    order <+: p.explore links access depth order g := by
  induction depth generalizing order g with
  | zero =>
    rw [explore]
    split
    · exact List.prefix_refl _
    · exact List.prefix_append _ _
  | succ depth ih =>
    by_cases entered : g ∈ order
    · rw [explore_entered entered]
    · rw [explore_new entered]
      exact (List.prefix_append order [g]).trans (explore_each_extends ih _ _)

theorem explore_all_extends (calls : List (FunctionId × Span)) (order : List FunctionId) :
    order <+: p.exploreAll links access depth calls order := explore_each_extends (explore_extends depth) calls order

theorem mem_explore (depth : Nat) (order : List FunctionId) (g : FunctionId) :
    g ∈ p.explore links access depth order g := by
  by_cases member : g ∈ order
  · rw [explore_entered member]
    exact member
  · have new : g ∈ order ++ [g] := by simp
    cases depth with
    | zero => rwa [explore, if_neg member]
    | succ depth =>
      rw [explore_new member]
      exact (explore_all_extends _ _).subset new

theorem mem_explore_all {calls : List (FunctionId × Span)} {call : FunctionId × Span} (member : call ∈ calls)
    (order : List FunctionId) : call.1 ∈ p.exploreAll links access depth calls order := by
  induction calls generalizing order with
  | nil => cases member
  | cons first rest ih =>
    rcases List.mem_cons.mp member with rfl | later
    · exact (explore_all_extends rest _).subset (mem_explore depth order call.1)
    · exact ih later _

theorem calls_after_append {more : List FunctionId} (member : r ∈ order) :
    p.CallsAfter links access (order ++ more) r = p.CallsAfter links access order r := by
  funext a b
  refine propext (and_congr_right fun _ => ?_)
  have position := List.idxOf_lt_length_iff.mpr member
  rw [List.idxOf_append_of_mem member]
  by_cases entered : b ∈ order
  · rw [List.idxOf_append_of_mem entered]
  · rw [List.idxOf_append_of_notMem entered, List.idxOf_of_notMem entered]
    omega

theorem leads_extends {later : List FunctionId} (further : order <+: later) (member : r ∈ order) :
    p.LeadsTo links access later r g ↔ p.LeadsTo links access order r g := by
  obtain ⟨more, rfl⟩ := further
  unfold LeadsTo
  rw [calls_after_append member]

theorem leads_position (leads : p.LeadsTo links access order r g) : order.idxOf r ≤ order.idxOf g := by
  cases leads with
  | refl => exact Nat.le_refl _
  | tail _ last => exact last.2

end Program

section Bodies
variable {p : Program} {links : Links} {access : Access} {g : FunctionId} {f : Function} {ask : SummarySource}
  {depth : Nat} {stack : List FunctionId} {J : List FunctionId → Facts → Prop}

/-- The work on some places goes on with the walk through the functions that are called there. Calls of functions that
are not finished count as recursive. -/
def Analysis.Enters (p : Program) (links : Links) (access : Access) (depth : Nat) (stack : List FunctionId)
    (J : List FunctionId → Facts → Prop) (visits : List Visit) (work : Analysis (List Effect)) : Prop :=
  ∀ order facts, J order facts → ∀ es after, work facts = (.ok es, after) →
    J (p.exploreAll links access depth (links.calls visits) order) after ∧
      es.filterMap EffectSummary.recursiveCall? = (links.calls visits).filter (fun call => call.1 ∈ stack)

variable {visits : List Visit}

theorem enters_pure {es : List Effect} (silent : links.calls visits = [])
    (plain : es.filterMap EffectSummary.recursiveCall? = []) :
    Enters p links access depth stack J visits (pure es) := by
  intro order facts inv es' after ran
  cases ran
  rw [silent]
  exact ⟨inv, plain⟩

theorem enters_get {work : Facts → Analysis (List Effect)}
    (each : ∀ order facts, J order facts → Enters p links access depth stack J visits (work facts)) :
    Enters p links access depth stack J visits (get >>= work) :=
  fun order facts inv es after ran => each order facts inv order facts inv es after ran

theorem enters_look_up {α : Type} {x : Except InternalError α} {work : α → Analysis (List Effect)}
    (each : ∀ a, x = .ok a → Enters p links access depth stack J visits (work a)) :
    Enters p links access depth stack J visits (liftM x >>= work) := by
  intro order facts inv es after ran
  cases x with
  | error e => cases ran
  | ok a => exact each a rfl order facts inv es after ran

theorem enters_append {more : List Visit} {x y : Analysis (List Effect)} {own : List Effect}
    (plain : own.filterMap EffectSummary.recursiveCall? = []) (first : Enters p links access depth stack J visits x)
    (second : Enters p links access depth stack J more y) :
    Enters p links access depth stack J (visits ++ more) (do
      let es ← x
      let others ← y
      pure (own ++ es ++ others)) := by
  intro order facts inv es after ran
  obtain ⟨es₁, middle, step, rest⟩ := bind_ok_split ran
  obtain ⟨es₂, last, step', ended⟩ := bind_ok_split rest
  cases ended
  obtain ⟨inv₁, viewed₁⟩ := first order facts inv es₁ middle step
  obtain ⟨inv₂, viewed₂⟩ := second _ middle inv₁ es₂ after step'
  rw [links.calls_append, explore_all_append, List.filter_append, List.filterMap_append,
    List.filterMap_append, plain, List.nil_append]
  exact ⟨inv₂, congrArg₂ _ viewed₁ viewed₂⟩

theorem enters_collect {α : Type} {work : α → Analysis (List Effect)} {visits : α → List Visit} (xs : List α)
    (each : ∀ x ∈ xs, Enters p links access depth stack J (visits x) (work x)) :
    Enters p links access depth stack J (xs.flatMap visits) (collect work xs) := by
  induction xs with
  | nil => exact enters_pure rfl rfl
  | cons x xs ih =>
    have nothing : ([] : List Effect).filterMap EffectSummary.recursiveCall? = [] := rfl
    exact enters_append nothing (each x (List.mem_cons_self ..))
      (ih (fun y member => each y (List.mem_cons_of_mem _ member)))

variable (tables : ∀ order facts, J order facts → facts.links = links)
  (asks : ∀ h, p.Calls links access g h → ∀ order facts, J order facts → ∀ answer after,
    ask h facts = (.ok answer, after) → J (p.explore links access depth order h) after ∧ (answer = none ↔ h ∈ stack))
  {body : Block} (here : p.functions[g.index]? = some f) (written : f.body = some body) (boundary : ScopeId)
include tables asks here written

theorem node_enters {n : Node} (listed : n.visits access ⊆ p.visits access body) :
    Enters p links access depth stack J (n.visits access) (n.effects p access ask boundary) := by
  cases n with
  | identifier node name site =>
    refine enters_get fun order facts inv => enters_pure ?_ ?_
    · cases access <;> rfl
    · cases access with
      | read =>
        simp only [Program.identifierEffects, List.filterMap_map]
        exact List.filterMap_eq_nil_iff.mpr (fun _ _ => rfl)
      | write => rfl
  | call invocation receiver args =>
    simp only [Node.effects, Program.callEffects, Node.visits]
    refine enters_get fun order facts inv => ?_
    have same : facts.dispatched = links.dispatched := congrArg Links.dispatched (tables order facts inv)
    rw [same]
    split
    · rename_i none
      exact enters_pure (by simp [Links.calls, Links.call?, none]) rfl
    · rename_i h dispatched
      have calls : p.Calls links access g h :=
        ⟨f, body, invocation, here, written, listed (List.mem_singleton_self _), dispatched⟩
      have single : links.calls [.call invocation] = [(h, invocation.site.span)] := by
        simp [Links.calls, Links.call?, dispatched]
      intro order facts inv es after ran
      obtain ⟨answer, middle, asked, ended⟩ := bind_ok_split ran
      cases ended
      obtain ⟨inv', unfinished⟩ := asks h calls order facts inv answer after asked
      rw [single]
      refine ⟨inv', ?_⟩
      cases answer with
      | none => simp [calleeEffects, EffectSummary.recursiveCall?, unfinished.mp rfl]
      | some s =>
        have outside : h ∉ stack := fun member => by simpa using unfinished.mpr member
        rw [calleeEffects]
        split
        · simp [outside]
        · cases access <;> simp [EffectSummary.recursiveCall?, Access.throughCall, outside]
  | _ => exact enters_pure rfl rfl

theorem nodes_enter {ns : List Node} (listed : ns.flatMap (Node.visits access) ⊆ p.visits access body) :
    Enters p links access depth stack J (ns.flatMap (Node.visits access))
      (collect (Node.effects p access ask boundary) ns) := by
  apply enters_collect
  intro n member
  apply node_enters tables asks here written
  exact fun visit among => listed (List.mem_flatMap.mpr ⟨n, member, among⟩)

theorem step_enters {s : Step} (listed : p.stepVisits access s ⊆ p.visits access body) :
    Enters p links access depth stack J (p.stepVisits access s) (s.effects p access ask boundary) := by
  cases s with
  | node n => exact node_enters tables asks here written boundary listed
  | introduce id =>
    refine enters_look_up fun v found => ?_
    have nodes : p.initialNodes id = Expr.optionNodes v.initializer := by
      rw [Program.initialNodes, variable_at_ok_iff.mp found]
      rfl
    rw [Program.stepVisits, nodes] at listed ⊢
    rw [Expr.effects_option_collect]
    exact nodes_enter tables asks here written boundary listed
  | assign target value site =>
    have whole : p.stepVisits access (.assign target value site) = target.written access site
        ++ (target.targetNodes.flatMap (Node.visits access) ++ value.nodes.flatMap (Node.visits access)) := by
      rw [Program.stepVisits, List.flatMap_append]
    rw [whole] at listed ⊢
    have silent : links.calls (target.written access site) = [] := by
      unfold Expr.written
      split <;> rfl
    have ofTarget : Enters p links access depth stack J (target.targetNodes.flatMap (Node.visits access))
        (target.targetEffects p access ask boundary) := by
      have evaluated : target.targetNodes.flatMap (Node.visits access) ⊆ p.visits access body :=
        fun visit among => listed (List.mem_append_right _ (List.mem_append_left _ among))
      unfold Expr.targetEffects
      unfold Expr.targetNodes at evaluated ⊢
      split
      · exact enters_pure rfl rfl
      · rename_i other
        rw [if_neg other] at evaluated
        rw [Expr.effects_collect]
        exact nodes_enter tables asks here written boundary evaluated
    have evaluated' : value.nodes.flatMap (Node.visits access) ⊆ p.visits access body :=
      fun visit among => listed (List.mem_append_right _ (List.mem_append_right _ among))
    have ofValue := nodes_enter tables asks here written boundary evaluated'
    have plain (facts : Facts) :
        (p.assignmentEffects facts access boundary target site).filterMap EffectSummary.recursiveCall? = [] := by
      unfold Program.assignmentEffects
      split
      · rw [List.filterMap_map]
        exact List.filterMap_eq_nil_iff.mpr (fun _ _ => rfl)
      · rfl
    simp only [Step.effects, Expr.effects_collect p access ask boundary value]
    refine enters_get fun order facts _ => ?_
    unfold Enters
    rw [links.calls_append, silent, List.nil_append]
    exact enters_append (plain facts) ofTarget ofValue

theorem body_enters :
    Enters p links access depth stack J (p.visits access body) (body.effects p access ask boundary) := by
  rw [Block.effects_collect, Program.visits]
  apply enters_collect
  intro s member
  apply step_enters tables asks here written
  exact fun visit among => List.mem_flatMap.mpr ⟨s, member, among⟩

end Bodies

/-- The functions in `order` have been entered, and what is known about them is what the order says. -/
structure Facts.Walked (p : Program) (links : Links) (access : Access) (order : List FunctionId) (facts : Facts) :
    Prop where
  entered : ∀ g, g ∈ order ↔ facts.summaries.state (access, g) ≠ .unknown
  calls : ∀ g s, facts.summaries.state (access, g) = .computed s → ∀ h, p.Calls links access g h → h ∈ order
  finished : ∀ g s, facts.summaries.state (access, g) = .computed s → ∀ h, p.LeadsTo links access order g h →
    ∃ t, facts.summaries.state (access, h) = .computed t
  recursive : ∀ g s, facts.summaries.state (access, g) = .computed s → s.recursive = p.recursion links access order g

/-- In the middle of a walk. The functions in `stack` have been entered and are not finished, and `R` holds besides. -/
structure Facts.Walking (p : Program) (links : Links) (access : Access) (R : Facts → Prop) (stack : List FunctionId)
    (order : List FunctionId) (facts : Facts) : Prop where
  settled : facts.Settled p links
  walked : facts.Walked p links access order
  running : ∀ g, facts.summaries.state (access, g) = .inProgress ↔ g ∈ stack
  rest : R facts

variable {p : Program} {links : Links} {access : Access} {R : Facts → Prop} {stack order : List FunctionId}
  {facts : Facts} {g : FunctionId}

theorem Facts.Walking.stack_entered (walking : Facts.Walking p links access R stack order facts) {r : FunctionId}
    (running : r ∈ stack) : r ∈ order := by
  rw [walking.walked.entered, (walking.running r).mpr running]
  simp

theorem Facts.state_summary (access : Access) (g h : FunctionId) (m : Memo EffectSummary) (facts : Facts) :
    ((Facts.summaryCell access g).write m facts).summaries.state (access, h)
      = if h = g then m else facts.summaries.state (access, h) := by
  change Cells.state (facts.summaries.insert (access, g) m) (access, h) = _
  rw [Cells.state_insert]
  simp only [Prod.mk.injEq, true_and]

section Entering
variable (cells : ∀ g m facts, R facts → R ((Facts.summaryCell access g).write m facts))
  (before : Facts.Walking p links access R stack order facts)
  (unknown : facts.summaries.state (access, g) = .unknown)
include before unknown

theorem unknown_new : g ∉ order := fun entered => (before.walked.entered g).mp entered unknown

include cells

theorem walking_enter : Facts.Walking p links access R (g :: stack) (order ++ [g])
    ((Facts.summaryCell access g).write .inProgress facts) := by
  have known {h : FunctionId} {s : EffectSummary}
      (state : ((Facts.summaryCell access g).write .inProgress facts).summaries.state (access, h) = .computed s) :
      facts.summaries.state (access, h) = .computed s ∧ h ∈ order := by
    rw [state_summary] at state
    split at state
    · cases state
    · exact ⟨state, (before.walked.entered h).mpr (by simp [state])⟩
  refine ⟨(settled_groundwork p links).cells _ _ _ _ before.settled, ⟨?_, ?_, ?_, ?_⟩, ?_, cells _ _ _ before.rest⟩
  · intro h
    rw [state_summary, List.mem_append, List.mem_singleton, before.walked.entered]
    split
    · rename_i same
      simp [same]
    · rename_i other
      simp [other]
  · intro h s state i calls
    exact List.mem_append_left _ (before.walked.calls h s (known state).1 i calls)
  · intro h s state i leads
    obtain ⟨old, entered⟩ := known state
    obtain ⟨t, done⟩ :=
      before.walked.finished h s old i ((leads_extends (List.prefix_append _ _) entered).mp leads)
    refine ⟨t, ?_⟩
    rw [state_summary, if_neg, done]
    rintro rfl
    rw [unknown] at done
    cases done
  · intro h s state
    obtain ⟨old, entered⟩ := known state
    rw [before.walked.recursive h s old]
    refine List.filter_congr fun call member => ?_
    have called := before.walked.calls h s old call.1 (calls_iff.mpr ⟨call.2, member⟩)
    rw [leads_extends (List.prefix_append _ _) called]
  · intro h
    rw [state_summary, List.mem_cons]
    split
    · rename_i same
      simp [same]
    · rename_i other
      rw [before.running]
      simp [other]

omit cells

variable {later : List FunctionId} (further : order ++ [g] <+: later)
include further

theorem entered_position : later.idxOf g = order.length := by
  obtain ⟨more, rfl⟩ := further
  rw [List.append_assoc, List.idxOf_append_of_notMem (unknown_new before unknown)]
  simp

variable {h : FunctionId}

theorem earlier_iff : later.idxOf h < later.idxOf g ↔ h ∈ order := by
  rw [entered_position before unknown further]
  obtain ⟨more, rfl⟩ := further
  rw [List.append_assoc]
  by_cases member : h ∈ order
  · rw [List.idxOf_append_of_mem member]
    exact iff_of_true (List.idxOf_lt_length_iff.mpr member) member
  · rw [List.idxOf_append_of_notMem member]
    exact iff_of_false (by omega) member

variable {after : Facts} (inside : Facts.Walking p links access R (g :: stack) later after)
  (leads : ∀ r ∈ g :: stack, p.LeadsTo links access later r g)

include leads in
/-- A function is not finished if and only if it leads to the one that is being summed up. -/
theorem stack_iff_leads (entered : h ∈ later) : h ∈ g :: stack ↔ p.LeadsTo links access later h g := by
  refine ⟨leads h, fun back => ?_⟩
  by_cases self : h = g
  · exact List.mem_cons.mpr (.inl self)
  · refine List.mem_cons_of_mem _ ((before.running h).mp ?_)
    have apart : later.idxOf h ≠ later.idxOf g := fun same => self ((List.idxOf_inj entered).mp same)
    have early : h ∈ order :=
      (earlier_iff before unknown further).mp (Nat.lt_of_le_of_ne (leads_position back) apart)
    have back' := (leads_extends ((List.prefix_append _ _).trans further) early).mp back
    cases state : facts.summaries.state (access, h) with
    | inProgress => rfl
    | unknown => exact absurd state ((before.walked.entered h).mp early)
    | computed s =>
      -- a function that was finished has finished all that it leads to
      obtain ⟨t, done⟩ := before.walked.finished h s state g back'
      rw [unknown] at done
      cases done

include inside in
theorem leads_finished (calls : ∀ h, p.Calls links access g h → h ∈ later) (s : EffectSummary)
    (way : p.LeadsTo links access later g h) :
    ∃ t, ((Facts.summaryCell access g).write (.computed s) after).summaries.state (access, h) = .computed t := by
  induction way with
  | refl => exact ⟨s, by rw [state_summary, if_pos rfl]⟩
  | @tail a b _ last ih =>
    obtain ⟨t, done⟩ := ih
    rw [state_summary] at done
    by_cases self : b = g
    · exact ⟨s, by rw [state_summary, if_pos self]⟩
    · have entered : b ∈ later := by
        split at done
        · rename_i same
          exact calls b (same ▸ last.1)
        · exact inside.walked.calls a t done b last.1
      cases state : after.summaries.state (access, b) with
      | computed u => exact ⟨u, by rw [state_summary, if_neg self, state]⟩
      | unknown => exact absurd state ((inside.walked.entered b).mp entered)
      | inProgress =>
        -- what is not finished was entered before `g`
        have running := (List.mem_cons.mp ((inside.running b).mp state)).resolve_left self
        have early := (earlier_iff before unknown further).mpr (before.stack_entered running)
        exact absurd early (Nat.not_lt.mpr last.2)

include cells inside leads in
theorem walking_leave (calls : ∀ h, p.Calls links access g h → h ∈ later) {s : EffectSummary}
    (recursive : s.recursive = (p.callsOf links access g).filter (fun call => call.1 ∈ g :: stack)) :
    Facts.Walking p links access R stack later ((Facts.summaryCell access g).write (.computed s) after) := by
  have known {h : FunctionId} {t : EffectSummary} :
      ((Facts.summaryCell access g).write (.computed s) after).summaries.state (access, h) = .computed t ↔
        (h = g ∧ s = t) ∨ (h ≠ g ∧ after.summaries.state (access, h) = .computed t) := by
    rw [state_summary]
    split
    · rename_i same
      simp [same]
    · rename_i other
      simp [other]
  have entered : g ∈ later := further.subset (by simp)
  have outside : g ∉ stack := fun running => unknown_new before unknown (before.stack_entered running)
  refine ⟨(settled_groundwork p links).cells _ _ _ _ inside.settled, ⟨?_, ?_, ?_, ?_⟩, ?_, cells _ _ _ inside.rest⟩
  · intro h
    rw [state_summary]
    split
    · rename_i same
      simp [same, entered]
    · exact inside.walked.entered h
  · intro h t state i call
    rcases known.mp state with ⟨rfl, _⟩ | ⟨_, old⟩
    · exact calls i call
    · exact inside.walked.calls h t old i call
  · intro h t state i way
    rcases known.mp state with ⟨rfl, _⟩ | ⟨_, old⟩
    · exact leads_finished before unknown further inside calls s way
    · obtain ⟨u, done⟩ := inside.walked.finished h t old i way
      by_cases self : i = g
      · exact ⟨s, known.mpr (.inl ⟨self, rfl⟩)⟩
      · exact ⟨u, known.mpr (.inr ⟨self, done⟩)⟩
  · intro h t state
    rcases known.mp state with ⟨rfl, rfl⟩ | ⟨_, old⟩
    · rw [recursive]
      refine List.filter_congr fun call member => ?_
      have called := calls call.1 (calls_iff.mpr ⟨call.2, member⟩)
      rw [decide_eq_decide, stack_iff_leads before unknown further leads called]
    · exact inside.walked.recursive h t old
  · intro h
    rw [state_summary]
    split
    · rename_i same
      simp [same, outside]
    · rename_i other
      rw [inside.running, List.mem_cons]
      simp [other]

end Entering

/-- The source goes on with the walk through the function that it is asked for. It gives no answer about functions that
are not finished. -/
def SummarySource.Walks (p : Program) (links : Links) (access : Access) (R : Facts → Prop) (depth : Nat)
    (ask : SummarySource) : Prop :=
  ∀ stack order g, (g ∉ order → ∀ r ∈ stack, p.LeadsTo links access (order ++ [g]) r g) →
    ∀ facts, Facts.Walking p links access R stack order facts → ∀ answer after, ask g facts = (.ok answer, after) →
      Facts.Walking p links access R stack (p.explore links access depth order g) after ∧ (answer = none ↔ g ∈ stack)

/-- Inside the function `g`, which was entered when `start` had been entered. All that is not finished leads to it. -/
structure Facts.WalkingIn (p : Program) (links : Links) (access : Access) (R : Facts → Prop)
    (stack start : List FunctionId) (g : FunctionId) (order : List FunctionId) (facts : Facts) : Prop where
  walking : Facts.Walking p links access R (g :: stack) order facts
  further : start ++ [g] <+: order
  leads : ∀ r ∈ g :: stack, p.LeadsTo links access order r g

section Inside
variable {start : List FunctionId}

theorem ask_walks_in {ask : SummarySource} {depth : Nat} (walks : ask.Walks p links access R depth) {h : FunctionId}
    (calls : p.Calls links access g h) (inside : Facts.WalkingIn p links access R stack start g order facts)
    {answer : Option EffectSummary} {after : Facts} (ran : ask h facts = (.ok answer, after)) :
    Facts.WalkingIn p links access R stack start g (p.explore links access depth order h) after ∧
      (answer = none ↔ h ∈ g :: stack) := by
  obtain ⟨walking, further, leads⟩ := inside
  have leads' : h ∉ order → ∀ r ∈ g :: stack, p.LeadsTo links access (order ++ [h]) r h := by
    intro new r running
    have entered := walking.stack_entered running
    have way := (leads_extends (List.prefix_append order [h]) entered).mpr (leads r running)
    refine way.tail ⟨calls, ?_⟩
    rw [List.idxOf_append_of_mem entered, List.idxOf_append_of_notMem new]
    exact Nat.le_add_right_of_le List.idxOf_le_length
  obtain ⟨walking', answered⟩ := walks (g :: stack) order h leads' facts walking answer after ran
  have more : order <+: p.explore links access depth order h := explore_extends depth order h
  refine ⟨⟨walking', further.trans more, fun r running => ?_⟩, answered⟩
  exact (leads_extends more (walking.stack_entered running)).mpr (leads r running)

theorem prepare_walks_in {f : Function} (here : p.functions[g.index]? = some f) (written : f.body ≠ none) :
    Maintains (Facts.WalkingIn p links access R stack start g order)
      (p.resolveFunction g >>= fun _ => p.typeFunction p.typeSource g) :=
  maintains_bind (done_maintains (fun _ inside => (inside.walking.settled.done g f here written).1))
    (fun _ => done_maintains (fun _ inside => (inside.walking.settled.done g f here written).2))

/-- Summing up a function that has been entered enters what it calls. -/
theorem summarise_walks_in (consistent : p.Consistent) {ask : SummarySource} {depth : Nat}
    (walks : ask.Walks p links access R depth) {f : Function} (here : p.functions[g.index]? = some f)
    (inside : Facts.WalkingIn p links access R stack start g order facts) {s : EffectSummary} {after : Facts}
    (ran : p.summarise access ask f facts = (.ok s, after)) :
    Facts.WalkingIn p links access R stack start g
        (p.exploreAll links access depth (p.callsOf links access g) order) after ∧
      s.recursive = (p.callsOf links access g).filter (fun call => call.1 ∈ g :: stack) := by
  unfold Program.summarise at ran
  cases written : f.body with
  | none =>
    rw [written] at ran
    cases ran
    rw [calls_of_bodyless here written]
    exact ⟨inside, rfl⟩
  | some body =>
    rw [written, consistent.functionIds _ _ here] at ran
    obtain ⟨_, named, resolved, rest⟩ := bind_ok_split ran
    obtain ⟨found, typed, assigned, rest⟩ := bind_ok_split rest
    obtain ⟨effects, last, summed, ended⟩ := bind_ok_split rest
    cases ended
    have both : (p.resolveFunction g >>= fun _ => p.typeFunction p.typeSource g) facts = (.ok found, typed) := by
      rw [run_bind_ok resolved]
      exact assigned
    have prepared := (prepare_walks_in here (by simp [written]) facts inside found typed both).1
    rw [calls_of_body here written]
    exact body_enters (J := Facts.WalkingIn p links access R stack start g)
      (fun _ _ holds => holds.walking.settled.tables)
      (fun h calls _ _ holds _ _ asked => ask_walks_in walks calls holds asked) here written f.scope order typed
      prepared effects after summed

end Inside

section Source
variable (consistent : p.Consistent) (cells : ∀ g m facts, R facts → R ((Facts.summaryCell access g).write m facts))
include consistent cells

theorem summary_using_walks {ask : SummarySource} {depth : Nat} (walks : ask.Walks p links access R depth) :
    SummarySource.Walks p links access R (depth + 1) (p.summaryUsing access ask) := by
  intro stack order g leads facts before answer after ran
  obtain ⟨f, at_, rest⟩ := look_up_split ran
  have here := function_at_ok_iff.mp at_
  unfold Cell.compute at rest
  split at rest
  · rename_i s state
    cases rest
    have known : facts.summaries.state (access, g) = .computed s := state
    rw [explore_entered ((before.walked.entered g).mpr (by simp [known]))]
    refine ⟨before, iff_of_false (by simp) fun running => ?_⟩
    rw [← before.running, known] at running
    cases running
  · rename_i state
    cases rest
    have running := (before.running g).mp state
    rw [explore_entered (before.stack_entered running)]
    exact ⟨before, iff_of_true rfl running⟩
  · rename_i state
    have unknown : facts.summaries.state (access, g) = .unknown := state
    have new := unknown_new before unknown
    have outside : g ∉ stack := fun running => new (before.stack_entered running)
    split at rest
    · rename_i s last step
      cases rest
      refine ⟨?_, iff_of_false (by simp) outside⟩
      have entered : Facts.WalkingIn p links access R stack order g (order ++ [g])
          ((Facts.summaryCell access g).write .inProgress facts) := by
        refine ⟨walking_enter cells before unknown, List.prefix_refl _, fun r running => ?_⟩
        rcases List.mem_cons.mp running with rfl | outer
        · exact .refl
        · exact leads new r outer
      obtain ⟨inside, recursive⟩ := summarise_walks_in consistent walks here entered step
      rw [explore_new new]
      refine walking_leave cells before unknown inside.further inside.walking inside.leads (fun h calls => ?_) recursive
      obtain ⟨span, member⟩ := calls_iff.mp calls
      exact mem_explore_all member _
    · cases rest

theorem summaries_within_walk (depth : Nat) :
    SummarySource.Walks p links access R depth (p.summariesWithin access depth) := by
  induction depth with
  | zero =>
    intro stack order g _ facts _ answer after ran
    cases ran
  | succ depth ih => exact summary_using_walks consistent cells ih

theorem summary_walks (before : Facts.Walking p links access R [] order facts) {answer : Option EffectSummary}
    {after : Facts} (ran : p.summary access g facts = (.ok answer, after)) :
    Facts.Walking p links access R [] (p.explore links access (p.functions.size + 1) order g) after :=
  (summaries_within_walk consistent cells _ [] order g (fun _ _ running => absurd running List.not_mem_nil) facts before
    answer after ran).1

end Source

end SemanticAnalysis
