import SemanticAnalysis.Proofs.Compilation.Verdicts
/-!
Warnings about recursive calls. The calls behind the claims that a function breaks are sorted by where they start, and
of neighbours that are equal one is kept. Calls that start at the same place stay in the order in which they were found,
first those of the reads and then those of the writes. So a call is told more than once if and only if a different call
with the same start was found in between.
-/
namespace SemanticAnalysis
open Running Analysis Diagnostics SemanticAnalysis.Bound

namespace Span
variable {s t u : Span}

theorem starts_by_iff : s.startsBy t = true ↔ s.line < t.line ∨ s.line = t.line ∧ s.column ≤ t.column := by
  simp [startsBy]

theorem starts_by_trans (first : s.startsBy t = true) (second : t.startsBy u = true) : s.startsBy u = true := by
  rw [starts_by_iff] at first second ⊢
  omega

theorem starts_by_total (s t : Span) : s.startsBy t = true ∨ t.startsBy s = true := by
  rw [starts_by_iff, starts_by_iff]
  omega

theorem position_eq_iff : s.position = t.position ↔ s.startsBy t = true ∧ t.startsBy s = true := by
  rw [starts_by_iff, starts_by_iff, position, position, Prod.mk.injEq]
  omega

end Span

section Repeats
variable {α : Type} [DecidableEq α] {x : α} {xs : List α}

theorem drop_repeats_sublist (xs : List α) : (dropRepeats xs).Sublist xs := by
  fun_induction dropRepeats xs with
  | case1 => exact .slnil
  | case2 x => exact .refl _
  | case3 y rest ih => exact ih.cons y
  | case4 x y rest _ ih => exact ih.cons_cons x

theorem drop_repeats_member_iff : x ∈ dropRepeats xs ↔ x ∈ xs := by
  refine ⟨drop_repeats_member, ?_⟩
  fun_induction dropRepeats xs with
  | case1 => exact id
  | case2 y => exact id
  | case3 y rest ih =>
    rintro (_ | ⟨_, later⟩)
    · exact ih (List.mem_cons_self ..)
    · exact ih later
  | case4 y z rest _ ih =>
    intro member
    rcases List.mem_cons.mp member with rfl | later
    · exact List.mem_cons_self ..
    · exact List.mem_cons_of_mem _ (ih later)

theorem drop_repeats_nodup_iff : (dropRepeats xs).Nodup ↔ ∀ a b, [a, b, a].Sublist xs → a = b := by
  fun_induction dropRepeats xs with
  | case1 => simp
  | case2 x =>
    refine iff_of_true (List.nodup_singleton x) ?_
    intro a b between
    have short := between.length_le
    simp at short
  | case3 y rest ih =>
    rw [ih]
    refine ⟨fun together a b between => ?_, fun together a b between => together a b (between.cons y)⟩
    rcases List.sublist_cons_iff.mp between with later | ⟨_, same, further⟩
    · exact together a b later
    · obtain ⟨rfl, rfl⟩ := List.cons.inj same
      rcases List.sublist_cons_iff.mp further with last | ⟨_, same', _⟩
      · exact together a b (last.cons_cons a)
      · exact (List.cons.inj same').1.symm
  | case4 x y rest apart ih =>
    rw [List.nodup_cons, ih, drop_repeats_member_iff]
    constructor
    · rintro ⟨new, together⟩ a b between
      rcases List.sublist_cons_iff.mp between with later | ⟨_, same, further⟩
      · exact together a b later
      · obtain ⟨rfl, rfl⟩ := List.cons.inj same
        exact absurd (further.subset (by simp)) new
    · intro together
      refine ⟨fun again => ?_, fun a b between => together a b (between.cons x)⟩
      have later : [x].Sublist rest := List.singleton_sublist.mpr ((List.mem_cons.mp again).resolve_left apart)
      exact apart (together x y ((later.cons_cons y).cons_cons x))

end Repeats

/-- Calls by place, and of equal neighbours one. -/
def inPlace (calls : List (FunctionId × Span)) : List (FunctionId × Span) :=
  dropRepeats (stableSort (fun a b => a.2.startsBy b.2) calls)

section Places
variable {calls : List (FunctionId × Span)}

theorem by_place_sorted (calls : List (FunctionId × Span)) :
    (stableSort (fun a b => a.2.startsBy b.2) calls).Pairwise (fun a b => a.2.startsBy b.2 = true) := by
  apply stable_sort_sorted
  · intro a b c first second
    exact Span.starts_by_trans first second
  · intro a b
    exact Span.starts_by_total a.2 b.2

theorem in_place_ordered (calls : List (FunctionId × Span)) :
    (inPlace calls).Pairwise (fun a b => a.2.startsBy b.2 = true) :=
  (by_place_sorted calls).sublist (drop_repeats_sublist _)

theorem in_place_member_iff {call : FunctionId × Span} : call ∈ inPlace calls ↔ call ∈ calls := by
  unfold inPlace
  rw [drop_repeats_member_iff, (stable_sort_perm _ _).mem_iff]

theorem by_place_between_iff {a b : FunctionId × Span} (same : a.2.position = b.2.position) :
    [a, b, a].Sublist (stableSort (fun a b => a.2.startsBy b.2) calls) ↔ [a, b, a].Sublist calls := by
  let keep : FunctionId × Span → Bool := fun call => call.2.position == a.2.position
  have alike : ∀ c d, keep c = true → keep d = true → c.2.startsBy d.2 = true := by
    intro c d here there
    exact (Span.position_eq_iff.mp ((beq_iff_eq.mp here).trans (beq_iff_eq.mp there).symm)).1
  have kept : [a, b, a].filter keep = [a, b, a] := by simp [keep, same]
  have among (xs : List (FunctionId × Span)) : [a, b, a].Sublist xs ↔ [a, b, a].Sublist (xs.filter keep) := by
    constructor
    · intro between
      rw [← kept]
      exact between.filter keep
    · exact fun between => between.trans List.filter_sublist
  rw [among, stable_sort_filter alike, ← among]

theorem in_place_nodup_iff : (inPlace calls).Nodup ↔
    ∀ a b, [a, b, a].Sublist calls → a.2.position = b.2.position → a = b := by
  unfold inPlace
  rw [drop_repeats_nodup_iff]
  constructor
  · intro together a b between same
    exact together a b ((by_place_between_iff same).mpr between)
  · intro together a b between
    -- what stands between two equal ones starts where they do
    have sorted := (by_place_sorted calls).sublist between
    simp only [List.pairwise_cons, List.mem_cons, List.not_mem_nil, or_false, forall_eq_or_imp, forall_eq] at sorted
    have same : a.2.position = b.2.position := Span.position_eq_iff.mpr ⟨sorted.1.1, sorted.2.1⟩
    exact together a b ((by_place_between_iff same).mp between) same

end Places

def Program.Warns (p : Program) (call : FunctionId × Span) (d : Diagnostic) : Prop :=
  ∃ callee, p.functions[call.1.index]? = some callee ∧ d = .ofWarning (.recursivePurityCheck callee.name) call.2

def Diagnostics.recursion (found : List Diagnostic) : List Diagnostic := found.filter Diagnostic.isRecursionWarning

variable {p : Program} {facts after : Facts} {g : FunctionId} {f : Function} {found : List Diagnostic}

theorem recursion_warning_warns {call : FunctionId × Span} {d : Diagnostic} (ran : p.recursionWarning call = .ok d) :
    p.Warns call d := by
  unfold Program.recursionWarning at ran
  cases looked : p.functionAt call.1 with
  | error e =>
    rw [looked] at ran
    cases ran
  | ok callee =>
    rw [looked] at ran
    cases ran
    exact ⟨callee, function_at_ok_iff.mp looked, rfl⟩

theorem recursion_warnings_warn {calls : List (FunctionId × Span)} (warn : p.options.warnOnRecursivePurity = true)
    (ran : p.recursionWarnings calls = .ok found) : List.Forall₂ p.Warns (inPlace calls) found := by
  unfold Program.recursionWarnings at ran
  rw [if_pos warn] at ran
  change (inPlace calls).mapM p.recursionWarning = .ok found at ran
  obtain ⟨again, ran', warned⟩ := map_ok (R := p.Warns) (inPlace calls) (fun call member => by
    obtain ⟨d, told⟩ := map_ok_each ran member
    exact ⟨d, told, recursion_warning_warns told⟩)
  rw [ran] at ran'
  cases ran'
  exact warned

theorem warnings_recursion {calls : List (FunctionId × Span)} (ran : p.recursionWarnings calls = .ok found) :
    Diagnostics.recursion found = found := by
  have none := recursion_warnings_fade ran
  refine List.filter_eq_self.mpr fun d member => ?_
  by_contra lasting
  exact absurd (List.mem_filter.mpr ⟨member, by simp [lasting]⟩) (none ▸ List.not_mem_nil)

theorem violation_recursive {access : Access} {answer : Option Program.Violation} (consistent : p.Consistent)
    (here : p.functions[g.index]? = some f) (idle : facts.summaries.state (access, g) ≠ .inProgress)
    (ran : p.violation? access f facts = (.ok answer, after)) {v : Program.Violation} (broken : answer = some v) :
    ∃ s, after.summaries.state (access, g) = .computed s ∧ v.recursive = s.recursive := by
  unfold Program.violation? at ran
  split at ran
  · rw [consistent.functionIds _ _ here] at ran
    obtain ⟨summary, middle, asked, rest⟩ := bind_ok_split ran
    obtain ⟨s, rfl, known⟩ := summary_kept idle asked
    dsimp only at rest
    split at rest
    · cases rest
      cases broken
    · cases rest
      cases broken
      exact ⟨s, known, rfl⟩
  · cases ran
    cases broken

namespace Compilation
variable {options : Options} {modules : List Tree.Module} {c : Compilation}

def recursiveCalls (c : Compilation) (access : Access) (g : FunctionId) : List (FunctionId × Span) :=
  match (c.session.answer (.summary access g)).1 with
  | .ok (.summary (some s)) => s.recursive
  | _ => []

/-- The recursive calls behind the claims that a function is told to break, those of its reads first. -/
def behind (c : Compilation) (g : FunctionId) : List (FunctionId × Span) :=
  [Access.read, .write].flatMap (fun access => if (c.told access g).isEmpty then [] else c.recursiveCalls access g)

def recursionTold (c : Compilation) (g : FunctionId) : List Diagnostic :=
  Diagnostics.recursion (c.facts.report .validation (.function g))

theorem recursive_calls_known (here : c.program.functions[g.index]? = some f) {access : Access} {s : EffectSummary}
    (known : c.facts.summaries.state (access, g) = .computed s) : c.recursiveCalls access g = s.recursive := by
  have answered : (c.session.answer (.summary access g)).1 = .ok (.summary (some s)) := by
    change ((Answer.summary <$> c.program.summary access g) c.facts).1 = _
    rw [run_map, summary_known here known]
  unfold recursiveCalls
  rw [answered]

theorem behind_claim {access : Access} {answer : Option Program.Violation}
    (told : c.told access g
      = ((answer.map Program.Violation.cause).map (fun cause => Diagnostic.ofError cause f.nameSpan)).toList)
    (listed : ∀ v, answer = some v → c.recursiveCalls access g = v.recursive) :
    (if (c.told access g).isEmpty then [] else c.recursiveCalls access g)
      = answer.toList.flatMap Program.Violation.recursive := by
  rw [told]
  cases answer with
  | none => rfl
  | some v => simpa using listed v rfl

theorem written_declared (bound : bind options modules = .ok c) (here : c.program.functions[g.index]? = some f)
    (written : f.body ≠ none) : .function g ∈ c.program.declarations := by
  obtain ⟨_, _, _, lexical, _⟩ := bind_completes bound
  rcases Program.function_places lexical here with ⟨bodyless, _⟩ | ⟨decl, member, _⟩
  · exact absurd bodyless written
  · rw [lexical.declarations]
    exact List.mem_map.mpr ⟨_, member, rfl⟩

theorem claims_warned (bound : bind options modules = .ok c) (here : c.program.functions[g.index]? = some f)
    (written : f.body ≠ none) : c.program.recursionWarnings (c.behind g) = .ok (c.recursionTold g) := by
  obtain ⟨_, _, _, lexical, consistent, complete, _⟩ := bind_completes bound
  obtain ⟨_, _, faithful, _, _, upright⟩ := session_upright bound
  have declared := written_declared bound here written
  obtain ⟨found, state, _, f', here', checked⟩ := complete.claims _ (.inl declared)
  rw [here] at here'
  cases here'
  rw [if_neg written] at checked
  obtain ⟨body, spelled⟩ := Option.ne_none_iff_exists'.mp written
  obtain ⟨reads, middle, first, rest⟩ := bind_ok_split (checked c.facts (fun _ _ known => known))
  obtain ⟨writes, last, second, rest⟩ := bind_ok_split rest
  obtain ⟨warnings, warned, ended⟩ := look_up_split rest
  obtain ⟨same, rfl⟩ := Prod.mk.inj ended
  obtain rfl := Except.ok.inj same
  have idle {facts : Facts} (fits : Facts.Upright c.program c.facts.links
      (Facts.Settled c.program c.facts.links) {} facts) (k) : facts.summaries.state k ≠ .inProgress := by
    rw [Ne, fits.running]
    simp [Cells.state]
  obtain ⟨upright', ofReads⟩ :=
    violation_told (settled_groundwork _ _) consistent lexical faithful here spelled upright first
  obtain ⟨_, ofWrites⟩ :=
    violation_told (settled_groundwork _ _) consistent lexical faithful here spelled upright' second
  have told {access : Access} {answer : Option Program.Violation}
      (broken : answer.map Program.Violation.cause = c.program.brokenClaim c.facts.links f body access) :
      c.told access g
        = ((answer.map Program.Violation.cause).map (fun cause => Diagnostic.ofError cause f.nameSpan)).toList := by
    rw [told_verdict bound declared here, Program.verdict, spelled, Option.bind_some, broken]
  have further := violation_grows c.program .write f middle
  rw [second] at further
  have calls : c.behind g = (reads.toList ++ writes.toList).flatMap Program.Violation.recursive := by
    rw [behind, List.flatMap_cons, List.flatMap_singleton, List.flatMap_append]
    refine congrArg₂ _ (behind_claim (told ofReads) ?_) (behind_claim (told ofWrites) ?_)
    · intro v broken
      obtain ⟨s, known, listed⟩ := violation_recursive consistent here (idle upright _) first broken
      rw [listed, recursive_calls_known here (further.sums _ _ known)]
    · intro v broken
      obtain ⟨s, known, listed⟩ := violation_recursive consistent here (idle upright' _) second broken
      rw [listed, recursive_calls_known here known]
  have errors : Diagnostics.recursion
      ((reads.toList ++ writes.toList).map (fun v => Diagnostic.ofError v.cause f.nameSpan)) = [] := by
    refine List.filter_eq_nil_iff.mpr fun d member => ?_
    obtain ⟨v, _, rfl⟩ := List.mem_map.mp member
    exact Bool.false_ne_true
  have only : c.recursionTold g = warnings := by
    unfold recursionTold
    rw [Facts.report_of_state state]
    unfold Diagnostics.recursion at errors ⊢
    rw [List.filter_append, errors, List.nil_append]
    exact warnings_recursion warned
  rw [calls, only]
  exact warned

/-- Some calls have one warning each, in their order. They are those behind the claims that a function breaks, by
place. -/
structure WarnsOf (c : Compilation) (g : FunctionId) (calls : List (FunctionId × Span)) : Prop where
  warnings : List.Forall₂ c.program.Warns calls (c.recursionTold g)
  ordered : calls.Pairwise (fun a b => a.2.startsBy b.2 = true)
  all : ∀ call, call ∈ calls ↔ call ∈ c.behind g

theorem warns_in_place (bound : bind options modules = .ok c) (warn : options.warnOnRecursivePurity = true)
    (here : c.program.functions[g.index]? = some f) (written : f.body ≠ none) :
    c.WarnsOf g (inPlace (c.behind g)) := by
  obtain ⟨_, _, built, _⟩ := bind_ok_parts bound
  have switched : c.program.options.warnOnRecursivePurity = true := by rw [(construct_lexical built).1, warn]
  exact ⟨recursion_warnings_warn switched (claims_warned bound here written), in_place_ordered _,
    fun _ => in_place_member_iff⟩

theorem warns_nodup {calls more : List (FunctionId × Span)} (first : c.WarnsOf g calls) (second : c.WarnsOf g more)
    (distinct : calls.Nodup) : more.Nodup := by
  have within : calls.Subperm more :=
    List.subperm_of_subset distinct (fun call member => (second.all call).mpr ((first.all call).mp member))
  have long : more.length ≤ calls.length := by rw [first.warnings.length_eq, second.warnings.length_eq]
  exact (within.perm_of_length_le long).nodup_iff.mp distinct

end Compilation

open Compilation

/-- With the option on, the warnings for a function are those for the recursive calls behind the claims that it breaks,
by place, and each of these calls is warned of. There is one warning for each call if and only if no call is found both
before and after a different one that starts at the same place. -/
theorem recursion_is_told_once_unless_interleaved {options : Options} {modules : List Tree.Module} {c : Compilation}
    (bound : bind options modules = .ok c) (warn : options.warnOnRecursivePurity = true) {g : FunctionId} {f : Function}
    (here : c.program.functions[g.index]? = some f) (written : f.body ≠ none) :
    (∃ calls, c.WarnsOf g calls) ∧
      ((∃ calls, c.WarnsOf g calls ∧ calls.Nodup) ↔
        ∀ a b, [a, b, a].Sublist (c.behind g) → a.2.position = b.2.position → a = b) := by
  have warns := warns_in_place bound warn here written
  refine ⟨⟨_, warns⟩, ?_⟩
  rw [← in_place_nodup_iff]
  constructor
  · rintro ⟨calls, others, distinct⟩
    exact warns_nodup others warns distinct
  · exact fun distinct => ⟨_, warns, distinct⟩

/-- A function on numbers that claims to be pure and calls itself twice, the second time on what the first call
returns. -/
def Tree.chained (inner outer : Span) : Tree.Module :=
  let int : Tree.TypeExpr := { name := ⟨"Int", {}⟩, span := {} }
  let again (object : Tree.Expr) (span : Span) : Tree.Expr :=
    .invocation (.member object ⟨"f", {}⟩ false {}) [] span
  let body : Tree.Block := .mk
    [.variable ⟨⟨"n", {}⟩, false, none, some (.number (.int 1) {}), {}⟩,
      .ret (some (again (again (Tree.name "n") inner) outer)) {}] {}
  { path := []
    imports := []
    items := [.function ⟨⟨"f", {}⟩, { claimsPure := true }, some int, [], some int, some body, {}⟩]
    notices := []
    span := {} }

def Compilation.warned (c : Compilation) (g : Nat) : List (FunctionId × Span) × List Span :=
  (c.behind ⟨g⟩, (c.recursionTold ⟨g⟩).map (fun d => d.error.span))

theorem calls_on_two_lines_are_told_once : ∃ c, bind {} [Tree.chained ⟨7, 1, 5⟩ ⟨8, 1, 5⟩] = .ok c ∧
    c.warned 21 = ([(⟨21⟩, ⟨7, 1, 5⟩), (⟨21⟩, ⟨8, 1, 5⟩), (⟨21⟩, ⟨7, 1, 5⟩), (⟨21⟩, ⟨8, 1, 5⟩)],
      [⟨7, 1, 5⟩, ⟨8, 1, 5⟩]) ∧
    ∃ calls, c.WarnsOf ⟨21⟩ calls ∧ calls.Nodup := by
  obtain ⟨c, bound, promises, warned⟩ := ok_of_passed
    (P := fun c => c.promises 21 = true ∧ c.warned 21
      = ([(⟨21⟩, ⟨7, 1, 5⟩), (⟨21⟩, ⟨8, 1, 5⟩), (⟨21⟩, ⟨7, 1, 5⟩), (⟨21⟩, ⟨8, 1, 5⟩)], [⟨7, 1, 5⟩, ⟨8, 1, 5⟩]))
    (x := bind {} [Tree.chained ⟨7, 1, 5⟩ ⟨8, 1, 5⟩]) (by decide +kernel)
  obtain ⟨_, f, here, written, _⟩ := promises_pure promises
  refine ⟨c, bound, warned, ?_⟩
  rw [(recursion_is_told_once_unless_interleaved bound rfl (g := ⟨21⟩) here written).2, ← in_place_nodup_iff,
    (Prod.mk.inj warned).1]
  decide

/-- A call and the one on its result start at the same place. The reads have found both before the writes find the first
one again, so each is told twice. -/
theorem chained_calls_are_told_twice : ∃ c, bind {} [Tree.chained ⟨7, 1, 5⟩ ⟨7, 1, 9⟩] = .ok c ∧
    c.promises 21 = true ∧
    c.warned 21 = ([(⟨21⟩, ⟨7, 1, 5⟩), (⟨21⟩, ⟨7, 1, 9⟩), (⟨21⟩, ⟨7, 1, 5⟩), (⟨21⟩, ⟨7, 1, 9⟩)],
      [⟨7, 1, 5⟩, ⟨7, 1, 9⟩, ⟨7, 1, 5⟩, ⟨7, 1, 9⟩]) ∧
    ¬∃ calls, c.WarnsOf ⟨21⟩ calls ∧ calls.Nodup := by
  obtain ⟨c, bound, promises, warned⟩ := ok_of_passed
    (P := fun c => c.promises 21 = true ∧ c.warned 21
      = ([(⟨21⟩, ⟨7, 1, 5⟩), (⟨21⟩, ⟨7, 1, 9⟩), (⟨21⟩, ⟨7, 1, 5⟩), (⟨21⟩, ⟨7, 1, 9⟩)],
        [⟨7, 1, 5⟩, ⟨7, 1, 9⟩, ⟨7, 1, 5⟩, ⟨7, 1, 9⟩]))
    (x := bind {} [Tree.chained ⟨7, 1, 5⟩ ⟨7, 1, 9⟩]) (by decide +kernel)
  obtain ⟨_, f, here, written, _⟩ := promises_pure promises
  refine ⟨c, bound, promises, warned, ?_⟩
  rintro ⟨calls, warns, distinct⟩
  have again := warns_nodup warns (warns_in_place bound rfl here written) distinct
  rw [(Prod.mk.inj warned).1] at again
  exact absurd again (by decide)

end SemanticAnalysis
