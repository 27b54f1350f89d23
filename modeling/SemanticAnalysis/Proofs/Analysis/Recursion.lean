import SemanticAnalysis.Proofs.Analysis.Success
/-!
The recursion behind types and effects. Finding out the type of a declaration may ask for the types of others, and
finding out the effects of a function for the effects of others; between two such questions the work follows the
syntax. A question is asked only from inside a cell that was idle, and all cells that were in progress stay so. Hence
no call stack enters a cell twice, the number of idle cells decreases from question to question, and the bounds in the
definitions play no part: the answers satisfy the equations without them.
-/
namespace SemanticAnalysis
open Cells
open Program
open Analysis

inductive TypeQuestion where
  | ofVariable (id : VariableId)
  | ofFunction (id : FunctionId)

def TypeQuestion.declaration : TypeQuestion → Declaration
  | .ofVariable id => .variable id
  | .ofFunction id => .function id

def TypeSource.answer (ask : TypeSource) : TypeQuestion → Analysis (Option TypeRef)
  | .ofVariable id => ask.variableType id
  | .ofFunction id => ask.returnType id

namespace Program

def typesUsing (p : Program) (ask : TypeSource) : TypeSource := ⟨p.variableTypeUsing ask, p.returnTypeUsing ask⟩

/-- Answering one question from one state looks at the answer to another question from another state: the outcome can
be changed by changing that answer alone. -/
def AsksType (p : Program) (asker asked : TypeQuestion × Facts) : Prop :=
  ∃ ask ask' : TypeSource, (∀ q, Grows (ask.answer q)) ∧
    (∀ q facts, (q, facts) ≠ asked → ask.answer q facts = ask'.answer q facts) ∧
    (p.typesUsing ask).answer asker.1 asker.2 ≠ (p.typesUsing ask').answer asker.1 asker.2

def AsksSummary (p : Program) (access : Access) (asker asked : FunctionId × Facts) : Prop :=
  ∃ ask ask' : SummarySource, (∀ f, Grows (ask f)) ∧
    (∀ f facts, (f, facts) ≠ asked → ask f facts = ask' f facts) ∧
    p.summaryUsing access ask asker.1 asker.2 ≠ p.summaryUsing access ask' asker.1 asker.2

end Program

namespace Cells
variable {κ α : Type} [DecidableEq κ]

/-- One cell was idle and is in progress, and the cells that were in progress still are. -/
structure Entered (k : κ) (before inside : Cells κ α) : Prop where
  idle : before.state k ≠ .inProgress
  running : inside.state k = .inProgress
  kept : ∀ j, before.state j = .inProgress → inside.state j = .inProgress

theorem idle_of_entered {keys : List κ} {k : κ} {before inside : Cells κ α} (member : k ∈ keys)
    (entered : Entered k before inside) : idle keys inside < idle keys before := by
  refine Nat.lt_of_le_of_lt ?_ (idle_enter member entered.idle)
  apply List.countP_mono_left
  intro j _
  have kept : Cells.state (before.insert k .inProgress) j = .inProgress → inside.state j = .inProgress := by
    rw [state_insert]
    split
    · rename_i same
      exact fun _ => same ▸ entered.running
    · exact entered.kept j
  rw [← is_in_progress_iff, ← is_in_progress_iff] at kept
  simp only [Bool.not_eq_eq_eq_not, Bool.not_true]
  cases running : (Cells.state (before.insert k .inProgress) j).isInProgress with
  | false => simp
  | true => simp [kept running]

theorem entered_trans {k l : κ} {a b c : Cells κ α} (first : Entered k a b) (second : Entered l b c) :
    Entered k a c :=
  ⟨first.idle, second.kept k first.running, fun j running => second.kept j (first.kept j running)⟩

theorem entered_once {k l : κ} {a b c : Cells κ α} (outer : Entered k a b) (inner : Entered l b c) : k ≠ l := by
  rintro rfl
  exact inner.idle outer.running

theorem entered_stable {k : κ} {before inside after : Cells κ α} (entered : Entered k before inside)
    (settles : inside.Settles after) : Entered k before after :=
  ⟨entered.idle, (settles.running k).mpr entered.running,
    fun j running => (settles.running j).mpr (entered.kept j running)⟩

theorem entered_insert {k j : κ} {before inside : Cells κ α} (entered : Entered k before inside) :
    Entered k before (inside.insert j .inProgress) := by
  have still : ∀ i, inside.state i = .inProgress → Cells.state (inside.insert j .inProgress) i = .inProgress := by
    intro i running
    rw [state_insert]
    split
    · rfl
    · exact running
  exact ⟨entered.idle, still k entered.running, fun i running => still i (entered.kept i running)⟩

theorem entered_here {k : κ} {before here : Cells κ α}
    (same : ∀ j, here.state j = .inProgress ↔ before.state j = .inProgress) (unknown : here.state k = .unknown) :
    Entered k before (here.insert k .inProgress) := by
  have kept : ∀ j, before.state j = .inProgress → Cells.state (here.insert k .inProgress) j = .inProgress := by
    intro j running
    rw [state_insert]
    split
    · rfl
    · exact (same j).mpr running
  refine ⟨?_, ?_, kept⟩
  · rw [Ne, ← same, unknown]
    simp
  · rw [state_insert, if_pos rfl]

end Cells

theorem same_running_stable (facts : Facts) : Stable (fun s => facts.SameRunning s) := by
  intro s after same grows
  exact ⟨fun k => (grows.phases.running k).trans (same.phases k),
    fun k => (grows.summaries.running k).trans (same.summaries k)⟩

variable {p : Program}

theorem asks_type_enters {asker asked : TypeQuestion × Facts} (asks : p.AsksType asker asked) :
    (asker.1.declaration, .typing) ∈ p.typingKeys ∧
      Cells.Entered (asker.1.declaration, .typing) asker.2.phases asked.2.phases := by
  obtain ⟨ask, ask', grow, agree, differ⟩ := asks
  by_contra outside
  let region : Facts → Prop := fun s => (asker.1.declaration, Phase.typing) ∈ p.typingKeys ∧
    Cells.Entered (asker.1.declaration, Phase.typing) asker.2.phases s.phases
  have within : Region region := by
    constructor
    · exact fun s after inside grows => ⟨inside.1, entered_stable inside.2 grows.phases⟩
    · exact fun s d phase inside _ => ⟨inside.1, entered_insert inside.2⟩
  have sources : ask.Agree region ask' := by
    have same : ∀ q s, region s → ask.answer q s = ask'.answer q s := by
      intro q s inside
      apply agree
      rintro rfl
      exact outside inside
    exact ⟨fun v s inside => ⟨same (.ofVariable v) s inside, grow (.ofVariable v) s⟩,
      fun f s inside => ⟨same (.ofFunction f) s inside, grow (.ofFunction f) s⟩⟩
  obtain ⟨q, facts⟩ := asker
  apply differ
  have start := Facts.same_running_refl facts
  cases q with
  | ofVariable id =>
    refine (variable_type_agrees within (same_running_stable facts) sources id ?_ facts start).1
    intro s there same unknown
    exact ⟨variable_typing_key there, entered_here same.phases unknown⟩
  | ofFunction id =>
    refine (return_type_agrees within (same_running_stable facts) sources id ?_ facts start).1
    intro s there same unknown
    exact ⟨function_typing_key there, entered_here same.phases unknown⟩

variable {access : Access}

theorem asks_summary_enters {asker asked : FunctionId × Facts}
    (asks : p.AsksSummary access asker asked) :
    (access, asker.1) ∈ p.summaryKeys access ∧
      Cells.Entered (access, asker.1) asker.2.summaries asked.2.summaries := by
  obtain ⟨ask, ask', grow, agree, differ⟩ := asks
  by_contra outside
  let region : Facts → Prop := fun s => (access, asker.1) ∈ p.summaryKeys access ∧
    Cells.Entered (access, asker.1) asker.2.summaries s.summaries
  have stable : Stable region :=
    fun s after inside grows => ⟨inside.1, entered_stable inside.2 grows.summaries⟩
  have sources : ∀ f, Agree region (ask f) (ask' f) := by
    refine fun f s inside => ⟨agree f s ?_, grow f s⟩
    rintro rfl
    exact outside inside
  obtain ⟨id, facts⟩ := asker
  have same : Agree (fun s => facts.SameRunning s) (p.summaryUsing access ask id) (p.summaryUsing access ask' id) := by
    refine summary_agrees stable sources id ?_
    intro s there same unknown
    exact ⟨summary_key there, entered_here same.summaries unknown⟩
  exact differ (same facts (Facts.same_running_refl facts)).1

theorem asks_type_decreases {asker asked : TypeQuestion × Facts} (asks : p.AsksType asker asked) :
    p.idleTypings asked.2 < p.idleTypings asker.2 :=
  idle_of_entered (asks_type_enters asks).1 (asks_type_enters asks).2

theorem asks_summary_decreases {asker asked : FunctionId × Facts}
    (asks : p.AsksSummary access asker asked) : p.idleSummaries access asked.2 < p.idleSummaries access asker.2 :=
  idle_of_entered (asks_summary_enters asks).1 (asks_summary_enters asks).2

theorem stack_cells_distinct {α κ ν : Type} [DecidableEq κ] {asks : α → α → Prop} (cell : α → κ)
    (cells : α → Cells κ ν) (enters : ∀ a b, asks a b → Cells.Entered (cell a) (cells a) (cells b))
    {stack : List α} (calls : stack.IsChain asks) : (stack.dropLast.map cell).Nodup := by
  let enter : α → α → Prop := fun a b => Cells.Entered (cell a) (cells a) (cells b)
  have : Trans enter enter enter := ⟨fun first second => entered_trans first second⟩
  have pairs : stack.Pairwise enter := List.isChain_iff_pairwise.mp (calls.imp enters)
  induction stack with
  | nil => simp
  | cons a rest ih =>
    obtain ⟨first, others⟩ := List.pairwise_cons.mp pairs
    cases rest with
    | nil => simp
    | cons b rest =>
      rw [List.dropLast_cons_cons, List.map_cons, List.nodup_cons]
      refine ⟨?_, ih (List.isChain_cons_cons.mp calls).2 others⟩
      intro member
      obtain ⟨c, below, same⟩ := List.mem_map.mp member
      have last : ∃ d, enter c d := by
        obtain ⟨pre, post, split⟩ := List.append_of_mem below
        have whole := List.dropLast_append_getLast (List.cons_ne_nil b rest)
        rw [split, List.append_assoc] at whole
        rw [← whole, List.pairwise_append] at others
        have tail := (List.pairwise_cons.mp others.2.1).1
        exact ⟨_, tail _ (List.mem_append_right _ (List.mem_singleton_self _))⟩
      obtain ⟨d, inner⟩ := last
      exact entered_once (first c ((List.dropLast_sublist _).subset below)) inner same.symm

theorem idle_typings_region (k : Nat) : Region (fun facts => p.idleTypings facts < k) := by
  constructor
  · intro facts after few grows
    change Cells.idle _ after.phases < k
    rw [idle_congr _ grows.phases.running]
    exact few
  · exact fun facts d phase few _ => Nat.lt_of_le_of_lt (idle_enter_le _ _ _) few

theorem idle_summaries_stable (access : Access) (k : Nat) : Stable (fun facts => p.idleSummaries access facts < k) := by
  intro facts after few grows
  change Cells.idle _ after.summaries < k
  rw [idle_congr _ grows.summaries.running]
  exact few

/-- One step: sources that agree where few cells are idle make answers that agree where one more is idle. -/
theorem types_using_agree {k : Nat} {ask ask' : TypeSource}
    (sources : ask.Agree (fun facts => p.idleTypings facts < k) ask') :
    (p.typesUsing ask).Agree (fun facts => p.idleTypings facts < k + 1) (p.typesUsing ask') := by
  have stable := (idle_typings_region (p := p) (k + 1)).stable
  have enters : ∀ (facts : Facts) (d : Declaration), (d, .typing) ∈ p.typingKeys → p.idleTypings facts < k + 1 →
      (Facts.phaseCell d .typing).read facts = .unknown →
      p.idleTypings ((Facts.phaseCell d .typing).write .inProgress facts) < k := by
    intro facts d member few unknown
    change facts.phases.state (d, .typing) = .unknown at unknown
    have fewer := idle_typings_enter member (by rw [unknown]; simp)
    omega
  exact ⟨fun v => variable_type_agrees (idle_typings_region k) stable sources v
      (fun facts there => enters facts _ (variable_typing_key there)),
    fun f => return_type_agrees (idle_typings_region k) stable sources f
      (fun facts there => enters facts _ (function_typing_key there))⟩

theorem summary_using_agree {k : Nat} {ask ask' : SummarySource}
    (sources : ∀ f, Agree (fun facts => p.idleSummaries access facts < k) (ask f) (ask' f)) (f : FunctionId) :
    Agree (fun facts => p.idleSummaries access facts < k + 1) (p.summaryUsing access ask f)
      (p.summaryUsing access ask' f) := by
  refine summary_agrees (idle_summaries_stable access k) sources f ?_
  intro facts there few unknown
  change facts.summaries.state (access, f) = .unknown at unknown
  have fewer : p.idleSummaries access ((Facts.summaryCell access f).write .inProgress facts) <
      p.idleSummaries access facts := idle_enter (summary_key there) (by rw [unknown]; simp)
  omega

/-- Where few cells are idle, any two large enough bounds give the same answers. -/
theorem types_within_agree {k d e : Nat} (first : k ≤ d) (second : k ≤ e) :
    (p.typesWithin d).Agree (fun facts => p.idleTypings facts < k) (p.typesWithin e) := by
  induction k generalizing d e with
  | zero => exact ⟨fun _ _ few => absurd few (Nat.not_lt_zero _), fun _ _ few => absurd few (Nat.not_lt_zero _)⟩
  | succ k ih =>
    obtain ⟨d, rfl⟩ : ∃ d', d = d' + 1 := ⟨d - 1, by omega⟩
    obtain ⟨e, rfl⟩ : ∃ e', e = e' + 1 := ⟨e - 1, by omega⟩
    exact types_using_agree (ih (Nat.le_of_succ_le_succ first) (Nat.le_of_succ_le_succ second))

theorem summaries_within_agree (access : Access) {k d e : Nat} (first : k ≤ d) (second : k ≤ e) (f : FunctionId) :
    Agree (fun facts => p.idleSummaries access facts < k) (p.summariesWithin access d f)
      (p.summariesWithin access e f) := by
  induction k generalizing d e f with
  | zero => exact fun _ few => absurd few (Nat.not_lt_zero _)
  | succ k ih =>
    obtain ⟨d, rfl⟩ : ∃ d', d = d' + 1 := ⟨d - 1, by omega⟩
    obtain ⟨e, rfl⟩ : ∃ e', e = e' + 1 := ⟨e - 1, by omega⟩
    exact summary_using_agree (ih (Nat.le_of_succ_le_succ first) (Nat.le_of_succ_le_succ second)) f

theorem type_source_unfolds (p : Program) : p.typeSource = p.typesUsing p.typeSource := by
  have same := types_within_agree (p := p) (Nat.le_refl (p.functions.size + p.vars.size + 1)) (Nat.le_succ _)
  change p.typesWithin _ = p.typesWithin (_ + 1)
  rw [TypeSource.mk.injEq]
  constructor
  · funext v facts
    exact (same.1 v facts (few_typings facts)).1
  · funext f facts
    exact (same.2 f facts (few_typings facts)).1

theorem summary_unfolds (p : Program) (access : Access) :
    p.summary access = p.summaryUsing access (p.summary access) := by
  funext f facts
  exact (summaries_within_agree access (Nat.le_refl (p.functions.size + 1)) (Nat.le_succ _) f facts
    (few_summaries access facts)).1

theorem type_source_unique {ask : TypeSource} (unfolds : ask = p.typesUsing ask) : ask = p.typeSource := by
  have agrees : ∀ k, ask.Agree (fun facts => p.idleTypings facts < k) (p.typesWithin k) := by
    intro k
    induction k with
    | zero => exact ⟨fun _ _ few => absurd few (Nat.not_lt_zero _), fun _ _ few => absurd few (Nat.not_lt_zero _)⟩
    | succ k ih =>
      rw [unfolds]
      exact types_using_agree ih
  have same := agrees (p.functions.size + p.vars.size + 1)
  obtain ⟨variableType, returnType⟩ := ask
  rw [TypeSource.mk.injEq]
  constructor
  · funext v facts
    exact (same.1 v facts (few_typings facts)).1
  · funext f facts
    exact (same.2 f facts (few_typings facts)).1

theorem summary_unique {ask : SummarySource} (unfolds : ask = p.summaryUsing access ask) :
    ask = p.summary access := by
  have agrees : ∀ k f,
      Agree (fun facts => p.idleSummaries access facts < k) (ask f) (p.summariesWithin access k f) := by
    intro k
    induction k with
    | zero => exact fun f _ few => absurd few (Nat.not_lt_zero _)
    | succ k ih =>
      intro f
      rw [unfolds]
      exact summary_using_agree ih f
  funext f facts
  exact (agrees _ f facts (few_summaries access facts)).1

end SemanticAnalysis
