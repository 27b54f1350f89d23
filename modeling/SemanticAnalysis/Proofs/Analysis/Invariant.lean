import SemanticAnalysis.Proofs.Analysis.Consistency
/-!
The invariant of analysis: the facts found so far speak only of what the program has, and the cells in progress are
the ones that were entered further out. Work succeeds under the invariant if from every state that has it the work
ends without a fault in a state that has it again. Entering a cell leaves one idle cell less.
-/
namespace SemanticAnalysis
open Running Analysis Program Table Cells

namespace Cells
variable {κ α : Type} [DecidableEq κ]

/-- How many of some cells are not in progress. -/
def idle (keys : List κ) (cells : Cells κ α) : Nat := keys.countP (fun k => !(cells.state k).isInProgress)

theorem is_in_progress_iff {m : Memo α} : m.isInProgress = true ↔ m = .inProgress := by
  cases m <;> simp [Memo.isInProgress]

theorem idle_bounded (keys : List κ) (cells : Cells κ α) : idle keys cells ≤ keys.length := List.countP_le_length

theorem idle_congr (keys : List κ) {before after : Cells κ α}
    (same : ∀ k, after.state k = .inProgress ↔ before.state k = .inProgress) : idle keys after = idle keys before := by
  apply List.countP_congr
  intro k _
  have iff := same k
  rw [← is_in_progress_iff, ← is_in_progress_iff, ← Bool.eq_iff_iff] at iff
  rw [iff]

theorem idle_enter_le (keys : List κ) (cells : Cells κ α) (k : κ) :
    idle keys (cells.insert k .inProgress) ≤ idle keys cells := by
  apply List.countP_mono_left
  intro j _
  rw [state_insert]
  split
  · simp [Memo.isInProgress]
  · exact id

theorem idle_enter {keys : List κ} {cells : Cells κ α} {k : κ} (member : k ∈ keys)
    (outside : cells.state k ≠ .inProgress) : idle keys (cells.insert k .inProgress) < idle keys cells := by
  induction keys with
  | nil => simp at member
  | cons j rest ih =>
    have others := idle_enter_le rest cells k
    unfold idle at others ih ⊢
    rw [List.countP_cons, List.countP_cons]
    by_cases same : j = k
    · have before : (cells.state j).isInProgress = false := by
        rw [same]
        simpa [← is_in_progress_iff] using outside
      have after : (Cells.state (cells.insert k .inProgress) j).isInProgress = true := by
        rw [state_insert, if_pos same]
        rfl
      simp only [before, after, Bool.not_true, Bool.not_false, if_true, Bool.false_eq_true, if_false]
      omega
    · have strict := ih ((List.mem_cons.mp member).resolve_left (Ne.symm same))
      rw [state_insert, if_neg same]
      omega

theorem running_enter {base cells : Cells κ α}
    (same : ∀ j, cells.state j = .inProgress ↔ base.state j = .inProgress) (k j : κ) :
    Cells.state (cells.insert k .inProgress) j = .inProgress ↔
      Cells.state (base.insert k .inProgress) j = .inProgress := by
  rw [state_insert, state_insert]
  split
  · exact .rfl
  · exact same j

theorem running_leave {base after : Cells κ α} {k : κ} {m : Memo α} (outside : base.state k ≠ .inProgress)
    (left : m ≠ .inProgress)
    (same : ∀ j, after.state j = .inProgress ↔ Cells.state (base.insert k .inProgress) j = .inProgress) (j : κ) :
    Cells.state (after.insert k m) j = .inProgress ↔ base.state j = .inProgress := by
  have inner := same j
  rw [state_insert] at inner ⊢
  split
  · rename_i here
    subst here
    exact iff_of_false left outside
  · rename_i different
    rw [inner, if_neg different]

end Cells

namespace Program

def typingKeys (p : Program) : List (Declaration × Phase) :=
  (List.range p.functions.size).map (fun i => (.function ⟨i⟩, .typing)) ++
    (List.range p.vars.size).map (fun i => (.variable ⟨i⟩, .typing))

def summaryKeys (p : Program) (access : Access) : List (Access × FunctionId) :=
  (List.range p.functions.size).map (fun i => (access, ⟨i⟩))

def idleTypings (p : Program) (facts : Facts) : Nat := Cells.idle p.typingKeys facts.phases

def idleSummaries (p : Program) (access : Access) (facts : Facts) : Nat :=
  Cells.idle (p.summaryKeys access) facts.summaries

variable {p : Program}

theorem function_typing_key {id : FunctionId} (there : p.HasFunction id) :
    (Declaration.function id, Phase.typing) ∈ p.typingKeys :=
  List.mem_append_left _ (List.mem_map.mpr ⟨id.index, List.mem_range.mpr there, rfl⟩)

theorem variable_typing_key {id : VariableId} (there : p.HasVariable id) :
    (Declaration.variable id, Phase.typing) ∈ p.typingKeys :=
  List.mem_append_right _ (List.mem_map.mpr ⟨id.index, List.mem_range.mpr there, rfl⟩)

theorem summary_key {access : Access} {id : FunctionId} (there : p.HasFunction id) :
    (access, id) ∈ p.summaryKeys access :=
  List.mem_map.mpr ⟨id.index, List.mem_range.mpr there, rfl⟩

theorem idle_typings_bounded (facts : Facts) : p.idleTypings facts ≤ p.functions.size + p.vars.size := by
  have length : p.typingKeys.length = p.functions.size + p.vars.size := by simp [typingKeys]
  exact length ▸ idle_bounded p.typingKeys facts.phases

theorem idle_summaries_bounded (access : Access) (facts : Facts) :
    p.idleSummaries access facts ≤ p.functions.size := by
  have length : (p.summaryKeys access).length = p.functions.size := by simp [summaryKeys]
  exact length ▸ idle_bounded (p.summaryKeys access) facts.summaries

end Program

namespace Table
variable {κ ν : Type} [DecidableEq κ]

def All (P : ν → Prop) (t : Table κ ν) : Prop := ∀ k v, t.find? k = some v → P v

theorem all_empty (P : ν → Prop) : All P ({} : Table κ ν) := by
  intro k v found
  simp at found

theorem all_insert_new {P : ν → Prop} {t : Table κ ν} {k : κ} {v : ν} (old : t.All P) (new : P v) :
    (t.insertNew k v).All P := by
  intro j w found
  rw [find_insert_new] at found
  split at found
  · cases here : t.find? k with
    | none =>
      rw [here] at found
      cases found
      exact new
    | some first =>
      rw [here] at found
      cases found
      exact old k first here
  · exact old j w found

end Table

def EffectSummary.Known (p : Program) (s : EffectSummary) : Prop := ∀ call ∈ s.recursive, p.HasFunction call.1

namespace Facts

/-- Everything found is about something that the program has. -/
structure Valid (p : Program) (facts : Facts) : Prop where
  referrals : facts.referrals.All p.HasReferent
  types : facts.types.All p.KnowsType
  dispatched : facts.dispatched.All p.HasFunction
  variableTypes : facts.variableTypes.All p.KnowsType
  returnTypes : facts.returnTypes.All p.KnowsType
  summaries : ∀ k s, facts.summaries.state k = .computed s → s.Known p

structure SameRunning (before after : Facts) : Prop where
  phases : ∀ k, after.phases.state k = .inProgress ↔ before.phases.state k = .inProgress
  summaries : ∀ k, after.summaries.state k = .inProgress ↔ before.summaries.state k = .inProgress

/-- The facts are valid, and what is in progress is what is in progress in `base`. -/
structure Sound (p : Program) (base facts : Facts) : Prop where
  valid : facts.Valid p
  running : base.SameRunning facts

variable {p : Program} {base facts : Facts}

theorem same_running_refl (facts : Facts) : facts.SameRunning facts := ⟨fun _ => .rfl, fun _ => .rfl⟩

theorem valid_empty : Valid p {} where
  referrals := all_empty _
  types := all_empty _
  dispatched := all_empty _
  variableTypes := all_empty _
  returnTypes := all_empty _
  summaries k s found := by simp [Cells.state] at found

theorem sound_record_referral {node : NodeId} {r : Referral} (sound : Sound p base facts) (there : p.HasReferent r) :
    Sound p base (facts.recordReferral node r) :=
  ⟨{ sound.valid with referrals := all_insert_new sound.valid.referrals there },
    ⟨sound.running.phases, sound.running.summaries⟩⟩

theorem sound_record_type {node : NodeId} {t : Option TypeRef} (sound : Sound p base facts) (known : p.KnowsType t) :
    Sound p base (facts.recordType node t) :=
  ⟨{ sound.valid with types := all_insert_new sound.valid.types known },
    ⟨sound.running.phases, sound.running.summaries⟩⟩

theorem sound_record_dispatch {node : NodeId} {f : FunctionId} (sound : Sound p base facts) (there : p.HasFunction f) :
    Sound p base (facts.recordDispatch node f) :=
  ⟨{ sound.valid with dispatched := all_insert_new sound.valid.dispatched there },
    ⟨sound.running.phases, sound.running.summaries⟩⟩

theorem sound_record_variable_type {v : VariableId} {t : Option TypeRef} (sound : Sound p base facts)
    (known : p.KnowsType t) : Sound p base (facts.recordVariableType v t) :=
  ⟨{ sound.valid with variableTypes := all_insert_new sound.valid.variableTypes known },
    ⟨sound.running.phases, sound.running.summaries⟩⟩

theorem sound_record_return_type {f : FunctionId} {t : Option TypeRef} (sound : Sound p base facts)
    (known : p.KnowsType t) : Sound p base (facts.recordReturnType f t) :=
  ⟨{ sound.valid with returnTypes := all_insert_new sound.valid.returnTypes known },
    ⟨sound.running.phases, sound.running.summaries⟩⟩

theorem expression_type_known (valid : facts.Valid p) (consistent : p.Consistent) :
    ∀ e : Bound.Expr, p.KnowsType (e.type facts)
  | .identifier node _ _ => node_type_known valid node
  | .number (.int _) _ => knows_some.mpr (has_builtin consistent (by decide))
  | .number .float _ => knows_some.mpr (has_builtin consistent (by decide))
  | .number (.malformed _) _ => knows_none
  | .null _ => knows_none
  | .invocation call _ _ => node_type_known valid call.node
  | .member node _ _ _ _ => node_type_known valid node
  | .paren inner _ => expression_type_known valid consistent inner
where
  node_type_known (valid : facts.Valid p) (node : NodeId) : p.KnowsType (facts.typeOf? node) := by
    intro known found
    exact valid.types node (some known) (Option.join_eq_some_iff.mp found) known rfl

end Facts

namespace Analysis
variable {α β : Type} {I : Facts → Prop} {P : α → Prop} {Q : β → Prop}

/-- From every state with the invariant the work ends with a result, and in a state with the invariant. -/
def Succeeds (I : Facts → Prop) (x : Analysis α) (P : α → Prop) : Prop :=
  ∀ facts, I facts → ∃ a after, x facts = (.ok a, after) ∧ I after ∧ P a

def Runs (I : Facts → Prop) (x : Analysis α) : Prop := Succeeds I x (fun _ => True)

theorem succeeds_pure {a : α} (holds : P a) : Succeeds I (pure a) P :=
  fun facts inv => ⟨a, facts, rfl, inv, holds⟩

theorem succeeds_bind {x : Analysis α} {f : α → Analysis β} (first : Succeeds I x P)
    (second : ∀ a, P a → Succeeds I (f a) Q) : Succeeds I (x >>= f) Q := by
  intro facts inv
  obtain ⟨a, middle, ran, inv', holds⟩ := first facts inv
  obtain ⟨b, after, ran', inv'', holds'⟩ := second a holds middle inv'
  exact ⟨b, after, by rw [run_bind_ok ran, ran'], inv'', holds'⟩

theorem succeeds_get : Succeeds I get I := fun facts inv => ⟨facts, facts, rfl, inv, inv⟩

theorem succeeds_look_up {x : Except InternalError α} {f : α → Analysis β} {a : α} (found : x = .ok a)
    (rest : Succeeds I (f a) Q) : Succeeds I (liftM x >>= f) Q := by
  subst found
  exact rest

theorem succeeds_modify {f : Facts → Facts} (keeps : ∀ facts, I facts → I (f facts)) : Runs I (modify f) :=
  fun facts inv => ⟨⟨⟩, f facts, rfl, keeps facts inv, trivial⟩

theorem succeeds_weaken {x : Analysis α} {P' : α → Prop} (strong : Succeeds I x P) (weaker : ∀ a, P a → P' a) :
    Succeeds I x P' := by
  intro facts inv
  obtain ⟨a, after, ran, inv', holds⟩ := strong facts inv
  exact ⟨a, after, ran, inv', weaker a holds⟩

theorem runs_of_succeeds {x : Analysis α} (strong : Succeeds I x P) : Runs I x :=
  succeeds_weaken strong (fun _ _ => trivial)

theorem runs_pure (a : α) : Runs I (pure a) := succeeds_pure trivial

theorem runs_bind {x : Analysis α} {f : α → Analysis β} (first : Runs I x) (second : ∀ a, Succeeds I (f a) Q) :
    Succeeds I (x >>= f) Q :=
  succeeds_bind first (fun a _ => second a)

theorem succeeds_map {x : Analysis α} {f : α → β} (work : Succeeds I x P) (maps : ∀ a, P a → Q (f a)) :
    Succeeds I (f <$> x) Q := by
  rw [map_eq_pure_bind]
  exact succeeds_bind work (fun a holds => succeeds_pure (maps a holds))

theorem succeeds_collect {f : α → Analysis (List β)} (xs : List α)
    (each : ∀ x ∈ xs, Succeeds I (f x) (fun ys => ∀ y ∈ ys, Q y)) :
    Succeeds I (collect f xs) (fun ys => ∀ y ∈ ys, Q y) := by
  induction xs with
  | nil => exact succeeds_pure (by simp)
  | cons x xs ih =>
    refine succeeds_bind (each x (by simp)) (fun first holds => ?_)
    refine succeeds_bind (ih (fun z member => each z (List.mem_cons_of_mem _ member))) (fun others holds' => ?_)
    refine succeeds_pure (fun y member => ?_)
    exact (List.mem_append.mp member).elim (holds y) (holds' y)

theorem runs_collect {f : α → Analysis (List β)} (xs : List α) (each : ∀ x ∈ xs, Runs I (f x)) :
    Runs I (collect f xs) :=
  runs_of_succeeds (succeeds_collect xs (Q := fun _ => True)
    (fun x member => succeeds_weaken (each x member) (fun _ _ _ _ => trivial)))

variable {p : Program} {base : Facts}

theorem runs_once {d : Declaration} {phase : Phase} {body : Analysis (List Diagnostic)}
    (inside : base.phases.state (d, phase) ≠ .inProgress →
      Runs (Facts.Sound p ((Facts.phaseCell d phase).write .inProgress base)) body) :
    Runs (Facts.Sound p base) (once d phase body) := by
  refine runs_bind ?_ (fun findings => runs_pure _)
  intro facts sound
  unfold Cell.compute
  cases state : (Facts.phaseCell d phase).read facts with
  | unknown =>
    change facts.phases.state (d, phase) = .unknown at state
    have outside : base.phases.state (d, phase) ≠ .inProgress := by
      rw [Ne, ← sound.running.phases, state]
      simp
    have entered : Facts.Sound p ((Facts.phaseCell d phase).write .inProgress base)
        ((Facts.phaseCell d phase).write .inProgress facts) :=
      ⟨{ sound.valid with }, ⟨running_enter sound.running.phases _, sound.running.summaries⟩⟩
    obtain ⟨value, after, ran, sound', _⟩ := inside outside _ entered
    rw [ran]
    refine ⟨some value, (Facts.phaseCell d phase).write (.computed value) after, rfl, ?_, trivial⟩
    exact ⟨{ sound'.valid with },
      ⟨running_leave outside (by simp) sound'.running.phases, sound'.running.summaries⟩⟩
  | _ => exact ⟨_, facts, rfl, sound, trivial⟩

theorem succeeds_summary {access : Access} {f : FunctionId} {body : Analysis EffectSummary}
    (inside : base.summaries.state (access, f) ≠ .inProgress →
      Succeeds (Facts.Sound p ((Facts.summaryCell access f).write .inProgress base)) body (EffectSummary.Known p)) :
    Succeeds (Facts.Sound p base) ((Facts.summaryCell access f).compute body)
      (fun answer => ∀ s, answer = some s → s.Known p) := by
  have known_insert : ∀ {cells : Cells (Access × FunctionId) EffectSummary} {m : Memo EffectSummary},
      (∀ k s, cells.state k = .computed s → s.Known p) → (∀ s, m = .computed s → s.Known p) →
      ∀ k s, Cells.state (cells.insert (access, f) m) k = .computed s → s.Known p := by
    intro cells m old new k s found
    rw [state_insert] at found
    split at found
    · exact new s found
    · exact old k s found
  intro facts sound
  unfold Cell.compute
  cases state : (Facts.summaryCell access f).read facts with
  | computed value =>
    refine ⟨_, facts, rfl, sound, ?_⟩
    intro s same
    cases same
    exact sound.valid.summaries _ _ state
  | inProgress => exact ⟨_, facts, rfl, sound, by simp⟩
  | unknown =>
    change facts.summaries.state (access, f) = .unknown at state
    have outside : base.summaries.state (access, f) ≠ .inProgress := by
      rw [Ne, ← sound.running.summaries, state]
      simp
    have entered : Facts.Sound p ((Facts.summaryCell access f).write .inProgress base)
        ((Facts.summaryCell access f).write .inProgress facts) :=
      ⟨{ sound.valid with summaries := known_insert sound.valid.summaries (by simp) },
        ⟨sound.running.phases, running_enter sound.running.summaries _⟩⟩
    obtain ⟨value, after, ran, sound', known⟩ := inside outside _ entered
    rw [ran]
    refine ⟨some value, (Facts.summaryCell access f).write (.computed value) after, rfl, ?_, by simpa using known⟩
    exact ⟨{ sound'.valid with summaries := known_insert sound'.valid.summaries (by simpa using known) },
      ⟨sound'.running.phases, running_leave outside (by simp) sound'.running.summaries⟩⟩

end Analysis

end SemanticAnalysis
