import SemanticAnalysis.Proofs.Compilation.Topics
import SemanticAnalysis.Proofs.Rewording.Basic
/-!
Analyses that go side by side. They find out the same facts, and findings that are related in one way or another. As in
any reasoning about single runs there is one rule for each way to put work together.
-/
namespace SemanticAnalysis
open Running Analysis SemanticAnalysis.Bound

inductive Memo.Matches {α : Type} (rel : α → α → Prop) : Memo α → Memo α → Prop where
  | unknown : Matches rel .unknown .unknown
  | inProgress : Matches rel .inProgress .inProgress
  | computed {a b : α} (related : rel a b) : Matches rel (.computed a) (.computed b)

theorem Memo.matches_refl {α : Type} (m : Memo α) : m.Matches Eq m := by
  cases m with
  | unknown => exact .unknown
  | inProgress => exact .inProgress
  | computed value => exact .computed rfl

theorem Memo.matches_eq {α : Type} {m m' : Memo α} (matched : m.Matches Eq m') : m' = m := by
  cases matched with
  | unknown => rfl
  | inProgress => rfl
  | computed same => rw [same]

/-- The same facts, and related findings. -/
structure Facts.Matches (rel : List Diagnostic → List Diagnostic → Prop) (facts other : Facts) : Prop where
  referrals : other.referrals = facts.referrals
  types : other.types = facts.types
  dispatched : other.dispatched = facts.dispatched
  variableTypes : other.variableTypes = facts.variableTypes
  returnTypes : other.returnTypes = facts.returnTypes
  summaries : other.summaries = facts.summaries
  phases : ∀ key, (facts.phases.state key).Matches rel (other.phases.state key)

namespace Facts
variable {rel : List Diagnostic → List Diagnostic → Prop} {facts other : Facts}

theorem matches_empty : Matches rel {} {} := ⟨rfl, rfl, rfl, rfl, rfl, rfl, fun _ => .unknown⟩

theorem matches_type (matched : facts.Matches rel other) : ∀ e : Expr, e.type other = e.type facts :=
  fun _ => type_same fun _ _ => by rw [matched.types]

theorem matches_phase (matched : facts.Matches rel other) (d : Declaration) (phase : Phase)
    {m m' : Memo (List Diagnostic)} (related : m.Matches rel m') :
    ((phaseCell d phase).write m facts).Matches rel ((phaseCell d phase).write m' other) := by
  refine { matched with phases := fun key => ?_ }
  rw [state_write, state_write]
  split
  · exact related
  · exact matched.phases key

theorem matches_summary (matched : facts.Matches rel other) (access : Access) (f : FunctionId)
    (m : Memo EffectSummary) :
    ((summaryCell access f).write m facts).Matches rel ((summaryCell access f).write m other) := by
  refine { matched with summaries := ?_ }
  change other.summaries.insert (access, f) m = facts.summaries.insert (access, f) m
  rw [matched.summaries]

end Facts

namespace Analysis
variable {α β γ δ : Type} {rel : List Diagnostic → List Diagnostic → Prop} {R : α → β → Prop} {Q : γ → δ → Prop}

/-- From matching facts, if the first ends with a result, so does the second; the results are related, and the facts
match again. -/
def Accords (rel : List Diagnostic → List Diagnostic → Prop) (R : α → β → Prop) (x : Analysis α) (y : Analysis β) :
    Prop :=
  ∀ facts other, facts.Matches rel other → ∀ a after, x facts = (.ok a, after) →
    ∃ b after', y other = (.ok b, after') ∧ R a b ∧ after.Matches rel after'

theorem accords_pure {a : α} {b : β} (related : R a b) : Accords rel R (pure a) (pure b) := by
  intro facts other matched c after ran
  cases ran
  exact ⟨b, other, rfl, related, matched⟩

theorem accords_throw (e : InternalError) (y : Analysis β) : Accords rel R (throw e) y := by
  intro facts other matched c after ran
  cases ran

theorem accords_bind {x : Analysis α} {y : Analysis β} {f : α → Analysis γ} {g : β → Analysis δ}
    (first : Accords rel R x y) (second : ∀ a b, R a b → Accords rel Q (f a) (g b)) :
    Accords rel Q (x >>= f) (y >>= g) := by
  intro facts other matched c after ran
  obtain ⟨a, middle, step, rest⟩ := bind_ok_split ran
  obtain ⟨b, middle', step', related, matched'⟩ := first facts other matched a middle step
  rw [run_bind_ok step']
  exact second a b related middle middle' matched' c after rest

theorem accords_map {x : Analysis α} {y : Analysis β} {f : α → γ} {g : β → δ} (work : Accords rel R x y)
    (related : ∀ a b, R a b → Q (f a) (g b)) : Accords rel Q (f <$> x) (g <$> y) := by
  rw [map_eq_pure_bind, map_eq_pure_bind]
  exact accords_bind work fun a b here => accords_pure (related a b here)

theorem accords_get {f : Facts → Analysis γ} {g : Facts → Analysis δ}
    (rest : ∀ facts other, facts.Matches rel other → Accords rel Q (f facts) (g other)) :
    Accords rel Q (get >>= f) (get >>= g) :=
  fun facts other matched => rest facts other matched facts other matched

theorem accords_lift {x : Except InternalError α} {y : Except InternalError β} {f : α → Analysis γ} {g : β → Analysis δ}
    (rest : ∀ a, x = .ok a → ∃ b, y = .ok b ∧ Accords rel Q (f a) (g b)) :
    Accords rel Q (liftM x >>= f) (liftM y >>= g) := by
  intro facts other matched c after ran
  cases x with
  | error e => cases ran
  | ok a =>
    obtain ⟨b, ran', accords⟩ := rest a rfl
    rw [run_look_up ran']
    exact accords facts other matched c after ran

theorem accords_look_up {x : Except InternalError α} {y : Except InternalError β} {f : α → Analysis γ}
    {g : β → Analysis δ} {k : α → β} (same : y = x.map k) (rest : ∀ a, x = .ok a → Accords rel Q (f a) (g (k a))) :
    Accords rel Q (liftM x >>= f) (liftM y >>= g) :=
  accords_lift fun a found => ⟨k a, by rw [same, found]; rfl, rest a found⟩

theorem accords_modify {f g : Facts → Facts}
    (step : ∀ facts other, facts.Matches rel other → (f facts).Matches rel (g other)) :
    Accords rel Eq (modify f) (modify g) := by
  intro facts other matched c after ran
  cases ran
  exact ⟨(), g other, rfl, rfl, step facts other matched⟩

theorem accords_collect {ι κ : Type} {R : List α → List β → Prop} {f : ι → Analysis (List α)}
    {g : κ → Analysis (List β)} (h : ι → κ) (none : R [] [])
    (append : ∀ xs ys xs' ys', R xs ys → R xs' ys' → R (xs ++ xs') (ys ++ ys')) (xs : List ι)
    (each : ∀ x ∈ xs, Accords rel R (f x) (g (h x))) : Accords rel R (collect f xs) (collect g (xs.map h)) := by
  induction xs with
  | nil => exact accords_pure none
  | cons x xs ih =>
    rw [List.map_cons, collect_cons, collect_cons]
    refine accords_bind (each x List.mem_cons_self) (fun first first' related => ?_)
    refine accords_bind (ih fun x' member => each x' (List.mem_cons_of_mem x member)) (fun others others' more => ?_)
    exact accords_pure (append _ _ _ _ related more)

/-- A cell whose states match on both sides is computed on both sides or on neither. -/
theorem accords_compute {cell : Cell Facts α} {rel' : α → α → Prop} {body body' : Analysis α}
    (read : ∀ facts other, facts.Matches rel other → (cell.read facts).Matches rel' (cell.read other))
    (write : ∀ facts other m m', facts.Matches rel other → m.Matches rel' m' →
      (cell.write m facts).Matches rel (cell.write m' other))
    (inside : Accords rel rel' body body') :
    Accords rel (Option.Rel rel') (cell.compute body) (cell.compute body') := by
  intro facts other matched c after ran
  have state := read facts other matched
  unfold Cell.compute at ran ⊢
  generalize cell.read facts = m at ran state
  generalize cell.read other = m' at state ⊢
  cases state with
  | computed related =>
    cases ran
    exact ⟨_, other, rfl, .some related, matched⟩
  | inProgress =>
    cases ran
    exact ⟨none, other, rfl, .none, matched⟩
  | unknown =>
    dsimp only at ran ⊢
    split at ran
    · rename_i value middle step
      cases ran
      obtain ⟨value', middle', step', related, matched'⟩ :=
        inside _ _ (write facts other .inProgress .inProgress matched .inProgress) value middle step
      rw [step']
      exact ⟨some value', _, rfl, .some related, write _ _ _ _ matched' (.computed related)⟩
    · cases ran

theorem accords_once {d : Declaration} {phase : Phase} {body body' : Analysis (List Diagnostic)} (none : rel [] [])
    (inside : Accords rel rel body body') : Accords rel rel (once d phase body) (once d phase body') := by
  refine accords_bind (accords_compute (fun _ _ matched => matched.phases (d, phase))
    (fun _ _ _ _ matched related => Facts.matches_phase matched d phase related) inside) (fun a b related => ?_)
  cases related with
  | none => exact accords_pure none
  | some found => exact accords_pure found

theorem accords_summary {access : Access} {f : FunctionId} {body body' : Analysis EffectSummary}
    (inside : Accords rel Eq body body') :
    Accords rel Eq ((Facts.summaryCell access f).compute body) ((Facts.summaryCell access f).compute body') := by
  have cell : Accords rel (Option.Rel Eq) ((Facts.summaryCell access f).compute body)
      ((Facts.summaryCell access f).compute body') := by
    refine accords_compute (fun facts other matched => ?_) (fun facts other m m' matched related => ?_) inside
    · change Memo.Matches Eq (facts.summaries.state (access, f)) (other.summaries.state (access, f))
      rw [matched.summaries]
      exact Memo.matches_refl _
    · rw [Memo.matches_eq related]
      exact Facts.matches_summary matched access f m
  intro facts other matched a after ran
  obtain ⟨b, after', ran', related, matched'⟩ := cell facts other matched a after ran
  refine ⟨b, after', ran', ?_, matched'⟩
  cases related with
  | none => rfl
  | some same => rw [same]

end Analysis

end SemanticAnalysis
