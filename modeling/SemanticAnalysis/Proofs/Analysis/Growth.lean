import SemanticAnalysis.Proofs.Running
import SemanticAnalysis.Proofs.Traversal
/-!
What all work of analysis has in common. Facts that were found stay, cells that hold a value keep it, and the cells in
progress are the same afterwards as before, also when the work fails.

Work on a node asks for the types (or effects) of other declarations. Two works agree on a region of states if they do
the same from every state of it. Work that asks two sources agrees wherever the sources agree on the states in which
they are asked; so what the work does says at which states it asks.
-/
namespace SemanticAnalysis
open Facts Table

namespace Table
variable {κ ν : Type} [DecidableEq κ]

def Grows (before after : Table κ ν) : Prop := ∀ k v, before.find? k = some v → after.find? k = some v

theorem grows_refl (t : Table κ ν) : t.Grows t := fun _ _ found => found

theorem grows_trans {s t u : Table κ ν} (first : s.Grows t) (second : t.Grows u) : s.Grows u :=
  fun k v found => second k v (first k v found)

theorem grows_insert_new (t : Table κ ν) (k : κ) (v : ν) : t.Grows (t.insertNew k v) := by
  intro j w found
  rw [find_insert_new]
  split
  · rename_i same
    subst same
    simp [found]
  · exact found

end Table

namespace Cells
variable {κ α : Type} [DecidableEq κ]

theorem state_insert (cells : Cells κ α) (k j : κ) (m : Memo α) :
    Cells.state (cells.insert k m) j = if j = k then m else cells.state j := by
  unfold state
  rw [find_insert]
  split <;> rfl

/-- The same cells are in progress, and values stay. -/
structure Settles (before after : Cells κ α) : Prop where
  running : ∀ k, after.state k = .inProgress ↔ before.state k = .inProgress
  computed : ∀ k v, before.state k = .computed v → after.state k = .computed v

theorem settles_refl (cells : Cells κ α) : cells.Settles cells := ⟨fun _ => .rfl, fun _ _ found => found⟩

theorem settles_trans {a b c : Cells κ α} (first : a.Settles b) (second : b.Settles c) : a.Settles c :=
  ⟨fun k => (second.running k).trans (first.running k), fun k v found => second.computed k v (first.computed k v found)⟩

theorem settles_through {before after : Cells κ α} {k : κ} {m : Memo α} (unknown : before.state k = .unknown)
    (inside : Settles (before.insert k .inProgress) after) (left : m ≠ .inProgress) :
    Settles before (after.insert k m) := by
  constructor
  · intro j
    rw [state_insert]
    split
    · rename_i same
      subst same
      simp [unknown, left]
    · rename_i different
      rw [inside.running j, state_insert, if_neg different]
  · intro j v found
    rw [state_insert]
    split
    · rename_i same
      subst same
      simp [unknown] at found
    · rename_i different
      apply inside.computed j v
      rw [state_insert, if_neg different, found]

end Cells

namespace Facts

structure Extends (before after : Facts) : Prop where
  referrals : before.referrals.Grows after.referrals
  types : before.types.Grows after.types
  dispatched : before.dispatched.Grows after.dispatched
  variableTypes : before.variableTypes.Grows after.variableTypes
  returnTypes : before.returnTypes.Grows after.returnTypes
  phases : Cells.Settles before.phases after.phases
  summaries : Cells.Settles before.summaries after.summaries

variable (facts : Facts)

theorem extends_refl : facts.Extends facts :=
  ⟨grows_refl _, grows_refl _, grows_refl _, grows_refl _, grows_refl _,
    Cells.settles_refl _, Cells.settles_refl _⟩

theorem extends_trans {a b c : Facts} (first : a.Extends b) (second : b.Extends c) : a.Extends c :=
  ⟨grows_trans first.referrals second.referrals, grows_trans first.types second.types,
    grows_trans first.dispatched second.dispatched, grows_trans first.variableTypes second.variableTypes,
    grows_trans first.returnTypes second.returnTypes, Cells.settles_trans first.phases second.phases,
    Cells.settles_trans first.summaries second.summaries⟩

theorem extends_record_referral (node : NodeId) (r : Referral) : facts.Extends (facts.recordReferral node r) :=
  { extends_refl facts with referrals := grows_insert_new _ _ _ }

theorem extends_record_type (node : NodeId) (t : Option TypeRef) : facts.Extends (facts.recordType node t) :=
  { extends_refl facts with types := grows_insert_new _ _ _ }

theorem extends_record_dispatch (node : NodeId) (f : FunctionId) : facts.Extends (facts.recordDispatch node f) :=
  { extends_refl facts with dispatched := grows_insert_new _ _ _ }

theorem extends_record_variable_type (v : VariableId) (t : Option TypeRef) :
    facts.Extends (facts.recordVariableType v t) :=
  { extends_refl facts with variableTypes := grows_insert_new _ _ _ }

theorem extends_record_return_type (f : FunctionId) (t : Option TypeRef) :
    facts.Extends (facts.recordReturnType f t) :=
  { extends_refl facts with returnTypes := grows_insert_new _ _ _ }

variable {facts}

theorem extends_through_phase {after : Facts} {d : Declaration} {phase : Phase} {m : Memo (List Diagnostic)}
    (unknown : (phaseCell d phase).read facts = .unknown)
    (inside : ((phaseCell d phase).write .inProgress facts).Extends after) (left : m ≠ .inProgress) :
    facts.Extends ((phaseCell d phase).write m after) :=
  { referrals := inside.referrals
    types := inside.types
    dispatched := inside.dispatched
    variableTypes := inside.variableTypes
    returnTypes := inside.returnTypes
    phases := Cells.settles_through unknown inside.phases left
    summaries := inside.summaries }

theorem extends_through_summary {after : Facts} {access : Access} {f : FunctionId} {m : Memo EffectSummary}
    (unknown : (summaryCell access f).read facts = .unknown)
    (inside : ((summaryCell access f).write .inProgress facts).Extends after) (left : m ≠ .inProgress) :
    facts.Extends ((summaryCell access f).write m after) :=
  { referrals := inside.referrals
    types := inside.types
    dispatched := inside.dispatched
    variableTypes := inside.variableTypes
    returnTypes := inside.returnTypes
    phases := inside.phases
    summaries := Cells.settles_through unknown inside.summaries left }

end Facts

namespace Analysis
open Running
variable {α β : Type}

/-- The two works do the same from every state of the region, and only extend what is known. -/
def Agree (region : Facts → Prop) (x y : Analysis α) : Prop :=
  ∀ facts, region facts → x facts = y facts ∧ facts.Extends (x facts).2

def Stable (region : Facts → Prop) : Prop := ∀ facts after, region facts → facts.Extends after → region after

def Grows (x : Analysis α) : Prop := ∀ facts : Facts, facts.Extends (x facts).2

theorem grows_iff_agree {x : Analysis α} : Grows x ↔ Agree (fun _ => True) x x :=
  ⟨fun grows facts _ => ⟨rfl, grows facts⟩, fun agree facts => (agree facts trivial).2⟩

variable {region inner : Facts → Prop}

theorem agree_of_grows {x : Analysis α} (grows : Grows x) : Agree region x x := fun facts _ => ⟨rfl, grows facts⟩

theorem agree_pure (a : α) : Agree region (pure a) (pure a) := fun facts _ => ⟨rfl, extends_refl facts⟩

theorem agree_throw (e : InternalError) : Agree region (throw e : Analysis α) (throw e) :=
  fun facts _ => ⟨rfl, extends_refl facts⟩

theorem agree_get : Agree region get get := fun facts _ => ⟨rfl, extends_refl facts⟩

theorem agree_lift (x : Except InternalError α) : Agree region (liftM x) (liftM x) :=
  fun facts _ => ⟨rfl, extends_refl facts⟩

theorem agree_modify {f : Facts → Facts} (grows : ∀ facts : Facts, facts.Extends (f facts)) :
    Agree region (modify f) (modify f) := fun facts _ => ⟨rfl, grows facts⟩

theorem agree_bind (stable : Stable region) {x y : Analysis α} {f g : α → Analysis β} (first : Agree region x y)
    (second : ∀ a, Agree region (f a) (g a)) : Agree region (x >>= f) (y >>= g) := by
  intro facts inside
  obtain ⟨same, grows⟩ := first facts inside
  rw [run_bind, run_bind, ← same]
  rcases ran : x facts with ⟨r, after⟩
  rw [ran] at grows
  cases r with
  | error e => exact ⟨rfl, grows⟩
  | ok a =>
    obtain ⟨same', grows'⟩ := second a after (stable facts after inside grows)
    exact ⟨same', extends_trans grows grows'⟩

theorem agree_lift_bind {x : Except InternalError α} {f g : α → Analysis β}
    (second : ∀ a, x = .ok a → Agree region (f a) (g a)) : Agree region (liftM x >>= f) (liftM x >>= g) := by
  intro facts inside
  rw [run_bind, run_bind, run_lift]
  cases x with
  | error e => exact ⟨rfl, extends_refl facts⟩
  | ok a => exact second a rfl facts inside

theorem agree_collect (stable : Stable region) {f g : α → Analysis (List β)} (xs : List α)
    (each : ∀ x ∈ xs, Agree region (f x) (g x)) : Agree region (collect f xs) (collect g xs) := by
  induction xs with
  | nil => exact agree_pure []
  | cons x xs ih =>
    refine agree_bind stable (each x (by simp)) (fun first => ?_)
    refine agree_bind stable (ih (fun z member => each z (List.mem_cons_of_mem _ member))) (fun others => ?_)
    exact agree_pure _

theorem grows_bind {x : Analysis α} {f : α → Analysis β} (first : Grows x) (second : ∀ a, Grows (f a)) :
    Grows (x >>= f) :=
  grows_iff_agree.mpr (agree_bind (fun _ _ _ _ => trivial) (agree_of_grows first) (fun a => agree_of_grows (second a)))

theorem grows_pure (a : α) : Grows (pure a) := fun facts => extends_refl facts

theorem grows_throw (e : InternalError) : Grows (throw e : Analysis α) := fun facts => extends_refl facts

theorem grows_get : Grows get := fun facts => extends_refl facts

theorem grows_lift (x : Except InternalError α) : Grows (liftM x) := fun facts => extends_refl facts

theorem grows_collect {f : α → Analysis (List β)} (xs : List α) (each : ∀ x ∈ xs, Grows (f x)) :
    Grows (collect f xs) :=
  grows_iff_agree.mpr
    (agree_collect (fun _ _ _ _ => trivial) xs (fun x member => agree_of_grows (each x member)))

/-- A cell lets the work inside it see only states in which the cell is in progress. -/
theorem agree_compute {cell : Cell Facts α} {x y : Analysis α}
    (through : ∀ facts after m, cell.read facts = .unknown → (cell.write .inProgress facts).Extends after →
      m ≠ .inProgress → facts.Extends (cell.write m after))
    (enter : ∀ facts, region facts → cell.read facts = .unknown → inner (cell.write .inProgress facts))
    (same : Agree inner x y) : Agree region (cell.compute x) (cell.compute y) := by
  intro facts inside
  unfold Cell.compute
  cases state : cell.read facts with
  | unknown =>
    obtain ⟨equal, grows⟩ := same _ (enter facts inside state)
    dsimp only
    rw [← equal]
    rcases ran : x (cell.write .inProgress facts) with ⟨r, after⟩
    rw [ran] at grows
    cases r with
    | ok value => exact ⟨rfl, through facts after _ state grows (by simp)⟩
    | error e => exact ⟨rfl, through facts after _ state grows (by simp)⟩
  | _ => exact ⟨rfl, extends_refl facts⟩

theorem agree_once (stable : Stable region) {d : Declaration} {phase : Phase} {x y : Analysis (List Diagnostic)}
    (enter : ∀ facts, region facts → (Facts.phaseCell d phase).read facts = .unknown →
      inner ((Facts.phaseCell d phase).write .inProgress facts))
    (same : Agree inner x y) : Agree region (once d phase x) (once d phase y) := by
  refine agree_bind stable (agree_compute ?_ enter same) (fun findings => agree_pure _)
  intro facts after m unknown inside left
  exact extends_through_phase unknown inside left

theorem grows_once {d : Declaration} {phase : Phase} {x : Analysis (List Diagnostic)} (body : Grows x) :
    Grows (once d phase x) :=
  grows_iff_agree.mpr (agree_once (fun _ _ _ _ => trivial) (fun _ _ _ => trivial) (grows_iff_agree.mp body))

end Analysis

end SemanticAnalysis
