import SemanticAnalysis.Proofs.Scope.Frames
/-!
Boundaries. A variable is within a boundary if it is declared somewhere on the way from a scope to the boundary. When
the boundary is moved further out, the variables that come to be within it are those that are declared on the way from
the old boundary to the new one.
-/
namespace SemanticAnalysis.ScopeTree

variable {t : ScopeTree} {id j k boundary wider : ScopeId} {v : VariableId}

theorem around_trans (first : t.Around id j) (second : t.Around j k) : t.Around id k := by
  induction first with
  | here => exact second
  | up found above _ ih => exact .up found above (ih second)

theorem around_linear (first : t.Around id j) (second : t.Around id k) : t.Around j k ∨ t.Around k j := by
  induction first with
  | here => exact .inl second
  | up found above further ih =>
    cases second with
    | here => exact .inr (.up found above further)
    | up found' above' further' =>
      rw [found] at found'
      cases found'
      rw [above] at above'
      cases above'
      exact ih further'

theorem around_smaller (ordered : t.Ordered) (around : t.Around id j) : j = id ∨ j.index < id.index := by
  induction around with
  | here => exact .inl rfl
  | up found above _ ih =>
    have smaller := ordered _ _ found _ above
    rcases ih with rfl | further
    · exact .inr smaller
    · exact .inr (by omega)

theorem around_antisymm (ordered : t.Ordered) (out : t.Around id j) (back : t.Around j id) : j = id := by
  rcases around_smaller ordered out with same | smaller
  · exact same
  · rcases around_smaller ordered back with same | larger
    · exact same.symm
    · omega

theorem inner_around (inner : t.Inner boundary id) : t.Around id boundary := by
  induction inner with
  | own => exact .here _
  | step found _ up _ ih => exact .up found up ih

def Declares (t : ScopeTree) (id : ScopeId) (v : VariableId) : Prop := ∃ s, t.get? id = some s ∧ s.declares v = true

instance (t : ScopeTree) (id : ScopeId) (v : VariableId) : Decidable (t.Declares id v) :=
  inferInstanceAs (Decidable (∃ s ∈ t.get? id, s.declares v = true))

theorem is_within_own (ordered : t.Ordered) : t.isWithin id v id = true ↔ t.Declares id v := by
  unfold isWithin
  cases found : t.get? id with
  | none =>
    rw [chain_missing found]
    simp [declaredBefore, Declares, found]
  | some s =>
    rw [chain_eq ordered found]
    simp [declaredBefore, Declares, found]

/-- The variables within a boundary are those that are declared on the way to it. -/
theorem is_within_iff_declared (ordered : t.Ordered) (around : t.Around id boundary) :
    t.isWithin id v boundary = true ↔ ∃ j, t.Around id j ∧ t.Around j boundary ∧ t.Declares j v := by
  induction around with
  | here id =>
    rw [is_within_own ordered]
    constructor
    · intro declares
      exact ⟨id, .here id, .here id, declares⟩
    · rintro ⟨j, out, back, declares⟩
      rw [around_antisymm ordered out back] at declares
      exact declares
  | @up id parent boundary s found above further ih =>
    have apart : id ≠ boundary := by
      rintro rfl
      have smaller := ordered id s found parent above
      rcases around_smaller ordered further with rfl | smaller' <;> omega
    rw [is_within_below ordered found above]
    simp only [Bool.or_eq_true, Bool.and_eq_true, bne_iff_ne, ne_eq, apart, not_false_eq_true, true_and, ih]
    constructor
    · rintro (own | ⟨j, out, rest, declares⟩)
      · exact ⟨id, .here id, .up found above further, s, found, own⟩
      · exact ⟨j, .up found above out, rest, declares⟩
    · rintro ⟨j, out, rest, declares⟩
      cases out with
      | here =>
        obtain ⟨r, found', own⟩ := declares
        rw [found] at found'
        cases found'
        exact .inl own
      | up found' above' out' =>
        rw [found] at found'
        cases found'
        rw [above] at above'
        cases above'
        exact .inr ⟨j, out', rest, declares⟩

/-- A variable is declared above a boundary, up to a wider one. -/
def DeclaredAbove (t : ScopeTree) (boundary wider : ScopeId) (v : VariableId) : Prop :=
  ∃ j ∈ t.path boundary, j ≠ boundary ∧ wider ∈ t.path j ∧ t.Declares j v

instance (t : ScopeTree) (boundary wider : ScopeId) (v : VariableId) : Decidable (t.DeclaredAbove boundary wider v) :=
  inferInstanceAs (Decidable (∃ j ∈ t.path boundary, j ≠ boundary ∧ wider ∈ t.path j ∧ t.Declares j v))

theorem is_within_widen (ordered : t.Ordered) (near : t.Around id boundary) (far : wider ∈ t.path boundary) :
    t.isWithin id v wider = true ↔ t.isWithin id v boundary = true ∨ t.DeclaredAbove boundary wider v := by
  have further := path_around far
  obtain ⟨r, there⟩ := path_member far
  rw [is_within_iff_declared ordered (around_trans near further), is_within_iff_declared ordered near]
  constructor
  · rintro ⟨j, out, rest, declares⟩
    -- all scopes around one scope are in line, so this one is at or below the boundary, or above it
    by_cases below : t.Around j boundary
    · exact .inl ⟨j, out, below, declares⟩
    · have above := (around_linear out near).resolve_left below
      have ⟨s, found, _⟩ := declares
      refine .inr ⟨j, (path_iff_around ordered found).mpr above, ?_, (path_iff_around ordered there).mpr rest, declares⟩
      rintro rfl
      exact below (.here j)
  · rintro (⟨j, out, rest, declares⟩ | ⟨j, above, _, rest, declares⟩)
    · exact ⟨j, out, around_trans rest further, declares⟩
    · exact ⟨j, around_trans near (path_around above), path_around rest, declares⟩

end SemanticAnalysis.ScopeTree
