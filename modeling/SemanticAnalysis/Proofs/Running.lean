import Mathlib.Data.List.Forall2
import SemanticAnalysis.Memo
/-!
Running work that has a state and may fail. There are two kinds. Analysis keeps what it found when it fails, and
construction is given up as a whole. For each kind: what a sequence of steps does, said by what its first step does.
-/
namespace SemanticAnalysis
variable {σ ε α β : Type}

theorem each_snoc {P : α → Prop} {xs : List α} {x : α} (all : ∀ y ∈ xs, P y) (last : P x) : ∀ y ∈ xs ++ [x], P y :=
  List.forall_mem_append.mpr ⟨all, List.forall_mem_singleton.mpr last⟩

namespace Running

section Keeping
variable (s : σ)

theorem run_bind (x : ExceptT ε (StateM σ) α) (f : α → ExceptT ε (StateM σ) β) :
    (x >>= f) s = match x s with
      | (.ok a, t) => f a t
      | (.error e, t) => (.error e, t) := by
  change (match x s with | (r, t) => ExceptT.bindCont f r t) = _
  rcases x s with ⟨r, t⟩
  cases r <;> rfl

theorem run_get : (get : ExceptT ε (StateM σ) σ) s = (.ok s, s) := rfl

theorem run_lift (x : Except ε α) : (liftM x : ExceptT ε (StateM σ) α) s = (x, s) := rfl

theorem run_map (f : α → β) (x : ExceptT ε (StateM σ) α) :
    (f <$> x) s = match x s with
      | (.ok a, t) => (.ok (f a), t)
      | (.error e, t) => (.error e, t) := by
  rw [map_eq_pure_bind, run_bind]
  rfl

theorem bind_ok_split {x : ExceptT ε (StateM σ) α} {f : α → ExceptT ε (StateM σ) β} {s u : σ} {b : β}
    (ran : (x >>= f) s = (.ok b, u)) : ∃ a t, x s = (.ok a, t) ∧ f a t = (.ok b, u) := by
  rw [run_bind] at ran
  rcases step : x s with ⟨r, t⟩
  rw [step] at ran
  cases r with
  | error e => cases ran
  | ok a => exact ⟨a, t, rfl, ran⟩

theorem look_up_split {x : Except ε α} {f : α → ExceptT ε (StateM σ) β} {s u : σ} {b : β}
    (ran : (liftM x >>= f) s = (.ok b, u)) : ∃ a, x = .ok a ∧ f a s = (.ok b, u) := by
  cases x with
  | error e => cases ran
  | ok a => exact ⟨a, rfl, ran⟩

theorem run_bind_ok {x : ExceptT ε (StateM σ) α} {f : α → ExceptT ε (StateM σ) β} {s t : σ} {a : α}
    (h : x s = (.ok a, t)) : (x >>= f) s = f a t := by
  rw [run_bind, h]

theorem run_look_up {x : Except ε α} {f : α → ExceptT ε (StateM σ) β} {s : σ} {a : α} (h : x = .ok a) :
    (liftM x >>= f) s = f a s := by
  rw [h]
  rfl

theorem run_look_up_error {x : Except ε α} {f : α → ExceptT ε (StateM σ) β} {s : σ} {e : ε} (h : x = .error e) :
    (liftM x >>= f) s = (.error e, s) := by
  rw [h]
  rfl

end Keeping

theorem ok_bind (a : α) (f : α → Except ε β) : ((.ok a : Except ε α) >>= f) = f a := rfl

theorem of_except_ok (a : α) : (MonadExcept.ofExcept (.ok a : Except ε α) : Except ε α) = .ok a := rfl

theorem map_ok {f : α → Except ε β} {R : α → β → Prop} (xs : List α)
    (each : ∀ x ∈ xs, ∃ y, f x = .ok y ∧ R x y) : ∃ ys, xs.mapM f = .ok ys ∧ List.Forall₂ R xs ys := by
  induction xs with
  | nil => exact ⟨[], rfl, .nil⟩
  | cons x xs ih =>
    obtain ⟨y, first, related⟩ := each x (by simp)
    obtain ⟨ys, rest, others⟩ := ih (fun z member => each z (List.mem_cons_of_mem _ member))
    refine ⟨y :: ys, ?_, .cons related others⟩
    rw [List.mapM_cons, first, rest]
    rfl

theorem map_cons_ok {f : α → Except ε β} {x : α} {xs : List α} {ys : List β} (ran : (x :: xs).mapM f = .ok ys) :
    ∃ z zs, f x = .ok z ∧ xs.mapM f = .ok zs ∧ ys = z :: zs := by
  rw [List.mapM_cons] at ran
  cases first : f x with
  | error e =>
    rw [first] at ran
    cases ran
  | ok z =>
    rw [first, ok_bind] at ran
    cases rest : xs.mapM f with
    | error e =>
      rw [rest] at ran
      cases ran
    | ok zs =>
      rw [rest, ok_bind] at ran
      cases ran
      exact ⟨z, zs, rfl, rfl, rfl⟩

theorem map_ok_member {f : α → Except ε β} {xs : List α} {ys : List β} (ran : xs.mapM f = .ok ys) {y : β}
    (member : y ∈ ys) : ∃ x ∈ xs, f x = .ok y := by
  induction xs generalizing ys with
  | nil =>
    cases ran
    exact absurd member List.not_mem_nil
  | cons x xs ih =>
    obtain ⟨z, zs, first, rest, rfl⟩ := map_cons_ok ran
    rcases List.mem_cons.mp member with rfl | later
    · exact ⟨x, List.mem_cons_self .., first⟩
    · obtain ⟨x', listed, here⟩ := ih rest later
      exact ⟨x', List.mem_cons_of_mem _ listed, here⟩

theorem ok_of_passed {x : Except ε α} {P : α → Prop} [DecidablePred P]
    (passed : x.toOption.any (fun a => decide (P a)) = true) : ∃ a, x = .ok a ∧ P a := by
  cases x with
  | error e => cases passed
  | ok a => exact ⟨a, rfl, of_decide_eq_true passed⟩

theorem map_ok_each {f : α → Except ε β} {xs : List α} {ys : List β} (ran : xs.mapM f = .ok ys) {x : α}
    (member : x ∈ xs) : ∃ y, f x = .ok y := by
  induction xs generalizing ys with
  | nil => exact absurd member List.not_mem_nil
  | cons z xs ih =>
    obtain ⟨y, zs, first, rest, _⟩ := map_cons_ok ran
    rcases List.mem_cons.mp member with rfl | later
    · exact ⟨y, first⟩
    · exact ih rest later

theorem filter_ok {f : α → Except ε Bool} {g : α → Bool} (xs : List α) (each : ∀ x ∈ xs, f x = .ok (g x)) :
    xs.filterM f = .ok (xs.filter g) := by
  have loop : ∀ kept : List α, List.filterAuxM f xs kept = .ok ((xs.filter g).reverse ++ kept) := by
    induction xs with
    | nil => exact fun kept => rfl
    | cons x xs ih =>
      intro kept
      have rest := ih (fun y member => each y (List.mem_cons_of_mem _ member))
      rw [List.filterAuxM, each x (by simp), ok_bind, rest]
      cases kind : g x <;> simp [kind]
  rw [List.filterM, loop []]
  simp

theorem filter_ok_subset {f : α → Except ε Bool} {xs ys : List α} (ran : xs.filterM f = .ok ys) : ys ⊆ xs := by
  have loop : ∀ kept zs : List α, List.filterAuxM f xs kept = .ok zs → zs ⊆ xs ++ kept := by
    clear ran
    induction xs with
    | nil =>
      intro kept zs ran
      cases ran
      simp
    | cons x xs ih =>
      intro kept zs ran
      cases first : f x with
      | error e =>
        rw [List.filterAuxM, first] at ran
        cases ran
      | ok r =>
        rw [List.filterAuxM, first, ok_bind] at ran
        have rest := ih _ _ ran
        cases r <;> grind
  cases found : List.filterAuxM f xs [] with
  | error e =>
    rw [List.filterM, found] at ran
    cases ran
  | ok zs =>
    rw [List.filterM, found] at ran
    cases ran
    simpa using loop [] zs found

/-- What a fold knows of the part of the list that it has seen. -/
theorem fold_ok {step : β → α → Except ε β} {I : List α → β → Prop} (xs : List α)
    (each : ∀ x ∈ xs, ∀ seen b, I seen b → ∃ c, step b x = .ok c ∧ I (seen ++ [x]) c) (seen : List α) (b : β)
    (start : I seen b) : ∃ c, xs.foldlM step b = .ok c ∧ I (seen ++ xs) c := by
  induction xs generalizing seen b with
  | nil => exact ⟨b, rfl, by simpa using start⟩
  | cons x xs ih =>
    obtain ⟨c, first, known⟩ := each x (by simp) seen b start
    obtain ⟨d, rest, all⟩ := ih (fun y member => each y (List.mem_cons_of_mem _ member)) (seen ++ [x]) c known
    rw [List.foldlM_cons, first, ok_bind]
    exact ⟨d, rest, by simpa using all⟩

end Running

end SemanticAnalysis
